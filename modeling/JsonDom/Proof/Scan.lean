import JsonDom.Proof.Acts
import JsonDom.Proof.Reading

/-!
# The reader comes to the automaton's verdict

`Follows v enough x after`: where `x` is a failure the verdict is that failure, where it is a result
`after` says how reading goes on, and where the fuel ran out although it was `enough` the verdict is
that there is no end. One such statement for each function of the reader (`ValueScan`, …), proved
together by induction on the fuel; `enough` is linear in what is left of the file.
-/

namespace JsonDom

open Reader

/-- The caller's record where the last collection ended behind `lastEnd` bytes. -/
def recorded (pe : JdParseError) : Option Nat → JdParseError
  | none => pe
  | some offset =>
    { charLoc := (BitVec.ofNat 32 offset).toInt, message := some "unterminated collection" }

/-- The caller's record in the end. -/
def Verdict.record (pe : JdParseError) : Verdict → JdParseError
  | .accept lastEnd => recorded pe lastEnd
  | .fail c offset lastEnd =>
    match c.message with
    | some m => { charLoc := (BitVec.ofNat 32 offset).toInt, message := some m }
    | none => recorded pe lastEnd
  | .diverge => pe

section

variable (pe : JdParseError) (ending : Ending)

/-- The automaton and the file are at the same position. -/
structure Sync (st : Scan) (s : Src) : Prop where
  offset : s.offset = st.offset
  pe : s.pe = recorded pe st.lastEnd
  ending : s.ending = ending

/-- Reading came to `x` where the automaton comes to the verdict `v`. -/
def Follows {α : Type} (v : Verdict) (enough : Prop) (x : Out α) (after : α → Src → Prop) : Prop :=
  match x with
  | .ok a s => after a s
  | .fail c s => ∃ offset lastEnd, v = .fail c offset lastEnd ∧ s.pe = v.record pe
  | .timeout => enough → v = .diverge

end

variable {pe : JdParseError} {ending : Ending}

namespace Follows

variable {α β : Type} {v : Verdict} {enough enough' : Prop} {after : α → Src → Prop}

theorem bind {x : Out α} {f : α → Src → Out β} {after' : β → Src → Prop}
    (hx : Follows pe v enough x after) (he : enough' → enough)
    (hf : ∀ a s, after a s → Follows pe v enough' (f a s) after') :
    Follows pe v enough' (x.bind f) after' := by
  cases x with
  | ok a s => exact hf a s hx
  | fail => exact hx
  | timeout => exact fun h => hx (he h)

theorem mono {x : Out α} {after' : α → Src → Prop} (hx : Follows pe v enough x after)
    (he : enough' → enough) (hf : ∀ a s, after a s → after' a s) :
    Follows pe v enough' x after' := by
  cases x with
  | ok a s => exact hf a s hx
  | fail => exact hx
  | timeout => exact fun h => hx (he h)

theorem diverge {x : Out α} (hx : Follows pe v enough x after) (hv : v = .diverge) :
    Follows pe v enough' x after := by
  cases x with
  | ok | fail => exact hx
  | timeout => exact fun _ => hv

theorem out (h : ¬ enough) : Follows pe v enough (.timeout : Out α) after := fun he => absurd he h

theorem fail {c : Check} {s : Src} {st : Scan} (hs : Sync pe ending st s)
    (hv : v = .fail c st.offset st.lastEnd) : Follows pe v enough (s.fail c) after := by
  refine ⟨_, _, hv, ?_⟩
  rw [hv]
  cases hm : c.message with
  | none => simp only [Verdict.record, hm, hs.pe]
  | some m => simp only [Verdict.record, hm, Src.report, hs.offset]

end Follows

namespace Scan

variable {st : Scan}

/-! ## The run of the automaton -/

@[simp] theorem verdict_nil (st : Scan) : st.verdict ending [] = st.atEnd ending := rfl

@[simp] theorem verdict_reject (st : Scan) (c : Check) (d : Bytes) :
    (st.enter (.reject c)).verdict ending d = .fail c st.offset st.lastEnd := by
  cases d <;> rfl

/-- The automaton behind `lexeme`. -/
def behind (st : Scan) (lexeme : Lexeme) : Scan := { st with offset := lexeme.2.2 }

theorem endBare_ok {text : Bytes} {J : Json} (h : unquoted (text.takeWhile (· ≠ 0)) = .ok J)
    (e : UInt8) : st.endBare text e = st.leave 0 e := by
  unfold endBare
  rw [h]

theorem endBare_error {text : Bytes} {c : Check}
    (h : unquoted (text.takeWhile (· ≠ 0)) = .error c) (e : UInt8) :
    st.endBare text e = st.enter (.reject c) := by
  unfold endBare
  rw [h]

/-- Only behind a string the first byte of the member matters. -/
theorem leave_unquoted {e : UInt8} (he : endCheckForUnquoted e = true) (chr chr' : UInt8) :
    st.leave chr e = st.leave chr' e := by
  have hq : e ≠ ch '"' := by
    rintro rfl
    exact absurd he (by decide)
  simp only [leave, hq, decide_false, Bool.false_and]

theorem leave_zero (st : Scan) (chr : UInt8) : st.leave chr 0 = st.resume := by
  unfold leave resume
  cases st.stack with
  | nil => rfl
  | cons k _ =>
    dsimp only
    rw [if_neg (by decide), if_neg (by cases k <;> decide), if_pos (by simp)]

theorem verdict_resume (st : Scan) :
    st.resume.verdict ending [] =
      match st.stack with
      | [] => .accept st.lastEnd
      | _ :: _ => .fail .unterminated st.offset st.lastEnd := by
  unfold resume
  cases st.stack <;> rfl

/-- A string is read to its end. -/
theorem verdict_quoted (q : Quote) (esc : Bool) (d : Bytes) (st : Scan) :
    (st.enter (.quoted q esc)).verdict ending d =
      let r := lex endCheckForQuoted esc d st.offset
      match r.1.2 with
      | some _ => ((st.behind r).afterQuote q).verdict ending r.2.1
      | none => .fail .eofInQuotes r.2.2 st.lastEnd := by
  generalize hoff : st.offset = offset
  fun_induction lex endCheckForQuoted esc d offset generalizing st with subst hoff
  | case1 => rfl
  | case2 b bs _ ih => exact ih { st with offset := st.offset + 1 } rfl
  | case3 bs _ ih => exact ih { st with offset := st.offset + 1 } rfl
  | case4 b bs _ hb he =>
    have hs : (st.enter (.quoted q false)).step b =
        ({ st with offset := st.offset + 1 }.enter (.quoted q false)).afterQuote q := by
      simp only [step, enter, if_neg hb, if_pos he, Bool.false_eq_true, if_false]
    show ((st.enter (.quoted q false)).step b).verdict ending bs = _
    rw [hs]
    cases q <;> rfl
  | case5 b bs _ hb he ih =>
    have hs : (st.enter (.quoted q false)).step b =
        { st with offset := st.offset + 1 }.enter (.quoted q false) := by
      simp only [step, enter, if_neg hb, if_neg he, Bool.false_eq_true, if_false]
    show ((st.enter (.quoted q false)).step b).verdict ending bs = _
    rw [hs]
    exact ih _ rfl

/-- An unquoted text is read to its end. -/
theorem verdict_bare (text : Bytes) (esc : Bool) (d : Bytes) (st : Scan) :
    (st.enter (.bare esc text)).verdict ending d =
      let r := lex endCheckForUnquoted esc d st.offset
      match r.1.2 with
      | some e => ((st.behind r).endBare (text ++ r.1.1) e).verdict ending r.2.1
      | none => ((st.behind r).enter (.bare esc (text ++ r.1.1))).atEnd ending := by
  generalize hoff : st.offset = offset
  fun_induction lex endCheckForUnquoted esc d offset generalizing st text with subst hoff
  | case1 => simp [behind]
  | case2 b bs _ ih =>
    refine (ih (text ++ [ch '\\', b]) { st with offset := st.offset + 1 } rfl).trans ?_
    simp only [List.append_assoc]
    rfl
  | case3 bs _ ih => exact ih text { st with offset := st.offset + 1 } rfl
  | case4 b bs _ hb he =>
    have hs : (st.enter (.bare false text)).step b =
        { st with offset := st.offset + 1 }.endBare text b := by
      simp only [step, enter, if_neg hb, if_pos he, Bool.false_eq_true, if_false]
      rfl
    show ((st.enter (.bare false text)).step b).verdict ending bs = _
    rw [hs]
    simp only [List.append_nil]
    rfl
  | case5 b bs _ hb he ih =>
    have hs : (st.enter (.bare false text)).step b =
        { st with offset := st.offset + 1 }.enter (.bare false (text ++ [b])) := by
      simp only [step, enter, if_neg hb, if_neg he, Bool.false_eq_true, if_false]
    show ((st.enter (.bare false text)).step b).verdict ending bs = _
    rw [hs, ih _ _ rfl]
    simp only [List.append_assoc]
    rfl

theorem verdict_tail (d : Bytes) (st : Scan) :
    (st.enter .tail).verdict ending d =
      match tail d st.offset with
      | (true, _, _) => .accept st.lastEnd
      | (false, _, offset) => .fail .trailing offset st.lastEnd := by
  generalize hoff : st.offset = offset
  fun_induction tail d offset generalizing st with subst hoff
  | case1 => rfl
  | case2 b bs _ hb ih =>
    refine Eq.trans ?_ (ih { st with offset := st.offset + 1 } rfl)
    show ((st.enter .tail).step b).verdict ending bs = _
    simp only [step, enter, if_pos hb]
  | case3 b bs _ hb =>
    show ((st.enter .tail).step b).verdict ending bs = _
    rw [show (st.enter .tail).step b = { st with offset := st.offset + 1 }.enter (.reject .trailing) by
      simp only [step, enter, if_neg hb], verdict_reject]

end Scan

/-! ## Between two bytes -/

section

variable (pe ending)

/-- Reading goes on in the state `next st` with the verdict `v`, where the collections `stack` are
open and at most `length` bytes are left. -/
def Onward (v : Verdict) (stack : List Kind) (length : Nat) (next : Scan → Scan) (s : Src) : Prop :=
  ∃ st, Sync pe ending st s ∧ st.stack = stack ∧ s.input.length ≤ length ∧
    v = (next st).verdict ending s.input

end

theorem Sync.read {st : Scan} {s s' : Src} {b : UInt8} (h : Sync pe ending st s)
    (hr : s.read = (.one b, s')) :
    Sync pe ending { st with offset := st.offset + 1 } s' ∧ s.input = b :: s'.input := by
  obtain ⟨hate, hpe⟩ := read_one hr
  exact ⟨⟨by rw [hate.offset, h.offset]; rfl, hpe.trans h.pe, hate.ending.trans h.ending⟩, hate.input⟩

theorem Sync.lex {st : Scan} {s s' : Src} {stop : UInt8 → Bool} {t : Bytes} {e : Option UInt8}
    (h : Sync pe ending st s) (hl : s.lex stop = ((t, e), s')) :
    JsonDom.lex stop false s.input st.offset = ((t, e), s'.input, s'.offset) ∧
      Sync pe ending (st.behind ((t, e), s'.input, s'.offset)) s' ∧
      s'.input.length ≤ s.input.length := by
  obtain ⟨hlex, hend, hpe⟩ := lexSrc_eq hl
  obtain ⟨used, hi, -, -⟩ := lex_used hlex
  exact ⟨h.offset ▸ hlex, ⟨rfl, hpe.trans h.pe, hend.trans h.ending⟩, by rw [hi]; simp⟩

theorem Onward.mono {v : Verdict} {stack : List Kind} {n n' : Nat} {next : Scan → Scan} {s : Src}
    (h : Onward pe ending v stack n next s) (hn : n ≤ n') : Onward pe ending v stack n' next s := by
  obtain ⟨st, h1, h2, h3, h4⟩ := h
  exact ⟨st, h1, h2, h3.trans hn, h4⟩

/-! ## Scalars -/

/-- A string, a label or a value, from behind its quote. -/
theorem quoted_scan {v : Verdict} {s : Src} {st : Scan} {q : Quote} {enough : Prop}
    (hs : Sync pe ending st s) (hv : v = (st.enter (.quoted q false)).verdict ending s.input) :
    Follows pe v enough (quoted s) fun _ s' =>
      Onward pe ending v st.stack s.input.length (·.afterQuote q) s' := by
  unfold quoted
  rcases hl : s.lex endCheckForQuoted with ⟨⟨t, _ | e⟩, s1⟩ <;> obtain ⟨hlex, hs1, hlen⟩ := hs.lex hl
  · rw [Scan.verdict_quoted, hlex] at hv
    exact .fail hs1 hv
  · rw [Scan.verdict_quoted, hlex] at hv
    exact ⟨_, hs1, rfl, hlen, hv⟩

theorem blanks_scan {fuel : Nat} {v : Verdict} {c : UInt8} {s : Src} {st : Scan}
    (hc : isspace c = true) (hs : Sync pe ending st s)
    (hv : v = (st.enter .blank).verdict ending s.input) :
    Follows pe v (s.input.length + 2 ≤ fuel) (blanks fuel c s) fun b s' =>
      Onward pe ending v st.stack s.input.length (·.front 0 b) s' := by
  induction fuel generalizing c s st with
  | zero => exact fun h => absurd h (by omega)
  | succ fuel ih =>
    unfold blanks
    rw [if_pos hc]
    rcases hr : s.read with ⟨b | _ | _, s1⟩
    · obtain ⟨hs1, hi⟩ := hs.read hr
      rw [hi] at hv ⊢
      have hstep : v = (if isspace b then { st with offset := st.offset + 1 }.enter .blank
          else { st with offset := st.offset + 1 }.front 0 b).verdict ending s1.input := hv
      simp only [List.length_cons]
      by_cases hb : isspace b = true
      · rw [if_pos hb] at hstep
        exact (ih hb hs1 hstep).mono (by omega) fun _ _ ho => ho.mono (by omega)
      · rw [if_neg hb] at hstep
        cases fuel with
        | zero => exact fun h => absurd h (by omega)
        | succ fuel =>
          unfold blanks
          rw [if_neg hb]
          exact ⟨_, hs1, rfl, by omega, hstep⟩
    · obtain ⟨rfl, hi, he⟩ := read_zero hr
      rw [hi, ← hs.ending, he] at hv
      exact .fail hs hv
    · obtain ⟨rfl, hi, he⟩ := read_minusOne hr
      -- the byte is still the blank: the loop goes round once more, and again
      have hd : v = .diverge := by rw [hv, hi, ← hs.ending, he]; rfl
      exact (ih hc hs hv).diverge hd

theorem scalar_scan {v : Verdict} {chr b : UInt8} {s : Src} {st : Scan} {enough : Prop}
    (hb : b ≠ ch '[' ∧ b ≠ ch '{') (hs : Sync pe ending st s)
    (hv : v = (st.front chr b).verdict ending s.input) :
    Follows pe v enough (scalar b s) fun a s' =>
      Onward pe ending v st.stack s.input.length (fun st' => st'.leave (st'.memberChr chr) a.2) s' := by
  rw [Scan.front, if_neg hb.1, if_neg hb.2] at hv
  unfold scalar
  by_cases hq : b = ch '"'
  · rw [if_pos hq] at hv ⊢
    refine (quoted_scan hs hv).bind id fun t s1 ho => ?_
    obtain ⟨st1, hs1, hst, hlen, hv1⟩ := ho
    refine ⟨st1, hs1, hst, hlen, ?_⟩
    rw [hv1]
    simp only [Scan.afterQuote, Scan.memberChr, hst]
  · rw [if_neg hq] at hv ⊢
    rw [Scan.verdict_bare] at hv
    rcases hl : s.lex endCheckForUnquoted with ⟨⟨t, e⟩, s1⟩
    obtain ⟨hlex, hs1, hlen⟩ := hs.lex hl
    rw [hlex] at hv
    dsimp only [List.singleton_append] at hv ⊢
    cases hu : unquoted ((b :: t).takeWhile (· ≠ 0)) with
    | error c =>
      refine .fail hs1 ?_
      cases e with
      | none => rw [hv]; simp only [Scan.atEnd, Scan.enter, hu]
      | some e => rw [hv]; dsimp only; rw [Scan.endBare_error hu, Scan.verdict_reject]
    | ok J =>
      refine ⟨_, hs1, rfl, hlen, ?_⟩
      cases e with
      | none =>
        obtain ⟨used, hi, -, hnil⟩ := lex_used hlex
        rw [hv, hnil rfl]
        dsimp only [Option.getD_none]
        rw [Scan.leave_zero, Scan.verdict_resume]
        generalize st.behind ((t, none), [], s1.offset) = st'
        cases hstack : st'.stack <;> simp only [Scan.atEnd, Scan.enter, hu, hstack]
      | some e =>
        rw [hv]
        dsimp only [Option.getD_some]
        rw [Scan.endBare_ok hu, Scan.leave_unquoted (lex_stop hlex)]

/-! ## The functions of the reader -/

section

variable (pe ending)

def ValueScan (fuel : Nat) : Prop := ∀ {v chr s st}, isspace chr = false → Sync pe ending st s →
  v = (st.value chr).verdict ending s.input →
    Follows pe v (8 * s.input.length + 3 ≤ fuel) (value fuel chr s) fun a s' =>
      Onward pe ending v st.stack s.input.length
        (fun st' => st'.leave (st'.memberChr chr) (a.2.getD 0)) s'

def CollectionScan (fuel : Nat) : Prop := ∀ {v k s st}, Sync pe ending st s →
  v = { st with mode := .items false false, stack := k :: st.stack }.verdict ending s.input →
    Follows pe v (8 * s.input.length + 2 ≤ fuel) (collection fuel k s) fun _ s' =>
      Onward pe ending v st.stack s.input.length (·.resume) s'

def ItemsScan (fuel : Nat) : Prop := ∀ {v k acc needs s st stack}, Sync pe ending st s →
  st.stack = k :: stack → v = (st.enter (.items (acc ≠ []) needs)).verdict ending s.input →
    Follows pe v (8 * s.input.length + 1 ≤ fuel) (items fuel k acc needs s) fun _ s' =>
      Onward pe ending v (k :: stack) s.input.length (·.close) s'

def ItemScan (fuel : Nat) : Prop := ∀ {v k acc chr s st stack}, isspace chr = false →
  Sync pe ending st s → st.stack = k :: stack → v = (st.member chr).verdict ending s.input →
    Follows pe v (8 * s.input.length + 5 ≤ fuel) (item fuel k acc chr s) fun _ s' =>
      Onward pe ending v (k :: stack) s.input.length (·.close) s'

def MemberScan (fuel : Nat) : Prop := ∀ {v k chr s st stack}, isspace chr = false →
  Sync pe ending st s → st.stack = k :: stack → v = (st.member chr).verdict ending s.input →
    Follows pe v (8 * s.input.length + 4 ≤ fuel) (member fuel k chr s) fun a s' =>
      Onward pe ending v (k :: stack) s.input.length (·.leave chr (a.2.getD 0)) s'

def PropertyScan (fuel : Nat) : Prop := ∀ {v chr s st stack}, Sync pe ending st s →
  st.stack = .obj :: stack → v = (st.member chr).verdict ending s.input →
    Follows pe v (8 * s.input.length + 2 ≤ fuel) (property fuel chr s) fun a s' =>
      Onward pe ending v (.obj :: stack) s.input.length (·.leave chr (a.2.getD 0)) s'

def AfterLabelScan (fuel : Nat) : Prop := ∀ {v past s st stack}, Sync pe ending st s →
  st.stack = .obj :: stack → v = (st.enter (.colon past)).verdict ending s.input →
    Follows pe v (8 * s.input.length + 1 ≤ fuel) (afterLabel fuel past s) fun a s' =>
      Onward pe ending v (.obj :: stack) s.input.length (·.leave (ch '"') (a.2.getD 0)) s'

end

theorem valueScan_succ {fuel : Nat} (hc : CollectionScan pe ending fuel) :
    ValueScan pe ending (fuel + 1) := by
  intro v chr s st hchr hs hv
  unfold value
  -- behind the blanks, where the value begins with `b`
  have behind : ∀ {b s1}, Onward pe ending v st.stack s.input.length (·.front chr b) s1 →
      Follows pe v (8 * s.input.length + 3 ≤ fuel + 1)
        (if b = ch '[' then (collection fuel .arr s1).bind fun J s => .ok (J, none) s
          else if b = ch '{' then (collection fuel .obj s1).bind fun J s => .ok (J, none) s
          else (scalar b s1).bind fun a s => .ok (a.1, some a.2) s) fun a s' =>
        Onward pe ending v st.stack s.input.length
          (fun st' => st'.leave (st'.memberChr chr) (a.2.getD 0)) s' := by
    intro b s1 ho
    obtain ⟨st1, hs1, hst, hlen, hv1⟩ := ho
    have coll : ∀ k : Kind,
        v = { st1 with mode := .items false false, stack := k :: st1.stack }.verdict ending s1.input →
        Follows pe v (8 * s.input.length + 3 ≤ fuel + 1)
          ((collection fuel k s1).bind fun J s => .ok (J, (none : Option UInt8)) s) fun a s' =>
          Onward pe ending v st.stack s.input.length
            (fun st' => st'.leave (st'.memberChr chr) (a.2.getD 0)) s' := by
      intro k hk
      refine (hc hs1 hk).bind (by omega) fun J s2 ho => ?_
      obtain ⟨st2, hs2, hst2, hlen2, hv2⟩ := ho
      refine ⟨st2, hs2, hst2.trans hst, by omega, ?_⟩
      dsimp only [Option.getD_none]
      rw [Scan.leave_zero, hv2]
    split
    · next hb => exact coll .arr (by simp only [hv1, Scan.front, if_pos hb])
    next hb1 =>
    split
    · next hb => exact coll .obj (by simp only [hv1, Scan.front, if_neg hb1, if_pos hb])
    next hb2 =>
    have hscalar : Follows pe v (8 * s.input.length + 3 ≤ fuel + 1) _ _ := scalar_scan ⟨hb1, hb2⟩ hs1 hv1
    refine hscalar.bind id fun a s2 ho => ?_
    obtain ⟨st2, hs2, hst2, hlen2, hv2⟩ := ho
    exact ⟨st2, hs2, hst2.trans hst, by omega, hv2⟩
  by_cases hz : chr = 0
  · subst hz
    have hblank := @blanks_scan pe ending fuel v (ch ' ') s st (by decide) hs hv
    exact hblank.bind (by omega) fun b s1 ho => behind ho
  · rw [if_pos hz]
    cases fuel with
    | zero => exact fun h => absurd h (by omega)
    | succ fuel =>
      unfold blanks
      rw [if_neg (by simp [hchr]), Out.bind_ok]
      rw [Scan.value, if_neg hz] at hv
      exact behind ⟨st, hs, rfl, le_rfl, hv⟩

theorem collectionScan_succ {fuel : Nat} (hi : ItemsScan pe ending fuel) :
    CollectionScan pe ending (fuel + 1) := by
  intro v k s st hs hv
  unfold collection
  have hs' : Sync pe ending { st with stack := k :: st.stack } s := ⟨hs.offset, hs.pe, hs.ending⟩
  refine (@hi _ _ [] false _ _ _ hs' rfl hv).bind (by omega) fun ms s1 ho => ?_
  obtain ⟨st1, hs1, hst, hlen, hv1⟩ := ho
  refine ⟨{ st1 with stack := st1.stack.tail, lastEnd := some st1.offset },
    ⟨hs1.offset, ?_, hs1.ending⟩, by rw [hst]; rfl, hlen, hv1⟩
  simp only [Src.report, recorded, hs1.offset]

theorem memberScan_succ {fuel : Nat} (hv : ValueScan pe ending fuel)
    (hp : PropertyScan pe ending fuel) : MemberScan pe ending (fuel + 1) := by
  intro v k chr s st stack hchr hs hst hverd
  cases k with
  | arr =>
    unfold member
    have hval : v = (st.value chr).verdict ending s.input := by
      rw [hverd, Scan.member, hst]
    refine (hv hchr hs hval).bind (by omega) fun a s1 ho => ?_
    obtain ⟨st1, hs1, hst1, hlen, hv1⟩ := ho
    refine ⟨st1, hs1, hst1.trans hst, hlen, ?_⟩
    rw [hv1]
    simp only [Scan.memberChr, hst1, hst]
  | obj =>
    unfold member
    exact (hp hs hst hverd).mono (by omega) fun _ _ ho => ho

theorem propertyScan_succ {fuel : Nat} (ha : AfterLabelScan pe ending fuel) :
    PropertyScan pe ending (fuel + 1) := by
  intro v chr s st stack hs hst hv
  unfold property
  simp only [Scan.member, hst] at hv
  by_cases hq : chr = ch '"'
  · rw [if_pos hq] at hv
    rw [if_neg (by simpa using hq)]
    have hlabel : Follows pe v (8 * s.input.length + 2 ≤ fuel + 1) _ _ := quoted_scan hs hv
    refine hlabel.bind id fun t s1 ho => ?_
    obtain ⟨st1, hs1, hst1, hlen, hv1⟩ := ho
    refine (ha hs1 (hst1.trans hst) hv1).bind (by omega) fun a s2 ho => ?_
    rw [hq]
    exact ho.mono hlen
  · rw [if_neg hq, Scan.verdict_reject] at hv
    rw [if_pos hq]
    exact .fail hs hv

theorem afterLabelScan_succ {fuel : Nat} (hv : ValueScan pe ending fuel)
    (ha : AfterLabelScan pe ending fuel) : AfterLabelScan pe ending (fuel + 1) := by
  intro v past s st stack hs hst hverd
  unfold afterLabel
  rcases hr : s.read with ⟨b | _ | _, s1⟩
  · obtain ⟨hs1, hi⟩ := hs.read hr
    generalize hst1 : { st with offset := st.offset + 1 } = st1 at hs1
    have hstack : st1.stack = .obj :: stack := by rw [← hst1]; exact hst
    have hstep : v = (if isspace b then st1.enter (.colon past)
        else if b = ch ':' then st1.enter (.colon true)
        else if past then st1.value b
        else st1.enter (.reject .missingColon)).verdict ending s1.input := by
      rw [hverd, hi, ← hst1]
      rfl
    have hlen : s.input.length = s1.input.length + 1 := by rw [hi]; rfl
    dsimp only
    split
    · next hb =>
      rw [if_pos hb] at hstep
      exact (ha hs1 hstack hstep).mono (by omega) fun _ _ ho => ho.mono (by omega)
    next hb =>
    rw [if_neg hb] at hstep
    split
    · next hcol =>
      rw [if_pos hcol] at hstep
      exact (ha hs1 hstack hstep).mono (by omega) fun _ _ ho => ho.mono (by omega)
    next hcol =>
    rw [if_neg hcol] at hstep
    split
    · next hpast =>
      rw [if_pos hpast] at hstep
      refine (hv (by simpa using hb) hs1 hstep).mono (by omega) fun a s2 ho => ?_
      obtain ⟨st2, hs2, hst2, hlen2, hv2⟩ := ho
      refine ⟨st2, hs2, hst2.trans hstack, by omega, ?_⟩
      rw [hv2]
      simp only [Scan.memberChr, hst2, hstack]
    · next hpast =>
      rw [if_neg hpast, Scan.verdict_reject] at hstep
      exact .fail hs1 hstep
  · obtain ⟨rfl, hi, he⟩ := read_zero hr
    rw [hi, ← hs.ending, he] at hverd
    exact .fail hs hverd
  · obtain ⟨rfl, hi, he⟩ := read_minusOne hr
    rw [hi, ← hs.ending, he] at hverd
    exact .fail hs hverd

theorem itemScan_succ {fuel : Nat} (hi : ItemsScan pe ending fuel)
    (hm : MemberScan pe ending fuel) : ItemScan pe ending (fuel + 1) := by
  intro v k acc chr s st stack hchr hs hst hv
  unfold item
  refine (hm hchr hs hst hv).bind (by omega) fun a s1 ho => ?_
  obtain ⟨st1, hs1, hst1, hlen, hv1⟩ := ho
  obtain ⟨x, e⟩ := a
  have hacc : acc ++ [x] ≠ [] := by simp
  simp only [Scan.leave, hst1] at hv1
  dsimp only
  split
  · next hcomma =>
    rw [if_pos hcomma] at hv1
    refine (hi hs1 hst1 ?_).mono (by omega) fun _ _ ho => ho.mono hlen
    rw [hv1, decide_eq_true hacc]
  next hcomma =>
  rw [if_neg hcomma] at hv1
  split
  · next hclose =>
    rw [if_pos hclose] at hv1
    exact ⟨st1, hs1, hst1, hlen, hv1⟩
  next hclose =>
  rw [if_neg hclose] at hv1
  split
  · next hcont =>
    rw [if_pos hcont] at hv1
    refine (hi hs1 hst1 ?_).mono (by omega) fun _ _ ho => ho.mono hlen
    rw [hv1, decide_eq_true hacc]
  · next hcont =>
    rw [if_neg hcont, Scan.verdict_reject] at hv1
    exact .fail hs1 hv1

theorem itemsScan_succ {fuel : Nat} (hi : ItemsScan pe ending fuel)
    (ht : ItemScan pe ending fuel) : ItemsScan pe ending (fuel + 1) := by
  intro v k acc needs s st stack hs hst hv
  rcases hr : s.read with ⟨b | _ | _, s1⟩
  · obtain ⟨hs1, hin⟩ := hs.read hr
    generalize hst1 : { st with offset := st.offset + 1 } = st1 at hs1
    have hstack : st1.stack = k :: stack := by rw [← hst1]; exact hst
    have hstep : v = ((loopAct k (acc ≠ []) needs b).elim
        (fun needs => st1.enter (.items (acc ≠ []) needs)) (st1.member b) st1.close
        fun c => st1.enter (.reject c)).verdict ending s1.input := by
      rw [hv, hin, ← hst1, ← Scan.step_items hst]
      rfl
    have hlen : s.input.length = s1.input.length + 1 := by rw [hin]; rfl
    clear hv
    rw [items_one hr]
    cases hact : loopAct k (acc ≠ []) needs b <;> rw [hact] at hstep
    case again needs' =>
      exact (hi hs1 hstack hstep).mono (by omega) fun _ _ ho => ho.mono (by omega)
    case member =>
      exact (ht (loopAct_member hact).1 hs1 hstack hstep).mono (by omega) fun _ _ ho => ho.mono (by omega)
    case done => exact ⟨st1, hs1, hstack, by omega, hstep⟩
    case fail c => exact .fail hs1 (hstep.trans (Scan.verdict_reject _ _ _))
  · obtain ⟨rfl, hin, he⟩ := read_zero hr
    rw [hin] at hv
    unfold items
    rw [hr]
    exact .fail hs hv
  · obtain ⟨rfl, hin, he⟩ := read_minusOne hr
    rw [hin] at hv
    unfold items
    rw [hr]
    exact .fail hs hv

/-- Every function of the reader comes to the automaton's verdict, whatever the fuel. -/
theorem reader_scan (fuel : Nat) :
    ValueScan pe ending fuel ∧ CollectionScan pe ending fuel ∧ ItemsScan pe ending fuel ∧
      ItemScan pe ending fuel ∧ MemberScan pe ending fuel ∧ AfterLabelScan pe ending fuel ∧
      PropertyScan pe ending fuel := by
  induction fuel with
  | zero =>
    exact ⟨fun _ _ _ => .out (by omega), fun _ _ => .out (by omega), fun _ _ _ => .out (by omega),
      fun _ _ _ _ => .out (by omega), fun _ _ _ _ => .out (by omega), fun _ _ _ => .out (by omega),
      fun _ _ _ => .out (by omega)⟩
  | succ fuel ih =>
    obtain ⟨hv, hc, hi, ht, hm, ha, hp⟩ := ih
    exact ⟨valueScan_succ hc, collectionScan_succ hi, itemsScan_succ hi ht, itemScan_succ hi hm,
      memberScan_succ hv hp, afterLabelScan_succ hv ha, propertyScan_succ ha⟩

/-! ## Documents -/

/-- **The reader comes to the verdict of the automaton**, with the record it left. -/
theorem file_scan (fuel : Nat) (s : Src) :
    Follows s.pe ((Scan.init s.offset).verdict s.ending s.input) (8 * s.input.length + 3 ≤ fuel)
      (file fuel s) fun _ s' => ∃ lastEnd,
        (Scan.init s.offset).verdict s.ending s.input = .accept lastEnd ∧
          s'.pe = recorded s.pe lastEnd := by
  unfold file
  have hs : Sync s.pe s.ending (Scan.init s.offset) s := ⟨rfl, rfl, rfl⟩
  refine ((reader_scan fuel).1 (by decide) hs rfl).bind id fun a s1 ho => ?_
  obtain ⟨st1, hs1, hst1, -, hv⟩ := ho
  have hleave : st1.leave (st1.memberChr 0) (a.2.getD 0) = st1.enter .tail := by
    rw [Scan.leave, hst1]
    rfl
  simp only [hleave, Scan.verdict_tail] at hv
  rw [← hs1.offset] at hv
  dsimp only
  split
  · next ht => 
    rw [ht] at hv
    exact ⟨_, hv, hs1.pe⟩
  · next input offset ht =>
    rw [ht] at hv
    have hs2 : Sync s.pe s.ending { st1 with offset } { s1 with input, offset } :=
      ⟨rfl, hs1.pe, hs1.ending⟩
    exact .fail hs2 hv

end JsonDom
