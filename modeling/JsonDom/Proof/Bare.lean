import JsonDom.Proof.Accounts
import JsonDom.Proof.Scan

/-!
# Requests that are lost, and the automaton

A request is for a block that is never released where the automaton meets an unquoted text: one
statement for each function of the reader (`Traces`), proved together by induction on the fuel as in
`JsonDom/Proof/Scan.lean`.
-/

namespace JsonDom

open Reader

namespace Scan

variable {st : Scan}

@[simp] theorem meetsBare_nil (st : Scan) : st.meetsBare [] = st.inBare := rfl

@[simp] theorem meetsBare_reject (st : Scan) (c : Check) (d : Bytes) :
    (st.enter (.reject c)).meetsBare d = false := by
  cases d <;> rfl

@[simp] theorem meetsBare_bare (st : Scan) (esc : Bool) (text d : Bytes) :
    (st.enter (.bare esc text)).meetsBare d = true := by
  cases d <;> rfl

theorem meetsBare_quoted (q : Quote) (esc : Bool) (d : Bytes) (st : Scan) :
    (st.enter (.quoted q esc)).meetsBare d =
      let r := lex endCheckForQuoted esc d st.offset
      match r.1.2 with
      | some _ => ((st.behind r).afterQuote q).meetsBare r.2.1
      | none => false := by
  generalize hoff : st.offset = offset
  fun_induction lex endCheckForQuoted esc d offset generalizing st with subst hoff
  | case1 => rfl
  | case2 b bs _ ih => exact ih { st with offset := st.offset + 1 } rfl
  | case3 bs _ ih => exact ih { st with offset := st.offset + 1 } rfl
  | case4 b bs _ hb he =>
    have hs : (st.enter (.quoted q false)).step b =
        ({ st with offset := st.offset + 1 }.enter (.quoted q false)).afterQuote q := by
      simp only [step, enter, if_neg hb, if_pos he, Bool.false_eq_true, if_false]
    show ((st.enter (.quoted q false)).step b).meetsBare bs = _
    rw [hs]
    cases q <;> rfl
  | case5 b bs _ hb he ih =>
    have hs : (st.enter (.quoted q false)).step b =
        { st with offset := st.offset + 1 }.enter (.quoted q false) := by
      simp only [step, enter, if_neg hb, if_neg he, Bool.false_eq_true, if_false]
    show ((st.enter (.quoted q false)).step b).meetsBare bs = _
    rw [hs]
    exact ih _ rfl

theorem meetsBare_tail (d : Bytes) (st : Scan) : (st.enter .tail).meetsBare d = false := by
  induction d generalizing st with
  | nil => rfl
  | cons b bs ih =>
    show ((st.enter .tail).step b).meetsBare bs = false
    by_cases hb : isspace b = true
    · rw [show (st.enter .tail).step b = { st with offset := st.offset + 1 }.enter .tail by
        simp only [step, enter, if_pos hb]]
      exact ih _
    · rw [show (st.enter .tail).step b = { st with offset := st.offset + 1 }.enter (.reject .trailing) by
        simp only [step, enter, if_neg hb], meetsBare_reject]

end Scan

/-! ## The statements -/

/-- `m` says whether the automaton meets an unquoted text from here on: it does where one of the requests
`rs` is lost, and `after` says how that is known behind `x` where none is. -/
def Traces {α : Type} (m : Bool) (rs : List Request) (x : Out α) (after : α → Src → Prop) : Prop :=
  leaks rs ≠ 0 ∧ m = true ∨ leaks rs = 0 ∧
    match x with
    | .ok a s => after a s
    | .fail _ _ => m = false
    | .timeout => True

namespace Traces

variable {α β : Type} {m : Bool} {rs rs' : List Request} {x : Out α} {y : Out β}
  {after after' : α → Src → Prop} {after'' : β → Src → Prop}

theorem ok {a : α} {s : Src} (h : after a s) : Traces m [] (.ok a s) after := .inr ⟨rfl, h⟩

theorem fail {c : Check} {s : Src} (h : m = false) : Traces m [] (s.fail c) after := .inr ⟨rfl, h⟩

theorem out : Traces m [] (.timeout : Out α) after := .inr ⟨rfl, trivial⟩

/-- More requests behind a part. -/
theorem append (hx : Traces m rs x after) (hok : ∀ a s, x = .ok a s → after a s → Traces m rs' y after'')
    (hfail : ∀ c s, x = .fail c s → rs' = [] ∧ y = .fail c s)
    (hout : x = .timeout → rs' = [] ∧ y = .timeout) : Traces m (rs ++ rs') y after'' := by
  unfold Traces
  rw [leaks_append]
  rcases hx with ⟨hl, hm⟩ | ⟨hl, hx⟩
  · exact .inl ⟨by omega, hm⟩
  rw [hl, Nat.zero_add]
  cases ho : x with
  | ok a s =>
    rw [ho] at hx
    exact hok a s ho hx
  | fail c s =>
    obtain ⟨rfl, rfl⟩ := hfail c s ho
    rw [ho] at hx
    exact .inr ⟨rfl, hx⟩
  | timeout =>
    obtain ⟨rfl, rfl⟩ := hout ho
    exact .inr ⟨rfl, trivial⟩

/-- Another request in front, for a block that is not lost. -/
theorem cons {r : Request} (hr : r.leaked = false) (hx : Traces m rs x after) : Traces m (r :: rs) x after := by
  have hl : leaks (r :: rs) = leaks rs := List.countP_cons_of_neg (by simp [hr])
  unfold Traces
  rwa [hl]

/-- No more of them. -/
theorem bind {f : α → Src → Out β} (hx : Traces m rs x after)
    (hf : ∀ a s, after a s → Traces m [] (f a s) after'') : Traces m rs (x.bind f) after'' := by
  have h := @append α β m rs [] x (x.bind f) after after'' hx (fun a s ho ha => ho ▸ hf a s ha)
    (fun c s ho => ⟨rfl, by rw [ho]; rfl⟩) (fun ho => ⟨rfl, by rw [ho]; rfl⟩)
  rwa [List.append_nil] at h

theorem mono (hx : Traces m rs x after) (hf : ∀ a s, after a s → after' a s) : Traces m rs x after' := by
  refine hx.imp_right fun ⟨hl, h⟩ => ⟨hl, ?_⟩
  cases x with
  | ok a s => exact hf a s h
  | fail | timeout => exact h

end Traces

section

variable (pe : JdParseError) (ending : Ending)

/-- The automaton goes on in the state `next st`, where the collections `stack` are open. -/
def GoesOn (m : Bool) (stack : List Kind) (next : Scan → Scan) (s : Src) : Prop :=
  ∃ st, Sync pe ending st s ∧ st.stack = stack ∧ m = (next st).meetsBare s.input

end

variable {pe : JdParseError} {ending : Ending}

/-! ## Scalars -/

theorem quoted_traces {m : Bool} {s : Src} {st : Scan} {q : Quote} (hs : Sync pe ending st s)
    (hm : m = (st.enter (.quoted q false)).meetsBare s.input) :
    Traces m (quotedRequests s) (quoted s) fun _ s' => GoesOn pe ending m st.stack (·.afterQuote q) s' := by
  refine .inr ⟨leaks_quoted s, ?_⟩
  unfold quoted
  rcases hl : s.lex endCheckForQuoted with ⟨⟨t, _ | e⟩, s1⟩ <;> obtain ⟨hlex, hs1, -⟩ := hs.lex hl
  · rw [Scan.meetsBare_quoted, hlex] at hm
    exact hm
  · rw [Scan.meetsBare_quoted, hlex] at hm
    exact ⟨_, hs1, rfl, hm⟩

theorem blanks_traces {fuel : Nat} {m : Bool} {c : UInt8} {s : Src} {st : Scan}
    (hc : isspace c = true) (hs : Sync pe ending st s) (hm : m = (st.enter .blank).meetsBare s.input) :
    Traces m [] (blanks fuel c s) fun b s' => GoesOn pe ending m st.stack (·.front 0 b) s' := by
  induction fuel generalizing c s st with
  | zero => exact .out
  | succ fuel ih =>
    unfold blanks
    rw [if_pos hc]
    rcases hr : s.read with ⟨b | _ | _, s1⟩
    · obtain ⟨hs1, hi⟩ := hs.read hr
      rw [hi] at hm
      have hstep : m = (if isspace b then { st with offset := st.offset + 1 }.enter .blank
          else { st with offset := st.offset + 1 }.front 0 b).meetsBare s1.input := hm
      dsimp only
      by_cases hb : isspace b = true
      · rw [if_pos hb] at hstep
        exact @ih b s1 { st with offset := st.offset + 1 } hb hs1 hstep
      · rw [if_neg hb] at hstep
        cases fuel with
        | zero => exact .out
        | succ fuel =>
          unfold blanks
          rw [if_neg hb]
          exact .ok ⟨_, hs1, rfl, hstep⟩
    · obtain ⟨rfl, hi, -⟩ := read_zero hr
      rw [hi] at hm
      exact .fail hm
    · obtain ⟨rfl, -, -⟩ := read_minusOne hr
      exact ih hc hs hm

theorem scalar_traces {m : Bool} {chr b : UInt8} {s : Src} {st : Scan} (hb : b ≠ ch '[' ∧ b ≠ ch '{')
    (hs : Sync pe ending st s) (hm : m = (st.front chr b).meetsBare s.input) :
    Traces m (scalarRequests b s) (scalar b s) fun a s' =>
      GoesOn pe ending m st.stack (fun st' => st'.leave (st'.memberChr chr) a.2) s' := by
  rw [Scan.front, if_neg hb.1, if_neg hb.2] at hm
  unfold scalarRequests
  by_cases hq : b = ch '"'
  · rw [if_pos hq] at hm ⊢
    unfold scalar
    rw [if_pos hq]
    have hquoted := quoted_traces hs hm
    refine .inr ⟨?_, ?_⟩
    · split
      · rw [leaks_append, leaks_quoted]
        rfl
      · exact leaks_quoted s
    · obtain ⟨-, h⟩ := hquoted.resolve_left fun h => h.1 (leaks_quoted s)
      cases ho : quoted s with
      | ok t s1 =>
        rw [ho] at h
        obtain ⟨st1, hs1, hst, hm1⟩ := h
        refine ⟨st1, hs1, hst, ?_⟩
        rw [hm1]
        simp only [Scan.afterQuote, Scan.memberChr, hst]
      | fail c s1 =>
        rw [ho] at h
        exact h
      | timeout => exact trivial
  · rw [if_neg hq] at hm ⊢
    rw [Scan.meetsBare_bare] at hm
    refine .inl ⟨?_, hm⟩
    split <;> rw [leaks_append, leaks_bare] <;> omega

/-! ## The functions of the reader -/

section

variable (pe ending)

def ValueTraces (fuel : Nat) : Prop := ∀ {m chr s st}, isspace chr = false → Sync pe ending st s →
  m = (st.value chr).meetsBare s.input →
    Traces m (valueRequests fuel chr s) (value fuel chr s) fun a s' =>
      GoesOn pe ending m st.stack (fun st' => st'.leave (st'.memberChr chr) (a.2.getD 0)) s'

def CollectionTraces (fuel : Nat) : Prop := ∀ {m k s st}, Sync pe ending st s →
  m = { st with mode := .items false false, stack := k :: st.stack }.meetsBare s.input →
    Traces m (collectionRequests fuel k s) (collection fuel k s) fun _ s' =>
      GoesOn pe ending m st.stack (·.resume) s'

def ItemsTraces (fuel : Nat) : Prop := ∀ {m k acc needs s st stack}, Sync pe ending st s →
  st.stack = k :: stack → m = (st.enter (.items (acc ≠ []) needs)).meetsBare s.input →
    Traces m (itemsRequests fuel k acc needs s) (items fuel k acc needs s) fun _ s' =>
      GoesOn pe ending m (k :: stack) (·.close) s'

def ItemTraces (fuel : Nat) : Prop := ∀ {m k acc chr s st stack}, isspace chr = false →
  Sync pe ending st s → st.stack = k :: stack → m = (st.member chr).meetsBare s.input →
    Traces m (itemRequests fuel k acc chr s) (item fuel k acc chr s) fun _ s' =>
      GoesOn pe ending m (k :: stack) (·.close) s'

def MemberTraces (fuel : Nat) : Prop := ∀ {m k chr s st stack}, isspace chr = false →
  Sync pe ending st s → st.stack = k :: stack → m = (st.member chr).meetsBare s.input →
    Traces m (memberRequests fuel k chr s) (member fuel k chr s) fun a s' =>
      GoesOn pe ending m (k :: stack) (·.leave chr (a.2.getD 0)) s'

def PropertyTraces (fuel : Nat) : Prop := ∀ {m chr s st stack}, Sync pe ending st s →
  st.stack = .obj :: stack → m = (st.member chr).meetsBare s.input →
    Traces m (propertyRequests fuel chr s) (property fuel chr s) fun a s' =>
      GoesOn pe ending m (.obj :: stack) (·.leave chr (a.2.getD 0)) s'

def AfterLabelTraces (fuel : Nat) : Prop := ∀ {m past s st stack}, Sync pe ending st s →
  st.stack = .obj :: stack → m = (st.enter (.colon past)).meetsBare s.input →
    Traces m (afterLabelRequests fuel past s) (afterLabel fuel past s) fun a s' =>
      GoesOn pe ending m (.obj :: stack) (·.leave (ch '"') (a.2.getD 0)) s'

end

theorem valueTraces_succ {fuel : Nat} (hc : CollectionTraces pe ending fuel) :
    ValueTraces pe ending (fuel + 1) := by
  intro m chr s st hchr hs hm
  -- behind the blanks, where the value begins with `b`
  have behind : ∀ {b s1}, GoesOn pe ending m st.stack (·.front chr b) s1 →
      Traces m (if b = ch '[' then collectionRequests fuel .arr s1
          else if b = ch '{' then collectionRequests fuel .obj s1 else scalarRequests b s1)
        (if b = ch '[' then (collection fuel .arr s1).bind fun J s => .ok (J, none) s
          else if b = ch '{' then (collection fuel .obj s1).bind fun J s => .ok (J, none) s
          else (scalar b s1).bind fun a s => .ok (a.1, some a.2) s) fun a s' =>
        GoesOn pe ending m st.stack (fun st' => st'.leave (st'.memberChr chr) (a.2.getD 0)) s' := by
    intro b s1 ho
    obtain ⟨st1, hs1, hst, hm1⟩ := ho
    have coll : ∀ k : Kind,
        m = { st1 with mode := .items false false, stack := k :: st1.stack }.meetsBare s1.input →
        Traces m (collectionRequests fuel k s1)
          ((collection fuel k s1).bind fun J s => .ok (J, (none : Option UInt8)) s) fun a s' =>
          GoesOn pe ending m st.stack (fun st' => st'.leave (st'.memberChr chr) (a.2.getD 0)) s' := by
      intro k hk
      refine (hc hs1 hk).bind fun J s2 ho => ?_
      obtain ⟨st2, hs2, hst2, hm2⟩ := ho
      refine .ok ⟨st2, hs2, hst2.trans hst, ?_⟩
      dsimp only [Option.getD_none]
      rw [Scan.leave_zero, hm2]
    by_cases hb1 : b = ch '['
    · rw [if_pos hb1, if_pos hb1]
      exact coll .arr (by simp only [hm1, Scan.front, if_pos hb1])
    by_cases hb2 : b = ch '{'
    · rw [if_neg hb1, if_pos hb2, if_neg hb1, if_pos hb2]
      exact coll .obj (by simp only [hm1, Scan.front, if_neg hb1, if_pos hb2])
    rw [if_neg hb1, if_neg hb2, if_neg hb1, if_neg hb2]
    refine (scalar_traces ⟨hb1, hb2⟩ hs1 hm1).bind fun a s2 ho => ?_
    obtain ⟨st2, hs2, hst2, hm2⟩ := ho
    exact .ok ⟨st2, hs2, hst2.trans hst, hm2⟩
  unfold valueRequests value
  by_cases hz : chr = 0
  · subst hz
    have hblank := @blanks_traces pe ending fuel m (ch ' ') s st (by decide) hs hm
    simp only [ne_eq, not_true_eq_false, if_false]
    obtain ⟨-, h⟩ := hblank.resolve_left fun h => h.1 rfl
    cases ho : blanks fuel (ch ' ') s with
    | ok b s1 =>
      rw [ho] at h
      exact behind h
    | fail c s1 =>
      rw [ho] at h
      exact .inr ⟨rfl, h⟩
    | timeout => exact .out
  · rw [if_pos hz]
    cases fuel with
    | zero => exact .out
    | succ fuel =>
      unfold blanks
      rw [if_neg (by simp [hchr]), Out.bind_ok]
      rw [Scan.value, if_neg hz] at hm
      exact behind ⟨st, hs, rfl, hm⟩

theorem collectionTraces_succ {fuel : Nat} (hi : ItemsTraces pe ending fuel) :
    CollectionTraces pe ending (fuel + 1) := by
  intro m k s st hs hm
  unfold collectionRequests collection
  have hs' : Sync pe ending { st with stack := k :: st.stack } s := ⟨hs.offset, hs.pe, hs.ending⟩
  have hitems := @hi m k [] false _ _ _ hs' rfl hm
  refine (Traces.cons rfl hitems).bind fun ms s1 ho => ?_
  obtain ⟨st1, hs1, hst, hm1⟩ := ho
  refine .ok ⟨{ st1 with stack := st1.stack.tail, lastEnd := some st1.offset },
    ⟨hs1.offset, ?_, hs1.ending⟩, by rw [hst]; rfl, hm1⟩
  simp only [Src.report, recorded, hs1.offset]

theorem memberTraces_succ {fuel : Nat} (hv : ValueTraces pe ending fuel)
    (hp : PropertyTraces pe ending fuel) : MemberTraces pe ending (fuel + 1) := by
  intro m k chr s st stack hchr hs hst hm
  cases k with
  | arr =>
    unfold memberRequests member
    have hval : m = (st.value chr).meetsBare s.input := by
      rw [hm, Scan.member, hst]
    refine (hv hchr hs hval).bind fun a s1 ho => ?_
    obtain ⟨st1, hs1, hst1, hm1⟩ := ho
    refine .ok ⟨st1, hs1, hst1.trans hst, ?_⟩
    rw [hm1]
    simp only [Scan.memberChr, hst1, hst]
  | obj =>
    unfold memberRequests member
    exact hp hs hst hm

theorem propertyTraces_succ {fuel : Nat} (ha : AfterLabelTraces pe ending fuel) :
    PropertyTraces pe ending (fuel + 1) := by
  intro m chr s st stack hs hst hm
  unfold propertyRequests property
  simp only [Scan.member, hst] at hm
  by_cases hq : chr = ch '"'
  · rw [if_pos hq] at hm
    rw [if_neg (not_not.2 hq), if_neg (not_not.2 hq)]
    refine (quoted_traces hs hm).append (fun t s1 ho h => ?_) (fun c s1 ho => ?_) fun ho => ?_
    · obtain ⟨st1, hs1, hst1, hm1⟩ := h
      rw [ho]
      refine (ha hs1 (hst1.trans hst) hm1).bind fun a s2 h => ?_
      rw [hq]
      exact .ok h
    · rw [ho]
      exact ⟨rfl, rfl⟩
    · rw [ho]
      exact ⟨rfl, rfl⟩
  · rw [if_neg hq, Scan.meetsBare_reject] at hm
    rw [if_pos hq, if_pos hq]
    exact .fail hm

theorem afterLabelTraces_succ {fuel : Nat} (hv : ValueTraces pe ending fuel)
    (ha : AfterLabelTraces pe ending fuel) : AfterLabelTraces pe ending (fuel + 1) := by
  intro m past s st stack hs hst hm
  unfold afterLabelRequests afterLabel
  rcases hr : s.read with ⟨b | _ | _, s1⟩
  · obtain ⟨hs1, hi⟩ := hs.read hr
    generalize hst1 : { st with offset := st.offset + 1 } = st1 at hs1
    have hstack : st1.stack = .obj :: stack := by rw [← hst1]; exact hst
    have hstep : m = (if isspace b then st1.enter (.colon past)
        else if b = ch ':' then st1.enter (.colon true)
        else if past then st1.value b
        else st1.enter (.reject .missingColon)).meetsBare s1.input := by
      rw [hm, hi, ← hst1]
      rfl
    dsimp only
    by_cases hb : isspace b = true
    · rw [if_pos hb] at hstep
      rw [if_pos hb, if_pos hb]
      exact ha hs1 hstack hstep
    rw [if_neg hb] at hstep
    rw [if_neg hb, if_neg hb]
    by_cases hcol : b = ch ':'
    · rw [if_pos hcol] at hstep
      rw [if_pos hcol, if_pos hcol]
      exact ha hs1 hstack hstep
    rw [if_neg hcol] at hstep
    rw [if_neg hcol, if_neg hcol]
    by_cases hpast : past = true
    · rw [if_pos hpast] at hstep
      rw [if_pos hpast, if_pos hpast]
      refine (hv (by simpa using hb) hs1 hstep).append (fun a s2 ho h => ?_) (fun c s2 ho => ?_) fun ho => ?_
      · obtain ⟨st2, hs2, hst2, hm2⟩ := h
        rw [ho]
        refine .inr ⟨rfl, st2, hs2, hst2.trans hstack, ?_⟩
        rw [hm2]
        simp only [Scan.memberChr, hst2, hstack]
      · rw [ho]
        exact ⟨rfl, rfl⟩
      · rw [ho]
        exact ⟨rfl, rfl⟩
    · rw [if_neg hpast, Scan.meetsBare_reject] at hstep
      rw [if_neg hpast, if_neg hpast]
      exact .fail hstep
  · obtain ⟨rfl, hi, -⟩ := read_zero hr
    rw [hi] at hm
    exact .fail hm
  · obtain ⟨rfl, hi, -⟩ := read_minusOne hr
    rw [hi] at hm
    exact .fail hm

theorem itemTraces_succ {fuel : Nat} (hi : ItemsTraces pe ending fuel)
    (ht : MemberTraces pe ending fuel) : ItemTraces pe ending (fuel + 1) := by
  intro m k acc chr s st stack hchr hs hst hm
  unfold itemRequests item
  refine (ht hchr hs hst hm).append (fun a s1 ho h => ?_) (fun c s1 ho => ?_) fun ho => ?_
  · obtain ⟨st1, hs1, hst1, hm1⟩ := h
    obtain ⟨x, e⟩ := a
    have hacc : acc ++ [x] ≠ [] := by simp
    simp only [Scan.leave, hst1] at hm1
    rw [ho, Out.bind_ok]
    dsimp only
    have again : ∀ needs, m = (st1.enter (.items true needs)).meetsBare s1.input →
        Traces m (itemsRequests fuel k (acc ++ [x]) needs s1) (items fuel k (acc ++ [x]) needs s1) fun _ s' =>
          GoesOn pe ending m (k :: stack) (·.close) s' := by
      intro needs hm
      apply hi hs1 hst1
      rw [hm, decide_eq_true hacc]
    by_cases hcomma : e.getD 0 = ch ','
    · rw [if_pos hcomma] at hm1
      rw [if_pos hcomma, if_pos hcomma]
      exact again true hm1
    rw [if_neg hcomma] at hm1
    rw [if_neg hcomma, if_neg hcomma]
    by_cases hclose : e.getD 0 = k.closeChar
    · rw [if_pos hclose] at hm1
      rw [if_pos hclose, if_pos hclose]
      exact .ok ⟨st1, hs1, hst1, hm1⟩
    rw [if_neg hclose] at hm1
    rw [if_neg hclose, if_neg hclose]
    by_cases hcont : (decide (e.getD 0 = ch '"') && decide (chr = ch '"') || decide (e.getD 0 = 0) ||
        isspace (e.getD 0)) = true
    · rw [if_pos hcont] at hm1
      rw [if_pos hcont, if_pos hcont]
      exact again false hm1
    · rw [if_neg hcont, Scan.meetsBare_reject] at hm1
      rw [if_neg hcont, if_neg hcont]
      exact .fail hm1
  · rw [ho]
    exact ⟨rfl, rfl⟩
  · rw [ho]
    exact ⟨rfl, rfl⟩

theorem itemsTraces_succ {fuel : Nat} (hi : ItemsTraces pe ending fuel)
    (ht : ItemTraces pe ending fuel) : ItemsTraces pe ending (fuel + 1) := by
  intro m k acc needs s st stack hs hst hm
  rcases hr : s.read with ⟨b | _ | _, s1⟩
  · obtain ⟨hs1, hin⟩ := hs.read hr
    generalize hst1 : { st with offset := st.offset + 1 } = st1 at hs1
    have hstack : st1.stack = k :: stack := by rw [← hst1]; exact hst
    have hstep : m = ((loopAct k (acc ≠ []) needs b).elim
        (fun needs => st1.enter (.items (acc ≠ []) needs)) (st1.member b) st1.close
        fun c => st1.enter (.reject c)).meetsBare s1.input := by
      rw [hm, hin, ← hst1, ← Scan.step_items hst]
      rfl
    rw [items_one hr, itemsRequests_one hr]
    cases hact : loopAct k (acc ≠ []) needs b <;> rw [hact] at hstep
    case again needs' => exact hi hs1 hstack hstep
    case member => exact ht (loopAct_member hact).1 hs1 hstack hstep
    case done => exact .ok ⟨st1, hs1, hstack, hstep⟩
    case fail c => exact .fail (hstep.trans (Scan.meetsBare_reject _ _ _))
  · obtain ⟨rfl, hin, -⟩ := read_zero hr
    rw [hin] at hm
    unfold itemsRequests items
    rw [hr]
    exact .fail hm
  · obtain ⟨rfl, hin, -⟩ := read_minusOne hr
    rw [hin] at hm
    unfold itemsRequests items
    rw [hr]
    exact .fail hm

/-- Every function of the reader loses a string where the automaton meets an unquoted text. -/
theorem reader_traces (fuel : Nat) :
    ValueTraces pe ending fuel ∧ CollectionTraces pe ending fuel ∧ ItemsTraces pe ending fuel ∧
      ItemTraces pe ending fuel ∧ MemberTraces pe ending fuel ∧ AfterLabelTraces pe ending fuel ∧
      PropertyTraces pe ending fuel := by
  induction fuel with
  | zero =>
    refine ⟨fun _ _ _ => .out, fun _ _ => .out, fun _ _ _ => .out, fun _ _ _ _ => .out, ?_,
      fun _ _ _ => .out, fun _ _ _ => .out⟩
    intro m k chr s st stack _ _ _ _
    cases k <;> exact .out
  | succ fuel ih =>
    obtain ⟨hv, hc, hi, ht, hm, ha, hp⟩ := ih
    exact ⟨valueTraces_succ hc, collectionTraces_succ hi, itemsTraces_succ hi ht, itemTraces_succ hi hm,
      memberTraces_succ hv hp, afterLabelTraces_succ hv ha, propertyTraces_succ ha⟩

/-- **A string is lost where an unquoted text is met.** -/
theorem value_leaks {fuel : Nat} {s : Src} (ho : value fuel 0 s ≠ .timeout) :
    leaks (valueRequests fuel 0 s) = 0 ↔ (Scan.init s.offset).meetsBare s.input = false := by
  have hs : Sync s.pe s.ending (Scan.init s.offset) s := ⟨rfl, rfl, rfl⟩
  rcases (reader_traces fuel).1 (show isspace 0 = false by decide) hs rfl with ⟨hl, hm⟩ | ⟨hl, h⟩
  · exact iff_of_false hl fun h => Bool.noConfusion (h.symm.trans hm)
  apply iff_of_true hl
  cases hv : value fuel 0 s with
  | timeout => exact absurd hv ho
  | fail c s1 =>
    rw [hv] at h
    exact h
  | ok a s1 =>
    rw [hv] at h
    obtain ⟨st1, hs1, hst1, hm⟩ := h
    have hleave : st1.leave (st1.memberChr 0) (a.2.getD 0) = st1.enter .tail := by
      rw [Scan.leave, hst1]
      rfl
    simp only [hleave, Scan.meetsBare_tail] at hm
    exact hm

end JsonDom
