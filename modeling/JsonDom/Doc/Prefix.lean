import JsonDom.Doc.Errors

/-!
# Documents that are cut off

What a report says of the texts that begin with what was read. A check that fails because the file ends
can be passed by a longer text (`premature_iff`): there is always a way to end the collections that are
open. Every other check that is about the byte before it is final (`rejection_final`).
-/

namespace JsonDom

open Reader

variable {w w' : World} {b last : UInt8} {d rest : Bytes}

/-- The checks that fail because the file ends. -/
def Check.premature : Check → Bool
  | .eofBeforeValue | .eofInQuotes | .unterminated | .eofAfterLabel => true
  | _ => false

theorem takeWhile_noNul {text : Bytes} (hz : 0 ∉ text) : text.takeWhile (· ≠ 0) = text := by
  rw [List.takeWhile_eq_self_iff]
  intro b hb
  simpa using fun h : b = 0 => hz (h ▸ hb)

namespace Scan

variable {st : Scan}

theorem run_reject {c : Check} (h : st.mode = .reject c) (d : Bytes) : st.run d = st := by
  cases d with
  | nil => rfl
  | cons b d => simp only [run, h]

theorem run_step (h : ∀ c, st.mode ≠ .reject c) (b : UInt8) (d : Bytes) :
    st.run (b :: d) = (st.step b).run d := by
  rw [run]
  split
  · next c hc => exact absurd hc (h c)
  · rfl

theorem run_append (st : Scan) (d rest : Bytes) : st.run (d ++ rest) = (st.run d).run rest := by
  induction d generalizing st with
  | nil => rfl
  | cons b d ih =>
    by_cases h : ∃ c, st.mode = .reject c
    · obtain ⟨c, hc⟩ := h
      simp only [run_reject hc]
    · have hgo : ∀ c, st.mode ≠ .reject c := fun c hc => h ⟨c, hc⟩
      simp only [List.cons_append, run_step hgo]
      apply ih

theorem verdict_append (st : Scan) (ending : Ending) (d rest : Bytes) :
    st.verdict ending (d ++ rest) = (st.run d).verdict ending rest := by
  simp only [verdict, run_append]

/-- How the automaton stands behind the byte `last`, in a text without NUL: a member that ends in a
quote began with one, and a backslash is the last byte where it is waited for. -/
def Poised (st : Scan) (last : UInt8) : Prop :=
  match st.mode with
  | .blank | .tail => st.stack = []
  | .items _ _ => st.stack ≠ [] ∧ last ≠ ch '\\'
  | .quoted .label _ | .colon _ => st.stack.head? = some .obj
  | .quoted (.value chr) _ => st.stack ≠ [] → chr = ch '"'
  | .bare esc text => 0 ∉ text ∧ if esc then last = ch '\\' else text.getLast? = some last
  | .reject c => c.premature = false

theorem resume_poised (hb : b ≠ ch '\\') (st : Scan) : st.resume.Poised b := by
  unfold resume
  split
  · next h => simpa [Poised, enter] using h
  · next h => simp [Poised, enter, h, hb]

theorem leave_poised (hb : b ≠ ch '\\') (st : Scan) (chr e : UInt8) : (st.leave chr e).Poised b := by
  unfold leave
  split
  · next h => simpa [Poised, enter] using h
  next h =>
  have hitems : ∀ has needs, (st.enter (.items has needs)).Poised b := by simp [Poised, enter, h, hb]
  split
  · apply hitems
  split
  · exact resume_poised hb _
  split
  · apply hitems
  · rfl

theorem front_poised (hb : b ≠ 0) {chr : UInt8}
    (hq : b = ch '"' → st.stack ≠ [] → st.memberChr chr = ch '"') : (st.front chr b).Poised b := by
  unfold front
  split
  · next h => simp [Poised, h]; decide
  split
  · next h => simp [Poised, h]; decide
  split
  · next h => exact hq h
  · simp [Poised, enter, hb.symm]

theorem member_poised (hb : b ≠ 0) (st : Scan) : (st.member b).Poised b := by
  unfold member
  split
  · next h =>
    split
    · simp [Poised, enter, h]
    · rfl
  · unfold value
    rw [if_neg hb]
    apply front_poised hb
    intro h _
    unfold memberChr
    split
    · exact h
    · rfl

theorem unquoted_premature {str : Bytes} {c : Check} (h : unquoted str = .error c) : c.premature = false := by
  unfold unquoted at h
  split_ifs at h <;> cases h <;> rfl

theorem loopAct_premature {k : Kind} {has needs : Bool} {c : Check} (h : loopAct k has needs b = .fail c) :
    c.premature = false := by
  unfold loopAct at h
  split_ifs at h <;> cases h <;> rfl

theorem loopAct_slash {k : Kind} {has needs flag : Bool} (h : loopAct k has needs b = .again flag) :
    b ≠ ch '\\' := by
  rintro rfl
  rcases loopAct_again h with ⟨hs, -⟩ | ⟨hc, -⟩
  · exact absurd hs (by decide)
  · exact absurd hc (by decide)

theorem step_poised (h : st.Poised last) (hb : b ≠ 0) : (st.step b).Poised b := by
  cases hm : st.mode with
  | items has needs =>
    simp only [Poised, hm] at h
    obtain ⟨k, stack, hst⟩ := List.exists_cons_of_ne_nil h.1
    have henter : st.enter (.items has needs) = st := by simp only [enter, ← hm]
    rw [← henter, step_items hst]
    cases hact : loopAct k has needs b with
    | again flag => simp [Act.elim, Poised, enter, hst, loopAct_slash hact]
    | member => exact member_poised hb _
    | done =>
      have hslash : b ≠ ch '\\' := by
        rw [(loopAct_done hact).2]
        cases k <;> decide
      exact resume_poised hslash _
    | fail c => exact loopAct_premature hact
  | blank =>
    simp only [Poised, hm] at h
    simp only [step, hm]
    split
    · simpa [Poised, hm] using h
    · apply front_poised hb
      intro _ hne
      exact absurd h hne
  | quoted q esc =>
    have hkept : ∀ esc', ({ st with offset := st.offset + 1 }.enter (.quoted q esc')).Poised b := by
      intro esc'
      simp only [Poised, hm] at h
      cases q <;> exact h
    simp only [step, hm]
    split
    · apply hkept
    split
    · apply hkept
    split
    · next hq =>
      cases q with
      | label => simpa [Poised, hm, afterQuote, enter] using h
      | value chr =>
        have hslash : b ≠ ch '\\' := by
          rw [endCheckForQuoted_iff] at hq
          rw [hq]
          decide
        exact leave_poised hslash _ chr _
    · simpa [Poised, hm, enter] using hkept esc
  | bare esc text =>
    simp only [Poised, hm] at h
    simp only [step, hm]
    split
    · simp [Poised, enter, h.1, hb.symm]; decide
    split
    · next hs => simp [Poised, enter, h.1, hs]
    split
    · next hslash hend =>
      unfold endBare
      split
      · exact leave_poised hslash _ 0 b
      · next c hc => exact unquoted_premature hc
    · simp [Poised, enter, h.1, hb.symm]
  | colon past =>
    simp only [Poised, hm] at h
    obtain ⟨stack, hst⟩ : ∃ stack, st.stack = .obj :: stack := by
      simpa [List.head?_eq_some_iff] using h
    simp only [step, hm]
    split
    · simp [Poised, hst]
    split
    · simp [Poised, enter, hst]
    split
    · unfold value
      rw [if_neg hb]
      apply front_poised hb
      intro _ _
      simp [memberChr, hst]
    · rfl
  | tail =>
    simp only [Poised, hm] at h
    simp only [step, hm]
    split
    · simpa [Poised] using h
    · rfl
  | reject c => simpa [Poised, step, hm] using h

theorem run_poised (h : st.Poised last) (hd : 0 ∉ d) : (st.run d).Poised ((last :: d).getLast (by simp)) := by
  induction d generalizing st last with
  | nil => exact h
  | cons b d ih =>
    simp only [List.mem_cons, not_or] at hd
    rw [List.getLast_cons (by simp)]
    by_cases hc : ∃ c, st.mode = .reject c
    · obtain ⟨c, hc⟩ := hc
      rw [run_reject hc]
      simpa [Poised, hc] using h
    · rw [run_step fun c h => hc ⟨c, h⟩]
      exact ih (step_poised h (Ne.symm hd.1)) hd.2

/-! ## Ending what is open -/

/-- Nothing is missing but the brackets of the open collections. -/
def Ready (st : Scan) : Prop :=
  match st.stack with
  | [] => st.mode = .tail
  | _ :: _ => ∃ has, st.mode = .items has false

theorem resume_ready (st : Scan) : st.resume.Ready := by
  unfold resume
  split
  · next h => simp [Ready, enter, h]
  · next h => simp [Ready, enter, h]

theorem ready_accept (h : st.Ready) :
    ∃ lastEnd, st.verdict .eof (st.stack.map Kind.closeChar) = .accept lastEnd := by
  generalize hst : st.stack = stack
  induction stack generalizing st with
  | nil =>
    simp only [Ready, hst] at h
    exact ⟨st.lastEnd, by simp [atEnd, h]⟩
  | cons k stack ih =>
    simp only [Ready, hst] at h
    obtain ⟨has, hm⟩ := h
    have hstep : st.step k.closeChar = { st with offset := st.offset + 1 }.close := by
      have henter : st.enter (.items has false) = st := by simp only [enter, ← hm]
      rw [← henter, step_items hst, loopAct_elim]
      cases k <;> rfl
    have hrun : st.verdict .eof ((k :: stack).map Kind.closeChar) =
        (st.step k.closeChar).verdict .eof (stack.map Kind.closeChar) := by
      simp only [verdict, List.map_cons]
      rw [run_step (by simp [hm])]
    rw [hrun, hstep]
    apply ih
    · apply resume_ready
    · unfold close resume
      split <;> simp_all [enter]

/-- Some continuation ends the document. -/
def Completable (st : Scan) : Prop := ∃ rest lastEnd, st.verdict .eof rest = .accept lastEnd

theorem Completable.step (hr : ∀ c, st.mode ≠ .reject c) (h : (st.step b).Completable) : st.Completable := by
  obtain ⟨rest, lastEnd, h⟩ := h
  refine ⟨b :: rest, lastEnd, ?_⟩
  rw [verdict, run_step hr]
  exact h

theorem Ready.completable (h : st.Ready) : st.Completable := ⟨_, ready_accept h⟩

theorem bare_completable {text : Bytes} {J : Json} (hm : st.mode = .bare false text)
    (hu : unquoted (text.takeWhile (· ≠ 0)) = .ok J) : st.Completable := by
  cases hst : st.stack with
  | nil => exact ⟨[], st.lastEnd, by simp only [verdict_nil, atEnd, hm, hu, hst]⟩
  | cons k stack =>
    have hclose : endCheckForUnquoted k.closeChar = true := by cases k <;> decide
    have hslash : k.closeChar ≠ ch '\\' := by cases k <;> decide
    have hcomma : k.closeChar ≠ ch ',' := by cases k <;> decide
    have hstep : st.step k.closeChar = { st with offset := st.offset + 1 }.close := by
      simp [step, hm, hclose, hslash, endBare_ok hu, leave, hst, hcomma]
    apply Completable.step (by simp [hm])
    rw [hstep]
    exact (resume_ready _).completable

/-- A value that is due: a zero will do. -/
theorem value_completable (hm : (st.step (ch '0')).mode = .bare false [ch '0']) (hr : ∀ c, st.mode ≠ .reject c) :
    st.Completable := by
  apply Completable.step hr
  exact bare_completable hm rfl

theorem colon_completable {past : Bool} (hm : st.mode = .colon past) : st.Completable := by
  have hzero : ∀ {st : Scan}, st.mode = .colon true → st.Completable := by
    intro st hm
    apply value_completable _ (by simp [hm])
    simp only [step, hm]
    rfl
  apply Completable.step (b := ch ':') (by simp [hm])
  apply hzero
  simp only [step, hm]
  rfl

theorem quoted_completable {q : Quote} {esc : Bool} (h : st.Poised last) (hm : st.mode = .quoted q esc) :
    st.Completable := by
  -- behind the byte of an escape
  have hbody : ∀ {st : Scan}, st.Poised last → st.mode = .quoted q false → st.Completable := by
    intro st h hm
    have hstep : st.step (ch '"') = { st with offset := st.offset + 1 }.afterQuote q := by
      simp only [step, hm]
      rfl
    apply Completable.step (by simp [hm])
    rw [hstep]
    simp only [Poised, hm] at h
    cases q with
    | label => exact @colon_completable _ false rfl
    | value chr =>
      apply Ready.completable
      show (leave _ chr _).Ready
      unfold leave
      split
      · next hst => simp [Ready, enter, hst]
      · next k stack hst =>
        have hchr : chr = ch '"' := h (by rw [show st.stack = _ from hst]; simp)
        have hclose : ch '"' ≠ k.closeChar := by cases k <;> decide
        rw [if_neg (by decide), if_neg hclose, if_pos (by simp [hchr])]
        simp [Ready, enter, hst]
  cases esc with
  | false => exact hbody h hm
  | true =>
    have hstep : st.step (ch '"') = { st with offset := st.offset + 1 }.enter (.quoted q false) := by
      simp only [step, hm]
      rfl
    apply Completable.step (by simp [hm])
    rw [hstep]
    apply hbody _ rfl
    simp only [Poised, hm] at h
    cases q <;> exact h

theorem items_completable {has needs : Bool} (h : st.Poised last) (hm : st.mode = .items has needs) :
    st.Completable := by
  simp only [Poised, hm] at h
  obtain ⟨k, stack, hst⟩ := List.exists_cons_of_ne_nil h.1
  cases needs with
  | false => exact Ready.completable (by simp [Ready, hst, hm])
  | true =>
    cases k with
    | arr =>
      apply value_completable _ (by simp [hm])
      simp only [step, hm, hst, member, value]
      rfl
    | obj =>
      have hstep : st.step (ch '"') = { st with offset := st.offset + 1 }.enter (.quoted .label false) := by
        simp only [step, hm, hst, member]
        rfl
      have hpoised : (({ st with offset := st.offset + 1 } : Scan).enter (.quoted .label false)).Poised last := by
        simp [Poised, enter, hst]
      apply Completable.step (by simp [hm])
      rw [hstep]
      exact quoted_completable hpoised rfl

/-- An unquoted text with a backslash in it stands for no value, however it goes on. -/
theorem slash_doomed {esc : Bool} {text : Bytes} (ht : ch '\\' ∈ text.takeWhile (· ≠ 0)) (ending : Ending)
    (rest : Bytes) (lastEnd : Option Nat) : (st.enter (.bare esc text)).verdict ending rest ≠ .accept lastEnd := by
  have herror : ∀ t, ∃ c, unquoted ((text ++ t).takeWhile (· ≠ 0)) = .error c := by
    intro t
    cases hu : unquoted ((text ++ t).takeWhile (· ≠ 0)) with
    | error c => exact ⟨c, rfl⟩
    | ok J =>
      have hmem : ch '\\' ∈ (text ++ t).takeWhile (· ≠ 0) := by
        rw [List.takeWhile_append]
        split
        · exact List.mem_append_left _ (List.takeWhile_subset _ ht)
        · exact ht
      exact absurd rfl (bare_plain (unquoted_iff.1 hu) _ hmem).2.1
  rw [verdict_bare]
  rcases hl : lex endCheckForUnquoted esc rest st.offset with ⟨⟨t, _ | e⟩, q⟩
  · obtain ⟨c, hc⟩ := herror t
    simp only [atEnd, enter, hc]
    simp
  · obtain ⟨c, hc⟩ := herror t
    dsimp only
    rw [endBare_error hc, verdict_reject]
    simp

theorem slash_not_completable {text : Bytes} (hm : st.mode = .bare true text) (hz : 0 ∉ text)
    (hst : st.stack ≠ []) : ¬ st.Completable := by
  rintro ⟨rest, lastEnd, h⟩
  cases rest with
  | nil =>
    simp only [verdict_nil, atEnd, hm] at h
    split at h
    · split at h
      · contradiction
      · cases h
    · cases h
  | cons b rest =>
    have hstep : st.step b = { st with offset := st.offset + 1 }.enter (.bare false (text ++ [ch '\\', b])) := by
      simp only [step, hm]
      rfl
    rw [verdict, run_step (by simp [hm]), hstep] at h
    refine slash_doomed ?_ .eof rest lastEnd h
    rw [List.takeWhile_append, takeWhile_noNul hz, if_pos rfl, List.takeWhile_cons_of_pos (by decide)]
    simp

end Scan

/-! ## What a report says of longer texts -/

/-- A document begins with `d`. -/
def Begins (d : Bytes) : Prop := ∃ rest J, Document J (d ++ rest)

theorem begins_iff (offset : Nat) : Begins d ↔ ((Scan.init offset).run d).Completable := by
  unfold Begins Scan.Completable
  apply exists_congr
  intro rest
  rw [← @accept_iff _ .eof offset, Scan.verdict_append]

theorem atEnd_premature {st : Scan} {c : Check} {offset : Nat} {lastEnd : Option Nat} (hp : st.Poised last)
    (h : st.atEnd .eof = .fail c offset lastEnd) (hc : c.premature = true) :
    st.Completable ↔ (c = .unterminated → last ≠ ch '\\') := by
  cases hm : st.mode with
  | blank =>
    simp only [Scan.atEnd, hm] at h
    cases h
    apply iff_of_true _ (by simp)
    apply Scan.value_completable _ (by simp [hm])
    simp only [Scan.step, hm]
    rfl
  | items has needs =>
    have hlast : last ≠ ch '\\' := by
      simp only [Scan.Poised, hm] at hp
      exact hp.2
    exact iff_of_true (Scan.items_completable hp hm) fun _ => hlast
  | quoted q esc =>
    simp only [Scan.atEnd, hm] at h
    cases h
    exact iff_of_true (Scan.quoted_completable hp hm) (by simp)
  | colon past =>
    simp only [Scan.atEnd, hm] at h
    cases h
    exact iff_of_true (Scan.colon_completable hm) (by simp)
  | bare esc text =>
    simp only [Scan.atEnd, hm] at h
    simp only [Scan.Poised, hm] at hp
    obtain ⟨hz, hlast⟩ := hp
    split at h
    · next J hu =>
      split at h
      · cases h
      next k stack hst =>
      cases h
      cases esc with
      | true => exact iff_of_false (Scan.slash_not_completable hm hz (by simp [hst])) fun hne => hne rfl hlast
      | false =>
        refine iff_of_true (Scan.bare_completable hm hu) fun _ => ?_
        rw [takeWhile_noNul hz] at hu
        exact (bare_plain (unquoted_iff.1 hu) _ (List.mem_of_getLast? hlast)).2.1
    · next c' hu =>
      cases h
      rw [Scan.unquoted_premature hu] at hc
      cases hc
  | tail =>
    simp only [Scan.atEnd, hm] at h
    cases h
  | reject c' =>
    simp only [Scan.atEnd, hm] at h
    cases h
    simp only [Scan.Poised, hm] at hp
    rw [hp] at hc
    cases hc

/-- The messages of the checks that fail because the file ends. -/
def endMessages : List String := ["unexpected end-of-file", "unexpected EOF", "unterminated collection"]

/-- The messages of the checks on an unquoted text, which are made where it ends. -/
def bareMessages : List String := ["invalid number", "unquoted values must be keywords or numbers"]

theorem Check.premature_message (c : Check) : c.premature = true ↔ ∃ m ∈ endMessages, c.message = some m := by
  cases c <;> decide

theorem Check.unterminated_iff (c : Check) : c = .unterminated ↔ c.message = some "unterminated collection" := by
  cases c <;> decide

theorem Rejected.message {result : Bool × Ptr} {c : Check} {offset : Nat} {lastEnd : Option Nat}
    (h : Rejected w result w' c offset lastEnd) (he : w.ending = .eof) : w'.pe.message = c.message := by
  have hm : c.message ≠ none := fun hm => by
    obtain ⟨herr, -⟩ := Scan.atEnd_silent (scanned_reported w) h.verdict hm
    cases he.symm.trans herr
  obtain ⟨m, hm⟩ := Option.ne_none_iff_exists'.1 hm
  rw [h.record, h.verdict]
  simp only [Verdict.record, hm]

theorem scanned_poised (hnul : 0 ∉ w.input) : w.scanned.Poised ((0 :: w.input).getLast (by simp)) := by
  apply Scan.run_poised _ hnul
  simp [Scan.Poised, Scan.init]

/-- **A document that is cut off can be completed.** Where the report says that the file ended too early
there is a document that begins with the text, unless it ends in a backslash outside of quotes. -/
theorem premature_iff {p : Ptr} (hw : w.Ample) (he : w.ending = .eof) (hnul : 0 ∉ w.input)
    (hret : Returns w (false, p) w') (hm : ∃ m ∈ endMessages, w'.pe.message = some m) :
    Begins w.input ↔
      (w'.pe.message = some "unterminated collection" → w.input.getLast? ≠ some (ch '\\')) := by
  rcases parse_outcome (hw.grants _) hret with ⟨t, J, ha⟩ | ⟨c, offset, lastEnd, hr⟩
  · cases ha.result
  rw [hr.message he] at hm ⊢
  have hend : w.scanned.atEnd .eof = .fail c offset lastEnd := by
    rw [← hr.verdict, World.verdict, he]
    rfl
  rw [begins_iff w.offset, ← c.unterminated_iff]
  refine (atEnd_premature (scanned_poised hnul) hend (c.premature_message.2 hm)).trans ?_
  have hlast : (0 :: w.input).getLast (by simp) ≠ ch '\\' ↔ w.input.getLast? ≠ some (ch '\\') := by
    cases hi : w.input with
    | nil => simp; decide
    | cons b d => simp [List.getLast?_eq_some_getLast]
  rw [hlast]

theorem premature_iff_open : ∃ w', Returns (World.start (cs "[1,") .eof) (false, none) w' ∧
    (Begins (cs "[1,") ↔
      (w'.pe.message = some "unterminated collection" → (cs "[1,").getLast? ≠ some (ch '\\'))) := by
  have hrun : endsIn (jdParseFile 30 (World.start (cs "[1,") .eof)) (fun r w' =>
      !r.1 && (r.2 == none && w'.pe.message == some "unterminated collection")) = true := by decide +kernel
  obtain ⟨⟨ok, p⟩, w', hrun, hq⟩ := endsIn_run hrun
  simp only [Bool.and_eq_true, Bool.not_eq_true', beq_iff_eq] at hq
  obtain ⟨rfl, rfl, hm⟩ := hq
  have hret := returns_iff.2 ⟨30, hrun⟩
  exact ⟨w', hret, premature_iff (start_ample _ _) rfl (by decide) hret ⟨_, by decide, hm⟩⟩

theorem unquoted_bareMessages {str : Bytes} {c : Check} (h : unquoted str = .error c) :
    ∃ m ∈ bareMessages, c.message = some m := by
  unfold unquoted at h
  split_ifs at h <;> cases h <;> decide

/-- A check that is neither about the end of the file nor about an unquoted text failed at a byte. -/
theorem atEnd_reject {st : Scan} {c : Check} {offset : Nat} {lastEnd : Option Nat}
    (h : st.atEnd .eof = .fail c offset lastEnd) (hm : ∀ m ∈ endMessages ++ bareMessages, c.message ≠ some m) :
    st.mode = .reject c := by
  have hend : ∀ {m}, m ∈ endMessages → c.message ≠ some m := fun h => hm _ (List.mem_append_left _ h)
  cases hmode : st.mode with
  | reject c' =>
    simp only [Scan.atEnd, hmode] at h
    cases h
    rfl
  | tail =>
    simp only [Scan.atEnd, hmode] at h
    cases h
  | bare esc text =>
    simp only [Scan.atEnd, hmode] at h
    split at h
    · split at h
      · cases h
      · cases h
        exact absurd rfl (hend (m := "unterminated collection") (by decide))
    · next hu =>
      cases h
      obtain ⟨m, hbare, hc⟩ := unquoted_bareMessages hu
      exact absurd hc (hm m (List.mem_append_right _ hbare))
  | blank | colon =>
    simp only [Scan.atEnd, hmode] at h
    cases h
    exact absurd rfl (hend (m := "unexpected end-of-file") (by decide))
  | items =>
    simp only [Scan.atEnd, hmode] at h
    cases h
    exact absurd rfl (hend (m := "unterminated collection") (by decide))
  | quoted =>
    simp only [Scan.atEnd, hmode] at h
    cases h
    exact absurd rfl (hend (m := "unexpected EOF") (by decide))

/-- **Every other report is final**: whatever follows the text, and however the file ends then, the
document is rejected with the same record. -/
theorem rejection_final {p : Ptr} {w1 : World} (hw : w.Ample) (he : w.ending = .eof)
    (hret : Returns w (false, p) w') (hm : ∀ m ∈ endMessages ++ bareMessages, w'.pe.message ≠ some m)
    (hw1 : w1.Ample) (hoff : w1.offset = w.offset) (hpe : w1.pe = w.pe) (hpre : w.input <+: w1.input) :
    ∃ w1', Returns w1 (false, none) w1' ∧ w1'.pe = w'.pe := by
  rcases parse_outcome (hw.grants _) hret with ⟨t, J, ha⟩ | ⟨c, offset, lastEnd, hr⟩
  · cases ha.result
  rw [hr.message he] at hm
  have hend := hr.verdict
  rw [World.verdict, he] at hend
  have hmode : w.scanned.mode = .reject c := atEnd_reject hend hm
  have hv : w1.verdict = w.verdict := by
    obtain ⟨rest, hin⟩ := hpre
    rw [World.verdict, ← hin, hoff, Scan.verdict_append]
    show (w.scanned.run rest).atEnd w1.ending = w.scanned.atEnd w.ending
    rw [Scan.run_reject hmode]
    simp only [Scan.atEnd, hmode]
  obtain ⟨result, w1', hret1⟩ := returns_of_verdict (hw1.grants _) (by simp [hv, hr.verdict])
  rcases parse_outcome (hw1.grants _) hret1 with ⟨t, J, ha⟩ | ⟨c1, offset1, lastEnd1, hr1⟩
  · obtain ⟨lastEnd1, hacc, -⟩ := ha.verdict
    rw [hv, hr.verdict] at hacc
    cases hacc
  · refine ⟨w1', hr1.result ▸ hret1, ?_⟩
    rw [hr1.record, hr.record, hv, hpe]

/-- `[,]` and whatever follows. -/
theorem rejection_final_comma : ∃ w1', Returns (World.start (cs "[,] 1") .error) (false, none) w1' ∧
    w1'.pe.message = some "comma in collection without preceeding member" := by
  have hrun : endsIn (jdParseFile 20 (World.start (cs "[,]") .eof)) (fun r w' =>
      !r.1 && w'.pe.message == some "comma in collection without preceeding member") = true := by decide +kernel
  obtain ⟨⟨ok, p⟩, w', hrun, hq⟩ := endsIn_run hrun
  simp only [Bool.and_eq_true, Bool.not_eq_true', beq_iff_eq] at hq
  obtain ⟨rfl, hm⟩ := hq
  obtain ⟨w1', hret, hpe⟩ := @rejection_final _ _ _ (World.start (cs "[,] 1") .error) (start_ample _ _) rfl
    (returns_iff.2 ⟨20, hrun⟩) (by rw [hm]; decide) (start_ample _ _) rfl rfl ⟨cs " 1", rfl⟩
  exact ⟨w1', hret, by rw [hpe, hm]⟩

end JsonDom
