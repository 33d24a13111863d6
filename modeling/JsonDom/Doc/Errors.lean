import JsonDom.Proof.Outcome

/-!
# The error record, read errors and termination

What is in the caller's record behind a call (`record_iff`), whether a call returns
(`returns_iff_scan`), and what becomes of a document that a read error cuts short
(`read_error_iff`). Nothing sets `collection_terminated`, so a collection that was read leaves a
report behind; the whitespace loop of `JParser` and the lookup behind the root do not tell a read
error from a blank and from the end of the file.
-/

namespace JsonDom

open Reader

variable {w w' : World}

/-- The state of the automaton behind the last byte. -/
def World.scanned (w : World) : Scan := (Scan.init w.offset).run w.input

/-! ## Termination -/

theorem value_record {fuel : Nat} {chr : UInt8} {s s' : Src} {J : Json} {e : Option UInt8}
    (h : value fuel chr s = .ok (J, e) s') :
    (J.IsCollection → s'.pe.message ≠ none) ∧ (¬ J.IsCollection → s'.pe = s.pe) := by
  cases fuel with
  | zero => cases h
  | succ fuel =>
    unfold value at h
    obtain ⟨b, s1, hb, h⟩ := Out.bind_eq_ok h
    obtain ⟨-, hpe, -⟩ := blanks_sound hb
    have hcoll : ∀ k, ((collection fuel k s1).bind fun J s => .ok (J, none) s) = .ok (J, e) s' →
        (J.IsCollection → s'.pe.message ≠ none) ∧ (¬ J.IsCollection → s'.pe = s.pe) := by
      intro k h
      obtain ⟨J', s2, hc, h⟩ := Out.bind_eq_ok h
      cases h
      cases fuel with
      | zero => cases hc
      | succ fuel =>
        unfold collection at hc
        obtain ⟨ms, s3, -, hc⟩ := Out.bind_eq_ok hc
        cases hc
        exact ⟨fun _ => Option.some_ne_none _, fun hn => absurd (Kind.build_isCollection k ms) hn⟩
    dsimp only at h
    split at h
    · exact hcoll .arr h
    split at h
    · exact hcoll .obj h
    obtain ⟨⟨J', e'⟩, s2, hs, h⟩ := Out.bind_eq_ok h
    cases h
    obtain ⟨hpe', used, v, z, -, -, -, hst⟩ := scalar_sound hs
    exact ⟨fun hJ => absurd (hst.of_collection hJ).1 (Option.some_ne_none _), fun _ => hpe'.trans hpe⟩

theorem accept_lastEnd {J : Json} {lastEnd : Option Nat} (hd : Document J w.input)
    (hv : w.verdict = .accept lastEnd) : lastEnd ≠ none ↔ J.IsCollection := by
  let s : Src := { w.toSrc with pe := { charLoc := 0, message := none } }
  have hscan := file_scan (8 * w.input.length + 3) s
  have hread := @file_complete J s hd (8 * w.input.length + 3)
  cases ho : file (8 * w.input.length + 3) s with
  | timeout =>
    rw [ho] at hscan
    cases hv.symm.trans (hscan (Nat.le_refl _))
  | fail =>
    rw [ho] at hread
    exact hread.elim
  | ok J' s' =>
    rw [ho] at hscan hread
    obtain ⟨rfl, -⟩ := hread
    obtain ⟨lastEnd', hv', hpe⟩ := hscan
    obtain rfl : lastEnd = lastEnd' := by
      cases hv.symm.trans hv'
      rfl
    have hrec : (J'.IsCollection → s'.pe.message ≠ none) ∧ (¬ J'.IsCollection → s'.pe = s.pe) := by
      unfold file at ho
      obtain ⟨⟨J, e⟩, s1, hval, ho⟩ := Out.bind_eq_ok ho
      dsimp only at ho
      split at ho
      · cases ho
        have hrec := value_record hval
        exact hrec
      · cases ho
    rw [hpe] at hrec
    cases lastEnd with
    | none => exact iff_of_false (fun h => h rfl) fun hJ => hrec.1 hJ rfl
    | some offset =>
      refine iff_of_true nofun (by_contra fun hJ => ?_)
      exact absurd (congrArg JdParseError.message (hrec.2 hJ)) nofun

/-! ## Checks that fail without a report -/

namespace Scan

/-- A check that failed has a message. -/
def Reported (st : Scan) : Prop := ∀ c, st.mode = .reject c → c.message ≠ none

variable {st : Scan}

theorem Reported.enter {mode : Mode} (h : ∀ c, mode = .reject c → c.message ≠ none) :
    (st.enter mode).Reported := h

theorem resume_reported (st : Scan) : st.resume.Reported := by
  unfold resume
  split <;> exact .enter nofun

theorem leave_reported (st : Scan) (chr e : UInt8) : (st.leave chr e).Reported := by
  unfold leave
  split
  · exact .enter nofun
  split
  · exact .enter nofun
  split
  · exact resume_reported _
  split
  · exact .enter nofun
  · exact .enter fun c hc => by cases hc; exact nofun

theorem value_reported (st : Scan) (chr b : UInt8) : (st.front chr b).Reported ∧ (st.value chr).Reported := by
  have hfront : ∀ chr b, (st.front chr b).Reported := by
    intro chr b
    unfold front
    split
    · exact nofun
    split
    · exact nofun
    split <;> exact .enter nofun
  refine ⟨hfront chr b, ?_⟩
  unfold value
  split
  · exact .enter nofun
  · exact hfront chr chr

theorem member_reported (st : Scan) (chr : UInt8) : (st.member chr).Reported := by
  unfold member
  split
  · split
    · exact .enter nofun
    · exact .enter fun c hc => by cases hc; exact nofun
  · exact (st.value_reported chr chr).2

theorem unquoted_message {str : Bytes} {c : Check} (h : unquoted str = .error c) : c.message ≠ none := by
  unfold unquoted at h
  split_ifs at h <;> cases h <;> exact nofun

theorem step_reported (h : st.Reported) (b : UInt8) : (st.step b).Reported := by
  have hst : Reported { st with offset := st.offset + 1 } := h
  unfold step
  generalize ({ st with offset := st.offset + 1 } : Scan) = st at hst ⊢
  have hreject : ∀ {c : Check}, c.message ≠ none → (st.enter (.reject c)).Reported := fun hm c hc => by
    cases hc
    exact hm
  dsimp only
  cases hm : st.mode with
  | blank =>
    dsimp only
    split
    · exact hst
    · exact (st.value_reported 0 b).1
  | items has needs =>
    dsimp only
    split
    · exact hst
    split
    · exact hst
    split
    · split
      · exact hreject nofun
      · exact st.member_reported b
    split
    · exact resume_reported _
    split
    · exact hreject nofun
    split
    · split
      · exact .enter nofun
      · exact hreject nofun
    split
    · exact hreject nofun
    · exact st.member_reported b
  | quoted q esc =>
    dsimp only
    split
    · exact .enter nofun
    split
    · exact .enter nofun
    split
    · cases q with
      | label => exact .enter nofun
      | value chr => exact st.leave_reported chr _
    · exact hst
  | bare esc text =>
    dsimp only
    split
    · exact .enter nofun
    split
    · exact .enter nofun
    split
    · unfold endBare
      split
      · exact st.leave_reported 0 b
      · next c hc => exact hreject (unquoted_message hc)
    · exact .enter nofun
  | colon past =>
    dsimp only
    split
    · exact hst
    split
    · exact .enter nofun
    split
    · exact (st.value_reported b b).2
    · exact hreject nofun
  | tail =>
    dsimp only
    split
    · exact hst
    · exact hreject nofun
  | reject c => exact hst

theorem run_reported (h : st.Reported) (d : Bytes) : (st.run d).Reported := by
  induction d generalizing st with
  | nil => exact h
  | cons b d ih =>
    unfold run
    split
    · exact h
    · exact ih (step_reported h b)

/-- **A check without a report fails** only between a label and its value, at a read error. -/
theorem atEnd_silent {ending : Ending} {c : Check} {offset : Nat} {lastEnd : Option Nat}
    (hr : st.Reported) (h : st.atEnd ending = .fail c offset lastEnd) (hc : c.message = none) :
    ending = .error ∧ (∃ past, st.mode = .colon past) ∧ st.lastEnd = lastEnd := by
  unfold atEnd at h
  cases hm : st.mode with
  | colon past =>
    rw [hm] at h
    cases ending with
    | eof => cases h; cases hc
    | error => cases h; exact ⟨rfl, ⟨past, rfl⟩, rfl⟩
  | blank =>
    rw [hm] at h
    cases ending <;> cases h
    cases hc
  | bare esc text =>
    rw [hm] at h
    dsimp only at h
    split at h
    · split at h <;> cases h
      cases hc
    · next hu =>
      cases h
      exact absurd hc (unquoted_message hu)
  | items | quoted =>
    rw [hm] at h
    cases h
    cases hc
  | tail =>
    rw [hm] at h
    cases h
  | reject c' =>
    rw [hm] at h
    cases h
    exact absurd hc (hr c hm)

end Scan

theorem scanned_reported (w : World) : w.scanned.Reported :=
  Scan.run_reported (fun _ hc => by cases hc) _

/-- What a report of the check `c` behind `offset` bytes leaves in the record. -/
def Check.report (c : Check) (offset : Nat) : JdParseError :=
  { charLoc := (BitVec.ofNat 32 offset).toInt, message := c.message }

/-- Whatever is in the record before the call: it is still there behind a call that returns true, and
behind one that returns false there is the report of the check that failed. -/
def RecordTells (w : World) : Prop :=
  ∀ pe result w', Returns { w with pe := pe } result w' →
    (result.1 = true → w'.pe = pe) ∧
      (result.1 = false → ∃ c offset lastEnd, w.verdict = .fail c offset lastEnd ∧
        c.message ≠ none ∧ w'.pe = c.report offset)

/-- The root collection of an accepted document spoils the record. -/
theorem collection_not_recordTells {J : Json} (hw : w.Ample) (hJ : J.IsCollection)
    (hd : Document J w.input) : ¬ RecordTells w := by
  intro ht
  let pe : JdParseError := { charLoc := 0, message := none }
  obtain ⟨t, w', hret, ha⟩ := @document_parsed { w with pe := pe } J (World.Ample.grants hw _) hd
  obtain ⟨lastEnd, hv, hpe⟩ := ha.verdict
  have hsame := (ht pe _ w' hret).1 rfl
  cases lastEnd with
  | none => exact (accept_lastEnd hd hv).2 hJ rfl
  | some offset => exact absurd (congrArg JdParseError.message (hpe.symm.trans hsame)) nofun

/-- **The record tells success from failure unless the root is a collection.** -/
theorem record_iff (hw : w.Ample) (he : w.ending = .eof) :
    RecordTells w ↔ ¬ ∃ J, J.IsCollection ∧ Document J w.input := by
  constructor
  · rintro ht ⟨J, hJ, hd⟩
    exact collection_not_recordTells hw hJ hd ht
  · intro hno pe result w' hret
    rcases @parse_outcome { w with pe := pe } w' result (World.Ample.grants hw _) hret with
      ⟨t, J, ha⟩ | ⟨c, offset, lastEnd, hr⟩
    · obtain ⟨lastEnd, hv, hpe⟩ := ha.verdict
      have hnone : lastEnd = none := by_contra fun h =>
        hno ⟨J, (accept_lastEnd ha.document hv).1 h, ha.document⟩
      rw [ha.result]
      exact ⟨fun _ => by rw [hpe, hnone]; rfl, nofun⟩
    · have hm : c.message ≠ none := fun hm => by
        obtain ⟨herr, -⟩ := Scan.atEnd_silent (scanned_reported w) hr.verdict hm
        cases he.symm.trans herr
      rw [hr.result]
      refine ⟨nofun, fun _ => ⟨c, offset, lastEnd, hr.verdict, hm, ?_⟩⟩
      rw [hr.record, hr.verdict]
      obtain ⟨m, hm⟩ := Option.ne_none_iff_exists'.1 hm
      simp only [Verdict.record, Check.report, hm]

theorem record_iff_one : RecordTells (World.start (cs "1") .eof) ↔
    ¬ ∃ J, J.IsCollection ∧ Document J (cs "1") :=
  record_iff (start_ample _ _) rfl

theorem empty_array_document : Document (.arr []) (cs "[]") :=
  ⟨[], cs "[]", [], .nil, @Renders.coll .arr [] _ nofun (.inl ⟨rfl, [], .nil, rfl⟩), .inl .nil, rfl⟩

/-- Behind an empty array the record says that a collection is unterminated. -/
theorem empty_array_spoils : ¬ RecordTells (World.start (cs "[]") .eof) :=
  @collection_not_recordTells (World.start (cs "[]") .eof) (.arr []) (start_ample _ _) trivial
    empty_array_document

/-! ## Read errors -/

/-- Whatever is in the record before the call: if it returns, then false, `NULL` and a message. -/
def ErrorSeen (w : World) : Prop :=
  ∀ pe result w', Returns { w with pe := pe } result w' → result = (false, none) ∧ w'.pe.message ≠ none

/-- What is in front of a read error can be a whole document. -/
theorem document_not_errorSeen {J : Json} (hg : w.Grants w.requests) (hd : Document J w.input) :
    ¬ ErrorSeen w := by
  intro hs
  obtain ⟨t, w', hret, -⟩ := document_parsed hg hd
  cases (hs w.pe _ w' hret).1

/-- Nothing has been reported when the request is refused. -/
def World.Silent (w : World) : Prop := silent w.oracle w.mallocs w.events = true

theorem refused_errorSeen (hf : w.Refuses w.requests) : ErrorSeen w ↔ ¬ w.Silent := by
  constructor
  · intro hs hsilent
    let pe : JdParseError := { charLoc := 0, message := none }
    obtain ⟨result, w', hret⟩ := refused_returns (hf.record pe)
    have hushed := (refused_outcome (hf.record pe) hret).hushed
    rw [events_record] at hushed
    exact (hs pe result w' hret).2 (hushed.2 ⟨rfl, hsilent⟩)
  · intro hno pe result w' hret
    have hgave := refused_outcome (hf.record pe) hret
    have hushed := hgave.hushed
    rw [events_record] at hushed
    exact ⟨hgave.result, fun hn => hno (hushed.1 hn).2⟩

theorem granted_errorSeen (hg : w.Grants w.requests) (he : w.ending = .error) :
    ErrorSeen w ↔ (¬ ∃ J, Document J w.input) ∧
      ¬ ((∃ past, w.scanned.mode = .colon past) ∧ w.scanned.lastEnd = none) := by
  constructor
  · intro hs
    refine ⟨fun ⟨J, hd⟩ => document_not_errorSeen hg hd hs, fun ⟨⟨past, hm⟩, hl⟩ => ?_⟩
    let pe : JdParseError := { charLoc := 0, message := none }
    have hv : w.verdict = .fail .errorAfterLabel w.scanned.offset none := by
      show w.scanned.atEnd w.ending = _
      unfold Scan.atEnd
      rw [hm, he, hl]
    obtain ⟨result, w', hret⟩ := @returns_of_verdict { w with pe := pe } (hg.record pe)
      (fun h => by cases hv.symm.trans h)
    have hmsg := (hs pe result w' hret).2
    rcases parse_outcome (hg.record pe) hret with ⟨t, J, ha⟩ | ⟨c, offset, lastEnd, hr⟩
    · obtain ⟨lastEnd, hv', -⟩ := ha.verdict
      cases hv.symm.trans hv'
    · rw [hr.record] at hmsg
      have hv' : ({ w with pe := pe } : World).verdict = .fail .errorAfterLabel w.scanned.offset none := hv
      rw [hv'] at hmsg
      exact hmsg rfl
  · rintro ⟨hno, hcolon⟩ pe result w' hret
    rcases parse_outcome (hg.record pe) hret with ⟨t, J, ha⟩ | ⟨c, offset, lastEnd, hr⟩
    · exact absurd ⟨J, ha.document⟩ hno
    · refine ⟨hr.result, ?_⟩
      rw [hr.record, hr.verdict]
      cases hm : c.message with
      | some m => simp only [Verdict.record, hm]; exact Option.some_ne_none m
      | none =>
        obtain ⟨-, hpast, hlast⟩ := Scan.atEnd_silent (scanned_reported w) hr.verdict hm
        simp only [Verdict.record, hm]
        cases lastEnd with
        | none => exact absurd ⟨hpast, hlast⟩ hcolon
        | some => exact Option.some_ne_none _

/-- **A read error is seen** where a request is refused behind a report. Where none is refused it is seen
unless what is in front of it is a document, or ends between a label and its value where no collection
has ended before. -/
theorem read_error_iff (hh : w.Heeds) (he : w.ending = .error) :
    ErrorSeen w ↔ w.Refuses w.requests ∧ ¬ w.Silent ∨ w.Grants w.requests ∧ (¬ ∃ J, Document J w.input) ∧
      ¬ ((∃ past, w.scanned.mode = .colon past) ∧ w.scanned.lastEnd = none) := by
  rcases hh.cases with hg | hf
  · rw [granted_errorSeen hg he]
    simp only [hg, hg.not_refuses, false_and, false_or, true_and]
  · rw [refused_errorSeen hf]
    have hng : ¬ w.Grants w.requests := fun hg => hg.not_refuses hf
    simp only [hf, hng, true_and, false_and, or_false]

/-- A read error within a string, behind an array. -/
theorem read_error_iff_half :
    let w := World.start (cs "\x7b\"a\": [1], \"b") .error
    ErrorSeen w ↔ w.Refuses w.requests ∧ ¬ w.Silent ∨ w.Grants w.requests ∧ (¬ ∃ J, Document J w.input) ∧
      ¬ ((∃ past, w.scanned.mode = .colon past) ∧ w.scanned.lastEnd = none) :=
  read_error_iff ((start_ample _ _).grants _).heeds rfl

/-- An array is accepted when the next byte cannot be read. -/
theorem error_behind_root : ¬ ErrorSeen (World.start (cs "[]") .error) :=
  document_not_errorSeen ((start_ample _ _).grants _) empty_array_document

end JsonDom
