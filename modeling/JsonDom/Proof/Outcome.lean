import Mathlib.Data.Nat.Find
import JsonDom.Proof.Complete
import JsonDom.Proof.Record
import JsonDom.Proof.Refine
import JsonDom.Proof.Refusal
import JsonDom.Proof.Scan
import JsonDom.Proof.Settled
import JsonDom.Proof.Sound

/-!
# What `jd_parse_file` comes to

Where its requests are granted the outcome of a call is the automaton's verdict: with the tree of the
document (`Accepted`), with a failed check (`Rejected`), or none (`parse_outcome`). Where the first one
that is refused is heeded the call gives up (`GivenUp`). The accepted documents are those of the
grammar (`accept_iff`).
-/

namespace JsonDom

open Lib OTree

variable {w w' : World} {result : Bool × Ptr}

/-- A world with nothing in memory, where no allocation fails. -/
def World.start (input : Bytes) (ending : Ending) : World :=
  { input, ending, offset := 0, pe := { charLoc := 0, message := none }, heap := .empty,
    oracle := fun _ => true, mallocs := 0, stdout := [] }

theorem start_ample (input : Bytes) (ending : Ending) : (World.start input ending).Ample := fun _ => rfl

/-- The run returns true. -/
def succeeds {α : Type} (run : Except Halt ((Bool × α) × World)) : Bool :=
  match run with
  | .ok ((ok, _), _) => ok
  | .error _ => false

theorem succeeds_run {α : Type} {run : Except Halt ((Bool × α) × World)} (h : succeeds run = true) :
    ∃ x w', run = .ok ((true, x), w') := by
  match run, h with
  | .ok ((true, x), w'), _ => exact ⟨x, w', rfl⟩

/-- The run comes to an end that `q` accepts. -/
def endsIn {α : Type} (run : Except Halt (α × World)) (q : α → World → Bool) : Bool :=
  match run with
  | .ok (a, w') => q a w'
  | .error _ => false

theorem endsIn_run {α : Type} {run : Except Halt (α × World)} {q : α → World → Bool}
    (h : endsIn run q = true) : ∃ a w', run = .ok (a, w') ∧ q a w' = true := by
  match run, h with
  | .ok (a, w'), h => exact ⟨a, w', rfl, h⟩

theorem succeeds_returns {fuel : Nat} (h : succeeds (jdParseFile fuel w) = true) :
    ∃ node w', Returns w (true, node) w' := by
  obtain ⟨node, w', hrun⟩ := succeeds_run h
  exact ⟨node, w', returns_iff.2 ⟨fuel, hrun⟩⟩

/-- The verdict on what is left of the file. -/
def World.verdict (w : World) : Verdict := (Scan.init w.offset).verdict w.ending w.input

/-- The call returns true with the tree `t` of `J`, new in memory. -/
structure Accepted (w : World) (result : Bool × Ptr) (w' : World) (t : OTree) (J : Json) : Prop where
  result : result = (true, some t.addr)
  document : Document J w.input
  denotes : Denotes w'.heap t J
  grown : Grown w.heap w'.heap none t
  verdict : ∃ lastEnd, w.verdict = .accept lastEnd ∧ w'.pe = recorded w.pe lastEnd

/-- The call returns false because of the check `c`. -/
structure Rejected (w : World) (result : Bool × Ptr) (w' : World) (c : Check) (offset : Nat)
    (lastEnd : Option Nat) : Prop where
  result : result = (false, none)
  verdict : w.verdict = .fail c offset lastEnd
  record : w'.pe = w.verdict.record w.pe
  kept : Kept w.heap.size w w'

theorem Accepted.isTree {t : OTree} {J : Json} (h : Accepted w result w' t J) : IsTree w'.heap t J :=
  ⟨h.grown.hangs, h.grown.owned.nodup, h.denotes⟩

/-- The requests of a parse. -/
def World.requests (w : World) : List Request := Reader.valueRequests (8 * w.input.length + 3) 0 w.toSrc

theorem parse_ok {fuel : Nat} (hg : w.Grants (Reader.valueRequests fuel 0 w.toSrc))
    (h : jdParseFile fuel w = .ok (result, w')) :
    (∃ t J, Accepted w result w' t J) ∨ ∃ c offset lastEnd, Rejected w result w' c offset lastEnd := by
  have hrun := parseFile_run fuel hg
  have hscan := file_scan fuel w.toSrc
  cases ho : Reader.file fuel w.toSrc with
  | timeout =>
    rw [ho] at hrun
    exact absurd (h.symm.trans hrun) (by simp)
  | fail c s =>
    rw [ho] at hrun hscan
    obtain ⟨w1, hrun, hk, hsrc, -⟩ := hrun
    obtain ⟨offset, lastEnd, hv, hpe⟩ := hscan
    cases h.symm.trans hrun
    exact .inr ⟨c, offset, lastEnd, rfl, hv, by rw [hsrc]; exact hpe, hk⟩
  | ok J s =>
    have hdoc := file_sound ho
    rw [ho] at hrun hscan
    obtain ⟨t, w1, hrun, hm, hd, -⟩ := hrun
    obtain ⟨lastEnd, hv, hpe⟩ := hscan
    cases h.symm.trans hrun
    exact .inl ⟨t, J, rfl, hdoc, hd, hm.grown, lastEnd, hv, by rw [hm.src]; exact hpe⟩

/-- A call that does not return runs out of every fuel. -/
theorem parse_error {fuel : Nat} {e : Halt} (hg : w.Grants (Reader.valueRequests fuel 0 w.toSrc))
    (h : jdParseFile fuel w = .error e) :
    e = .timeout ∧ (8 * w.input.length + 3 ≤ fuel → w.verdict = .diverge) := by
  have hrun := parseFile_run fuel hg
  have hscan := file_scan fuel w.toSrc
  cases ho : Reader.file fuel w.toSrc with
  | timeout =>
    rw [ho] at hrun hscan
    cases h.symm.trans hrun
    exact ⟨rfl, hscan⟩
  | fail c s =>
    rw [ho] at hrun
    obtain ⟨w1, hrun, -⟩ := hrun
    cases h.symm.trans hrun
  | ok J s =>
    rw [ho] at hrun
    obtain ⟨t, w1, hrun, -⟩ := hrun
    cases h.symm.trans hrun

/-- **The call returns unless the verdict is that there is no end.** -/
theorem returns_of_verdict (hg : w.Grants w.requests) (hv : w.verdict ≠ .diverge) :
    ∃ result w', Returns w result w' := by
  cases h : jdParseFile (8 * w.input.length + 3) w with
  | error e => exact absurd ((parse_error hg h).2 (Nat.le_refl _)) hv
  | ok p => exact ⟨p.1, p.2, returns_iff.2 ⟨_, h⟩⟩

theorem parse_outcome (hg : w.Grants w.requests) (h : Returns w result w') :
    (∃ t J, Accepted w result w' t J) ∨ ∃ c offset lastEnd, Rejected w result w' c offset lastEnd :=
  parse_ok hg h.settled

/-! ## The first request that is refused -/

/-- The first request that is refused, if there is one, is one the parser heeds. -/
def World.Heeds (w : World) : Prop :=
  ∀ k r, w.requests[k]? = some r → Granted w.oracle w.mallocs k → w.oracle (w.mallocs + k) = false →
    r.heeded = true

/-- The same of the requests `rs`. -/
def World.HeedsOf (w : World) (rs : List Request) : Prop :=
  ∀ k r, rs[k]? = some r → Granted w.oracle w.mallocs k → w.oracle (w.mallocs + k) = false → r.heeded = true

section

variable {rs : List Request}

/-- Either nothing is refused or there is a first request that is. -/
theorem World.HeedsOf.cases (h : w.HeedsOf rs) : w.Grants rs ∨ w.Refuses rs := by
  by_cases hex : ∃ k, k < rs.length ∧ w.oracle (w.mallocs + k) = false
  · obtain ⟨hlt, hno⟩ := Nat.find_spec hex
    have hg : Granted w.oracle w.mallocs (Nat.find hex) := by
      intro i hi
      have hmin := Nat.find_min hex hi
      cases ho : w.oracle (w.mallocs + i) with
      | true => rfl
      | false => exact absurd ⟨Nat.lt_trans hi hlt, ho⟩ hmin
    have hk := List.getElem?_eq_getElem hlt
    exact .inr ⟨_, _, hk, h _ _ hk hg hno, hg, hno⟩
  · refine .inl fun k hk => ?_
    cases ho : w.oracle (w.mallocs + k) with
    | true => rfl
    | false => exact absurd ⟨k, hk, ho⟩ hex

theorem World.Heeds.cases (h : w.Heeds) : w.Grants w.requests ∨ w.Refuses w.requests :=
  World.HeedsOf.cases h

theorem World.Grants.heeds (h : w.Grants rs) : w.HeedsOf rs := by
  intro k r hk _ hno
  cases (h k (List.getElem?_eq_some_iff.1 hk).1).symm.trans hno

theorem World.Grants.not_refuses (h : w.Grants rs) : ¬ w.Refuses rs := by
  rintro ⟨k, r, hk, -, -, hno⟩
  cases (h k (List.getElem?_eq_some_iff.1 hk).1).symm.trans hno

end

/-- The requests of a parse between the ends of its collections. -/
def World.events (w : World) : List Event := Reader.valueEvents (8 * w.input.length + 3) 0 w.toSrc

/-- What is asked for does not depend on the record. -/
theorem requests_record (w : World) (pe : JdParseError) : ({ w with pe := pe } : World).requests = w.requests :=
  valueRequests_record _ _ _ _

theorem World.Grants.record (h : w.Grants w.requests) (pe : JdParseError) :
    ({ w with pe := pe } : World).Grants ({ w with pe := pe } : World).requests := by
  rw [requests_record]
  exact h

theorem World.Refuses.record (h : w.Refuses w.requests) (pe : JdParseError) :
    ({ w with pe := pe } : World).Refuses ({ w with pe := pe } : World).requests := by
  rw [requests_record]
  exact h.congr rfl rfl

theorem events_record (w : World) (pe : JdParseError) : ({ w with pe := pe } : World).events = w.events :=
  valueEvents_record _ _ _ _

/-- The call returns false because of a request that is refused. -/
structure GivenUp (w : World) (result : Bool × Ptr) (w' : World) : Prop where
  result : result = (false, none)
  kept : Kept w.heap.size w w'
  hushed : Hushed w w' w.events

theorem refused_returns (h : w.Refuses w.requests) : ∃ result w', Returns w result w' := by
  obtain ⟨w', hrun, -⟩ := parseFile_refused _ h
  exact ⟨_, w', returns_iff.2 ⟨_, hrun⟩⟩

/-- **The call gives up at a refusal that it heeds.** -/
theorem refused_outcome (h : w.Refuses w.requests) (hret : Returns w result w') : GivenUp w result w' := by
  obtain ⟨w1, hrun, hk, hs⟩ := parseFile_refused _ h
  obtain ⟨rfl, rfl⟩ := hret.unique (returns_iff.2 ⟨_, hrun⟩)
  exact ⟨rfl, hk, hs⟩

/-! ## Accepted documents -/

namespace Scan

/-- With the end of the file in the end there is always a verdict. -/
theorem atEnd_eof (st : Scan) : st.atEnd .eof ≠ .diverge := by
  unfold atEnd
  cases st.mode with
  | bare esc text =>
    dsimp only
    split
    · split <;> simp
    · simp
  | _ => simp

/-- Acceptance does not depend on how the file ends. -/
theorem atEnd_accept {st : Scan} {lastEnd : Option Nat} (h : st.atEnd .eof = .accept lastEnd)
    (ending : Ending) : st.atEnd ending = .accept lastEnd := by
  unfold atEnd at h ⊢
  split at h <;> first | exact h | cases h

end Scan

/-- With the end of the file in the end this much fuel is enough. -/
theorem file_enough (he : w.ending = .eof) : Reader.file (8 * w.input.length + 3) w.toSrc ≠ .timeout := by
  have hscan := file_scan (8 * w.input.length + 3) w.toSrc
  intro ho
  rw [ho, he] at hscan
  exact absurd (hscan (Nat.le_refl _)) (Scan.atEnd_eof _)

theorem document_accept {J : Json} {d : Bytes} (hd : Document J d) (ending : Ending) (offset : Nat) :
    ∃ lastEnd, (Scan.init offset).verdict ending d = .accept lastEnd := by
  let s : Src := { input := d, ending := .eof, offset, pe := { charLoc := 0, message := none } }
  have hscan := file_scan (8 * d.length + 3) s
  have hread := @file_complete J s hd (8 * d.length + 3)
  cases ho : Reader.file (8 * d.length + 3) s with
  | timeout =>
    rw [ho] at hscan
    exact absurd (hscan (Nat.le_refl _)) (Scan.atEnd_eof _)
  | fail =>
    rw [ho] at hread
    exact hread.elim
  | ok J' s' =>
    rw [ho] at hscan
    obtain ⟨lastEnd, hv, -⟩ := hscan
    exact ⟨lastEnd, Scan.atEnd_accept hv ending⟩

/-- **The automaton accepts the documents of the grammar.** -/
theorem accept_iff {d : Bytes} {ending : Ending} {offset : Nat} :
    (∃ lastEnd, (Scan.init offset).verdict ending d = .accept lastEnd) ↔ ∃ J, Document J d := by
  refine ⟨fun ⟨lastEnd, h⟩ => ?_, fun ⟨J, h⟩ => document_accept h ending offset⟩
  let s : Src := { input := d, ending, offset, pe := { charLoc := 0, message := none } }
  have hscan := file_scan (8 * d.length + 3) s
  cases ho : Reader.file (8 * d.length + 3) s with
  | timeout =>
    rw [ho] at hscan
    exact absurd (h.symm.trans (hscan (Nat.le_refl _))) nofun
  | fail c s' =>
    rw [ho] at hscan
    obtain ⟨offset, lastEnd, hv, -⟩ := hscan
    exact absurd (h.symm.trans hv) nofun
  | ok J s' => exact ⟨J, file_sound ho⟩

/-- **A document of the grammar is accepted**, with a tree that denotes it. -/
theorem document_parsed {J : Json} (hg : w.Grants w.requests) (hd : Document J w.input) :
    ∃ t w', Returns w (true, some t.addr) w' ∧ Accepted w (true, some t.addr) w' t J := by
  obtain ⟨lastEnd, hv⟩ := document_accept hd w.ending w.offset
  obtain ⟨result, w', hret⟩ := returns_of_verdict hg (fun h => by cases h.symm.trans hv)
  have h := hret.settled
  have hrun := parseFile_run _ hg
  have hread := @file_complete J w.toSrc hd (8 * w.input.length + 3)
  have hscan := file_scan (8 * w.input.length + 3) w.toSrc
  cases ho : Reader.file (8 * w.input.length + 3) w.toSrc with
  | timeout =>
    rw [ho] at hrun
    exact absurd (h.symm.trans hrun) (by simp)
  | fail =>
    rw [ho] at hread
    exact hread.elim
  | ok J' s =>
    rw [ho] at hrun hread hscan
    obtain ⟨rfl, -⟩ := hread
    obtain ⟨t, w1, hrun, hm, hden, -⟩ := hrun
    obtain ⟨lastEnd, hv, hpe⟩ := hscan
    cases h.symm.trans hrun
    exact ⟨t, w', hret, rfl, hd, hden, hm.grown, lastEnd, hv, by rw [hm.src]; exact hpe⟩

end JsonDom
