import JsonDom.Proof.Outcome

/-!
# Running out of memory

What `jd_parse_file` returns where allocations fail. It gives up where the first one that fails is that
of a collection or of a property, or of the string of a text that the end of the file ends
(`withstands`). The other failures are not looked at: characters and numbers are lost, a string is read
on behind its end, and a value is missing where its node was refused.
-/

namespace JsonDom

open Lib OTree

variable {w w' : World}

/-- The same call where no allocation fails. -/
def World.ample (w : World) : World := { w with oracle := fun _ => true }

theorem ample_ample (w : World) : w.ample.Ample := fun _ => rfl

/-- The tree at `p` is that of the call in which no allocation fails; there is none where the call
returned false. -/
def SameTree (w w' : World) (p : Ptr) : Bool → Prop
  | true => ∃ t t1 J w1, p = some t.addr ∧ IsTree w'.heap t J ∧
      Returns w.ample (true, some t1.addr) w1 ∧ IsTree w1.heap t1 J
  | false => p = none

/-- What the call returns is not changed by the allocations that fail, unless it returns false. -/
def Withstands (w : World) : Prop := ∃ ok p w', Returns w (ok, p) w' ∧ SameTree w w' p ok

/-- **A call that heeds the first refusal** returns the tree it would have returned, or false. -/
theorem withstands (he : w.ending = .eof) (h : w.Heeds) : Withstands w := by
  rcases h.cases with hg | hf
  · have hrun := parseFile_run _ hg
    have hample := @parseFile_run w.ample (8 * w.input.length + 3) ((ample_ample w).grants _)
    cases ho : Reader.file (8 * w.input.length + 3) w.toSrc with
    | timeout => exact absurd ho (file_enough he)
    | fail k s =>
      rw [ho] at hrun
      obtain ⟨w', hrun, -⟩ := hrun
      exact ⟨false, none, w', returns_iff.2 ⟨_, hrun⟩, rfl⟩
    | ok J s =>
      have ho1 : Reader.file (8 * w.input.length + 3) w.ample.toSrc = .ok J s := ho
      rw [ho] at hrun
      rw [ho1] at hample
      obtain ⟨t, w', hrun, hm, hv, -⟩ := hrun
      obtain ⟨t1, w1, hrun1, hm1, hv1, -⟩ := hample
      exact ⟨true, _, w', returns_iff.2 ⟨_, hrun⟩, t, t1, J, w1, rfl,
        ⟨hm.grown.hangs, hm.grown.owned.nodup, hv⟩, returns_iff.2 ⟨_, hrun1⟩,
        ⟨hm1.grown.hangs, hm1.grown.owned.nodup, hv1⟩⟩
  · obtain ⟨result, w', hret⟩ := refused_returns hf
    exact ⟨false, none, w', (refused_outcome hf hret).result ▸ hret, rfl⟩

/-- A world in which the allocation with the number `n` is refused. -/
def World.refusing (input : Bytes) (n : Nat) : World :=
  { World.start input .eof with oracle := fun k => k != n }

/-- The node of the array is refused. -/
theorem withstands_array : Withstands (World.refusing (cs "[1]") 0) := by
  refine withstands rfl ?_
  intro k r hk hg _
  cases k with
  | zero =>
    have hfirst : (World.refusing (cs "[1]") 0).requests[0]? = some .collection := by decide +kernel
    cases hk.symm.trans hfirst
    rfl
  | succ k => exact absurd (hg 0 (Nat.succ_pos k)) (by decide)

/-- `1` with the node of the number refused: the call returns true, and there is no tree. -/
theorem scalar_refused : ¬ Withstands (World.refusing (cs "1") 1) := by
  obtain ⟨⟨ok, p⟩, w', hrun, hq⟩ := @endsIn_run _ (jdParseFile 11 (World.refusing (cs "1") 1))
    (fun r _ => r.1 && r.2 == none) (by decide +kernel)
  rw [Bool.and_eq_true] at hq
  obtain ⟨rfl, hp⟩ := hq
  rintro ⟨ok', p', w1, hret, hsame⟩
  obtain ⟨hres, rfl⟩ := hret.unique (returns_iff.2 ⟨_, hrun⟩)
  cases hres
  obtain ⟨t, -, -, -, hnode, -⟩ := hsame
  rw [hnode] at hp
  cases hp

end JsonDom
