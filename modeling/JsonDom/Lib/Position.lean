import JsonDom.Lib.Forest

/-!
# Positions in a tree

A position is the way from the root to a subtree, the last step first. Of two neighbouring positions one is a
move away from the other, and the links of the node at a position lead along the moves (`Linked.along`).
-/

namespace Lib

/-- A move to a neighbouring position. -/
inductive Move
  | up | next | first | prev
deriving DecidableEq, Repr

/-- The position a move leads to. -/
def Move.pos : Move → List Nat → Option (List Nat)
  | up, _ :: pos => some pos
  | next, i :: pos => some ((i + 1) :: pos)
  | first, pos => some (0 :: pos)
  | prev, (i + 1) :: pos => some (i :: pos)
  | _, _ => none

/-- The link a move goes along. -/
def Links.along (k : Links) : Move → Option Nat
  | .up => k.parent
  | .next => k.next
  | .first => k.first
  | .prev => k.prev

namespace OTree

variable {ℓ : Nat → Option Links} {t u : OTree} {pos : List Nat} {i : Nat}

/-- The subtree at a position. -/
def get? (t : OTree) : List Nat → Option OTree
  | [] => some t
  | i :: pos => (t.get? pos).bind fun u => u.kids[i]?

theorem get?_cons : t.get? (i :: pos) = some u ↔ ∃ v, t.get? pos = some v ∧ v.kids[i]? = some u :=
  Option.bind_eq_some_iff

/-- The nodes of a subtree are nodes of the tree. -/
theorem get?_addrs (hu : t.get? pos = some u) : ∀ x ∈ u.addrs, x ∈ t.addrs := by
  induction pos generalizing u with
  | nil =>
    cases hu
    exact fun x hx => hx
  | cons i pos ih =>
    obtain ⟨v, hv, hu⟩ := get?_cons.1 hu
    intro x hx
    apply ih hv
    rw [addrs_eq]
    exact List.mem_cons_of_mem _ (mem_addrsList.2 ⟨u, List.mem_of_getElem? hu, hx⟩)

theorem Linked.kids {parent prev next : Option Nat} (h : Linked ℓ parent prev next t) :
    Chain ℓ (some t.addr) none none t.kids := by
  cases t
  exact (linked_node.1 h).2

/-- The subtrees of a linked tree are linked. -/
theorem Linked.get {parent prev next : Option Nat} (h : Linked ℓ parent prev next t) (hu : t.get? pos = some u) :
    ∃ parent prev next, Linked ℓ parent prev next u := by
  induction pos generalizing u with
  | nil =>
    cases hu
    exact ⟨_, _, _, h⟩
  | cons i pos ih =>
    obtain ⟨v, hv, hu⟩ := get?_cons.1 hu
    obtain ⟨_, _, _, hlink⟩ := ih hv
    obtain ⟨prev, next, hlink⟩ := hlink.kids.mem (List.mem_of_getElem? hu)
    exact ⟨_, prev, next, hlink⟩

theorem Linked.first {parent prev next : Option Nat} (h : Linked ℓ parent prev next t) {k : Links}
    (hk : ℓ t.addr = some k) : k.first = t.kids[0]?.map addr := by
  cases t with
  | node a ts =>
    have hroot := (linked_node.1 h).1
    cases hk.symm.trans hroot
    cases ts <;> rfl

/-- The last link leads to a node of the tree. -/
theorem Linked.last_mem {parent prev next : Option Nat} (h : Linked ℓ parent prev next t) (hu : t.get? pos = some u)
    {k : Links} (hk : ℓ u.addr = some k) {y : Nat} (hy : k.last = some y) : y ∈ t.addrs := by
  obtain ⟨_, _, _, hlink⟩ := h.get hu
  cases u with
  | node a ts =>
    cases hk.symm.trans (linked_node.1 hlink).1
    exact get?_addrs hu y (List.mem_cons_of_mem _ (lastOf_mem hy))

/-- **The links of a node lead along the moves.** -/
theorem Linked.along (h : Linked ℓ none none none t) (hu : t.get? pos = some u) :
    ∃ k, ℓ u.addr = some k ∧ ∀ m : Move, k.along m = ((m.pos pos).bind t.get?).map addr := by
  obtain ⟨_, _, _, hlink⟩ := h.get hu
  cases pos with
  | nil =>
    cases hu
    obtain ⟨k, hk, hparent, hprev, hnext⟩ := h.root
    refine ⟨k, hk, fun m => ?_⟩
    cases m with
    | up => exact hparent
    | next => exact hnext
    | prev => exact hprev
    | first => exact hlink.first hk
  | cons i pos =>
    obtain ⟨v, hv, hvu⟩ := get?_cons.1 hu
    obtain ⟨hi, rfl⟩ := List.getElem?_eq_some_iff.1 hvu
    obtain ⟨_, _, _, hlinkv⟩ := h.get hv
    obtain ⟨k, hk, hparent, hnext, hprev⟩ := hlinkv.kids.get i hi
    refine ⟨k, hk, fun m => ?_⟩
    cases m with
    | up =>
      show k.parent = (t.get? pos).map addr
      rw [hparent, hv]
      rfl
    | next =>
      show k.next = (t.get? ((i + 1) :: pos)).map addr
      rw [hnext, get?, hv, Option.bind_some, Option.or_none, List.getElem?_map]
    | first =>
      show k.first = (t.get? (0 :: i :: pos)).map addr
      rw [hlink.first hk, get?, hu]
      rfl
    | prev =>
      cases i with
      | zero => exact hprev
      | succ i =>
        show k.prev = (t.get? (i :: pos)).map addr
        rw [hprev, get?, hv, Option.bind_some, if_neg (Nat.succ_ne_zero i), List.getElem?_map]
        rfl

end OTree

end Lib
