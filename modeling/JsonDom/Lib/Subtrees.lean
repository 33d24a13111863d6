import Mathlib.Data.Finset.Card
import JsonDom.Lib.ChildLists

/-!
# The trees of a forest

`Forest.tree F p` is the ordered tree with the node `p` at its root. Its nodes are those inside `p`
(`mem_tree`), and they are linked as this tree (`linked_tree`). `Forest.siblingsFrom` is what stands in
a child list from a node on, and `Forest.remove` takes the tree of a root out of the forest.
-/

namespace Lib

/-! ## Neighbours in a list -/

section

variable {α : Type} [DecidableEq α] {xs : List α} {x y : α}

theorem nextIn_mem (h : nextIn xs x = some y) : y ∈ xs := by
  induction xs with
  | nil => cases h
  | cons z zs ih =>
    rw [nextIn] at h
    split at h
    · exact List.mem_cons_of_mem _ (List.mem_of_mem_head? h)
    · exact List.mem_cons_of_mem _ (ih h)

theorem prevIn_mem (h : prevIn xs x = some y) : y ∈ xs := List.mem_reverse.1 (nextIn_mem h)

end

/-- One of the links is to `y`. -/
def Links.To (k : Links) (y : Nat) : Prop :=
  k.parent = some y ∨ k.next = some y ∨ k.first = some y ∨ k.prev = some y ∨ k.last = some y

namespace Forest

open OTree

variable {F : Forest} {p r x y c d : Nat}

/-- The links of a forest stay in it. -/
theorem links_closed {k : Links} (h : F.links x = some k) (hy : k.To y) : y ∈ F.nodes := by
  have hx : x ∈ F.nodes := by
    by_contra hx
    rw [links_not_mem hx] at h
    cases h
  rw [links_mem hx] at h
  obtain rfl := Option.some.inj h
  have hkid : ∀ p, y ∈ F.kids p → y ∈ F.nodes := fun p hm => (F.live y p ((F.mem_kids y p).1 hm)).1
  rcases hy with hy | hy | hy | hy | hy
  · exact (F.live x y hy).2
  · obtain ⟨p, -, hp⟩ := Option.bind_eq_some_iff.1 hy
    exact hkid p (nextIn_mem hp)
  · exact hkid x (List.mem_of_mem_head? hy)
  · obtain ⟨p, -, hp⟩ := Option.bind_eq_some_iff.1 hy
    exact hkid p (prevIn_mem hp)
  · exact hkid x (List.mem_of_getLast? hy)

/-! ## Inside a node -/

/-- A node that is not the root of a tree has its parent in the tree. -/
theorem Inside.up (h : F.Inside x r) (hne : x ≠ r) : ∃ p, F.up x = some p ∧ F.Inside p r := by
  rcases Relation.ReflTransGen.cases_head h with he | ⟨p, hp, hin⟩
  · exact absurd he hne
  · exact ⟨p, hp, hin⟩

theorem Inside.node (h : F.Inside x r) (hr : r ∈ F.nodes) : x ∈ F.nodes := by
  by_cases hx : x = r
  · rwa [hx]
  · obtain ⟨p, hp, -⟩ := h.up hx
    exact (F.live x p hp).1

/-- A parent is not inside its child. -/
theorem not_inside_child (h : F.up c = some p) : ¬ F.Inside p c := fun hin =>
  F.acyclic c (Relation.TransGen.head' h hin)

/-- The trees of two children have no node in common. -/
theorem inside_sibling (hc : F.up c = some p) (hd : F.up d = some p) (hxc : F.Inside x c)
    (hxd : F.Inside x d) : c = d := by
  have hone : Relator.RightUnique fun y q => F.up y = some q := fun y q q' h h' =>
    Option.some.inj (h.symm.trans h')
  -- the parent of the lower one is inside the upper one
  have hup : ∀ {c d}, F.up c = some p → F.up d = some p → F.Inside c d → c = d := by
    intro c d hc hd h
    by_contra hne
    obtain ⟨q, hq, hin⟩ := h.up hne
    cases hc.symm.trans hq
    exact not_inside_child hd hin
  rcases Relation.ReflTransGen.total_of_right_unique hone hxc hxd with h | h
  · exact hup hc hd h
  · exact (hup hd hc h).symm

open Classical in
/-- The number of nodes inside `p`. -/
noncomputable def card (F : Forest) (p : Nat) : Nat := (F.nodes.toFinset.filter fun y => F.Inside y p).card

theorem card_lt (h : F.up c = some p) : F.card c < F.card p := by
  classical
  refine Finset.card_lt_card ((Finset.ssubset_iff_of_subset fun y hy => ?_).2 ⟨p, ?_, ?_⟩)
  · rw [Finset.mem_filter] at hy ⊢
    exact ⟨hy.1, hy.2.tail h⟩
  · rw [Finset.mem_filter, List.mem_toFinset]
    exact ⟨(F.live c p h).2, .refl⟩
  · rw [Finset.mem_filter]
    exact fun hp => not_inside_child h hp.2

/-- What holds of a node when it holds of its children holds of every node. -/
theorem down_induction {P : Nat → Prop} (h : ∀ p, (∀ c, F.up c = some p → P c) → P p) (p : Nat) : P p := by
  induction hn : F.card p using Nat.strongRecOn generalizing p with
  | ind n ih => exact h p fun c hc => ih (F.card c) (hn ▸ card_lt hc) c rfl

/-! ## The tree of a node -/

/-- The ordered tree with `p` at its root. -/
noncomputable def tree (F : Forest) (p : Nat) : OTree := .node p ((F.kids p).attach.map fun c => F.tree c.1)
termination_by F.card p
decreasing_by exact card_lt ((F.mem_kids _ _).1 c.2)

theorem tree_eq (F : Forest) (p : Nat) : F.tree p = .node p ((F.kids p).map F.tree) := by
  rw [tree]
  rw [List.attach_map_val]

@[simp] theorem addr_tree (F : Forest) (p : Nat) : (F.tree p).addr = p := by
  rw [tree_eq, addr_node]

theorem map_addr_tree (F : Forest) (xs : List Nat) : (xs.map F.tree).map addr = xs := by
  rw [List.map_map]
  exact List.map_id'' (F.addr_tree) xs

theorem mem_tree : x ∈ (F.tree p).addrs ↔ F.Inside x p := by
  induction p using F.down_induction with
  | h p ih =>
    rw [tree_eq, addrs_node, List.mem_cons, Inside, Relation.ReflTransGen.cases_tail_iff, mem_addrsList]
    simp only [List.mem_map, exists_exists_and_eq_and, eq_comm (a := p)]
    refine or_congr_right ⟨?_, ?_⟩
    · rintro ⟨c, hc, hx⟩
      have hup := (F.mem_kids c p).1 hc
      exact ⟨c, (ih c hup).1 hx, hup⟩
    · rintro ⟨c, hx, hup⟩
      exact ⟨c, (F.mem_kids c p).2 hup, (ih c hup).2 hx⟩

theorem mem_trees {xs : List Nat} : x ∈ addrsList (xs.map F.tree) ↔ ∃ c ∈ xs, F.Inside x c := by
  simp only [mem_addrsList, List.mem_map, exists_exists_and_eq_and, mem_tree]

/-- The trees of children of one node. -/
theorem trees_nodup {xs : List Nat} (hxs : xs.Nodup) (hp : ∀ c ∈ xs, F.up c = some p)
    (ht : ∀ c ∈ xs, (F.tree c).addrs.Nodup) : (addrsList (xs.map F.tree)).Nodup := by
  induction xs with
  | nil => simp
  | cons c cs ih =>
    obtain ⟨hc, hcs⟩ := List.nodup_cons.1 hxs
    have hrest := ih hcs (fun d hd => hp d (List.mem_cons_of_mem _ hd)) fun d hd => ht d (List.mem_cons_of_mem _ hd)
    rw [List.map_cons, addrsList_cons]
    refine List.nodup_append.2 ⟨ht c List.mem_cons_self, hrest, fun x hx y hy he => ?_⟩
    obtain ⟨d, hd, hin⟩ := mem_trees.1 hy
    rw [← he] at hin
    have hcd := inside_sibling (hp c List.mem_cons_self) (hp d (List.mem_cons_of_mem _ hd)) (mem_tree.1 hx) hin
    exact hc (hcd ▸ hd)

theorem tree_nodup (F : Forest) (p : Nat) : (F.tree p).addrs.Nodup := by
  induction p using F.down_induction with
  | h p ih =>
    have hup : ∀ c ∈ F.kids p, F.up c = some p := fun c hc => (F.mem_kids c p).1 hc
    rw [tree_eq, addrs_node, List.nodup_cons]
    refine ⟨fun hm => ?_, trees_nodup (F.nodup p) hup fun c hc => ih c (hup c hc)⟩
    obtain ⟨c, hc, hin⟩ := mem_trees.1 hm
    exact not_inside_child (hup c hc) hin

/-- The end of a child list, when the trees of the children are linked. -/
theorem chain_trees {as us : List Nat} (hk : F.kids p = as ++ us)
    (ht : ∀ c ∈ us, Linked F.links (some p) (prevIn (F.kids p) c) (nextIn (F.kids p) c) (F.tree c)) :
    Chain F.links (some p) as.getLast? none (us.map F.tree) := by
  induction us generalizing as with
  | nil => exact chain_nil
  | cons c us ih =>
    obtain ⟨hc, hnd⟩ := List.nodup_cons.1 (List.nodup_middle.1 (hk ▸ F.nodup p))
    have hroot := ht c List.mem_cons_self
    rw [hk, prevIn_insert hnd hc, if_pos rfl, nextIn_insert hnd hc, if_pos rfl] at hroot
    have hrest := @ih (as ++ [c]) (by rw [hk, List.append_assoc]; rfl) fun d hd => ht d (List.mem_cons_of_mem _ hd)
    rw [List.getLast?_concat] at hrest
    rw [List.map_cons, chain_cons, firstOf_eq, map_addr_tree, addr_tree]
    exact ⟨hroot, hrest⟩

/-- **The nodes inside `p` are linked as the tree of `p`.** -/
theorem linked_tree (hp : p ∈ F.nodes) : Linked F.links (F.up p) ((F.up p).bind fun q => prevIn (F.kids q) p)
    ((F.up p).bind fun q => nextIn (F.kids q) p) (F.tree p) := by
  induction p using F.down_induction with
  | h p ih =>
    have hkids : Chain F.links (some p) none none ((F.kids p).map F.tree) := by
      refine @chain_trees F p [] (F.kids p) rfl fun c hc => ?_
      have hup := (F.mem_kids c p).1 hc
      have hchild := ih c hup (F.live c p hup).1
      rwa [hup] at hchild
    rw [tree_eq, linked_node, links_mem hp, firstOf_eq, lastOf_eq, map_addr_tree, Option.or_none]
    exact ⟨rfl, hkids⟩

/-! ## What stands behind a node -/

/-- `x` and the nodes behind it in its parent's list. -/
def siblingsFrom (F : Forest) (x : Nat) : List Nat :=
  match F.up x with
  | none => [x]
  | some p => (F.kids p).dropWhile (· ≠ x)

theorem siblingsFrom_root (h : F.up x = none) : F.siblingsFrom x = [x] := by
  rw [siblingsFrom, h]

theorem siblingsFrom_child (h : F.up x = some p) {as us : List Nat} (hk : F.kids p = as ++ x :: us) :
    F.siblingsFrom x = x :: us := by
  have hx : x ∉ as := fun hm =>
    (List.nodup_cons.1 (List.nodup_middle.1 (hk ▸ F.nodup p))).1 (List.mem_append_left _ hm)
  rw [siblingsFrom, h]
  dsimp only
  have has : ∀ y ∈ as, decide (y ≠ x) = true := by
    intro y hy
    apply decide_eq_true
    rintro rfl
    exact hx hy
  rw [hk, List.dropWhile_append_of_pos has, List.dropWhile_cons_of_neg (by simp)]

/-- **The siblings from a node on are linked as the chain of their trees.** -/
theorem chain_siblingsFrom (hx : x ∈ F.nodes) : (F.siblingsFrom x).head? = some x ∧
    (addrsList ((F.siblingsFrom x).map F.tree)).Nodup ∧
    ∃ prev, Chain F.links (F.up x) prev none ((F.siblingsFrom x).map F.tree) := by
  cases hup : F.up x with
  | none =>
    have htree := linked_tree hx
    rw [hup] at htree
    rw [siblingsFrom_root hup]
    refine ⟨rfl, by simpa using F.tree_nodup x, none, chain_cons.2 ⟨htree, chain_nil⟩⟩
  | some p =>
    obtain ⟨as, us, hk⟩ := List.append_of_mem ((F.mem_kids x p).2 hup)
    have hp : ∀ c ∈ x :: us, F.up c = some p := fun c hc =>
      (F.mem_kids c p).1 (hk ▸ List.mem_append_right _ hc)
    have hnd : (x :: us).Nodup := (List.nodup_append.1 (hk ▸ F.nodup p)).2.1
    rw [siblingsFrom_child hup hk]
    refine ⟨rfl, trees_nodup hnd hp fun c _ => F.tree_nodup c, _, chain_trees hk fun c hc => ?_⟩
    have htree := linked_tree (F.live c p (hp c hc)).1
    rwa [hp c hc] at htree

/-! ## Removing a tree -/

theorem unhang_root (F : Forest) (r : Nat) : (F.unhang r).up r = none := Function.update_self _ _ _

/-- Making `r` a root changes nothing inside it. -/
theorem inside_unhang (F : Forest) (r x : Nat) : (F.unhang r).Inside x r ↔ F.Inside x r := by
  constructor
  · refine Relation.ReflTransGen.mono (fun y q hy => ?_) x r
    change Function.update F.up r none y = some q at hy
    by_cases hyr : y = r
    · rw [hyr, Function.update_self] at hy
      cases hy
    · rwa [Function.update_of_ne hyr] at hy
  · intro h
    induction h using Relation.ReflTransGen.head_induction_on with
    | refl => exact .refl
    | @head y q hy hq ih =>
      have hyr : y ≠ r := by
        rintro rfl
        exact not_inside_child hy hq
      exact .head ((Function.update_of_ne hyr _ _).trans hy) ih

open Classical in
/-- The forest without the tree of the root `r`. -/
noncomputable def remove (F : Forest) (r : Nat) (h : F.up r = none) : Forest where
  nodes := F.nodes.filter fun x => ¬ F.Inside x r
  up x := if F.Inside x r then none else F.up x
  kids p := if F.Inside p r then [] else F.kids p
  nodup p := by
    split
    · exact List.nodup_nil
    · exact F.nodup p
  mem_kids x p := by
    have hup : F.up x = some p → (F.Inside x r ↔ F.Inside p r) := by
      refine fun hx => ⟨fun hin => ?_, fun hin => hin.head hx⟩
      obtain ⟨q, hq, hin⟩ := hin.up fun he => by rw [he, h] at hx; cases hx
      exact Option.some.inj (hq.symm.trans hx) ▸ hin
    by_cases hp : F.Inside p r <;> by_cases hx : F.Inside x r
    · simp [hp, hx]
    · simp only [hp, hx, if_true, if_false, List.not_mem_nil, false_iff]
      exact fun he => hx ((hup he).2 hp)
    · simp only [hp, hx, if_true, if_false, reduceCtorEq, iff_false]
      exact fun hm => hp ((hup ((F.mem_kids x p).1 hm)).1 hx)
    · simp only [hp, hx, if_false]
      exact F.mem_kids x p
  live x p hx := by
    split at hx
    · cases hx
    · next hin =>
      obtain ⟨h1, h2⟩ := F.live x p hx
      have hp : ¬ F.Inside p r := fun hp => hin (hp.head hx)
      exact ⟨List.mem_filter.2 ⟨h1, decide_eq_true hin⟩, List.mem_filter.2 ⟨h2, decide_eq_true hp⟩⟩
  acyclic x hx := by
    refine F.acyclic x (Relation.TransGen.mono (fun y q hy => ?_) x x hx)
    split at hy
    · cases hy
    · exact hy

theorem mem_remove (h : F.up r = none) : x ∈ (F.remove r h).nodes ↔ x ∈ F.nodes ∧ ¬ F.Inside x r := by
  simp [remove]

open Classical in
theorem links_remove (h : F.up r = none) (x : Nat) :
    (F.remove r h).links x = if F.Inside x r then none else F.links x := by
  by_cases hx : F.Inside x r
  · rw [if_pos hx, links_not_mem fun hm => ((mem_remove h).1 hm).2 hx]
  rw [if_neg hx]
  by_cases hn : x ∈ F.nodes
  swap
  · rw [links_not_mem hn, links_not_mem fun hm => hn ((mem_remove h).1 hm).1]
  rw [links_mem hn, links_mem ((mem_remove h).2 ⟨hn, hx⟩)]
  dsimp only [remove]
  rw [if_neg hx, if_neg hx]
  cases hup : F.up x with
  | none => rfl
  | some p =>
    have hp : ¬ F.Inside p r := fun hp => hx (hp.head hup)
    simp only [Option.bind_some, if_neg hp]

/-! ## Roots -/

def Root (F : Forest) (r : Nat) : Prop := r ∈ F.nodes ∧ F.up r = none

/-- Every node is in the tree of a root. -/
theorem exists_root (hx : x ∈ F.nodes) : ∃ r, F.Root r ∧ F.Inside x r := by
  induction hn : F.nodes.toFinset.card - F.card x using Nat.strongRecOn generalizing x with
  | ind n ih =>
    cases hup : F.up x with
    | none => exact ⟨x, ⟨hx, hup⟩, .refl⟩
    | some p =>
      have hlt := card_lt hup
      have hle : F.card p ≤ F.nodes.toFinset.card := by
        classical exact Finset.card_le_card (Finset.filter_subset _ _)
      obtain ⟨r, hr, hin⟩ := ih _ (by omega) (F.live x p hup).2 rfl
      exact ⟨r, hr, hin.head hup⟩

/-- The other trees are left. -/
theorem root_remove (h : F.up r = none) : (F.remove r h).Root x ↔ F.Root x ∧ x ≠ r := by
  have hup : ¬ F.Inside x r → (F.remove r h).up x = F.up x := fun hin => if_neg hin
  unfold Root
  rw [mem_remove]
  constructor
  · rintro ⟨⟨hx, hin⟩, hroot⟩
    rw [hup hin] at hroot
    exact ⟨⟨hx, hroot⟩, fun he => hin (he ▸ .refl)⟩
  · rintro ⟨⟨hx, hroot⟩, hne⟩
    have hin : ¬ F.Inside x r := fun hin => by
      obtain ⟨p, hp, -⟩ := hin.up hne
      rw [hroot] at hp
      cases hp
    rw [hup hin]
    exact ⟨⟨hx, hin⟩, hroot⟩

end Forest

end Lib
