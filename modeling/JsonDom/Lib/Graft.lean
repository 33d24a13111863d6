import JsonDom.Lib.Subtrees

/-!
# Grafting a tree into a forest

`Grafted F t F'`: the forest `F'` is `F` with the tree `t` as a new root. Every tree of new addresses can be
grafted (`graft`), one node after the other as the last child of its parent.
-/

namespace Lib

namespace OTree

variable {ℓ ℓ' : Nat → Option Links}

mutual

/-- The links of the nodes of a tree are determined by the tree. -/
theorem Linked.agree {parent prev next : Option Nat} : ∀ {t : OTree},
    Linked ℓ parent prev next t → Linked ℓ' parent prev next t → ∀ x ∈ t.addrs, ℓ x = ℓ' x
  | node a ts, h, h', x, hx => by
    rw [linked_node] at h h'
    rw [addrs_node] at hx
    rcases List.mem_cons.1 hx with rfl | hx
    · rw [h.1, h'.1]
    · exact Chain.agree h.2 h'.2 x hx

theorem Chain.agree {parent prev next : Option Nat} : ∀ {ts : List OTree},
    Chain ℓ parent prev next ts → Chain ℓ' parent prev next ts → ∀ x ∈ addrsList ts, ℓ x = ℓ' x
  | [], _, _, x, hx => by simp at hx
  | t :: ts, h, h', x, hx => by
    rw [chain_cons] at h h'
    rw [addrsList_cons] at hx
    rcases List.mem_append.1 hx with hx | hx
    · exact Linked.agree h.1 h'.1 x hx
    · exact Chain.agree h.2 h'.2 x hx

end

end OTree

namespace Forest

open OTree

variable {F F' F1 : Forest} {t u : OTree} {a x : Nat}

/-- `F'` is `F` with the tree `t` as a new root. -/
structure Grafted (F : Forest) (t : OTree) (F' : Forest) : Prop where
  nodes : ∀ x, x ∈ F'.nodes ↔ x ∈ t.addrs ∨ x ∈ F.nodes
  linked : Linked F'.links none none none t
  up : ∀ x ∉ t.addrs, F'.up x = F.up x
  kids : ∀ x ∉ t.addrs, F'.kids x = F.kids x

namespace Grafted

/-- The links of the old nodes. -/
theorem links (h : Grafted F t F') (hnew : ∀ x ∈ t.addrs, x ∉ F.nodes) (hx : x ∉ t.addrs) :
    F'.links x = F.links x := by
  by_cases hn : x ∈ F.nodes
  · rw [links_mem ((h.nodes x).2 (.inr hn)), links_mem hn, h.up x hx, h.kids x hx]
    cases hp : F.up x with
    | none => rfl
    | some p =>
      have hpt : p ∉ t.addrs := fun hm => hnew p hm (F.live x p hp).2
      simp only [Option.bind_some, h.kids p hpt]
  · have hn' : x ∉ F'.nodes := fun hm => ((h.nodes x).1 hm).elim hx hn
    rw [links_not_mem hn', links_not_mem hn]

theorem root_mem (h : Grafted F t F') : t.addr ∈ F'.nodes := (h.nodes _).2 (.inl t.addr_mem)

/-- The new tree is that of its root. -/
theorem tree (h : Grafted F t F') : F'.tree t.addr = t :=
  linked_unique (linked_tree h.root_mem) h.linked (F'.addr_tree _)

theorem up_root (h : Grafted F t F') : F'.up t.addr = none := by
  obtain ⟨k, hk, hp, -⟩ := h.linked.root
  rw [links_mem h.root_mem, Option.some.injEq] at hk
  rw [← hp, ← hk]

theorem inside (h : Grafted F t F') : F'.Inside x t.addr ↔ x ∈ t.addrs := by
  rw [← mem_tree, h.tree]

/-- A node. -/
theorem leaf (F : Forest) (ha : a ∉ F.nodes) : Grafted F (.node a []) (F.add a) where
  nodes x := by simp [add]
  linked := by
    have hup : F.up a = none := by
      by_contra hne
      obtain ⟨p, hp⟩ := Option.ne_none_iff_exists'.1 hne
      exact ha (F.live a p hp).1
    have hkids : F.kids a = [] := by
      apply List.eq_nil_iff_forall_not_mem.2
      intro y hy
      exact ha (F.live y a ((F.mem_kids y a).1 hy)).2
    rw [linked_node, links_mem (List.mem_cons_self)]
    simp [add, hup, hkids]
  up x _ := rfl
  kids x _ := rfl

/-- A new tree as the last child of the new root. -/
theorem hang {ts : List OTree} (h1 : Grafted F (.node a ts) F1) (h2 : Grafted F1 u F')
    (hu : ∀ x ∈ u.addrs, x ∉ F1.nodes) (hn : ((OTree.node a ts).addrs ++ u.addrs).Nodup) :
    ∃ F2, Grafted F (.node a (ts ++ [u])) F2 := by
  have haF1 : a ∈ F1.nodes := h1.root_mem
  have hau : a ∉ u.addrs := fun hm => hu a hm haF1
  have hkids : F'.kids a = F1.kids a := h2.kids a hau
  have hold : Linked F'.links none none none (.node a ts) := by
    refine linked_congr (fun x hx => h2.links hu fun hm => ?_) h1.linked
    exact (List.nodup_append.1 hn).2.2 x hx x hm rfl
  have hlast : (F'.kids a).getLast? = lastOf ts none := by
    have hk := (linked_node.1 hold).1
    rw [links_mem ((h2.nodes a).2 (.inr haF1)), Option.some.injEq] at hk
    exact congrArg Links.last hk
  have hcan : F'.CanHang u.addr a none :=
    { node := h2.root_mem
      root := h2.up_root
      parent := (h2.nodes a).2 (.inr haF1)
      outside := fun hin => hau (h2.inside.1 hin)
      before := nofun }
  have hins : insertBefore none u.addr (F'.kids a ++ []) = F'.kids a ++ u.addr :: [] := by
    obtain ⟨as, us, hk, hins, hhead⟩ := insertBefore_split (r := u.addr) hcan.before
    obtain rfl := List.head?_eq_none_iff.1 hhead
    rw [List.append_nil] at hk
    rw [hk, hins]
  have hlinks : (F'.hang u.addr a none hcan).links = OTree.hang F'.links a u.addr (lastOf ts none) none := by
    funext x
    rw [links_hang hcan (by simp) hins, hlast]
    rfl
  refine ⟨F'.hang u.addr a none hcan, ⟨fun x => ?_, ?_, fun x hx => ?_, fun x hx => ?_⟩⟩
  · show x ∈ F'.nodes ↔ _
    rw [h2.nodes, h1.nodes]
    simp only [addrs_node, addrsList_append, addrsList_cons, addrsList_nil, List.mem_cons, List.mem_append]
    tauto
  · rw [hlinks]
    have hold' : Linked F'.links none none none (.node a (ts ++ [])) := by rwa [List.append_nil]
    exact hold'.hang h2.linked (by rwa [List.append_nil])
  all_goals
    simp only [addrs_node, addrsList_append, addrsList_cons, addrsList_nil, List.append_nil, List.mem_cons,
      List.mem_append, not_or] at hx
    obtain ⟨hxa, hxts, hxu⟩ := hx
    have hx1 : x ∉ (OTree.node a ts).addrs := by simp [hxa, hxts]
  · have hxr : x ≠ u.addr := fun he => hxu (he ▸ u.addr_mem)
    show Function.update F'.up u.addr (some a) x = _
    rw [Function.update_of_ne hxr, h2.up x hxu, h1.up x hx1]
  · show Function.update F'.kids a _ x = _
    rw [Function.update_of_ne hxa, h2.kids x hxu, h1.kids x hx1]

end Grafted

mutual

/-- **A tree of new addresses can be grafted.** -/
theorem graft : ∀ (F : Forest) (t : OTree), t.addrs.Nodup → (∀ x ∈ t.addrs, x ∉ F.nodes) →
    ∃ F', Grafted F t F'
  | F, .node a ts, hn, hnew => by
    have ha : a ∉ F.nodes := hnew a (by simp)
    exact graftList F a [] ts ⟨_, .leaf F ha⟩ hn hnew

theorem graftList : ∀ (F : Forest) (a : Nat) (ts us : List OTree), (∃ F1, Grafted F (.node a ts) F1) →
    (OTree.node a (ts ++ us)).addrs.Nodup → (∀ x ∈ (OTree.node a (ts ++ us)).addrs, x ∉ F.nodes) →
    ∃ F', Grafted F (.node a (ts ++ us)) F'
  | F, a, ts, [], hF1, _, _ => by rwa [List.append_nil]
  | F, a, ts, u :: us, ⟨F1, h1⟩, hn, hnew => by
    have hsplit : (OTree.node a (ts ++ u :: us)).addrs =
        ((OTree.node a ts).addrs ++ u.addrs) ++ addrsList us := by simp
    rw [hsplit] at hn hnew
    have hn1 := (List.nodup_append.1 hn).1
    have hu : ∀ x ∈ u.addrs, x ∉ F1.nodes := by
      intro x hx hm
      rcases (h1.nodes x).1 hm with hm | hm
      · exact (List.nodup_append.1 hn1).2.2 x hm x hx rfl
      · exact hnew x (by simp [hx]) hm
    obtain ⟨F2, h2⟩ := graft F1 u (List.nodup_append.1 hn1).2.1 hu
    have hnext := h1.hang h2 hu hn1
    have hrest := graftList F a (ts ++ [u]) us hnext (by simpa using hn) (by simpa using hnew)
    simpa using hrest

end

end Forest

end Lib
