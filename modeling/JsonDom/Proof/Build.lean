import JsonDom.Proof.Node
import JsonDom.Proof.ReadString
import JsonDom.Model.Parser

/-!
# Building the tree

`Grown lo h h' c t`: the memory `h'` is `h` with the new tree `t` in it, detached or as the last child
of the node `c`; nothing else that was there changed. A node is created (`create_grown`), a finished
tree adopted (`attach`) and a property put around a value (`buildProperty_run`) in this form.
-/

namespace JsonDom

open Lib OTree

/-- A node that gets children, where it stands and the children it has. -/
structure Parent where
  addr : Addr
  up : Ptr
  prev : Ptr
  next : Ptr
  kids : List OTree

namespace Parent

/-- The tree below a parent, with these children. -/
def tree (c : Parent) (ts : List OTree) : OTree := .node c.addr ts

/-- The pointer the functions of the parser are given. -/
def ptr (c : Option Parent) : Ptr := c.map Parent.addr

end Parent

/-- The parent, if there is one, is in memory with its children. -/
def Stands (h : Store Cell) : Option Parent → Prop
  | none => True
  | some c => Linked (links h) c.up c.prev c.next (c.tree c.kids) ∧ (c.tree c.kids).addrs.Nodup

/-- The nodes that get another link when a child is added. -/
def Touched : Option Parent → Addr → Prop
  | none, _ => False
  | some c, x => x = c.addr ∨ lastOf c.kids none = some x

/-- Where the tree `t` hangs. -/
def Hangs (h : Store Cell) (t : OTree) : Option Parent → Prop
  | none => Linked (links h) none none none t
  | some c => Linked (links h) c.up c.prev c.next (c.tree (c.kids ++ [t]))

structure Grown (h h' : Store Cell) (c : Option Parent) (t : OTree) : Prop where
  size : h.size ≤ h'.size
  stays : Stays h h'
  frame : ∀ x < h.size, ¬ Touched c x → h'.get? x = h.get? x
  hangs : Hangs h' t c
  owned : Owned h' t.addrs
  fresh : ∀ x ∈ blocks h' t.addrs, h.size ≤ x

theorem mem_blocks_left {h : Store Cell} {as : List Addr} {x : Addr} (hx : x ∈ as) :
    x ∈ blocks h as := mem_blocks.2 (.inl hx)

/-- The nodes of a tree are in memory. -/
theorem linked_lt {h : Store Cell} {up prev next : Ptr} {t : OTree}
    (hl : Linked (links h) up prev next t) : ∀ x ∈ t.addrs, x < h.size := by
  intro x hx
  obtain ⟨k, hk⟩ := hl.live x hx
  obtain ⟨n, hn, -⟩ := links_some hk
  exact Store.lt_size hn

/-- Old nodes are still there when nothing old was changed. -/
theorem Stands.frame {h h' : Store Cell} {c : Option Parent} (hc : Stands h c)
    (hf : ∀ x < h.size, h'.get? x = h.get? x) : Stands h' c := by
  cases c with
  | none => trivial
  | some c => exact ⟨linked_congr (fun x hx => links_congr (hf x (linked_lt hc.1 x hx))) hc.1, hc.2⟩

theorem Stays.frame {h h' h'' : Store Cell} (hs : Stays h h')
    (hf : ∀ x < h.size, h''.get? x = h'.get? x) : Stays h h'' where
  node hx := by
    obtain ⟨n', hn', ht, hp⟩ := hs.node hx
    exact ⟨n', (hf _ (Store.lt_size hx)).trans hn', ht, hp⟩
  text hx := (hf _ (Store.lt_size hx)).trans (hs.text hx)

theorem Stays.of_frame {h h' : Store Cell} (hf : ∀ x < h.size, h'.get? x = h.get? x) : Stays h h' :=
  (Stays.refl h).frame hf

/-- Only old nodes get another link. -/
theorem Touched.lt {h : Store Cell} {c : Option Parent} {x : Addr} (hx : Touched c x)
    (hc : Stands h c) : x < h.size := by
  cases c with
  | none => exact hx.elim
  | some c =>
    apply linked_lt hc.1 x
    rw [Parent.tree, addrs_node]
    rcases hx with rfl | hx
    · exact List.mem_cons_self
    · exact List.mem_cons_of_mem _ (lastOf_mem hx)

/-- Ownership does not depend on links. -/
theorem Owned.stays {h h' : Store Cell} {as : List Addr} (ho : Owned h as)
    (hl : ∀ x ∈ as, ∃ k, links h x = some k) (hs : Stays h h') :
    Owned h' as ∧ blocks h' as = blocks h as := by
  have hp : ∀ y ∈ as, payloadOf h' y = payloadOf h y := fun y hy => by
    obtain ⟨k, hk⟩ := hl y hy
    exact hs.payloadOf_eq hk
  refine ⟨⟨ho.nodup, fun y hy q hq => ?_, fun y hy z hz q hq hq' => ?_⟩, ?_⟩
  · obtain ⟨block, hb⟩ := ho.text y hy q (hp y hy ▸ hq)
    exact ⟨block, hs.text hb⟩
  · exact ho.inj y hy z hz q (hp y hy ▸ hq) (hp z hz ▸ hq')
  · rw [blocks, blocks, List.filterMap_congr hp]

/-- Everything but the root of the hung tree, its parent and its predecessor keeps its links. -/
theorem hang_other {ℓ : Addr → Option Links} {p r x : Addr} {prev : Ptr} (hr : x ≠ r) (hp : x ≠ p)
    (hprev : prev ≠ some x) : hang ℓ p r prev none x = ℓ x := by
  rw [hang, if_neg hr, if_neg hp, if_neg hprev.symm, if_neg (by simp)]

/-- **Adopting a finished tree**, where there is a parent to adopt it. -/
theorem attach {w : World} {h : Store Cell} {c : Option Parent} {t : OTree} (hc : Stands h c)
    (hg : Grown h w.heap none t) :
    ∃ h', (∀ {β : Type} (k : Unit → M β), (if (Parent.ptr c).isSome = true then do
          let r ← jdNodeAdopt (some t.addr) (Parent.ptr c) none
          k r
        else k ()) w = k () { w with heap := h' }) ∧
      Grown h h' c t ∧ Stays w.heap h' ∧ h'.live = w.heap.live := by
  cases c with
  | none => exact ⟨w.heap, fun k => rfl, hg, .refl _, rfl⟩
  | some c =>
    have hc1 := hc.frame fun x hx => hg.frame x hx id
    have hn : (c.tree (c.kids ++ []) |>.addrs) ++ t.addrs |>.Nodup := by
      rw [List.append_nil]
      exact List.nodup_append.2 ⟨hc.2, hg.owned.nodup, fun x hx y hy he => by
        have h1 := linked_lt hc.1 x hx
        have h2 := hg.fresh y (mem_blocks_left hy)
        omega⟩
    have hl1 : Linked (links w.heap) c.up c.prev c.next (.node c.addr (c.kids ++ [])) := by
      rw [List.append_nil]
      exact hc1.1
    obtain ⟨h', hrun, hrel, hlinked⟩ := adopt_linked hl1 hg.hangs hn
    obtain ⟨hown, hblocks⟩ := hg.owned.stays hg.hangs.live hrel.stays
    refine ⟨h', fun k => ?_, ⟨by rw [hrel.size]; exact hg.size, hg.stays.trans hrel.stays,
      fun x hx ht => ?_, hlinked, hown, by rw [hblocks]; exact hg.fresh⟩, hrel.stays, hrel.live_eq⟩
    · have hsome : (Parent.ptr (some c)).isSome = true := rfl
      rw [if_pos hsome]
      exact M.bind_ok hrun
    · have hxr : x ≠ t.addr := fun he => by
        have := hg.fresh t.addr (mem_blocks_left t.addr_mem)
        omega
      rw [Touched, not_or] at ht
      rw [hrel.frame (hang_other hxr ht.1 ht.2), hg.frame x hx id]

/-- A new node without links is a detached tree. -/
theorem Grown.leaf {h h' : Store Cell} {r : Addr} {n : JdNode} (hsize : h.size ≤ h'.size)
    (hframe : ∀ x < h.size, h'.get? x = h.get? x) (hr : h.size ≤ r)
    (hn : h'.get? r = some (.node n)) (hl : n.links = ⟨none, none, none, none, none⟩)
    (hp : ∀ q, n.payload = some q → h.size ≤ q ∧ ∃ block, h'.get? q = some (.text block)) :
    Grown h h' none (.node r []) where
  size := hsize
  stays := .of_frame hframe
  frame x hx _ := hframe x hx
  hangs := linked_node.2 ⟨by rw [links_of hn, hl]; rfl, chain_nil⟩
  owned := by
    have hpay : payloadOf h' r = n.payload := payloadOf_node hn
    rw [addrs_node, addrsList_nil]
    refine ⟨List.nodup_cons.2 ⟨List.not_mem_nil, List.nodup_nil⟩, fun y hy q hq => ?_, fun y hy z hz _ _ _ => ?_⟩
    · rw [List.mem_singleton.1 hy, hpay] at hq
      exact (hp q hq).2
    · rw [List.mem_singleton.1 hy, List.mem_singleton.1 hz]
  fresh x hx := by
    rw [addrs_node, addrsList_nil, mem_blocks] at hx
    rcases hx with hx | ⟨y, hy, hq⟩
    · rw [List.mem_singleton.1 hx]
      exact hr
    · rw [List.mem_singleton.1 hy, payloadOf, hn] at hq
      exact (hp x hq).1

/-- A world that differs in memory only, but for the count of allocations. -/
structure SameBut (w w' : World) : Prop where
  src : w'.toSrc = w.toSrc
  oracle : w'.oracle = w.oracle
  stdout : w'.stdout = w.stdout

theorem SameBut.trans {w w' w'' : World} (h1 : SameBut w w') (h2 : SameBut w' w'') : SameBut w w'' :=
  ⟨h2.src.trans h1.src, h2.oracle.trans h1.oracle, h2.stdout.trans h1.stdout⟩

theorem SameBut.ample {w w' : World} (h : SameBut w w') (hw : w.Ample) : w'.Ample := fun k => by
  rw [h.oracle]
  exact hw k

/-- **Creating a node** under a parent or detached. -/
theorem create_grown {w : World} {c : Option Parent} (ho : w.oracle w.mallocs = true)
    (hc : Stands w.heap c) :
    ∃ w', jdNodeCreate (Parent.ptr c) none w = .ok (some w.heap.size, w') ∧ SameBut w w' ∧
      w'.mallocs = w.mallocs + 1 ∧ w'.heap.live.card = w.heap.live.card + 1 ∧
      Grown w.heap w'.heap c (.node w.heap.size []) ∧ Content w'.heap w.heap.size .jdNull none := by
  obtain ⟨w1, hw1⟩ : ∃ w1, w1 =
    { w with heap := w.heap.alloc (.node newNode), mallocs := w.mallocs + 1 } := ⟨_, rfl⟩
  have hn : w1.heap.get? w.heap.size = some (.node newNode) := by
    rw [hw1]
    exact Store.get?_alloc_self _ _
  have hg : Grown w.heap w1.heap none (.node w.heap.size []) := by
    refine .leaf ?_ (fun x hx => ?_) (Nat.le_refl _) hn rfl nofun
    · rw [hw1]
      exact Nat.le_trans (Nat.le_succ _) (Nat.le_of_eq (Store.size_alloc _ _).symm)
    · rw [hw1]
      exact Store.get?_alloc_lt hx
  obtain ⟨h', hrun, hg', hst, hlive⟩ := attach hc hg
  refine ⟨{ w1 with heap := h' }, ?_, by rw [hw1]; exact ⟨rfl, rfl, rfl⟩, by rw [hw1],
    by rw [hlive, hw1]; exact Store.card_live_alloc _ _, hg',
    hst.content ⟨_, hn, rfl, rfl⟩⟩
  unfold jdNodeCreate
  rw [M.bind_ok (malloc_run w ho _), ← hw1]
  dsimp only
  rw [if_pos (by rfl)]
  exact hrun _

/-! ## Growing in steps -/

/-- Writing a node that keeps its links. -/
theorem links_put {h : Store Cell} {a : Addr} {n : JdNode} (hn : h.get? a = some (.node n))
    (n' : JdNode) (hl : n'.links = n.links) (x : Addr) : links (h.put a (.node n')) x = links h x := by
  by_cases hx : x = a
  · rw [hx, links_of hn, links_of (Store.get?_put_self (Store.lt_size hn)), hl]
  · exact links_congr (Store.get?_put_ne hx)

/-- The predecessor of a new last child. -/
def prevOf (c : Option Parent) : Ptr := c.bind fun c => lastOf c.kids none

theorem Hangs.linked {h : Store Cell} {t : OTree} {c : Option Parent} (hh : Hangs h t c) :
    Linked (links h) (Parent.ptr c) (prevOf c) none t := by
  cases c with
  | none => exact hh
  | some c =>
    have := (chain_append.1 (linked_node.1 hh).2).2
    exact (chain_cons.1 this).1

theorem Owned.append {h : Store Cell} {as bs : List Addr} (ha : Owned h as) (hb : Owned h bs)
    (hd : ∀ x ∈ blocks h as, x ∉ blocks h bs) : Owned h (as ++ bs) := by
  have hsep : ∀ y ∈ as, ∀ z ∈ bs, ∀ q, payloadOf h y = some q → payloadOf h z ≠ some q :=
    fun y hy z hz q hq hq' => hd q (mem_blocks.2 (.inr ⟨y, hy, hq⟩)) (mem_blocks.2 (.inr ⟨z, hz, hq'⟩))
  refine ⟨List.nodup_append.2 ⟨ha.nodup, hb.nodup, fun x hx y hy he => ?_⟩, fun y hy => ?_,
    fun y hy z hz q hq hq' => ?_⟩
  · exact hd x (mem_blocks_left hx) (he ▸ mem_blocks_left hy)
  · exact (List.mem_append.1 hy).elim (ha.text y) (hb.text y)
  · rcases List.mem_append.1 hy with hya | hyb <;> rcases List.mem_append.1 hz with hza | hzb
    · exact ha.inj y hya z hza q hq hq'
    · exact absurd hq' (hsep y hya z hzb q hq)
    · exact absurd hq (hsep z hza y hyb q hq')
    · exact hb.inj y hyb z hzb q hq hq'

/-- What a tree owns is in memory. -/
theorem Owned.lt {h : Store Cell} {t : OTree} {up prev next : Ptr} (ho : Owned h t.addrs)
    (hl : Linked (links h) up prev next t) : ∀ x ∈ blocks h t.addrs, x < h.size := by
  intro x hx
  rcases mem_blocks.1 hx with hx | ⟨y, hy, hq⟩
  · exact linked_lt hl x hx
  · obtain ⟨block, hb⟩ := ho.text y hy x hq
    exact Store.lt_size hb

/-- A detached node with these children, as a parent. -/
def Parent.detached (a : Addr) (ts : List OTree) : Parent :=
  { addr := a, up := none, prev := none, next := none, kids := ts }

/-- A new last child of `c` with these children, as a parent. -/
def Parent.below (c : Option Parent) (a : Addr) (ts : List OTree) : Parent :=
  { addr := a, up := Parent.ptr c, prev := prevOf c, next := none, kids := ts }

section

variable {h h' h'' : Store Cell} {c : Option Parent} {a : Addr} {ts : List OTree} {t : OTree}

/-- The links of the nodes below `c` are the old ones but for those of its last child, whose root
stays where it was. -/
theorem Hangs.replace {t' : OTree} (hh : Hangs h t c) (haddr : t'.addr = t.addr)
    (hsame : ∀ p ∈ c, ∀ x ∈ (p.tree p.kids).addrs, h'.get? x = h.get? x)
    (ht : Linked (links h') (Parent.ptr c) (prevOf c) none t') : Hangs h' t' c := by
  cases c with
  | none => exact ht
  | some p =>
    have hkeep : ∀ x ∈ p.addr :: addrsList p.kids, links h' x = links h x := fun x hx =>
      links_congr (hsame p rfl x hx)
    have hold := hh
    rw [Hangs, Parent.tree, linked_node, chain_append, chain_cons] at hold ⊢
    obtain ⟨hroot, hchain, -⟩ := hold
    simp only [firstOf_append, firstOf_cons, lastOf_append, lastOf_cons, lastOf_nil, firstOf_nil,
      haddr] at hroot hchain ht ⊢
    exact ⟨(hkeep _ List.mem_cons_self).trans hroot,
      chain_congr (fun x hx => hkeep x (List.mem_cons_of_mem _ hx)) hchain, ht, chain_nil⟩

/-- A new node can be a parent itself. -/
theorem Grown.stands (hg : Grown h h' c (.node a ts)) : Stands h' (some (.below c a ts)) :=
  ⟨hg.hangs.linked, hg.owned.nodup⟩

/-- A tree that is new since a later moment. -/
theorem Grown.since (hg : Grown h' h'' c t) (hsize : h.size ≤ h'.size)
    (hf : ∀ x < h.size, h'.get? x = h.get? x) : Grown h h'' c t where
  size := Nat.le_trans hsize hg.size
  stays := (Stays.of_frame hf).trans hg.stays
  frame x hx ht := (hg.frame x (Nat.lt_of_lt_of_le hx hsize) ht).trans (hf x hx)
  hangs := hg.hangs
  owned := hg.owned
  fresh x hx := Nat.le_trans hsize (hg.fresh x hx)

/-- **A new node gets a last child** that is new as well. -/
theorem Grown.extend (hc : Stands h c) (hg : Grown h h' c (.node a ts)) (hsize : h'.size ≤ h''.size)
    (hst : Stays h' h'') (hf : ∀ x < h.size, h''.get? x = h'.get? x)
    (hl : Hangs h'' t (some (.below c a ts))) (ho : Owned h'' t.addrs)
    (hfresh : ∀ x ∈ blocks h'' t.addrs, h.size ≤ x)
    (hd : ∀ x ∈ blocks h' (OTree.node a ts).addrs, x ∉ blocks h'' t.addrs) :
    Grown h h'' c (.node a (ts ++ [t])) := by
  obtain ⟨hown, hblocks⟩ := hg.owned.stays hg.hangs.linked.live hst
  have haddrs : (OTree.node a (ts ++ [t])).addrs = (OTree.node a ts).addrs ++ t.addrs := by simp
  refine ⟨Nat.le_trans hg.size hsize, hg.stays.frame hf, fun x hx ht => ?_, ?_, ?_, ?_⟩
  · rw [hf x hx, hg.frame x hx ht]
  · refine hg.hangs.replace rfl (fun p hp x hx => hf x ?_) hl
    obtain rfl := Option.mem_def.1 hp
    exact linked_lt hc.1 x hx
  · rw [haddrs]
    apply hown.append ho
    rw [hblocks]
    exact hd
  · intro x hx
    rw [haddrs, mem_blocks_append, hblocks] at hx
    exact hx.elim (hg.fresh x) (hfresh x)

/-- Only the new nodes get another link when one of them gets a child. -/
theorem Grown.untouched (hg : Grown h h' c (.node a ts)) {x : Addr} (hx : x < h.size) :
    ¬ Touched (some (.below c a ts)) x := by
  intro ht
  have hnew : x ∈ (OTree.node a ts).addrs := by
    rw [addrs_node]
    rcases ht with rfl | hl
    · exact List.mem_cons_self
    · exact List.mem_cons_of_mem _ (lastOf_mem hl)
  exact absurd (hg.fresh x (mem_blocks_left hnew)) (Nat.not_le_of_lt hx)

/-- **A new child of a new node**: together they are a new tree. -/
theorem Grown.descend (hc : Stands h c) (hg : Grown h h' c (.node a ts))
    (hg' : Grown h' h'' (some (.below c a ts)) t) : Grown h h'' c (.node a (ts ++ [t])) := by
  refine hg.extend hc hg'.size hg'.stays (fun x hx => ?_) hg'.hangs hg'.owned (fun x hx => ?_)
    fun x hx hx' => ?_
  · exact hg'.frame x (Nat.lt_of_lt_of_le hx hg.size) (hg.untouched hx)
  · exact Nat.le_trans hg.size (hg'.fresh x hx)
  · exact absurd (hg'.fresh x hx') (Nat.not_le_of_lt (hg.owned.lt hg.hangs.linked x hx))

/-- The same where the first one is detached. -/
theorem Grown.push (hg : Grown h h' none (.node a ts)) (hg' : Grown h' h'' (some (.detached a ts)) t) :
    Grown h h'' none (.node a (ts ++ [t])) :=
  hg.descend trivial hg'

/-- **Setting a new node**: its links stay and its payload is new too. -/
theorem Grown.set {n n' : JdNode} {b : Addr} (hc : Stands h c) (hg : Grown h h' c t) (hb : b ∈ t.addrs)
    (hn : h'.get? b = some (.node n)) (hl : n'.links = n.links)
    (hp : ∀ q, n'.payload = some q → h.size ≤ q ∧ (∃ block, h'.get? q = some (.text block)) ∧
      q ∉ blocks h' t.addrs) : Grown h (h'.put b (.node n')) c t := by
  have hput : (h'.put b (.node n')).get? b = some (.node n') := Store.get?_put_self (Store.lt_size hn)
  have hold : ∀ x < h.size, (h'.put b (.node n')).get? x = h'.get? x := fun x hx => by
    have hlo := hg.fresh b (mem_blocks_left hb)
    exact Store.get?_put_ne (by omega)
  have hpay : payloadOf (h'.put b (.node n')) b = n'.payload := payloadOf_node hput
  have hother : ∀ x, x ≠ b → payloadOf (h'.put b (.node n')) x = payloadOf h' x := fun x hx => by
    rw [payloadOf, payloadOf, Store.get?_put_ne hx]
  have htext : ∀ q block, h'.get? q = some (.text block) →
      (h'.put b (.node n')).get? q = some (.text block) := fun q block hq => by
    rw [Store.get?_put_ne, hq]
    rintro rfl
    rw [hn] at hq
    cases hq
  have hsep : ∀ y ∈ t.addrs, ∀ q, n'.payload = some q → payloadOf h' y ≠ some q := fun y hy q hq hq' =>
    (hp q hq).2.2 (mem_blocks.2 (.inr ⟨y, hy, hq'⟩))
  refine ⟨?_, hg.stays.frame hold, fun x hx ht => ?_, ?_, ⟨hg.owned.nodup, fun y hy q hq => ?_,
    fun y hy z hz q hq hq' => ?_⟩, fun x hx => ?_⟩
  · rw [Store.size_put]
    exact hg.size
  · rw [hold x hx, hg.frame x hx ht]
  · refine hg.hangs.replace rfl (fun p hp x hx => hold x ?_)
      (linked_congr (fun x _ => links_put hn n' hl x) hg.hangs.linked)
    obtain rfl := Option.mem_def.1 hp
    exact linked_lt hc.1 x hx
  · by_cases hy' : y = b
    · rw [hy', hpay] at hq
      obtain ⟨-, ⟨block, hq'⟩, -⟩ := hp q hq
      exact ⟨block, htext q block hq'⟩
    · rw [hother y hy'] at hq
      obtain ⟨block, hq'⟩ := hg.owned.text y hy q hq
      exact ⟨block, htext q block hq'⟩
  · by_cases hy' : y = b <;> by_cases hz' : z = b
    · rw [hy', hz']
    · rw [hy', hpay] at hq
      rw [hother z hz'] at hq'
      exact absurd hq' (hsep z hz q hq)
    · rw [hother y hy'] at hq
      rw [hz', hpay] at hq'
      exact absurd hq (hsep y hy q hq')
    · rw [hother y hy'] at hq
      rw [hother z hz'] at hq'
      exact hg.owned.inj y hy z hz q hq hq'
  · rcases mem_blocks.1 hx with hx | ⟨y, hy, hq⟩
    · exact hg.fresh x (mem_blocks_left hx)
    · by_cases hy' : y = b
      · rw [hy', hpay] at hq
        exact (hp x hq).1
      · rw [hother y hy'] at hq
        exact hg.fresh x (mem_blocks.2 (.inr ⟨y, hy, hq⟩))

end

/-- **A new node adopts a detached tree**, one that is older perhaps. -/
theorem adopt_grown {w : World} {h0 : Store Cell} {c : Option Parent} {p : Addr} {ts : List OTree}
    {t : OTree} (hc : Stands h0 c) (hg : Grown h0 w.heap c (.node p ts))
    (hl : Linked (links w.heap) none none none t) (ho : Owned w.heap t.addrs)
    (hfresh : ∀ x ∈ blocks w.heap t.addrs, h0.size ≤ x)
    (hd : ∀ x ∈ blocks w.heap (OTree.node p ts).addrs, x ∉ blocks w.heap t.addrs) :
    ∃ h', jdNodeAdopt (some t.addr) (some p) none w = .ok ((), { w with heap := h' }) ∧
      Grown h0 h' c (.node p (ts ++ [t])) ∧ Stays w.heap h' ∧ h'.live = w.heap.live := by
  have hlp : Linked (links w.heap) (Parent.ptr c) (prevOf c) none (.node p (ts ++ [])) := by
    rw [List.append_nil]
    exact hg.hangs.linked
  have hn : ((OTree.node p (ts ++ [])).addrs ++ t.addrs).Nodup := by
    rw [List.append_nil]
    refine List.nodup_append.2 ⟨hg.owned.nodup, ho.nodup, fun x hx y hy he => ?_⟩
    exact hd x (mem_blocks_left hx) (he ▸ mem_blocks_left hy)
  obtain ⟨h', hrun, hrel, hlinked⟩ := adopt_linked hlp hl hn
  obtain ⟨ho', hblocks⟩ := ho.stays hl.live hrel.stays
  refine ⟨h', hrun, ?_, hrel.stays, hrel.live_eq⟩
  refine hg.extend hc (Nat.le_of_eq hrel.size.symm) hrel.stays (fun x hx => hrel.frame ?_) hlinked ho'
    (hblocks ▸ hfresh) (hblocks ▸ hd)
  have ht := hg.untouched hx
  rw [Touched, not_or] at ht
  refine hang_other (fun he => ?_) ht.1 ht.2
  exact absurd (hfresh x (he ▸ mem_blocks_left t.addr_mem)) (Nat.not_le_of_lt hx)

/-! ## Properties -/

/-- **A property is put around a label and a value**, which is detached. -/
theorem buildProperty_run {w0 w : World} {c : Option Parent} {t : OTree} {q : Addr} {label : Bytes}
    (ho : w.oracle w.mallocs = true) (ho' : w.oracle (w.mallocs + 1) = true) (hc : Stands w0.heap c)
    (hg : Grown w0.heap w.heap none t)
    (hq : w0.heap.size ≤ q ∧ w.heap.get? q = some (.text (label ++ [0])) ∧ q ∉ blocks w.heap t.addrs) :
    ∃ w' p l, buildProperty (Parent.ptr c) (some t.addr) (some q) w = .ok ((some p, none), w') ∧
      SameBut w w' ∧ w'.mallocs = w.mallocs + 2 ∧ w'.heap.live.card = w.heap.live.card + 2 ∧
      Grown w0.heap w'.heap c (.node p [.node l [], t]) ∧ Stays w.heap w'.heap ∧
      Content w'.heap p .jdProperty none ∧ Content w'.heap l .jdString (some label) := by
  obtain ⟨hlo, htext, hqt⟩ := hq
  have hcw := hc.frame fun x hx => hg.frame x hx id
  -- the property's node
  obtain ⟨w1, hrun1, hs1, hm1, hlive1, g1, n, hn, -, hpay⟩ := create_grown ho hcw
  generalize hp : w.heap.size = p at *
  obtain ⟨w2, hw2⟩ : ∃ w2, w2 = { w1 with heap := w1.heap.put p (.node { n with type := .jdProperty }) } :=
    ⟨_, rfl⟩
  have hs2 : SameBut w1 w2 := by rw [hw2]; exact ⟨rfl, rfl, rfl⟩
  have g2 : Grown w.heap w2.heap c (.node p []) := by
    rw [hw2]
    refine g1.set hcw (by simp) hn rfl fun q hq => ?_
    rw [hpay] at hq
    cases hq
  have hpc2 : Content w2.heap p .jdProperty none := by
    rw [hw2]
    exact ⟨_, Store.get?_put_self (Store.lt_size hn), rfl, hpay⟩
  -- the label's node
  have hm2 : w2.mallocs = w.mallocs + 1 := by
    rw [hw2]
    exact hm1
  obtain ⟨w3, hrun3, hs3, hm3, hlive3, g3, m, hm, -, hpay3⟩ := create_grown
    (by rw [(hs1.trans hs2).oracle, hm2, ho']) g2.stands
  have hpl : p < w2.heap.size := linked_lt g2.hangs.linked p (by simp)
  generalize hl : w2.heap.size = l at *
  obtain ⟨w4, hw4⟩ : ∃ w4, w4 = { w3 with
    heap := w3.heap.put l (.node { m with payload := some q, type := .jdString }) } := ⟨_, rfl⟩
  have hs4 : SameBut w3 w4 := by rw [hw4]; exact ⟨rfl, rfl, rfl⟩
  have g3' : Grown w.heap w3.heap c (.node p [.node l []]) := g2.descend hcw g3
  have hq3 := g3'.stays.text htext
  have hne : ∀ x < w.heap.size, w4.heap.get? x = w3.heap.get? x := fun x hx => by
    rw [hw4]
    exact Store.get?_put_ne (by omega)
  have g4 : Grown w0.heap w4.heap c (.node p [.node l []]) := by
    rw [hw4]
    refine (g3'.since hg.size fun x hx => hg.frame x hx id).set hc (by simp) hm rfl fun q' hq' => ?_
    obtain rfl : q = q' := Option.some.inj hq'
    exact ⟨hlo, ⟨_, hq3⟩, fun hmem => absurd (g3'.fresh q hmem) (Nat.not_le_of_lt (Store.lt_size htext))⟩
  have hlc4 : Content w4.heap l .jdString (some label) := by
    refine ⟨{ m with payload := some q, type := .jdString }, ?_, rfl, q, rfl, ?_⟩
    · rw [hw4]
      exact Store.get?_put_self (Store.lt_size hm)
    · rw [hne q (Store.lt_size htext), hq3]
  have hpc4 : Content w4.heap p .jdProperty none := by
    obtain ⟨n', hn', hrest⟩ := g3.stays.content hpc2
    refine ⟨n', ?_, hrest⟩
    rw [hw4, Store.get?_put_ne (Nat.ne_of_lt hpl), hn']
  -- the value is where it was
  have hval : ∀ x ∈ blocks w.heap t.addrs, w4.heap.get? x = w.heap.get? x := fun x hx => by
    have hxw := hg.owned.lt hg.hangs x hx
    rw [hne x hxw, g3'.frame x hxw]
    exact fun ht => absurd (hg.fresh x hx) (Nat.not_le_of_lt (ht.lt hc))
  obtain ⟨hown, hblocks⟩ := hg.owned.frame hval
  have hlt : Linked (links w4.heap) none none none t :=
    linked_congr (fun x hx => links_congr (hval x (mem_blocks_left hx))) hg.hangs
  have hd : ∀ x ∈ blocks w4.heap (OTree.node p [.node l []]).addrs, x ∉ blocks w4.heap t.addrs := by
    intro x hx hx'
    have hxw := hg.owned.lt hg.hangs x (hblocks ▸ hx')
    have hpayp : payloadOf w4.heap p = none := by
      obtain ⟨n', hn', -, hnone⟩ := hpc4
      rw [payloadOf, hn']
      exact hnone
    have hpayl : payloadOf w4.heap l = some q := by
      rw [payloadOf, hw4, Store.get?_put_self (Store.lt_size hm)]
    have hx2 : x ∈ blocks w4.heap [p, l] := by simpa using hx
    rw [mem_blocks_cons, mem_blocks_cons, hpayp, hpayl] at hx2
    rcases hx2 with rfl | h | rfl | h | h
    · exact absurd hp (Nat.ne_of_gt hxw)
    · cases h
    · exact absurd hp (Nat.ne_of_gt (Nat.lt_trans hpl hxw))
    · cases h
      exact hqt (hblocks ▸ hx')
    · cases h
  obtain ⟨h5, hrun5, g5, hst5, hlive5⟩ := adopt_grown hc g4 hlt hown (hblocks ▸ hg.fresh) hd
  have hlive : h5.live.card = w.heap.live.card + 2 := by
    rw [hlive5, hw4, Store.live_put hm, hlive3, hw2, Store.live_put hn, hlive1]
  refine ⟨{ w4 with heap := h5 }, p, l, ?_, ((hs1.trans hs2).trans (hs3.trans hs4)).trans ⟨rfl, rfl, rfl⟩,
    (by rw [hw4]; exact hm3.trans (congrArg (· + 1) hm2)), hlive, g5,
    (g3'.stays.frame hne).trans hst5, hst5.content hpc4, hst5.content hlc4⟩
  unfold buildProperty
  rw [M.bind_ok hrun1, if_pos (by rfl)]
  unfold setType
  rw [M.bind_ok (modifyNode_run w1 hn _), ← hw2]
  change jdNodeCreate (some p) none w2 = _ at hrun3
  rw [M.bind_ok hrun3, if_pos (by rfl), M.bind_ok (takeString_run hm hpay3 _), ← hw4, M.bind_ok hrun5]
  rfl

end JsonDom
