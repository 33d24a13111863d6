import JsonDom.Doc.Hold
import JsonDom.Proof.Framing
import JsonDom.Proof.Outcome

/-!
# Documents in a memory with other things in it

`Held base g D`: apart from the cells `base` the memory `g` is the document `D`. What the functions of
`jd_Node.c` do where there is nothing else they do here too (`Held.lift`, by the frame rule), and
`jd_parse_file` adds a tree (`Held.parsed`). The number of live blocks is that of the document's and of
`base` (`Held.card_live`).
-/

namespace JsonDom

open Lib OTree

variable {base base' : Addr → Option Cell} {h g : Store Cell} {D D' : Dom} {w w' : World} {a x : Addr} {J : Json}
  {t : OTree}

/-- The memory is the document and, apart from it, `base`. -/
def Held (base : Addr → Option Cell) (g : Store Cell) (D : Dom) : Prop :=
  ∃ h : Store Cell, h.Splits base g ∧ Holds h D

theorem Held.lift {α : Type} {x : M α} {r : α} (hx : Framed x) (hs : h.Splits base w.heap)
    (hrun : x { w with heap := h } = .ok (r, w')) (hh : Holds w'.heap D) :
    ∃ g, x w = .ok (r, { w' with heap := g }) ∧ Held base g D := by
  obtain ⟨g, hrun, hs'⟩ := hx _ _ _ _ _ hrun hs
  exact ⟨g, hrun, _, hs', hh⟩

/-! ## The document of a node -/

theorem Denotes.content (hd : Denotes h t J) : ∀ x ∈ t.addrs, ∃ c : JdType × Option Bytes, Content h x c.1 c.2 := by
  induction hd with
  | @scalar a J _ hc =>
    intro x hx
    obtain rfl : x = a := by simpa using hx
    exact ⟨(_, _), hc⟩
  | @coll a k xs _ hl hc ih =>
    intro x hx
    rw [addrs_node, List.mem_cons, mem_addrsList] at hx
    rcases hx with rfl | ⟨u, hu, hx⟩
    · exact ⟨(_, _), hc⟩
    obtain ⟨y, hy, rfl⟩ := List.mem_map.1 hu
    cases k with
    | arr => exact ih y hy x hx
    | obj =>
      simp only [Item.node, addrs_node, addrsList_cons, addrsList_nil, List.append_nil, List.cons_append,
        List.nil_append, List.mem_cons] at hx
      rcases hx with rfl | rfl | hx
      · exact ⟨(_, _), (hl y hy).1⟩
      · exact ⟨(_, _), (hl y hy).2⟩
      · exact ih y hy x hx

namespace Dom

/-- The member of the document that an item is. -/
def entry (k : Kind) (x : Item) : Entry := ⟨x.label, x.value, (x.node k).addr, x.tree.addr⟩

/-- An item of the tree is a member of the document, and its value's tree is a part of it. -/
theorem stands_entry {k : Kind} {x : Item} (htree : D.forest.tree (x.node k).addr = x.node k)
    (hl : x.Labelled h k) (hc : ∀ y ∈ (x.node k).addrs, Content h y (D.type y) (D.text y)) :
    D.Stands (entry k x) k ∧ D.forest.tree x.tree.addr = x.tree ∧ ∀ y ∈ x.tree.addrs, y ∈ (x.node k).addrs := by
  cases k with
  | arr => exact ⟨⟨hl, rfl⟩, htree, fun y hy => hy⟩
  | obj =>
    rw [Forest.tree_eq] at htree
    simp only [Item.node, addr_node, node.injEq, true_and] at htree
    have hkids : D.forest.kids x.property = [x.labelNode, x.tree.addr] := by
      rw [← D.forest.map_addr_tree (D.forest.kids x.property), htree]
      rfl
    rw [hkids] at htree
    simp only [List.map_cons, List.map_nil, List.cons.injEq, and_true] at htree
    obtain ⟨hlabel, htree⟩ := htree
    rw [Forest.tree_eq, node.injEq, List.map_eq_nil_iff] at hlabel
    obtain ⟨hp, hpt⟩ := (hc x.property (by simp [Item.node])).unique hl.1
    obtain ⟨hlt, hls⟩ := (hc x.labelNode (by simp [Item.node])).unique hl.2
    exact ⟨⟨x.labelNode, hkids, hp, hpt, hlabel.2, hlt, hls⟩, htree, fun y hy => by simp [Item.node, hy]⟩

theorem doc_of_denotes (hd : Denotes h t J) (htree : D.forest.tree a = t)
    (hc : ∀ x ∈ t.addrs, Content h x (D.type x) (D.text x)) : D.Doc a J := by
  induction hd generalizing a with
  | @scalar b J hJ hb =>
    rw [Forest.tree_eq, node.injEq, List.map_eq_nil_iff] at htree
    obtain ⟨rfl, hk⟩ := htree
    obtain ⟨ht, hs⟩ := (hc a (by simp)).unique hb
    exact .scalar hJ hk ht hs
  | @coll b k xs _ hl hb ih =>
    rw [Forest.tree_eq, node.injEq] at htree
    obtain ⟨rfl, hk⟩ := htree
    obtain ⟨ht, hs⟩ := (hc a (by simp)).unique hb
    have hkids : D.forest.kids a = (xs.map (entry k)).map Entry.child := by
      rw [← D.forest.map_addr_tree (D.forest.kids a), hk, List.map_map, List.map_map]
      rfl
    have hpairs : xs.map Item.pair = (xs.map (entry k)).map Entry.pair := by
      rw [List.map_map]
      rfl
    have htrees : ∀ x ∈ xs, D.forest.tree (x.node k).addr = x.node k := by
      intro x hx
      have hmem : x.node k ∈ (D.forest.kids a).map D.forest.tree := by
        rw [hk]
        exact List.mem_map_of_mem hx
      obtain ⟨c, -, hcx⟩ := List.mem_map.1 hmem
      rw [← hcx, Forest.addr_tree]
    have hin : ∀ x ∈ xs, ∀ y ∈ (x.node k).addrs, Content h y (D.type y) (D.text y) := by
      intro x hx y hy
      apply hc
      rw [addrs_node, List.mem_cons, mem_addrsList]
      exact .inr ⟨_, List.mem_map_of_mem hx, hy⟩
    rw [hpairs]
    refine .coll (List.forall_mem_map.2 fun x hx => ?_) (List.forall_mem_map.2 fun x hx => ?_) hkids ht hs
    · obtain ⟨-, htree, hsub⟩ := stands_entry (htrees x hx) (hl x hx) (hin x hx)
      exact ih x hx htree fun y hy => hin x hx y (hsub y hy)
    · exact (stands_entry (htrees x hx) (hl x hx) (hin x hx)).1

theorem Stands.item {k : Kind} {x : Entry} (hst : D.Stands x k) (hx : x.child ∈ D.forest.nodes)
    (hc : ∀ y ∈ D.forest.nodes, Content h y (D.type y) (D.text y)) :
    ∃ i : Item, i.pair = x.pair ∧ i.tree = D.forest.tree x.node ∧ i.node k = D.forest.tree x.child ∧
      i.Labelled h k ∧ x.node ∈ D.forest.nodes := by
  cases k with
  | arr =>
    obtain ⟨hlabel, hnode⟩ := hst
    exact ⟨⟨x.label, x.value, 0, 0, D.forest.tree x.node⟩, rfl, rfl, congrArg D.forest.tree hnode, hlabel,
      hnode ▸ hx⟩
  | obj =>
    obtain ⟨l, hkids, hp, hpt, hl, hlt, hls⟩ := hst
    have hm : ∀ y ∈ [l, x.node], y ∈ D.forest.nodes := fun y hy =>
      (D.forest.live y x.child ((D.forest.mem_kids _ _).1 (hkids ▸ hy))).1
    refine ⟨⟨x.label, x.value, x.child, l, D.forest.tree x.node⟩, rfl, rfl, ?_, ⟨?_, ?_⟩, hm _ (by simp)⟩
    · show OTree.node x.child [.node l [], D.forest.tree x.node] = D.forest.tree x.child
      rw [D.forest.tree_eq x.child, hkids, List.map_cons, List.map_cons, List.map_nil, D.forest.tree_eq l, hl,
        List.map_nil]
    · exact hp ▸ hpt ▸ hc x.child hx
    · exact hlt ▸ hls ▸ hc l (hm l (by simp))

theorem Doc.denotes (hd : D.Doc a J) (ha : a ∈ D.forest.nodes)
    (hc : ∀ x ∈ D.forest.nodes, Content h x (D.type x) (D.text x)) : Denotes h (D.forest.tree a) J := by
  induction hd with
  | @scalar a J hJ hk ht hs =>
    rw [Forest.tree_eq, hk]
    have hca := hc a ha
    rw [ht, hs] at hca
    exact .scalar hJ hca
  | @coll a k xs hv hst hk ht hs ih =>
    have hca := hc a ha
    rw [ht, hs] at hca
    have hitem : ∀ x ∈ xs, ∃ i : Item, i.pair = x.pair ∧ i.tree = D.forest.tree x.node ∧
        i.node k = D.forest.tree x.child ∧ i.Labelled h k ∧ x.node ∈ D.forest.nodes := by
      intro x hx
      have hm : x.child ∈ D.forest.kids a := by
        rw [hk]
        exact List.mem_map_of_mem hx
      exact (hst x hx).item (D.forest.live _ _ ((D.forest.mem_kids _ _).1 hm)).1 hc
    have : Nonempty Item := ⟨⟨[], .null, 0, 0, .node 0 []⟩⟩
    choose! item hpair htree hnode hlabel hmem using hitem
    have hpairs : xs.map Entry.pair = (xs.map item).map Item.pair := by
      rw [List.map_map]
      exact List.map_congr_left fun x hx => (hpair x hx).symm
    have hkids : (D.forest.kids a).map D.forest.tree = (xs.map item).map (·.node k) := by
      rw [hk, List.map_map, List.map_map]
      exact List.map_congr_left fun x hx => (hnode x hx).symm
    rw [Forest.tree_eq, hkids, hpairs]
    refine .coll (List.forall_mem_map.2 fun x hx => ?_) (List.forall_mem_map.2 hlabel) hca
    rw [htree x hx, show (item x).value = x.value from congrArg Prod.snd (hpair x hx)]
    exact ih x hx (hmem x hx)

end Dom

/-! ## A tree in new blocks -/

/-- The blocks of the document and those of a tree. -/
def With (h g : Store Cell) (t : OTree) (x : Addr) : Prop := (h.get? x).isSome = true ∨ x ∈ blocks g t.addrs

instance : DecidablePred (With h g t) := fun _ => inferInstanceAs (Decidable (_ ∨ _))

/-- The memory has the document `D` and next to it the tree `t` in new blocks. -/
structure Beside (h g : Store Cell) (D : Dom) (t : OTree) : Prop where
  holds : Holds h D
  old : ∀ x < h.size, With h g t x → g.get? x = h.get? x
  linked : Linked (links g) none none none t
  owned : Owned g t.addrs
  new : ∀ x ∈ blocks g t.addrs, h.size ≤ x

namespace Beside

variable {F : Forest}

theorem fresh (hb : Beside h g D t) (hx : x ∈ t.addrs) : x ∉ D.forest.nodes := by
  intro hm
  obtain ⟨n, hn, -⟩ := hb.holds.node hm
  have hlt := Store.lt_size hn
  have hle := hb.new x (mem_blocks_left hx)
  omega

theorem get_with (hx : With h g t x) : (g.restrict (With h g t)).get? x = g.get? x := by
  rw [Store.get?_restrict, if_pos hx]

theorem get_old (hb : Beside h g D t) {cell : Cell} (hx : h.get? x = some cell) :
    (g.restrict (With h g t)).get? x = some cell := by
  have hw : With h g t x := .inl (by rw [hx]; rfl)
  rw [get_with hw, hb.old x (Store.lt_size hx) hw, hx]

theorem payload_new (hx : x ∈ t.addrs) : payloadOf (g.restrict (With h g t)) x = payloadOf g x := by
  rw [payloadOf, payloadOf, get_with (.inr (mem_blocks_left hx))]

theorem payload_old (hb : Beside h g D t) (hx : x ∈ D.forest.nodes) :
    payloadOf (g.restrict (With h g t)) x = payloadOf h x := by
  obtain ⟨n, hn, -⟩ := hb.holds.node hx
  rw [payloadOf, payloadOf, hb.get_old hn, hn]

/-- A payload of an old node is old, that of a new one is new. -/
theorem apart (hb : Beside h g D t) {y z q : Addr} (hy : y ∈ t.addrs) (hz : z ∈ D.forest.nodes)
    (hq : payloadOf g y = some q) : payloadOf h z ≠ some q := by
  intro hzq
  obtain ⟨s, -, hs⟩ := hb.holds.text hz hzq
  have hlt := Store.lt_size hs
  have hle := hb.new q (mem_blocks.2 (.inr ⟨y, hy, hq⟩))
  omega

theorem represents (hb : Beside h g D t) (hF : D.forest.Grafted t F) : Represents (g.restrict (With h g t)) F := by
  intro x
  by_cases hm : x ∈ t.addrs
  · rw [links, get_with (.inr (mem_blocks_left hm))]
    exact Linked.agree hb.linked hF.linked x hm
  rw [hF.links (fun y hy => hb.fresh hy) hm, ← hb.holds.represents x]
  cases hx : h.get? x with
  | some cell => rw [links, links, hb.get_old hx, hx]
  | none =>
    by_cases hw : With h g t x
    · -- the text of a new node
      obtain ⟨y, hy, hq⟩ := (mem_blocks.1 (hw.resolve_left (by simp [hx]))).resolve_left hm
      obtain ⟨block, hblock⟩ := hb.owned.text y hy x hq
      rw [links, links, get_with hw, hblock, hx]
    · rw [links, links, Store.get?_restrict, if_neg hw, hx]

theorem content_old (hb : Beside h g D t) (hx : x ∈ D.forest.nodes) :
    Content (g.restrict (With h g t)) x (D.type x) (D.text x) := by
  refine (hb.holds.content x hx).frame fun z hz => ?_
  obtain ⟨cell, hcell⟩ := hb.holds.block_live (blockOf_node hx hz)
  rw [hb.get_old hcell, hcell]

theorem content_new {type : JdType} {text : Option Bytes} (hx : x ∈ t.addrs) (hc : Content g x type text) :
    Content (g.restrict (With h g t)) x type text := by
  refine hc.frame fun z hz => get_with (.inr (mem_blocks.2 ?_))
  rcases hz with rfl | hq
  · exact .inl hx
  · exact .inr ⟨x, hx, hq⟩

theorem inj (hb : Beside h g D t) (hF : D.forest.Grafted t F) : ∀ y ∈ F.nodes, ∀ z ∈ F.nodes, ∀ q,
    payloadOf (g.restrict (With h g t)) y = some q → payloadOf (g.restrict (With h g t)) z = some q → y = z := by
  intro y hy z hz q hyq hzq
  rcases (hF.nodes y).1 hy with hy | hy <;> rcases (hF.nodes z).1 hz with hz | hz
  · rw [payload_new hy] at hyq
    rw [payload_new hz] at hzq
    exact hb.owned.inj y hy z hz q hyq hzq
  · rw [payload_new hy] at hyq
    rw [hb.payload_old hz] at hzq
    exact absurd hzq (hb.apart hy hz hyq)
  · rw [hb.payload_old hy] at hyq
    rw [payload_new hz] at hzq
    exact absurd hyq (hb.apart hz hy hzq)
  · rw [hb.payload_old hy] at hyq
    rw [hb.payload_old hz] at hzq
    exact hb.holds.inj y hy z hz q hyq hzq

theorem only (hb : Beside h g D t) (hF : D.forest.Grafted t F)
    (hx : ¬ BlockOf (g.restrict (With h g t)) (· ∈ F.nodes) x) : (g.restrict (With h g t)).get? x = none := by
  rw [Store.get?_restrict]
  split
  swap
  · rfl
  next hw =>
  refine absurd ?_ hx
  rcases hw with hl | hnew
  · by_contra hno
    have hnone := hb.holds.only x fun hblock => hno ?_
    · rw [hnone] at hl
      cases hl
    rcases hblock with hm | ⟨y, hy, hq⟩
    · exact .inl ((hF.nodes x).2 (.inr hm))
    · exact .inr ⟨y, (hF.nodes y).2 (.inr hy), (hb.payload_old hy).trans hq⟩
  · rcases mem_blocks.1 hnew with hm | ⟨y, hy, hq⟩
    · exact .inl ((hF.nodes x).2 (.inl hm))
    · exact .inr ⟨y, (hF.nodes y).2 (.inl hy), (payload_new hy).trans hq⟩

end Beside

/-- A tree of new blocks is one more tree of the document. -/
theorem Beside.graft (hb : Beside h g D t) (hd : Denotes g t J) :
    ∃ D', D.Grafted t J D' ∧ Holds (g.restrict (With h g t)) D' := by
  obtain ⟨F, hF⟩ := D.forest.graft t hb.owned.nodup fun x hx => hb.fresh hx
  -- the type and the text of each new node
  have hex : ∀ x, ∃ c : JdType × Option Bytes, x ∈ t.addrs → Content g x c.1 c.2 := by
    intro x
    by_cases hx : x ∈ t.addrs
    · obtain ⟨c, hc⟩ := hd.content x hx
      exact ⟨c, fun _ => hc⟩
    · exact ⟨(.jdNull, none), fun hx' => absurd hx' hx⟩
  choose c hc using hex
  refine ⟨{ forest := F, type := fun x => if x ∈ t.addrs then (c x).1 else D.type x
            text := fun x => if x ∈ t.addrs then (c x).2 else D.text x },
    ⟨hF, fun x hx => ⟨if_neg hx, if_neg hx⟩, ?_⟩, hb.represents hF, fun x hx => ?_, hb.inj hF,
    fun x hx => hb.only hF hx⟩
  · refine Dom.doc_of_denotes hd hF.tree fun x hx => ?_
    simp only [if_pos hx]
    exact hc x hx
  · by_cases hm : x ∈ t.addrs
    · simp only [if_pos hm]
      exact Beside.content_new hm (hc x hm)
    · simp only [if_neg hm]
      exact hb.content_old (((hF.nodes x).1 hx).resolve_left hm)

/-! ## How much is allocated -/

/-- The number of blocks a document needs. -/
def Dom.size (D : Dom) : Nat :=
  D.forest.nodes.toFinset.card + (D.forest.nodes.toFinset.filter fun x => (D.text x).isSome).card

theorem Holds.payload_isSome (hh : Holds h D) (hx : x ∈ D.forest.nodes) :
    (payloadOf h x).isSome = (D.text x).isSome := by
  obtain ⟨n, hn, -, hp⟩ := hh.content x hx
  rw [payloadOf_node hn]
  cases htext : D.text x with
  | none =>
    simp only [htext] at hp
    rw [hp]
    rfl
  | some s =>
    simp only [htext] at hp
    obtain ⟨q, hq, -⟩ := hp
    rw [hq]
    rfl

theorem Holds.card_live (hh : Holds h D) : h.live.card = D.size := by
  let N := D.forest.nodes.toFinset
  let T := N.filter fun x => (D.text x).isSome
  have hT : ∀ y ∈ T, ∃ q, payloadOf h y = some q := by
    intro y hy
    obtain ⟨hm, hs⟩ := Finset.mem_filter.1 hy
    rw [← hh.payload_isSome (List.mem_toFinset.1 hm)] at hs
    exact Option.isSome_iff_exists.1 hs
  have himage : (T.image fun y => (payloadOf h y).getD 0).card = T.card := by
    apply Finset.card_image_of_injOn
    intro y hy z hz he
    obtain ⟨q, hq⟩ := hT y hy
    obtain ⟨q', hq'⟩ := hT z hz
    simp only [hq, hq', Option.getD_some] at he
    have hyN := List.mem_toFinset.1 (Finset.mem_filter.1 hy).1
    have hzN := List.mem_toFinset.1 (Finset.mem_filter.1 hz).1
    exact hh.inj y hyN z hzN q hq (he ▸ hq')
  have hlive : h.live = N ∪ T.image fun y => (payloadOf h y).getD 0 := by
    ext x
    rw [Store.mem_live, Finset.mem_union, Finset.mem_image, List.mem_toFinset]
    constructor
    · intro hx
      by_contra hno
      have hnone := hh.only x fun hb => hno ?_
      · rw [hnone] at hx
        cases hx
      rcases hb with hm | ⟨y, hy, hq⟩
      · exact .inl hm
      · refine .inr ⟨y, Finset.mem_filter.2 ⟨List.mem_toFinset.2 hy, ?_⟩, by rw [hq]; rfl⟩
        rw [← hh.payload_isSome hy, hq]
        rfl
    · rintro (hm | ⟨y, hy, rfl⟩)
      · obtain ⟨c, hc⟩ := hh.block_live (.inl hm)
        rw [hc]
        rfl
      · obtain ⟨q, hq⟩ := hT y hy
        obtain ⟨c, hc⟩ := hh.block_live (.inr ⟨y, List.mem_toFinset.1 (Finset.mem_filter.1 hy).1, hq⟩)
        rw [hq, Option.getD_some, hc]
        rfl
  have hd : Disjoint N (T.image fun y => (payloadOf h y).getD 0) := by
    rw [Finset.disjoint_left]
    intro x hx hx'
    obtain ⟨y, hy, rfl⟩ := Finset.mem_image.1 hx'
    obtain ⟨q, hq⟩ := hT y hy
    obtain ⟨s, -, hs⟩ := hh.text (List.mem_toFinset.1 (Finset.mem_filter.1 hy).1) hq
    rw [hq, Option.getD_some] at hx
    exact hh.inMemory.not_node hs (List.mem_toFinset.1 hx)
  rw [hlive, Finset.card_union_of_disjoint hd, himage]
  rfl

/-- The blocks in `base`. -/
def others (base : Addr → Option Cell) (n : Nat) : Nat := ((Finset.range n).filter fun a => (base a).isSome).card

theorem Held.card_live (hh : Held base g D) {n : Nat} (hn : g.size ≤ n) :
    g.live.card = D.size + others base n := by
  obtain ⟨h, hs, hh⟩ := hh
  rw [hs.card_live (hs.size ▸ hn), hh.card_live, others]

/-- Where only the document has changed the number of blocks has changed with it. -/
theorem Held.card_live_eq (hh : Held base g D) {g' : Store Cell} (hh' : Held base g' D') :
    g'.live.card + D.size = g.live.card + D'.size := by
  have hl := hh.card_live (Nat.le_max_left g.size g'.size)
  have hl' := hh'.card_live (Nat.le_max_right g.size g'.size)
  omega

/-! ## `jd_parse_file` -/

/-- What a call with this text and this result does to the document: a text of the grammar is one tree more,
any other text changes nothing. -/
inductive Dom.Parsed (D : Dom) (text : Bytes) : Bool × Ptr → Dom → Prop
  | document {J : Json} {t : OTree} {D' : Dom} : Document J text → D.Grafted t J D' →
      Parsed D text (true, some t.addr) D'
  | rejected : (∀ J, ¬ Document J text) → Parsed D text (false, none) D

/-- The cells in `base` are in `base'`. -/
def Among (base base' : Addr → Option Cell) : Prop := ∀ x c, base x = some c → base' x = some c

theorem among_restrict {S : Addr → Prop} [DecidablePred S] {g' : Store Cell} (hs : h.Splits base g)
    (hold : ∀ x < h.size, g'.get? x = g.get? x) (hS : ∀ x, S x → (h.get? x).isSome = true ∨ h.size ≤ x) :
    Among base fun a => if S a then none else g'.get? a := by
  intro x c hx
  obtain ⟨hnone, hlt⟩ := hs.apart x c hx
  have hout : ¬ S x := fun hm => by
    rcases hS x hm with h | h
    · rw [hnone] at h
      cases h
    · exact absurd hlt (Nat.not_lt_of_le h)
  show (if S x then none else g'.get? x) = some c
  rw [if_neg hout, hold x hlt, hs.theirs hx]

theorem Holds.congr (hh : Holds h D) (hget : ∀ x, g.get? x = h.get? x) : Holds g D := by
  have hpay : payloadOf g = payloadOf h := funext fun x => by rw [payloadOf, payloadOf, hget]
  refine ⟨fun x => ?_, fun x hx => ?_, ?_, fun x hx => ?_⟩
  · rw [links, hget]
    exact hh.represents x
  · unfold Content
    simp only [hget]
    exact hh.content x hx
  · rw [hpay]
    exact hh.inj
  · rw [hget]
    apply hh.only
    unfold BlockOf at hx ⊢
    rwa [hpay] at hx

/-- The document is not changed and nothing is new in it. -/
theorem Held.grown (hh : Held base g D) {g' : Store Cell} (hold : ∀ x < g.size, g'.get? x = g.get? x) :
    ∃ base', Among base base' ∧ Held base' g' D := by
  obtain ⟨h, hs, hh⟩ := hh
  have hold' : ∀ x < h.size, g'.get? x = g.get? x := fun x hx => hold x (hs.size ▸ hx)
  refine ⟨_, among_restrict (S := fun x => (h.get? x).isSome = true) hs hold' fun x hx => .inl hx, _,
    .restrict g', hh.congr fun x => ?_⟩
  rw [Store.get?_restrict]
  cases hx : h.get? x with
  | none => simp
  | some c =>
    rw [if_pos (by rfl), hold' x (Store.lt_size hx), hs.mine hx]

/-- **`jd_parse_file` adds the tree of the text**, or nothing; what else it leaves are the strings of
unquoted texts. -/
theorem Held.parsed (hh : Held base w.heap D) (he : w.ending = .eof) (hg : w.Grants w.requests) :
    ∃ res w' base' D', jdParseFile (8 * w.input.length + 3) w = .ok (res, w') ∧ D.Parsed w.input res D' ∧
      Among base base' ∧ Held base' w'.heap D' ∧
      w'.heap.live.card + D.size = w.heap.live.card + D'.size + leaks w.requests := by
  have hrun := parseFile_run _ hg
  cases ho : Reader.file (8 * w.input.length + 3) w.toSrc with
  | timeout => exact absurd ho (file_enough he)
  | fail k s =>
    rw [ho] at hrun
    obtain ⟨w', hrun, hk, -, hsp⟩ := hrun
    obtain ⟨base', hamong, hheld⟩ := hh.grown hk.frame
    refine ⟨_, w', base', D, hrun, .rejected fun J hJ => ?_, hamong, hheld, ?_⟩
    · have hread := @file_complete J w.toSrc hJ (8 * w.input.length + 3)
      rw [ho] at hread
      exact hread.elim
    · have hlive := hsp.live
      rw [World.requests]
      omega
  | ok J s =>
    rw [ho] at hrun
    obtain ⟨t, w', hrun, hm, hden, hsp⟩ := hrun
    obtain ⟨h, hs, hh⟩ := hh
    have hframe : ∀ x < h.size, w'.heap.get? x = w.heap.get? x := fun x hx =>
      hm.grown.frame x (hs.size ▸ hx) id
    have hfresh : ∀ x ∈ blocks w'.heap t.addrs, h.size ≤ x := fun x hx => hs.size ▸ hm.grown.fresh x hx
    have hold : ∀ x < h.size, With h w'.heap t x → w'.heap.get? x = h.get? x := by
      intro x hx hw
      rcases hw with hl | hb
      · obtain ⟨c, hc⟩ := Option.isSome_iff_exists.1 hl
        rw [hframe x hx, hc, hs.mine hc]
      · have hle := hfresh x hb
        omega
    obtain ⟨D', hgraft, hh'⟩ := Beside.graft ⟨hh, hold, hm.grown.hangs, hm.grown.owned, hfresh⟩ hden
    have hamong := among_restrict (S := With h w'.heap t) hs hframe fun x hx => hx.imp_right (hfresh x)
    refine ⟨_, w', _, D', hrun, .document (file_sound ho) hgraft, hamong, ⟨_, .restrict _, hh'⟩, ?_⟩
    -- the blocks of the new tree
    obtain ⟨hnodup, hlive⟩ := hm.grown.owned.blocks hm.grown.hangs
    have hcard : (w'.heap.restrict (With h w'.heap t)).live.card =
        h.live.card + (blocks w'.heap t.addrs).length := by
      apply (Store.card_live_iff (fun x hx => ?_) hnodup hfresh fun x hx => ?_).1
      · intro x hx
        rw [Store.get?_restrict]
        have hnone := Store.get?_size_le hx
        by_cases hb : x ∈ blocks w'.heap t.addrs
        · rw [if_pos (.inr hb)]
          exact iff_of_true (hlive x hb) hb
        · rw [if_neg (by simp [With, hnone, hb])]
          simp [hb]
      · rw [Store.get?_restrict]
        split
        · next hw => exact hold x hx hw
        · next hw =>
          rw [With, not_or, Bool.not_eq_true, Option.isSome_eq_false_iff, Option.isNone_iff_eq_none] at hw
          exact hw.1.symm
      · rw [Store.get?_restrict, if_pos (.inr hx)]
        exact hlive x hx
    have hspent := hsp.live
    rw [hh.card_live, hh'.card_live] at hcard
    rw [World.requests]
    unfold held at hspent
    omega

end JsonDom
