import JsonDom.Lib.Subtrees
import JsonDom.Doc.Parent
import JsonDom.Proof.Forest

/-!
# Destroying nodes

`jd_Node_destroy` releases a node, the siblings behind it and everything below them, and of a node that
was emancipated just its tree; what is left is a forest (`destroy_exact`). `jd_destroy` does not come
so far: it takes the caller's variable for a node (`not_destroyed`).
-/

namespace JsonDom

open Lib OTree

variable {w w' : World} {h h' : Store Cell} {F F' : Forest} {n : Addr} {S : Addr → Prop}

/-- The forest `F` in memory: the links of its nodes, and a text of its own for each node with a
payload. -/
structure InMemory (h : Store Cell) (F : Forest) : Prop where
  represents : Represents h F
  text : ∀ y ∈ F.nodes, ∀ q, payloadOf h y = some q → ∃ block, h.get? q = some (.text block)
  inj : ∀ y ∈ F.nodes, ∀ z ∈ F.nodes, ∀ q, payloadOf h y = some q → payloadOf h z = some q → y = z

/-- A block of the nodes in `S`: one of the nodes, or the payload of one. -/
def BlockOf (h : Store Cell) (S : Addr → Prop) (x : Addr) : Prop := S x ∨ ∃ y, S y ∧ payloadOf h y = some x

/-- The blocks of the nodes in `S` were there and are released; everything else is as it was. -/
structure Removes (h h' : Store Cell) (S : Addr → Prop) : Prop where
  live : ∀ x, BlockOf h S x → (h.get? x).isSome = true
  gone : ∀ x, BlockOf h S x → h'.get? x = none
  kept : ∀ x, ¬ BlockOf h S x → h'.get? x = h.get? x

/-! ## Forests in memory -/

theorem InMemory.owned (hm : InMemory h F) {as : List Addr} (hn : as.Nodup) (has : ∀ x ∈ as, x ∈ F.nodes) :
    Owned h as :=
  ⟨hn, fun y hy => hm.text y (has y hy), fun y hy z hz => hm.inj y (has y hy) z (has z hz)⟩

theorem InMemory.not_node (hm : InMemory h F) {x : Addr} {block : Bytes}
    (hx : h.get? x = some (.text block)) : x ∉ F.nodes := fun hn => by
  obtain ⟨m, hm', -⟩ := hm.represents.node hn
  cases hx.symm.trans hm'

theorem InMemory.relinked (hm : InMemory h F) (hs : Stays h h') (hr : Represents h' F')
    (hnodes : F'.nodes = F.nodes) : InMemory h' F' := by
  have hpay : ∀ y ∈ F'.nodes, payloadOf h' y = payloadOf h y := by
    intro y hy
    apply hs.payloadOf_eq
    rw [hm.represents y, Forest.links_mem (hnodes ▸ hy)]
  refine ⟨hr, fun y hy q hq => ?_, fun y hy z hz q hq hq' => ?_⟩
  · rw [hpay y hy] at hq
    obtain ⟨block, hb⟩ := hm.text y (hnodes ▸ hy) q hq
    exact ⟨block, hs.text hb⟩
  · rw [hpay y hy] at hq
    rw [hpay z hz] at hq'
    exact hm.inj y (hnodes ▸ hy) z (hnodes ▸ hz) q hq hq'

theorem InMemory.removes (hm : InMemory h F) {as : List Addr} (has : ∀ x, x ∈ as ↔ S x)
    (hS : ∀ x, S x → x ∈ F.nodes) (hrel : Released h h' as) : Removes h h' S := by
  have hblocks : ∀ x, x ∈ blocks h as ↔ BlockOf h S x := fun x => by
    simp only [mem_blocks, BlockOf, has]
  refine ⟨fun x hx => ?_, fun x hx => ?_, fun x hx => ?_⟩
  · rcases hx with hx | ⟨y, hy, hq⟩
    · obtain ⟨m, hget, -⟩ := hm.represents.node (hS x hx)
      rw [hget]
      rfl
    · obtain ⟨block, hget⟩ := hm.text y (hS y hy) x hq
      rw [hget]
      rfl
  · rw [hrel.get, if_pos ((hblocks x).2 hx)]
  · rw [hrel.get, if_neg (mt (hblocks x).1 hx)]

theorem InMemory.remove (hm : InMemory h F) (hup : F.up n = none) (hn : n ∈ F.nodes)
    (hrem : Removes h h' fun x => F.Inside x n) : InMemory h' (F.remove n hup) := by
  -- the nodes that are left are none of the released blocks
  have hkept : ∀ y ∈ (F.remove n hup).nodes, h'.get? y = h.get? y := by
    intro y hy
    obtain ⟨hyn, hyout⟩ := (Forest.mem_remove hup).1 hy
    apply hrem.kept
    rintro (hin | ⟨z, hz, hq⟩)
    · exact hyout hin
    · obtain ⟨block, hb⟩ := hm.text z (Forest.Inside.node hz hn) y hq
      exact hm.not_node hb hyn
  have hpay : ∀ y ∈ (F.remove n hup).nodes, payloadOf h' y = payloadOf h y := fun y hy => by
    rw [payloadOf, payloadOf, hkept y hy]
  refine ⟨fun x => ?_, fun y hy q hq => ?_, fun y hy z hz q hq hq' => ?_⟩
  · rw [Forest.links_remove]
    by_cases hx : x ∈ (F.remove n hup).nodes
    · rw [if_neg ((Forest.mem_remove hup).1 hx).2, links_congr (hkept x hx), hm.represents]
    · by_cases hin : BlockOf h (fun x => F.Inside x n) x
      · rw [links, hrem.gone x hin]
        rcases hin with hin | ⟨z, hz, hq⟩
        · rw [if_pos hin]
        · obtain ⟨block, hb⟩ := hm.text z (Forest.Inside.node hz hn) x hq
          rw [Forest.links_not_mem (hm.not_node hb), ite_self]
      · have hout : x ∉ F.nodes := fun hxn => hx ((Forest.mem_remove hup).2 ⟨hxn, fun hxi => hin (.inl hxi)⟩)
        rw [links_congr (hrem.kept x hin), hm.represents, Forest.links_not_mem hout, ite_self]
  · obtain ⟨hyn, hyout⟩ := (Forest.mem_remove hup).1 hy
    rw [hpay y hy] at hq
    obtain ⟨block, hb⟩ := hm.text y hyn q hq
    refine ⟨block, ?_⟩
    rw [hrem.kept q, hb]
    rintro (hin | ⟨z, hz, hq'⟩)
    · exact hm.not_node hb (Forest.Inside.node hin hn)
    · exact hyout (hm.inj z (Forest.Inside.node hz hn) y hyn q hq' hq ▸ hz)
  · rw [hpay y hy] at hq
    rw [hpay z hz] at hq'
    exact hm.inj y ((Forest.mem_remove hup).1 hy).1 z ((Forest.mem_remove hup).1 hz).1 q hq hq'

/-! ## `jd_Node_destroy` -/

/-- The nodes that `jd_Node_destroy` of `n` is for: `n`, the siblings behind it and what is below. -/
def Behind (F : Forest) (n y : Addr) : Prop := ∃ k ∈ F.siblingsFrom n, F.Inside y k

theorem destroy_behind (hm : InMemory w.heap F) (hn : n ∈ F.nodes) :
    ∃ h', jdNodeDestroy (some n) w = .ok (none, { w with heap := h' }) ∧ Removes w.heap h' (Behind F n) := by
  obtain ⟨hhead, hnd, prev, hchain⟩ := Forest.chain_siblingsFrom hn
  have hmem : ∀ x, x ∈ addrsList ((F.siblingsFrom n).map F.tree) ↔ Behind F n x := fun x => Forest.mem_trees
  rw [← show links w.heap = F.links from funext hm.represents] at hchain
  have hnodes : ∀ x, Behind F n x → x ∈ F.nodes := by
    intro x hx
    obtain ⟨k, hk⟩ := hchain.live x ((hmem x).2 hx)
    rw [hm.represents] at hk
    by_contra hout
    rw [Forest.links_not_mem hout] at hk
    cases hk
  obtain ⟨h', hrun, hrel⟩ := destroy_list hchain (hm.owned hnd fun x hx => hnodes x ((hmem x).1 hx))
  rw [firstOf_eq, Forest.map_addr_tree, hhead] at hrun
  exact ⟨h', hrun, hm.removes hmem hnodes hrel⟩

theorem behind_root (hup : F.up n = none) (y : Addr) : Behind F n y ↔ F.Inside y n := by
  rw [Behind, Forest.siblingsFrom_root hup]
  simp

/-- `jd_Node_destroy` of `n` ends, releases the blocks of `n`, of the siblings behind it and of what is
below them, once and without an access to one that is released, and leaves `NULL`. When `n` was
emancipated these are the blocks of its tree, and what is left is the forest without it. -/
structure DestroysExactly (w : World) (F : Forest) (n : Addr) : Prop where
  behind : ∃ h', jdNodeDestroy (some n) w = .ok (none, { w with heap := h' }) ∧
    Removes w.heap h' (Behind F n)
  emancipated : ∃ h1 h2, jdNodeEmancipate (some n) w = .ok ((), { w with heap := h1 }) ∧
    Stays w.heap h1 ∧ jdNodeDestroy (some n) { w with heap := h1 } = .ok (none, { w with heap := h2 }) ∧
    Removes h1 h2 (fun y => F.Inside y n) ∧
    InMemory h2 ((F.unhang n).remove n (F.unhang_root n)) ∧
    ∀ x k y, links h2 x = some k → k.To y → (∃ k', links h2 y = some k') ∧ ¬ F.Inside y n

/-- **`jd_Node_destroy` releases what it is for**, at every node of a forest. -/
theorem destroy_exact (hm : InMemory w.heap F) (hn : n ∈ F.nodes) : DestroysExactly w F n := by
  refine ⟨destroy_behind hm hn, ?_⟩
  obtain ⟨h1, hrun1, hrep1, hstays⟩ := emancipate_represents hm.represents hn
  have hm1 : InMemory h1 (F.unhang n) := hm.relinked hstays hrep1 rfl
  have hroot := F.unhang_root n
  obtain ⟨h2, hrun2, hrem⟩ := @destroy_behind { w with heap := h1 } _ _ hm1 hn
  have hin : Behind (F.unhang n) n = fun y => F.Inside y n :=
    funext fun y => propext ((behind_root hroot y).trans (F.inside_unhang n y))
  have hin' : Behind (F.unhang n) n = fun y => (F.unhang n).Inside y n :=
    funext fun y => propext (behind_root hroot y)
  have hm2 := hm1.remove hroot hn (hin' ▸ hrem)
  refine ⟨h1, h2, hrun1, hstays, hrun2, hin ▸ hrem, hm2, fun x k y hk hy => ?_⟩
  rw [hm2.represents] at hk
  have hmem := Forest.links_closed hk hy
  refine ⟨⟨_, (hm2.represents y).trans (Forest.links_mem hmem)⟩, fun hyn => ?_⟩
  exact ((Forest.mem_remove hroot).1 hmem).2 ((F.inside_unhang n y).2 hyn)

/-- The memory of a world with the tree of `["a"]`. -/
def stringsWorld : World :=
  { World.start [] .eof with
    heap := ((Store.empty.alloc
      (.node { newNode with firstChild := some 1, lastChild := some 1, type := .jdArray })).alloc
      (.node { newNode with parent := some 0, type := .jdString, payload := some 2 })).alloc (.text [97, 0]) }

theorem strings_canHang : ((Forest.empty.add 1).add 0).CanHang 1 0 none where
  node := by decide
  root := rfl
  parent := by decide
  outside h := by
    obtain ⟨p, hp, -⟩ := Forest.Inside.up h (by decide)
    cases hp
  before b hb := by cases hb

theorem strings_inMemory :
    InMemory stringsWorld.heap (((Forest.empty.add 1).add 0).hang 1 0 none strings_canHang) where
  represents x := by
    match x with
    | 0 => rfl
    | 1 => rfl
    | 2 => rfl
    | _ + 3 => rfl
  text y hy q hq := by
    simp only [Forest.hang, Forest.add, Forest.empty, List.mem_cons, List.not_mem_nil, or_false] at hy
    rcases hy with rfl | rfl
    · cases hq
    · cases hq
      exact ⟨[97, 0], rfl⟩
  inj y hy z hz q hq hq' := by
    simp only [Forest.hang, Forest.add, Forest.empty, List.mem_cons, List.not_mem_nil, or_false] at hy hz
    rcases hy with rfl | rfl
    · cases hq
    · rcases hz with rfl | rfl
      · cases hq'
      · rfl

theorem destroy_exact_string :
    DestroysExactly stringsWorld (((Forest.empty.add 1).add 0).hang 1 0 none strings_canHang) 1 :=
  destroy_exact strings_inMemory (by decide)

/-! ## `jd_destroy` -/

/-- The world after the caller's variable at `v` was given the value `tree`. -/
def World.holding (w : World) (v : Addr) (tree : Ptr) : World := { w with heap := w.heap.put v (.var tree) }

/-- `jd_destroy(&tree)` for the variable at `v`: its tree is released and nothing else, and it is
`NULL`. -/
def Destroyed (w : World) (v : Addr) (tree : Ptr) : Prop :=
  ∃ t w', tree = some t.addr ∧ Linked (links w.heap) none none none t ∧
    jdDestroy (some v) w = .ok ((), w') ∧ w'.heap.get? v = some (.var none) ∧
    (∀ x ∈ blocks w.heap t.addrs, w'.heap.get? x = none) ∧
    ∀ x, x ≠ v → x ∉ blocks w.heap t.addrs → w'.heap.get? x = w.heap.get? x

/-- What a parse leaves that returns true. -/
theorem parse_left {tree : Ptr} (hret : Returns w (true, tree) w') : Left w.heap w'.heap none true tree := by
  obtain ⟨fuel, h⟩ := returns_iff.1 hret
  unfold jdParseFile at h
  obtain ⟨⟨ok, node, es⟩, w1, hrun, h⟩ := M.bind_eq_ok h
  have hleft := @Sparing.value fuel (sparing fuel) w w1 none none node 0 none es ok trivial hrun
  cases ok with
  | false => cases h
  | true =>
    have hconfirm : confirmNoFurtherFileContent w1 = _ := confirm_run (Nat.lt_succ_self _)
    dsimp only at h
    rw [if_pos rfl, M.bind_ok hconfirm] at h
    split at h
    · cases h
      exact hleft
    · obtain ⟨-, w2, -, h⟩ := M.bind_eq_ok h
      obtain ⟨-, w3, -, h⟩ := M.bind_eq_ok h
      cases h

/-- The variable of the caller is no node. -/
theorem destroy_variable {v : Addr} {p : Ptr} (hv : w.heap.get? v = some (.var p)) :
    jdDestroy (some v) w = .error .badAccess := by
  have hload : getNode (some v) w = .error .badAccess := by
    rw [getNode, M.bind_ok (load_run w hv)]
    rfl
  have hpos : 0 < w.heap.size := Nat.lt_of_le_of_lt (Nat.zero_le v) (Store.lt_size hv)
  obtain ⟨size, hsize⟩ := Nat.exists_eq_succ_of_ne_zero (Nat.ne_of_gt hpos)
  unfold jdDestroy jdNodeDestroy
  refine M.bind_error ?_
  rw [hsize, jdNodeDestroy.run]
  exact M.bind_error hload

/-- **No tree is destroyed through the variable that holds it.** -/
theorem not_destroyed {tree p : Ptr} {v : Addr} (hv : w.heap.get? v = some (.var p))
    (hret : Returns w (true, tree) w') : ¬ Destroyed (w'.holding v tree) v tree := by
  have hlt : v < w'.heap.size := by
    have hsize : w.heap.size ≤ w'.heap.size := by
      cases parse_left hret with
      | lost hs => exact hs.size
      | made hg => exact hg.size
    exact Nat.lt_of_lt_of_le (Store.lt_size hv) hsize
  have hbad := @destroy_variable (w'.holding v tree) v tree (Store.get?_put_self hlt)
  rintro ⟨t, w2, -, -, hrun, -⟩
  cases hbad.symm.trans hrun

/-- A world where `v = 0` is the caller's variable. -/
def World.caller (input : Bytes) : World :=
  { World.start input .eof with heap := Store.empty.alloc (.var none) }

theorem not_destroyed_object : ∃ tree w', Returns (World.caller (cs "\x7b\x7d")) (true, tree) w' ∧
    ¬ Destroyed (w'.holding 0 tree) 0 tree := by
  obtain ⟨tree, w', h⟩ := @succeeds_returns (World.caller (cs "\x7b\x7d")) 20 (by decide +kernel)
  exact ⟨tree, w', h, not_destroyed rfl h⟩

/-- The array of one number: reading the variable as a node is an error. -/
theorem array_not_destroyed : ∃ tree w', Returns (World.caller (cs "[1]")) (true, tree) w' ∧
    ¬ Destroyed (w'.holding 0 tree) 0 tree := by
  have hrun : endsIn (jdParseFile 20 (World.caller (cs "[1]"))) (fun r w' =>
      r.1 && (w'.heap.get? 0 == some (.var none))) = true := by decide +kernel
  obtain ⟨⟨ok, tree⟩, w', hrun, hq⟩ := endsIn_run hrun
  obtain ⟨hok, hv⟩ := Bool.and_eq_true_iff.1 hq
  cases hok
  refine ⟨tree, w', returns_iff.2 ⟨20, hrun⟩, ?_⟩
  rintro ⟨t, w2, -, -, hdestroy, -⟩
  have hlt := Store.lt_size (eq_of_beq hv)
  cases (destroy_variable (Store.get?_put_self hlt)).symm.trans hdestroy

/-- Called with the tree itself, one level of indirection less, it does destroy the tree. -/
theorem destroy_directly {root : Addr} (hret : Returns w (true, some root) w') :
    ∃ t h', t.addr = root ∧ Linked (links w'.heap) none none none t ∧
      jdDestroy (some root) w' = .ok ((), { w' with heap := h' }) ∧ Released w'.heap h' t.addrs := by
  cases parse_left hret with
  | @made t hg =>
    obtain ⟨h', hrun, hrel⟩ := destroy_tree hg.hangs hg.owned
    refine ⟨t, h', rfl, hg.hangs, ?_, hrel⟩
    unfold jdDestroy
    rw [M.bind_ok hrun]
    rfl

end JsonDom
