import JsonDom.Proof.Outcome

/-!
# The tree that is handed back

What holds of every node that can be reached from the root of a parsed document (`WellFormed`), node
by node: its links, the types of its children and its payload.
-/

namespace JsonDom

open Lib OTree

variable {h : Store Cell} {w w' : World}

/-- The type of the node at an address. -/
def typeOf (h : Store Cell) (x : Addr) : Option JdType :=
  match h.get? x with
  | some (.node n) => some n.type
  | _ => none

/-- The node at an address whose type is not that of a property. -/
def IsValueNode (h : Store Cell) (x : Addr) : Prop := ∃ t, typeOf h x = some t ∧ t ≠ .jdProperty

/-- The children of the node `n` at `x`: its two ends are those of the list, and each child is linked
to its neighbours in the list and to `x`. -/
structure ChildList (h : Store Cell) (x : Addr) (n : JdNode) (cs : List Addr) : Prop where
  first : n.firstChild = cs.head?
  last : n.lastChild = cs.getLast?
  nodup : cs.Nodup
  child : ∀ i (hi : i < cs.length), ∃ m, h.get? cs[i] = some (.node m) ∧ m.parent = some x ∧
    m.nextSibling = cs[i + 1]? ∧ m.prevSibling = if i = 0 then none else cs[i - 1]?

/-- The children and the payload that go with the type of a node. -/
def Shape (h : Store Cell) (n : JdNode) (cs : List Addr) : Prop :=
  match n.type with
  | .jdNull | .jdTrue | .jdFalse => cs = [] ∧ n.payload = none
  | .jdString => cs = [] ∧ ∃ q s, n.payload = some q ∧ h.get? q = some (.text (s ++ [0]))
  | .jdInteger => cs = [] ∧ ∃ q s, n.payload = some q ∧ h.get? q = some (.text (s ++ [0])) ∧
      isJsonNumber s = (true, false)
  | .jdFloat => cs = [] ∧ ∃ q s, n.payload = some q ∧ h.get? q = some (.text (s ++ [0])) ∧
      isJsonNumber s = (true, true)
  | .jdArray => n.payload = none ∧ ∀ c ∈ cs, IsValueNode h c
  | .jdObject => n.payload = none ∧ ∀ c ∈ cs, typeOf h c = some .jdProperty
  | .jdProperty => n.payload = none ∧
      ∃ l v, cs = [l, v] ∧ typeOf h l = some .jdString ∧ IsValueNode h v

/-- What is said of one node. -/
def NodeFormed (h : Store Cell) (x : Addr) : Prop :=
  ∃ n cs, h.get? x = some (.node n) ∧ ChildList h x n cs ∧ Shape h n cs

/-- What can be reached from the root. -/
inductive Reachable (h : Store Cell) (root : Addr) : Addr → Prop
  | root : Reachable h root root
  | child {x y : Addr} {n : JdNode} : Reachable h root x → h.get? x = some (.node n) →
      n.firstChild = some y → Reachable h root y
  | sibling {x y : Addr} {n : JdNode} : Reachable h root x → h.get? x = some (.node n) →
      n.nextSibling = some y → Reachable h root y

/-- A well-formed document: the root stands alone, every node that can be reached has its children
and its payload, and the nodes are those of a finite tree, each in one place. -/
structure WellFormed (h : Store Cell) (root : Addr) : Prop where
  alone : ∃ n, h.get? root = some (.node n) ∧ n.parent = none ∧ n.prevSibling = none ∧
    n.nextSibling = none ∧ n.type ≠ .jdProperty
  node : ∀ x, Reachable h root x → NodeFormed h x
  tree : ∃ t, t.addr = root ∧ Linked (links h) none none none t ∧ t.addrs.Nodup ∧
    ∀ x, Reachable h root x ↔ x ∈ t.addrs

/-! ## Child lists -/

theorem addr_nodup {ts : List OTree} (hn : (addrsList ts).Nodup) : (ts.map addr).Nodup := by
  induction ts with
  | nil => exact List.nodup_nil
  | cons t ts ih =>
    rw [addrsList_cons] at hn
    obtain ⟨-, hn2, hd⟩ := List.nodup_append.1 hn
    rw [List.map_cons, List.nodup_cons]
    refine ⟨fun hm => ?_, ih hn2⟩
    obtain ⟨u, hu, he⟩ := List.mem_map.1 hm
    exact hd t.addr t.addr_mem u.addr (mem_addrsList.2 ⟨u, hu, u.addr_mem⟩) he.symm

theorem linked_children {parent prev next : Ptr} {a : Addr} {ts : List OTree}
    (hl : Linked (links h) parent prev next (.node a ts)) (hn : (OTree.node a ts).addrs.Nodup) :
    ∃ n, h.get? a = some (.node n) ∧ ChildList h a n (ts.map addr) := by
  obtain ⟨n, hget, -, -, -, hfirst, hlast⟩ := linked_root hl
  rw [addrs_node] at hn
  refine ⟨n, hget, hfirst.trans (firstOf_eq ts), hlast.trans ?_, addr_nodup (List.nodup_cons.1 hn).2,
    fun i hi => ?_⟩
  · rw [lastOf_eq, Option.or_none]
    rfl
  · rw [List.length_map] at hi
    obtain ⟨k, hk, h1, h2, h3⟩ := (linked_node.1 hl).2.get i hi
    obtain ⟨m, hm, rfl⟩ := links_some hk
    refine ⟨m, by rwa [List.getElem_map], h1, ?_, h3⟩
    rw [Option.or_none] at h2
    exact h2

/-! ## Shapes -/

theorem typeOf_content {a : Addr} {type : JdType} {text : Option Bytes} (hc : Content h a type text) :
    typeOf h a = some type := by
  obtain ⟨n, hn, rfl, -⟩ := hc
  rw [typeOf, hn]

theorem Json.type_ne (J : Json) : J.type ≠ .jdProperty := by
  cases J <;> exact nofun

theorem Denotes.root {t : OTree} {J : Json} (hd : Denotes h t J) : Content h t.addr J.type J.text := by
  cases hd with
  | scalar _ hc => exact hc
  | @coll a k xs _ _ hc => cases k <;> exact hc

theorem Denotes.isValue {t : OTree} {J : Json} (hd : Denotes h t J) : IsValueNode h t.addr :=
  ⟨J.type, typeOf_content hd.root, J.type_ne⟩

theorem scalar_shape {J : Json} {a : Addr} {n : JdNode} (hJ : ¬ J.IsCollection) (hv : J.Valid)
    (hn : h.get? a = some (.node n)) (hc : Content h a J.type J.text) : Shape h n [] := by
  obtain ⟨n', hn', ht, hp⟩ := hc
  cases hn.symm.trans hn'
  unfold Shape
  rw [ht]
  cases J with
  | null | true | false => exact ⟨rfl, hp⟩
  | str s =>
    obtain ⟨q, hq, htext⟩ := hp
    exact ⟨rfl, q, s, hq, htext⟩
  | int s =>
    obtain ⟨q, hq, htext⟩ := hp
    exact ⟨rfl, q, s, hq, htext, hv.inv⟩
  | float s =>
    obtain ⟨q, hq, htext⟩ := hp
    exact ⟨rfl, q, s, hq, htext, hv.inv⟩
  | arr | obj => exact absurd trivial hJ

theorem property_nodes {p l : Addr} {t : OTree} {label : Bytes} {J : Json} {parent prev next : Ptr}
    (hl : Linked (links h) parent prev next (.node p [.node l [], t]))
    (hn : (OTree.node p [.node l [], t]).addrs.Nodup) (hp : Content h p .jdProperty none)
    (hc : Content h l .jdString (some label)) (hd : Denotes h t J)
    (ht : ∀ {prev next}, Linked (links h) (some p) prev next t → ∀ x ∈ t.addrs, NodeFormed h x) :
    ∀ x ∈ (OTree.node p [.node l [], t]).addrs, NodeFormed h x := by
  obtain ⟨n, hget, hlist⟩ := linked_children hl hn
  have hchain := (linked_node.1 hl).2
  rw [chain_cons, chain_cons] at hchain
  intro x hx
  simp only [addrs_node, addrsList_cons, addrsList_nil, List.append_nil, List.mem_cons,
    List.cons_append, List.nil_append] at hx
  rcases hx with rfl | rfl | hx
  · obtain ⟨n', hn', htype, hpay⟩ := hp
    cases hget.symm.trans hn'
    refine ⟨n, _, hget, hlist, ?_⟩
    unfold Shape
    rw [htype]
    exact ⟨hpay, l, t.addr, rfl, typeOf_content hc, hd.isValue⟩
  · obtain ⟨m, hm, hmlist⟩ := linked_children hchain.1 (by simp)
    obtain ⟨m', hm', htype, q, hq, htext⟩ := hc
    cases hm.symm.trans hm'
    refine ⟨m, _, hm, hmlist, ?_⟩
    unfold Shape
    rw [htype]
    exact ⟨rfl, q, label, hq, htext⟩
  · exact ht hchain.2.1 x hx

/-- **Every node of a tree that denotes a document is well formed.** -/
theorem denotes_nodes {t : OTree} {J : Json} (hd : Denotes h t J) (hv : J.Valid)
    {parent prev next : Ptr} (hl : Linked (links h) parent prev next t) (hn : t.addrs.Nodup) :
    ∀ x ∈ t.addrs, NodeFormed h x := by
  induction hd generalizing parent prev next with
  | @scalar a J hJ hc =>
    intro x hx
    obtain rfl : x = a := by simpa using hx
    obtain ⟨n, hget, hlist⟩ := linked_children hl hn
    exact ⟨n, [], hget, hlist, scalar_shape hJ hv hget hc⟩
  | @coll a k xs hden hlab hc ih =>
    have hvalid : ∀ x ∈ xs, x.value.Valid := fun x hx => (hv.member x.pair (List.mem_map_of_mem hx)).1
    obtain ⟨n, hget, hlist⟩ := linked_children hl hn
    have hchain := (linked_node.1 hl).2
    rw [addrs_node] at hn
    intro x hx
    rw [addrs_node, List.mem_cons] at hx
    rcases hx with rfl | hx
    · obtain ⟨n', hn', htype, hpay⟩ := hc
      cases hget.symm.trans hn'
      refine ⟨n, _, hget, hlist, ?_⟩
      unfold Shape
      rw [htype]
      cases k with
      | arr =>
        refine ⟨hpay, fun c hc => ?_⟩
        obtain ⟨t, ht, rfl⟩ := List.mem_map.1 hc
        obtain ⟨y, hy, rfl⟩ := List.mem_map.1 ht
        exact (hden y hy).isValue
      | obj =>
        refine ⟨hpay, fun c hc => ?_⟩
        obtain ⟨t, ht, rfl⟩ := List.mem_map.1 hc
        obtain ⟨y, hy, rfl⟩ := List.mem_map.1 ht
        exact typeOf_content (hlab y hy).1
    · obtain ⟨t, ht, hx⟩ := mem_addrsList.1 hx
      obtain ⟨prev', next', hlt⟩ := hchain.mem ht
      have hnt := nodup_mem (List.nodup_cons.1 hn).2 ht
      obtain ⟨y, hy, rfl⟩ := List.mem_map.1 ht
      cases k with
      | arr => exact ih y hy (hvalid y hy) hlt hnt x hx
      | obj =>
        have hnt' : y.tree.addrs.Nodup := by
          rw [Item.node, addrs_node] at hnt
          exact nodup_mem (List.nodup_cons.1 hnt).2 (by simp)
        exact property_nodes hlt hnt (hlab y hy).1 (hlab y hy).2 (hden y hy)
          (fun hl => ih y hy (hvalid y hy) hl hnt') x hx

/-! ## The whole tree -/

theorem reachable_iff {t : OTree} (hl : Linked (links h) none none none t) {x : Addr} :
    Reachable h t.addr x ↔ x ∈ t.addrs := by
  constructor
  · intro hr
    induction hr with
    | root => exact t.addr_mem
    | child _ hn hf ih => exact (hl.closed _ ih _ (links_of hn) _).1 hf
    | sibling _ hn hf ih => exact ((hl.closed _ ih _ (links_of hn) _).2 hf).resolve_right nofun
  · refine hl.reach (fun x k y hr hk hf => ?_) .root x
    obtain ⟨n, hn, rfl⟩ := links_some hk
    rcases hf with hf | hf
    · exact .child hr hn hf
    · exact .sibling hr hn hf

theorem denotes_wellFormed {t : OTree} {J : Json} (hd : Denotes h t J) (hv : J.Valid)
    (hl : Linked (links h) none none none t) (hn : t.addrs.Nodup) : WellFormed h t.addr where
  alone := by
    obtain ⟨n, hget, hp, hprev, hnext, -⟩ := linked_root hl
    obtain ⟨n', hn', ht, -⟩ := hd.root
    cases hget.symm.trans hn'
    exact ⟨n, hget, hp, hprev, hnext, ht ▸ J.type_ne⟩
  node x hx := denotes_nodes hd hv hl hn x ((reachable_iff hl).1 hx)
  tree := ⟨t, rfl, hl, hn, fun _ => reachable_iff hl⟩

theorem Document.valid {J : Json} {d : Bytes} (hd : Document J d) : J.Valid := by
  obtain ⟨_, _, _, -, hren, -⟩ := hd
  exact hren.valid

/-- **The tree that `jd_parse_file` hands back is well formed**, and no `assert` fails on the way. -/
theorem parsed_wellFormed {node : Ptr} (hw : w.Ample) (hret : Returns w (true, node) w') :
    (∃ root, node = some root ∧ WellFormed w'.heap root) ∧
      ∀ fuel e, jdParseFile fuel w = .error e → e = .timeout := by
  refine ⟨?_, fun fuel e he => (parse_error (hw.grants _) he).1⟩
  rcases parse_outcome (hw.grants _) hret with ⟨t, J, ha⟩ | ⟨c, offset, lastEnd, hr⟩
  · cases ha.result
    exact ⟨t.addr, rfl, denotes_wellFormed ha.denotes ha.document.valid ha.grown.hangs ha.grown.owned.nodup⟩
  · cases hr.result

theorem parsed_wellFormed_array : ∃ node w', Returns (World.start (cs "[1]") .eof) (true, node) w' ∧
    (∃ root, node = some root ∧ WellFormed w'.heap root) ∧
      ∀ fuel e, jdParseFile fuel (World.start (cs "[1]") .eof) = .error e → e = .timeout := by
  obtain ⟨node, w', h⟩ := @succeeds_returns (World.start (cs "[1]") .eof) 20 (by decide +kernel)
  exact ⟨node, w', h, parsed_wellFormed (start_ample _ _) h⟩

end JsonDom
