import JsonDom.Proof.Build
import JsonDom.Proof.Exact

/-!
# `jd_Node_make_null_property`

It makes a property of a node exactly when the node has no children and the label is not its own
payload and short enough for an `int` (`nullProperty_iff`): the link to the last child outlives the
children, and the new label is hung behind a freed node; the payload is freed before the label is read.
-/

namespace JsonDom

open Lib OTree

variable {w : World} {a : Addr} {n : JdNode} {ks : List OTree} {str : CString} {label : Bytes}

/-- The node at `a` becomes a property with this label and the value `null`, in its old place; what
was below it is released with its payload, and everything else is as it was. -/
def MakesNullProperty (w : World) (a : Addr) (str : CString) (label : Bytes) : Prop :=
  ∃ n ks l v w', w.heap.get? a = some (.node n) ∧
    Linked (links w.heap) n.parent n.prevSibling n.nextSibling (.node a ks) ∧
    Exact.jdNodeMakeNullProperty (some a) str w = .ok (true, w') ∧
    Linked (links w'.heap) n.parent n.prevSibling n.nextSibling (.node a [.node l [], .node v []]) ∧
    Content w'.heap a .jdProperty none ∧ Content w'.heap l .jdString (some label) ∧
    Content w'.heap v .jdNull none ∧
    (∀ x, x ≠ a → x ∈ blocks w.heap (OTree.node a ks).addrs → w'.heap.get? x = none) ∧
    ∀ x < w.heap.size, x ∉ blocks w.heap (OTree.node a ks).addrs → w'.heap.get? x = w.heap.get? x

/-- The part behind the destruction of the children. -/
def labelAndValue (node : Ptr) (label : CString) : M Bool := do
  setType node .jdProperty
  let labelNode ← jdNodeCreate node none
  if labelNode.isSome then do
    let valueNode ← jdNodeCreate node none
    if valueNode.isSome then do
      let _ ← Exact.jdNodeCopyString labelNode label
      let _ ← jdNodeSetNull valueNode
      pure true
    else do
      jdNodeDestroyChildren node
      pure false
  else pure false

theorem labelAndValue_label (hlabel : w.oracle w.mallocs = true) (hn : w.heap.get? a = some (.node n))
    (hp : n.payload = none) (hl : Linked (links w.heap) n.parent n.prevSibling n.nextSibling (.node a [])) :
    ∃ w', (∀ str, labelAndValue (some a) str w = (do
        let valueNode ← jdNodeCreate (some a) none
        if valueNode.isSome then do
          let _ ← Exact.jdNodeCopyString (some w.heap.size) str
          let _ ← jdNodeSetNull valueNode
          pure true
        else do
          jdNodeDestroyChildren (some a)
          pure false : M Bool) w') ∧
      w'.oracle = w.oracle ∧ w'.mallocs = w.mallocs + 1 ∧ w.heap.size < w'.heap.size ∧
      Stands w'.heap (some ⟨a, n.parent, n.prevSibling, n.nextSibling, [.node w.heap.size []]⟩) ∧
      Content w'.heap a .jdProperty none ∧ Content w'.heap w.heap.size .jdNull none ∧
      ∀ x < w.heap.size, x ≠ a → w'.heap.get? x = w.heap.get? x := by
  have hal : a ≠ w.heap.size := Nat.ne_of_lt (Store.lt_size hn)
  -- the type
  obtain ⟨w1, hw1⟩ : ∃ w1, w1 = { w with heap := w.heap.put a (.node { n with type := .jdProperty }) } :=
    ⟨_, rfl⟩
  have hn1 : w1.heap.get? a = some (.node { n with type := .jdProperty }) := by
    rw [hw1]
    exact Store.get?_put_self (Store.lt_size hn)
  have hsize1 : w1.heap.size = w.heap.size := by rw [hw1, Store.size_put]
  have hget1 : ∀ x, x ≠ a → w1.heap.get? x = w.heap.get? x := fun x hx => by
    rw [hw1]
    exact Store.get?_put_ne hx
  have hl1 : Linked (links w1.heap) n.parent n.prevSibling n.nextSibling (.node a []) := by
    rw [hw1]
    exact linked_congr (fun x _ => links_put hn { n with type := .jdProperty } rfl x) hl
  -- the label's node
  have hc1 : Stands w1.heap (some ⟨a, n.parent, n.prevSibling, n.nextSibling, []⟩) :=
    ⟨hl1, by simp [Parent.tree]⟩
  obtain ⟨w2, hrun2, hs2, hmallocs2, -, g2, hlabel2⟩ := create_grown (by rw [hw1]; exact hlabel) hc1
  rw [hsize1] at hrun2 g2 hlabel2
  refine ⟨w2, fun str => ?_, by rw [hs2.oracle, hw1], by rw [hmallocs2, hw1], ?_, ⟨g2.hangs, ?_⟩,
    g2.stays.content ⟨_, hn1, rfl, hp⟩, hlabel2, fun x hx hxa => ?_⟩
  · change jdNodeCreate (some a) none w1 = _ at hrun2
    unfold labelAndValue setType
    rw [M.bind_ok (modifyNode_run w hn _), ← hw1, M.bind_ok hrun2, if_pos (by rfl)]
  · obtain ⟨m, hm, -⟩ := hlabel2
    exact Store.lt_size hm
  · simp [Parent.tree, hal]
  · rw [g2.frame x (hsize1.symm ▸ hx), hget1 x hxa]
    rintro (hx | hx)
    · exact hxa hx
    · cases hx

/-- Both nodes are made in `w'`: what is left to do is the label's text. -/
structure NodesMade (w w' : World) (a l v : Addr) (n : JdNode) : Prop where
  run : ∀ str, labelAndValue (some a) str w = (do
    let _ ← Exact.jdNodeCopyString (some l) str
    let _ ← jdNodeSetNull (some v)
    pure true : M Bool) w'
  node : w.heap.get? a = some (.node n)
  ne : a ≠ l
  lt : l < v
  new : ∀ x < w.heap.size, x ≠ l ∧ x ≠ v
  oracle : w'.oracle = w.oracle
  mallocs : w'.mallocs = w.mallocs + 2
  size : w.heap.size ≤ w'.heap.size
  linked : Linked (links w'.heap) n.parent n.prevSibling n.nextSibling (.node a [.node l [], .node v []])
  property : Content w'.heap a .jdProperty none
  label : Content w'.heap l .jdNull none
  value : Content w'.heap v .jdNull none
  frame : ∀ x < w.heap.size, x ≠ a → w'.heap.get? x = w.heap.get? x

theorem labelAndValue_nodes (hlabel : w.oracle w.mallocs = true) (hvalue : w.oracle (w.mallocs + 1) = true)
    (hn : w.heap.get? a = some (.node n)) (hp : n.payload = none)
    (hl : Linked (links w.heap) n.parent n.prevSibling n.nextSibling (.node a [])) :
    ∃ l v w', NodesMade w w' a l v n := by
  have hal : a ≠ w.heap.size := Nat.ne_of_lt (Store.lt_size hn)
  obtain ⟨w2, hrun2, horacle2, hmallocs2, hlv, hc2, hprop2, hlabel2, hframe2⟩ := labelAndValue_label hlabel hn hp hl
  obtain ⟨w3, hrun3, hs3, hmallocs3, -, g3, hvalue3⟩ := create_grown (by rw [horacle2, hmallocs2]; exact hvalue) hc2
  have hnew : ∀ x < w.heap.size, x ≠ w.heap.size ∧ x ≠ w2.heap.size := fun x hx =>
    ⟨Nat.ne_of_lt hx, Nat.ne_of_lt (Nat.lt_trans hx hlv)⟩
  refine ⟨w.heap.size, w2.heap.size, w3, fun str => ?_, hn, hal, hlv, hnew, hs3.oracle.trans horacle2,
    by rw [hmallocs3, hmallocs2], Nat.le_trans (Nat.le_of_lt hlv) g3.size, g3.hangs, g3.stays.content hprop2,
    g3.stays.content hlabel2, hvalue3, fun x hx hxa => ?_⟩
  · change jdNodeCreate (some a) none w2 = _ at hrun3
    rw [hrun2, M.bind_ok hrun3, if_pos (by rfl)]
  · rw [g3.frame x (Nat.lt_trans hx hlv), hframe2 x hx hxa]
    rintro (hx' | hx')
    · exact hxa hx'
    · exact (hnew x hx).1 (Option.some.inj hx').symm

namespace NodesMade

variable {w' : World} {l v : Addr}

/-- The label can be read behind the release of the payload, unless it was in it. -/
theorem chars {h1 : Store Cell} {n1 : JdNode} (m : NodesMade { w with heap := h1 } w' a l v n1)
    (hn : w.heap.get? a = some (.node n)) (hs : str.chars w.heap = some label) (hsize : h1.size = w.heap.size)
    (hget : ∀ x, x ≠ a → h1.get? x = if n.payload = some x then none else w.heap.get? x) :
    str.chars w'.heap = if str.In n.payload then none else some label := by
  rw [← CString.chars_discarded hn hs hget]
  refine CString.chars_congr fun q hq => m.frame q ?_ fun hqa => CString.not_in_node hs hn (hqa ▸ hq)
  exact hsize ▸ CString.lt_size hs hq

theorem copied (m : NodesMade w w' a l v n) (hs : str.chars w'.heap = some label)
    (hfit : (label.length : Int) < intMax) :
    Exact.jdNodeCopyString (some l) str w' = jdNodeCopyString (some l) label w' := by
  obtain ⟨k, hk, -, hkp⟩ := m.label
  refine copyString_fits hk (fun q hq => ?_) hs ?_ hfit
  · cases hkp.symm.trans hq
  · rw [hkp]
    exact CString.not_in_null

theorem written (m : NodesMade w w' a l v n) (htext : w.oracle (w.mallocs + 2) = true)
    (hcopy : Exact.jdNodeCopyString (some l) str w' = jdNodeCopyString (some l) label w') :
    ∃ w'', labelAndValue (some a) str w = .ok (true, w'') ∧
      Linked (links w''.heap) n.parent n.prevSibling n.nextSibling (.node a [.node l [], .node v []]) ∧
      Content w''.heap a .jdProperty none ∧ Content w''.heap l .jdString (some label) ∧
      Content w''.heap v .jdNull none ∧ ∀ x < w.heap.size, x ≠ a → w''.heap.get? x = w.heap.get? x := by
  obtain ⟨n3, hn3, hrest⟩ := m.property
  obtain ⟨k, hk, -, hkp⟩ := m.label
  obtain ⟨i, hi, -, hip⟩ := m.value
  have hav : a ≠ v := (m.new a (Store.lt_size m.node)).2
  -- the label's text
  obtain ⟨w4, hw4⟩ : ∃ w4, w4 =
    { w' with
      heap := (w'.heap.alloc (.text (label ++ [0]))).put l
        (.node { k with payload := some w'.heap.size, type := .jdString })
      mallocs := w'.mallocs + 1 } := ⟨_, rfl⟩
  have hcopied := copyString_run hk hkp (by rw [m.oracle, m.mallocs]; exact htext) label
  rw [← hw4, ← hcopy] at hcopied
  have hget4 : ∀ x < w'.heap.size, x ≠ l → w4.heap.get? x = w'.heap.get? x := fun x hx hxl => by
    rw [hw4, Store.get?_put_ne hxl, Store.get?_alloc_lt hx]
  have hk4 : w4.heap.get? l = some (.node { k with payload := some w'.heap.size, type := .jdString }) := by
    rw [hw4]
    refine Store.get?_put_self (Nat.lt_trans (Store.lt_size hk) ?_)
    rw [Store.size_alloc]
    exact Nat.lt_succ_self _
  have htext4 : w4.heap.get? w'.heap.size = some (.text (label ++ [0])) := by
    rw [hw4, Store.get?_put_ne (Nat.ne_of_gt (Store.lt_size hk)), Store.get?_alloc_self]
  have hi4 : w4.heap.get? v = some (.node i) := by
    rw [hget4 v (Store.lt_size hi) (Nat.ne_of_gt m.lt), hi]
  -- the value
  have hnull := setPlain_run hi4 hip .jdNull
  obtain ⟨w5, hw5⟩ : ∃ w5, w5 = { w4 with heap := w4.heap.put v (.node { i with type := .jdNull }) } :=
    ⟨_, rfl⟩
  rw [← hw5] at hnull
  have hget5 : ∀ x, x ≠ v → w5.heap.get? x = w4.heap.get? x := fun x hx => by
    rw [hw5, Store.get?_put_ne hx]
  have hlinks : ∀ x, links w5.heap x = links w'.heap x := by
    intro x
    have hmalloc : (w'.heap.alloc (.text (label ++ [0]))).get? l = some (.node k) := by
      rw [Store.get?_alloc_lt (Store.lt_size hk), hk]
    rw [hw5]
    refine (links_put hi4 { i with type := .jdNull } rfl x).trans ?_
    rw [hw4]
    refine (links_put hmalloc { k with payload := some w'.heap.size, type := .jdString } rfl x).trans ?_
    by_cases hx : x = w'.heap.size
    · rw [hx, links, links, Store.get?_alloc_self, Store.get?_size_le (Nat.le_refl _)]
    · exact links_congr (Store.get?_alloc_ne hx)
  refine ⟨w5, ?_, linked_congr (fun x _ => hlinks x) m.linked, ⟨n3, ?_, hrest⟩, ?_,
    ⟨{ i with type := .jdNull }, ?_, rfl, hip⟩, fun x hx hxa => ?_⟩
  · rw [m.run, M.bind_ok hcopied]
    exact M.bind_ok hnull
  · rw [hget5 a hav, hget4 a (Store.lt_size hn3) m.ne, hn3]
  · refine ⟨_, (hget5 l (Nat.ne_of_lt m.lt)).trans hk4, rfl, _, rfl, ?_⟩
    rw [hget5 _ (Nat.ne_of_gt (Store.lt_size hi)), htext4]
  · rw [hw5, Store.get?_put_self (Store.lt_size hi4)]
  · obtain ⟨hxl, hxv⟩ := m.new x hx
    rw [hget5 x hxv, hget4 x (Nat.lt_of_lt_of_le hx m.size) hxl, m.frame x hx hxa]

/-- Where the label's text is refused the label stays null, and the result is true. -/
theorem refused (m : NodesMade w w' a l v n) (htext : w.oracle (w.mallocs + 2) = false)
    (hcopy : Exact.jdNodeCopyString (some l) str w' = jdNodeCopyString (some l) label w') :
    ∃ w'', labelAndValue (some a) str w = .ok (true, w'') ∧
      links w''.heap a = links w'.heap a ∧ Content w''.heap l .jdNull none := by
  obtain ⟨k, hk, hkt, hkp⟩ := m.label
  obtain ⟨i, hi, -, hip⟩ := m.value
  have hav : a ≠ v := (m.new a (Store.lt_size m.node)).2
  have hcopied := copyString_fail hk hkp (by rw [m.oracle, m.mallocs]; exact htext) label
  rw [← hcopy] at hcopied
  have hnull := @setPlain_run { w' with mallocs := w'.mallocs + 1 } v i hi hip .jdNull
  obtain ⟨w4, hw4⟩ : ∃ w4, w4 =
    { w' with heap := w'.heap.put v (.node { i with type := .jdNull }), mallocs := w'.mallocs + 1 } := ⟨_, rfl⟩
  refine ⟨w4, ?_, ?_, k, ?_, hkt, hkp⟩
  · rw [hw4, m.run, M.bind_ok hcopied]
    exact M.bind_ok hnull
  · rw [hw4]
    exact links_congr (Store.get?_put_ne hav)
  · rw [hw4]
    exact (Store.get?_put_ne (Nat.ne_of_lt m.lt)).trans hk

theorem first (m : NodesMade w w' a l v n) : ∃ k, links w'.heap a = some k ∧ k.first = some l :=
  ⟨_, (linked_node.1 m.linked).1, rfl⟩

/-- Where the label is installed its text was granted, and an `int` can hold its length. -/
theorem installed (m : NodesMade w w' a l v n) {w'' : World} {parent prev next : Ptr} {l' v' : Addr}
    (hs : str.chars w'.heap = some label) (h : labelAndValue (some a) str w = .ok (true, w''))
    (hl : Linked (links w''.heap) parent prev next (.node a [.node l' [], .node v' []]))
    (hc : Content w''.heap l' .jdString (some label)) :
    w.oracle (w.mallocs + 2) = true ∧ (label.length : Int) < intMax := by
  obtain ⟨k, hk, -, hkp⟩ := m.label
  have hfirst : ∀ k, links w''.heap a = some k → k.first = some l → l' = l := by
    intro k hk hkl
    rw [(linked_node.1 hl).1, Option.some.injEq] at hk
    exact Option.some.inj ((congrArg Links.first hk).trans hkl)
  have hnone : ∀ q, k.payload = some q → ∃ block, w'.heap.get? q = some (.text block) := fun q hq => by
    cases hkp.symm.trans hq
  rcases copyString_cases hk hnone hs with ⟨e, herr⟩ | ⟨t, hfit, hcopy⟩
  · rw [m.run, M.bind_error herr] at h
    cases h
  cases htext : w.oracle (w.mallocs + 2) with
  | true =>
    obtain ⟨w3, hrun, hl3, -, hc3, -⟩ := m.written htext hcopy
    cases hrun.symm.trans h
    obtain rfl := hfirst _ (linked_node.1 hl3).1 rfl
    exact ⟨rfl, (hfit (Option.some.inj (Content.unique hc3 hc).2)).2⟩
  | false =>
    obtain ⟨w3, hrun, hlinks, hc3⟩ := m.refused htext hcopy
    cases hrun.symm.trans h
    obtain ⟨k', hk', hkl⟩ := m.first
    obtain rfl := hfirst k' (hlinks.trans hk') hkl
    cases (Content.unique hc3 hc).1

theorem returns (m : NodesMade w w' a l v n) {w'' : World} {ok : Bool}
    (h : labelAndValue (some a) str w = .ok (ok, w'')) : ok = true := by
  rw [m.run] at h
  obtain ⟨-, w1, -, h⟩ := M.bind_eq_ok h
  obtain ⟨-, w2, -, h⟩ := M.bind_eq_ok h
  cases h
  rfl

theorem gone (m : NodesMade w w' a l v n) (hs : str.chars w'.heap = none) :
    labelAndValue (some a) str w = .error .badAccess := by
  obtain ⟨k, hk, -, hkp⟩ := m.label
  rw [m.run]
  refine M.bind_error ?_
  unfold Exact.jdNodeCopyString
  rw [M.bind_ok (discardPayload_run hk hkp)]
  exact M.bind_error (CString.read_fail hs)

/-- Where it is installed it was also not in the payload `p` that was released. -/
theorem sound (m : NodesMade w w' a l v n) {p : Ptr} {w'' : World} {parent prev next : Ptr} {l' v' : Addr}
    (hs : str.chars w'.heap = if str.In p then none else some label)
    (h : labelAndValue (some a) str w = .ok (true, w''))
    (hl : Linked (links w''.heap) parent prev next (.node a [.node l' [], .node v' []]))
    (hc : Content w''.heap l' .jdString (some label)) :
    w.oracle (w.mallocs + 2) = true ∧ ¬ str.In p ∧ (label.length : Int) < intMax := by
  by_cases hin : str.In p
  · rw [if_pos hin] at hs
    cases (m.gone hs).symm.trans h
  · rw [if_neg hin] at hs
    obtain ⟨htext, hfit⟩ := m.installed hs h hl hc
    exact ⟨htext, hin, hfit⟩

end NodesMade

/-- A new child cannot be hung behind one that is freed. -/
theorem Entered.dangling {h1 : Store Cell} {ℓ : Addr → Option Links} {r p last : Addr} {rn pn : JdNode}
    (he : Entered w h1 ℓ r p rn pn) (hlast : pn.lastChild = some last) (hfreed : w.heap.get? last = none) :
    adoptInto (some r) (some p) none { w with heap := h1 } = .error .badAccess := by
  obtain ⟨h2, hm2, R2⟩ := he.relinked.modify w (fun n => { n with prevSibling := some last })
    (fun k => { k with prev := some last }) he.node he.self rfl
  have hget : h2.get? last = none := by
    rw [R2.get, hfreed]
    rfl
  have hbad : modifyNode (some last) (fun n => { n with nextSibling := some r }) { w with heap := h2 } =
      .error .badAccess := by
    unfold modifyNode getNode
    refine M.bind_error (M.bind_error ?_)
    simp only [load, hget]
  unfold adoptInto
  rw [if_neg (by simp), M.bind_ok (getNode_run { w with heap := h1 } (he.get he.ne.symm he.parent)), hlast,
    if_pos (by rfl), M.bind_ok hm2]
  exact M.bind_error hbad

/-- Behind the destruction of the children the last one is still linked, and hanging the label behind
it is an access to a freed node. -/
theorem labelAndValue_dangling {last : Addr} (hw : w.oracle w.mallocs = true)
    (hn : w.heap.get? a = some (.node n)) (hlast : n.lastChild = some last)
    (hfreed : w.heap.get? last = none) (hlt : last < w.heap.size) :
    labelAndValue (some a) str w = .error .badAccess := by
  have hne : a ≠ last := by
    rintro rfl
    cases hn.symm.trans hfreed
  -- the type, and the new node
  obtain ⟨w1, hw1⟩ : ∃ w1, w1 = { w with heap := w.heap.put a (.node { n with type := .jdProperty }) } :=
    ⟨_, rfl⟩
  have hn1 : w1.heap.get? a = some (.node { n with type := .jdProperty }) := by
    rw [hw1]
    exact Store.get?_put_self (Store.lt_size hn)
  have hmalloc := malloc_run w1 (by rw [hw1]; exact hw) (.node newNode)
  obtain ⟨w2, hw2⟩ : ∃ w2, w2 =
    { w1 with heap := w1.heap.alloc (.node newNode), mallocs := w1.mallocs + 1 } := ⟨_, rfl⟩
  rw [← hw2] at hmalloc
  have har : a ≠ w1.heap.size := Nat.ne_of_lt (Store.lt_size hn1)
  have hr2 : w2.heap.get? w1.heap.size = some (.node newNode) := by
    rw [hw2]
    exact Store.get?_alloc_self _ _
  have hn2 : w2.heap.get? a = some (.node { n with type := .jdProperty }) := by
    rw [hw2, Store.get?_alloc_ne har, hn1]
  have hfreed2 : w2.heap.get? last = none := by
    have hlt1 : last < w1.heap.size := by rwa [hw1, Store.size_put]
    rw [hw2, Store.get?_alloc_lt hlt1, hw1, Store.get?_put_ne hne.symm, hfreed]
  obtain ⟨h3, ℓ, he, henter⟩ := adopt_enter hr2 ⟨rfl, rfl, rfl⟩ hn2 har.symm
  have hcreate : jdNodeCreate (some a) none w1 = .error .badAccess := by
    unfold jdNodeCreate
    rw [M.bind_ok hmalloc, if_pos (by rfl), if_pos (by rfl)]
    exact M.bind_error ((henter none).trans (he.dangling hlast hfreed2))
  unfold labelAndValue setType
  rw [M.bind_ok (modifyNode_run w hn _), ← hw1]
  exact M.bind_error hcreate

/-- Of a node without children the payload is released. -/
theorem makeNullProperty_leaf (hn : w.heap.get? a = some (.node n))
    (hp : ∀ q, n.payload = some q → ∃ block, w.heap.get? q = some (.text block))
    (hl : Linked (links w.heap) n.parent n.prevSibling n.nextSibling (.node a [])) :
    ∃ h1, Exact.jdNodeMakeNullProperty (some a) str w = labelAndValue (some a) str { w with heap := h1 } ∧
      h1.size = w.heap.size ∧ h1.get? a = some (.node { n with payload := none }) ∧
      Linked (links h1) n.parent n.prevSibling n.nextSibling (.node a []) ∧
      ∀ x, x ≠ a → h1.get? x = if n.payload = some x then none else w.heap.get? x := by
  obtain ⟨h1, hrun1, hsize1, hn1, hget1⟩ := discardPayload_release hn hp
  obtain ⟨n', hn', -, -, -, hfirst, -⟩ := linked_root hl
  cases hn.symm.trans hn'
  refine ⟨h1, ?_, hsize1, hn1, linked_node.2 ⟨?_, chain_nil⟩, hget1⟩
  · unfold Exact.jdNodeMakeNullProperty
    rw [M.bind_ok hrun1, M.bind_ok (getNode_run { w with heap := h1 } hn1), if_neg (by rw [hfirst]; simp [kids])]
    rfl
  · rw [links_of hn1, ← (linked_node.1 hl).1, links_of hn]
    rfl

/-- Of a node with children everything below it is released; it keeps the link to the last one. -/
theorem makeNullProperty_children (hn : w.heap.get? a = some (.node n)) (hks : ks ≠ [])
    (hl : Linked (links w.heap) n.parent n.prevSibling n.nextSibling (.node a ks))
    (ho : Owned w.heap (OTree.node a ks).addrs) :
    ∃ h2 n2 last, Exact.jdNodeMakeNullProperty (some a) str w =
        labelAndValue (some a) str { w with heap := h2 } ∧
      h2.get? a = some (.node n2) ∧ n2.lastChild = some last ∧ h2.get? last = none ∧ last < h2.size := by
  obtain ⟨n', hn', -, -, -, hfirst, hlast⟩ := linked_root hl
  cases hn.symm.trans hn'
  change n.firstChild = firstOf ks none at hfirst
  change n.lastChild = lastOf ks none at hlast
  have hpay : payloadOf w.heap a = n.payload := payloadOf_node hn
  -- behind the payload's release
  obtain ⟨h1, hrun1, hsize1, hn1, hget1⟩ := discardPayload_release hn fun q hq =>
    ho.payload (addr_mem _) hn hq
  have hown : Owned w.heap (a :: (addrsList ks ++ [])) := by rwa [List.append_nil, ← addrs_node]
  obtain ⟨hoK, -, hap⟩ := hown.apart (by rw [List.append_nil, ← addrs_node]; exact hl.live)
  have hkids : ∀ x ∈ blocks w.heap (addrsList ks), x ≠ a ∧ h1.get? x = w.heap.get? x := by
    intro x hx
    have hxa : x ≠ a := by
      rintro rfl
      exact ((hap x).1 (mem_blocks_left List.mem_cons_self)).1 hx
    refine ⟨hxa, ?_⟩
    rw [hget1 x hxa, if_neg fun hq => ?_]
    exact ((hap x).1 (mem_blocks.2 (.inr ⟨a, List.mem_cons_self, hpay.trans hq⟩))).1 hx
  have hkids1 : Chain (links h1) (some a) none none ks :=
    chain_congr (fun x hx => links_congr (hkids x (mem_blocks_left hx)).2) (linked_node.1 hl).2
  -- the children are released
  obtain ⟨hown1, hblocks1⟩ := hoK.frame fun x hx => (hkids x hx).2
  obtain ⟨h2, hdestroy, hsize2, hn2, hget2⟩ := @destroyChildren_run { w with heap := h1 } a _ _ hn1 hfirst
    hkids1 hown1 (by rw [hblocks1]; exact fun h => (hkids a h).1 rfl)
  dsimp only at hsize2 hget2
  obtain ⟨last, hlast'⟩ := Option.ne_none_iff_exists'.1 (mt lastOf_eq_none.1 hks)
  have hmem : last ∈ addrsList ks := lastOf_mem hlast'
  have hfirst' : n.firstChild.isSome = true := by
    rw [hfirst, Option.isSome_iff_ne_none]
    exact mt firstOf_eq_none.1 hks
  refine ⟨h2, _, last, ?_, hn2, hlast.trans hlast', ?_, ?_⟩
  · unfold Exact.jdNodeMakeNullProperty
    rw [M.bind_ok hrun1, M.bind_ok (getNode_run { w with heap := h1 } hn1), if_pos hfirst', M.bind_ok hdestroy]
    rfl
  · rw [hget2 last (hkids last (mem_blocks_left hmem)).1, hblocks1, if_pos (mem_blocks_left hmem)]
  · rw [hsize2, hsize1]
    apply linked_lt hl last
    rw [addrs_node]
    exact List.mem_cons_of_mem _ hmem

/-- **A node becomes a property** exactly when it has no children, the label is not in its payload, and
an `int` can hold one more than the label's length. -/
theorem nullProperty_iff {t : OTree} (hw : w.Ample) (ht : Linked (links w.heap) none none none t)
    (ho : Owned w.heap t.addrs) (ha : a ∈ t.addrs) (hn : w.heap.get? a = some (.node n))
    (hs : str.chars w.heap = some label) :
    MakesNullProperty w a str label ↔
      n.firstChild = none ∧ ¬ str.In n.payload ∧ (label.length : Int) < intMax := by
  obtain ⟨ks, p, v, nx, hl, hsub⟩ := ht.sub ha
  obtain ⟨n', hn', rfl, rfl, rfl, hfirst, -⟩ := linked_root hl
  cases hn.symm.trans hn'
  change n.firstChild = firstOf ks none at hfirst
  have ho' : Owned w.heap (OTree.node a ks).addrs := ho.subset (hsub.nodup ho.nodup) fun x hx => hsub.subset hx
  have hpayload : ∀ q, n.payload = some q → ∃ block, w.heap.get? q = some (.text block) := fun q hq =>
    ho'.payload (addr_mem _) hn hq
  by_cases hks : ks = []
  · subst hks
    obtain ⟨h1, hrun1, hsize1, hn1, hl1, hget1⟩ := @makeNullProperty_leaf w a n str hn hpayload hl
    obtain ⟨l, v, w3, m⟩ := @labelAndValue_nodes { w with heap := h1 } a _ (hw _) (hw _) hn1 rfl hl1
    have hchars := m.chars hn hs hsize1 hget1
    constructor
    · rintro ⟨_, _, _, _, w', -, -, hrun, hlinked, -, hlabel, -⟩
      exact ⟨hfirst, (m.sound hchars (hrun1.symm.trans hrun) hlinked hlabel).2⟩
    · rintro ⟨-, hout, hfit⟩
      rw [if_neg hout] at hchars
      obtain ⟨w', hrun, hlinked, hprop, hlabel, hvalue, hframe⟩ :=
        m.written (hw _) (m.copied hchars hfit)
      dsimp only at hframe
      rw [hsize1] at hframe
      refine ⟨n, [], l, v, w', hn, hl, hrun1.trans hrun, hlinked, hprop, hlabel, hvalue, fun x hxa hx => ?_,
        fun x hx hxa => ?_⟩
      · have hq : n.payload = some x := by
          simp only [addrs_node, addrsList_nil, mem_blocks_cons, payloadOf_node hn] at hx
          exact (hx.resolve_left hxa).resolve_right (by simp [blocks])
        obtain ⟨block, hb⟩ := hpayload x hq
        rw [hframe x (Store.lt_size hb) hxa, hget1 x hxa, if_pos hq]
      · rw [addrs_node, mem_blocks_cons, not_or, not_or, payloadOf_node hn] at hxa
        rw [hframe x hx hxa.1, hget1 x hxa.1, if_neg hxa.2.1]
  · refine iff_of_false ?_ fun h => mt firstOf_eq_none.1 hks (hfirst.symm.trans h.1)
    rintro ⟨_, _, _, _, w', -, -, hrun, -⟩
    obtain ⟨h2, n2, last, hrun2, hn2, hlast, hgone, hlt⟩ := @makeNullProperty_children w a n ks str hn hks hl ho'
    have hbad := @labelAndValue_dangling { w with heap := h2 } a n2 str last (hw _) hn2 hlast hgone hlt
    cases (hrun2.trans hbad).symm.trans hrun

/-- A world with the tree of `["b",null]`, and a block with the string `ab`. -/
def pairWorld : World :=
  { input := [], ending := .eof, offset := 0, pe := ⟨0, none⟩,
    heap := ((((Store.empty.alloc
      (.node { newNode with firstChild := some 1, lastChild := some 3, type := .jdArray })).alloc
      (.node { newNode with parent := some 0, nextSibling := some 3, type := .jdString, payload := some 2 })).alloc
      (.text [98, 0])).alloc (.node { newNode with parent := some 0, prevSibling := some 1 })).alloc
      (.text [97, 98, 0])
    oracle := fun _ => true, mallocs := 0, stdout := [] }

theorem pair_linked : Linked (links pairWorld.heap) none none none (.node 0 [.node 1 [], .node 3 []]) := by
  simp only [linked_node, chain_cons, chain_nil, and_true]
  exact ⟨rfl, rfl, rfl⟩

theorem pair_owned : Owned pairWorld.heap (OTree.node 0 [.node 1 [], .node 3 []]).addrs := by
  have hpay : ∀ y ∈ (OTree.node 0 [.node 1 [], .node 3 []]).addrs, ∀ q, payloadOf pairWorld.heap y = some q →
      y = 1 ∧ q = 2 := by decide
  refine ⟨by decide, fun y hy q hq => ?_, fun y hy z hz q hq hq' => ?_⟩
  · obtain ⟨rfl, rfl⟩ := hpay y hy q hq
    exact ⟨_, rfl⟩
  · rw [(hpay y hy q hq).1, (hpay z hz q hq').1]

/-- The string becomes a property with the label `b`, the end of the other string. -/
theorem nullProperty_pair : MakesNullProperty pairWorld 1 (.inBlock 4 1) (cs "b") :=
  (nullProperty_iff (fun _ => rfl) pair_linked pair_owned (by decide) rfl rfl).2 ⟨rfl, by decide, by decide⟩

/-- A label in the payload is freed before it is read. -/
example : Exact.jdNodeMakeNullProperty (some 1) (.inBlock 2 0) pairWorld = .error .badAccess := rfl

/-- A world with the tree of `[null]`. -/
def nullsWorld : World :=
  { input := [], ending := .eof, offset := 0, pe := ⟨0, none⟩,
    heap := (Store.empty.alloc
      (.node { newNode with firstChild := some 1, lastChild := some 1, type := .jdArray })).alloc
      (.node { newNode with parent := some 0 }),
    oracle := fun _ => true, mallocs := 0, stdout := [] }

theorem nulls_linked : Linked (links nullsWorld.heap) none none none (.node 0 [.node 1 []]) := by
  simp only [linked_node, chain_cons, chain_nil, and_true]
  exact ⟨rfl, rfl⟩

theorem nulls_owned : Owned nullsWorld.heap (OTree.node 0 [.node 1 []]).addrs := by
  have hnone : ∀ y ∈ (OTree.node 0 [.node 1 []]).addrs, payloadOf nullsWorld.heap y = none := by decide
  refine ⟨by decide, fun y hy q hq => ?_, fun y hy z _ q hq => ?_⟩
  · rw [hnone y hy] at hq
    cases hq
  · rw [hnone y hy] at hq
    cases hq

/-- An array with one element: the new label is hung behind the freed element. -/
theorem nullProperty_array : Linked (links nullsWorld.heap) none none none (.node 0 [.node 1 []]) ∧
    Owned nullsWorld.heap (OTree.node 0 [.node 1 []]).addrs ∧
    ¬ MakesNullProperty nullsWorld 0 (.own (cs "a")) (cs "a") := by
  refine ⟨nulls_linked, nulls_owned, ?_⟩
  rintro ⟨_, _, _, _, _, -, -, hrun, -⟩
  have hbad : Exact.jdNodeMakeNullProperty (some 0) (.own (cs "a")) nullsWorld = .error .badAccess := rfl
  rw [hbad] at hrun
  cases hrun

end JsonDom
