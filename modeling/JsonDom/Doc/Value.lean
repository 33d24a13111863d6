import JsonDom.Doc.WellFormed
import JsonDom.Proof.Value

/-!
# The values of a well-formed tree

`jd_node_value` keeps within the buffer and delivers the whole text of every node of a well-formed
tree (`value_delivered`); `jd_node_value_length` is exact for all nodes that are no properties, and for
a property it is two too long (`lengthExact_iff`).
-/

namespace JsonDom

open Lib

variable {h : Store Cell} {w : World} {root x b : Addr} {block text : Bytes} {len : Nat}

/-- A caller's buffer: a block that is no payload of the tree. -/
structure IsBuffer (h : Store Cell) (root b : Addr) (block : Bytes) : Prop where
  text : h.get? b = some (.text block)
  apart : ∀ y, Reachable h root y → payloadOf h y ≠ some b

/-- A buffer that had the bytes `block` now starts with the text and its NUL, and the bytes from
`bufflen` on are the old ones. -/
structure Delivered (block : Bytes) (bufflen : Int) (text block' : Bytes) : Prop where
  start : text ++ [0] <+: block'
  noNul : 0 ∉ text
  length : block'.length = block.length
  rest : block'.drop bufflen.toNat = block.drop bufflen.toNat

/-! ## Every node shows a text -/

theorem ChildList.reachable {n : JdNode} {cs : List Addr} (hl : ChildList h x n cs)
    (hx : h.get? x = some (.node n)) (hr : Reachable h root x) : ∀ c ∈ cs, Reachable h root c := by
  have hall : ∀ i (hi : i < cs.length), Reachable h root cs[i] := by
    intro i
    induction i with
    | zero =>
      intro hi
      refine .child hr hx ?_
      rw [hl.first, List.head?_eq_getElem?, List.getElem?_eq_getElem hi]
    | succ i ih =>
      intro hi
      obtain ⟨m, hm, -, hnext, -⟩ := hl.child i (Nat.lt_of_succ_lt hi)
      refine .sibling (ih (Nat.lt_of_succ_lt hi)) hm ?_
      rw [hnext, List.getElem?_eq_getElem hi]
  intro c hc
  obtain ⟨i, hi, rfl⟩ := List.getElem_of_mem hc
  exact hall i hi

theorem cstring_text {q : Addr} {s : Bytes} (hq : h.get? q = some (.text (s ++ [0]))) :
    ∃ text, cstring h (some q) = some text := by
  refine ⟨(s ++ [0]).takeWhile (· ≠ 0), ?_⟩
  unfold cstring
  rw [Option.bind_some, hq]
  exact if_pos (List.mem_append_right _ List.mem_cons_self)

theorem Shape.word {n : JdNode} {cs : List Addr} (hs : Shape h n cs) (ht : n.type ≠ .jdProperty) :
    ∃ text, wordOf h n = some text := by
  unfold Shape at hs
  unfold wordOf
  cases htype : n.type with rw [htype] at hs
  | jdNull | jdTrue | jdFalse | jdArray | jdObject => exact ⟨_, rfl⟩
  | jdString =>
    obtain ⟨-, q, s, hq, htext⟩ := hs
    rw [hq]
    exact cstring_text htext
  | jdInteger | jdFloat =>
    obtain ⟨-, q, s, hq, htext, -⟩ := hs
    rw [hq]
    exact cstring_text htext
  | jdProperty => exact absurd htype ht

theorem NodeFormed.word (hf : NodeFormed h x) {t : JdType} (ht : typeOf h x = some t)
    (hne : t ≠ .jdProperty) : ∃ n text, h.get? x = some (.node n) ∧ n.type = t ∧ wordOf h n = some text := by
  obtain ⟨n, cs, hx, -, hs⟩ := hf
  rw [typeOf, hx] at ht
  cases ht
  obtain ⟨text, htext⟩ := hs.word hne
  exact ⟨n, text, hx, rfl, htext⟩

/-- Every node of a well-formed tree shows a text; the length has two bytes more than the text and
its NUL exactly for a property. -/
theorem WellFormed.shows (hwf : WellFormed h root) (hx : Reachable h root x) :
    ∃ text len, Shows h x text len ∧
      len = text.length + if typeOf h x = some .jdProperty then 3 else 1 := by
  obtain ⟨n, cs, hget, hlist, hshape⟩ := hwf.node x hx
  have htype : typeOf h x = some n.type := by rw [typeOf, hget]
  by_cases ht : n.type = .jdProperty
  · have hkids := hlist.reachable hget hx
    unfold Shape at hshape
    rw [ht] at hshape
    obtain ⟨-, l, v, rfl, hl, tv, hv, hne⟩ := hshape
    obtain ⟨m, label, hm, hmt, hlabel⟩ := (hwf.node l (hkids l List.mem_cons_self)).word hl (by decide)
    obtain ⟨k, text, hk, -, htext⟩ :=
      (hwf.node v (hkids v (List.mem_cons_of_mem l List.mem_cons_self))).word hv hne
    refine ⟨_, _, .property hget ht hlist.first hlist.last hm hmt hlabel hk htext, ?_⟩
    rw [htype, ht, if_pos rfl]
    simp only [List.length_append, List.length_singleton]
    omega
  · obtain ⟨text, htext⟩ := hshape.word ht
    refine ⟨text, _, .word hget htext, ?_⟩
    rw [htype, if_neg (fun he => ht (Option.some.inj he))]

theorem delivered {bufflen : Int} (hlen : text.length + 1 ≤ len) (h0 : 0 ∉ text)
    (hroom : (len : Int) ≤ bufflen) (hfit : bufflen ≤ block.length) :
    Delivered block bufflen text (splice block 0 (text ++ [0])) where
  start := by
    rw [splice_zero]
    exact List.prefix_append _ _
  noNul := h0
  length := length_splice (by rw [List.length_append, List.length_singleton]; omega)
  rest := by
    have hle : (text ++ [0]).length ≤ bufflen.toNat := by
      rw [List.length_append, List.length_singleton]
      omega
    obtain ⟨k, hk⟩ := Nat.exists_eq_add_of_le hle
    rw [splice_zero, hk, ← List.drop_drop, List.drop_left, List.drop_drop]

theorem value_fits (hs : Shows w.heap x text len) (hx : Reachable w.heap root x)
    (hwf : WellFormed w.heap root) (hint : len ≤ 2147483647) (hb : IsBuffer w.heap root b block)
    {bufflen : Int} (hroom : (len : Int) ≤ bufflen) (hfit : bufflen ≤ block.length) :
    ∃ block', Delivered block bufflen text block' ∧
      jdNodeValue (some x) (some b) bufflen w =
        .ok ((len : Int), { w with heap := w.heap.put b (.text block') }) := by
  refine ⟨_, delivered hs.fits hs.ne_zero hroom hfit, hs.value hint hb.text (by omega) ?_ hroom⟩
  intro n v hn hlast
  obtain ⟨n', cs, hn', hlist, -⟩ := hwf.node x hx
  cases hn.symm.trans hn'
  exact hb.apart v (hlist.reachable hn hx v (List.mem_of_getLast? (hlist.last.symm.trans hlast)))

/-- **`jd_node_value` never overruns the buffer and always delivers a complete text.** -/
theorem value_delivered (hwf : WellFormed w.heap root) (hx : Reachable w.heap root x)
    (hint : ∀ text len, Shows w.heap x text len → len ≤ 2147483647) :
    ∃ text len, Shows w.heap x text len ∧ jdNodeValueLength (some x) w = .ok ((len : Int), w) ∧
      (∀ b block bufflen, IsBuffer w.heap root b block → bufflen ≤ (block.length : Int) →
        (len : Int) ≤ bufflen → ∃ block', Delivered block bufflen text block' ∧
          jdNodeValue (some x) (some b) bufflen w =
            .ok ((len : Int), { w with heap := w.heap.put b (.text block') })) ∧
      ∀ buffer bufflen, bufflen < (len : Int) →
        jdNodeValue (some x) buffer bufflen w = .ok ((len : Int), w) := by
  obtain ⟨text, len, hs, -⟩ := hwf.shows hx
  have hlen := hint text len hs
  refine ⟨text, len, hs, hs.length hlen, fun b block bufflen hb hfit hroom => ?_, fun buffer bufflen => ?_⟩
  · exact value_fits hs hx hwf hlen hb hroom hfit
  · exact hs.value_short hlen buffer

/-! ## The length -/

/-- `jd_node_value_length` returns one more than the length of the C string that `jd_node_value` leaves
in the buffer. -/
def LengthExact (w : World) (x b : Addr) (bufflen : Int) : Prop :=
  ∃ r w' block', jdNodeValueLength (some x) w = .ok (r, w) ∧
    jdNodeValue (some x) (some b) bufflen w = .ok (r, w') ∧
    w'.heap.get? b = some (.text block') ∧ r = ((block'.takeWhile (· ≠ 0)).length + 1 : Nat)

theorem Delivered.cstring {bufflen : Int} {block' : Bytes} (hd : Delivered block bufflen text block') :
    block'.takeWhile (· ≠ 0) = text := by
  obtain ⟨rest, rfl⟩ := hd.start
  have hall : ∀ c ∈ text, c ≠ 0 := fun c hc he => hd.noNul (he ▸ hc)
  rw [List.append_assoc, List.takeWhile_append_of_pos (by simpa using hall)]
  simp

/-- **The length is exact** for the nodes that are no properties, and for these alone. -/
theorem lengthExact_iff (hwf : WellFormed w.heap root) (hx : Reachable w.heap root x)
    (hint : ∀ text len, Shows w.heap x text len → len ≤ 2147483647) (hb : IsBuffer w.heap root b block)
    {bufflen : Int} (hroom : ∀ text len, Shows w.heap x text len → (len : Int) ≤ bufflen)
    (hfit : bufflen ≤ block.length) :
    LengthExact w x b bufflen ↔ typeOf w.heap x ≠ some .jdProperty := by
  obtain ⟨text, len, hs, hlen⟩ := hwf.shows hx
  have hlength := hs.length (hint text len hs)
  obtain ⟨block', hd, hrun⟩ := value_fits hs hx hwf (hint text len hs) hb (hroom text len hs) hfit
  have hget := @Store.get?_put_self _ w.heap b (Cell.text block') (Store.lt_size hb.text)
  constructor
  · rintro ⟨r, w', block'', hr, hrun', hget', heq⟩ htype
    cases hlength.symm.trans hr
    cases hrun.symm.trans hrun'
    cases hget.symm.trans hget'
    rw [hd.cstring] at heq
    rw [if_pos htype] at hlen
    omega
  · intro htype
    refine ⟨_, _, block', hlength, hrun, hget, ?_⟩
    rw [hd.cstring]
    rw [if_neg htype] at hlen
    exact_mod_cast hlen

/-! ## A small tree with a buffer -/

/-- The tree of `{"a":null}`, and a buffer of 20 bytes behind it. -/
def memberWorld : World :=
  let link (parent next first prev last : Ptr) (type : JdType) (payload : Ptr) : Option Cell :=
    some (.node ⟨parent, next, first, prev, last, type, payload⟩)
  { World.start [] .eof with
    heap := ⟨[link none none (some 1) none (some 1) .jdObject none,
      link (some 0) none (some 2) none (some 3) .jdProperty none,
      link (some 1) (some 3) none none none .jdString (some 4),
      link (some 1) none none (some 2) none .jdNull none,
      some (.text (cs "a" ++ [0])), some (.text (List.replicate 20 120))]⟩ }

def memberTree : OTree := .node 0 [.node 1 [.node 2 [], .node 3 []]]

theorem member_linked : OTree.Linked (links memberWorld.heap) none none none memberTree := by
  unfold memberTree
  simp only [OTree.linked_node, OTree.chain_cons, OTree.chain_nil, and_true]
  exact ⟨rfl, rfl, rfl, rfl⟩

theorem member_wellFormed : WellFormed memberWorld.heap 0 := by
  have hnull : Denotes memberWorld.heap (.node 3 []) .null := .scalar id ⟨_, rfl, rfl, rfl⟩
  have hden : Denotes memberWorld.heap memberTree (.obj [(cs "a", .null)]) := by
    refine @Denotes.coll _ 0 .obj [⟨cs "a", .null, 1, 2, .node 3 []⟩] ?_ ?_ ⟨_, rfl, rfl, rfl⟩
    · exact List.forall_mem_singleton.2 hnull
    · exact List.forall_mem_singleton.2 ⟨⟨_, rfl, rfl, rfl⟩, _, rfl, rfl, 4, rfl, rfl⟩
  have hlabel : Body (cs "a") := @Body.plain 97 [] (by decide) (by decide) .nil
  have hvalid : (Json.obj [(cs "a", .null)]).Valid :=
    @Json.Valid.coll .obj [(cs "a", .null)] (List.forall_mem_singleton.2 (.keyword rfl id))
      (by simpa using hlabel)
  exact denotes_wellFormed hden hvalid member_linked (by decide)

theorem member_buffer : IsBuffer memberWorld.heap 0 5 (List.replicate 20 120) := by
  refine ⟨rfl, fun y hy => ?_⟩
  have hmem : y ∈ memberTree.addrs := (reachable_iff member_linked).1 hy
  have hall : ∀ y ∈ [0, 1, 2, 3], payloadOf memberWorld.heap y ≠ some 5 := by decide
  exact hall y hmem

theorem member_property : Reachable memberWorld.heap 0 1 := .child .root rfl rfl

/-- The property shows `a:null`; nine bytes are asked for it. -/
theorem member_shows {len : Nat} (hs : Shows memberWorld.heap 1 text len) :
    text = cs "a:null" ∧ len = 9 := by
  cases hs with
  | word hx ht =>
    cases hx
    cases ht
  | property hx _ hfirst hlast hl _ hlabel hv ht =>
    cases hx
    cases hfirst
    cases hlast
    cases hl
    cases hv
    cases hlabel
    cases ht
    exact ⟨rfl, rfl⟩

theorem value_delivered_member : ∃ text len, Shows memberWorld.heap 1 text len ∧
    jdNodeValueLength (some 1) memberWorld = .ok ((len : Int), memberWorld) ∧
      (∀ b block bufflen, IsBuffer memberWorld.heap 0 b block → bufflen ≤ (block.length : Int) →
        (len : Int) ≤ bufflen → ∃ block', Delivered block bufflen text block' ∧
          jdNodeValue (some 1) (some b) bufflen memberWorld =
            .ok ((len : Int), { memberWorld with heap := memberWorld.heap.put b (.text block') })) ∧
      ∀ buffer bufflen, bufflen < (len : Int) →
        jdNodeValue (some 1) buffer bufflen memberWorld = .ok ((len : Int), memberWorld) := by
  refine value_delivered member_wellFormed member_property fun text len hs => ?_
  rw [(member_shows hs).2]
  decide

theorem lengthExact_null : LengthExact memberWorld 3 5 20 := by
  have hshows : ∀ text len, Shows memberWorld.heap 3 text len → len = 5 := by
    intro text len hs
    cases hs with
    | word hx ht =>
      cases hx
      cases ht
      rfl
    | property hx htype =>
      cases hx
      cases htype
  have hreach : Reachable memberWorld.heap 0 3 := .sibling (.child member_property rfl rfl) rfl rfl
  refine (lengthExact_iff member_wellFormed hreach (fun text len hs => ?_) member_buffer
    (fun text len hs => ?_) (by decide)).2 (by decide)
  · rw [hshows text len hs]
    decide
  · rw [hshows text len hs]
    decide

/-- For the property `"a":null` the length is 9, and the text with its NUL has 7 bytes. -/
theorem property_length : WellFormed memberWorld.heap 0 ∧ Reachable memberWorld.heap 0 1 ∧
    ¬ LengthExact memberWorld 1 5 20 := by
  refine ⟨member_wellFormed, member_property, ?_⟩
  rintro ⟨r, w', block', hlen, hrun, hget, heq⟩
  have hlen' : jdNodeValueLength (some 1) memberWorld = .ok (9, memberWorld) := rfl
  have hrun' : jdNodeValue (some 1) (some 5) 20 memberWorld = .ok (9, { memberWorld with
      heap := memberWorld.heap.put 5 (.text (cs "a:null" ++ 0 :: List.replicate 13 120)) }) := rfl
  cases hlen'.symm.trans hlen
  cases hrun'.symm.trans hrun
  cases hget
  exact absurd heq (by decide)

end JsonDom
