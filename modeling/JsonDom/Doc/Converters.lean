import JsonDom.Doc.Payload
import JsonDom.Doc.RoundTrip
import JsonDom.Doc.WellFormed

/-!
# The type converters

A converter sets the type and the payload of a node and leaves its children alone, so it makes a value of
its type exactly where there are none, and the string it is given is not the payload that it discards
first, nor too long for an `int` (`converted_iff`).
-/

namespace JsonDom

open Lib OTree

variable {w : World} {h h' : Store Cell} {a : Addr} {n : JdNode} {t : OTree} {J v : Json} {c : Converter}

/-- The converters, with their argument and the text that it is. -/
inductive Converter
  | setNull | setTrue | setFalse
  | copy (type : TextType) (str : CString) (value : Bytes)
  | takeString (str : Addr) (value : Bytes)
  | makeArray | makeObject

namespace Converter

def run (node : Ptr) : Converter → M Bool
  | setNull => jdNodeSetNull node
  | setTrue => jdNodeSetTrue node
  | setFalse => jdNodeSetFalse node
  | copy type str _ => type.copyFrom node str
  | takeString str _ => jdNodeTakeString node (some str)
  | makeArray => jdNodeMakeArray node
  | makeObject => jdNodeMakeObject node

/-- The value that the node is to stand for. -/
def json : Converter → Json
  | setNull => .null
  | setTrue => .true
  | setFalse => .false
  | copy .string _ value => .str value
  | copy .integer _ value => .int value
  | copy .float _ value => .float value
  | takeString _ value => .str value
  | makeArray => .arr []
  | makeObject => .obj []

/-- The argument is in memory, an escaped string or the text of a number of this type. -/
structure Allowed (h : Store Cell) (c : Converter) : Prop where
  valid : c.json.Valid
  text : ∀ s, c.json.text = some s → 0 ∉ s
  copied : ∀ type str value, c = copy type str value → str.chars h = some value
  taken : ∀ str value, c = takeString str value → h.get? str = some (.text (value ++ [0]))

/-- The argument is there when the payload is discarded, and an `int` can hold the length of a copy. -/
def Sound (n : JdNode) : Converter → Prop
  | copy _ str value => ¬ str.In n.payload ∧ (value.length : Int) < intMax
  | takeString str _ => n.payload ≠ some str
  | _ => True

end Converter

/-- The node at `a` is in the place of a value: it is a root, an element of an array, or stands behind the
label of a property. -/
def ValuePlace (h : Store Cell) (a : Addr) : Prop :=
  ∃ n, h.get? a = some (.node n) ∧ ∀ p, n.parent = some p →
    typeOf h p = some .jdArray ∨ typeOf h p = some .jdProperty ∧ n.prevSibling ≠ none

/-- The node at `a` has become the value of the converter: it has its type, its payload and no children,
the rest of the tree is as it was, and the tree stands for a document, which can be printed. -/
def Converted (w : World) (t : OTree) (J : Json) (a : Addr) (c : Converter) : Prop :=
  ∃ w', c.run (some a) w = .ok (true, w') ∧ Content w'.heap a c.json.type c.json.text ∧
    Linked (links w'.heap) none none none (t.prune a) ∧
    (∀ y ∈ (t.prune a).addrs, y ≠ a → ∀ x ∈ blocks w.heap [y], w'.heap.get? x = w.heap.get? x) ∧
    ∃ J', Denotes (cstrings w'.heap) (t.prune a) J' ∧ (J.Valid → J'.Valid ∧
      ∀ indent, Fits indent J'.levels → ∃ d, Document J' d ∧ ∃ m, ∀ fuel ≥ m,
        jdNodeSerialize fuel (some t.addr) indent w' = .ok ((), { w' with stdout := w'.stdout ++ d }))

/-! ## One node -/

theorem converter_run (hw : w.Ample) (hn : w.heap.get? a = some (.node n))
    (hp : ∀ q, n.payload = some q → ∃ block, w.heap.get? q = some (.text block))
    (hc : c.Allowed w.heap) (hs : c.Sound n) :
    ∃ w', c.run (some a) w = .ok (true, w') ∧ Content w'.heap a c.json.type c.json.text ∧
      links w'.heap a = some n.links ∧
      ∀ x < w.heap.size, x ≠ a → n.payload ≠ some x → w'.heap.get? x = w.heap.get? x := by
  obtain ⟨h1, hrun1, hsize1, hn1, hget1⟩ := discardPayload_release hn hp
  have hlt : a < h1.size := Store.lt_size hn1
  have hplain : ∀ type, ∃ w', jdNodeSetPlain (some a) type w = .ok (true, w') ∧
      Content w'.heap a type none ∧ links w'.heap a = some n.links ∧
      ∀ x < w.heap.size, x ≠ a → n.payload ≠ some x → w'.heap.get? x = w.heap.get? x := by
    intro type
    have hrun := @setPlain_run { w with heap := h1 } a _ hn1 rfl type
    have hn2 := @Store.get?_put_self _ h1 a (.node { n with type, payload := none }) hlt
    refine ⟨_, (discard_again hrun1 hn1 _).trans hrun, ⟨_, hn2, rfl, rfl⟩, (links_of hn2).trans rfl,
      fun x hx hxa hxp => ?_⟩
    exact (Store.get?_put_ne hxa).trans ((hget1 x hxa).trans (if_neg hxp))
  cases c with
  | setNull => exact hplain .jdNull
  | setTrue => exact hplain .jdTrue
  | setFalse => exact hplain .jdFalse
  | makeArray => exact hplain .jdArray
  | makeObject => exact hplain .jdObject
  | copy type str value =>
    have hcopy := copyString_fits hn hp (hc.copied type str value rfl) hs.1 hs.2
    obtain ⟨h2, hrun, hn2, htext, hget⟩ := copy_granted hn hp (hw _) value type
    have hcontent : Content h2 a type.type (some value) := ⟨_, hn2, rfl, _, rfl, htext⟩
    refine ⟨_, (copyFrom_eq hcopy type).trans hrun, ?_, (links_of hn2).trans rfl,
      fun x hx hxa hxp => (hget x hx hxa).trans (if_neg hxp)⟩
    cases type <;> exact hcontent
  | takeString str value =>
    have hstr := hc.taken str value rfl
    have hrun := @takeString_run { w with heap := h1 } a _ hn1 rfl (some str)
    have hn2 := @Store.get?_put_self _ h1 a (.node { n with payload := some str, type := .jdString }) hlt
    have hstra : str ≠ a := by
      rintro rfl
      cases hn.symm.trans hstr
    refine ⟨_, (discard_again hrun1 hn1 _).trans hrun, ⟨_, hn2, rfl, str, rfl, ?_⟩, (links_of hn2).trans rfl,
      fun x hx hxa hxp => ?_⟩
    · exact (Store.get?_put_ne hstra).trans ((hget1 str hstra).trans ((if_neg hs).trans hstr))
    · exact (Store.get?_put_ne hxa).trans ((hget1 x hxa).trans (if_neg hxp))

/-- Where the node says what it is to say, the argument was there to be read. -/
theorem converter_sound {w' : World} {ok : Bool} (hw : w.Ample) (hn : w.heap.get? a = some (.node n))
    (hp : ∀ q, n.payload = some q → ∃ block, w.heap.get? q = some (.text block)) (hc : c.Allowed w.heap)
    (hrun : c.run (some a) w = .ok (ok, w')) (hcontent : Content w'.heap a c.json.type c.json.text) :
    c.Sound n := by
  cases c with
  | copy type str value =>
    have hcontent' : Content w'.heap a type.type (some value) := by cases type <;> exact hcontent
    exact (copyFrom_granted hn hp (hw _) (hc.copied type str value rfl) hrun).2 hcontent'
  | takeString str value =>
    intro hq
    obtain ⟨h1, hrun1, -, hn1, hget1⟩ := discardPayload_release hn hp
    have htaken := (discard_again hrun1 hn1 _).trans (@takeString_run { w with heap := h1 } a _ hn1 rfl (some str))
    cases htaken.symm.trans hrun
    have hstra : str ≠ a := by
      rintro rfl
      cases hn.symm.trans (hc.taken str value rfl)
    obtain ⟨m, hm, -, q, hpay, htext⟩ := hcontent
    -- the node has the string for its payload, and the string was freed
    cases (Store.get?_put_self (Store.lt_size hn1)).symm.trans hm
    cases hpay
    cases ((Store.get?_put_ne hstra).trans ((hget1 str hstra).trans (if_pos hq))).symm.trans htext
  | setNull | setTrue | setFalse | makeArray | makeObject => trivial

/-! ## Contents as C strings -/

theorem content_frame {type : JdType} {text : Option Bytes} (hc : Content (cstrings h) a type text)
    (hsame : ∀ x ∈ blocks h [a], h'.get? x = h.get? x) : Content (cstrings h') a type text := by
  have hget : ∀ x ∈ blocks h [a], (cstrings h').get? x = (cstrings h).get? x := fun x hx => by
    rw [cstrings, cstrings, Store.get?_map, Store.get?_map, hsame x hx]
  obtain ⟨m, hm, ht, hp⟩ := hc
  have hpay : payloadOf h a = m.payload := by rw [← payloadOf_cstrings, payloadOf, hm]
  refine ⟨m, (hget a (mem_blocks_left List.mem_cons_self)).trans hm, ht, ?_⟩
  cases text with
  | none => exact hp
  | some s =>
    obtain ⟨q, hq, htext⟩ := hp
    refine ⟨q, hq, (hget q ?_).trans htext⟩
    exact mem_blocks.2 (.inr ⟨a, List.mem_cons_self, hpay.trans hq⟩)

theorem typeOf_cstrings {type : JdType} {text : Option Bytes} (hc : Content (cstrings h) a type text) :
    typeOf h a = some type := by
  obtain ⟨m, hm, ht, -⟩ := content_cstrings hc
  rw [typeOf, hm]
  exact congrArg some ht

/-! ## The tree -/

theorem denotes_leaf (hJ : c.json = v) (hc : Content h a v.type v.text) : Denotes h (.node a []) v := by
  cases c with
  | makeArray =>
    subst hJ
    exact @Denotes.coll h a .arr [] (by simp) (by simp) hc
  | makeObject =>
    subst hJ
    exact @Denotes.coll h a .obj [] (by simp) (by simp) hc
  | copy type str value =>
    subst hJ
    cases type <;> exact .scalar id hc
  | setNull | setTrue | setFalse | takeString =>
    subst hJ
    exact .scalar id hc

/-- The nodes around a value are not in the place of one. -/
theorem labelled_place {k : Kind} {b : Addr} {y : Item} {prev next : Ptr} (hplace : ValuePlace h a)
    (hl : Linked (links h) (some b) prev next (y.node k)) (hb : typeOf h b = some k.type)
    (hy : y.Labelled (cstrings h) k)
    (hsame : ∀ z ∈ (y.node k).addrs, z ≠ a → ∀ x ∈ blocks h [z], h'.get? x = h.get? x) :
    y.Labelled (cstrings h') k := by
  cases k with
  | arr => exact hy
  | obj =>
    obtain ⟨m, hm, hplace⟩ := hplace
    rw [Item.node] at hl hsame
    have hproperty : y.property ≠ a := by
      intro he
      obtain ⟨p, hp, hparent, -⟩ := linked_root hl
      cases (he ▸ hp).symm.trans hm
      rcases hplace b hparent with htype | ⟨htype, -⟩
      · cases hb.symm.trans htype
      · cases hb.symm.trans htype
    have hlabel : y.labelNode ≠ a := by
      intro he
      obtain ⟨l, hl', hparent, hprev, -⟩ := linked_root (chain_cons.1 (linked_node.1 hl).2).1
      cases (he ▸ hl').symm.trans hm
      rcases hplace _ hparent with htype | ⟨-, hne⟩
      · cases (typeOf_cstrings hy.1).symm.trans htype
      · exact hne hprev
    exact ⟨content_frame hy.1 (hsame _ (by simp) hproperty), content_frame hy.2 (hsame _ (by simp) hlabel)⟩

/-- **One value of a tree is given another content**: the tree still stands for a document. -/
theorem denotes_update {parent prev next : Ptr} (hd : Denotes (cstrings h) t J)
    (hl : Linked (links h) parent prev next t) (hplace : ValuePlace h a)
    (hleaf : Denotes (cstrings h') (.node a []) v)
    (hnone : ∀ m, h.get? a = some (.node m) → m.firstChild = none)
    (hsame : ∀ z ∈ t.addrs, z ≠ a → ∀ x ∈ blocks h [z], h'.get? x = h.get? x) :
    ∃ J', Denotes (cstrings h') t J' ∧ (v.Valid → J.Valid → J'.Valid) := by
  induction hd generalizing parent prev next with
  | @scalar b J hJ hc =>
    by_cases hb : b = a
    · exact ⟨v, hb ▸ hleaf, fun hv _ => hv⟩
    · exact ⟨J, .scalar hJ (content_frame hc (hsame b (by simp) hb)), fun _ hv => hv⟩
  | @coll b k xs hden hlab hc ih =>
    by_cases hb : b = a
    · obtain ⟨m, hm, -, -, -, hfirst, -⟩ := linked_root hl
      have hxs : xs.map (·.node k) = [] :=
        firstOf_eq_none.1 (hfirst.symm.trans (hnone m (hb ▸ hm)))
      rw [hxs, hb]
      exact ⟨v, hleaf, fun hv _ => hv⟩
    have hchain := (linked_node.1 hl).2
    rw [addrs_node] at hsame
    have hitem : ∀ y ∈ xs, (∃ prev next, Linked (links h) (some b) prev next (y.node k)) ∧
        ∀ z ∈ (y.node k).addrs, z ≠ a → ∀ x ∈ blocks h [z], h'.get? x = h.get? x := by
      intro y hy
      have hmem : y.node k ∈ xs.map (·.node k) := List.mem_map_of_mem hy
      exact ⟨hchain.mem hmem, fun z hz =>
        hsame z (List.mem_cons_of_mem _ (mem_addrsList.2 ⟨_, hmem, hz⟩))⟩
    have hvalue : ∀ y ∈ xs, ∃ J', Denotes (cstrings h') y.tree J' ∧ (v.Valid → y.value.Valid → J'.Valid) := by
      intro y hy
      obtain ⟨⟨prev', next', hly⟩, hsamey⟩ := hitem y hy
      cases k with
      | arr => exact ih y hy hly hsamey
      | obj =>
        have htree := (chain_cons.1 (chain_cons.1 (linked_node.1 hly).2).2).1
        refine ih y hy htree fun z hz => hsamey z ?_
        rw [Item.node, addrs_node, addrsList_cons, addrsList_cons]
        exact List.mem_cons_of_mem _ (List.mem_append_right _ (List.mem_append_left _ hz))
    have hjson : Nonempty Json := ⟨.null⟩
    choose! f hf hvalid using hvalue
    -- the members with their new values
    have hnodes : (xs.map fun y => { y with value := f y }).map (·.node k) = xs.map (·.node k) := by
      rw [List.map_map]
      exact List.map_congr_left fun y _ => by cases k <;> rfl
    refine ⟨k.build ((xs.map fun y => { y with value := f y }).map Item.pair), ?_, fun hv hJ => .coll ?_ ?_⟩
    · rw [← hnodes]
      refine .coll (fun z hz => ?_) (fun z hz => ?_) (content_frame hc (hsame b List.mem_cons_self hb))
      · obtain ⟨y, hy, rfl⟩ := List.mem_map.1 hz
        exact hf y hy
      · obtain ⟨y, hy, rfl⟩ := List.mem_map.1 hz
        obtain ⟨⟨prev', next', hly⟩, hsamey⟩ := hitem y hy
        have hnew := labelled_place hplace hly (typeOf_cstrings hc) (hlab y hy) hsamey
        cases k <;> exact hnew
    · intro m hm
      simp only [List.map_map, List.mem_map] at hm
      obtain ⟨y, hy, rfl⟩ := hm
      exact hvalid y hy hv (hJ.member y.pair (List.mem_map_of_mem hy)).1
    · intro hk m hm
      simp only [List.map_map, List.mem_map] at hm
      obtain ⟨y, hy, rfl⟩ := hm
      exact (hJ.member y.pair (List.mem_map_of_mem hy)).2 hk

/-- **A converter makes a value of its type** exactly of a node without children, of an argument that is
still there. -/
theorem converted_iff (hw : w.Ample) (ht : Linked (links w.heap) none none none t) (ho : Owned w.heap t.addrs)
    (hd : Denotes (cstrings w.heap) t J) (ha : a ∈ t.addrs) (hplace : ValuePlace w.heap a)
    (hc : c.Allowed w.heap) (hn : w.heap.get? a = some (.node n)) :
    Converted w t J a c ↔ n.firstChild = none ∧ c.Sound n := by
  have hp : ∀ q, n.payload = some q → ∃ block, w.heap.get? q = some (.text block) := fun q hq =>
    ho.payload ha hn hq
  constructor
  · rintro ⟨w2, hrun2, hcontent2, hlinked, -⟩
    have hsound := converter_sound hw hn hp hc hrun2 hcontent2
    obtain ⟨w', hrun, -, hlinks, -⟩ := converter_run hw hn hp hc hsound
    cases hrun.symm.trans hrun2
    exact ⟨prune_leaf hlinks hlinked ha, hsound⟩
  · rintro ⟨hnone, hsound⟩
    obtain ⟨w', hrun, hcontent, hlinks, hframe⟩ := converter_run hw hn hp hc hsound
    have hself : t.prune a = t := prune_eq_self (links_of hn) hnone ht
    have hsame : ∀ y ∈ t.addrs, y ≠ a → ∀ x ∈ blocks w.heap [y], w'.heap.get? x = w.heap.get? x := by
      intro y hy hya x hx
      have hout : x ∉ blocks w.heap [a] := ho.disjoint ht.live (fun z hz => List.mem_singleton.1 hz ▸ hy)
        (fun z hz => List.mem_singleton.1 hz ▸ ha)
        (fun z hz hz' => hya ((List.mem_singleton.1 hz).symm.trans (List.mem_singleton.1 hz'))) hx
      refine hframe x ?_ (fun he => hout (he ▸ mem_blocks_left List.mem_cons_self)) fun hq =>
        hout (mem_blocks.2 (.inr ⟨a, List.mem_cons_self, (payloadOf_node hn).trans hq⟩))
      rcases mem_blocks.1 hx with hx | ⟨z, hz, hq⟩
      · exact linked_lt ht x (List.mem_singleton.1 hx ▸ hy)
      · obtain ⟨block, hb⟩ := ho.text y hy x (List.mem_singleton.1 hz ▸ hq)
        exact Store.lt_size hb
    have ht' : Linked (links w'.heap) none none none t := by
      refine linked_congr (fun y hy => ?_) ht
      by_cases hya : y = a
      · rw [hya, hlinks, links_of hn]
      · exact links_congr (hsame y hy hya y (mem_blocks_left List.mem_cons_self))
    obtain ⟨J', hd', hvalid⟩ := denotes_update hd ht hplace (denotes_leaf rfl (hcontent.cstrings hc.text))
      (fun m hm => by cases hn.symm.trans hm; exact hnone) hsame
    rw [Converted, hself]
    refine ⟨w', hrun, hcontent, ht', hsame, J', hd', fun hJ => ?_⟩
    have hJ' := hvalid hc.valid hJ
    exact ⟨hJ', fun indent hfit => serialize_document ht' hd' hJ' hfit⟩

theorem pair_denotes :
    Denotes (cstrings pairWorld.heap) (.node 0 [.node 1 [], .node 3 []]) (.arr [.str (cs "b"), .null]) := by
  have hstr : Denotes (cstrings pairWorld.heap) (.node 1 []) (.str (cs "b")) :=
    .scalar id ⟨_, rfl, rfl, 2, rfl, rfl⟩
  have hnull : Denotes (cstrings pairWorld.heap) (.node 3 []) .null := .scalar id ⟨_, rfl, rfl, rfl⟩
  exact @Denotes.coll _ 0 .arr [⟨[], .str (cs "b"), 0, 0, .node 1 []⟩, ⟨[], .null, 0, 0, .node 3 []⟩]
    (by simpa using ⟨hstr, hnull⟩) (by simp [Item.Labelled]) ⟨_, rfl, rfl, rfl⟩

/-- The string of the pair becomes an integer. -/
theorem converted_pair : Converted pairWorld (.node 0 [.node 1 [], .node 3 []]) (.arr [.str (cs "b"), .null]) 1
    (.copy .integer (.own (cs "17")) (cs "17")) := by
  have hplace : ValuePlace pairWorld.heap 1 := by
    refine ⟨_, rfl, fun p hp => .inl ?_⟩
    cases hp
    rfl
  have hallowed : (Converter.copy .integer (.own (cs "17")) (cs "17")).Allowed pairWorld.heap := by
    refine ⟨.int (by decide), fun s hs => ?_, fun _ _ _ hc => ?_, nofun⟩
    · cases hs
      decide
    · cases hc
      rfl
  exact (converted_iff (fun _ => rfl) pair_linked pair_owned pair_denotes (by decide) hplace hallowed rfl).2
    ⟨rfl, id, by decide⟩

/-- The array becomes a null that still has its element. -/
theorem array_not_converted :
    ¬ Converted nullsWorld (.node 0 [.node 1 []]) (.arr [.null]) 0 .setNull := by
  rintro ⟨w', hrun, -, hlinked, -⟩
  obtain ⟨w1, hrun1, hlinks⟩ : ∃ w1, Converter.run (some 0) .setNull nullsWorld = .ok (true, w1) ∧
      links w1.heap 0 = some ⟨none, none, some 1, none, some 1⟩ := ⟨_, rfl, rfl⟩
  cases hrun1.symm.trans hrun
  cases prune_leaf hlinks hlinked (by decide)

end JsonDom
