import JsonDom.Doc.NullProperty

/-!
# Payloads and refused allocations

An update of a payload is meant to be done as a whole or not at all. It is left halfway where a payload
was given up and its successor is refused, and where `jd_Node_make_null_property` has both nodes but not
the label's text; a string in the payload that is given up is read too late, and one that is too long for
an `int` is cut (`allOrNothing_iff`).
-/

namespace JsonDom

open Lib OTree

variable {w w' : World} {a : Addr} {n : JdNode} {str : CString} {value : Bytes} {u : Update}

/-- The types that have a text in the payload. -/
inductive TextType
  | string | integer | float

namespace TextType

def type : TextType → JdType
  | string => .jdString
  | integer => .jdInteger
  | float => .jdFloat

/-- The function that makes a node one of this type, with a copy of the text. -/
def copy (node : Ptr) (value : Bytes) : TextType → M Bool
  | string => jdNodeCopyString node value
  | integer => jdNodeSetInteger node value
  | float => jdNodeSetFloat node value

/-- The same function, with a string where it stands. -/
def copyFrom (node : Ptr) (str : CString) : TextType → M Bool
  | string => Exact.jdNodeCopyString node str
  | integer => Exact.jdNodeSetInteger node str
  | float => Exact.jdNodeSetFloat node str

end TextType

/-- The updates: a text, or a property with this label. -/
inductive Update
  | text (type : TextType)
  | nullProperty

/-- A node of a type with a text has one, as `jd_node_value_length` and the printers take it to have. -/
def HasText (h : Store Cell) (a : Addr) : Prop :=
  ∀ (n : JdNode) (type : TextType), h.get? a = some (.node n) → n.type = type.type →
    ∃ q s, n.payload = some q ∧ h.get? q = some (.text (s ++ [0]))

namespace Update

def run (node : Ptr) (str : CString) : Update → M Bool
  | text type => type.copyFrom node str
  | nullProperty => Exact.jdNodeMakeNullProperty node str

/-- The new value of the node at `a`, before the update `n`, is all there. -/
def Installed (h : Store Cell) (a : Addr) (n : JdNode) (value : Bytes) : Update → Prop
  | text type => Content h a type.type (some value) ∧ links h a = some n.links
  | nullProperty => ∃ l v,
      Linked (links h) n.parent n.prevSibling n.nextSibling (.node a [.node l [], .node v []]) ∧
        Content h a .jdProperty none ∧ Content h l .jdString (some value) ∧ Content h v .jdNull none

/-- Nothing was given up that cannot be had again: a refused text had no payload to take the place of,
and the label's text, where both nodes are granted, is granted too. -/
def Sound (w : World) (n : JdNode) (str : CString) (value : Bytes) : Update → Prop
  | text _ => ¬ str.In n.payload ∧
      (w.oracle w.mallocs = true ∧ (value.length : Int) < intMax ∨
        w.oracle w.mallocs = false ∧ n.payload = none ∧ intOf value.length ≠ intMax)
  | nullProperty => w.oracle w.mallocs = false ∨ n.firstChild = none ∧
      (w.oracle (w.mallocs + 1) = false ∨
        w.oracle (w.mallocs + 2) = true ∧ ¬ str.In n.payload ∧ (value.length : Int) < intMax)

end Update

/-- The update returns. If it returns true it has installed the value; one of a text that returns false
has changed nothing about the node and its payload. -/
def AllOrNothing (w : World) (a : Addr) (n : JdNode) (str : CString) (value : Bytes) (u : Update) : Prop :=
  ∃ ok w', u.run (some a) str w = .ok (ok, w') ∧
    (ok = true → u.Installed w'.heap a n value) ∧
    (ok = false → ∀ type, u = .text type →
      (∀ x ∈ blocks w.heap [a], w'.heap.get? x = w.heap.get? x) ∧ HasText w'.heap a)

/-! ## Texts -/

theorem copy_run (hn : w.heap.get? a = some (.node n)) (hp : n.payload = none)
    (ho : w.oracle w.mallocs = true) (value : Bytes) (type : TextType) :
    type.copy (some a) value w = .ok (true,
      { w with
        heap := (w.heap.alloc (.text (value ++ [0]))).put a
          (.node { n with payload := some w.heap.size, type := type.type })
        mallocs := w.mallocs + 1 }) := by
  cases type with
  | string => exact copyString_run hn hp ho value
  | integer => exact setNumber_run hn hp ho value .jdInteger
  | float => exact setNumber_run hn hp ho value .jdFloat

theorem copy_fail (hn : w.heap.get? a = some (.node n)) (hp : n.payload = none)
    (ho : w.oracle w.mallocs = false) (value : Bytes) (type : TextType) :
    type.copy (some a) value w = .ok (false, { w with mallocs := w.mallocs + 1 }) := by
  cases type with
  | string => exact copyString_fail hn hp ho value
  | integer => exact setNumber_fail hn hp ho value .jdInteger
  | float => exact setNumber_fail hn hp ho value .jdFloat

theorem copy_again {h1 : Store Cell}
    (hrun : jdNodeDiscardPayload (some a) w = .ok (true, { w with heap := h1 }))
    (hn1 : h1.get? a = some (.node { n with payload := none })) (value : Bytes) (type : TextType) :
    type.copy (some a) value w = type.copy (some a) value { w with heap := h1 } := by
  have hcopy : jdNodeCopyString (some a) value w = jdNodeCopyString (some a) value { w with heap := h1 } := by
    unfold jdNodeCopyString
    exact discard_again hrun hn1 _
  have hnumber : ∀ type, jdNodeSetNumber (some a) value type w =
      jdNodeSetNumber (some a) value type { w with heap := h1 } := by
    intro type
    unfold jdNodeSetNumber
    rw [M.run_bind, M.run_bind, hcopy]
  cases type with
  | string => exact hcopy
  | integer => exact hnumber .jdInteger
  | float => exact hnumber .jdFloat

/-- **A granted copy** takes the place of the payload. -/
theorem copy_granted (hn : w.heap.get? a = some (.node n))
    (hp : ∀ q, n.payload = some q → ∃ block, w.heap.get? q = some (.text block))
    (ho : w.oracle w.mallocs = true) (value : Bytes) (type : TextType) :
    ∃ h', type.copy (some a) value w = .ok (true, { w with heap := h', mallocs := w.mallocs + 1 }) ∧
      h'.get? a = some (.node { n with payload := some w.heap.size, type := type.type }) ∧
      h'.get? w.heap.size = some (.text (value ++ [0])) ∧
      ∀ x < w.heap.size, x ≠ a → h'.get? x = if n.payload = some x then none else w.heap.get? x := by
  obtain ⟨h1, hrun1, hsize1, hn1, hget1⟩ := discardPayload_release hn hp
  have hrun := (copy_again hrun1 hn1 value type).trans (@copy_run { w with heap := h1 } a _ hn1 rfl ho value type)
  rw [hsize1] at hrun
  have hlt : a < w.heap.size := Store.lt_size hn
  refine ⟨_, hrun, Store.get?_put_self ?_, ?_, fun x hx hxa => ?_⟩
  · rw [Store.size_alloc, hsize1]
    exact Nat.lt_succ_of_lt hlt
  · rw [Store.get?_put_ne (Nat.ne_of_gt hlt), ← hsize1, Store.get?_alloc_self]
  · rw [Store.get?_put_ne hxa, Store.get?_alloc_lt (hsize1 ▸ hx), hget1 x hxa]

/-! ## Strings at addresses -/

theorem copyFrom_eq (h : Exact.jdNodeCopyString (some a) str w = jdNodeCopyString (some a) value w)
    (type : TextType) : type.copyFrom (some a) str w = type.copy (some a) value w := by
  have hnumber : ∀ type, Exact.jdNodeSetNumber (some a) str type w = jdNodeSetNumber (some a) value type w := by
    intro type
    unfold Exact.jdNodeSetNumber jdNodeSetNumber
    rw [M.run_bind, M.run_bind, h]
  cases type with
  | string => exact h
  | integer => exact hnumber .jdInteger
  | float => exact hnumber .jdFloat

theorem copyFrom_error {e : Halt} (h : Exact.jdNodeCopyString (some a) str w = .error e) (type : TextType) :
    type.copyFrom (some a) str w = .error e := by
  cases type with
  | string => exact h
  | integer => exact M.bind_error h
  | float => exact M.bind_error h

/-- A granted copy returns true, and where the text is installed it was elsewhere, and an `int` can hold
its length. -/
theorem copyFrom_granted {type : TextType} {ok : Bool} (hn : w.heap.get? a = some (.node n))
    (hp : ∀ q, n.payload = some q → ∃ block, w.heap.get? q = some (.text block))
    (ho : w.oracle w.mallocs = true) (hs : str.chars w.heap = some value)
    (h : type.copyFrom (some a) str w = .ok (ok, w')) :
    ok = true ∧ (Content w'.heap a type.type (some value) →
      ¬ str.In n.payload ∧ (value.length : Int) < intMax) := by
  rcases copyString_cases hn hp hs with ⟨e, herr⟩ | ⟨t, hwhole, hcopy⟩
  · cases (copyFrom_error herr type).symm.trans h
  · obtain ⟨h', hrun, hn', htext, -⟩ := copy_granted hn hp ho t type
    cases ((copyFrom_eq hcopy type).trans hrun).symm.trans h
    have hc : Content h' a type.type (some t) := ⟨_, hn', rfl, _, rfl, htext⟩
    exact ⟨rfl, fun hc' => hwhole (Option.some.inj (Content.unique hc hc').2)⟩

/-- A refused text changes nothing where there was none. -/
theorem refused_iff {type : TextType} (hn : w.heap.get? a = some (.node n))
    (hp : ∀ q, n.payload = some q → ∃ block, w.heap.get? q = some (.text block)) (htext : HasText w.heap a)
    (ho : w.oracle w.mallocs = false) {t : Bytes}
    (hcopy : Exact.jdNodeCopyString (some a) str w = jdNodeCopyString (some a) t w) :
    AllOrNothing w a n str value (.text type) ↔ n.payload = none := by
  obtain ⟨h1, hrun1, -, hn1, hget1⟩ := discardPayload_release hn hp
  have hrun := (copyFrom_eq hcopy type).trans ((copy_again hrun1 hn1 t type).trans
    (@copy_fail { w with heap := h1 } a _ hn1 rfl ho t type))
  have hpay : payloadOf w.heap a = n.payload := payloadOf_node hn
  cases hq : n.payload with
  | none =>
    have hsame : h1.get? a = w.heap.get? a := by rw [hn1, hn, ← hq]
    refine iff_of_true ⟨_, _, hrun, nofun, fun _ _ _ => ⟨fun x hx => ?_, fun m type' hm ht => ?_⟩⟩ rfl
    · obtain rfl : x = a := by simpa [mem_blocks, hpay, hq] using hx
      exact hsame
    · obtain ⟨q, s, hpayload, -⟩ := htext m type' (hsame.symm.trans hm) ht
      cases hn.symm.trans (hsame.symm.trans hm)
      cases hq.symm.trans hpayload
  | some q =>
    refine iff_of_false ?_ (Option.some_ne_none q)
    rintro ⟨ok, w', hw', -, hfalse⟩
    cases hrun.symm.trans hw'
    have hmem : q ∈ blocks w.heap [a] := mem_blocks.2 (.inr ⟨a, List.mem_singleton_self a, hpay.trans hq⟩)
    have hkept := (hfalse rfl type rfl).1 q hmem
    obtain ⟨block, hb⟩ := hp q hq
    have hqa : q ≠ a := by
      rintro rfl
      cases hn.symm.trans hb
    change h1.get? q = _ at hkept
    rw [hget1 q hqa, if_pos hq, hb] at hkept
    cases hkept

theorem text_iff {type : TextType} (hn : w.heap.get? a = some (.node n))
    (hp : ∀ q, n.payload = some q → ∃ block, w.heap.get? q = some (.text block)) (htext : HasText w.heap a)
    (hs : str.chars w.heap = some value) :
    AllOrNothing w a n str value (.text type) ↔ (Update.text type).Sound w n str value := by
  by_cases hin : str.In n.payload
  · refine iff_of_false ?_ fun hsound => hsound.1 hin
    rintro ⟨ok, w', hrun, -⟩
    cases (copyFrom_error (copyString_freed hn hp hs hin) type).symm.trans hrun
  cases ho : w.oracle w.mallocs with
  | true =>
    constructor
    · rintro ⟨ok, w', hrun, htrue, -⟩
      obtain ⟨rfl, hinstalled⟩ := copyFrom_granted hn hp ho hs hrun
      exact ⟨hin, .inl ⟨ho, (hinstalled (htrue rfl).1).2⟩⟩
    · rintro ⟨-, ⟨-, hfit⟩ | ⟨hrefused, -⟩⟩
      · obtain ⟨h', hrun, hn', htext', -⟩ := copy_granted hn hp ho value type
        have hlinks : links h' a = some n.links := (links_of hn').trans rfl
        exact ⟨_, _, (copyFrom_eq (copyString_fits hn hp hs hin hfit) type).trans hrun,
          fun _ => ⟨⟨_, hn', rfl, _, rfl, htext'⟩, hlinks⟩, fun hok => by cases hok⟩
      · cases ho.symm.trans hrefused
  | false =>
    rcases copyString_exact hn hp hs hin with ⟨hmax, herr⟩ | ⟨hmax, ⟨hgranted, -⟩ | hcopy⟩
    · refine iff_of_false ?_ ?_
      · rintro ⟨ok, w', hrun, -⟩
        cases (copyFrom_error herr type).symm.trans hrun
      · rintro ⟨-, ⟨hgranted, -⟩ | ⟨-, -, hne⟩⟩
        · cases ho.symm.trans hgranted
        · exact hne hmax
    · cases ho.symm.trans hgranted
    · rw [refused_iff hn hp htext ho hcopy]
      constructor
      · exact fun hnone => ⟨hin, .inr ⟨ho, hnone, hmax⟩⟩
      · rintro ⟨-, ⟨hgranted, -⟩ | ⟨-, hnone, -⟩⟩
        · cases ho.symm.trans hgranted
        · exact hnone

/-! ## The property -/

theorem labelAndValue_fail (hn : w.heap.get? a = some (.node n)) (ho : w.oracle w.mallocs = false) :
    ∃ w', labelAndValue (some a) str w = .ok (false, w') := by
  obtain ⟨w1, hw1⟩ : ∃ w1, w1 = { w with heap := w.heap.put a (.node { n with type := .jdProperty }) } :=
    ⟨_, rfl⟩
  have hfail := @create_fail w1 (by rw [hw1]; exact ho) (some a) none
  unfold labelAndValue setType
  rw [M.bind_ok (modifyNode_run w hn _), ← hw1, M.bind_ok hfail]
  exact ⟨_, rfl⟩

/-- The label's node is destroyed again where the value's is refused. -/
theorem labelAndValue_undone (hlabel : w.oracle w.mallocs = true) (hvalue : w.oracle (w.mallocs + 1) = false)
    (hn : w.heap.get? a = some (.node n)) (hp : n.payload = none)
    (hl : Linked (links w.heap) n.parent n.prevSibling n.nextSibling (.node a [])) :
    ∃ w', labelAndValue (some a) str w = .ok (false, w') := by
  obtain ⟨w2, hrun, horacle, hmallocs, -, ⟨hlinked, hnodup⟩, -, hnull, -⟩ := labelAndValue_label hlabel hn hp hl
  have hfail := @create_fail w2 (by rw [horacle, hmallocs]; exact hvalue) (some a) none
  -- the label's node is all there is to destroy
  obtain ⟨n2, hn2, -, -, -, hfirst, -⟩ := linked_root hlinked
  obtain ⟨k, hk, -, hkp⟩ := hnull
  have hpay : payloadOf w2.heap w.heap.size = none := (payloadOf_node hk).trans hkp
  have hone : ∀ y ∈ addrsList [.node w.heap.size []], payloadOf w2.heap y = none := by simpa using hpay
  have ho : Owned w2.heap (addrsList [.node w.heap.size []]) := by
    refine ⟨by simp, fun y hy q hq => ?_, fun y hy _ _ q hq => ?_⟩
    · cases (hone y hy).symm.trans hq
    · cases (hone y hy).symm.trans hq
  have ha : a ∉ blocks w2.heap (addrsList [.node w.heap.size []]) := by
    simpa [blocks, hpay] using Nat.ne_of_lt (Store.lt_size hn)
  obtain ⟨h', hdestroy, -⟩ := @destroyChildren_run { w2 with mallocs := w2.mallocs + 1 } a n2 _ hn2 hfirst
    (linked_node.1 hlinked).2 ho ha
  refine ⟨{ w2 with mallocs := w2.mallocs + 1, heap := h' }, ?_⟩
  rw [hrun, M.bind_ok hfail, if_neg (by simp)]
  exact M.bind_ok hdestroy

theorem property_iff {ks : List OTree} (hn : w.heap.get? a = some (.node n))
    (hl : Linked (links w.heap) n.parent n.prevSibling n.nextSibling (.node a ks))
    (ho : Owned w.heap (OTree.node a ks).addrs) (hs : str.chars w.heap = some value) :
    AllOrNothing w a n str value .nullProperty ↔ Update.nullProperty.Sound w n str value := by
  have hpayload : ∀ q, n.payload = some q → ∃ block, w.heap.get? q = some (.text block) := fun q hq =>
    ho.payload (addr_mem _) hn hq
  obtain ⟨n', hn', -, -, -, hfirst, -⟩ := linked_root hl
  cases hn.symm.trans hn'
  change n.firstChild = firstOf ks none at hfirst
  have hreturns : ∀ w', Update.nullProperty.run (some a) str w = .ok (false, w') →
      AllOrNothing w a n str value .nullProperty := fun w' h => ⟨false, w', h, nofun, fun _ _ hu => nomatch hu⟩
  by_cases hks : ks = []
  · subst hks
    obtain ⟨h1, hrun1, hsize1, hn1, hl1, hget1⟩ := @makeNullProperty_leaf w a n str hn hpayload hl
    cases hlabel : w.oracle w.mallocs with
    | false =>
      obtain ⟨w', hfail⟩ := @labelAndValue_fail { w with heap := h1 } a _ str hn1 hlabel
      exact iff_of_true (hreturns w' (hrun1.trans hfail)) (.inl hlabel)
    | true =>
      cases hvalue : w.oracle (w.mallocs + 1) with
      | false =>
        obtain ⟨w', hfail⟩ := @labelAndValue_undone { w with heap := h1 } a _ str hlabel hvalue hn1 rfl hl1
        exact iff_of_true (hreturns w' (hrun1.trans hfail)) (.inr ⟨hfirst, .inl hvalue⟩)
      | true =>
        obtain ⟨l, v, w3, m⟩ := @labelAndValue_nodes { w with heap := h1 } a _ hlabel hvalue hn1 rfl hl1
        have hchars := m.chars hn hs hsize1 hget1
        constructor
        · rintro ⟨ok, w', hrun, htrue, -⟩
          have hlabelled := hrun1.symm.trans hrun
          obtain rfl := m.returns hlabelled
          obtain ⟨l', v', hlinked, -, hc, -⟩ := htrue rfl
          exact .inr ⟨hfirst, .inr (m.sound hchars hlabelled hlinked hc)⟩
        · rintro (hrefused | ⟨-, hrefused | ⟨htext, hin, hfit⟩⟩)
          · cases hlabel.symm.trans hrefused
          · cases hvalue.symm.trans hrefused
          rw [if_neg hin] at hchars
          obtain ⟨w', hrun, hlinked, hprop, hc, hv, -⟩ := m.written htext (m.copied hchars hfit)
          exact ⟨true, w', hrun1.trans hrun, fun _ => ⟨l, v, hlinked, hprop, hc, hv⟩, nofun⟩
  · obtain ⟨h2, n2, last, hrun2, hn2, hlast, hgone, hlt⟩ := @makeNullProperty_children w a n ks str hn hks hl ho
    have hne : n.firstChild ≠ none := fun h => mt firstOf_eq_none.1 hks (hfirst.symm.trans h)
    cases hlabel : w.oracle w.mallocs with
    | false =>
      obtain ⟨w', hfail⟩ := @labelAndValue_fail { w with heap := h2 } a n2 str hn2 hlabel
      exact iff_of_true (hreturns w' (hrun2.trans hfail)) (.inl hlabel)
    | true =>
      refine iff_of_false ?_ ?_
      · rintro ⟨ok, w', hrun, -⟩
        have hbad := @labelAndValue_dangling { w with heap := h2 } a n2 str last hlabel hn2 hlast hgone hlt
        cases (hrun2.trans hbad).symm.trans hrun
      · rintro (hrefused | ⟨hnone, -⟩)
        · cases hlabel.symm.trans hrefused
        · exact hne hnone

/-- **An update is done as a whole or not at all** exactly where it is sound. -/
theorem allOrNothing_iff {parent prev next : Ptr} {t : OTree} (ht : Linked (links w.heap) parent prev next t)
    (ho : Owned w.heap t.addrs) (ha : a ∈ t.addrs) (hn : w.heap.get? a = some (.node n))
    (htext : HasText w.heap a) (hs : str.chars w.heap = some value) (u : Update) :
    AllOrNothing w a n str value u ↔ u.Sound w n str value := by
  cases u with
  | text type => exact text_iff hn (fun q hq => ho.payload ha hn hq) htext hs
  | nullProperty =>
    obtain ⟨ks, p, v, nx, hl, hsub⟩ := ht.sub ha
    obtain ⟨n', hn', rfl, rfl, rfl, -⟩ := linked_root hl
    cases hn.symm.trans hn'
    exact property_iff hn hl (ho.subset (hsub.nodup ho.nodup) fun x hx => hsub.subset hx) hs

theorem pair_text : HasText pairWorld.heap 1 := by
  intro m type hm _
  cases hm
  exact ⟨2, cs "b", rfl, rfl⟩

/-- The string `b` becomes the string `ab` of the other block. -/
theorem allOrNothing_pair : AllOrNothing pairWorld 1
    { newNode with parent := some 0, nextSibling := some 3, type := .jdString, payload := some 2 }
    (.inBlock 4 0) (cs "ab") (.text .string) :=
  (allOrNothing_iff pair_linked pair_owned (by decide) rfl pair_text rfl _).2
    ⟨by decide, .inl ⟨rfl, by decide⟩⟩

/-- A world with one node, the string `a`, and no memory to be had. -/
def stringWorld : World :=
  { nullsWorld with
    heap := (Store.empty.alloc (.node { newNode with type := .jdString, payload := some 1 })).alloc (.text [97, 0])
    oracle := fun _ => false }

/-- The string is gone, and the node is still one of a string. -/
theorem refused_copy_loses : ¬ AllOrNothing stringWorld 0 { newNode with type := .jdString, payload := some 1 }
    (.own (cs "b")) (cs "b") (.text .string) := by
  rintro ⟨ok, w', hrun, -, hfalse⟩
  obtain ⟨w1, hrun1, hgone⟩ : ∃ w1,
      Update.run (some 0) (.own (cs "b")) (.text .string) stringWorld = .ok (false, w1) ∧
        w1.heap.get? 1 = none := ⟨_, rfl, rfl⟩
  cases hrun1.symm.trans hrun
  have hkept := (hfalse rfl .string rfl).1 1 (by decide)
  cases hgone.symm.trans hkept

end JsonDom
