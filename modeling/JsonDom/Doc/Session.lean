import Mathlib.Tactic.IntervalCases
import JsonDom.Doc.Held

/-!
# Sessions

A session is a sequence of calls of the library on one document: the functions of `jd_Node.c` that build and
change it, and `jd_parse_file`. Where each call is allowed when it is made, none of them fails, each does to
the document what it is for, nothing else in memory is touched, and the blocks that are there are those of
the document and the strings that parses lose (`session_held`).
-/

namespace JsonDom

open Lib

variable {base : Addr → Option Cell} {w : World} {D : Dom}

/-- The setters of a type without a text. -/
inductive PlainSetter
  | setNull | setTrue | setFalse | makeArray | makeObject

namespace PlainSetter

def run (node : Ptr) : PlainSetter → M Bool
  | setNull => jdNodeSetNull node
  | setTrue => jdNodeSetTrue node
  | setFalse => jdNodeSetFalse node
  | makeArray => jdNodeMakeArray node
  | makeObject => jdNodeMakeObject node

def type : PlainSetter → JdType
  | setNull => .jdNull
  | setTrue => .jdTrue
  | setFalse => .jdFalse
  | makeArray => .jdArray
  | makeObject => .jdObject

theorem run_eq (c : PlainSetter) (node : Ptr) : c.run node = jdNodeSetPlain node c.type := by
  cases c <;> rfl

end PlainSetter

/-- The calls of `jd_Node.c`; the string that is taken comes from `malloc`. -/
inductive Edit
  | create (parent before : Ptr)
  | adopt (adoptee parent : Addr) (before : Ptr)
  | insertElement (array newElement : Addr) (before : Ptr)
  | emancipate (node : Addr)
  | destroy (node : Addr)
  | setPlain (node : Addr) (setter : PlainSetter)
  | copy (node : Addr) (type : TextType) (value : Bytes)
  | takeString (node : Addr) (value : Bytes)
  | makeNullProperty (node : Addr) (label : Bytes)

namespace Edit

/-- Making the call; the result is what the function returns and the new node. -/
def run : Edit → M (Bool × Ptr)
  | create parent before => do
    let node ← jdNodeCreate parent before
    pure (node.isSome, node)
  | adopt adoptee parent before => do
    jdNodeAdopt (some adoptee) (some parent) before
    pure (true, none)
  | insertElement array newElement before => do
    let ok ← jdNodeArrayInsertElement (some array) (some newElement) before
    pure (ok, none)
  | emancipate node => do
    jdNodeEmancipate (some node)
    pure (true, none)
  | destroy node => do
    let node ← jdNodeDestroy (some node)
    pure (true, node)
  | setPlain node setter => do
    let ok ← setter.run (some node)
    pure (ok, none)
  | copy node type value => do
    let ok ← type.copy (some node) value
    pure (ok, none)
  | takeString node value => do
    let str ← malloc (.text (value ++ [0]))
    if str.isSome then do
      let ok ← jdNodeTakeString (some node) str
      pure (ok, none)
    else pure (false, none)
  | makeNullProperty node label => do
    let ok ← jdNodeMakeNullProperty (some node) label
    pure (ok, none)

theorem framed (e : Edit) : Framed e.run := by
  cases e with
  | create parent before => exact .bind (.create _ _) fun _ => .pure _
  | adopt adoptee parent before => exact .bind (.adopt _ _ _) fun _ => .pure _
  | insertElement array newElement before => exact .bind (.insertElement _ _ _) fun _ => .pure _
  | emancipate node => exact .bind (.emancipate _) fun _ => .pure _
  | destroy node => exact .bind (.destroy _) fun _ => .pure _
  | setPlain node setter => exact .bind (by rw [setter.run_eq]; exact .setPlain _ _) fun _ => .pure _
  | copy node type value =>
    refine .bind ?_ fun _ => .pure _
    cases type
    · exact .copyString _ _
    · exact .setNumber _ _ _
    · exact .setNumber _ _ _
  | takeString node value =>
    refine .bind (.malloc _) fun str => .ite ?_ (.pure _)
    exact .bind (.takeString _ _) fun _ => .pure _
  | makeNullProperty node label => exact .bind (.makeNullProperty _ _) fun _ => .pure _

/-- Where a call is allowed: on nodes of the document, a destroyed one is a root, and one that is made a
property has no children and is not refused its second child alone. -/
def Allowed (w : World) (D : Dom) : Edit → Prop
  | create parent before => ∀ p, parent = some p → p ∈ D.forest.nodes ∧ ∀ b, before = some b → b ∈ D.forest.kids p
  | adopt adoptee parent before => D.forest.CanHang adoptee parent before
  | insertElement array newElement before => D.type array = .jdArray ∧ D.forest.CanHang newElement array before
  | emancipate node => node ∈ D.forest.nodes
  | destroy node => node ∈ D.forest.nodes ∧ D.forest.up node = none
  | setPlain node _ => node ∈ D.forest.nodes
  | copy node _ _ => node ∈ D.forest.nodes
  | takeString node _ => node ∈ D.forest.nodes
  | makeNullProperty node _ => node ∈ D.forest.nodes ∧ D.forest.kids node = [] ∧
      (w.oracle w.mallocs = true → w.oracle (w.mallocs + 1) = true)

end Edit

/-- What a call of `jd_Node.c` with this result does to the document. -/
inductive Dom.Edited (D : Dom) : Edit → Bool × Ptr → Dom → Prop
  | notCreated {parent before : Ptr} : Edited D (.create parent before) (false, none) D
  | root {r : Addr} {before : Ptr} : r ∉ D.forest.nodes → Edited D (.create none before) (true, some r) (D.add r)
  | child {r p : Addr} {before : Ptr} (h : (D.forest.add r).CanHang r p before) : r ∉ D.forest.nodes →
      Edited D (.create (some p) before) (true, some r) (D.bear r p before h)
  | adopted {r p : Addr} {before : Ptr} (h : D.forest.CanHang r p before) :
      Edited D (.adopt r p before) (true, none) (D.relink (D.forest.hang r p before h))
  | inserted {r p : Addr} {before : Ptr} (h : D.forest.CanHang r p before) :
      Edited D (.insertElement p r before) (true, none) (D.relink (D.forest.hang r p before h))
  | emancipated {x : Addr} : Edited D (.emancipate x) (true, none) (D.relink (D.forest.unhang x))
  | destroyed {r : Addr} (h : D.forest.up r = none) :
      Edited D (.destroy r) (true, none) (D.relink (D.forest.remove r h))
  | plain {a : Addr} {setter : PlainSetter} : Edited D (.setPlain a setter) (true, none) (D.set a setter.type none)
  | copied {a : Addr} {type : TextType} {value : Bytes} :
      Edited D (.copy a type value) (true, none) (D.set a type.type (some value))
  | notCopied {a : Addr} {type : TextType} {value : Bytes} :
      Edited D (.copy a type value) (false, none) (D.set a (D.type a) none)
  | taken {a : Addr} {value : Bytes} : Edited D (.takeString a value) (true, none) (D.set a .jdString (some value))
  | notTaken {a : Addr} {value : Bytes} : Edited D (.takeString a value) (false, none) D
  | property {a : Addr} {label : Bytes} {ok : Bool} {D' : Dom} : D.Propertied a label ok D' →
      Edited D (.makeNullProperty a label) (ok, none) D'

/-- **A call of `jd_Node.c`** where the memory is the document. -/
theorem edit_holds {e : Edit} (hh : Holds w.heap D) (ha : e.Allowed w D) :
    ∃ res h' k D', e.run w = .ok (res, { w with heap := h', mallocs := k }) ∧ D.Edited e res D' ∧ Holds h' D' := by
  cases e with
  | create parent before =>
    show ∃ res h' k D', (jdNodeCreate parent before >>= _) w = _ ∧ _
    cases ho : w.oracle w.mallocs with
    | false =>
      rw [M.bind_ok (create_fail ho _ _)]
      exact ⟨_, _, _, D, rfl, .notCreated, hh⟩
    | true =>
      cases parent with
      | none =>
        obtain ⟨h', hrun, hh'⟩ := hh.createRoot ho before
        rw [M.bind_ok hrun]
        exact ⟨_, _, _, _, rfl, .root hh.represents.fresh, hh'⟩
      | some p =>
        obtain ⟨hp, hb⟩ := ha p rfl
        obtain ⟨h', hc, hrun, hh'⟩ := hh.createChild ho hp hb
        rw [M.bind_ok hrun]
        exact ⟨_, _, _, _, rfl, .child hc hh.represents.fresh, hh'⟩
  | adopt adoptee parent before =>
    obtain ⟨h', hrun, hh'⟩ := hh.adopt ha
    exact ⟨_, _, _, _, M.bind_ok hrun, .adopted ha, hh'⟩
  | insertElement array newElement before =>
    obtain ⟨htype, hc⟩ := ha
    obtain ⟨h', hrun, hh'⟩ := hh.adopt hc
    obtain ⟨n, hn, ht⟩ := hh.node hc.parent
    have hcheck : jdNodeArrayInsertElement (some array) (some newElement) before w =
        .ok (true, { w with heap := h' }) := by
      unfold jdNodeArrayInsertElement
      rw [M.bind_ok (getNode_run w hn), M.bind_ok (cAssert_run (by rw [ht, htype]; rfl) w)]
      exact M.bind_ok hrun
    exact ⟨_, _, _, _, M.bind_ok hcheck, .inserted hc, hh'⟩
  | emancipate node =>
    obtain ⟨h', hrun, hh'⟩ := hh.emancipate ha
    exact ⟨_, _, _, _, M.bind_ok hrun, .emancipated, hh'⟩
  | destroy node =>
    obtain ⟨h', hrun, hh'⟩ := hh.destroy ha.1 ha.2
    exact ⟨_, _, _, _, M.bind_ok hrun, .destroyed ha.2, hh'⟩
  | setPlain node setter =>
    obtain ⟨h', hrun, hh'⟩ := hh.setPlain ha setter.type
    rw [← setter.run_eq] at hrun
    exact ⟨_, _, _, _, M.bind_ok hrun, .plain, hh'⟩
  | copy node type value =>
    cases ho : w.oracle w.mallocs with
    | true =>
      obtain ⟨h', hrun, hh'⟩ := hh.copy ha ho value type
      exact ⟨_, _, _, _, M.bind_ok hrun, .copied, hh'⟩
    | false =>
      obtain ⟨h', hrun, hh'⟩ := hh.copy_refused ha ho value type
      exact ⟨_, _, _, _, M.bind_ok hrun, .notCopied, hh'⟩
  | takeString node value =>
    show ∃ res h' k D', (malloc (.text (value ++ [0])) >>= _) w = _ ∧ _
    cases ho : w.oracle w.mallocs with
    | true =>
      obtain ⟨h', hrun, hh'⟩ := @Holds.take _ { w with mallocs := w.mallocs + 1 } _ hh ha value
      rw [M.bind_ok (malloc_run w ho _), if_pos (by rfl)]
      exact ⟨_, _, _, _, M.bind_ok hrun, .taken, hh'⟩
    | false =>
      rw [M.bind_ok (malloc_fail w ho _)]
      exact ⟨_, _, _, D, rfl, .notTaken, hh⟩
  | makeNullProperty node label =>
    obtain ⟨hnode, hkids, hgo⟩ := ha
    obtain ⟨ok, h', k, D', hrun, hh', hp, -⟩ := hh.nullProperty hnode hkids label hgo
    exact ⟨_, _, _, _, M.bind_ok hrun, .property hp, hh'⟩

theorem edit_held {e : Edit} (hh : Held base w.heap D) (ha : e.Allowed w D) :
    ∃ res w' D', e.run w = .ok (res, w') ∧ D.Edited e res D' ∧ Held base w'.heap D' := by
  obtain ⟨h, hs, hhold⟩ := hh
  obtain ⟨res, h', k, D', hrun, heff, hhold'⟩ := @edit_holds { w with heap := h } D e hhold ha
  obtain ⟨g, hrun', hheld⟩ := Held.lift e.framed hs hrun hhold'
  exact ⟨res, _, D', hrun', heff, hheld⟩

/-! ## Calls -/

/-- A call of the library: one of `jd_Node.c`, or `jd_parse_file` on a file with this text. -/
inductive Call
  | edit (e : Edit)
  | parse (text : Bytes)

/-- The file that is read has this text. -/
def World.give (w : World) (text : Bytes) : World := { w with input := text, ending := .eof, offset := 0 }

namespace Call

def run : Call → M (Bool × Ptr)
  | edit e => e.run
  | parse text => fun w => jdParseFile (8 * text.length + 3) (w.give text)

/-- Where a call is allowed; a parse is where all it asks for is granted. -/
def Allowed (w : World) (D : Dom) : Call → Prop
  | edit e => e.Allowed w D
  | parse text => (w.give text).Grants (w.give text).requests

/-- The strings the call loses. -/
def lost (w : World) : Call → Nat
  | edit _ => 0
  | parse text => leaks (w.give text).requests

end Call

/-- What a call with this result does to the document. -/
def Dom.Effect (D : Dom) (c : Call) (res : Bool × Ptr) (D' : Dom) : Prop :=
  match c with
  | .edit e => D.Edited e res D'
  | .parse text => D.Parsed text res D'

theorem call_held {c : Call} (hh : Held base w.heap D) (ha : c.Allowed w D) :
    ∃ res w' base' D', c.run w = .ok (res, w') ∧ D.Effect c res D' ∧ Among base base' ∧ Held base' w'.heap D' ∧
      w'.heap.live.card + D.size = w.heap.live.card + D'.size + c.lost w := by
  cases c with
  | edit e =>
    obtain ⟨res, w', D', hrun, heff, hheld⟩ := edit_held hh ha
    exact ⟨res, w', base, D', hrun, heff, fun _ _ hx => hx, hheld, hh.card_live_eq hheld⟩
  | parse text => exact Held.parsed (w := w.give text) hh rfl ha

/-! ## Sequences of calls -/

/-- Every call is allowed in the document the ones before it have made. -/
inductive Permitted : World → Dom → List Call → Prop
  | nil {w : World} {D : Dom} : Permitted w D []
  | cons {w : World} {D : Dom} {c : Call} {cs : List Call} : c.Allowed w D →
      (∀ res w' D', c.run w = .ok (res, w') → D.Effect c res D' → Permitted w' D' cs) → Permitted w D (c :: cs)

/-- The calls run one after the other from `w` to `w'`, make `D'` of the document `D` and lose `lost`
strings. -/
inductive Session : World → Dom → List Call → World → Dom → Nat → Prop
  | nil {w : World} {D : Dom} : Session w D [] w D 0
  | cons {w w' w'' : World} {D D' D'' : Dom} {c : Call} {cs : List Call} {res : Bool × Ptr} {lost : Nat} :
      c.run w = .ok (res, w') → D.Effect c res D' → Session w' D' cs w'' D'' lost →
      Session w D (c :: cs) w'' D'' (c.lost w + lost)

/-- **A session.** No call fails, the document is in memory in the end, what is not of the document is as it
was, and the blocks are those of the document and the strings that are lost. -/
theorem session_held {cs : List Call} (hh : Held base w.heap D) (hp : Permitted w D cs) :
    ∃ w' D' lost, Session w D cs w' D' lost ∧ (∃ base', Among base base' ∧ Held base' w'.heap D') ∧
      w'.heap.live.card + D.size = w.heap.live.card + D'.size + lost := by
  induction cs generalizing w D base with
  | nil => exact ⟨w, D, 0, .nil, ⟨base, fun _ _ hx => hx, hh⟩, rfl⟩
  | cons c cs ih =>
    cases hp with
    | cons ha hrest =>
      obtain ⟨res, w1, base1, D1, hrun, heff, hamong, hheld, hlive⟩ := call_held hh ha
      obtain ⟨w', D', lost, hs, ⟨base', hamong', hheld'⟩, hlive'⟩ := ih hheld (hrest res w1 D1 hrun heff)
      refine ⟨w', D', _, .cons hrun heff hs, ⟨base', fun x c hx => hamong' x c (hamong x c hx), hheld'⟩, ?_⟩
      omega

/-- A text is parsed and a node created behind it. -/
theorem session_held_parse : ∃ w' D' lost,
    Session (World.start [] .eof) .empty [.parse (cs "[1]"), .edit (.create none none)] w' D' lost ∧
      (∃ base', Among (fun _ => none) base' ∧ Held base' w'.heap D') ∧
      w'.heap.live.card + Dom.empty.size = (World.start [] .eof).heap.live.card + D'.size + lost := by
  refine session_held ⟨.empty, .refl _, .empty⟩ (.cons ?_ fun res w1 D1 _ _ => .cons ?_ fun _ _ _ _ _ => .nil)
  · exact fun k _ => rfl
  · exact nofun

/-! ## The end of a document -/

theorem Held.bare {g : Store Cell} (hh : Held base g D) (hn : ∀ y, y ∉ D.forest.nodes) (x : Addr) :
    g.get? x = base x := by
  obtain ⟨h, hs, hh⟩ := hh
  rw [hs.get, hh.only x, Option.none_or]
  rintro (hx | ⟨y, hy, -⟩)
  · exact hn x hx
  · exact hn y hy

/-- **When every root is destroyed the document is gone**: the roots in any order, and what is left in memory
is what does not belong to the document. -/
theorem teardown {rs : List Addr} (hh : Held base w.heap D) (hn : rs.Nodup) (hr : ∀ r, r ∈ rs ↔ D.forest.Root r) :
    ∃ w' D', Session w D (rs.map fun r => .edit (.destroy r)) w' D' 0 ∧ ∀ x, w'.heap.get? x = base x := by
  induction rs generalizing w D with
  | nil =>
    refine ⟨w, D, .nil, hh.bare fun y hy => ?_⟩
    obtain ⟨r, hroot, -⟩ := Forest.exists_root hy
    exact List.not_mem_nil ((hr r).2 hroot)
  | cons r rs ih =>
    rw [List.nodup_cons] at hn
    have hroot : D.forest.Root r := (hr r).1 List.mem_cons_self
    obtain ⟨h, hs, hhold⟩ := hh
    obtain ⟨h', hrun, hhold'⟩ := @Holds.destroy _ { w with heap := h } _ hhold hroot.1 hroot.2
    obtain ⟨g, hrun', hheld⟩ := Held.lift (Edit.framed (.destroy r)) hs (M.bind_ok hrun) hhold'
    -- the other roots
    have hrest : ∀ x, x ∈ rs ↔ (D.relink (D.forest.remove r hroot.2)).forest.Root x := by
      intro x
      rw [Dom.relink_forest, Forest.root_remove, ← hr x, List.mem_cons]
      constructor
      · exact fun hx => ⟨.inr hx, fun he => hn.1 (he ▸ hx)⟩
      · exact fun hx => hx.1.resolve_left hx.2
    obtain ⟨w', D', hsession, hget⟩ := @ih { w with heap := g } _ hheld hn.2 hrest
    have hcons : Session w D (.edit (.destroy r) :: rs.map fun r => .edit (.destroy r)) w' D'
        (Call.lost w (.edit (.destroy r)) + 0) := .cons hrun' (.destroyed hroot.2) hsession
    exact ⟨w', D', hcons, hget⟩

/-! ## A room with two documents -/

/-- The memory of the documents `[{"k":"v"},null]` and `true`; the last cell is `last`. -/
def roomHeap (last : Option Cell) : Store Cell where
  cells :=
    [some (.node { newNode with firstChild := some 1, lastChild := some 7, type := .jdArray }),
      some (.node { newNode with
        parent := some 0, nextSibling := some 7, firstChild := some 2, lastChild := some 2, type := .jdObject }),
      some (.node { newNode with
        parent := some 1, firstChild := some 3, lastChild := some 5, type := .jdProperty }),
      some (.node { newNode with parent := some 2, nextSibling := some 5, type := .jdString, payload := some 4 }),
      some (.text [107, 0]),
      some (.node { newNode with parent := some 2, prevSibling := some 3, type := .jdString, payload := some 6 }),
      some (.text [118, 0]),
      some (.node { newNode with parent := some 0, prevSibling := some 1 }),
      some (.node { newNode with type := .jdTrue }),
      last]

/-- A block of the caller's own, which is in no document. -/
def roomBase (x : Addr) : Option Cell := if x = 9 then some (.text [97, 98, 0]) else none

def roomWorld : World := { World.start [] .eof with heap := roomHeap (roomBase 9) }

def roomUp : Addr → Option Addr
  | 1 | 7 => some 0
  | 2 => some 1
  | 3 | 5 => some 2
  | _ => none

def roomKids : Addr → List Addr
  | 0 => [1, 7]
  | 1 => [2]
  | 2 => [3, 5]
  | _ => []

theorem roomUp_lt {x p : Addr} (h : roomUp x = some p) : p < x := by
  unfold roomUp at h
  split at h <;> cases h <;> decide

def roomForest : Forest where
  nodes := [0, 1, 2, 3, 5, 7, 8]
  up := roomUp
  kids := roomKids
  nodup p := by
    unfold roomKids
    split <;> decide
  mem_kids x p := by
    constructor
    · intro h
      unfold roomKids at h
      split at h <;> simp only [List.mem_cons, List.not_mem_nil, or_false] at h
      · rcases h with rfl | rfl <;> rfl
      · rw [h]; rfl
      · rcases h with rfl | rfl <;> rfl
    · intro h
      unfold roomUp at h
      split at h <;> cases h <;> decide
  live x p h := by
    unfold roomUp at h
    split at h <;> cases h <;> decide
  acyclic x h := by
    have hlt : ∀ y, Relation.TransGen (fun y p => roomUp y = some p) x y → y < x := by
      intro y hy
      induction hy with
      | single h => exact roomUp_lt h
      | tail _ h ih => exact Nat.lt_trans (roomUp_lt h) ih
    exact Nat.lt_irrefl x (hlt x h)

def roomDom : Dom where
  forest := roomForest
  type
    | 0 => .jdArray
    | 1 => .jdObject
    | 2 => .jdProperty
    | 3 | 5 => .jdString
    | 8 => .jdTrue
    | _ => .jdNull
  text
    | 3 => some (cs "k")
    | 5 => some (cs "v")
    | _ => none

theorem room_holds : Holds (roomHeap none) roomDom := by
  have hsize : (roomHeap none).size = 10 := rfl
  refine ⟨fun x => ?_, ?_, ?_, fun x hx => ?_⟩
  · by_cases hx : x < 10
    · interval_cases x <;> rfl
    · rw [links, Store.get?_size_le (hsize ▸ Nat.le_of_not_lt hx)]
      refine (if_neg fun hm => hx ?_).symm
      exact (by decide : ∀ x ∈ roomForest.nodes, x < 10) x hm
  · simp only [roomDom, roomForest, List.forall_mem_cons]
    refine ⟨⟨_, rfl, rfl, rfl⟩, ⟨_, rfl, rfl, rfl⟩, ⟨_, rfl, rfl, rfl⟩, ⟨_, rfl, rfl, 4, rfl, rfl⟩,
      ⟨_, rfl, rfl, 6, rfl, rfl⟩, ⟨_, rfl, rfl, rfl⟩, ⟨_, rfl, rfl, rfl⟩, List.forall_mem_nil _⟩
  · intro y hy z hz q hq hq'
    have hinj : ∀ y ∈ roomDom.forest.nodes, ∀ z ∈ roomDom.forest.nodes,
        payloadOf (roomHeap none) y = payloadOf (roomHeap none) z → payloadOf (roomHeap none) y ≠ none → y = z := by
      decide
    exact hinj y hy z hz (hq.trans hq'.symm) (hq ▸ Option.some_ne_none q)
  · by_cases hlt : x < 10
    · have hcell : ∀ x < 10, x ∈ roomForest.nodes ∨ (∃ y ∈ roomForest.nodes, payloadOf (roomHeap none) y = some x) ∨
          (roomHeap none).get? x = none := by decide
      rcases hcell x hlt with hmem | ⟨y, hy, hq⟩ | hnone
      · exact absurd (.inl hmem) hx
      · exact absurd (.inr ⟨y, hy, hq⟩) hx
      · exact hnone
    · exact Store.get?_size_le (hsize ▸ Nat.le_of_not_lt hlt)

theorem room_held : Held roomBase roomWorld.heap roomDom := by
  refine ⟨roomHeap none, ⟨rfl, fun x => ?_, fun x c hx => ?_⟩, room_holds⟩
  · by_cases hx : x < 10
    · interval_cases x <;> rfl
    · rw [Store.get?_size_le (show roomWorld.heap.size ≤ x from Nat.le_of_not_lt hx),
        Store.get?_size_le (show (roomHeap none).size ≤ x from Nat.le_of_not_lt hx)]
      have hne : ¬ x = 9 := by omega
      exact (if_neg hne).symm
  · unfold roomBase at hx
    split_ifs at hx with he
    subst he
    exact ⟨rfl, by decide⟩

/-- The first document. -/
def roomJson : Json := .arr [.obj [(cs "k", .str (cs "v"))], .null]

theorem room_doc : roomDom.Doc 0 roomJson := by
  have hstr : roomDom.Doc 5 (.str (cs "v")) := .scalar id rfl rfl rfl
  have hstands : roomDom.Stands ⟨cs "k", .str (cs "v"), 2, 5⟩ .obj := ⟨3, rfl, rfl, rfl, rfl, rfl, rfl⟩
  have hobj : roomDom.Doc 1 (.obj [(cs "k", .str (cs "v"))]) :=
    @Dom.Doc.coll _ 1 .obj [⟨cs "k", .str (cs "v"), 2, 5⟩] (by simpa using hstr) (by simpa using hstands) rfl rfl rfl
  have hnull : roomDom.Doc 7 .null := .scalar id rfl rfl rfl
  exact @Dom.Doc.coll _ 0 .arr [⟨[], .obj [(cs "k", .str (cs "v"))], 1, 1⟩, ⟨[], .null, 7, 7⟩]
    (by simpa using ⟨hobj, hnull⟩) (by simp [Dom.Stands]) rfl rfl rfl

theorem room_true : roomDom.Doc 8 .true := .scalar id rfl rfl rfl

theorem room_alone {y : Addr} (h : roomDom.forest.Inside y 8) : y = 8 := by
  obtain rfl | ⟨b, -, hb⟩ := h.cases_tail
  · rfl
  · cases ((roomForest.mem_kids b 8).2 hb)

/-- The two documents are destroyed, the second one first. -/
theorem teardown_room : ∃ w' D', Session roomWorld roomDom [.edit (.destroy 8), .edit (.destroy 0)] w' D' 0 ∧
    ∀ x, w'.heap.get? x = roomBase x := by
  refine @teardown _ _ _ [8, 0] room_held (by decide) fun r => ⟨fun hr => ?_, fun hr => ?_⟩
  · exact (by decide : ∀ r ∈ [8, 0], r ∈ roomForest.nodes ∧ roomForest.up r = none) r hr
  · exact (by decide : ∀ r ∈ roomForest.nodes, roomForest.up r = none → r ∈ [8, 0]) r hr.1 hr.2

end JsonDom
