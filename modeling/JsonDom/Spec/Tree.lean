import JsonDom.Lib.Forest
import JsonDom.Spec.Json

/-!
# Documents in memory

`Linked (links h) parent prev next t` says that the nodes of `t` are linked in the memory `h` as the
tree `t`; `Denotes h t J` says that the types and the payloads of these nodes are those of the
document `J`. The links can change without the document changing, and a property is a node of its
own with a label and a value.
-/

namespace JsonDom

open Lib

def JdNode.links (n : JdNode) : Links :=
  { parent := n.parent, next := n.nextSibling, first := n.firstChild, prev := n.prevSibling,
    last := n.lastChild }

/-- The links of the nodes in memory. -/
def links (h : Store Cell) (x : Addr) : Option Links :=
  match h.get? x with
  | some (.node n) => some n.links
  | _ => none

/-- The payload of the node at an address. -/
def payloadOf (h : Store Cell) (x : Addr) : Ptr :=
  match h.get? x with
  | some (.node n) => n.payload
  | _ => none

/-- The blocks that belong to the nodes at these addresses: the nodes and their payloads. -/
def blocks (h : Store Cell) (as : List Addr) : List Addr := as ++ as.filterMap (payloadOf h)

/-- The node at `a` has this type, and this text in its payload, or no payload. -/
def Content (h : Store Cell) (a : Addr) (type : JdType) (text : Option Bytes) : Prop :=
  ∃ n, h.get? a = some (.node n) ∧ n.type = type ∧
    match text with
    | none => n.payload = none
    | some s => ∃ q, n.payload = some q ∧ h.get? q = some (.text (s ++ [0]))

/-- The type of a collection's node. -/
def Kind.type : Kind → JdType
  | .arr => .jdArray
  | .obj => .jdObject

/-- A member of a collection: its value with the tree of it, and the nodes of the property around
it if it is a member of an object. -/
structure Item where
  label : Bytes
  value : Json
  property : Addr
  labelNode : Addr
  tree : OTree

namespace Item

def pair (x : Item) : Bytes × Json := (x.label, x.value)

/-- The child of the collection that stands for the member. -/
def node (x : Item) : Kind → OTree
  | .arr => x.tree
  | .obj => .node x.property [.node x.labelNode [], x.tree]

/-- What is around the value. -/
def Labelled (h : Store Cell) (x : Item) : Kind → Prop
  | .arr => x.label = []
  | .obj => Content h x.property .jdProperty none ∧ Content h x.labelNode .jdString (some x.label)

end Item

inductive Denotes (h : Store Cell) : OTree → Json → Prop
  | scalar {a : Addr} {J : Json} : ¬ J.IsCollection → Content h a J.type J.text →
      Denotes h (.node a []) J
  | coll {a : Addr} {k : Kind} {xs : List Item} : (∀ x ∈ xs, Denotes h x.tree x.value) →
      (∀ x ∈ xs, x.Labelled h k) → Content h a k.type none →
      Denotes h (.node a (xs.map (·.node k))) (k.build (xs.map Item.pair))

/-- The type and the text of a node are what its cells say. -/
theorem Content.unique {h : Store Cell} {a : Addr} {type type' : JdType} {text text' : Option Bytes}
    (hc : Content h a type text) (hc' : Content h a type' text') : type = type' ∧ text = text' := by
  obtain ⟨n, hn, rfl, hp⟩ := hc
  obtain ⟨n', hn', rfl, hp'⟩ := hc'
  cases hn.symm.trans hn'
  refine ⟨rfl, ?_⟩
  cases text <;> cases text' <;> simp only at hp hp'
  · rfl
  · obtain ⟨q, hq, -⟩ := hp'
    simp [hp] at hq
  · obtain ⟨q, hq, -⟩ := hp
    simp [hp'] at hq
  · obtain ⟨q, hq, ht⟩ := hp
    obtain ⟨q', hq', ht'⟩ := hp'
    obtain rfl : q = q' := by simpa [hq] using hq'
    simpa [ht] using ht'

/-- The two ways a tree can denote a document. -/
theorem Denotes.inv {h : Store Cell} {t : OTree} {J : Json} (hd : Denotes h t J) :
    (∃ a, t = .node a [] ∧ ¬ J.IsCollection ∧ Content h a J.type J.text) ∨
      ∃ (a : Addr) (k : Kind) (xs : List Item), t = .node a (xs.map (·.node k)) ∧
        J = k.build (xs.map Item.pair) ∧ (∀ x ∈ xs, Denotes h x.tree x.value) ∧
        (∀ x ∈ xs, x.Labelled h k) ∧ Content h a k.type none := by
  cases hd with
  | scalar hJ hc => exact .inl ⟨_, rfl, hJ, hc⟩
  | coll hxs hl hc => exact .inr ⟨_, _, _, rfl, rfl, hxs, hl, hc⟩

theorem Kind.type_build (k : Kind) (ms : List (Bytes × Json)) : (k.build ms).type = k.type := by
  cases k <;> rfl

theorem Kind.type_inj {k k' : Kind} (h : k.type = k'.type) : k = k' := by
  cases k <;> cases k' <;> first | rfl | cases h

/-- A type and a text belong to one value that is no collection. -/
theorem Json.scalar_unique {J J' : Json} (hJ : ¬ J.IsCollection) (hJ' : ¬ J'.IsCollection)
    (ht : J.type = J'.type) (hs : J.text = J'.text) : J = J' := by
  cases J <;> cases J' <;> simp_all [Json.type, Json.text, Json.IsCollection]

theorem Json.type_collection {J : Json} (hJ : ¬ J.IsCollection) (k : Kind) : J.type ≠ k.type := by
  cases J <;> cases k <;> simp_all [Json.type, Kind.type, Json.IsCollection]

/-- Two lists of items that stand for the same nodes. -/
theorem items_unique {h : Store Cell} {k : Kind} : ∀ {xs ys : List Item},
    xs.map (·.node k) = ys.map (·.node k) →
    (∀ x ∈ xs, ∀ J, Denotes h x.tree J → x.value = J) → (∀ y ∈ ys, Denotes h y.tree y.value) →
    (∀ x ∈ xs, x.Labelled h k) → (∀ y ∈ ys, y.Labelled h k) → xs.map Item.pair = ys.map Item.pair
  | [], [], _, _, _, _, _ => rfl
  | [], _ :: _, he, _, _, _, _ => by simp at he
  | _ :: _, [], he, _, _, _, _ => by simp at he
  | x :: xs, y :: ys, he, hx, hy, hlx, hly => by
    simp only [List.map_cons, List.cons.injEq, List.mem_cons, forall_eq_or_imp] at he hx hy hlx hly ⊢
    refine ⟨?_, items_unique he.2 hx.2 hy.2 hlx.2 hly.2⟩
    have hnode := he.1
    cases k with
    | arr =>
      have hval := hx.1 y.value (by rw [show x.tree = y.tree from hnode]; exact hy.1)
      have hlab : x.label = y.label := hlx.1.trans hly.1.symm
      simp only [Item.pair, hval, hlab]
    | obj =>
      simp only [Item.node, OTree.node.injEq, List.cons.injEq, and_true] at hnode
      obtain ⟨hp, hl, ht⟩ := hnode
      have hval := hx.1 y.value (by rw [ht]; exact hy.1)
      have hlab := (hlx.1.2.unique (hl ▸ hly.1.2)).2
      simp only [Option.some.injEq] at hlab
      simp only [Item.pair, hval, hlab]

/-- **A tree denotes one document.** -/
theorem Denotes.unique {h : Store Cell} {t : OTree} {J J' : Json} (hd : Denotes h t J)
    (hd' : Denotes h t J') : J = J' := by
  induction hd generalizing J' with
  | @scalar a J hJ hc =>
    obtain ⟨b, hb, hJ', hc'⟩ | ⟨b, k, ys, hb, rfl, -, -, hc'⟩ := hd'.inv
    · obtain rfl : a = b := by simpa using hb
      obtain ⟨ht, hs⟩ := hc.unique hc'
      exact Json.scalar_unique hJ hJ' ht hs
    · obtain rfl : a = b := congrArg OTree.addr hb
      exact absurd (hc.unique hc').1 (Json.type_collection hJ k)
  | @coll a k xs _ hl hc ih =>
    obtain ⟨b, hb, hJ', hc'⟩ | ⟨b, k', ys, hb, rfl, hys, hl', hc'⟩ := hd'.inv
    · obtain rfl : a = b := congrArg OTree.addr hb
      exact absurd (hc'.unique hc).1 (Json.type_collection hJ' k)
    · simp only [OTree.node.injEq] at hb
      obtain ⟨rfl, hkids⟩ := hb
      obtain rfl := Kind.type_inj (hc.unique hc').1
      rw [items_unique hkids (fun x hx J hJ => ih x hx hJ) hys hl hl']

/-- A tree of its own in memory, no node of which occurs twice, for the document `J`. -/
structure IsTree (h : Store Cell) (t : OTree) (J : Json) : Prop where
  linked : OTree.Linked (links h) none none none t
  nodup : t.addrs.Nodup
  denotes : Denotes h t J

/-- Types, payloads and texts are still there. -/
structure Stays (h h' : Store Cell) : Prop where
  node {x : Addr} {n : JdNode} : h.get? x = some (.node n) →
    ∃ n', h'.get? x = some (.node n') ∧ n'.type = n.type ∧ n'.payload = n.payload
  text {x : Addr} {block : Bytes} : h.get? x = some (.text block) → h'.get? x = some (.text block)

namespace Stays

variable {h h' h'' : Store Cell}

theorem refl (h : Store Cell) : Stays h h := ⟨fun hx => ⟨_, hx, rfl, rfl⟩, id⟩

theorem trans (h1 : Stays h h') (h2 : Stays h' h'') : Stays h h'' where
  node hx := by
    obtain ⟨n', hn', ht, hp⟩ := h1.node hx
    obtain ⟨n'', hn'', ht', hp'⟩ := h2.node hn'
    exact ⟨n'', hn'', ht'.trans ht, hp'.trans hp⟩
  text hx := h2.text (h1.text hx)

theorem content (hs : Stays h h') {a : Addr} {type : JdType} {text : Option Bytes}
    (hb : Content h a type text) : Content h' a type text := by
  obtain ⟨n, hn, ht, hp⟩ := hb
  obtain ⟨n', hn', ht', hp'⟩ := hs.node hn
  refine ⟨n', hn', ht'.trans ht, ?_⟩
  cases text with
  | none => exact hp'.trans hp
  | some s =>
    obtain ⟨q, hq, hblock⟩ := hp
    exact ⟨q, hp'.trans hq, hs.text hblock⟩

theorem labelled (hs : Stays h h') {x : Item} {k : Kind} (hx : x.Labelled h k) :
    x.Labelled h' k := by
  cases k with
  | arr => exact hx
  | obj => exact ⟨hs.content hx.1, hs.content hx.2⟩

theorem denotes (hs : Stays h h') {t : OTree} {J : Json} (hd : Denotes h t J) : Denotes h' t J := by
  induction hd with
  | scalar hJ hb => exact .scalar hJ (hs.content hb)
  | coll _ hl hb ih => exact .coll ih (fun x hx => hs.labelled (hl x hx)) (hs.content hb)

theorem payloadOf_eq (hs : Stays h h') {x : Addr} {k : Links} (hx : links h x = some k) :
    payloadOf h' x = payloadOf h x := by
  unfold links at hx
  split at hx
  · next n hn =>
    obtain ⟨n', hn', -, hp⟩ := hs.node hn
    rw [payloadOf, payloadOf, hn', hn]
    exact hp
  · cases hx

end Stays

end JsonDom
