import JsonDom.Lib.Graft
import JsonDom.Spec.Tree

/-!
# A document as its user sees it

A `Dom` is a forest with a type and a text for each node, without addresses of payloads and without links.
`Dom.Doc D a J`: the node `a` is the document `J`. The memory that holds a `Dom` is in
`JsonDom/Doc/Hold.lean`, and what the functions of `jd_Node.c` do to it in `JsonDom/Doc/Session.lean`.
-/

namespace JsonDom

open Lib

structure Dom where
  forest : Forest
  type : Addr → JdType
  text : Addr → Option Bytes

/-- A member of a collection: its value, the child of the collection, and the node of the value. -/
structure Entry where
  label : Bytes
  value : Json
  child : Addr
  node : Addr

def Entry.pair (x : Entry) : Bytes × Json := (x.label, x.value)

namespace Dom

def empty : Dom where
  forest := .empty
  type _ := .jdNull
  text _ := none

/-- A node gets a type and a text. -/
def set (D : Dom) (a : Addr) (type : JdType) (text : Option Bytes) : Dom where
  forest := D.forest
  type := Function.update D.type a type
  text := Function.update D.text a text

/-- The same nodes in other families. -/
def relink (D : Dom) (F : Forest) : Dom := { D with forest := F }

/-- A new node. -/
def add (D : Dom) (r : Addr) : Dom := (D.set r .jdNull none).relink (D.forest.add r)

/-- A new node as a child of `p`, in front of `before` or at the end. -/
def bear (D : Dom) (r p : Addr) (before : Ptr) (h : (D.forest.add r).CanHang r p before) : Dom :=
  (D.add r).relink ((D.forest.add r).hang r p before h)

/-- What becomes of the childless node `a` when it is made a property with this label: one without children
where the label's node is refused, or with a label and a null value; where only the label's text is refused
the label is null too. -/
inductive Propertied (D : Dom) (a : Addr) (label : Bytes) : Bool → Dom → Prop
  | refused : Propertied D a label false (D.set a .jdProperty none)
  | made {l v : Addr} {type : JdType} {text : Option Bytes}
      (h1 : ((D.set a .jdProperty none).forest.add l).CanHang l a none)
      (h2 : (((D.set a .jdProperty none).bear l a none h1).forest.add v).CanHang v a none) :
      l ∉ D.forest.nodes → v ∉ D.forest.nodes → l ≠ v →
      type = .jdString ∧ text = some label ∨ type = .jdNull ∧ text = none →
      Propertied D a label true
        (((((D.set a .jdProperty none).bear l a none h1).bear v a none h2).set l type text).set v .jdNull none)

/-- `a` is a property with the label's node `l` and the null value `v`. -/
structure Labelled (D : Dom) (a l v : Addr) (label : Bytes) : Prop where
  kids : D.forest.kids a = [l, v]
  property : D.type a = .jdProperty ∧ D.text a = none
  label : D.forest.kids l = [] ∧ D.type l = .jdString ∧ D.text l = some label
  value : D.forest.kids v = [] ∧ D.type v = .jdNull ∧ D.text v = none

/-- The child that stands for a member: an element is its own value, a property has a label too. -/
def Stands (D : Dom) (x : Entry) : Kind → Prop
  | .arr => x.label = [] ∧ x.node = x.child
  | .obj => ∃ l, D.forest.kids x.child = [l, x.node] ∧ D.type x.child = .jdProperty ∧
      D.text x.child = none ∧ D.forest.kids l = [] ∧ D.type l = .jdString ∧ D.text l = some x.label

/-- The node `a` is the document `J`. -/
inductive Doc (D : Dom) : Addr → Json → Prop
  | scalar {a : Addr} {J : Json} : ¬ J.IsCollection → D.forest.kids a = [] → D.type a = J.type →
      D.text a = J.text → Doc D a J
  | coll {a : Addr} {k : Kind} {xs : List Entry} : (∀ x ∈ xs, Doc D x.node x.value) →
      (∀ x ∈ xs, D.Stands x k) → D.forest.kids a = xs.map Entry.child → D.type a = k.type →
      D.text a = none → Doc D a (k.build (xs.map Entry.pair))

/-- `D'` is `D` with the tree `t` of the document `J` as a new root. -/
structure Grafted (D : Dom) (t : OTree) (J : Json) (D' : Dom) : Prop where
  forest : D.forest.Grafted t D'.forest
  kept : ∀ x ∉ t.addrs, D'.type x = D.type x ∧ D'.text x = D.text x
  doc : D'.Doc t.addr J

section

variable {D : Dom} {a x : Addr} {type : JdType} {text : Option Bytes} {F : Forest}

@[simp] theorem set_forest : (D.set a type text).forest = D.forest := rfl

@[simp] theorem set_type_self : (D.set a type text).type a = type := Function.update_self _ _ _

@[simp] theorem set_text_self : (D.set a type text).text a = text := Function.update_self _ _ _

@[simp] theorem set_type_ne (h : x ≠ a) : (D.set a type text).type x = D.type x :=
  Function.update_of_ne h _ _

@[simp] theorem set_text_ne (h : x ≠ a) : (D.set a type text).text x = D.text x :=
  Function.update_of_ne h _ _

@[simp] theorem relink_forest : (D.relink F).forest = F := rfl

@[simp] theorem relink_type : (D.relink F).type = D.type := rfl

@[simp] theorem relink_text : (D.relink F).text = D.text := rfl

/-- What `Propertied` makes where no request is refused. -/
theorem labelled {l v : Addr} (ha : a ∈ D.forest.nodes) (hk : D.forest.kids a = [])
    (h1 : ((D.set a .jdProperty none).forest.add l).CanHang l a none)
    (h2 : (((D.set a .jdProperty none).bear l a none h1).forest.add v).CanHang v a none)
    (hl : l ∉ D.forest.nodes) (hv : v ∉ D.forest.nodes) (hlv : l ≠ v) (label : Bytes) :
    (((((D.set a .jdProperty none).bear l a none h1).bear v a none h2).set l .jdString (some label)).set v
      .jdNull none).Labelled a l v label := by
  have hal : a ≠ l := ne_of_mem_of_not_mem ha hl
  have hav : a ≠ v := ne_of_mem_of_not_mem ha hv
  have hkl := Forest.kids_fresh hl
  have hkv := Forest.kids_fresh hv
  constructor
  · simp [bear, Forest.hang, Forest.add, add, insertBefore, hk]
  · simp [bear, add, hal, hav]
  · simp [bear, Forest.hang, Forest.add, add, hal.symm, hlv, hkl]
  · simp [bear, Forest.hang, Forest.add, add, hav.symm, hkv]

end

end Dom

end JsonDom
