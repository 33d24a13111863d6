import JsonDom.Model.Base

/-!
# Documents

What a tree of nodes stands for. Only the shapes a JSON document can have are values of `Json`: the
members of an object are pairs of a label and a value, and an element of an array has no label.
A string is the bytes between its quotes, a number its text.
-/

namespace JsonDom

inductive Json
  | null
  | true
  | false
  | str (s : Bytes)
  | int (s : Bytes)
  | float (s : Bytes)
  | arr (elems : List Json)
  | obj (members : List (Bytes × Json))

/-- The two kinds of collection. -/
inductive Kind
  | arr | obj
deriving DecidableEq, Repr

namespace Kind

def openChar : Kind → UInt8
  | arr => ch '['
  | obj => ch '{'

def closeChar : Kind → UInt8
  | arr => ch ']'
  | obj => ch '}'

/-- The collection of the given members; an array has no use for their labels. -/
def build : Kind → List (Bytes × Json) → Json
  | arr, ms => .arr (ms.map (·.2))
  | obj, ms => .obj ms

end Kind

namespace Json

/-- A value written without quotes and without brackets. -/
def IsBare : Json → Prop
  | null | true | false | int _ | float _ => True
  | _ => False

def IsCollection : Json → Prop
  | arr _ | obj _ => True
  | _ => False

def IsStr : Json → Prop
  | str _ => True
  | _ => False

instance : DecidablePred IsBare := fun J => by cases J <;> unfold IsBare <;> infer_instance

instance : DecidablePred IsCollection := fun J => by
  cases J <;> unfold IsCollection <;> infer_instance

theorem IsBare.not_str {J : Json} (h : J.IsBare) : ¬ J.IsStr := by
  cases J with
  | str => exact h.elim
  | _ => exact id

theorem IsCollection.not_str {J : Json} (h : J.IsCollection) : ¬ J.IsStr := by
  cases J with
  | arr | obj => exact id
  | _ => exact h.elim

theorem IsCollection.not_bare {J : Json} (h : J.IsCollection) : ¬ J.IsBare := by
  cases J with
  | arr | obj => exact id
  | _ => exact h.elim

/-- The type of the node that stands for a value. -/
def type : Json → JdType
  | null => .jdNull
  | true => .jdTrue
  | false => .jdFalse
  | str _ => .jdString
  | int _ => .jdInteger
  | float _ => .jdFloat
  | arr _ => .jdArray
  | obj _ => .jdObject

/-- The text in the payload of that node. -/
def text : Json → Option Bytes
  | str s | int s | float s => some s
  | _ => none

end Json

namespace Kind

@[simp] theorem build_isCollection (k : Kind) (ms : List (Bytes × Json)) :
    (k.build ms).IsCollection := by
  cases k <;> trivial

@[simp] theorem build_not_bare (k : Kind) (ms : List (Bytes × Json)) : ¬ (k.build ms).IsBare := by
  cases k <;> exact id

end Kind

end JsonDom
