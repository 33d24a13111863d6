import JsonDom.Lib.Position
import JsonDom.Model.Viewer
import JsonDom.Spec.Tree

/-!
# What the viewer shows of a document

`J.view` is the tree of the nodes of a document with what is shown of each. The viewer stands at a position in
it; a key moves it to a neighbouring one if there is one (`View.go`), and `View.screens` is what is printed
for a sequence of keys.
-/

namespace JsonDom

open Lib

/-- A tree of nodes with their types and the texts they show. -/
inductive View
  | node (type : JdType) (text : Bytes) (kids : List View)

namespace View

def type : View → JdType
  | node type _ _ => type

def text : View → Bytes
  | node _ text _ => text

def kids : View → List View
  | node _ _ vs => vs

/-- The subtree at a position. -/
def get? (V : View) : List Nat → Option View
  | [] => some V
  | i :: pos => (V.get? pos).bind fun v => v.kids[i]?

end View

mutual

def Json.view : Json → View
  | .null => .node .jdNull (cs "null") []
  | .true => .node .jdTrue (cs "true") []
  | .false => .node .jdFalse (cs "false") []
  | .str s => .node .jdString s []
  | .int s => .node .jdInteger s []
  | .float s => .node .jdFloat s []
  | .arr xs => .node .jdArray (cs "*array*") (viewElems xs)
  | .obj ms => .node .jdObject (cs "*object*") (viewMembers ms)

def viewElems : List Json → List View
  | [] => []
  | J :: xs => J.view :: viewElems xs

def viewMembers : List (Bytes × Json) → List View
  | [] => []
  | m :: ms => viewMember m :: viewMembers ms

/-- A property shows its label and what its value shows. -/
def viewMember : Bytes × Json → View
  | (label, J) => .node .jdProperty (label ++ [ch ':'] ++ J.view.text) [.node .jdString label [], J.view]

end

/-- What is shown of a member of a collection. -/
def Kind.view : Kind → Bytes × Json → View
  | .arr, m => m.2.view
  | .obj, m => viewMember m

/-- What a collection shows. -/
def Kind.word : Kind → Bytes
  | .arr => cs "*array*"
  | .obj => cs "*object*"

theorem view_build (k : Kind) (ms : List (Bytes × Json)) :
    (k.build ms).view = .node k.type k.word (ms.map k.view) := by
  cases k with
  | arr =>
    rw [Kind.build, Json.view, View.node.injEq]
    refine ⟨rfl, rfl, ?_⟩
    induction ms with
    | nil => rw [List.map_nil, viewElems]; rfl
    | cons m ms ih => rw [List.map_cons, viewElems, ih]; rfl
  | obj =>
    rw [Kind.build, Json.view, View.node.injEq]
    refine ⟨rfl, rfl, ?_⟩
    induction ms with
    | nil => rw [viewMembers]; rfl
    | cons m ms ih => rw [viewMembers, ih]; rfl

/-! ## Moving -/

/-- The move a key is for. -/
def moveOf (key : Bytes) : Option Move :=
  if key = keyUp then some .up
  else if key = keyRight then some .next
  else if key = keyDown then some .first
  else if key = keyLeft then some .prev
  else none

namespace View

/-- The position a move leads to, if there is a node at it. -/
def go (V : View) (pos : List Nat) (m : Move) : Option (List Nat) :=
  (m.pos pos).filter fun pos' => (V.get? pos').isSome

/-- The position behind the keys: `q` is the last one that counts. -/
def walk (V : View) : List Nat → List Bytes → List Nat
  | pos, [] => pos
  | pos, key :: keys =>
    if key = cs "q" then pos
    else
      match (moveOf key).bind (V.go pos) with
      | some pos' => V.walk pos' keys
      | none => V.walk pos keys

/-- The screen at a position. -/
def screen (V : View) (pos : List Nat) : Bytes :=
  match V.get? pos with
  | some v =>
    let can := fun m => (V.go pos m).isSome
    clearScreen ++ contextMap (can .up) (can .next) (can .first) (can .prev) ++
      detail (cs "Type:  ") (typeNames v.type) ++ detail (cs "Value: ") v.text ++ usage
  | none => []

/-- The screens the keys lead to. -/
def screens (V : View) : List Nat → List Bytes → Bytes
  | _, [] => []
  | pos, key :: keys =>
    if key = cs "q" then []
    else
      match (moveOf key).bind (V.go pos) with
      | some pos' => V.screen pos' ++ V.screens pos' keys
      | none => V.screens pos keys

end View

example : (Json.obj [(cs "a", .null)]).view.walk [] [keyDown, keyDown, keyLeft, keyRight, cs "q", keyUp] =
    [1, 0] := by
  decide

end JsonDom
