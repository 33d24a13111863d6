import JsonDom.Model.Base

/-!
# The relations and the type of a node in `jsondom.c`
-/

namespace JsonDom

/-- `TypeNames`. -/
def typeNames : JdType → Bytes
  | .jdNull => cs "null"
  | .jdTrue => cs "true"
  | .jdFalse => cs "false"
  | .jdString => cs "string"
  | .jdInteger => cs "integer"
  | .jdFloat => cs "float"
  | .jdArray => cs "array"
  | .jdProperty => cs "property"
  | .jdObject => cs "object"

/-- `((jd_Node**)node)[relation]`: the links are the first fields of a node. -/
def JdNode.link (n : JdNode) : Nat → Ptr
  | 0 => n.parent
  | 1 => n.nextSibling
  | 2 => n.firstChild
  | 3 => n.prevSibling
  | _ => n.lastChild

/-- `jd_get_relation`; `relation` is what the enumeration is as an `unsigned int`. -/
def jdGetRelation (node : Ptr) (relation : Nat) : M Ptr := do
  if node.isSome && decide (relation ≤ 4) then do
    let n ← getNode node
    pure (n.link relation)
  else pure none

/-- The getters of one relation. -/
def getRelative (field : JdNode → Ptr) (node : Ptr) : M Ptr := do
  if node.isSome then do
    let n ← getNode node
    if (field n).isSome then pure (field n) else pure none
  else pure none

namespace Getter

/-- `parent`. -/
def parent : Ptr → M Ptr := getRelative JdNode.parent

/-- `nextSibling`. -/
def nextSibling : Ptr → M Ptr := getRelative JdNode.nextSibling

/-- `prevSibling`. -/
def prevSibling : Ptr → M Ptr := getRelative JdNode.prevSibling

/-- `firstChild`. -/
def firstChild : Ptr → M Ptr := getRelative JdNode.firstChild

/-- `lastChild`. -/
def lastChild : Ptr → M Ptr := getRelative JdNode.lastChild

end Getter

/-- `jd_id_type`, as an `int`. -/
def jdIdType (node : Ptr) : M Int := do
  if node.isSome then do
    let n ← getNode node
    pure n.type.toNat
  else pure (-1)

/-- `jd_id_name`. -/
def jdIdName (node : Ptr) : M Bytes := do
  if node.isSome then do
    let n ← getNode node
    pure (typeNames n.type)
  else pure (cs "nonode")

/-- `jd_generic_value`. -/
def jdGenericValue (node : Ptr) : M Ptr := do
  if node.isSome then do
    let n ← getNode node
    pure n.payload
  else pure none

end JsonDom
