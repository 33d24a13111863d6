import JsonDom.Model.Base

/-!
# `jd_Node.c`: building and changing the tree
-/

namespace JsonDom

/-- `jd_Node_emancipate`. -/
def jdNodeEmancipate (node : Ptr) : M Unit := do
  let n ← getNode node
  if n.parent.isSome then do
    let p ← getNode n.parent
    if p.firstChild = node then modifyNode n.parent fun p => { p with firstChild := n.nextSibling }
    let p ← getNode n.parent
    if p.lastChild = node then modifyNode n.parent fun p => { p with lastChild := n.prevSibling }
    modifyNode node fun n => { n with parent := none }
    if n.nextSibling.isSome then
      modifyNode n.nextSibling fun s => { s with prevSibling := n.prevSibling }
    if n.prevSibling.isSome then
      modifyNode n.prevSibling fun s => { s with nextSibling := n.nextSibling }
    modifyNode node fun n => { n with nextSibling := none, prevSibling := none }

/-- `jd_Node_adopt`. -/
def jdNodeAdopt (adoptee parent before : Ptr) : M Unit := do
  cAssert (parent.isSome && adoptee.isSome)
  let n ← getNode adoptee
  cAssert (n.parent == none)
  cAssert (n.prevSibling == none)
  cAssert (n.nextSibling == none)
  modifyNode adoptee fun n => { n with parent := parent }
  if before.isSome then do
    let b ← getNode before
    cAssert (b.parent == parent)
    if b.prevSibling.isSome then do
      modifyNode adoptee fun n => { n with prevSibling := b.prevSibling }
      modifyNode b.prevSibling fun n => { n with nextSibling := adoptee }
    else modifyNode parent fun n => { n with firstChild := adoptee }
    modifyNode adoptee fun n => { n with nextSibling := before }
    modifyNode before fun n => { n with prevSibling := adoptee }
  else do
    let p ← getNode parent
    if p.lastChild.isSome then do
      modifyNode adoptee fun n => { n with prevSibling := p.lastChild }
      modifyNode p.lastChild fun n => { n with nextSibling := adoptee }
      modifyNode parent fun n => { n with lastChild := adoptee }
    else modifyNode parent fun n => { n with firstChild := adoptee, lastChild := adoptee }

/-- A node after `memset(node, 0, sizeof(jd_Node))` and `node->type = JD_NULL`. -/
def newNode : JdNode :=
  { parent := none, nextSibling := none, firstChild := none, prevSibling := none, lastChild := none,
    type := .jdNull, payload := none }

/-- `jd_Node_create`: the result and `*new_node`, `none` where it is left alone. -/
def jdNodeCreate (parent before : Ptr) : M Ptr := do
  let node ← malloc (.node newNode)
  if node.isSome then do
    if parent.isSome then jdNodeAdopt node parent before
    pure node
  else pure none

/-- `jd_Node_destroy` on a pointer variable holding `node`; the result is what it holds then. -/
def jdNodeDestroy.run : Nat → Ptr → M Ptr
  | _, none => pure none
  | 0, some _ => halt .timeout
  | fuel + 1, some a => do
    let n ← getNode (some a)
    if n.firstChild.isSome then do
      let child ← jdNodeDestroy.run fuel n.firstChild
      modifyNode (some a) fun n => { n with firstChild := child }
    let n ← getNode (some a)
    if n.nextSibling.isSome then do
      let next ← jdNodeDestroy.run fuel n.nextSibling
      modifyNode (some a) fun n => { n with nextSibling := next }
    let n ← getNode (some a)
    free n.payload
    free (some a)
    pure none

/-- `jd_Node_destroy`; a recursion deeper than the number of cells does not end. -/
def jdNodeDestroy (node : Ptr) : M Ptr := fun w => jdNodeDestroy.run w.heap.size node w

/-- `jd_Node_discard_payload`. -/
def jdNodeDiscardPayload (node : Ptr) : M Bool := do
  let n ← getNode node
  if n.payload.isSome then do
    free n.payload
    modifyNode node fun n => { n with payload := none }
  pure true

def setType (node : Ptr) (type : JdType) : M Unit := modifyNode node fun n => { n with type := type }

/-- The converters to a type without payload: discard the payload, set the type. -/
def jdNodeSetPlain (node : Ptr) (type : JdType) : M Bool := do
  let _ ← jdNodeDiscardPayload node
  setType node type
  pure true

/-- `jd_Node_set_null`. -/
def jdNodeSetNull (node : Ptr) : M Bool := jdNodeSetPlain node .jdNull

/-- `jd_Node_set_true`. -/
def jdNodeSetTrue (node : Ptr) : M Bool := jdNodeSetPlain node .jdTrue

/-- `jd_Node_set_false`. -/
def jdNodeSetFalse (node : Ptr) : M Bool := jdNodeSetPlain node .jdFalse

/-- `jd_Node_make_array`. -/
def jdNodeMakeArray (node : Ptr) : M Bool := jdNodeSetPlain node .jdArray

/-- `jd_Node_make_object`. -/
def jdNodeMakeObject (node : Ptr) : M Bool := jdNodeSetPlain node .jdObject

/-- `jd_Node_take_string`. -/
def jdNodeTakeString (node str : Ptr) : M Bool := do
  let _ ← jdNodeDiscardPayload node
  modifyNode node fun n => { n with payload := str }
  setType node .jdString
  pure true

/-- `jd_Node_copy_string` of the C string `str`, in no block that the call frees and short enough for an
`int`; of any string it is `Exact.jdNodeCopyString`. -/
def jdNodeCopyString (node : Ptr) (str : Bytes) : M Bool := do
  let _ ← jdNodeDiscardPayload node
  let newPayload ← malloc (.text (str ++ [0]))
  if newPayload.isSome then do
    modifyNode node fun n => { n with payload := newPayload }
    setType node .jdString
    pure true
  else pure false

/-- The converters to a number: copy the text, then set the type. -/
def jdNodeSetNumber (node : Ptr) (value : Bytes) (type : JdType) : M Bool := do
  if ← jdNodeCopyString node value then do
    setType node type
    pure true
  else pure false

/-- `jd_Node_set_integer`. -/
def jdNodeSetInteger (node : Ptr) (value : Bytes) : M Bool := jdNodeSetNumber node value .jdInteger

/-- `jd_Node_set_float`. -/
def jdNodeSetFloat (node : Ptr) (value : Bytes) : M Bool := jdNodeSetNumber node value .jdFloat

/-- `jd_Node_array_insert_element`. -/
def jdNodeArrayInsertElement (array newElement elementBefore : Ptr) : M Bool := do
  let n ← getNode array
  cAssert (n.type == .jdArray)
  jdNodeAdopt newElement array elementBefore
  pure true

/-- `jd_Node_destroy(&node->firstChild)`. -/
def jdNodeDestroyChildren (node : Ptr) : M Unit := do
  let n ← getNode node
  let child ← jdNodeDestroy n.firstChild
  modifyNode node fun n => { n with firstChild := child }

/-- `jd_Node_make_null_property`. -/
def jdNodeMakeNullProperty (node : Ptr) (label : Bytes) : M Bool := do
  let _ ← jdNodeDiscardPayload node
  let n ← getNode node
  if n.firstChild.isSome then jdNodeDestroyChildren node
  setType node .jdProperty
  let labelNode ← jdNodeCreate node none
  if labelNode.isSome then do
    let valueNode ← jdNodeCreate node none
    if valueNode.isSome then do
      let _ ← jdNodeCopyString labelNode label
      let _ ← jdNodeSetNull valueNode
      pure true
    else do
      jdNodeDestroyChildren node
      pure false
  else pure false

end JsonDom
