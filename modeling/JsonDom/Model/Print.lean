import JsonDom.Model.Base

/-!
# `jd_Node.c`: printing the tree

`printf` appends to the standard output. The printers run on a fuel argument, as the parser does:
they follow child and sibling pointers, and on pointers that run in a circle they do not end.
-/

namespace JsonDom

def printf (s : Bytes) : M Unit := fun w => .ok ((), { w with stdout := w.stdout ++ s })

/-- `"\n%*c"` with the arguments `indent` and `' '`: at least one blank. -/
def newline (indent : Int) : Bytes := ch '\n' :: List.replicate (max indent.toNat 1) (ch ' ')

/-- What a printer puts in front of its text. -/
def lead (indent : Int) : Bytes := if indent < 0 then [] else newline indent

/-- `assert(node && node->type==type)` and the node. -/
def expectType (node : Ptr) (type : JdType) : M JdNode := do
  cAssert node.isSome
  let n ← getNode node
  cAssert (n.type == type)
  pure n

/-- The printers of the keywords. -/
def printKeyword (type : JdType) (text : Bytes) (node : Ptr) (indent : Int) : M Unit := do
  let _ ← expectType node type
  printf (lead indent ++ text)

/-- `jd_Node_print_null`. -/
def jdNodePrintNull : Ptr → Int → M Unit := printKeyword .jdNull (cs "null")

/-- `jd_Node_print_true`. -/
def jdNodePrintTrue : Ptr → Int → M Unit := printKeyword .jdTrue (cs "true")

/-- `jd_Node_print_false`. -/
def jdNodePrintFalse : Ptr → Int → M Unit := printKeyword .jdFalse (cs "false")

/-- The printers of a payload; `quote` is what stands on both sides of it. -/
def printPayload (type : JdType) (quote : Bytes) (node : Ptr) (indent : Int) : M Unit := do
  let n ← expectType node type
  let s ← getString n.payload
  printf (lead indent ++ quote ++ s ++ quote)

/-- `jd_Node_print_string`. -/
def jdNodePrintString : Ptr → Int → M Unit := printPayload .jdString [ch '"']

/-- `jd_Node_print_integer`. -/
def jdNodePrintInteger : Ptr → Int → M Unit := printPayload .jdInteger []

/-- `jd_Node_print_float`. -/
def jdNodePrintFloat : Ptr → Int → M Unit := printPayload .jdFloat []

mutual

/-- `(*jNode_printers[type])(node, indent)`. -/
def jNodePrinters : Nat → JdType → Ptr → Int → M Unit
  | 0, _, _, _ => halt .timeout
  | fuel + 1, type, node, indent =>
    match type with
    | .jdNull => jdNodePrintNull node indent
    | .jdTrue => jdNodePrintTrue node indent
    | .jdFalse => jdNodePrintFalse node indent
    | .jdString => jdNodePrintString node indent
    | .jdInteger => jdNodePrintInteger node indent
    | .jdFloat => jdNodePrintFloat node indent
    | .jdArray => jdNodePrintArray fuel node indent
    | .jdProperty => jdNodePrintProperty fuel node indent
    | .jdObject => jdNodePrintObject fuel node indent

/-- `jd_Node_print_array`. -/
def jdNodePrintArray : Nat → Ptr → Int → M Unit
  | 0, _, _ => halt .timeout
  | fuel + 1, node, indent => printCollection fuel .jdArray (ch '[') (ch ']') node indent

/-- `jd_Node_print_object`. -/
def jdNodePrintObject : Nat → Ptr → Int → M Unit
  | 0, _, _ => halt .timeout
  | fuel + 1, node, indent => printCollection fuel .jdObject (ch '{') (ch '}') node indent

/-- The printers of collections. -/
def printCollection : Nat → JdType → UInt8 → UInt8 → Ptr → Int → M Unit
  | 0, _, _, _, _, _ => halt .timeout
  | fuel + 1, type, openChar, closeChar, node, indent => do
    let n ← expectType node type
    printf (lead indent ++ [openChar])
    let subindent ← if indent < 0 then pure indent else addInt indent 4
    printChildren fuel n.firstChild subindent
    printf (lead indent ++ [closeChar])

/-- The `while (child)` loop of a collection's printer. -/
def printChildren : Nat → Ptr → Int → M Unit
  | _, none, _ => pure ()
  | 0, some _, _ => halt .timeout
  | fuel + 1, some a, subindent => do
    let c ← getNode (some a)
    jNodePrinters fuel c.type (some a) subindent
    let c ← getNode (some a)
    if c.nextSibling.isSome then printf [ch ',']
    printChildren fuel c.nextSibling subindent

/-- `jd_Node_print_property`. -/
def jdNodePrintProperty : Nat → Ptr → Int → M Unit
  | 0, _, _ => halt .timeout
  | fuel + 1, node, indent => do
    let n ← expectType node .jdProperty
    cAssert n.firstChild.isSome
    let first ← getNode n.firstChild
    cAssert (first.type == .jdString)
    cAssert (first.nextSibling == n.lastChild)
    let label ← getString first.payload
    let value ← getNode n.lastChild
    printf (lead indent ++ [ch '"'] ++ label ++ [ch '"', ch ':'])
    if indent < 0 then jNodePrinters fuel value.type n.lastChild indent
    else if JdType.jdArray.toNat ≤ value.type.toNat then do
      let indent ← addInt indent 4
      jNodePrinters fuel value.type n.lastChild indent
    else jNodePrinters fuel value.type n.lastChild (-1)

end

/-- `jd_Node_serialize`. -/
def jdNodeSerialize (fuel : Nat) (node : Ptr) (indent : Int) : M Unit := do
  let n ← getNode node
  jNodePrinters fuel n.type node indent
  printf [ch '\n']

/-- `jd_serialize`. Nothing uses `jd_out`: the text goes to the standard output. -/
def jdSerialize (fuel : Nat) (_jdOut : Int) (node : Ptr) : M Unit := jdNodeSerialize fuel node 0

end JsonDom
