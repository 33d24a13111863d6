import JsonDom.Model.Node
import JsonDom.Model.ReadString

/-!
# Lengths in `int`, and strings at addresses

`char_bag_to_string` of `CharBag.c` and the functions of `jd_Node.c` that copy a string, once more: with
their `int`s as the source has them, and with the string where it stands. The parser and the calls of a
program are modelled with the functions of `JsonDom/Model/CharBag.lean` and `JsonDom/Model/Node.lean`,
which count in `Nat` and are handed the characters; these are the same where an `int` can hold the
length and no block is freed that the string is in (`JsonDom/Proof/Exact.lean`).
-/

namespace JsonDom

/-- A `size_t` stored in an `int`. -/
def intOf (n : Nat) : Int := (BitVec.ofNat 32 n).toInt

/-- A `const char *`: a string of the caller's, in memory that nothing here frees, or the characters of a
block from an offset on. -/
inductive CString
  | own (s : Bytes)
  | inBlock (q : Addr) (offset : Nat)
deriving DecidableEq, Repr

namespace CString

/-- The string is in the block at `p`. -/
def In (p : Ptr) : CString → Prop
  | own _ => False
  | inBlock q _ => p = some q

instance (p : Ptr) (str : CString) : Decidable (str.In p) := by
  cases str <;> unfold In <;> infer_instance

/-- The characters up to the NUL, where there is memory to read. -/
def chars (h : Lib.Store Cell) : CString → Option Bytes
  | own s => some (s.takeWhile (· ≠ 0))
  | inBlock q offset =>
    match h.get? q with
    | some (.text block) =>
      if (block.drop offset).contains 0 then some ((block.drop offset).takeWhile (· ≠ 0)) else none
    | _ => none

def read (str : CString) : M Bytes := fun w =>
  match str.chars w.heap with
  | some s => .ok (s, w)
  | none => .error .badAccess

end CString

namespace Exact

/-- Pass 1 of `char_bag_to_string`, from the leaf `l` on. -/
def countChars (charBag : CharBag) : Nat → Int → CharBagLeaf → M Int
  | 0, _, _ => halt .timeout
  | fuel + 1, charCount, l => do
    let charCount ← addInt charCount l.indexNextChar
    match l.next with
    | none => pure charCount
    | some a => do
      let next ← getLeaf charBag (some a)
      countChars charBag fuel charCount next

/-- `char_bag_to_string`. -/
def charBagToString (charBag : CharBag) : M Ptr := do
  let charCount ← fun w => countChars charBag (w.heap.size + 1) 0 charBag.rootLeaf w
  let size ← addInt charCount 1
  let buff ← malloc (.text (List.replicate size.toNat 0))
  match buff with
  | none => pure none
  | some a => do
    let s ← fun w => copyChars charBag (w.heap.size + 1) charBag.rootLeaf w
    cAssert ((s.length : Int) == charCount)
    store a (.text (s ++ [0]))
    pure (some a)

/-- `JReadString`. -/
def jReadString (handle : RSHandle) : M (Bool × RSHandle) := jReadString.whole charBagToString handle

/-- `jd_Node_copy_string`. A negative `len` is more bytes to `memcpy` than any block has. -/
def jdNodeCopyString (node : Ptr) (str : CString) : M Bool := do
  let _ ← jdNodeDiscardPayload node
  let s ← str.read
  let len := intOf s.length
  let _ ← addInt len 1
  let newPayload ← malloc (.text (s.take len.toNat ++ [0]))
  if newPayload.isSome then do
    if len < 0 then halt .badAccess
    modifyNode node fun n => { n with payload := newPayload }
    setType node .jdString
    pure true
  else pure false

/-- The converters to a number: copy the text, then set the type. -/
def jdNodeSetNumber (node : Ptr) (value : CString) (type : JdType) : M Bool := do
  if ← jdNodeCopyString node value then do
    setType node type
    pure true
  else pure false

/-- `jd_Node_set_integer`. -/
def jdNodeSetInteger (node : Ptr) (value : CString) : M Bool := jdNodeSetNumber node value .jdInteger

/-- `jd_Node_set_float`. -/
def jdNodeSetFloat (node : Ptr) (value : CString) : M Bool := jdNodeSetNumber node value .jdFloat

/-- `jd_Node_make_null_property`. -/
def jdNodeMakeNullProperty (node : Ptr) (label : CString) : M Bool := do
  let _ ← jdNodeDiscardPayload node
  let n ← getNode node
  if n.firstChild.isSome then jdNodeDestroyChildren node
  setType node .jdProperty
  let labelNode ← jdNodeCreate node none
  if labelNode.isSome then do
    let valueNode ← jdNodeCreate node none
    if valueNode.isSome then do
      let _ ← jdNodeCopyString labelNode label
      let _ ← jdNodeSetNull valueNode
      pure true
    else do
      jdNodeDestroyChildren node
      pure false
  else pure false

end Exact

end JsonDom
