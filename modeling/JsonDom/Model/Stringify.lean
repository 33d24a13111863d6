import JsonDom.Lib.Splice
import JsonDom.Model.Base

/-!
# `Stringify.c`

A buffer of a caller is a memory block of bytes; a write outside of it is an access C leaves
undefined. The global variable `jn_error` is handed back with the result.
-/

namespace JsonDom

open Lib

/-- `(int)n` of a `size_t`. -/
def toInt (n : Nat) : Int := (BitVec.ofNat 32 n).toInt

/-- `memcpy(buffer + off, src, n)`, where the bytes of the source are given; a negative `n` is an
enormous `size_t`. -/
def memcpy (buffer : Ptr) (off : Int) (src : Bytes) (n : Int) : M Unit := do
  match ← load buffer with
  | .text block =>
    if 0 ≤ off ∧ 0 ≤ n ∧ n ≤ src.length ∧ off + n ≤ block.length then
      store (buffer.getD 0) (.text (splice block off.toNat (src.take n.toNat)))
    else halt .badAccess
  | _ => halt .badAccess

/-- `buffer[i] = c`. -/
def putChar (buffer : Ptr) (i : Int) (c : UInt8) : M Unit := memcpy buffer i [c] 1

inductive JdNodeError
  | jneSuccess | jneFailure | jneNullNode | jneInvalidType | jneOutOfMemory | jneSmallBuffer
deriving DecidableEq, Repr

/-- A `const char*`: a string literal, or the pointer of a payload. -/
inductive CStr
  | literal (text : Bytes)
  | payload (p : Ptr)

/-- The characters of the string, `none` for `NULL`. -/
def CStr.read : CStr → M (Option Bytes)
  | literal text => pure (some text)
  | payload none => pure none
  | payload (some a) => do
    let text ← getString (some a)
    pure (some text)

/-- `jd_Node_stringify_generic`. -/
def jdNodeStringifyGeneric (node buffer : Ptr) (bufflen : Int) (type : JdType) (value : CStr) :
    M (Int × JdNodeError) :=
  if node = none then pure (0, .jneNullNode)
  else do
    let n ← getNode node
    if n.type ≠ type then pure (0, .jneInvalidType)
    else
      match ← value.read with
      | none => pure (0, .jneSuccess)
      | some value => do
        let retval := toInt (value.length + 1)
        if buffer.isSome ∧ 0 < bufflen then do
          let copylen := if bufflen < retval then bufflen - 1 else retval
          if 1 < copylen then memcpy buffer 0 (value ++ [0]) copylen
          putChar buffer copylen 0
        pure (retval, .jneSuccess)

/-- `jd_Node_stringify_null`. -/
def jdNodeStringifyNull (node buffer : Ptr) (bufflen : Int) : M (Int × JdNodeError) :=
  jdNodeStringifyGeneric node buffer bufflen .jdNull (.literal (cs "null"))

/-- `jd_Node_stringify_true`. -/
def jdNodeStringifyTrue (node buffer : Ptr) (bufflen : Int) : M (Int × JdNodeError) :=
  jdNodeStringifyGeneric node buffer bufflen .jdTrue (.literal (cs "true"))

/-- `jd_Node_stringify_false`. -/
def jdNodeStringifyFalse (node buffer : Ptr) (bufflen : Int) : M (Int × JdNodeError) :=
  jdNodeStringifyGeneric node buffer bufflen .jdFalse (.literal (cs "false"))

/-- The wrappers that take the text from the payload, without a look at `node` before. -/
def jdNodeStringifyPayload (node buffer : Ptr) (bufflen : Int) (type : JdType) :
    M (Int × JdNodeError) := do
  let n ← getNode node
  jdNodeStringifyGeneric node buffer bufflen type (.payload n.payload)

/-- `jd_Node_stringify_string`. -/
def jdNodeStringifyString (node buffer : Ptr) (bufflen : Int) : M (Int × JdNodeError) :=
  jdNodeStringifyPayload node buffer bufflen .jdString

/-- `jd_Node_stringify_integer`. -/
def jdNodeStringifyInteger (node buffer : Ptr) (bufflen : Int) : M (Int × JdNodeError) :=
  jdNodeStringifyPayload node buffer bufflen .jdInteger

/-- `jd_Node_stringify_float`. -/
def jdNodeStringifyFloat (node buffer : Ptr) (bufflen : Int) : M (Int × JdNodeError) :=
  jdNodeStringifyPayload node buffer bufflen .jdFloat

end JsonDom
