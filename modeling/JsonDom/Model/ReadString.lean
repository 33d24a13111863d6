import JsonDom.Model.CharBag

/-!
# `JReadString.c`
-/

namespace JsonDom

/-- `end_check_for_quoted`. -/
def endCheckForQuoted (chr : UInt8) : Bool := chr == ch '"'

/-- `end_check_for_unquoted`. -/
def endCheckForUnquoted (chr : UInt8) : Bool := isspace chr || strchr (cs ",]\x7d") chr

structure RSHandle where
  string : Ptr
  firstChar : UInt8
  endSignal : UInt8
  endCheck : UInt8 → Bool

/-- `ReadStringInit`. -/
def readStringInit (firstChar : UInt8) : RSHandle :=
  { string := none, firstChar := firstChar, endSignal := 0,
    endCheck := if firstChar = ch '"' then endCheckForQuoted else endCheckForUnquoted }

/-- `ReadStringDestroy`. -/
def readStringDestroy (handle : RSHandle) : M RSHandle := do
  free handle.string
  pure { handle with string := none }

/-- `StealReadString`: the string and the handle without it. -/
def stealReadString (handle : RSHandle) : Ptr × RSHandle :=
  (handle.string, { handle with string := none })

/-- The `while` loop of `JReadString`, with `toString` for `char_bag_to_string`; true is `goto cleanup`.
Every round but the last reads a byte, so the number of bytes left bounds the rounds. -/
def jReadString.loop (toString : CharBag → M Ptr) : Nat → RSHandle → CharBag → Bool → M (Bool × RSHandle × CharBag)
  | 0, _, _, _ => halt .timeout
  | fuel + 1, handle, cbag, escapeState => do
    match ← read with
    | .one chr =>
      if escapeState then do
        let (_, cbag) ← addCharToBag cbag (ch '\\')
        let (_, cbag) ← addCharToBag cbag chr
        jReadString.loop toString fuel handle cbag false
      else if chr = ch '\\' then jReadString.loop toString fuel handle cbag true
      else if handle.endCheck chr then do
        match ← toString cbag with
        | some value => pure (true, { handle with endSignal := chr, string := some value }, cbag)
        | none => jReadString.loop toString fuel handle cbag false
      else do
        let (_, cbag) ← addCharToBag cbag chr
        jReadString.loop toString fuel handle cbag false
    | _ => pure (false, handle, cbag)

/-- `JReadString` from the loop on. -/
def jReadString.rest (toString : CharBag → M Ptr) (handle : RSHandle) (cbag : CharBag) : M (Bool × RSHandle) := do
  let (found, handle, cbag) ← fun w => jReadString.loop toString (w.input.length + 1) handle cbag false w
  if found then do
    let _ ← charBagCleanup cbag
    pure (true, handle)
  else if handle.firstChar = ch '"' then do
    reportParseError "unexpected EOF"
    let _ ← charBagCleanup cbag
    pure (false, handle)
  else do
    let value ← toString cbag
    let _ ← charBagCleanup cbag
    match value with
    | some value => pure (true, { handle with string := some value })
    | none => pure (false, handle)

/-- `JReadString` with `toString` for `char_bag_to_string`. -/
def jReadString.whole (toString : CharBag → M Ptr) (handle : RSHandle) : M (Bool × RSHandle) := do
  -- prepend the first char if it is not the string-introducing quote
  let (_, cbag) ←
    if handle.firstChar ≠ ch '"' then addCharToBag initializeCharBag handle.firstChar
    else pure (true, initializeCharBag)
  jReadString.rest toString handle cbag

/-- `JReadString`. -/
def jReadString (handle : RSHandle) : M (Bool × RSHandle) := jReadString.whole charBagToString handle

end JsonDom
