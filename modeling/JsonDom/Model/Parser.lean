import JsonDom.Model.ReadString
import JsonDom.Model.Number
import JsonDom.Model.Node

/-!
# `JParser.c` and the parsing part of `jsondom.c`

The three mutually recursive functions and their loops run on one fuel argument, spent by every
call and every round of a loop; a run that never ends is one that stops in `Halt.timeout` for every
fuel. An `end_signal` is `none` for a `NULL` pointer and otherwise the character it points to.
-/

namespace JsonDom

/-- The two instances of `CollectionTools`. -/
inductive CollectionTools
  | arrayTools | objectTools
deriving DecidableEq, Repr

namespace CollectionTools

/-- The field `end_char`. -/
def endChar : CollectionTools → UInt8
  | arrayTools => ch ']'
  | objectTools => ch '}'

/-- `Array_IsEndChar`, `Object_IsEndChar`. -/
def isEndChar (tools : CollectionTools) (chr : UInt8) : Bool := chr == tools.endChar

/-- `Array_CoerceType`, `Object_CoerceType`. -/
def coerceType : CollectionTools → Ptr → M Bool
  | arrayTools, node => jdNodeMakeArray node
  | objectTools, node => jdNodeMakeObject node

end CollectionTools

/-- The whitespace loop of `JParser`: the first other character, `none` at EOF. After a read error
`chr` still holds the blank that got the loop here. -/
def skipSpace : Nat → UInt8 → M (Option UInt8)
  | 0, _ => halt .timeout
  | fuel + 1, chr =>
    if isspace chr then do
      match ← read with
      | .one chr => skipSpace fuel chr
      | .zero => do
        reportParseError "unexpected end-of-file"
        pure none
      | .minusOne => skipSpace fuel chr
    else pure (some chr)

/-- The type and value of an unquoted scalar, in the `else` of `if (chr == '"')`; the result is
`retval`. -/
def setUnquoted (tempNode string : Ptr) : M Bool := do
  let str ← getString string
  if str = cs "null" then do
    let _ ← jdNodeSetNull tempNode
    pure true
  else if str = cs "true" then do
    let _ ← jdNodeSetTrue tempNode
    pure true
  else if str = cs "false" then do
    let _ ← jdNodeSetFalse tempNode
    pure true
  else if strchr (cs "0123456789.-+") (charAt str) then
    if (isJsonNumber str).1 then do
      if (isJsonNumber str).2 then do
        let _ ← jdNodeSetFloat tempNode str
      else do
        let _ ← jdNodeSetInteger tempNode str
      pure true
    else do
      reportParseError "invalid number"
      pure false
  else do
    reportParseError "unquoted values must be keywords or numbers"
    pure false

/-- The `default` branch of `JParser`'s `switch`: `retval`, `*node` and the end signal. -/
def parseScalar (parent : Ptr) (chr : UInt8) (endSignal : Option UInt8) :
    M (Bool × Ptr × Option UInt8) := do
  let (ok, rsh) ← jReadString (readStringInit chr)
  if ok then do
    let endSignal := endSignal.map fun _ => rsh.endSignal
    let tempNode ← jdNodeCreate none none
    if tempNode.isSome then do
      let retval ←
        if chr = ch '"' then do
          let _ ← jdNodeTakeString tempNode (stealReadString rsh).1
          pure true
        else setUnquoted tempNode rsh.string
      if retval then do
        if parent.isSome then jdNodeAdopt tempNode parent none
        pure (true, tempNode, endSignal)
      else do
        let _ ← jdNodeDestroy tempNode
        pure (false, none, endSignal)
    else pure (true, none, endSignal)
  else do
    let _ ← readStringDestroy rsh
    pure (false, none, endSignal)

/-- How the loop of `parse_collection` is left: by `goto early_exit`, or with a `retval`. -/
inductive LoopExit
  | earlyExit
  | done (retval : Bool)
deriving DecidableEq, Repr

/-- The property node of a member: the tail of `Object_ReadMember`'s loop after its `JParser`
returned true. The result is the property node, `none` where the member fails. -/
def buildProperty (parent valueNode label : Ptr) : M (Ptr × Ptr) := do
  let propNode ← jdNodeCreate parent none
  if propNode.isSome then do
    setType propNode .jdProperty
    let labelNode ← jdNodeCreate propNode none
    if labelNode.isSome then do
      let _ ← jdNodeTakeString labelNode label
      jdNodeAdopt valueNode propNode none
      pure (propNode, none)
    else do
      let _ ← jdNodeDestroy propNode
      pure (none, label)
  else pure (none, label)

mutual

/-- `JParser`: the result, `*node` and `*end_signal`. -/
def jParser : Nat → Ptr → Ptr → UInt8 → Option UInt8 → M (Bool × Ptr × Option UInt8)
  | 0, _, _, _, _ => halt .timeout
  | fuel + 1, parent, node, firstChar, endSignal => do
    match ← skipSpace fuel (if firstChar ≠ 0 then firstChar else ch ' ') with
    | none => pure (false, node, endSignal)
    | some chr =>
      if chr = ch '[' then do
        let (ok, newNode) ← parseCollection fuel parent .arrayTools none
        if ok then pure (true, newNode, endSignal) else pure (false, node, endSignal)
      else if chr = ch '{' then do
        let (ok, newNode) ← parseCollection fuel parent .objectTools none
        if ok then pure (true, newNode, endSignal) else pure (false, node, endSignal)
      else parseScalar parent chr endSignal

/-- `parse_collection`: the result and `*node`. Nothing sets `collection_terminated`, so the report
behind the loop is made on every way out but `early_exit`. -/
def parseCollection : Nat → Ptr → CollectionTools → Ptr → M (Bool × Ptr)
  | 0, _, _, _ => halt .timeout
  | fuel + 1, parent, tools, node => do
    let newNode ← jdNodeCreate none none
    if newNode.isSome then do
      if ← tools.coerceType newNode then do
        match ← parseCollection.loop fuel tools newNode false with
        | .earlyExit => do
          let _ ← jdNodeDestroy newNode
          pure (false, node)
        | .done true => do
          if parent.isSome then jdNodeAdopt newNode parent none
          reportParseError "unterminated collection"
          pure (true, newNode)
        | .done false => do
          reportParseError "unterminated collection"
          let _ ← jdNodeDestroy newNode
          pure (false, node)
      else do
        reportParseError "unterminated collection"
        let _ ← jdNodeDestroy newNode
        pure (false, node)
    else do
      reportParseError "unterminated collection"
      pure (false, node)

/-- The `while` loop of `parse_collection`. -/
def parseCollection.loop : Nat → CollectionTools → Ptr → Bool → M LoopExit
  | 0, _, _, _ => halt .timeout
  | fuel + 1, tools, newNode, needsMember => do
    match ← read with
    | .one chr =>
      if isspace chr then parseCollection.loop fuel tools newNode needsMember
      else if needsMember then
        if chr = ch ',' then do
          reportParseError "comma in collection without preceeding member"
          pure .earlyExit
        else parseCollection.member fuel tools newNode chr
      else if tools.isEndChar chr then
        if needsMember then do
          reportParseError "collection prematurely terminated"
          pure .earlyExit
        else pure (.done true)
      else if chr = ch ']' || chr = ch '}' then do
        reportParseError "incorrect end char for the collection type"
        pure .earlyExit
      else do
        let n ← getNode newNode
        if chr = ch ',' then
          if n.firstChild = none then do
            reportParseError "comma in collection without preceeding member"
            pure .earlyExit
          else parseCollection.loop fuel tools newNode true
        else if n.firstChild ≠ none then do
          reportParseError "missing comma between collection members"
          pure .earlyExit
        else parseCollection.member fuel tools newNode chr
    | _ => pure (.done false)

/-- The part of the loop that reads a member starting with `chr`. -/
def parseCollection.member : Nat → CollectionTools → Ptr → UInt8 → M LoopExit
  | 0, _, _, _ => halt .timeout
  | fuel + 1, tools, newNode, chr => do
    let (ok, _, endSignal) ← readMember fuel tools newNode none chr (some 0)
    let endChar := endSignal.getD 0
    if ok then
      if endChar = ch ',' then parseCollection.loop fuel tools newNode true
      else if tools.isEndChar endChar then pure (.done true)
      else if (endChar = ch '"' && chr = ch '"') || endChar = 0 || isspace endChar then
        parseCollection.loop fuel tools newNode false
      else do
        reportParseError "unexpected member end char"
        pure .earlyExit
    else pure .earlyExit

/-- The field `read_member`: `Array_ReadMember` is `JParser`. -/
def readMember : Nat → CollectionTools → Ptr → Ptr → UInt8 → Option UInt8 →
    M (Bool × Ptr × Option UInt8)
  | 0, _, _, _, _, _ => halt .timeout
  | fuel + 1, .arrayTools, parent, newNode, firstChar, endSignal =>
    jParser fuel parent newNode firstChar endSignal
  | fuel + 1, .objectTools, parent, newNode, firstChar, endSignal =>
    objectReadMember fuel parent newNode firstChar endSignal

/-- `Object_ReadMember`. -/
def objectReadMember : Nat → Ptr → Ptr → UInt8 → Option UInt8 → M (Bool × Ptr × Option UInt8)
  | 0, _, _, _, _ => halt .timeout
  | fuel + 1, parent, newNode, firstChar, endSignal => do
    if firstChar ≠ ch '"' then do
      reportParseError "labels must be double-quoted"
      pure (false, newNode, endSignal)
    else do
      let (ok, rshLabel) ← jReadString (readStringInit firstChar)
      if ok then do
        let (result, string) ← objectReadMember.loop fuel parent newNode endSignal rshLabel.string false
        let _ ← readStringDestroy { rshLabel with string := string }
        pure result
      else do
        let _ ← readStringDestroy rshLabel
        pure (false, newNode, endSignal)

/-- The `while` loop of `Object_ReadMember` and the test of `bytes_read` behind it: the result of
the function and the label string still held by the handle. -/
def objectReadMember.loop : Nat → Ptr → Ptr → Option UInt8 → Ptr → Bool →
    M ((Bool × Ptr × Option UInt8) × Ptr)
  | 0, _, _, _, _, _ => halt .timeout
  | fuel + 1, parent, newNode, endSignal, label, pastColon => do
    match ← read with
    | .one chr =>
      if isspace chr then objectReadMember.loop fuel parent newNode endSignal label pastColon
      else if chr = ch ':' then objectReadMember.loop fuel parent newNode endSignal label true
      else if pastColon then do
        let (ok, valueNode, tempEndSignal) ← jParser fuel none none chr (some 0)
        if ok then do
          let (propNode, label) ← buildProperty parent valueNode label
          if propNode.isSome then
            pure ((true, propNode, endSignal.map fun _ => tempEndSignal.getD 0), label)
          else pure ((false, newNode, endSignal), label)
        else pure ((false, newNode, endSignal), label)
      else do
        reportParseError "colons must follow labels"
        pure ((false, newNode, endSignal), label)
    | .zero => do
      reportParseError "unexpected end-of-file"
      pure ((false, newNode, endSignal), label)
    | .minusOne => pure ((false, newNode, endSignal), label)

end

/-- The loop of `confirm_no_further_file_content`. -/
def confirmNoFurtherFileContent.loop : Nat → M Bool
  | 0 => halt .timeout
  | fuel + 1 => do
    match ← read with
    | .one chr => if isspace chr then confirmNoFurtherFileContent.loop fuel else pure false
    | _ => pure true

/-- `confirm_no_further_file_content`. Every round but the last reads a byte. -/
def confirmNoFurtherFileContent : M Bool :=
  fun w => confirmNoFurtherFileContent.loop (w.input.length + 1) w

/-- `jd_parse_file`: the result and `*new_tree`. -/
def jdParseFile (fuel : Nat) : M (Bool × Ptr) := do
  let (retval, node, _) ← jParser fuel none none 0 none
  if retval then do
    if ← confirmNoFurtherFileContent then pure (true, node)
    else do
      reportParseError "forbidden characters following singleton root object"
      let _ ← jdNodeDestroy node
      pure (false, none)
  else pure (false, none)

/-- `jd_destroy`: `node` is the address of the caller's variable, and the cast makes the local
variable that holds it look like the caller's. -/
def jdDestroy (node : Ptr) : M Unit := do
  let _ ← jdNodeDestroy node
  pure ()

end JsonDom
