import JsonDom.Spec.Reader

/-!
# The parser as an automaton

`Scan` is where the parser stands between two bytes: what it reads next (`Mode`) and which
collections are open. There is no recursion and no fuel in it, so `Scan.verdict` says of every
document what becomes of it: it is accepted, a check fails at a position, or the parser reads for
ever. `JsonDom/Proof/Scan.lean` shows that the reader comes to the same verdict.
-/

namespace JsonDom

/-- What a string is: a label, or a value in a member that began with `chr`. -/
inductive Quote
  | label
  | value (chr : UInt8)
deriving DecidableEq, Repr

/-- What the parser reads next. -/
inductive Mode
  /-- The whitespace loop in front of a value. -/
  | blank
  /-- A separator, a bracket or a member; whether there are members, and whether one is due. -/
  | items (has needs : Bool)
  | quoted (q : Quote) (esc : Bool)
  | bare (esc : Bool) (text : Bytes)
  /-- Between a label and its value. -/
  | colon (past : Bool)
  /-- Behind the root value. -/
  | tail
  | reject (c : Check)
deriving DecidableEq, Repr

/-- The mode, the open collections from the inside out, the number of bytes read, and how many had
been read when the last collection ended. -/
structure Scan where
  mode : Mode
  stack : List Kind
  offset : Nat
  lastEnd : Option Nat
deriving DecidableEq, Repr

/-- What becomes of a document: accepted, or a check fails behind `offset` bytes, or neither. -/
inductive Verdict
  | accept (lastEnd : Option Nat)
  | fail (c : Check) (offset : Nat) (lastEnd : Option Nat)
  | diverge
deriving DecidableEq, Repr

namespace Scan

/-- At the start of a document, where the file stands at `offset`. -/
def init (offset : Nat) : Scan := { mode := .blank, stack := [], offset, lastEnd := none }

def enter (st : Scan) (mode : Mode) : Scan := { st with mode }

/-- Behind a value that was left without an end character. -/
def resume (st : Scan) : Scan :=
  match st.stack with
  | [] => st.enter .tail
  | _ :: _ => st.enter (.items true false)

/-- The innermost collection ends. -/
def close (st : Scan) : Scan :=
  { st with stack := st.stack.tail, lastEnd := some st.offset }.resume

/-- Behind a value that the character `e` ended, in a member that began with `chr`. -/
def leave (st : Scan) (chr e : UInt8) : Scan :=
  match st.stack with
  | [] => st.enter .tail
  | k :: _ =>
    if e = ch ',' then st.enter (.items true true)
    else if e = k.closeChar then st.close
    else if (e = ch '"' && chr = ch '"') || e = 0 || isspace e then st.enter (.items true false)
    else st.enter (.reject .memberEndChar)

/-- The first byte of the member whose value began with `chr`: an element is its own value. -/
def memberChr (st : Scan) (chr : UInt8) : UInt8 :=
  match st.stack with
  | .arr :: _ => chr
  | _ => ch '"'

/-- The first byte `b` of a value; `chr` was handed over to `JParser`. -/
def front (st : Scan) (chr b : UInt8) : Scan :=
  if b = ch '[' then { st with mode := .items false false, stack := .arr :: st.stack }
  else if b = ch '{' then { st with mode := .items false false, stack := .obj :: st.stack }
  else if b = ch '"' then st.enter (.quoted (.value (st.memberChr chr)) false)
  else st.enter (.bare false [b])

/-- A value whose first byte was read before it: a NUL counts as a blank. -/
def value (st : Scan) (chr : UInt8) : Scan :=
  if chr = 0 then st.enter .blank else st.front chr chr

/-- The first byte of a member. -/
def member (st : Scan) (chr : UInt8) : Scan :=
  match st.stack with
  | .obj :: _ =>
    if chr = ch '"' then st.enter (.quoted .label false) else st.enter (.reject .unquotedLabel)
  | _ => st.value chr

def afterQuote (st : Scan) : Quote → Scan
  | .label => st.enter (.colon false)
  | .value chr => st.leave chr (ch '"')

/-- Behind an unquoted text that the character `e` ended. -/
def endBare (st : Scan) (text : Bytes) (e : UInt8) : Scan :=
  match Reader.unquoted (text.takeWhile (· ≠ 0)) with
  | .ok _ => st.leave 0 e
  | .error c => st.enter (.reject c)

def step (st : Scan) (b : UInt8) : Scan :=
  let st := { st with offset := st.offset + 1 }
  match st.mode with
  | .blank => if isspace b then st else st.front 0 b
  | .items has needs =>
    match st.stack with
    | [] => st
    | k :: _ =>
      if isspace b then st
      else if needs then
        if b = ch ',' then st.enter (.reject .commaWithoutMember) else st.member b
      else if b = k.closeChar then st.close
      else if b = ch ']' || b = ch '}' then st.enter (.reject .wrongEndChar)
      else if b = ch ',' then
        if has then st.enter (.items has true) else st.enter (.reject .commaWithoutMember)
      else if has then st.enter (.reject .missingComma)
      else st.member b
  | .quoted q esc =>
    if esc then st.enter (.quoted q false)
    else if b = ch '\\' then st.enter (.quoted q true)
    else if endCheckForQuoted b then st.afterQuote q
    else st
  | .bare esc text =>
    if esc then st.enter (.bare false (text ++ [ch '\\', b]))
    else if b = ch '\\' then st.enter (.bare true text)
    else if endCheckForUnquoted b then st.endBare text b
    else st.enter (.bare false (text ++ [b]))
  | .colon past =>
    if isspace b then st
    else if b = ch ':' then st.enter (.colon true)
    else if past then st.value b
    else st.enter (.reject .missingColon)
  | .tail => if isspace b then st else st.enter (.reject .trailing)
  | .reject _ => st

/-- What becomes of a document that ends here. -/
def atEnd (ending : Ending) (st : Scan) : Verdict :=
  match st.mode with
  | .blank =>
    match ending with
    | .eof => .fail .eofBeforeValue st.offset st.lastEnd
    | .error => .diverge
  | .items _ _ => .fail .unterminated st.offset st.lastEnd
  | .quoted _ _ => .fail .eofInQuotes st.offset st.lastEnd
  | .bare _ text =>
    match Reader.unquoted (text.takeWhile (· ≠ 0)) with
    | .ok _ =>
      match st.stack with
      | [] => .accept st.lastEnd
      | _ :: _ => .fail .unterminated st.offset st.lastEnd
    | .error c => .fail c st.offset st.lastEnd
  | .colon _ =>
    match ending with
    | .eof => .fail .eofAfterLabel st.offset st.lastEnd
    | .error => .fail .errorAfterLabel st.offset st.lastEnd
  | .tail => .accept st.lastEnd
  | .reject c => .fail c st.offset st.lastEnd

/-- Reading stops at the first check that fails. -/
def run (st : Scan) : Bytes → Scan
  | [] => st
  | b :: bs =>
    match st.mode with
    | .reject _ => st
    | _ => (st.step b).run bs

/-- What becomes of the document with the bytes `d` from here on. -/
def verdict (ending : Ending) (st : Scan) (d : Bytes) : Verdict := (st.run d).atEnd ending

/-- An unquoted text is being read. -/
def inBare (st : Scan) : Bool :=
  match st.mode with
  | .bare _ _ => true
  | _ => false

/-- Whether an unquoted text is met in `d`, up to the first check that fails. -/
def meetsBare (st : Scan) : Bytes → Bool
  | [] => st.inBare
  | b :: bs =>
    match st.mode with
    | .bare _ _ => true
    | .reject _ => false
    | _ => (st.step b).meetsBare bs

end Scan

end JsonDom
