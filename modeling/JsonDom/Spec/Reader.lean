import JsonDom.Model.ReadString
import JsonDom.Model.Number
import JsonDom.Spec.Json

/-!
# The parser without memory

`Reader.file` reads a document from the file as the parser does, byte by byte and with the same
frames, but returns a `Json` and stops at the first check that fails: no frame can do anything
about a failure. It spends the fuel exactly where `jParser` and the functions under it do.
`JsonDom/Proof/Refine.lean` shows that the parser computes it.
-/

namespace JsonDom

/-- The checks a document can fail. -/
inductive Check
  | eofBeforeValue
  | eofInQuotes
  | invalidNumber
  | unquotedValue
  | commaWithoutMember
  | wrongEndChar
  | missingComma
  | memberEndChar
  | unterminated
  | unquotedLabel
  | missingColon
  | eofAfterLabel
  | errorAfterLabel
  | trailing
deriving DecidableEq, Repr

namespace Check

/-- What is reported; a read error behind a label is not. -/
def message : Check → Option String
  | eofBeforeValue => some "unexpected end-of-file"
  | eofInQuotes => some "unexpected EOF"
  | invalidNumber => some "invalid number"
  | unquotedValue => some "unquoted values must be keywords or numbers"
  | commaWithoutMember => some "comma in collection without preceeding member"
  | wrongEndChar => some "incorrect end char for the collection type"
  | missingComma => some "missing comma between collection members"
  | memberEndChar => some "unexpected member end char"
  | unterminated => some "unterminated collection"
  | unquotedLabel => some "labels must be double-quoted"
  | missingColon => some "colons must follow labels"
  | eofAfterLabel => some "unexpected end-of-file"
  | errorAfterLabel => none
  | trailing => some "forbidden characters following singleton root object"

end Check

/-- The outcome of reading: a result, the check that failed, or no end within the fuel. -/
inductive Out (α : Type)
  | ok (a : α) (s : Src)
  | fail (c : Check) (s : Src)
  | timeout

namespace Out

variable {α β : Type}

def bind (x : Out α) (f : α → Src → Out β) : Out β :=
  match x with
  | ok a s => f a s
  | fail c s => fail c s
  | timeout => timeout

@[simp] theorem bind_ok (a : α) (s : Src) (f : α → Src → Out β) : (ok a s).bind f = f a s := rfl

@[simp] theorem bind_fail (c : Check) (s : Src) (f : α → Src → Out β) :
    (fail c s).bind f = fail c s := rfl

@[simp] theorem bind_timeout (f : α → Src → Out β) : (timeout : Out α).bind f = timeout := rfl

theorem bind_eq_ok {x : Out α} {f : α → Src → Out β} {b : β} {s' : Src}
    (h : x.bind f = ok b s') : ∃ a s, x = ok a s ∧ f a s = ok b s' := by
  cases x with
  | ok a s => exact ⟨a, s, rfl, h⟩
  | fail c s => cases h
  | timeout => cases h

end Out

/-- Failing a check: its message goes into the record. -/
def Src.fail {α : Type} (s : Src) (c : Check) : Out α :=
  .fail c (match c.message with
    | some m => s.report m
    | none => s)

/-- A lexeme: its characters and the one that ended it; then what is left of the file and the
position in it. -/
abbrev Lexeme := (Bytes × Option UInt8) × Bytes × Nat

/-- More characters in front of a lexeme. -/
def Lexeme.prepend (xs : Bytes) (r : Lexeme) : Lexeme := ((xs ++ r.1.1, r.1.2), r.2)

/-- The characters up to the first unescaped one that `stop` accepts, backslashes included; a
backslash with nothing behind it is not one of them. `input` is what is left of the file, `offset`
the position in it. -/
def lex (stop : UInt8 → Bool) : Bool → Bytes → Nat → Lexeme
  | _, [], offset => (([], none), [], offset)
  | true, b :: bs, offset => (lex stop false bs (offset + 1)).prepend [ch '\\', b]
  | false, b :: bs, offset =>
    if b = ch '\\' then lex stop true bs (offset + 1)
    else if stop b then (([], some b), bs, offset + 1)
    else (lex stop false bs (offset + 1)).prepend [b]

/-- The first byte of the value behind a label, and what is left behind it: blanks and colons are read
over, and there must be a colon. -/
def valueStart : Bool → Bytes → Nat → Option (UInt8 × Bytes × Nat)
  | _, [], _ => none
  | pastColon, b :: bs, offset =>
    if isspace b then valueStart pastColon bs (offset + 1)
    else if b = ch ':' then valueStart true bs (offset + 1)
    else if pastColon then some (b, bs, offset + 1)
    else none

/-- `valueStart` from where the file stands. -/
def Src.valueStart (s : Src) (pastColon : Bool) : Option (UInt8 × Src) :=
  (JsonDom.valueStart pastColon s.input s.offset).map fun r =>
    (r.1, { s with input := r.2.1, offset := r.2.2 })

/-- `lex` from where the file stands. -/
def Src.lex (s : Src) (stop : UInt8 → Bool) : (Bytes × Option UInt8) × Src :=
  let r := JsonDom.lex stop false s.input s.offset
  (r.1, { s with input := r.2.1, offset := r.2.2 })

namespace Reader

/-- What an unquoted text stands for. -/
def unquoted (str : Bytes) : Except Check Json :=
  if str = cs "null" then .ok .null
  else if str = cs "true" then .ok .true
  else if str = cs "false" then .ok .false
  else if strchr (cs "0123456789.-+") (charAt str) then
    if (isJsonNumber str).1 then .ok (if (isJsonNumber str).2 then .float str else .int str)
    else .error .invalidNumber
  else .error .unquotedValue

/-- The rest of a quoted string. -/
def quoted (s : Src) : Out Bytes :=
  match s.lex endCheckForQuoted with
  | ((t, some _), s) => .ok t s
  | ((_, none), s) => s.fail .eofInQuotes

/-- The rest of a scalar that starts with `chr`, and the character that ended it, 0 for none. -/
def scalar (chr : UInt8) (s : Src) : Out (Json × UInt8) :=
  if chr = ch '"' then (quoted s).bind fun t s => .ok (.str t, ch '"') s
  else
    match s.lex endCheckForUnquoted with
    | ((t, stop), s) =>
      match unquoted ((chr :: t).takeWhile (· ≠ 0)) with
      | .ok J => .ok (J, stop.getD 0) s
      | .error c => s.fail c

def blanks : Nat → UInt8 → Src → Out UInt8
  | 0, _, _ => .timeout
  | fuel + 1, chr, s =>
    if isspace chr then
      match s.read with
      | (.one chr, s) => blanks fuel chr s
      | (.zero, s) => s.fail .eofBeforeValue
      | (.minusOne, s) => blanks fuel chr s
    else .ok chr s

mutual

/-- A value and, for a scalar, the character that ended it. -/
def value : Nat → UInt8 → Src → Out (Json × Option UInt8)
  | 0, _, _ => .timeout
  | fuel + 1, firstChar, s =>
    (blanks fuel (if firstChar ≠ 0 then firstChar else ch ' ') s).bind fun chr s =>
      if chr = ch '[' then (collection fuel .arr s).bind fun J s => .ok (J, none) s
      else if chr = ch '{' then (collection fuel .obj s).bind fun J s => .ok (J, none) s
      else (scalar chr s).bind fun (J, stop) s => .ok (J, some stop) s

/-- A collection behind its opening bracket. Reading it leaves a report behind. -/
def collection : Nat → Kind → Src → Out Json
  | 0, _, _ => .timeout
  | fuel + 1, kind, s =>
    (items fuel kind [] false s).bind fun ms s => .ok (kind.build ms) (s.report "unterminated collection")

/-- The rest of a collection with the members `acc`. -/
def items : Nat → Kind → List (Bytes × Json) → Bool → Src → Out (List (Bytes × Json))
  | 0, _, _, _, _ => .timeout
  | fuel + 1, kind, acc, needsMember, s =>
    match s.read with
    | (.one chr, s) =>
      if isspace chr then items fuel kind acc needsMember s
      else if needsMember then
        if chr = ch ',' then s.fail .commaWithoutMember else item fuel kind acc chr s
      else if chr = kind.closeChar then .ok acc s
      else if chr = ch ']' || chr = ch '}' then s.fail .wrongEndChar
      else if chr = ch ',' then
        if acc = [] then s.fail .commaWithoutMember else items fuel kind acc true s
      else if acc ≠ [] then s.fail .missingComma
      else item fuel kind acc chr s
    | (_, s) => s.fail .unterminated

/-- A member that starts with `chr`, and the rest of the collection. -/
def item : Nat → Kind → List (Bytes × Json) → UInt8 → Src → Out (List (Bytes × Json))
  | 0, _, _, _, _ => .timeout
  | fuel + 1, kind, acc, chr, s =>
    (member fuel kind chr s).bind fun (x, stop) s =>
      let endChar := stop.getD 0
      if endChar = ch ',' then items fuel kind (acc ++ [x]) true s
      else if endChar = kind.closeChar then .ok (acc ++ [x]) s
      else if (endChar = ch '"' && chr = ch '"') || endChar = 0 || isspace endChar then
        items fuel kind (acc ++ [x]) false s
      else s.fail .memberEndChar

def member : Nat → Kind → UInt8 → Src → Out ((Bytes × Json) × Option UInt8)
  | 0, _, _, _ => .timeout
  | fuel + 1, .arr, chr, s => (value fuel chr s).bind fun (J, stop) s => .ok (([], J), stop) s
  | fuel + 1, .obj, chr, s => property fuel chr s

/-- A label, a colon and a value. -/
def property : Nat → UInt8 → Src → Out ((Bytes × Json) × Option UInt8)
  | 0, _, _ => .timeout
  | fuel + 1, chr, s =>
    if chr ≠ ch '"' then s.fail .unquotedLabel
    else (quoted s).bind fun label s =>
      (afterLabel fuel false s).bind fun (J, stop) s => .ok ((label, J), stop) s

/-- The colon and the value of a member. -/
def afterLabel : Nat → Bool → Src → Out (Json × Option UInt8)
  | 0, _, _ => .timeout
  | fuel + 1, pastColon, s =>
    match s.read with
    | (.one chr, s) =>
      if isspace chr then afterLabel fuel pastColon s
      else if chr = ch ':' then afterLabel fuel true s
      else if pastColon then value fuel chr s
      else s.fail .missingColon
    | (.zero, s) => s.fail .eofAfterLabel
    | (.minusOne, s) => s.fail .errorAfterLabel

end

/-- Whether nothing but blanks is left, and where the look at it stops. -/
def tail : Bytes → Nat → Bool × Bytes × Nat
  | [], offset => (true, [], offset)
  | b :: bs, offset => if isspace b then tail bs (offset + 1) else (false, bs, offset + 1)

/-- A document, up to the end of the file. -/
def file (fuel : Nat) (s : Src) : Out Json :=
  (value fuel 0 s).bind fun (J, _) s =>
    match tail s.input s.offset with
    | (true, input, offset) => .ok J { s with input, offset }
    | (false, input, offset) => { s with input, offset }.fail .trailing

end Reader

end JsonDom
