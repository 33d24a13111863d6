import JsonDom.Spec.Reader

/-!
# What the parser asks `malloc` for

The requests of a run in their order, as far as it gets where all are granted: a function of the file,
with the frames and the fuel of the reader.
-/

namespace JsonDom

/-- What a block is for. -/
inductive Request
  /-- Another leaf of a character bag. -/
  | leaf
  /-- The string of a lexeme at its end character. -/
  | text (quoted : Bool)
  /-- The string of an unquoted lexeme that the end of the file ends. -/
  | lastText
  /-- The node of a scalar. -/
  | scalar
  /-- The copy of a number. -/
  | number
  | collection
  | property
  /-- The node of a label. -/
  | label
deriving DecidableEq, Repr

namespace Request

/-- The parser gives up where this is refused. -/
def heeded : Request → Bool
  | lastText | collection | property => true
  | leaf | text _ | scalar | number | label => false

/-- The parser never releases the block. -/
def leaked : Request → Bool
  | text quoted => !quoted
  | lastText => true
  | leaf | scalar | number | collection | property | label => false

end Request

/-- How many leaves are asked for to hold `n` characters: the root leaf holds the first ones. -/
def leafCount (n : Nat) : Nat := (n - 1) / cbLeafSize

def leafRequests (n : Nat) : List Request := List.replicate (leafCount n) .leaf

namespace Reader

def quotedRequests (s : Src) : List Request :=
  match s.lex endCheckForQuoted with
  | ((t, some _), _) => leafRequests t.length ++ [.text true]
  | ((t, none), _) => leafRequests t.length

def bareRequests (s : Src) : List Request :=
  match s.lex endCheckForUnquoted with
  | ((t, some _), _) => leafRequests (t.length + 1) ++ [.text false]
  | ((t, none), _) => leafRequests (t.length + 1) ++ [.lastText]

/-- The copy of a scalar's text. -/
def copyRequests : Json → List Request
  | .int _ | .float _ => [.number]
  | _ => []

def scalarRequests (chr : UInt8) (s : Src) : List Request :=
  if chr = ch '"' then
    match quoted s with
    | .ok _ _ => quotedRequests s ++ [.scalar]
    | _ => quotedRequests s
  else
    match scalar chr s with
    | .ok (J, _) _ => bareRequests s ++ .scalar :: copyRequests J
    | _ => bareRequests s ++ [.scalar]

mutual

def valueRequests : Nat → UInt8 → Src → List Request
  | 0, _, _ => []
  | fuel + 1, firstChar, s =>
    match blanks fuel (if firstChar ≠ 0 then firstChar else ch ' ') s with
    | .ok chr s =>
      if chr = ch '[' then collectionRequests fuel .arr s
      else if chr = ch '{' then collectionRequests fuel .obj s
      else scalarRequests chr s
    | _ => []

def collectionRequests : Nat → Kind → Src → List Request
  | 0, _, _ => []
  | fuel + 1, kind, s => .collection :: itemsRequests fuel kind [] false s

def itemsRequests : Nat → Kind → List (Bytes × Json) → Bool → Src → List Request
  | 0, _, _, _, _ => []
  | fuel + 1, kind, acc, needsMember, s =>
    match s.read with
    | (.one chr, s) =>
      if isspace chr then itemsRequests fuel kind acc needsMember s
      else if needsMember then
        if chr = ch ',' then [] else itemRequests fuel kind acc chr s
      else if chr = kind.closeChar then []
      else if chr = ch ']' || chr = ch '}' then []
      else if chr = ch ',' then
        if acc = [] then [] else itemsRequests fuel kind acc true s
      else if acc ≠ [] then []
      else itemRequests fuel kind acc chr s
    | _ => []

def itemRequests : Nat → Kind → List (Bytes × Json) → UInt8 → Src → List Request
  | 0, _, _, _, _ => []
  | fuel + 1, kind, acc, chr, s =>
    memberRequests fuel kind chr s ++
      match member fuel kind chr s with
      | .ok (x, stop) s =>
        let endChar := stop.getD 0
        if endChar = ch ',' then itemsRequests fuel kind (acc ++ [x]) true s
        else if endChar = kind.closeChar then []
        else if (endChar = ch '"' && chr = ch '"') || endChar = 0 || isspace endChar then
          itemsRequests fuel kind (acc ++ [x]) false s
        else []
      | _ => []

def memberRequests : Nat → Kind → UInt8 → Src → List Request
  | 0, _, _, _ => []
  | fuel + 1, .arr, chr, s => valueRequests fuel chr s
  | fuel + 1, .obj, chr, s => propertyRequests fuel chr s

def propertyRequests : Nat → UInt8 → Src → List Request
  | 0, _, _ => []
  | fuel + 1, chr, s =>
    if chr ≠ ch '"' then []
    else
      quotedRequests s ++
        match quoted s with
        | .ok _ s => afterLabelRequests fuel false s
        | _ => []

def afterLabelRequests : Nat → Bool → Src → List Request
  | 0, _, _ => []
  | fuel + 1, pastColon, s =>
    match s.read with
    | (.one chr, s) =>
      if isspace chr then afterLabelRequests fuel pastColon s
      else if chr = ch ':' then afterLabelRequests fuel true s
      else if pastColon then
        valueRequests fuel chr s ++
          match value fuel chr s with
          | .ok _ _ => [.property, .label]
          | _ => []
      else []
    | _ => []

end

end Reader

end JsonDom
