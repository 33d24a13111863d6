import JsonDom.Model.Print
import JsonDom.Spec.Json

/-!
# The text of a document

`J.pretty indent` is the text of `J` in the pretty layout, or in the compact one where the indent is
negative. `squeeze` takes the whitespace out of a text that stands outside of its strings.
-/

namespace JsonDom

/-- The indent of the members of a collection. -/
def subindent (indent : Int) : Int := if indent < 0 then indent else indent + 4

/-- The indent of a value behind its label: a collection starts a line, anything else stands on that of
the label. -/
def Json.valueIndent (J : Json) (indent : Int) : Int :=
  if indent < 0 then indent else if J.IsCollection then indent + 4 else -1

/-- Brackets around members, with commas between them. -/
def Kind.enclose (k : Kind) (indent : Int) (members : List Bytes) : Bytes :=
  lead indent ++ k.openChar :: ([ch ','].intercalate members ++ (lead indent ++ [k.closeChar]))

mutual

def Json.pretty : Json → Int → Bytes
  | .null, indent => lead indent ++ cs "null"
  | .true, indent => lead indent ++ cs "true"
  | .false, indent => lead indent ++ cs "false"
  | .str s, indent => lead indent ++ ch '"' :: (s ++ [ch '"'])
  | .int s, indent => lead indent ++ s
  | .float s, indent => lead indent ++ s
  | .arr xs, indent => Kind.arr.enclose indent (prettyElems xs (subindent indent))
  | .obj ms, indent => Kind.obj.enclose indent (prettyMembers ms (subindent indent))

def prettyElems : List Json → Int → List Bytes
  | [], _ => []
  | J :: xs, indent => J.pretty indent :: prettyElems xs indent

def prettyMembers : List (Bytes × Json) → Int → List Bytes
  | [], _ => []
  | m :: ms, indent => prettyMember m indent :: prettyMembers ms indent

def prettyMember : Bytes × Json → Int → Bytes
  | (label, J), indent =>
    lead indent ++ ch '"' :: (label ++ ch '"' :: ch ':' :: J.pretty (J.valueIndent indent))

end

/-- What a serializer prints: the text and the end of its last line. -/
def Json.printed (J : Json) (indent : Int) : Bytes := J.pretty indent ++ [ch '\n']

example : (Json.obj [(cs "a", .arr [.int (cs "1"), .null])]).printed (-1) = cs "\x7b\"a\":[1,null]\x7d\n" := by
  decide

/-- The text of a member. -/
def Kind.pretty : Kind → Bytes × Json → Int → Bytes
  | .arr, m, indent => m.2.pretty indent
  | .obj, m, indent => prettyMember m indent

theorem prettyElems_eq (xs : List Json) (indent : Int) :
    prettyElems xs indent = xs.map fun J => J.pretty indent := by
  induction xs with
  | nil => rw [prettyElems, List.map_nil]
  | cons J xs ih => rw [prettyElems, ih, List.map_cons]

theorem prettyMembers_eq (ms : List (Bytes × Json)) (indent : Int) :
    prettyMembers ms indent = ms.map fun m => prettyMember m indent := by
  induction ms with
  | nil => rw [prettyMembers, List.map_nil]
  | cons m ms ih => rw [prettyMembers, ih, List.map_cons]

theorem pretty_build (k : Kind) (ms : List (Bytes × Json)) (indent : Int) :
    (k.build ms).pretty indent = k.enclose indent (ms.map fun m => k.pretty m (subindent indent)) := by
  cases k with
  | arr => rw [Kind.build, Json.pretty, prettyElems_eq, List.map_map]; rfl
  | obj => rw [Kind.build, Json.pretty, prettyMembers_eq]; rfl

/-! ## Without whitespace -/

/-- The text without the whitespace outside of strings, from inside of a string or not, and behind a
backslash in it or not. -/
def squeezeFrom : Bool → Bool → Bytes → Bytes
  | _, _, [] => []
  | true, true, b :: t => b :: squeezeFrom true false t
  | true, false, b :: t => b :: squeezeFrom (b ≠ ch '"') (b = ch '\\') t
  | false, _, b :: t => if isspace b then squeezeFrom false false t else b :: squeezeFrom (b = ch '"') false t

def squeeze (t : Bytes) : Bytes := squeezeFrom false false t

example : squeeze (cs "\n  \x7b \"a b\" : [ 1 ] \x7d\n") = cs "\x7b\"a b\":[1]\x7d" := by decide

end JsonDom
