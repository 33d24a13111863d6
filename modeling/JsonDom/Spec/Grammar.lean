import JsonDom.Model.ReadString
import JsonDom.Model.Number
import JsonDom.Spec.Json

/-!
# The language the parser accepts

`Renders J v`: the bytes `v`, from the first to the last byte of the value, are a text of `J`.
`Document J d`: `d` is a text of `J` with what may stand around it. These are the texts the parser
accepts (`Reader.file_iff`), which are more than the texts of RFC 8259: a repeated colon, the
numbers of `isJsonNumber`, raw control characters and any escape in a string, and a NUL in front of
a value (`Lead`) or behind an unquoted scalar (`Gap`). `JsonDom/Spec/Rfc.lean` has the texts of the
RFC.
-/

namespace JsonDom

/-- Whitespace, possibly none. -/
def Blank (w : Bytes) : Prop := ∀ b ∈ w, isspace b = true

/-- The bytes between two quotes: no unescaped quote, no backslash without a byte behind it. -/
inductive Body : Bytes → Prop
  | nil : Body []
  | plain {b : UInt8} {s : Bytes} : b ≠ ch '"' → b ≠ ch '\\' → Body s → Body (b :: s)
  | escape {b : UInt8} {s : Bytes} : Body s → Body (ch '\\' :: b :: s)

/-- The text of a value without quotes and brackets. -/
def Bare : Json → Bytes → Prop
  | .null, t => t = cs "null"
  | .true, t => t = cs "true"
  | .false, t => t = cs "false"
  | .int s, t => t = s ∧ isJsonNumber s = (true, false)
  | .float s, t => t = s ∧ isJsonNumber s = (true, true)
  | _, _ => False

/-- What may stand in front of an element or of a member's value: blanks behind a NUL. -/
def Lead (l : Bytes) : Prop := l = [] ∨ ∃ w, Blank w ∧ l = 0 :: w

/-- What may stand between a member's value and the comma or bracket behind it. -/
def Gap (J : Json) (g : Bytes) : Prop := Blank g ∨ J.IsBare ∧ ∃ w, Blank w ∧ g = 0 :: w

/-- What may stand between a label and its value. -/
def Colons (c : Bytes) : Prop := (∀ b ∈ c, isspace b = true ∨ b = ch ':') ∧ ch ':' ∈ c

/-- A member of a collection with the text of its value. -/
structure Piece where
  label : Bytes
  value : Json
  text : Bytes

namespace Piece

def pair (x : Piece) : Bytes × Json := (x.label, x.value)

/-- The label, the colon and the value of a member, or the element of an array. -/
def Parts (x : Piece) : Kind → Bytes → Prop
  | .arr, m => x.label = [] ∧ ∃ l, Lead l ∧ m = l ++ x.text
  | .obj, m => Body x.label ∧ ∃ c l, Colons c ∧ Lead l ∧
      m = ch '"' :: (x.label ++ ch '"' :: (c ++ (l ++ x.text)))

/-- The text of a member: from its first byte, a NUL in front included, to the last byte of its
value. A member that ends in a quote has to begin with one. -/
def Member (x : Piece) (k : Kind) (m : Bytes) : Prop :=
  x.Parts k m ∧ (x.value.IsStr → m.head? = some (ch '"'))

end Piece

/-- One or more members and the closing bracket, from behind the opening bracket or a comma. -/
def Items (k : Kind) : List Piece → Bytes → Prop
  | [], _ => False
  | x :: xs, t => ∃ w m g r, Blank w ∧ x.Member k m ∧ Gap x.value g ∧ t = w ++ (m ++ (g ++ r)) ∧
      (xs = [] ∧ r = [k.closeChar] ∨ ∃ r', r = ch ',' :: r' ∧ Items k xs r')

/-- The closing bracket, or a comma and more members. -/
def Rest (k : Kind) (xs : List Piece) (r : Bytes) : Prop :=
  xs = [] ∧ r = [k.closeChar] ∨ ∃ r', r = ch ',' :: r' ∧ Items k xs r'

theorem items_cons {k : Kind} {x : Piece} {xs : List Piece} {t : Bytes} :
    Items k (x :: xs) t ↔ ∃ w m g r, Blank w ∧ x.Member k m ∧ Gap x.value g ∧
      t = w ++ (m ++ (g ++ r)) ∧ Rest k xs r := Iff.rfl

/-- The inside of a collection with its closing bracket. -/
def Layout (k : Kind) (xs : List Piece) (t : Bytes) : Prop :=
  (xs = [] ∧ ∃ w, Blank w ∧ t = w ++ [k.closeChar]) ∨ Items k xs t

inductive Renders : Json → Bytes → Prop
  | bare {J : Json} {t : Bytes} : Bare J t → Renders J t
  | quoted {s : Bytes} : Body s → Renders (.str s) (ch '"' :: (s ++ [ch '"']))
  | coll {k : Kind} {xs : List Piece} {t : Bytes} : (∀ x ∈ xs, Renders x.value x.text) →
      Layout k xs t → Renders (k.build (xs.map Piece.pair)) (k.openChar :: t)

/-- What may stand behind the root value: behind an unquoted scalar also one terminator of any
kind, or a backslash as the last byte. -/
def Trailer (J : Json) (p : Bytes) : Prop :=
  Blank p ∨ J.IsBare ∧
    (p = [ch '\\'] ∨ ∃ b w, endCheckForUnquoted b = true ∧ Blank w ∧ p = b :: w)

/-- The documents the parser accepts. -/
def Document (J : Json) (d : Bytes) : Prop :=
  ∃ w v p, Blank w ∧ Renders J v ∧ Trailer J p ∧ d = w ++ (v ++ p)

/-- The values that have a text: strings that end where they should, and numbers. -/
inductive Json.Valid : Json → Prop
  | keyword {J : Json} : J.text = none → ¬ J.IsCollection → Valid J
  | str {s : Bytes} : Body s → Valid (.str s)
  | int {s : Bytes} : isJsonNumber s = (Bool.true, Bool.false) → Valid (.int s)
  | float {s : Bytes} : isJsonNumber s = (Bool.true, Bool.true) → Valid (.float s)
  | coll {k : Kind} {ms : List (Bytes × Json)} : (∀ m ∈ ms, m.2.Valid) →
      (k = .obj → ∀ m ∈ ms, Body m.1) → Valid (k.build ms)

theorem Json.Valid.inv {J : Json} (h : J.Valid) :
    match J with
    | .str s => Body s
    | .int s => isJsonNumber s = (Bool.true, Bool.false)
    | .float s => isJsonNumber s = (Bool.true, Bool.true)
    | .arr xs => ∀ x ∈ xs, x.Valid
    | .obj ms => ∀ m ∈ ms, Body m.1 ∧ m.2.Valid
    | .null | .true | .false => True := by
  cases h with
  | keyword ht hc =>
    cases J with
    | null | true | false => trivial
    | str | int | float => cases ht
    | arr | obj => exact absurd trivial hc
  | str hs | int hs | float hs => exact hs
  | @coll k ms hms hl =>
    cases k with
    | arr =>
      intro x hx
      obtain ⟨m, hm, rfl⟩ := List.mem_map.1 hx
      exact hms m hm
    | obj => exact fun m hm => ⟨hl rfl m hm, hms m hm⟩

/-- The members of a collection are valid. -/
theorem Json.Valid.member {k : Kind} {ms : List (Bytes × Json)} (h : (k.build ms).Valid) :
    ∀ m ∈ ms, m.2.Valid ∧ (k = .obj → Body m.1) := by
  intro m hm
  cases k with
  | arr => exact ⟨h.inv m.2 (List.mem_map_of_mem hm), nofun⟩
  | obj => exact ⟨(h.inv m hm).2, fun _ => (h.inv m hm).1⟩

/-! ## Blanks -/

theorem Blank.nil : Blank [] := fun _ h => absurd h List.not_mem_nil

theorem blank_cons {b : UInt8} {w : Bytes} : Blank (b :: w) ↔ isspace b = true ∧ Blank w := by
  simp [Blank]

/-- Blanks in front of a text that starts with another byte are determined by the whole. -/
theorem Blank.eq_nil_of_cons {w t t' : Bytes} {b : UInt8} (hw : Blank w) (hb : isspace b = false)
    (h : b :: t' = w ++ t) : w = [] ∧ t = b :: t' := by
  cases w with
  | nil => exact ⟨rfl, h.symm⟩
  | cons c w =>
    simp only [List.cons_append, List.cons.injEq] at h
    rw [h.1, (blank_cons.1 hw).1] at hb
    cases hb

/-! ## What has a text -/

theorem Renders.str_head {J : Json} {v : Bytes} (h : Renders J v) (hJ : J.IsStr) :
    v.head? = some (ch '"') := by
  cases h with
  | @bare J _ hb => cases J <;> first | exact hJ.elim | exact hb.elim
  | quoted => rfl
  | coll => exact absurd hJ (Kind.build_isCollection _ _).not_str

theorem Items.parts {k : Kind} {xs : List Piece} {t : Bytes} (h : Items k xs t) :
    ∀ x ∈ xs, ∃ m, x.Parts k m := by
  induction xs generalizing t with
  | nil => exact nofun
  | cons x xs ih =>
    obtain ⟨w, m, g, r, -, hm, -, -, hr⟩ := h
    refine List.forall_mem_cons.2 ⟨⟨m, hm.1⟩, ?_⟩
    rcases hr with ⟨rfl, -⟩ | ⟨r', -, hr⟩
    · exact nofun
    · exact ih hr

theorem Renders.valid {J : Json} {v : Bytes} (h : Renders J v) : J.Valid := by
  induction h with
  | @bare J t hb =>
    cases J with
    | null | true | false => exact .keyword rfl id
    | int => exact .int hb.2
    | float => exact .float hb.2
    | str | arr | obj => exact hb.elim
  | quoted hs => exact .str hs
  | @coll k xs t _ hlay ih =>
    refine .coll (fun m hm => ?_) fun hk m hm => ?_
    · obtain ⟨x, hx, rfl⟩ := List.mem_map.1 hm
      exact ih x hx
    · obtain ⟨x, hx, rfl⟩ := List.mem_map.1 hm
      subst hk
      rcases hlay with ⟨rfl, -⟩ | hitems
      · cases hx
      · obtain ⟨m, hm⟩ := hitems.parts x hx
        exact hm.1

end JsonDom
