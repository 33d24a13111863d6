import JsonDom.Spec.Grammar

/-!
# RFC 8259

The texts of the RFC, rule by rule. Blanks around a structural character stand with the collection
it belongs to. The numbers are told apart by their text: `Rfc.Number true` has a fraction or an
exponent.
-/

namespace JsonDom.Rfc

/-- `ws`. -/
def Ws (w : Bytes) : Prop := ∀ b ∈ w, b = 0x20 ∨ b = 0x09 ∨ b = 0x0A ∨ b = 0x0D

/-- `DIGIT = %x30-39`. -/
def Digit (b : UInt8) : Prop := 0x30 ≤ b ∧ b ≤ 0x39

instance : DecidablePred Digit := fun b => inferInstanceAs (Decidable (0x30 ≤ b ∧ b ≤ 0x39))

/-- `1*DIGIT`. -/
def Digits (t : Bytes) : Prop := t ≠ [] ∧ ∀ b ∈ t, Digit b

/-- `HEXDIG`. -/
def HexDigit (b : UInt8) : Prop :=
  Digit b ∨ (0x41 ≤ b ∧ b ≤ 0x46) ∨ (0x61 ≤ b ∧ b ≤ 0x66)

/-- `*char`. -/
inductive Chars : Bytes → Prop
  | nil : Chars []
  /-- `unescaped = %x20-21 / %x23-5B / %x5D-10FFFF`, in UTF-8. -/
  | unescaped {c : Char} {s : Bytes} : 0x20 ≤ c.toNat → c ≠ '"' → c ≠ '\\' → Chars s →
      Chars (String.utf8EncodeChar c ++ s)
  | escape {b : UInt8} {s : Bytes} : b ∈ cs "\"\\/bfnrt" → Chars s → Chars (ch '\\' :: b :: s)
  | unicode {a b c d : UInt8} {s : Bytes} : HexDigit a → HexDigit b → HexDigit c → HexDigit d →
      Chars s → Chars (ch '\\' :: ch 'u' :: a :: b :: c :: d :: s)

/-- `int = zero / ( digit1-9 *DIGIT )`. -/
def Int (t : Bytes) : Prop := t = cs "0" ∨ ∃ b ds, t = b :: ds ∧ Digit b ∧ b ≠ ch '0' ∧ ∀ d ∈ ds, Digit d

/-- `frac = decimal-point 1*DIGIT`. -/
def Frac (t : Bytes) : Prop := ∃ ds, Digits ds ∧ t = ch '.' :: ds

/-- `exp = e [ minus / plus ] 1*DIGIT`. -/
def Exp (t : Bytes) : Prop :=
  ∃ e sign ds, (e = ch 'e' ∨ e = ch 'E') ∧ (sign = [] ∨ sign = [ch '-'] ∨ sign = [ch '+']) ∧
    Digits ds ∧ t = e :: (sign ++ ds)

/-- `number = [ minus ] int [ frac ] [ exp ]`. -/
def Number (isFloat : Bool) (t : Bytes) : Prop :=
  ∃ m i f e, (m = [] ∨ m = [ch '-']) ∧ Int i ∧ (f = [] ∨ Frac f) ∧ (e = [] ∨ Exp e) ∧
    t = m ++ (i ++ (f ++ e)) ∧ (isFloat = true ↔ f ≠ [] ∨ e ≠ [])

/-- The text of an element, or `member = string name-separator value`. -/
def Member (x : Piece) (k : Kind) (m : Bytes) : Prop :=
  match k with
  | .arr => x.label = [] ∧ m = x.text
  | .obj => Chars x.label ∧ ∃ u v, Ws u ∧ Ws v ∧
      m = ch '"' :: (x.label ++ ch '"' :: (u ++ ch ':' :: (v ++ x.text)))

/-- `[ value *( value-separator value ) ] end-array`, and the same of an object: members, one or
more, and the bracket that closes them. -/
def Members (k : Kind) : List Piece → Bytes → Prop
  | [], _ => False
  | x :: xs, t => ∃ u v m r, Ws u ∧ Ws v ∧ Member x k m ∧ t = u ++ (m ++ (v ++ r)) ∧
      (xs = [] ∧ r = [k.closeChar] ∨ ∃ r', r = ch ',' :: r' ∧ Members k xs r')

/-- `value`: the bytes are a text of the document. -/
inductive Value : Json → Bytes → Prop
  | null : Value .null (cs "null")
  | true : Value .true (cs "true")
  | false : Value .false (cs "false")
  | str {s : Bytes} : Chars s → Value (.str s) (ch '"' :: (s ++ [ch '"']))
  | int {t : Bytes} : Number Bool.false t → Value (.int t) t
  | float {t : Bytes} : Number Bool.true t → Value (.float t) t
  | empty {k : Kind} {u : Bytes} : Ws u → Value (k.build []) (k.openChar :: (u ++ [k.closeChar]))
  | coll {k : Kind} {xs : List Piece} {t : Bytes} : (∀ x ∈ xs, Value x.value x.text) →
      Members k xs t → Value (k.build (xs.map Piece.pair)) (k.openChar :: t)

/-- `JSON-text = ws value ws`. -/
def Text (J : Json) (d : Bytes) : Prop :=
  ∃ u v w, Ws u ∧ Value J v ∧ Ws w ∧ d = u ++ (v ++ w)

end JsonDom.Rfc
