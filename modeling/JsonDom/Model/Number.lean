import JsonDom.Model.Base

/-!
# `isJsonNumber.c`

The string is a list of bytes without NUL: `*ptr` behind its end is the terminating NUL. The scan
keeps the byte before `ptr` (`none` at `ptr == str`) and what stands at and behind `ptr`.
-/

namespace JsonDom

/-- The local variables of `isJsonNumber`; `firstNumeral` is what stands at and behind
`first_numeral`. -/
structure NumberScan where
  isFloat : Bool
  hasNumerals : Bool
  hasDecimal : Bool
  isExponent : Bool
  firstNumeral : Option Bytes
deriving DecidableEq, Repr

/-- `*ptr`, where the text from `ptr` on is given. -/
def charAt (text : Bytes) : UInt8 := text.headD 0

/-- The `while (*ptr)` loop; `none` is `goto early_exit`. -/
def isJsonNumber.scan : NumberScan → Option UInt8 → Bytes → Option NumberScan
  | v, _, [] => some v
  | v, prev, c :: rest =>
    if isdigit c then
      scan { v with
        hasNumerals := true
        firstNumeral := if v.firstNumeral = none then some (c :: rest) else v.firstNumeral }
        (some c) rest
    else if c = ch '.' then
      if !(prev.any isdigit) || !isdigit (charAt rest) then none
      else if v.hasDecimal || v.isExponent then none
      else scan { v with hasDecimal := true, isFloat := true } (some c) rest
    else if c = ch 'e' || c = ch 'E' then
      if v.isExponent then none
      else if !v.hasNumerals then none
      else
        let v := { v with isExponent := true, isFloat := true, hasNumerals := false }
        if charAt rest = ch '-' || charAt rest = ch '+' then
          -- the extra `++ptr` over the sign
          match rest with
          | sign :: rest => scan v (some sign) rest
          | [] => some v
        else scan v (some c) rest
    else none

/-- The loop, behind a leading minus sign if there is one. -/
def isJsonNumber.start (str : Bytes) : Option NumberScan :=
  let v : NumberScan := ⟨false, false, false, false, none⟩
  match str with
  | c :: rest =>
    if c = ch '-' then isJsonNumber.scan v (some c) rest else isJsonNumber.scan v none (c :: rest)
  | [] => some v

/-- `retval` behind the loop. -/
def NumberScan.retval (v : NumberScan) : Bool :=
  v.hasNumerals &&
    (charAt (v.firstNumeral.getD []) != ch '0'
      || charAt ((v.firstNumeral.getD []).drop 1) == 0
      || v.isExponent
      || v.hasDecimal)

/-- `isJsonNumber(str, &isFloat)`: the result and `*isFloatReturn`. -/
def isJsonNumber (str : Bytes) : Bool × Bool :=
  match isJsonNumber.start str with
  | none => (false, false)
  | some v => (v.retval, v.retval && v.isFloat)

end JsonDom
