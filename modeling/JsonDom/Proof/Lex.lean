import JsonDom.Spec.Grammar
import JsonDom.Spec.Reader
import JsonDom.Proof.Number

/-!
# Lexemes

What `lex` reads is the text it returns and the character that ended it (`lex_quoted`,
`lex_unquoted`), and reading a text that is followed by an end character returns it (`lex_body`,
`lex_plain`). An unquoted text that stands for a value has no backslash, no NUL and no end
character in it (`bare_plain`), so its bytes are the ones read.
-/

namespace JsonDom

/-! ## Characters -/

theorem forall_byte {P : UInt8 → Prop} (h : ∀ n < 256, P (UInt8.ofNat n)) (b : UInt8) : P b := by
  have := h b.toNat b.toNat_lt
  rwa [UInt8.ofNat_toNat] at this

@[simp] theorem endCheckForQuoted_iff {b : UInt8} :
    endCheckForQuoted b = true ↔ b = ch '"' := by simp [endCheckForQuoted]

theorem endCheckForUnquoted_iff {b : UInt8} : endCheckForUnquoted b = true ↔
    isspace b = true ∨ b = ch ',' ∨ b = ch ']' ∨ b = ch '}' ∨ b = 0 := by
  have h : cs ",]\x7d" = [ch ',', ch ']', ch '}'] := by decide
  simp [endCheckForUnquoted, strchr, h, or_assoc]

/-- A character of an unquoted value. -/
def Plain (b : UInt8) : Prop :=
  endCheckForUnquoted b = false ∧ b ≠ ch '\\' ∧ b ≠ ch '"' ∧ b ≠ ch '[' ∧ b ≠ ch '{' ∧ b ≠ ch ':'

instance : DecidablePred Plain := fun _ => by unfold Plain; infer_instance

instance : DecidablePred NumberChar := fun _ => by unfold NumberChar; infer_instance

theorem NumberChar.plain {b : UInt8} : NumberChar b → Plain b :=
  @forall_byte (fun b => NumberChar b → Plain b) (by decide +kernel) b

namespace Plain

variable {b : UInt8} (h : Plain b)
include h

theorem not_space : isspace b = false := by
  by_contra hc
  have := endCheckForUnquoted_iff.2 (.inl (by simpa using hc))
  rw [h.1] at this
  cases this

theorem ne_zero : b ≠ 0 := fun hc => by
  have := h.1
  rw [hc] at this
  exact absurd this (by decide)

end Plain

/-! ## Unquoted values -/

theorem unquoted_iff {t : Bytes} {J : Json} : Reader.unquoted t = .ok J ↔ Bare J t := by
  have hnum : ∀ {s : Bytes}, (isJsonNumber s).1 = true →
      Reader.unquoted s = .ok (if (isJsonNumber s).2 then .float s else .int s) := by
    intro s hs
    have hc := isJsonNumber_chars hs
    have hkey : ∀ c : UInt8, ¬ NumberChar c → ∀ l, s ≠ c :: l := fun c hn l he =>
      hn (hc c (he ▸ List.mem_cons_self))
    obtain ⟨c, rest, rfl, hd⟩ := isJsonNumber_head hs
    have hstr : strchr (cs "0123456789.-+") (charAt (c :: rest)) = true := by
      rcases hd with hd | rfl
      · exact @forall_byte (fun c => isdigit c = true →
          strchr (cs "0123456789.-+") c = true) (by decide +kernel) c hd
      · rfl
    have h1 : c :: rest ≠ cs "null" := hkey (ch 'n') (by decide) _
    have h2 : c :: rest ≠ cs "true" := hkey (ch 't') (by decide) _
    have h3 : c :: rest ≠ cs "false" := hkey (ch 'f') (by decide) _
    rw [Reader.unquoted, if_neg h1, if_neg h2, if_neg h3, if_pos hstr, if_pos hs]
  constructor
  · intro h
    unfold Reader.unquoted at h
    split at h
    · next ht => cases h; exact ht
    split at h
    · next ht => cases h; exact ht
    split at h
    · next ht => cases h; exact ht
    split at h
    · split at h
      · next hs =>
        cases h
        cases hf : (isJsonNumber t).2 <;> exact ⟨rfl, Prod.ext hs hf⟩
      · cases h
    · cases h
  · intro h
    cases J with
    | null => rw [show t = cs "null" from h]; rfl
    | true => rw [show t = cs "true" from h]; rfl
    | false => rw [show t = cs "false" from h]; rfl
    | int s => rw [h.1, hnum (by rw [h.2]), h.2]; rfl
    | float s => rw [h.1, hnum (by rw [h.2]), h.2]; rfl
    | str | arr | obj => exact h.elim

theorem Bare.isBare {J : Json} {t : Bytes} (h : Bare J t) : J.IsBare := by
  cases J with
  | null | true | false | int | float => trivial
  | str | arr | obj => exact h.elim

theorem bare_plain {J : Json} {t : Bytes} (h : Bare J t) : ∀ b ∈ t, Plain b := by
  have hnum : ∀ {s : Bytes}, (isJsonNumber s).1 = true → ∀ b ∈ s, Plain b := fun hs b hb =>
    (isJsonNumber_chars hs b hb).plain
  cases J with
  | null | true | false => rw [show t = _ from h]; decide +kernel
  | int s | float s => rw [h.1]; exact hnum (by rw [h.2])
  | str | arr | obj => exact h.elim

theorem bare_ne_nil {J : Json} {t : Bytes} (h : Bare J t) : t ≠ [] := by
  cases J with
  | null | true | false => rw [show t = _ from h]; decide
  | int s | float s =>
    obtain ⟨c, rest, hs, -⟩ := @isJsonNumber_head s (by rw [h.2])
    rw [h.1, hs]
    exact List.cons_ne_nil c rest
  | str | arr | obj => exact h.elim

/-! ## What `lex` reads -/

theorem prepend_eq {xs t : Bytes} {r : Lexeme} {e : Option UInt8} {q : Bytes × Nat}
    (h : r.prepend xs = ((t, e), q)) : ∃ t', r = ((t', e), q) ∧ t = xs ++ t' := by
  cases h
  exact ⟨r.1.1, rfl, rfl⟩

theorem lex_used {stop : UInt8 → Bool} {input t rest : Bytes} {esc : Bool} {e : Option UInt8}
    {off off' : Nat} (h : lex stop esc input off = ((t, e), rest, off')) :
    ∃ used, input = used ++ rest ∧ off' = off + used.length ∧ (e = none → rest = []) := by
  fun_induction lex stop esc input off generalizing t e with
  | case1 => cases h; exact ⟨[], by simp⟩
  | case2 b bs off ih | case5 b bs off _ _ ih =>
    obtain ⟨t', hr, -⟩ := prepend_eq h
    obtain ⟨used, hi, ho, he⟩ := ih hr
    exact ⟨b :: used, by rw [hi]; rfl, by rw [ho, List.length_cons]; omega, he⟩
  | case3 bs off ih =>
    obtain ⟨used, hi, ho, he⟩ := ih h
    exact ⟨ch '\\' :: used, by rw [hi]; rfl, by rw [ho, List.length_cons]; omega, he⟩
  | case4 b bs off _ hs => cases h; exact ⟨[b], rfl, rfl, fun h => by cases h⟩

theorem lex_stop {stop : UInt8 → Bool} {input t : Bytes} {esc : Bool} {e : UInt8} {off : Nat}
    {q : Bytes × Nat} (h : lex stop esc input off = ((t, some e), q)) : stop e = true := by
  fun_induction lex stop esc input off generalizing t with
  | case1 => cases h
  | case2 b bs off ih | case5 b bs off _ _ ih =>
    obtain ⟨t', hr, -⟩ := prepend_eq h
    exact ih hr
  | case3 bs off ih => exact ih h
  | case4 b bs off _ hs => cases h; exact hs

/-- A quoted text is a `Body`. The backslash of an escape that is being read is not in `input`. -/
theorem lex_quoted {input t rest : Bytes} {esc : Bool} {b : UInt8} {off off' : Nat}
    (h : lex endCheckForQuoted esc input off = ((t, some b), rest, off')) :
    b = ch '"' ∧ Body t ∧
      (if esc then ch '\\' :: input else input) = t ++ ch '"' :: rest := by
  fun_induction lex endCheckForQuoted esc input off generalizing t with
  | case1 => cases h
  | case2 c bs off ih =>
    obtain ⟨t', hr, rfl⟩ := prepend_eq h
    obtain ⟨hb, ht, hi⟩ := ih hr
    exact ⟨hb, .escape ht, by simpa using hi⟩
  | case3 bs off ih => simpa using ih h
  | case4 c bs off _ hs =>
    cases h
    rw [endCheckForQuoted_iff] at hs
    exact ⟨hs, .nil, by rw [hs]; rfl⟩
  | case5 c bs off hb hs ih =>
    obtain ⟨t', hr, rfl⟩ := prepend_eq h
    obtain ⟨hb', ht, hi⟩ := ih hr
    rw [endCheckForQuoted_iff] at hs
    exact ⟨hb', .plain hs hb ht, by simpa using hi⟩

/-- An unquoted text without a backslash: the characters up to the end character, or up to the end
of the file and a backslash that is its last byte. -/
theorem lex_unquoted {stop : UInt8 → Bool} {input t rest : Bytes} {esc : Bool} {e : Option UInt8}
    {off off' : Nat} (h : lex stop esc input off = ((t, e), rest, off')) (ht : ch '\\' ∉ t) :
    if esc then input = [] ∧ t = [] ∧ e = none ∧ rest = [] else
      (∀ b ∈ t, stop b = false) ∧
        ((∃ b, e = some b ∧ stop b = true ∧ input = t ++ b :: rest) ∨
          (e = none ∧ rest = [] ∧ (input = t ∨ input = t ++ [ch '\\']))) := by
  fun_induction lex stop esc input off generalizing t with
  | case1 esc off => cases h; cases esc <;> simp
  | case2 b bs off ih =>
    obtain ⟨t', hr, rfl⟩ := prepend_eq h
    exact absurd List.mem_cons_self ht
  | case3 bs off ih =>
    obtain ⟨rfl, rfl, he, hr⟩ := ih h ht
    exact ⟨by simp, .inr ⟨he, hr, .inr rfl⟩⟩
  | case4 b bs off _ hs => cases h; exact ⟨by simp, .inl ⟨b, rfl, hs, rfl⟩⟩
  | case5 b bs off hb hs ih =>
    obtain ⟨t', hr, rfl⟩ := prepend_eq h
    obtain ⟨hs', hend⟩ := ih hr (fun hm => ht (List.mem_cons_of_mem b hm))
    refine ⟨List.forall_mem_cons.2 ⟨by simpa using hs, hs'⟩, ?_⟩
    rcases hend with ⟨c, he, hc, hi⟩ | ⟨he, hr, hi⟩
    · exact .inl ⟨c, he, hc, by rw [hi]; rfl⟩
    · exact .inr ⟨he, hr, by simpa using hi⟩

/-- A NUL gets into an unquoted text only behind a backslash. -/
theorem lex_zero {stop : UInt8 → Bool} (hz : stop 0 = true) {input t : Bytes} {esc : Bool}
    {e : Option UInt8} {off : Nat} {q : Bytes × Nat} (h : lex stop esc input off = ((t, e), q))
    (ht : (0 : UInt8) ∈ t) : ch '\\' ∈ t.takeWhile (· ≠ 0) := by
  fun_induction lex stop esc input off generalizing t with
  | case1 => cases h; exact absurd ht List.not_mem_nil
  | case2 b bs off ih =>
    obtain ⟨t', hr, rfl⟩ := prepend_eq h
    rw [List.cons_append, List.takeWhile_cons_of_pos (by decide)]
    exact List.mem_cons_self
  | case3 bs off ih => exact ih h ht
  | case4 => cases h; exact absurd ht List.not_mem_nil
  | case5 b bs off hb hs ih =>
    obtain ⟨t', hr, rfl⟩ := prepend_eq h
    have hb0 : b ≠ 0 := fun hc => hs (hc ▸ hz)
    rw [List.cons_append, List.takeWhile_cons_of_pos (by simpa using hb0)]
    exact List.mem_cons_of_mem b (ih hr ((List.mem_cons.1 ht).resolve_left (Ne.symm hb0)))

/-! ## What `lex` returns on a text -/

theorem lex_body {s rest : Bytes} (h : Body s) (off : Nat) :
    lex endCheckForQuoted false (s ++ ch '"' :: rest) off =
      ((s, some (ch '"')), rest, off + (s.length + 1)) := by
  induction h generalizing off with
  | nil => rfl
  | @plain b s hq hb _ ih =>
    have hs : ¬ endCheckForQuoted b = true := by simpa using hq
    rw [List.cons_append, lex, if_neg hb, if_neg hs, ih, Lexeme.prepend, List.length_cons,
      show off + 1 + (s.length + 1) = off + (s.length + 1 + 1) by omega]
    rfl
  | @escape b s _ ih =>
    rw [List.cons_append, List.cons_append, lex, if_pos rfl, lex, ih, Lexeme.prepend,
      List.length_cons, List.length_cons,
      show off + 1 + 1 + (s.length + 1) = off + (s.length + 1 + 1 + 1) by omega]
    rfl

/-- A text without end characters and backslashes is read as it stands. -/
theorem lex_plain {stop : UInt8 → Bool} {t : Bytes}
    (ht : ∀ b ∈ t, stop b = false ∧ b ≠ ch '\\') (z : Bytes) (off : Nat) :
    lex stop false (t ++ z) off = (lex stop false z (off + t.length)).prepend t := by
  induction t generalizing off with
  | nil => rfl
  | cons b t ih =>
    obtain ⟨⟨hs, hb⟩, ht'⟩ := List.forall_mem_cons.1 ht
    rw [List.cons_append, lex, if_neg hb, if_neg (by simp [hs]), ih ht', List.length_cons,
      show off + 1 + t.length = off + (t.length + 1) by omega]
    rfl

end JsonDom
