import Mathlib.Data.List.TakeWhile
import JsonDom.Proof.Lex

/-!
# Reading from the file

`Ate s used s'`: reading the bytes `used` took the file from `s` to `s'`. `Stop J e z rest`: a text
of `J` was left by reading `z` behind it and `rest` follows; `e` is the end signal. The scalars are
settled here, in both directions (`scalar_sound`, `scalar_complete`).
-/

namespace JsonDom

/-- Reading `used` took the file from `s` to `s'`. -/
structure Ate (s : Src) (used : Bytes) (s' : Src) : Prop where
  input : s.input = used ++ s'.input
  offset : s'.offset = s.offset + used.length
  ending : s'.ending = s.ending

namespace Ate

variable {s s1 s' : Src} {u v : Bytes}

theorem refl (s : Src) : Ate s [] s := ⟨rfl, rfl, rfl⟩

theorem trans (h1 : Ate s u s1) (h2 : Ate s1 v s') : Ate s (u ++ v) s' where
  input := by rw [h1.input, h2.input, List.append_assoc]
  offset := by rw [h2.offset, h1.offset, List.length_append]; omega
  ending := h2.ending.trans h1.ending

theorem report (h : Ate s u s') (m : String) : Ate s u (s'.report m) := ⟨h.input, h.offset, h.ending⟩

theorem cons {b : UInt8} (h1 : Ate s [b] s1) (h2 : Ate s1 v s') : Ate s (b :: v) s' := h1.trans h2

end Ate

/-- The file behind `used`, where `rest` follows. -/
def Src.after (s : Src) (used rest : Bytes) : Src :=
  { s with input := rest, offset := s.offset + used.length }

theorem Ate.after {s : Src} {used rest : Bytes} (h : s.input = used ++ rest) :
    Ate s used (s.after used rest) := ⟨h, rfl, rfl⟩

/-! ## One byte -/

theorem read_cons {s : Src} {b : UInt8} {rest : Bytes} (h : s.input = b :: rest) :
    s.read = (.one b, { s with input := rest, offset := s.offset + 1 }) := by
  rw [Src.read, h]

theorem read_one {s s' : Src} {b : UInt8} (h : s.read = (.one b, s')) :
    Ate s [b] s' ∧ s'.pe = s.pe := by
  unfold Src.read at h
  split at h
  · next hi => cases h; exact ⟨⟨hi, rfl, rfl⟩, rfl⟩
  · split at h <;> cases h

theorem read_zero {s s' : Src} (h : s.read = (.zero, s')) :
    s' = s ∧ s.input = [] ∧ s.ending = .eof := by
  unfold Src.read at h
  split at h
  · cases h
  · next hi =>
    split at h
    · next he => cases h; exact ⟨rfl, hi, he⟩
    · cases h

theorem read_minusOne {s s' : Src} (h : s.read = (.minusOne, s')) :
    s' = s ∧ s.input = [] ∧ s.ending = .error := by
  unfold Src.read at h
  split at h
  · cases h
  · next hi =>
    split at h
    · cases h
    · next he =>
      cases h
      exact ⟨rfl, hi, by cases hs : s.ending <;> simp_all⟩

/-! ## Scalars -/

/-- How a value was left: by an end character, by the end of the file, by a quote that is part of
its text, or by a bracket that is. -/
inductive Stop : Json → Option UInt8 → Bytes → Bytes → Prop
  | char {J : Json} {b : UInt8} {rest : Bytes} : J.IsBare → endCheckForUnquoted b = true →
      Stop J (some b) [b] rest
  | eof {J : Json} {z : Bytes} : J.IsBare → z = [] ∨ z = [ch '\\'] → Stop J (some 0) z []
  | quote {s rest : Bytes} : Stop (.str s) (some (ch '"')) [] rest
  | bracket {J : Json} {rest : Bytes} : J.IsCollection → Stop J none [] rest

theorem lexSrc_eq {s s' : Src} {stop : UInt8 → Bool} {t : Bytes} {e : Option UInt8}
    (h : s.lex stop = ((t, e), s')) :
    lex stop false s.input s.offset = ((t, e), s'.input, s'.offset) ∧ s'.ending = s.ending ∧
      s'.pe = s.pe := by
  unfold Src.lex at h
  simp only [Prod.mk.injEq] at h
  obtain ⟨h1, rfl⟩ := h
  exact ⟨Prod.ext h1 rfl, rfl, rfl⟩

theorem lexSrc_ate {s s' : Src} {stop : UInt8 → Bool} {t : Bytes} {e : Option UInt8}
    (h : s.lex stop = ((t, e), s')) :
    ∃ used, Ate s used s' ∧ s'.pe = s.pe ∧ (e = none → s'.input = []) := by
  obtain ⟨hl, he, hpe⟩ := lexSrc_eq h
  obtain ⟨used, hi, ho, hr⟩ := lex_used hl
  exact ⟨used, ⟨hi, ho, he⟩, hpe, hr⟩

theorem quoted_sound {s s' : Src} {t : Bytes} (h : Reader.quoted s = .ok t s') :
    Body t ∧ Ate s (t ++ [ch '"']) s' ∧ s'.pe = s.pe := by
  unfold Reader.quoted at h
  split at h
  · next t' b s1 hl =>
    cases h
    obtain ⟨hlex, -, hpe⟩ := lexSrc_eq hl
    obtain ⟨used, hate, -, -⟩ := lexSrc_ate hl
    obtain ⟨-, hbody, hi⟩ := lex_quoted hlex
    have hu : used = t ++ [ch '"'] := by
      have hi' : s.input = (t ++ [ch '"']) ++ s'.input := by simpa using hi
      rw [hate.input] at hi'
      exact List.append_cancel_right hi'
    exact ⟨hbody, hu ▸ hate, hpe⟩
  · cases h

/-- A scalar that starts with `chr` was read behind it. -/
theorem scalar_sound {s s' : Src} {chr e : UInt8} {J : Json}
    (h : Reader.scalar chr s = .ok (J, e) s') :
    s'.pe = s.pe ∧ ∃ used v z, Ate s used s' ∧ chr :: used = v ++ z ∧ Renders J v ∧
      Stop J (some e) z s'.input := by
  unfold Reader.scalar at h
  split at h
  · next hc =>
    obtain ⟨t, s1, hq, h⟩ := Out.bind_eq_ok h
    cases h
    obtain ⟨hbody, hate, hpe⟩ := quoted_sound hq
    exact ⟨hpe, _, ch '"' :: (t ++ [ch '"']), [], hate, by rw [hc, List.append_nil],
      .quoted hbody, .quote⟩
  · split at h
    next t stop s1 hl =>
    split at h
    · next J' hu =>
      cases h
      obtain ⟨hlex, -, hpe⟩ := lexSrc_eq hl
      obtain ⟨used, hate, -, -⟩ := lexSrc_ate hl
      rw [unquoted_iff] at hu
      -- the text is not cut at a NUL: one could only stand behind a backslash
      have hplain := bare_plain hu
      have hchr : chr ≠ 0 := fun hz => bare_ne_nil hu (by rw [hz]; rfl)
      rw [List.takeWhile_cons_of_pos (by simpa using hchr)] at hu hplain
      have hzero : (0 : UInt8) ∉ t := fun hz =>
        (hplain _ (List.mem_cons_of_mem _ (lex_zero (by decide) hlex hz))).2.1 rfl
      have htake : t.takeWhile (· ≠ 0) = t :=
        List.takeWhile_eq_self_iff.2 fun b hb => by
          simpa using fun hz : b = 0 => hzero (hz ▸ hb)
      rw [htake] at hu hplain
      have hslash : ch '\\' ∉ t := fun hm => (hplain _ (List.mem_cons_of_mem _ hm)).2.1 rfl
      obtain ⟨-, ⟨b, rfl, hb, hi⟩ | ⟨rfl, hr, hi⟩⟩ := lex_unquoted hlex hslash
      · have hused : used = t ++ [b] := by
          have hi' : s.input = (t ++ [b]) ++ s'.input := by simpa using hi
          rw [hate.input] at hi'
          exact List.append_cancel_right hi'
        exact ⟨hpe, used, chr :: t, [b], hate, by rw [hused]; rfl, .bare hu, .char hu.isBare hb⟩
      · have hused : used = s.input := by rw [hate.input, hr, List.append_nil]
        rw [hr]
        rcases hi with hi | hi
        · exact ⟨hpe, used, chr :: t, [], hate, by rw [hused, hi, List.append_nil], .bare hu,
            .eof hu.isBare (.inl rfl)⟩
        · exact ⟨hpe, used, chr :: t, [ch '\\'], hate, by rw [hused, hi]; rfl, .bare hu,
            .eof hu.isBare (.inr rfl)⟩
    · cases h

theorem quoted_complete {s : Src} {t rest : Bytes} (ht : Body t)
    (hi : s.input = t ++ ch '"' :: rest) :
    Reader.quoted s = .ok t (s.after (t ++ [ch '"']) rest) := by
  rw [Reader.quoted, Src.lex, hi, lex_body ht]
  simp [Src.after]

theorem unquoted_complete {s : Src} {chr e : UInt8} {J : Json} {t z rest : Bytes}
    (ht : Bare J (chr :: t)) (hz : Stop J (some e) z rest) (hi : s.input = t ++ (z ++ rest)) :
    s.lex endCheckForUnquoted = ((t, if z = [e] then some e else none), s.after (t ++ z) rest) := by
  have hplain : ∀ b ∈ t, endCheckForUnquoted b = false ∧ b ≠ ch '\\' := fun b hb =>
    have := bare_plain ht b (List.mem_cons_of_mem _ hb)
    ⟨this.1, this.2.1⟩
  rw [Src.lex, hi, lex_plain hplain]
  cases hz with
  | char _ he =>
    have hs : e ≠ ch '\\' := fun hc => absurd (hc ▸ he) (by decide)
    simp [lex, hs, he, Lexeme.prepend, Src.after, Nat.add_assoc]
  | eof _ h =>
    rcases h with rfl | rfl
    · simp [lex, Lexeme.prepend, Src.after]
    · simp [lex, Lexeme.prepend, Src.after, Nat.add_assoc, show ch '\\' ≠ 0 by decide]
  | quote => exact ht.elim

/-- The other direction: a text of a value that is no collection is read as that value. -/
theorem scalar_complete {s : Src} {chr e : UInt8} {J : Json} {t z rest : Bytes}
    (hJ : ¬ J.IsCollection) (ht : Renders J (chr :: t)) (hz : Stop J (some e) z rest)
    (hi : s.input = t ++ (z ++ rest)) :
    Reader.scalar chr s = .ok (J, e) (s.after (t ++ z) rest) := by
  generalize hv : chr :: t = v at ht
  cases ht with
  | @quoted body hbody =>
    obtain ⟨rfl, rfl⟩ := List.cons.inj hv
    cases hz with
    | char hb | eof hb => exact hb.elim
    | quote =>
      rw [Reader.scalar, if_pos rfl, @quoted_complete s body rest hbody (by simpa using hi)]
      simp
  | coll => exact absurd (Kind.build_isCollection _ _) hJ
  | bare hb =>
    subst hv
    have hplain := bare_plain hb
    have htake : (chr :: t).takeWhile (· ≠ 0) = chr :: t :=
      List.takeWhile_eq_self_iff.2 fun b hm => by simpa using Plain.ne_zero (hplain b hm)
    have hend : (if z = [e] then some e else none).getD 0 = e := by
      cases hz with
      | char => simp
      | eof _ h => rcases h with rfl | rfl <;> rfl
      | quote => exact hb.elim
    rw [Reader.scalar, if_neg (hplain chr List.mem_cons_self).2.2.1, unquoted_complete hb hz hi]
    simp only [htake, unquoted_iff.2 hb, hend]

end JsonDom
