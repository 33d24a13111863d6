import JsonDom.Proof.Exact
import JsonDom.Proof.Outcome

/-!
# What `JReadString` returns

The lexeme is what stands in front of the first unescaped terminator (`splitLexeme`), backslashes
included. `JReadString` returns it but for two cases (`returnsLexeme_iff`): where an unquoted lexeme is
ended by the end of the file behind a backslash, that backslash is still held back and is lost, and
`char_bag_to_string` counts the characters in an `int`.
-/

namespace JsonDom

/-- The bytes in front of the first unescaped one that `stop` accepts; then that one and what is behind
it. A backslash escapes the byte behind it; `esc` says that the first byte is escaped. -/
def splitLexeme (stop : UInt8 → Bool) : Bool → Bytes → Bytes × Option (UInt8 × Bytes)
  | _, [] => ([], none)
  | true, b :: bs => ((splitLexeme stop false bs).map (b :: ·) id)
  | false, b :: bs =>
    if b = ch '\\' then ((splitLexeme stop true bs).map (b :: ·) id)
    else if stop b then ([], some (b, bs))
    else ((splitLexeme stop false bs).map (b :: ·) id)

/-- No unescaped byte that `stop` accepts is there, and the last byte is a backslash that escapes
nothing. -/
def backslashLast (stop : UInt8 → Bool) : Bool → Bytes → Bool
  | esc, [] => esc
  | true, _ :: bs => backslashLast stop false bs
  | false, b :: bs =>
    if b = ch '\\' then backslashLast stop true bs
    else if stop b then false
    else backslashLast stop false bs

/-- The backslash that `JReadString` holds back. -/
def heldBack : Bool → Bytes
  | true => [ch '\\']
  | false => []

theorem map_split {b : UInt8} {s : Bytes} {r : Option (UInt8 × Bytes)}
    {p : Bytes × Option (UInt8 × Bytes)} (h : p.map (b :: ·) id = (s, r)) :
    ∃ s', s = b :: s' ∧ p = (s', r) := by
  obtain ⟨s', r'⟩ := p
  obtain ⟨rfl, rfl⟩ := Prod.mk.inj h
  exact ⟨s', rfl, rfl⟩

theorem length_behind (offset : Nat) (b : UInt8) (s : Bytes) :
    offset + 1 + s.length = offset + (b :: s).length := by
  rw [List.length_cons]
  omega

variable {stop : UInt8 → Bool} {esc : Bool} {d s rest : Bytes} {e : UInt8}

theorem lex_split (h : splitLexeme stop esc d = (s, some (e, rest))) (offset : Nat) :
    lex stop esc d offset = ((heldBack esc ++ s, some e), rest, offset + s.length + 1) := by
  induction d generalizing esc s offset with
  | nil => cases esc <;> cases h
  | cons b bs ih =>
    cases esc with
    | true =>
      obtain ⟨s', rfl, hs⟩ := map_split h
      rw [lex, ih hs, Lexeme.prepend, length_behind offset b]
      rfl
    | false =>
      rw [splitLexeme] at h
      rw [lex]
      by_cases hb : b = ch '\\'
      · rw [if_pos hb] at h ⊢
        obtain ⟨s', rfl, hs⟩ := map_split h
        rw [ih hs, length_behind offset b, hb]
        rfl
      rw [if_neg hb] at h ⊢
      by_cases he : stop b = true
      · rw [if_pos he] at h ⊢
        cases h
        rfl
      · rw [if_neg he] at h ⊢
        obtain ⟨s', rfl, hs⟩ := map_split h
        rw [ih hs, Lexeme.prepend, length_behind offset b]
        rfl

theorem split_last (h : splitLexeme stop esc d = (s, some (e, rest))) :
    backslashLast stop esc d = false := by
  induction d generalizing esc s with
  | nil => cases esc <;> cases h
  | cons b bs ih =>
    cases esc with
    | true =>
      obtain ⟨s', -, hs⟩ := map_split h
      exact ih hs
    | false =>
      rw [splitLexeme] at h
      rw [backslashLast]
      by_cases hb : b = ch '\\'
      · rw [if_pos hb] at h ⊢
        obtain ⟨s', -, hs⟩ := map_split h
        exact ih hs
      rw [if_neg hb] at h ⊢
      by_cases he : stop b = true
      · rw [if_pos he]
      · rw [if_neg he] at h ⊢
        obtain ⟨s', -, hs⟩ := map_split h
        exact ih hs

/-- Without a terminator it reads everything, less a backslash held back in the end. -/
theorem lex_split_none (h : splitLexeme stop esc d = (s, none)) (offset : Nat) :
    ∃ t, lex stop esc d offset = ((t, none), [], offset + s.length) ∧
      heldBack esc ++ s = t ++ heldBack (backslashLast stop esc d) := by
  induction d generalizing esc s offset with
  | nil =>
    cases esc with
    | true | false => cases h; exact ⟨[], rfl, rfl⟩
  | cons b bs ih =>
    cases esc with
    | true =>
      obtain ⟨s', rfl, hs⟩ := map_split h
      obtain ⟨t, hlex, ht⟩ := ih hs (offset + 1)
      refine ⟨ch '\\' :: b :: t, ?_, congrArg (ch '\\' :: b :: ·) ht⟩
      rw [lex, hlex, Lexeme.prepend, length_behind offset b]
      rfl
    | false =>
      rw [splitLexeme] at h
      rw [lex, backslashLast]
      by_cases hb : b = ch '\\'
      · rw [if_pos hb] at h ⊢
        obtain ⟨s', rfl, hs⟩ := map_split h
        obtain ⟨t, hlex, ht⟩ := ih hs (offset + 1)
        refine ⟨t, ?_, by rw [if_pos hb, hb]; exact ht⟩
        rw [hlex, length_behind offset b]
      rw [if_neg hb] at h ⊢
      by_cases he : stop b = true
      · rw [if_pos he] at h
        cases h
      · rw [if_neg he] at h ⊢
        obtain ⟨s', rfl, hs⟩ := map_split h
        obtain ⟨t, hlex, ht⟩ := ih hs (offset + 1)
        refine ⟨b :: t, ?_, ?_⟩
        · rw [hlex, Lexeme.prepend, length_behind offset b]
          rfl
        · rw [if_neg hb, if_neg he]
          exact congrArg (b :: ·) ht

/-- The call succeeds with the lexeme `text` in a new string and the signal `e`, and `rest` is left of
the file. -/
def ReturnsText (chr : UInt8) (w : World) (text : Bytes) (e : UInt8) (rest : Bytes) : Prop :=
  ∃ handle w' a, Exact.jReadString (readStringInit chr) w = .ok ((true, handle), w') ∧ handle.endSignal = e ∧
    handle.string = some a ∧ w'.heap.get? a = some (.text (text ++ [0])) ∧ w'.input = rest

/-- `JReadString` returns the lexeme that starts with `chr`, or fails where a quoted one has no end. -/
def ReturnsLexeme (chr : UInt8) (w : World) : Prop :=
  if chr = ch '"' then
    match splitLexeme endCheckForQuoted false w.input with
    | (s, some (e, rest)) => ReturnsText chr w s e rest
    | (_, none) => ∃ handle w', Exact.jReadString (readStringInit chr) w = .ok ((false, handle), w')
  else
    match splitLexeme endCheckForUnquoted false w.input with
    | (s, some (e, rest)) => ReturnsText chr w (chr :: s) e rest
    | (s, none) => ReturnsText chr w (chr :: s) 0 []

theorem Src.lex_of {st : Src} {text : Bytes} {sig : Option UInt8} {n : Nat}
    (h : JsonDom.lex stop false st.input st.offset = ((text, sig), rest, n)) :
    st.lex stop = ((text, sig), { st with input := rest, offset := n }) := by
  unfold Src.lex
  rw [h]

/-- An `int` can hold one more than the length of the string that is made of the lexeme, if one is. -/
def StringFits (chr : UInt8) (input : Bytes) : Prop :=
  if chr = ch '"' then
    ∀ s end', splitLexeme endCheckForQuoted false input = (s, some end') → (s.length : Int) < intMax
  else ((chr :: (splitLexeme endCheckForUnquoted false input).1).length : Int) < intMax

variable {w : World} {chr : UInt8}

theorem returnsText_unquoted (hw : w.Ample) (hq : chr ≠ ch '"') {sig : Option UInt8} {n : Nat} {text : Bytes}
    (h : lex endCheckForUnquoted false w.input w.offset = ((text, sig), rest, n)) :
    (((chr :: text).length : Int) < intMax → ReturnsText chr w (chr :: text) (sig.getD 0) rest) ∧
      (¬ ((chr :: text).length : Int) < intMax →
        Exact.jReadString (readStringInit chr) w = .error .overflow) := by
  have hend : (readStringInit chr).endCheck = endCheckForUnquoted := if_neg hq
  have hexact := @readString_exact w hw chr ((text, sig), rest, n) (by rw [hend]; exact h)
  rw [if_neg hq] at hexact
  constructor
  · intro hfit
    rw [if_pos (.inr hfit)] at hexact
    obtain ⟨w', a, -, hrun, hsrc, ⟨-, htext, -⟩, -⟩ := readUnquoted_run hq (Src.lex_of h) (hw.grants _)
    exact ⟨_, w', a, hexact.trans hrun, rfl, rfl, htext, by rw [hsrc]⟩
  · intro hfit
    exact hexact.trans (if_neg (not_or.2 ⟨fun h => hq h.2, hfit⟩))

theorem ReturnsText.unique {text text' : Bytes} {e' : UInt8} {rest' : Bytes} (h : ReturnsText chr w text e rest)
    (h' : ReturnsText chr w text' e' rest') : text = text' := by
  obtain ⟨handle, w1, a, hrun, -, hstr, htext, -⟩ := h
  obtain ⟨handle', w1', a', hrun', -, hstr', htext', -⟩ := h'
  cases hrun.symm.trans hrun'
  cases hstr.symm.trans hstr'
  have := htext.symm.trans htext'
  simpa using this

theorem ReturnsText.fits {text : Bytes} {halt : Halt} (h : ReturnsText chr w text e rest) :
    Exact.jReadString (readStringInit chr) w ≠ .error halt := by
  obtain ⟨handle, w1, a, hrun, -⟩ := h
  rw [hrun]
  exact nofun

theorem returnsLexeme_quoted (hw : w.Ample) :
    ReturnsLexeme (ch '"') w ↔ StringFits (ch '"') w.input := by
  have hend : (readStringInit (ch '"')).endCheck = endCheckForQuoted := rfl
  unfold ReturnsLexeme StringFits
  rw [if_pos rfl, if_pos rfl]
  rcases hs : splitLexeme endCheckForQuoted false w.input with ⟨s, _ | ⟨e, rest⟩⟩
  · obtain ⟨t, hlex, -⟩ := lex_split_none hs w.offset
    obtain ⟨w', -, -, hrun, -⟩ := readQuoted_run (Src.lex_of hlex) (hw.grants _)
    have hexact := readString_exact hw (ch '"') hlex
    rw [if_pos (.inl ⟨rfl, rfl⟩)] at hexact
    exact iff_of_true ⟨_, w', hexact.trans hrun⟩ nofun
  · have hlex := lex_split hs w.offset
    have hexact := readString_exact hw (ch '"') hlex
    have hlen : (((if ch '"' = ch '"' then [] else [ch '"']) ++ (heldBack false ++ s)).length : Int) =
        s.length := rfl
    dsimp only at hexact
    rw [hlen] at hexact
    constructor
    · intro hret s' end' hs'
      cases hs'
      by_contra hfit
      rw [if_neg (not_or.2 ⟨fun h => (by cases h.1), hfit⟩)] at hexact
      exact hret.fits hexact
    · intro hfit
      rw [if_pos (.inr (hfit s _ rfl))] at hexact
      obtain ⟨w', -, -, a, hrun, hsrc, -, htext, -⟩ := readQuoted_run (Src.lex_of hlex) (hw.grants _)
      exact ⟨_, w', a, hexact.trans hrun, rfl, rfl, htext, by rw [hsrc]⟩

theorem returnsLexeme_unquoted (hw : w.Ample) (hq : chr ≠ ch '"') : ReturnsLexeme chr w ↔
    backslashLast endCheckForUnquoted false w.input = false ∧ StringFits chr w.input := by
  unfold ReturnsLexeme StringFits
  rw [if_neg hq, if_neg hq]
  rcases hs : splitLexeme endCheckForUnquoted false w.input with ⟨s, _ | ⟨e, rest⟩⟩
  · obtain ⟨t, hlex, ht⟩ := lex_split_none hs w.offset
    obtain ⟨htext, hover⟩ := returnsText_unquoted hw hq hlex
    dsimp only
    constructor
    · intro h
      by_cases hfit : ((chr :: t).length : Int) < intMax
      · -- the lexeme is what was read, with nothing held back
        obtain ⟨-, rfl⟩ := List.cons.inj (h.unique (htext hfit))
        refine ⟨?_, hfit⟩
        cases hlast : backslashLast endCheckForUnquoted false w.input with
        | false => rfl
        | true =>
          rw [hlast] at ht
          have := congrArg List.length ht
          simp [heldBack] at this
      · exact absurd (hover hfit) h.fits
    · rintro ⟨hlast, hfit⟩
      rw [hlast] at ht
      obtain rfl : s = t := by simpa [heldBack] using ht
      exact htext hfit
  · obtain ⟨htext, hover⟩ := returnsText_unquoted hw hq (lex_split hs w.offset)
    by_cases hfit : ((chr :: s).length : Int) < intMax
    · exact iff_of_true (htext hfit) ⟨split_last hs, hfit⟩
    · exact iff_of_false (fun h => h.fits (hover hfit)) fun h => hfit h.2

/-- **`JReadString` returns the lexeme it consumed**, unless the end of the file ends an unquoted one
behind a backslash that escapes nothing, or an `int` cannot measure the string. -/
theorem returnsLexeme_iff (hw : w.Ample) : ReturnsLexeme chr w ↔
    (chr = ch '"' ∨ backslashLast endCheckForUnquoted false w.input = false) ∧ StringFits chr w.input := by
  by_cases hq : chr = ch '"'
  · subst hq
    rw [returnsLexeme_quoted hw, and_iff_right (.inl rfl)]
  · rw [returnsLexeme_unquoted hw hq, or_iff_right hq]

theorem returnsLexeme_one : ReturnsLexeme (ch '1') (World.start (cs "2\\,a, 3") .eof) := by
  refine (returnsLexeme_iff (start_ample _ _)).2 ⟨.inr (by decide), ?_⟩
  unfold StringFits
  rw [if_neg (by decide)]
  decide

/-- An `a` and a backslash up to the end of the file: the string is `a`. -/
theorem backslash_lost : ¬ ReturnsLexeme (ch 'a') (World.start [ch '\\'] .eof) := by
  intro h
  have hread := @returnsText_unquoted [] _ _ (start_ample [ch '\\'] .eof) (by decide : ch 'a' ≠ ch '"') none 1 [] rfl
  exact absurd (ReturnsText.unique h (hread.1 (by decide))) (by decide)

end JsonDom
