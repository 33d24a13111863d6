import JsonDom.Proof.Sound

/-!
# What is in the grammar the reader accepts

`Reads x a rest`: unless the fuel ran out, `x` is the result `a` with `rest` left of the file. A text
of a value is read as that value (`renders_reads`, by induction on the derivation; the members of a
collection by induction on the fuel), so a document is accepted with the value it is a text of
(`file_complete`).
-/

namespace JsonDom

open Reader

/-- Unless the fuel ran out, reading has the result `a` and leaves `rest`. -/
def Reads {α : Type} (x : Out α) (a : α) (rest : Bytes) : Prop :=
  match x with
  | .ok a' s => a' = a ∧ s.input = rest
  | .fail _ _ => False
  | .timeout => True

namespace Reads

variable {α β : Type}

theorem bind {x : Out α} {f : α → Src → Out β} {a : α} {b : β} {rest rest' : Bytes}
    (hx : Reads x a rest) (hf : ∀ s, s.input = rest → Reads (f a s) b rest') :
    Reads (x.bind f) b rest' := by
  cases x with
  | ok a' s => obtain ⟨rfl, hs⟩ := hx; exact hf s hs
  | fail => exact hx.elim
  | timeout => trivial

theorem ok {a : α} {s : Src} {rest : Bytes} (h : s.input = rest) : Reads (.ok a s) a rest := ⟨rfl, h⟩

end Reads

/-! ## First bytes -/

/-- A byte that can begin a member. -/
def Front (b : UInt8) : Prop :=
  isspace b = false ∧ b ≠ ch ',' ∧ b ≠ ch ']' ∧ b ≠ ch '}'

instance : DecidablePred Front := fun _ => by unfold Front; infer_instance

theorem Plain.front {b : UInt8} (h : Plain b) : Front b := by
  have hend := h.1
  refine ⟨h.not_space, ?_, ?_, ?_⟩ <;> rintro rfl <;> exact absurd hend (by decide)

/-- The first byte of a value's text. -/
theorem Renders.head {J : Json} {v : Bytes} (h : Renders J v) :
    ∃ b t, v = b :: t ∧ Front b ∧ b ≠ 0 ∧ b ≠ ch ':' := by
  cases h with
  | bare hb =>
    cases v with
    | nil => exact absurd rfl (bare_ne_nil hb)
    | cons b t =>
      have hp := bare_plain hb b List.mem_cons_self
      exact ⟨b, t, rfl, hp.front, hp.ne_zero, hp.2.2.2.2.2⟩
  | quoted => exact ⟨_, _, rfl, by decide, by decide, by decide⟩
  | @coll k => exact ⟨_, _, rfl, by cases k <;> decide, by cases k <;> decide, by cases k <;> decide⟩

theorem Front.ne_close {b : UInt8} (h : Front b) (k : Kind) : b ≠ k.closeChar := by
  cases k
  · exact h.2.2.1
  · exact h.2.2.2

/-! ## Values -/

/-- Every way to begin reading the text `v` ends with the value `J`. -/
def ValueReads (J : Json) (v : Bytes) : Prop := ∀ {fuel firstChar s w z e rest},
  Blank w → Stop J e z rest → taken firstChar s.input = w ++ (v ++ (z ++ rest)) →
    Reads (value fuel firstChar s) (J, e) rest

theorem blanks_reads {fuel : Nat} {c b : UInt8} {s : Src} {w rest : Bytes} (hw : Blank w)
    (hb : isspace b = false) (h : c :: s.input = w ++ b :: rest) :
    Reads (blanks fuel c s) b rest := by
  induction fuel generalizing c s w with
  | zero => trivial
  | succ fuel ih =>
    unfold blanks
    cases w with
    | nil =>
      obtain ⟨rfl, hs⟩ := List.cons.inj h
      rw [if_neg (by simp [hb])]
      exact .ok hs
    | cons c' w =>
      obtain ⟨rfl, hs⟩ := List.cons.inj h
      obtain ⟨hc, hw⟩ := blank_cons.1 hw
      rw [if_pos hc]
      -- the next byte is there: `b` is
      cases w with
      | nil => rw [read_cons hs]; exact ih .nil rfl
      | cons c' w => rw [read_cons hs]; exact ih hw rfl

theorem blanks_taken {fuel : Nat} {firstChar b : UInt8} {s : Src} {w rest : Bytes} (hw : Blank w)
    (hb : isspace b = false) (h : taken firstChar s.input = w ++ b :: rest) :
    Reads (blanks fuel (if firstChar ≠ 0 then firstChar else ch ' ') s) b rest := by
  by_cases hz : firstChar = 0
  · rw [taken, if_pos hz] at h
    rw [if_neg (by simpa using hz)]
    exact @blanks_reads fuel (ch ' ') b s (ch ' ' :: w) rest (blank_cons.2 ⟨by decide, hw⟩) hb (by rw [h]; rfl)
  · rw [taken, if_neg hz] at h
    rw [if_pos hz]
    exact blanks_reads hw hb h

/-- A value whose text does not begin with a bracket. -/
theorem scalar_reads {J : Json} {v : Bytes} (hJ : ¬ J.IsCollection) (hv : Renders J v) :
    ValueReads J v := by
  intro fuel firstChar s w z e rest hw hst h
  obtain ⟨b, t, rfl, hb, -⟩ := hv.head
  cases fuel with
  | zero => trivial
  | succ fuel =>
    unfold value
    refine (blanks_taken hw hb.1 h).bind fun s1 hs1 => ?_
    have hbr : b ≠ ch '[' ∧ b ≠ ch '{' := by
      cases hv with
      | bare hp => exact ⟨(bare_plain hp b List.mem_cons_self).2.2.2.1,
          (bare_plain hp b List.mem_cons_self).2.2.2.2.1⟩
      | quoted => exact ⟨by decide, by decide⟩
      | coll => exact absurd (Kind.build_isCollection _ _) hJ
    rw [if_neg hbr.1, if_neg hbr.2]
    have hsc : ∀ {e}, Stop J (some e) z rest →
        Reads ((scalar b s1).bind fun p s => .ok (p.1, some p.2) s) (J, some e) rest := by
      intro e hst
      rw [scalar_complete hJ hv hst (by simpa using hs1)]
      exact .ok rfl
    cases hst with
    | char hb he => exact hsc (.char hb he)
    | eof hb hz => exact hsc (.eof hb hz)
    | quote => exact hsc .quote
    | bracket hc => exact absurd hc hJ

/-- A member's value, read from its first byte: the text, or a NUL in front of it. -/
theorem ValueReads.lead {J : Json} {v l z rest : Bytes} {chr : UInt8} {s : Src} {fuel : Nat}
    {e : Option UInt8} (hJ : ValueReads J v) (hv : Renders J v) (hl : Lead l)
    (hst : Stop J e z rest) (h : chr :: s.input = l ++ (v ++ (z ++ rest))) :
    Reads (value fuel chr s) (J, e) rest := by
  rcases hl with rfl | ⟨w, hw, rfl⟩
  · obtain ⟨b, t, rfl, -, hz, -⟩ := hv.head
    obtain ⟨rfl, hs⟩ := List.cons.inj h
    apply @hJ _ _ _ [] _ _ _ .nil hst
    rw [taken, if_neg hz, hs]
    rfl
  · obtain ⟨rfl, hs⟩ := List.cons.inj h
    apply hJ hw hst
    rw [taken, if_pos rfl, hs]
    rfl

/-- The first byte of a member's value with its lead. -/
theorem Renders.lead_head {J : Json} {v l : Bytes} (hv : Renders J v) (hl : Lead l) :
    ∃ b t, l ++ v = b :: t ∧ Front b ∧ b ≠ ch ':' := by
  rcases hl with rfl | ⟨w, -, rfl⟩
  · obtain ⟨b, t, rfl, hb, -, hc⟩ := hv.head
    exact ⟨b, t, rfl, hb, hc⟩
  · exact ⟨0, w ++ v, rfl, by decide, by decide⟩

/-! ## Members -/

theorem afterLabel_reads {J : Json} {v l c z rest : Bytes} {fuel : Nat} {pastColon : Bool} {s : Src}
    {e : Option UInt8} (hJ : ValueReads J v) (hv : Renders J v)
    (hc : ∀ b ∈ c, isspace b = true ∨ b = ch ':') (hpast : pastColon = true ∨ ch ':' ∈ c)
    (hl : Lead l) (hst : Stop J e z rest) (h : s.input = c ++ (l ++ (v ++ (z ++ rest)))) :
    Reads (afterLabel fuel pastColon s) (J, e) rest := by
  induction fuel generalizing s c pastColon with
  | zero => trivial
  | succ fuel ih =>
    unfold afterLabel
    cases c with
    | nil =>
      obtain ⟨b, t, ht, hb, hcol⟩ := hv.lead_head hl
      have hs : s.input = b :: (t ++ (z ++ rest)) := by
        rw [h, List.nil_append, ← List.append_assoc, ht, List.cons_append]
      rw [read_cons hs]
      dsimp only
      rw [if_neg (by simp [hb.1]), if_neg hcol, if_pos (hpast.resolve_right (by simp))]
      exact hJ.lead hv hl hst (by rw [← hs, h]; rfl)
    | cons b c =>
      obtain ⟨hb, hc⟩ := List.forall_mem_cons.1 hc
      rw [read_cons h]
      dsimp only
      by_cases hsp : isspace b = true
      · rw [if_pos hsp]
        refine ih hc (hpast.imp_right fun hm => (List.mem_cons.1 hm).resolve_left ?_) rfl
        rintro rfl
        exact absurd hsp (by decide)
      · rw [if_neg hsp, if_pos (hb.resolve_left hsp)]
        exact ih hc (.inl rfl) rfl

/-- A member is read from its first byte. -/
theorem member_reads {x : Piece} {k : Kind} {m z rest : Bytes} {chr : UInt8} {s : Src} {fuel : Nat}
    {e : Option UInt8} (hx : ValueReads x.value x.text) (hv : Renders x.value x.text)
    (hm : x.Parts k m) (hst : Stop x.value e z rest) (h : chr :: s.input = m ++ (z ++ rest)) :
    Reads (member fuel k chr s) (x.pair, e) rest := by
  cases fuel with
  | zero => trivial
  | succ fuel =>
    cases k with
    | arr =>
      obtain ⟨hlab, l, hl, rfl⟩ := hm
      unfold member
      refine (hx.lead hv hl hst (by rw [h, List.append_assoc])).bind fun s1 hs1 => ?_
      exact ⟨by rw [Piece.pair, hlab], hs1⟩
    | obj =>
      obtain ⟨hlab, c, l, hc, hl, rfl⟩ := hm
      unfold member
      cases fuel with
      | zero => trivial
      | succ fuel =>
        obtain ⟨rfl, hs⟩ := List.cons.inj h
        unfold property
        rw [if_neg (by simp), @quoted_complete _ _ (c ++ (l ++ (x.text ++ (z ++ rest)))) hlab
          (by rw [hs]; simp), Out.bind_ok]
        exact (afterLabel_reads hx hv hc.1 (.inr hc.2) hl hst rfl).bind fun _ hs1 => .ok hs1

/-! ## The rest of a collection -/

/-- The value of every member can be read. -/
def AllRead (xs : List Piece) : Prop :=
  ∀ x ∈ xs, Renders x.value x.text ∧ ValueReads x.value x.text

def ItemsReads (fuel : Nat) : Prop := ∀ {k acc needsMember xs t s rest}, AllRead xs →
  Remaining k acc needsMember xs t → s.input = t ++ rest →
    Reads (items fuel k acc needsMember s) (acc ++ xs.map Piece.pair) rest

def ItemReads (fuel : Nat) : Prop := ∀ {k acc chr x xs m g r s rest}, AllRead (x :: xs) →
  x.Member k m → Gap x.value g → Rest k xs r → chr :: s.input = m ++ (g ++ (r ++ rest)) →
    Reads (item fuel k acc chr s) (acc ++ (x :: xs).map Piece.pair) rest

/-- Where the text of a member that is an unquoted scalar ends: at the first byte of the gap, or at
the comma or bracket. -/
theorem gap_stop {J : Json} {k : Kind} {xs : List Piece} {g r : Bytes} (hJ : J.IsBare)
    (hg : Gap J g) (hr : Rest k xs r) (rest : Bytes) :
    (∃ b g', g = b :: g' ∧ Blank g' ∧ (isspace b = true ∨ b = 0) ∧
      Stop J (some b) [b] (g' ++ (r ++ rest))) ∨
    g = [] ∧ ∃ b r', r = b :: r' ∧ Stop J (some b) [b] (r' ++ rest) ∧
      (b = k.closeChar ∧ xs = [] ∧ r' = [] ∨ b = ch ',' ∧ Items k xs r') := by
  have hend : ∀ {b rest}, endCheckForUnquoted b = true → Stop J (some b) [b] rest := fun hb =>
    .char hJ hb
  rcases hg with hg | ⟨-, w, hw, rfl⟩
  · cases g with
    | cons b g =>
      obtain ⟨hb, hg⟩ := blank_cons.1 hg
      exact .inl ⟨b, g, rfl, hg, .inl hb, hend (endCheckForUnquoted_iff.2 (.inl hb))⟩
    | nil =>
      refine .inr ⟨rfl, ?_⟩
      rcases hr with ⟨rfl, rfl⟩ | ⟨r', rfl, hr'⟩
      · exact ⟨_, [], rfl, hend (by cases k <;> decide), .inl ⟨rfl, rfl, rfl⟩⟩
      · exact ⟨_, r', rfl, hend (by decide), .inr ⟨rfl, hr'⟩⟩
  · exact .inl ⟨0, w, rfl, hw, .inr rfl, hend (by decide)⟩

theorem itemReads_succ {fuel : Nat} (hi : ItemsReads fuel) : ItemReads (fuel + 1) := by
  intro k acc chr x xs m g r s rest hxs hm hg hr h
  obtain ⟨⟨hren, hval⟩, hxs'⟩ := List.forall_mem_cons.1 hxs
  have hacc : acc ++ [x.pair] ++ xs.map Piece.pair = acc ++ (x :: xs).map Piece.pair := by simp
  have hne : acc ++ [x.pair] ≠ [] := by simp
  unfold item
  rw [← hacc]
  -- behind a member that was left in front of blanks and a comma or bracket
  have onward : ∀ {g s1}, Blank g → s1.input = g ++ (r ++ rest) →
      Reads (items fuel k (acc ++ [x.pair]) false s1)
        (acc ++ [x.pair] ++ xs.map Piece.pair) rest := fun {g s1} hg hs1 =>
    hi hxs' (by rw [Remaining, if_neg (by simp), if_neg hne]; exact ⟨g, r, hg, rfl, hr⟩)
      (by rw [hs1, List.append_assoc])
  by_cases hbare : x.value.IsBare
  · rcases gap_stop hbare hg hr rest with
      ⟨b, g', rfl, hg', hb, hst⟩ | ⟨rfl, b, r', rfl, hst, hb⟩
    · refine (member_reads hval hren hm.1 hst (by rw [h]; rfl)).bind fun s1 hs1 => ?_
      have hnot : b ≠ ch ',' ∧ b ≠ k.closeChar := by
        rcases hb with hb | rfl
        · constructor
          · rintro rfl; exact absurd hb (by decide)
          · rintro rfl; cases k <;> exact absurd hb (by decide)
        · exact ⟨by decide, by cases k <;> decide⟩
      dsimp only [Option.getD_some]
      rw [if_neg hnot.1, if_neg hnot.2, if_pos (by rcases hb with hb | hb <;> simp [hb])]
      exact onward hg' hs1
    · refine (member_reads hval hren hm.1 hst (by rw [h]; rfl)).bind fun s1 hs1 => ?_
      dsimp only [Option.getD_some]
      rcases hb with ⟨rfl, rfl, rfl⟩ | ⟨rfl, hit⟩
      · rw [if_neg (by cases k <;> decide), if_pos rfl]
        exact ⟨by simp, hs1⟩
      · rw [if_pos rfl]
        exact hi hxs' (by rw [Remaining, if_pos rfl]; exact hit) hs1
  · have hg : Blank g := hg.resolve_right fun hc => hbare hc.1
    rcases hJ : x.value with _ | _ | _ | t | _ | _ | es | ms <;>
      (try exact absurd (by rw [hJ]; trivial) hbare)
    · have hchr : chr = ch '"' := by
        have hh := hm.2 (by rw [hJ]; trivial)
        cases m with
        | nil => cases hh
        | cons c m => exact (List.cons.inj h).1.trans (Option.some.inj hh)
      have hst : Stop x.value (some (ch '"')) [] (g ++ (r ++ rest)) := hJ ▸ .quote
      refine (member_reads hval hren hm.1 hst (by rw [h]; rfl)).bind fun s1 hs1 => ?_
      dsimp only [Option.getD_some]
      rw [if_neg (by decide), if_neg (by cases k <;> decide), if_pos (by simp [hchr])]
      exact onward hg hs1
    all_goals
      have hst : Stop x.value none [] (g ++ (r ++ rest)) := .bracket (by rw [hJ]; trivial)
      refine (member_reads hval hren hm.1 hst (by rw [h]; rfl)).bind fun s1 hs1 => ?_
      dsimp only [Option.getD_none]
      rw [if_neg (by decide), if_neg (by cases k <;> decide), if_pos (by simp)]
      exact onward hg hs1

/-- The first byte of a member. -/
theorem Piece.Member.head {x : Piece} {k : Kind} {m : Bytes} (hm : x.Member k m)
    (hx : Renders x.value x.text) : ∃ b t, m = b :: t ∧ Front b := by
  cases k with
  | arr =>
    obtain ⟨⟨-, l, hl, rfl⟩, -⟩ := hm
    obtain ⟨b, t, ht, hb, -⟩ := hx.lead_head hl
    exact ⟨b, t, ht, hb⟩
  | obj =>
    obtain ⟨⟨-, c, l, -, -, rfl⟩, -⟩ := hm
    exact ⟨_, _, rfl, by decide⟩

/-- What remains of a collection, by its first byte. -/
theorem Remaining.cases {k : Kind} {acc : List (Bytes × Json)} {needsMember : Bool}
    {xs : List Piece} {t : Bytes} (hxs : AllRead xs) (h : Remaining k acc needsMember xs t) :
    (∃ b t', t = b :: t' ∧ isspace b = true ∧ Remaining k acc needsMember xs t') ∨
    (needsMember = false ∧ xs = [] ∧ t = [k.closeChar]) ∨
    (needsMember = false ∧ acc ≠ [] ∧ ∃ t', t = ch ',' :: t' ∧ Items k xs t') ∨
    ((needsMember = true ∨ acc = []) ∧ ∃ x xs' m g r b m', xs = x :: xs' ∧ x.Member k m ∧
      Gap x.value g ∧ Rest k xs' r ∧ t = m ++ (g ++ r) ∧ m = b :: m' ∧ Front b) := by
  have hitems : Items k xs t → (∃ b t', t = b :: t' ∧ isspace b = true ∧ Items k xs t') ∨
      ∃ x xs' m g r b m', xs = x :: xs' ∧ x.Member k m ∧
        Gap x.value g ∧ Rest k xs' r ∧ t = m ++ (g ++ r) ∧ m = b :: m' ∧ Front b := by
    intro h
    cases xs with
    | nil => exact h.elim
    | cons x xs =>
      obtain ⟨w, m, g, r, hw, hm, hg, rfl, hr⟩ := h
      cases w with
      | nil =>
        obtain ⟨b, m', hb, hf⟩ := hm.head (hxs x List.mem_cons_self).1
        exact .inr ⟨x, xs, m, g, r, b, m', rfl, hm, hg, hr, rfl, hb, hf⟩
      | cons b w =>
        obtain ⟨hb, hw⟩ := JsonDom.blank_cons.1 hw
        exact .inl ⟨b, _, rfl, hb, w, m, g, r, hw, hm, hg, rfl, hr⟩
  unfold Remaining at h ⊢
  by_cases hn : needsMember = true
  · simp only [if_pos hn] at h ⊢
    exact (hitems h).imp_right fun hx => .inr (.inr ⟨.inl hn, hx⟩)
  have hn' : needsMember = false := by simpa using hn
  by_cases ha : acc = []
  · simp only [if_neg hn, if_pos ha] at h ⊢
    rcases h with ⟨hnil, w, hw, rfl⟩ | h
    · cases w with
      | nil => exact .inr (.inl ⟨hn', hnil, rfl⟩)
      | cons b w =>
        obtain ⟨hb, hw⟩ := JsonDom.blank_cons.1 hw
        exact .inl ⟨b, _, rfl, hb, .inl ⟨hnil, w, hw, rfl⟩⟩
    · refine (hitems h).imp ?_ fun hx => .inr (.inr ⟨.inr ha, hx⟩)
      rintro ⟨b, t', ht, hb, hit⟩
      exact ⟨b, t', ht, hb, .inr hit⟩
  · simp only [if_neg hn, if_neg ha] at h ⊢
    obtain ⟨g, r, hg, rfl, hr⟩ := h
    cases g with
    | cons b g =>
      obtain ⟨hb, hg⟩ := JsonDom.blank_cons.1 hg
      exact .inl ⟨b, _, rfl, hb, g, r, hg, rfl, hr⟩
    | nil =>
      rcases hr with ⟨hnil, rfl⟩ | ⟨r', rfl, hr'⟩
      · exact .inr (.inl ⟨hn', hnil, rfl⟩)
      · exact .inr (.inr (.inl ⟨hn', ha, r', rfl, hr'⟩))

theorem itemsReads_succ {fuel : Nat} (hi : ItemsReads fuel) (ht : ItemReads fuel) :
    ItemsReads (fuel + 1) := by
  intro k acc needsMember xs t s rest hxs hrem h
  unfold items
  rcases hrem.cases hxs with ⟨b, t', rfl, hb, hrem⟩ | ⟨hn, rfl, rfl⟩ | ⟨hn, ha, t', rfl, hit⟩ |
    ⟨hor, x, xs', m, g, r, b, m', rfl, hm, hg, hr, rfl, rfl, hb⟩ <;> rw [read_cons h]
  · dsimp only
    rw [if_pos hb]
    exact hi hxs hrem rfl
  · dsimp only
    rw [if_neg (by cases k <;> decide), if_neg (by simp [hn]), if_pos rfl]
    exact ⟨by simp, rfl⟩
  · dsimp only
    rw [if_neg (by decide), if_neg (by simp [hn]), if_neg (by cases k <;> decide),
      if_neg (by decide), if_pos rfl, if_neg ha]
    exact hi hxs (by rw [Remaining, if_pos rfl]; exact hit) rfl
  · dsimp only
    have hgo : Reads (item fuel k acc b { s with input := m' ++ (g ++ r) ++ rest, offset := s.offset + 1 })
        (acc ++ (x :: xs').map Piece.pair) rest :=
      ht hxs hm hg hr (by simp)
    rw [if_neg (by simp [hb.1])]
    by_cases hn : needsMember = true
    · rw [if_pos hn, if_neg hb.2.1]
      exact hgo
    · have ha := hor.resolve_left hn
      rw [if_neg hn, if_neg (hb.ne_close k), if_neg (by simp [hb.2.2]), if_neg hb.2.1,
        if_neg (by simp [ha])]
      exact hgo

theorem items_reads (fuel : Nat) : ItemsReads fuel ∧ ItemReads fuel := by
  induction fuel with
  | zero => exact ⟨fun _ _ _ => trivial, fun _ _ _ _ _ => trivial⟩
  | succ fuel ih => exact ⟨itemsReads_succ ih.1 ih.2, itemReads_succ ih.1⟩

/-! ## Documents -/

theorem Stop.of_collection {J : Json} {e : Option UInt8} {z rest : Bytes} (h : Stop J e z rest)
    (hJ : J.IsCollection) : e = none ∧ z = [] := by
  cases h with
  | char hb | eof hb => exact absurd hb hJ.not_bare
  | quote => exact hJ.elim
  | bracket => exact ⟨rfl, rfl⟩

/-- Every text of a value is read as that value. -/
theorem renders_reads {J : Json} {v : Bytes} (h : Renders J v) : ValueReads J v := by
  induction h with
  | bare hb => exact scalar_reads (fun hc => hc.not_bare hb.isBare) (.bare hb)
  | quoted hb => exact scalar_reads id (.quoted hb)
  | @coll k xs t hxs hlay ih =>
    intro fuel firstChar s w z e rest hw hst h
    obtain ⟨rfl, rfl⟩ := hst.of_collection (Kind.build_isCollection _ _)
    cases fuel with
    | zero => trivial
    | succ fuel =>
    unfold value
    refine (blanks_taken hw (by cases k <;> decide) h).bind fun s1 hs1 => ?_
    have hcoll : Reads ((collection fuel k s1).bind fun J s => .ok (J, none) s)
        (k.build (xs.map Piece.pair), (none : Option UInt8)) rest := by
      cases fuel with
      | zero => trivial
      | succ fuel =>
      unfold collection
      rw [List.nil_append] at hs1
      have hrem : Remaining k [] false xs t := by
        rw [Remaining, if_neg (by simp), if_pos rfl]
        exact hlay
      have hit := (items_reads fuel).1 (fun x hx => ⟨hxs x hx, ih x hx⟩) hrem hs1
      exact (hit.bind fun s2 hs2 => @Reads.ok _ _ (s2.report _) _ hs2).bind fun s2 hs2 => .ok hs2
    cases k with
    | arr => exact hcoll
    | obj => exact hcoll

theorem tail_blank {p : Bytes} (hp : Blank p) (off : Nat) : tail p off = (true, [], off + p.length) := by
  induction p generalizing off with
  | nil => rfl
  | cons b p ih =>
    obtain ⟨hb, hp⟩ := blank_cons.1 hp
    rw [tail, if_pos hb, ih hp, List.length_cons, Nat.add_assoc, Nat.add_comm 1]

/-- **A document is accepted**, unless the fuel runs out. -/
theorem file_complete {J : Json} {s : Src} (h : Document J s.input) (fuel : Nat) :
    Reads (file fuel s) J [] := by
  obtain ⟨w, v, p, hw, hv, hp, h⟩ := h
  -- how the root is left
  obtain ⟨e, z, rest, rfl, hst, hrest⟩ : ∃ e z rest, p = z ++ rest ∧ Stop J e z rest ∧ Blank rest := by
    by_cases hbare : J.IsBare
    · have hchar : ∀ {b w}, p = b :: w → endCheckForUnquoted b = true → Blank w →
          ∃ e z rest, p = z ++ rest ∧ Stop J e z rest ∧ Blank rest := fun hp hb hw =>
        ⟨some _, [_], _, hp, .char hbare hb, hw⟩
      rcases hp with hp | ⟨-, rfl | ⟨b, w, hb, hw, hp⟩⟩
      · cases p with
        | nil => exact ⟨some 0, [], [], rfl, .eof hbare (.inl rfl), .nil⟩
        | cons b p =>
          obtain ⟨hb, hp⟩ := blank_cons.1 hp
          exact hchar rfl (endCheckForUnquoted_iff.2 (.inl hb)) hp
      · exact ⟨some 0, [ch '\\'], [], rfl, .eof hbare (.inr rfl), .nil⟩
      · exact hchar hp hb hw
    · have hblank : Blank p := hp.resolve_right fun hc => hbare hc.1
      clear hp
      cases J with
      | str => exact ⟨_, [], p, rfl, .quote, hblank⟩
      | arr | obj => exact ⟨_, [], p, rfl, .bracket trivial, hblank⟩
      | null | true | false | int | float => exact absurd trivial hbare
  unfold file
  refine (renders_reads hv hw hst (by rw [taken, if_pos rfl, h])).bind fun s1 hs1 => ?_
  rw [hs1, tail_blank hrest]
  exact .ok rfl

end JsonDom
