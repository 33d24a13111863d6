import JsonDom.Proof.Outcome

/-!
# The root value

Of the accepted documents, which are one value with whitespace around it: an unquoted root is read
through the character that ends it, and `confirm_no_further_file_content` does not see that one, so
a comma or a closing bracket can stand there (`singleton_iff`).
-/

namespace JsonDom

variable {w w' : World} {result : Bool × Ptr}

/-- Whitespace, or the bytes that end an element or a member. -/
def isTerminator (b : UInt8) : Bool := isspace b || b == ch ',' || b == ch ']' || b == ch '}'

/-- The first byte of a string, an array or an object. -/
def isOpener (b : UInt8) : Bool := b == ch '"' || b == ch '[' || b == ch '{'

/-- `v` is the lexeme of a root value in front of `rest`: a collection from its first to its last
bracket, a string with its quotes, and otherwise all bytes in front of the first terminator. -/
inductive RootLexeme : Bytes → Bytes → Prop
  | coll {J : Json} {v rest : Bytes} : J.IsCollection → Renders J v → RootLexeme v rest
  | str {s rest : Bytes} : Body s → RootLexeme (ch '"' :: (s ++ [ch '"'])) rest
  | bare {b : UInt8} {v rest : Bytes} : isOpener b = false → (∀ x ∈ b :: v, isTerminator x = false) →
      (∀ x ∈ rest.head?, isTerminator x = true) → RootLexeme (b :: v) rest

/-- One value with nothing but whitespace around it. -/
def Singleton (d : Bytes) : Prop :=
  ∃ w v p, Blank w ∧ RootLexeme v p ∧ Blank p ∧ d = w ++ (v ++ p)

/-- The document begins with a quote or a bracket, or the first terminator behind its first
character is not a comma or a bracket. -/
def CleanEnd (d : Bytes) : Prop :=
  let r := d.dropWhile isspace
  (∃ b ∈ r.head?, isOpener b = true) ∨
    ∀ b ∈ (r.dropWhile fun b => !isTerminator b).head?, isspace b = true

/-! ## First bytes -/

theorem dropWhile_blank {u r : Bytes} (hu : Blank u) (hr : ∀ b ∈ r.head?, isspace b = false) :
    (u ++ r).dropWhile isspace = r := by
  rw [List.dropWhile_append_of_pos hu]
  cases r with
  | nil => rfl
  | cons b r => rw [List.dropWhile_cons_of_neg (by simpa using hr b rfl)]

theorem dropWhile_text {v p : Bytes} (hv : ∀ b ∈ v, isTerminator b = false)
    (hp : ∀ b ∈ p.head?, isTerminator b = true) : (v ++ p).dropWhile (fun b => !isTerminator b) = p := by
  rw [List.dropWhile_append_of_pos fun b hb => by simp [hv b hb]]
  cases p with
  | nil => rfl
  | cons b p => rw [List.dropWhile_cons_of_neg (by simp [hp b rfl])]

theorem terminator_of_space {b : UInt8} (h : isspace b = true) : isTerminator b = true := by
  simp [isTerminator, h]

theorem Plain.not_terminator {b : UInt8} (h : Plain b) : isTerminator b = false ∧ isOpener b = false := by
  have hf := h.front
  obtain ⟨-, -, hq, ha, ho, -⟩ := h
  exact ⟨by simp [isTerminator, hf.1, hf.2.1, hf.2.2.1, hf.2.2.2], by simp [isOpener, hq, ha, ho]⟩

theorem RootLexeme.head {v rest : Bytes} (h : RootLexeme v rest) :
    ∃ b t, v = b :: t ∧ isspace b = false := by
  cases h with
  | coll _ hv =>
    obtain ⟨b, t, rfl, hb, -⟩ := hv.head
    exact ⟨b, t, rfl, hb.1⟩
  | str => exact ⟨_, _, rfl, by decide⟩
  | bare _ hv =>
    refine ⟨_, _, rfl, ?_⟩
    have := hv _ List.mem_cons_self
    by_contra hs
    rw [terminator_of_space (by simpa using hs)] at this
    cases this

theorem Renders.opener {J : Json} {v : Bytes} (hv : Renders J v) (hJ : ¬ J.IsBare) :
    ∃ b t, v = b :: t ∧ isOpener b = true := by
  cases hv with
  | bare hb => exact absurd hb.isBare hJ
  | quoted => exact ⟨_, _, rfl, by decide⟩
  | @coll k => exact ⟨_, _, rfl, by cases k <;> decide⟩

/-! ## Roots -/

theorem bare_singleton {u t p : Bytes} {J : Json} (hu : Blank u) (ht : Bare J t) (hp : Trailer J p) :
    Singleton (u ++ (t ++ p)) ↔ CleanEnd (u ++ (t ++ p)) := by
  have hplain := bare_plain ht
  have hterm : ∀ b ∈ t, isTerminator b = false := fun b hb => (hplain b hb).not_terminator.1
  obtain ⟨c, t', rfl⟩ := List.exists_cons_of_ne_nil (bare_ne_nil ht)
  have hc := hplain c List.mem_cons_self
  have hdrop : ∀ q : Bytes, (u ++ (c :: t' ++ q)).dropWhile isspace = c :: t' ++ q := fun q =>
    dropWhile_blank hu fun b hb => by
      cases hb
      exact hc.not_space
  have hclean : ∀ q : Bytes, CleanEnd (u ++ (c :: t' ++ q)) ↔
      ∀ b ∈ (q.dropWhile fun b => !isTerminator b).head?, isspace b = true := by
    intro q
    unfold CleanEnd
    rw [hdrop]
    dsimp only
    rw [List.dropWhile_append_of_pos fun b hb => by simp [hterm b hb]]
    apply or_iff_right
    rintro ⟨b, hb, ho⟩
    cases hb
    rw [hc.not_terminator.2] at ho
    cases ho
  -- the lexeme is the text with what cannot be told from it
  have hgood : ∀ x q : Bytes, (∀ b ∈ x, isTerminator b = false) → Blank q →
      (Singleton (u ++ (c :: t' ++ (x ++ q))) ↔ CleanEnd (u ++ (c :: t' ++ (x ++ q)))) := by
    intro x q hx hq
    have hhead : ∀ b ∈ q.head?, isspace b = true := fun b hb => hq b (List.mem_of_mem_head? hb)
    refine iff_of_true ⟨u, c :: t' ++ x, q, hu, .bare hc.not_terminator.2 ?_ ?_, hq, by simp⟩ ?_
    · intro b hb
      exact (List.mem_append.1 (by simpa using hb : b ∈ c :: t' ++ x)).elim (hterm b) (hx b)
    · exact fun b hb => terminator_of_space (hhead b hb)
    · rw [hclean, dropWhile_text hx fun b hb => terminator_of_space (hhead b hb)]
      exact hhead
  rcases hp with hp | ⟨-, rfl | ⟨b, q, hb, hq, rfl⟩⟩
  · exact hgood [] p nofun hp
  · exact hgood [ch '\\'] [] (List.forall_mem_singleton.2 (by decide)) .nil
  by_cases hs : isspace b = true
  · exact hgood [] (b :: q) nofun (blank_cons.2 ⟨hs, hq⟩)
  by_cases h0 : b = 0
  · subst h0
    exact hgood [0] q (List.forall_mem_singleton.2 (by decide)) hq
  -- a comma or a bracket
  have hbt : isTerminator b = true := by
    rcases endCheckForUnquoted_iff.1 hb with h | rfl | rfl | rfl | h
    · exact absurd h hs
    · decide
    · decide
    · decide
    · exact absurd h h0
  refine iff_of_false ?_ ?_
  · rintro ⟨u', v, p, hu', hv, hp, he⟩
    obtain ⟨x, v', rfl, hx⟩ := hv.head
    have he' : c :: t' ++ b :: q = x :: v' ++ p := by
      have h2 : (u' ++ (x :: v' ++ p)).dropWhile isspace = x :: v' ++ p :=
        dropWhile_blank hu' fun b hb => by
          cases hb
          exact hx
      rw [← hdrop, he, h2]
    have hcx : c = x := (List.cons.inj he').1
    subst hcx
    have hopen : isOpener c ≠ true := by
      rw [hc.not_terminator.2]
      exact nofun
    cases hv with
    | coll hJ hren =>
      obtain ⟨x, t, hxt, ho⟩ := hren.opener hJ.not_bare
      cases hxt
      exact hopen ho
    | str => exact hopen (by decide)
    | bare _ hvt hrest =>
      have h1 := @dropWhile_text (c :: t') (b :: q) hterm (by simp [hbt])
      rw [he', dropWhile_text hvt hrest] at h1
      exact hs (hp b (h1 ▸ List.mem_cons_self))
  · rw [hclean]
    intro h
    rw [List.dropWhile_cons_of_neg (by simp [hbt])] at h
    exact hs (h b rfl)

theorem document_singleton {J : Json} {d : Bytes} (hd : Document J d) : Singleton d ↔ CleanEnd d := by
  obtain ⟨u, v, p, hu, hv, hp, rfl⟩ := hd
  by_cases hJ : J.IsBare
  · cases hv with
    | bare hb => exact bare_singleton hu hb hp
    | quoted => exact hJ.elim
    | coll => exact absurd hJ (Kind.build_not_bare _ _)
  · have hblank : Blank p := hp.elim id fun h => absurd h.1 hJ
    refine iff_of_true ⟨u, v, p, hu, ?_, hblank, rfl⟩ ?_
    · cases hv with
      | bare hb => exact absurd hb.isBare hJ
      | quoted hb => exact .str hb
      | coll hxs hl => exact .coll (Kind.build_isCollection _ _) (.coll hxs hl)
    · obtain ⟨b, t, rfl, hb⟩ := hv.opener hJ
      obtain ⟨b', t', he, hf, -⟩ := hv.head
      cases he
      refine .inl ⟨b, ?_, hb⟩
      rw [dropWhile_blank hu fun c hc => by cases hc; exact hf.1]
      rfl

/-- **An accepted document is a single value** unless a comma or a bracket ends an unquoted root. -/
theorem singleton_iff {node : Ptr} (hh : w.Heeds) (h : Returns w (true, node) w') :
    Singleton w.input ↔ CleanEnd w.input := by
  rcases hh.cases with hg | hf
  · rcases parse_outcome hg h with ⟨t, J, ha⟩ | ⟨c, offset, lastEnd, hr⟩
    · exact document_singleton ha.document
    · cases hr.result
  · cases (refused_outcome hf h).result

theorem singleton_array : ∃ node w', Returns (World.start (cs " [1, \"a\"] ") .eof) (true, node) w' ∧
    (Singleton (cs " [1, \"a\"] ") ↔ CleanEnd (cs " [1, \"a\"] ")) := by
  obtain ⟨node, w', h⟩ := @succeeds_returns (World.start (cs " [1, \"a\"] ") .eof) 80 (by decide +kernel)
  exact ⟨node, w', h, singleton_iff ((start_ample _ _).grants _).heeds h⟩

/-- A comma behind the root is accepted. -/
theorem comma_behind_root : ∃ node w', Returns (World.start (cs "1,") .eof) (true, node) w' ∧
    ¬ Singleton (cs "1,") := by
  obtain ⟨node, w', h⟩ := @succeeds_returns (World.start (cs "1,") .eof) 20 (by decide +kernel)
  refine ⟨node, w', h, ?_⟩
  have hunclean : ¬ CleanEnd (cs "1,") := by
    unfold CleanEnd
    decide
  rcases parse_outcome ((start_ample _ _).grants _) h with ⟨t, J, ha⟩ | ⟨c, offset, lastEnd, hr⟩
  · exact mt (document_singleton ha.document).1 hunclean
  · cases hr.result

end JsonDom
