import JsonDom.Spec.Grammar

/-!
# The texts without a NUL

`Strict J v`: the text `v` of `J` has exactly one comma between two members of a collection, none in
front of the first and none behind the last, and the closing bracket of its own kind, at every level.
A text without a NUL is strict (`Renders.strict`).
-/

namespace JsonDom

/-- Members with exactly one comma between two, then the closing bracket; whitespace on both sides
of each. -/
def Separated (k : Kind) : List Bytes → Bytes → Prop
  | [], t => ∃ u, Blank u ∧ t = u ++ [k.closeChar]
  | [m], t => ∃ u v, Blank u ∧ Blank v ∧ t = u ++ (m ++ (v ++ [k.closeChar]))
  | m :: m' :: ms, t => ∃ u v r, Blank u ∧ Blank v ∧ t = u ++ (m ++ (v ++ ch ',' :: r)) ∧
      Separated k (m' :: ms) r

/-- The text of an element, or a label, a colon and the text of a value. -/
def Piece.Spelled (k : Kind) (x : Piece) (m : Bytes) : Prop :=
  match k with
  | .arr => x.label = [] ∧ m = x.text
  | .obj => Body x.label ∧ ∃ c, Colons c ∧ m = ch '"' :: (x.label ++ ch '"' :: (c ++ x.text))

inductive Strict : Json → Bytes → Prop
  | bare {J : Json} {t : Bytes} : Bare J t → Strict J t
  | quoted {s : Bytes} : Body s → Strict (.str s) (ch '"' :: (s ++ [ch '"']))
  | coll {k : Kind} {xs : List Piece} {ms : List Bytes} {t : Bytes} :
      (∀ x ∈ xs, Strict x.value x.text) → List.Forall₂ (Piece.Spelled k) xs ms → Separated k ms t →
      Strict (k.build (xs.map Piece.pair)) (k.openChar :: t)

theorem separated_cons {k : Kind} {m t : Bytes} {ms : List Bytes} : Separated k (m :: ms) t ↔
    ∃ u v r, Blank u ∧ Blank v ∧ t = u ++ (m ++ (v ++ r)) ∧
      (ms = [] ∧ r = [k.closeChar] ∨ ∃ r', r = ch ',' :: r' ∧ ms ≠ [] ∧ Separated k ms r') := by
  cases ms with
  | nil =>
    constructor
    · rintro ⟨u, v, hu, hv, rfl⟩
      exact ⟨u, v, _, hu, hv, rfl, .inl ⟨rfl, rfl⟩⟩
    · rintro ⟨u, v, r, hu, hv, rfl, ⟨-, rfl⟩ | ⟨r', -, hne, -⟩⟩
      · exact ⟨u, v, hu, hv, rfl⟩
      · exact absurd rfl hne
  | cons m' ms =>
    constructor
    · rintro ⟨u, v, r, hu, hv, rfl, h⟩
      exact ⟨u, v, _, hu, hv, rfl, .inr ⟨r, rfl, List.cons_ne_nil _ _, h⟩⟩
    · rintro ⟨u, v, r, hu, hv, rfl, ⟨hne, -⟩ | ⟨r', rfl, -, h⟩⟩
      · cases hne
      · exact ⟨u, v, r', hu, hv, rfl, h⟩

/-! ## Without a NUL -/

theorem Lead.eq_nil {l : Bytes} (h : Lead l) (h0 : (0 : UInt8) ∉ l) : l = [] := by
  rcases h with rfl | ⟨w, -, rfl⟩
  · rfl
  · exact absurd List.mem_cons_self h0

theorem Gap.blank {J : Json} {g : Bytes} (h : Gap J g) (h0 : (0 : UInt8) ∉ g) : Blank g := by
  rcases h with h | ⟨-, w, -, rfl⟩
  · exact h
  · exact absurd List.mem_cons_self h0

theorem Piece.Parts.spelled {x : Piece} {k : Kind} {m : Bytes} (h : x.Parts k m)
    (h0 : (0 : UInt8) ∉ m) : x.Spelled k m ∧ (0 : UInt8) ∉ x.text := by
  cases k with
  | arr =>
    obtain ⟨hl, l, hlead, rfl⟩ := h
    rw [List.mem_append, not_or] at h0
    obtain rfl := hlead.eq_nil h0.1
    exact ⟨⟨hl, rfl⟩, h0.2⟩
  | obj =>
    obtain ⟨hb, c, l, hc, hlead, rfl⟩ := h
    simp only [List.mem_cons, List.mem_append, not_or] at h0
    obtain ⟨-, -, -, -, h0, h0'⟩ := h0
    obtain rfl := hlead.eq_nil h0
    exact ⟨⟨hb, c, hc, rfl⟩, h0'⟩

theorem Items.separated {k : Kind} {xs : List Piece} {t : Bytes} (h : Items k xs t)
    (h0 : (0 : UInt8) ∉ t) : ∃ ms, ms ≠ [] ∧ List.Forall₂ (Piece.Spelled k) xs ms ∧ Separated k ms t ∧
      ∀ x ∈ xs, (0 : UInt8) ∉ x.text := by
  induction xs generalizing t with
  | nil => exact h.elim
  | cons x xs ih =>
    obtain ⟨w, m, g, r, hw, hm, hg, rfl, hrest⟩ := h
    simp only [List.mem_append, not_or] at h0
    obtain ⟨-, hm0, hg0, hr0⟩ := h0
    obtain ⟨hsp, ht0⟩ := hm.1.spelled hm0
    rcases hrest with ⟨rfl, rfl⟩ | ⟨r', rfl, hr⟩
    · exact ⟨[m], List.cons_ne_nil _ _, .cons hsp .nil, separated_cons.2 ⟨w, g, _, hw, hg.blank hg0, rfl,
        .inl ⟨rfl, rfl⟩⟩, by simpa using ht0⟩
    · obtain ⟨ms, hne, hms, hsep, hxs⟩ := ih hr (fun h => hr0 (List.mem_cons_of_mem _ h))
      exact ⟨m :: ms, List.cons_ne_nil _ _, .cons hsp hms, separated_cons.2 ⟨w, g, _, hw, hg.blank hg0, rfl,
        .inr ⟨r', rfl, hne, hsep⟩⟩, List.forall_mem_cons.2 ⟨ht0, hxs⟩⟩

/-- **A text without a NUL is strict.** -/
theorem Renders.strict {J : Json} {v : Bytes} (h : Renders J v) (h0 : (0 : UInt8) ∉ v) : Strict J v := by
  induction h with
  | bare hb => exact .bare hb
  | quoted hs => exact .quoted hs
  | @coll k xs t _ hlay ih =>
    have ht0 : (0 : UInt8) ∉ t := fun h => h0 (List.mem_cons_of_mem _ h)
    rcases hlay with ⟨rfl, hblank⟩ | hitems
    · exact @Strict.coll k [] [] t nofun .nil hblank
    · obtain ⟨ms, -, hms, hsep, hxs⟩ := hitems.separated ht0
      exact .coll (fun x hx => ih x hx (hxs x hx)) hms hsep

end JsonDom
