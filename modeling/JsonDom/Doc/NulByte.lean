import JsonDom.Proof.Outcome

/-!
# NUL bytes

Which files with a NUL are parsed (`nul_rejected_iff`). `NulDocument J d`: the text `d` of `J` has a
NUL where the parser does not refuse it: between the quotes of a string or a label, where it takes
the byte for its own sentinel in front of a value, or as the byte that ends an unquoted scalar.
-/

namespace JsonDom

open Lib OTree

variable {w w' : World} {k : Kind}

/-! ## Where a NUL can stand -/

/-- A NUL in the label, or between the bracket, comma or colon and the value. -/
def Piece.Hides (x : Piece) (k : Kind) (m : Bytes) : Prop :=
  match k with
  | .arr => ∃ u, Blank u ∧ m = 0 :: (u ++ x.text)
  | .obj => 0 ∈ x.label ∨
      ∃ c u, Colons c ∧ Blank u ∧ m = ch '"' :: (x.label ++ ch '"' :: (c ++ 0 :: (u ++ x.text)))

/-- Members, one of which has a NUL in its label or around its value. -/
def NulItems (k : Kind) : List Piece → Bytes → Prop
  | [], _ => False
  | x :: xs, t => ∃ w m g r, Blank w ∧ x.Member k m ∧ Gap x.value g ∧ t = w ++ (m ++ (g ++ r)) ∧
      Rest k xs r ∧ (x.Hides k m ∨ (x.value.IsBare ∧ ∃ u, Blank u ∧ g = 0 :: u) ∨
        ∃ r', r = ch ',' :: r' ∧ NulItems k xs r')

/-- A text of the value with a NUL in it. -/
inductive NulText : Json → Bytes → Prop
  | body {s : Bytes} : Body s → 0 ∈ s → NulText (.str s) (ch '"' :: (s ++ [ch '"']))
  | member {k : Kind} {xs : List Piece} {t : Bytes} : (∀ x ∈ xs, Renders x.value x.text) →
      NulItems k xs t → NulText (k.build (xs.map Piece.pair)) (k.openChar :: t)
  | nested {k : Kind} {xs : List Piece} {x : Piece} {t : Bytes} : (∀ x ∈ xs, Renders x.value x.text) →
      Layout k xs t → x ∈ xs → NulText x.value x.text →
      NulText (k.build (xs.map Piece.pair)) (k.openChar :: t)

/-- A document with a NUL in its value, or behind its unquoted root. -/
def NulDocument (J : Json) (d : Bytes) : Prop :=
  ∃ w v p, Blank w ∧ d = w ++ (v ++ p) ∧
    (NulText J v ∧ Trailer J p ∨ Renders J v ∧ J.IsBare ∧ ∃ u, Blank u ∧ p = 0 :: u)

/-! ## They are documents -/

theorem NulItems.items {xs : List Piece} {t : Bytes} (h : NulItems k xs t) : Items k xs t := by
  cases xs with
  | nil => exact h
  | cons x xs =>
    obtain ⟨w, m, g, r, hw, hm, hg, ht, hr, -⟩ := h
    exact ⟨w, m, g, r, hw, hm, hg, ht, hr⟩

theorem NulText.renders {J : Json} {v : Bytes} (h : NulText J v) : Renders J v := by
  cases h with
  | body hs => exact .quoted hs
  | member hxs hi => exact .coll hxs (.inr hi.items)
  | nested hxs hl => exact .coll hxs hl

theorem NulDocument.document {J : Json} {d : Bytes} (h : NulDocument J d) : Document J d := by
  obtain ⟨w, v, p, hw, rfl, ⟨hv, hp⟩ | ⟨hv, hJ, u, hu, rfl⟩⟩ := h
  · exact ⟨w, v, p, hw, hv.renders, hp, rfl⟩
  · exact ⟨w, v, _, hw, hv, .inr ⟨hJ, .inr ⟨0, u, by decide, hu, rfl⟩⟩, rfl⟩

/-! ## There are no others -/

theorem Blank.no_zero {w : Bytes} (h : Blank w) : (0 : UInt8) ∉ w := fun h0 => by
  cases h 0 h0

theorem Colons.no_zero {c : Bytes} (h : Colons c) : (0 : UInt8) ∉ c := fun h0 => by
  rcases h.1 0 h0 with h | h <;> cases h

theorem Piece.Parts.hides {x : Piece} {m : Bytes} (h : x.Parts k m) (h0 : 0 ∈ m) :
    x.Hides k m ∨ 0 ∈ x.text := by
  cases k with
  | arr =>
    obtain ⟨-, l, rfl | ⟨u, hu, rfl⟩, rfl⟩ := h
    · exact .inr h0
    · exact .inl ⟨u, hu, rfl⟩
  | obj =>
    obtain ⟨-, c, l, hc, hl, rfl⟩ := h
    rcases hl with rfl | ⟨u, hu, rfl⟩
    · simp only [List.mem_cons, List.mem_append, List.nil_append, hc.no_zero, false_or] at h0
      rcases h0 with h0 | h0 | h0 | h0
      · cases h0
      · exact .inl (.inl h0)
      · cases h0
      · exact .inr h0
    · exact .inl (.inr ⟨c, u, hc, hu, rfl⟩)

theorem Items.nul {xs : List Piece} {t : Bytes} (h : Items k xs t) (h0 : 0 ∈ t) :
    NulItems k xs t ∨ ∃ x ∈ xs, 0 ∈ x.text := by
  induction xs generalizing t with
  | nil => exact h.elim
  | cons x xs ih =>
    obtain ⟨w, m, g, r, hw, hm, hg, rfl, hr⟩ := h
    simp only [List.mem_append, hw.no_zero, false_or] at h0
    rcases h0 with h0 | h0 | h0
    · refine (hm.1.hides h0).imp (fun hh => ?_) fun ht => ⟨x, List.mem_cons_self, ht⟩
      exact ⟨w, m, g, r, hw, hm, hg, rfl, hr, .inl hh⟩
    · rcases hg with hg | ⟨hJ, u, hu, rfl⟩
      · exact absurd h0 hg.no_zero
      · exact .inl ⟨w, m, _, r, hw, hm, .inr ⟨hJ, u, hu, rfl⟩, rfl, hr, .inr (.inl ⟨hJ, u, hu, rfl⟩)⟩
    · rcases hr with ⟨rfl, rfl⟩ | ⟨r', rfl, hr⟩
      · exact absurd (List.mem_singleton.1 h0) (by cases k <;> decide)
      · have h0' : 0 ∈ r' := (List.mem_cons.1 h0).resolve_left (by decide)
        refine (ih hr h0').imp (fun hh => ?_) fun ⟨y, hy, ht⟩ => ⟨y, List.mem_cons_of_mem _ hy, ht⟩
        exact ⟨w, m, g, _, hw, hm, hg, rfl, .inr ⟨r', rfl, hr⟩, .inr (.inr ⟨r', rfl, hh⟩)⟩

theorem Renders.nul {J : Json} {v : Bytes} (h : Renders J v) (h0 : 0 ∈ v) : NulText J v := by
  induction h with
  | bare hb => exact absurd rfl (bare_plain hb 0 h0).ne_zero
  | quoted hs =>
    simp only [List.mem_cons, List.mem_append, List.not_mem_nil, or_false] at h0
    rcases h0 with h0 | h0 | h0
    · cases h0
    · exact .body hs h0
    · cases h0
  | @coll k xs t hxs hl ih =>
    have h0' : 0 ∈ t := (List.mem_cons.1 h0).resolve_left (by cases k <;> decide)
    rcases hl with ⟨rfl, w, hw, rfl⟩ | hi
    · rcases List.mem_append.1 h0' with h0 | h0
      · exact absurd h0 hw.no_zero
      · exact absurd (List.mem_singleton.1 h0) (by cases k <;> decide)
    · rcases hi.nul h0' with hn | ⟨x, hx, hx0⟩
      · exact .member hxs hn
      · exact .nested hxs (.inr hi) hx (ih x hx hx0)

theorem Document.nul {J : Json} {d : Bytes} (h : Document J d) (h0 : 0 ∈ d) : NulDocument J d := by
  obtain ⟨w, v, p, hw, hv, hp, rfl⟩ := h
  simp only [List.mem_append, hw.no_zero, false_or] at h0
  rcases h0 with h0 | h0
  · exact ⟨w, v, p, hw, rfl, .inl ⟨hv.nul h0, hp⟩⟩
  · refine ⟨w, v, p, hw, rfl, .inr ⟨hv, ?_⟩⟩
    rcases hp with hp | ⟨hJ, rfl | ⟨b, u, -, hu, rfl⟩⟩
    · exact absurd h0 hp.no_zero
    · cases List.mem_singleton.1 h0
    · obtain rfl := (List.mem_cons.1 h0).resolve_right hu.no_zero
      exact ⟨hJ, u, hu, rfl⟩

/-! ## What becomes of them -/

/-- **A file with a NUL is rejected** where a request is refused, and otherwise unless every NUL in it
is where the parser does not look. -/
theorem nul_rejected_iff (hh : w.Heeds) (he : w.ending = .eof) (h0 : 0 ∈ w.input) :
    (∃ w', Returns w (false, none) w') ↔ w.Refuses w.requests ∨ ¬ ∃ J, NulDocument J w.input := by
  rcases hh.cases with hg | hf
  · rw [or_iff_right hg.not_refuses]
    constructor
    · rintro ⟨w', hret⟩ ⟨J, hd⟩
      obtain ⟨t, w'', hret', -⟩ := document_parsed hg hd.document
      cases (hret.unique hret').1
    · intro hno
      obtain ⟨result, w', hret⟩ := returns_of_verdict hg (by
        rw [World.verdict, he]
        exact Scan.atEnd_eof _)
      rcases parse_outcome hg hret with ⟨t, J, ha⟩ | ⟨c, offset, lastEnd, hr⟩
      · exact absurd ⟨J, ha.document.nul h0⟩ hno
      · exact ⟨w', hr.result ▸ hret⟩
  · obtain ⟨result, w', hret⟩ := refused_returns hf
    exact iff_of_true ⟨w', (refused_outcome hf hret).result ▸ hret⟩ (.inl hf)

/-- An object with a NUL behind the number of an array, and one in front of a number. -/
def nulObject : Bytes := cs "\x7b\"a\":[true, 1" ++ 0 :: cs "],\"b\":" ++ 0 :: cs " 2\x7d"

theorem nul_rejected_iff_object : (∃ w', Returns (World.start nulObject .eof) (false, none) w') ↔
    (World.start nulObject .eof).Refuses (World.start nulObject .eof).requests ∨ ¬ ∃ J, NulDocument J nulObject :=
  nul_rejected_iff ((start_ample nulObject .eof).grants _).heeds rfl (by decide)

/-- A string with a NUL is accepted, and its payload read as a C string ends in front of it. -/
theorem nul_in_string : ∃ a w' n, Returns (World.start (cs "\"a" ++ [0] ++ cs "b\"") .eof) (true, some a) w' ∧
    w'.heap.get? a = some (.node n) ∧ getString n.payload w' = .ok (cs "a", w') := by
  have hbody : Body (cs "a" ++ [0] ++ cs "b") :=
    @Body.plain 97 _ (by decide) (by decide) (@Body.plain 0 _ (by decide) (by decide)
      (@Body.plain 98 [] (by decide) (by decide) .nil))
  obtain ⟨t, w', hret, ha⟩ := @document_parsed (World.start (cs "\"a" ++ [0] ++ cs "b\"") .eof)
    (.str (cs "a" ++ [0] ++ cs "b")) ((start_ample _ _).grants _) ⟨[], _, [], .nil, .quoted hbody, .inl .nil, rfl⟩
  obtain ⟨n, hn, -, q, hq, htext⟩ : Content w'.heap t.addr .jdString (some (cs "a" ++ [0] ++ cs "b")) := by
    generalize hJ : Json.str (cs "a" ++ [0] ++ cs "b") = J at ha
    have hd := ha.denotes
    cases hd with
    | scalar _ hc =>
      subst hJ
      exact hc
    | @coll a k xs => cases k <;> cases hJ
  refine ⟨t.addr, w', n, hret, hn, ?_⟩
  rw [hq, getString_run w' htext (by simp)]
  rfl

end JsonDom
