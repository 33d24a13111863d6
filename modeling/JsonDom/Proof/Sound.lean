import JsonDom.Proof.Acts
import JsonDom.Proof.Reading

/-!
# What the reader accepts is in the grammar

One statement for each function of the reader (`ValueSound`, …), each proved for `fuel + 1` from
the statements for `fuel` of the functions it calls, and all of them together by induction
(`reader_sound`). A member that ends in an unquoted scalar is left behind the byte that ended it:
that byte is the comma, the bracket or the first byte of the gap behind the member.
-/

namespace JsonDom

open Reader

/-- The byte handed over to `value`, where it is one, and the bytes read. -/
def taken (firstChar : UInt8) (used : Bytes) : Bytes :=
  if firstChar = 0 then used else firstChar :: used

/-- Blanks, then what follows a member that is not the last: a comma or bracket and the rest. -/
def After (k : Kind) (xs : List Piece) (t : Bytes) : Prop :=
  ∃ g r, Blank g ∧ t = g ++ r ∧ Rest k xs r

/-- What the rest of a collection looks like to `items`. -/
def Remaining (k : Kind) (acc : List (Bytes × Json)) (needsMember : Bool) (xs : List Piece)
    (t : Bytes) : Prop :=
  if needsMember then Items k xs t else if acc = [] then Layout k xs t else After k xs t

theorem Remaining.blank_cons {k : Kind} {acc : List (Bytes × Json)} {needsMember : Bool}
    {xs : List Piece} {t : Bytes} {b : UInt8} (hb : isspace b = true)
    (h : Remaining k acc needsMember xs t) : Remaining k acc needsMember xs (b :: t) := by
  have hitems : ∀ {xs}, Items k xs t → Items k xs (b :: t) := by
    intro xs h
    cases xs with
    | nil => exact h
    | cons x xs =>
      obtain ⟨w, m, g, r, hw, hm, hg, rfl, hr⟩ := h
      exact ⟨b :: w, m, g, r, JsonDom.blank_cons.2 ⟨hb, hw⟩, hm, hg, rfl, hr⟩
  unfold Remaining at h ⊢
  split
  · next hn => rw [if_pos hn] at h; exact hitems h
  next hn =>
  rw [if_neg hn] at h
  split
  · next ha =>
    rw [if_pos ha] at h
    rcases h with ⟨rfl, w, hw, rfl⟩ | h
    · exact .inl ⟨rfl, b :: w, JsonDom.blank_cons.2 ⟨hb, hw⟩, rfl⟩
    · exact .inr (hitems h)
  · next ha =>
    rw [if_neg ha] at h
    obtain ⟨g, r, hg, rfl, hr⟩ := h
    exact ⟨b :: g, r, JsonDom.blank_cons.2 ⟨hb, hg⟩, rfl, hr⟩

def AllRender (xs : List Piece) : Prop := ∀ x ∈ xs, Renders x.value x.text

def ValueSound (fuel : Nat) : Prop := ∀ {firstChar s J e s'},
  value fuel firstChar s = .ok (J, e) s' →
    ∃ used w v z, Ate s used s' ∧ Blank w ∧ Renders J v ∧ Stop J e z s'.input ∧
      taken firstChar used = w ++ (v ++ z)

def CollectionSound (fuel : Nat) : Prop := ∀ {k s J s'}, collection fuel k s = .ok J s' →
  ∃ xs t, Ate s t s' ∧ AllRender xs ∧ Layout k xs t ∧ J = k.build (xs.map Piece.pair)

def ItemsSound (fuel : Nat) : Prop := ∀ {k acc needsMember s ms s'},
  items fuel k acc needsMember s = .ok ms s' →
    ∃ xs t, Ate s t s' ∧ AllRender xs ∧ ms = acc ++ xs.map Piece.pair ∧
      Remaining k acc needsMember xs t

def ItemSound (fuel : Nat) : Prop := ∀ {k acc chr s ms s'}, isspace chr = false →
  item fuel k acc chr s = .ok ms s' →
    ∃ (x : Piece) (xs : List Piece) (t m g r : Bytes), Ate s t s' ∧ AllRender (x :: xs) ∧
      ms = acc ++ (x :: xs).map Piece.pair ∧ x.Member k m ∧ Gap x.value g ∧ Rest k xs r ∧ chr :: t = m ++ (g ++ r)

def MemberSound (fuel : Nat) : Prop := ∀ {k chr s p e s'}, isspace chr = false →
  member fuel k chr s = .ok (p, e) s' →
    ∃ (x : Piece) (used m z : Bytes), Ate s used s' ∧ x.pair = p ∧ x.Parts k m ∧
      Renders x.value x.text ∧ Stop x.value e z s'.input ∧ chr :: used = m ++ z

def PropertySound (fuel : Nat) : Prop := ∀ {chr s p e s'}, property fuel chr s = .ok (p, e) s' →
  ∃ (x : Piece) (used m z : Bytes), Ate s used s' ∧ x.pair = p ∧ x.Parts .obj m ∧
    Renders x.value x.text ∧ Stop x.value e z s'.input ∧ chr :: used = m ++ z

def AfterLabelSound (fuel : Nat) : Prop := ∀ {pastColon s J e s'},
  afterLabel fuel pastColon s = .ok (J, e) s' →
    ∃ used c l v z, Ate s used s' ∧ (∀ b ∈ c, isspace b = true ∨ b = ch ':') ∧
      (pastColon = true ∨ ch ':' ∈ c) ∧ Lead l ∧ Renders J v ∧ Stop J e z s'.input ∧
      used = c ++ (l ++ (v ++ z))

/-! ## Values -/

theorem blanks_sound {fuel : Nat} {c b : UInt8} {s s' : Src} (h : blanks fuel c s = .ok b s') :
    isspace b = false ∧ s'.pe = s.pe ∧ ∃ used w, Ate s used s' ∧ Blank w ∧ c :: used = w ++ [b] := by
  induction fuel generalizing c s with
  | zero => cases h
  | succ fuel ih =>
    unfold blanks at h
    by_cases hc : isspace c = true
    · rw [if_pos hc] at h
      rcases hr : s.read with ⟨chr | _ | _, s1⟩ <;> simp only [hr] at h
      · obtain ⟨hb, hpe, used, w, hate, hw, he⟩ := ih h
        obtain ⟨h1, hpe1⟩ := read_one hr
        exact ⟨hb, hpe.trans hpe1, chr :: used, c :: w, h1.cons hate, blank_cons.2 ⟨hc, hw⟩,
          by rw [he]; rfl⟩
      · cases h
      · obtain ⟨rfl, -, -⟩ := read_minusOne hr
        exact ih h
    · rw [if_neg hc] at h
      cases h
      exact ⟨by simpa using hc, rfl, [], [], .refl _, .nil, rfl⟩

/-- The bytes `value` has taken when `blanks` has found its first byte. -/
theorem taken_blanks {firstChar b : UInt8} {used w rest : Bytes} (hb : isspace b = false)
    (hw : Blank w) (h : (if firstChar ≠ 0 then firstChar else ch ' ') :: used = w ++ [b]) :
    ∃ w', Blank w' ∧ taken firstChar (used ++ rest) = w' ++ (b :: rest) := by
  by_cases hz : firstChar = 0
  · rw [if_neg (by simpa using hz)] at h
    cases w with
    | nil =>
      rw [List.nil_append, List.cons.injEq] at h
      rw [← h.1] at hb
      cases hb
    | cons c w =>
      rw [List.cons_append, List.cons.injEq] at h
      exact ⟨w, (blank_cons.1 hw).2, by rw [taken, if_pos hz, h.2, List.append_assoc]; rfl⟩
  · rw [if_pos hz] at h
    exact ⟨w, hw, by rw [taken, if_neg hz, ← List.cons_append, h, List.append_assoc]; rfl⟩

theorem valueSound_succ {fuel : Nat} (hc : CollectionSound fuel) : ValueSound (fuel + 1) := by
  intro firstChar s J e s' h
  unfold value at h
  obtain ⟨b, s1, hb, h⟩ := Out.bind_eq_ok h
  obtain ⟨hsp, -, used1, w, hate1, hw, he⟩ := blanks_sound hb
  have coll : ∀ k : Kind, b = k.openChar →
      ((collection fuel k s1).bind fun J s => .ok (J, none) s) = .ok (J, e) s' →
      ∃ used w v z, Ate s used s' ∧ Blank w ∧ Renders J v ∧ Stop J e z s'.input ∧
        taken firstChar used = w ++ (v ++ z) := by
    intro k hk h
    obtain ⟨J', s2, hJ, h⟩ := Out.bind_eq_ok h
    cases h
    obtain ⟨xs, t, hate2, hxs, hlay, rfl⟩ := hc hJ
    obtain ⟨w', hw', htk⟩ := @taken_blanks firstChar b used1 w t hsp hw he
    exact ⟨used1 ++ t, w', k.openChar :: t, [], hate1.trans hate2, hw', .coll hxs hlay,
      .bracket (Kind.build_isCollection _ _), by rw [htk, hk, List.append_nil]⟩
  split at h
  · next hbr => exact coll .arr hbr h
  split at h
  · next hbr => exact coll .obj hbr h
  obtain ⟨⟨J', stop⟩, s2, hs, h⟩ := Out.bind_eq_ok h
  cases h
  obtain ⟨-, used2, v, z, hate2, hvz, hr, hst⟩ := scalar_sound hs
  obtain ⟨w', hw', htk⟩ := @taken_blanks firstChar b used1 w used2 hsp hw he
  exact ⟨used1 ++ used2, w', v, z, hate1.trans hate2, hw', hr, hst, by rw [htk, hvz]⟩

/-- A value read from a byte that is not a blank: the text, possibly with a NUL in front. -/
theorem ValueSound.lead {fuel : Nat} (hv : ValueSound fuel) {chr : UInt8} {s s' : Src} {J : Json}
    {e : Option UInt8} (hsp : isspace chr = false) (h : value fuel chr s = .ok (J, e) s') :
    ∃ used l v z, Ate s used s' ∧ Lead l ∧ Renders J v ∧ Stop J e z s'.input ∧
      chr :: used = l ++ (v ++ z) := by
  obtain ⟨used, w, v, z, hate, hw, hr, hst, htk⟩ := hv h
  by_cases hz : chr = 0
  · rw [taken, if_pos hz] at htk
    exact ⟨used, 0 :: w, v, z, hate, .inr ⟨w, hw, rfl⟩, hr, hst, by rw [hz, htk]; rfl⟩
  · rw [taken, if_neg hz] at htk
    obtain ⟨rfl, ht⟩ := hw.eq_nil_of_cons hsp htk
    exact ⟨used, [], v, z, hate, .inl rfl, hr, hst, ht.symm⟩

/-! ## Members -/

theorem afterLabelSound_succ {fuel : Nat} (hv : ValueSound fuel) (ha : AfterLabelSound fuel) :
    AfterLabelSound (fuel + 1) := by
  intro pastColon s J e s' h
  unfold afterLabel at h
  rcases hr : s.read with ⟨chr | _ | _, s1⟩ <;> simp only [hr] at h
  · obtain ⟨h1, -⟩ := read_one hr
    split at h
    · next hsp =>
      obtain ⟨used, c, l, v, z, hate, hc, hpast, hl, hren, hst, rfl⟩ := ha h
      exact ⟨_, chr :: c, l, v, z, h1.cons hate, List.forall_mem_cons.2 ⟨.inl hsp, hc⟩,
        hpast.imp_right (List.mem_cons_of_mem _), hl, hren, hst, rfl⟩
    · next hsp =>
      split at h
      · next hcol =>
        obtain ⟨used, c, l, v, z, hate, hc, -, hl, hren, hst, rfl⟩ := ha h
        exact ⟨_, chr :: c, l, v, z, h1.cons hate, List.forall_mem_cons.2 ⟨.inr hcol, hc⟩,
          .inr (hcol ▸ List.mem_cons_self), hl, hren, hst, rfl⟩
      · split at h
        · next hpast =>
          obtain ⟨used, l, v, z, hate, hl, hren, hst, he⟩ := hv.lead (by simpa using hsp) h
          exact ⟨_, [], l, v, z, h1.cons hate, by simp, .inl hpast, hl, hren, hst, he⟩
        · cases h
  · cases h
  · cases h

theorem memberSound_succ {fuel : Nat} (hv : ValueSound fuel) (hp : PropertySound fuel) :
    MemberSound (fuel + 1) := by
  intro k chr s p e s' hsp h
  cases k with
  | arr =>
    unfold member at h
    obtain ⟨⟨J, e'⟩, s1, hJ, h⟩ := Out.bind_eq_ok h
    cases h
    obtain ⟨used, l, v, z, hate, hl, hren, hst, he⟩ := hv.lead hsp hJ
    exact ⟨⟨[], J, v⟩, used, l ++ v, z, hate, rfl, ⟨rfl, l, hl, rfl⟩, hren, hst,
      by rw [he, List.append_assoc]⟩
  | obj =>
    unfold member at h
    exact hp h

theorem propertySound_succ {fuel : Nat} (ha : AfterLabelSound fuel) :
    PropertySound (fuel + 1) := by
  intro chr s p e s' h
  unfold property at h
  split at h
  · cases h
  · next hq =>
    obtain ⟨label, s1, hlab, h⟩ := Out.bind_eq_ok h
    obtain ⟨⟨J, e'⟩, s2, hJ, h⟩ := Out.bind_eq_ok h
    cases h
    obtain ⟨hbody, h1, -⟩ := quoted_sound hlab
    obtain ⟨used, c, l, v, z, h2, hc, hpast, hl, hren, hst, rfl⟩ := ha hJ
    refine ⟨⟨label, J, v⟩, _, _, z, h1.trans h2, rfl,
      ⟨hbody, c, l, ⟨hc, hpast.resolve_left (by simp)⟩, hl, rfl⟩, hren, hst, ?_⟩
    simp [show chr = ch '"' by simpa using hq]

/-! ## The rest of a collection -/

/-- What follows a member: the byte that ended an unquoted scalar belongs to the gap, or is the
comma or bracket itself. -/
theorem itemSound_succ {fuel : Nat} (hi : ItemsSound fuel) (hm : MemberSound fuel) :
    ItemSound (fuel + 1) := by
  intro k acc chr s ms s' hsp h
  unfold item at h
  obtain ⟨⟨p, e⟩, s1, hp, h⟩ := Out.bind_eq_ok h
  obtain ⟨x, used, m, z, hate, rfl, hparts, hren, hst, he⟩ := hm hsp hp
  dsimp only at h
  generalize hrest : s1.input = rest at hst
  generalize hval : x.value = J at hst
  -- the shape of the result once the gap and the rest behind the member are known
  have finish : ∀ {xs t g r}, (J.IsStr → m.head? = some (ch '"')) → Ate s1 t s' →
      AllRender xs → Gap x.value g → Rest k xs r →
      z ++ t = g ++ r → ms = acc ++ [x.pair] ++ xs.map Piece.pair →
      ∃ (x : Piece) (xs : List Piece) (t m g r : Bytes), Ate s t s' ∧ AllRender (x :: xs) ∧
        ms = acc ++ (x :: xs).map Piece.pair ∧ x.Member k m ∧ Gap x.value g ∧ Rest k xs r ∧
        chr :: t = m ++ (g ++ r) := by
    intro xs t g r hhead hate' hxs hg hr hz hms
    exact ⟨x, xs, used ++ t, m, g, r, hate.trans hate', List.forall_mem_cons.2 ⟨hren, hxs⟩,
      by simpa using hms, ⟨hparts, hval ▸ hhead⟩, hg, hr,
      by rw [← List.cons_append, he, List.append_assoc, hz]⟩
  by_cases hcomma : e.getD 0 = ch ','
  · rw [if_pos hcomma] at h
    obtain ⟨xs, t, hate', hxs, hms, hrem⟩ := hi h
    cases hst with
    | @char _ b _ hb =>
      exact finish (absurd · hb.not_str) hate' hxs (.inl .nil) (.inr ⟨t, rfl, hrem⟩)
        (by rw [show b = ch ',' from hcomma]; rfl) hms
    | eof | quote | bracket => exact absurd hcomma (by decide)
  rw [if_neg hcomma] at h
  by_cases hclose : e.getD 0 = k.closeChar
  · rw [if_pos hclose] at h
    cases h
    cases hst with
    | @char _ b _ hb =>
      exact finish (absurd · hb.not_str) (.refl _) (by simp [AllRender]) (.inl .nil) (.inl ⟨rfl, rfl⟩)
        (by rw [show b = k.closeChar from hclose]; rfl) (by simp)
    | eof | quote | bracket => cases k <;> exact absurd hclose (by decide)
  rw [if_neg hclose] at h
  split at h
  · next hcont =>
    obtain ⟨xs, t, hate', hxs, hms, hrem⟩ := hi h
    rw [Remaining, if_neg (by simp), if_neg (by simp)] at hrem
    obtain ⟨g, r, hg, rfl, hr⟩ := hrem
    cases hst with
    | bracket hc => exact finish (absurd · hc.not_str) hate' hxs (.inl hg) hr rfl hms
    | quote =>
      have hchr : chr = ch '"' := by
        simpa [show ch '"' ≠ 0 by decide, show isspace (ch '"') = false by decide] using hcont
      refine finish (fun _ => ?_) hate' hxs (.inl hg) hr rfl hms
      rw [List.append_nil] at he
      rw [← he, hchr]
      rfl
    | eof =>
      -- at the end of the file there is no rest of the collection
      have hnil := hate'.input.symm.trans hrest
      rcases hr with ⟨-, rfl⟩ | ⟨r', rfl, -⟩ <;> simp at hnil
    | @char _ b _ hb hend =>
      simp only [Option.getD_some, Bool.or_eq_true, Bool.and_eq_true, decide_eq_true_eq] at hcont
      rcases hcont with (⟨rfl, -⟩ | rfl) | hspace
      · exact absurd hend (by decide)
      · exact finish (absurd · hb.not_str) hate' hxs (.inr ⟨hval ▸ hb, g, hg, rfl⟩) hr rfl hms
      · exact finish (absurd · hb.not_str) hate' hxs (.inl (blank_cons.2 ⟨hspace, hg⟩)) hr rfl hms
  · cases h

theorem itemsSound_succ {fuel : Nat} (hi : ItemsSound fuel) (ht : ItemSound fuel) :
    ItemsSound (fuel + 1) := by
  intro k acc needsMember s ms s' h
  rcases hr : s.read with ⟨chr | _ | _, s1⟩
  · obtain ⟨h1, -⟩ := read_one hr
    rw [items_one hr] at h
    cases hact : loopAct k (acc ≠ []) needsMember chr <;> rw [hact] at h
    case again needs =>
      obtain ⟨xs, t, hate, hxs, hms, hrem⟩ := hi h
      refine ⟨xs, chr :: t, h1.cons hate, hxs, hms, ?_⟩
      rcases loopAct_again hact with ⟨hsp, rfl⟩ | ⟨rfl, rfl, hacc, rfl⟩
      · exact hrem.blank_cons hsp
      · rw [Remaining, if_neg Bool.false_ne_true, if_neg (of_decide_eq_true hacc)]
        exact ⟨[], ch ',' :: t, .nil, rfl, .inr ⟨t, rfl, hrem⟩⟩
    case member =>
      obtain ⟨hsp, hor⟩ := loopAct_member hact
      obtain ⟨x, xs, t, m, g, r, hate, hxs, hms, hmem, hg, hrest, he⟩ := ht hsp h
      have hitems : Items k (x :: xs) (chr :: t) :=
        items_cons.2 ⟨[], m, g, r, .nil, hmem, hg, he, hrest⟩
      refine ⟨x :: xs, chr :: t, h1.cons hate, hxs, hms, ?_⟩
      unfold Remaining
      split
      · exact hitems
      · next hn =>
        rw [if_pos (by simpa using hor.resolve_left hn)]
        exact .inr hitems
    case done =>
      cases h
      obtain ⟨rfl, rfl⟩ := loopAct_done hact
      refine ⟨[], [k.closeChar], h1, by simp [AllRender], by simp, ?_⟩
      rw [Remaining, if_neg Bool.false_ne_true]
      split
      · exact .inl ⟨rfl, [], .nil, rfl⟩
      · exact ⟨[], [k.closeChar], .nil, rfl, .inl ⟨rfl, rfl⟩⟩
    case fail c => cases h
  · unfold items at h
    rw [hr] at h
    cases h
  · unfold items at h
    rw [hr] at h
    cases h

theorem collectionSound_succ {fuel : Nat} (hi : ItemsSound fuel) : CollectionSound (fuel + 1) := by
  intro k s J s' h
  unfold collection at h
  obtain ⟨ms, s1, hms, h⟩ := Out.bind_eq_ok h
  cases h
  obtain ⟨xs, t, hate, hxs, rfl, hrem⟩ := hi hms
  rw [Remaining, if_neg (by simp), if_pos rfl] at hrem
  exact ⟨xs, t, hate.report _, hxs, hrem, rfl⟩

/-- What every function of the reader accepts, whatever the fuel. -/
theorem reader_sound (fuel : Nat) :
    ValueSound fuel ∧ CollectionSound fuel ∧ ItemsSound fuel ∧ ItemSound fuel ∧ MemberSound fuel ∧
      AfterLabelSound fuel ∧ PropertySound fuel := by
  induction fuel with
  | zero => exact ⟨nofun, nofun, nofun, nofun, nofun, nofun, nofun⟩
  | succ fuel ih =>
    obtain ⟨hv, hc, hi, ht, hm, ha, hp⟩ := ih
    exact ⟨valueSound_succ hc, collectionSound_succ hi, itemsSound_succ hi ht, itemSound_succ hi hm,
      memberSound_succ hv hp, afterLabelSound_succ hv ha, propertySound_succ ha⟩

/-! ## Documents -/

theorem tail_sound {input rest : Bytes} {off off' : Nat} {b : Bool}
    (h : tail input off = (b, rest, off')) (hb : b = true) : Blank input ∧ rest = [] := by
  fun_induction tail input off with
  | case1 => cases h; exact ⟨.nil, rfl⟩
  | case2 off c bs hc ih =>
    obtain ⟨hw, hr⟩ := ih h
    exact ⟨blank_cons.2 ⟨hc, hw⟩, hr⟩
  | case3 => cases h; cases hb

/-- **What the reader accepts is a document.** -/
theorem file_sound {fuel : Nat} {s s' : Src} {J : Json} (h : file fuel s = .ok J s') :
    Document J s.input := by
  unfold file at h
  obtain ⟨⟨J', e⟩, s1, hv, h⟩ := Out.bind_eq_ok h
  dsimp only at h
  split at h
  · next input off ht =>
    cases h
    obtain ⟨used, w, v, z, hate, hw, hren, hst, htk⟩ := (reader_sound fuel).1 hv
    obtain ⟨hblank, -⟩ := tail_sound ht rfl
    rw [taken, if_pos rfl] at htk
    refine ⟨w, v, z ++ s1.input, hw, hren, ?_, by rw [hate.input, htk]; simp⟩
    generalize s1.input = rest at hst hblank
    cases hst with
    | char hb he => exact .inr ⟨hb, .inr ⟨_, _, he, hblank, rfl⟩⟩
    | eof hb hz =>
      rcases hz with rfl | rfl
      · exact .inl .nil
      · exact .inr ⟨hb, .inl rfl⟩
    | quote | bracket => exact .inl hblank
  · cases h

end JsonDom
