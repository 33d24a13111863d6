import JsonDom.Doc.Fidelity

/-!
# The numbers `isJsonNumber` accepts

A text is accepted when it is a minus sign perhaps, digits, a fraction perhaps and an exponent
perhaps, where digits alone have no superfluous zero in front (`isJsonNumber_iff`). The rule for the
zero is not applied where a fraction or an exponent follows: those texts are accepted, and they are
all that is not a number of the RFC (`recognises_iff`).
-/

namespace JsonDom.Rfc

theorem digit_of_isdigit {b : UInt8} (h : isdigit b = true) : Digit b := by
  simpa [isdigit, Digit] using h

/-- A minus sign perhaps, digits, a fraction perhaps and an exponent perhaps. -/
structure Parts (t m i f e : Bytes) : Prop where
  sign : m = [] ∨ m = [ch '-']
  int : Digits i
  frac : f = [] ∨ Frac f
  exp : e = [] ∨ Exp e
  text : t = m ++ (i ++ (f ++ e))

theorem scan_exp_inv {v v' : NumberScan} {prev : Option UInt8} {t : Bytes}
    (h : isJsonNumber.scan v prev t = some v') (hx : v.isExponent = true)
    (hfirst : v.firstNumeral ≠ none) :
    (∀ d ∈ t, Digit d) ∧ v' = { v with hasNumerals := v.hasNumerals || !t.isEmpty } := by
  induction t generalizing v prev with
  | nil =>
    rw [isJsonNumber.scan] at h
    cases h
    exact ⟨fun _ hd => absurd hd List.not_mem_nil, by simp⟩
  | cons c t ih =>
    by_cases hc : isdigit c = true
    · rw [isJsonNumber.scan, if_pos hc, if_neg hfirst] at h
      obtain ⟨hds, rfl⟩ := ih h hx hfirst
      exact ⟨List.forall_mem_cons.2 ⟨digit_of_isdigit hc, hds⟩, by simp⟩
    · rw [isJsonNumber.scan, if_neg hc] at h
      simp [hx] at h

theorem scan_e_inv {v v' : NumberScan} {prev : Option UInt8} {c : UInt8} {t : Bytes}
    (hc : c = ch 'e' ∨ c = ch 'E') (h : isJsonNumber.scan v prev (c :: t) = some v')
    (hx : v.isExponent = false) (hn : v'.hasNumerals = true) (hfirst : v.firstNumeral ≠ none) :
    Exp (c :: t) ∧ v' = { v with isFloat := true, hasNumerals := true, isExponent := true } := by
  have hdigit : JsonDom.isdigit c = false := by rcases hc with rfl | rfl <;> decide
  have hdot : c ≠ ch '.' := by rcases hc with rfl | rfl <;> decide
  have hcc : (decide (c = ch 'e') || decide (c = ch 'E')) = true := by simpa using hc
  -- what stands behind the sign
  have hrest : ∀ (sign ds : Bytes) (p : Option UInt8),
      (sign = [] ∨ sign = [ch '-'] ∨ sign = [ch '+']) → t = sign ++ ds →
      isJsonNumber.scan { v with isExponent := true, isFloat := true, hasNumerals := false } p ds = some v' →
      Exp (c :: t) ∧ v' = { v with isFloat := true, hasNumerals := true, isExponent := true } := by
    intro sign ds p hsign ht hscan
    obtain ⟨hds, hv'⟩ := scan_exp_inv hscan rfl hfirst
    have hne : ds ≠ [] := by
      rintro rfl
      simp [hv'] at hn
    refine ⟨⟨c, sign, ds, hc, hsign, ⟨hne, hds⟩, by rw [ht]⟩, ?_⟩
    rw [hv']
    simpa using hne
  rw [isJsonNumber.scan, hdigit] at h
  simp only [Bool.false_eq_true, if_false, if_neg hdot, hcc, if_true, hx] at h
  split at h
  · cases h
  split at h
  · next hs =>
    cases t with
    | nil => exact absurd hs (by decide)
    | cons sign ds =>
      have hs : sign = ch '-' ∨ sign = ch '+' := by simpa [charAt] using hs
      refine hrest [sign] ds _ ?_ rfl h
      rcases hs with rfl | rfl
      · exact .inr (.inl rfl)
      · exact .inr (.inr rfl)
  · exact hrest [] t _ (.inl rfl) rfl h

theorem scan_frac_inv {v v' : NumberScan} {prev : Option UInt8} {t : Bytes}
    (h : isJsonNumber.scan v prev t = some v') (hv : v.isFloat = true ∧ v.hasDecimal = true)
    (hx : v.isExponent = false) (hn : v'.hasNumerals = true) (hfirst : v.firstNumeral ≠ none) :
    ∃ ds e, (∀ d ∈ ds, Digit d) ∧ (e = [] ∨ Exp e) ∧ t = ds ++ e ∧
      v' = { v with hasNumerals := true, isExponent := !e.isEmpty } := by
  induction t generalizing v prev with
  | nil =>
    rw [isJsonNumber.scan] at h
    obtain rfl : v' = v := (Option.some.inj h).symm
    obtain ⟨isFloat, hasNumerals, hasDecimal, isExponent, firstNumeral⟩ := v'
    obtain ⟨rfl, rfl⟩ : hasNumerals = true ∧ isExponent = false := ⟨hn, hx⟩
    exact ⟨[], [], fun _ hd => absurd hd List.not_mem_nil, .inl rfl, rfl, rfl⟩
  | cons c t ih =>
    by_cases hc : isdigit c = true
    · rw [isJsonNumber.scan, if_pos hc, if_neg hfirst] at h
      obtain ⟨ds, e, hds, he, rfl, rfl⟩ := ih h hv hx hfirst
      exact ⟨c :: ds, e, List.forall_mem_cons.2 ⟨digit_of_isdigit hc, hds⟩, he, rfl, rfl⟩
    by_cases hcc : c = ch 'e' ∨ c = ch 'E'
    · obtain ⟨hexp, rfl⟩ := scan_e_inv hcc h hx hn hfirst
      refine ⟨[], c :: t, fun _ hd => absurd hd List.not_mem_nil, .inr hexp, rfl, ?_⟩
      simp [hv.1]
    · rw [isJsonNumber.scan, if_neg hc] at h
      simp [hv.2, hcc] at h

theorem scan_int_inv {v v' : NumberScan} {prev : Option UInt8} {t : Bytes}
    (h : isJsonNumber.scan v prev t = some v')
    (hv : v.isFloat = false ∧ v.hasDecimal = false ∧ v.isExponent = false)
    (hn : v'.hasNumerals = true) (hfirst : v.firstNumeral ≠ none) :
    ∃ ds f e, (∀ d ∈ ds, Digit d) ∧ (f = [] ∨ Frac f) ∧ (e = [] ∨ Exp e) ∧ t = ds ++ (f ++ e) ∧
      v' = ⟨!f.isEmpty || !e.isEmpty, true, !f.isEmpty, !e.isEmpty, v.firstNumeral⟩ := by
  induction t generalizing v prev with
  | nil =>
    rw [isJsonNumber.scan] at h
    obtain rfl : v' = v := (Option.some.inj h).symm
    obtain ⟨isFloat, hasNumerals, hasDecimal, isExponent, firstNumeral⟩ := v'
    obtain ⟨rfl, rfl, rfl, rfl⟩ : hasNumerals = true ∧ isFloat = false ∧ hasDecimal = false ∧
      isExponent = false := ⟨hn, hv⟩
    exact ⟨[], [], [], fun _ hd => absurd hd List.not_mem_nil, .inl rfl, .inl rfl, rfl, rfl⟩
  | cons c t ih =>
    obtain ⟨isFloat, hasNumerals, hasDecimal, isExponent, firstNumeral⟩ := v
    obtain ⟨rfl, rfl, rfl⟩ : isFloat = false ∧ hasDecimal = false ∧ isExponent = false := hv
    by_cases hc : isdigit c = true
    · rw [isJsonNumber.scan, if_pos hc, if_neg hfirst] at h
      obtain ⟨ds, f, e, hds, hf, he, rfl, rfl⟩ := ih h ⟨rfl, rfl, rfl⟩ hfirst
      exact ⟨c :: ds, f, e, List.forall_mem_cons.2 ⟨digit_of_isdigit hc, hds⟩, hf, he, rfl, rfl⟩
    by_cases hcc : c = ch 'e' ∨ c = ch 'E'
    · obtain ⟨hexp, rfl⟩ := scan_e_inv hcc h rfl hn hfirst
      exact ⟨[], [], c :: t, fun _ hd => absurd hd List.not_mem_nil, .inl rfl, .inr hexp, rfl, rfl⟩
    rw [isJsonNumber.scan, if_neg hc] at h
    by_cases hdot : c = ch '.'
    · rw [if_pos hdot] at h
      split at h
      · cases h
      next hpoint =>
      obtain ⟨ds, e, hds, he, rfl, rfl⟩ := scan_frac_inv h ⟨rfl, rfl⟩ rfl hn hfirst
      have hne : ds ≠ [] := by
        rintro rfl
        -- the exponent does not start with a digit
        have hhead : isdigit (charAt ([] ++ e)) = false := by
          rcases he with rfl | ⟨c', sign, ds, hc', -, -, rfl⟩
          · decide
          · rcases hc' with rfl | rfl
            · exact (by decide : isdigit (ch 'e') = false)
            · exact (by decide : isdigit (ch 'E') = false)
        exact hpoint (by rw [hhead]; simp)
      refine ⟨[], c :: ds, e, fun _ hd => absurd hd List.not_mem_nil, .inr ⟨ds, ⟨hne, hds⟩, by rw [hdot]⟩,
        he, rfl, ?_⟩
      simp
    · simp [hdot, hcc] at h

theorem start_inv {v : NumberScan} {t : Bytes} (h : isJsonNumber.start t = some v)
    (hn : v.hasNumerals = true) : ∃ m i f e, Parts t m i f e ∧
      v = ⟨!f.isEmpty || !e.isEmpty, true, !f.isEmpty, !e.isEmpty, some (i ++ (f ++ e))⟩ := by
  obtain ⟨m, prev, t', hm, rfl, hprev, hscan⟩ : ∃ m prev t', (m = [] ∨ m = [ch '-']) ∧ t = m ++ t' ∧
      prev.any isdigit = false ∧ isJsonNumber.scan ⟨false, false, false, false, none⟩ prev t' = some v := by
    unfold isJsonNumber.start at h
    cases t with
    | nil => exact ⟨[], none, [], .inl rfl, rfl, rfl, h⟩
    | cons c rest =>
      dsimp only at h
      split at h
      · next hc => exact ⟨[c], some c, rest, .inr (by rw [hc]), rfl, by rw [hc]; decide, h⟩
      · exact ⟨[], none, c :: rest, .inl rfl, rfl, rfl, h⟩
  cases t' with
  | nil =>
    rw [isJsonNumber.scan] at hscan
    cases hscan
    cases hn
  | cons c rest =>
    by_cases hc : isdigit c = true
    · rw [isJsonNumber.scan, if_pos hc] at hscan
      obtain ⟨ds, f, e, hds, hf, he, rfl, rfl⟩ := scan_int_inv hscan ⟨rfl, rfl, rfl⟩ hn (by simp)
      exact ⟨m, c :: ds, f, e, ⟨hm, ⟨List.cons_ne_nil _ _, List.forall_mem_cons.2 ⟨digit_of_isdigit hc, hds⟩⟩,
        hf, he, rfl⟩, rfl⟩
    · -- nothing but a digit can come first
      rw [isJsonNumber.scan, if_neg hc] at hscan
      simp [hprev] at hscan

theorem Parts.scan {t m i f e : Bytes} (hp : Parts t m i f e) : isJsonNumber.start t =
    some ⟨!f.isEmpty || !e.isEmpty, true, !f.isEmpty, !e.isEmpty, some (i ++ (f ++ e))⟩ := by
  obtain ⟨dec, exp, hdec, hexp, hscan⟩ := scan_number hp.sign hp.int hp.frac hp.exp
  obtain rfl : dec = !f.isEmpty := by rw [Bool.eq_iff_iff, hdec]; simp
  obtain rfl : exp = !e.isEmpty := by rw [Bool.eq_iff_iff, hexp]; simp
  rw [hp.text, hscan]

/-- The rule for a leading zero, as `isJsonNumber` applies it. -/
theorem Parts.retval {t m i f e : Bytes} (hp : Parts t m i f e) :
    NumberScan.retval ⟨!f.isEmpty || !e.isEmpty, true, !f.isEmpty, !e.isEmpty, some (i ++ (f ++ e))⟩ = true ↔
      Int i ∨ f ≠ [] ∨ e ≠ [] := by
  obtain ⟨hne, hds⟩ := hp.int
  by_cases hfe : f ≠ [] ∨ e ≠ []
  · refine iff_of_true ?_ (.inr hfe)
    simp only [NumberScan.retval, Bool.true_and, Bool.or_eq_true]
    rcases hfe with hf | he
    · exact .inr (by simpa using hf)
    · exact .inl (.inr (by simpa using he))
  · obtain ⟨rfl, rfl⟩ : f = [] ∧ e = [] := by simpa using hfe
    cases i with
    | nil => exact absurd rfl hne
    | cons b ds =>
      obtain ⟨hb, hds⟩ := List.forall_mem_cons.1 hds
      -- a zero in front is the last digit
      have hlast : charAt ds = 0 ↔ ds = [] := by
        cases ds with
        | nil => simp [charAt]
        | cons d ds =>
          refine iff_of_false (fun h0 => ?_) (List.cons_ne_nil _ _)
          have hd := hds d List.mem_cons_self
          rw [show d = 0 from h0] at hd
          exact absurd hd (by decide)
      have hint : Int (b :: ds) ↔ b ≠ ch '0' ∨ ds = [] := by
        constructor
        · rintro (h0 | ⟨b', ds', he, -, hb', -⟩)
          · exact .inr (List.cons.inj h0).2
          · exact .inl ((List.cons.inj he).1 ▸ hb')
        · intro h0
          by_cases hz : b = ch '0'
          · rw [hz, h0.resolve_left (not_not.2 hz)]
            exact .inl rfl
          · exact .inr ⟨b, ds, rfl, hb, hz, hds⟩
      have hret : NumberScan.retval ⟨false, true, false, false, some (b :: ds)⟩ = true ↔
          b ≠ ch '0' ∨ charAt ds = 0 := by
        simp [NumberScan.retval, charAt]
      simpa [hint, hlast] using hret

/-- **What `isJsonNumber` accepts**, and what it takes for a float. -/
theorem isJsonNumber_iff {t : Bytes} {isFloat : Bool} : isJsonNumber t = (true, isFloat) ↔
    ∃ m i f e, Parts t m i f e ∧ (Int i ∨ f ≠ [] ∨ e ≠ []) ∧ (isFloat = true ↔ f ≠ [] ∨ e ≠ []) := by
  constructor
  · intro h
    unfold isJsonNumber at h
    split at h
    · cases h
    next v hs =>
    obtain ⟨hret, hflag⟩ := Prod.mk.inj h
    have hn : v.hasNumerals = true := by
      unfold NumberScan.retval at hret
      exact (Bool.and_eq_true_iff.1 hret).1
    obtain ⟨m, i, f, e, hp, rfl⟩ := start_inv hs hn
    refine ⟨m, i, f, e, hp, hp.retval.1 hret, ?_⟩
    rw [← hflag, hret]
    simp
  · rintro ⟨m, i, f, e, hp, hint, hflag⟩
    have hret := hp.retval.2 hint
    unfold isJsonNumber
    rw [hp.scan]
    simp only [hret, Bool.true_and]
    refine Prod.ext rfl ?_
    rw [Bool.eq_iff_iff, hflag]
    simp

theorem Parts.int_eq {t m i f e : Bytes} (hp : Parts t m i f e) :
    i = (if t.head? = some (ch '-') then t.tail else t).takeWhile isdigit := by
  have hend : (f ++ e).takeWhile isdigit = [] := by
    rcases hp.frac with rfl | ⟨ds, -, rfl⟩
    · rcases hp.exp with rfl | ⟨c, sign, ds, hc, -, -, rfl⟩
      · rfl
      · rcases hc with rfl | rfl <;> rfl
    · rfl
  have hall : (i ++ (f ++ e)).takeWhile isdigit = i := by
    rw [List.takeWhile_append_of_pos fun d hd => (hp.int.2 d hd).isdigit, hend, List.append_nil]
  have hhead := isdigit_ne (@Digits.head i (f ++ e) hp.int) (by decide : JsonDom.isdigit (ch '-') = false)
  rw [hp.text]
  rcases hp.sign with rfl | rfl
  · rw [List.nil_append, if_neg, hall]
    intro h
    exact hhead (by rw [charAt, List.headD_eq_head?_getD, h]; rfl)
  · exact hall.symm

/-- A number but for the zero its integer part starts with: more digits follow, then a fraction or
an exponent. -/
def ZeroLed (t : Bytes) : Prop := ∃ m i f e, Parts t m i f e ∧ ¬ Int i ∧ (f ≠ [] ∨ e ≠ [])

/-- `isJsonNumber` says of the text what the RFC says. -/
def Recognises (t : Bytes) : Prop :=
  ((isJsonNumber t).1 = true ↔ ∃ isFloat, Number isFloat t) ∧ ((isJsonNumber t).2 = true ↔ Number true t)

theorem number_parts {isFloat : Bool} {t : Bytes} : Number isFloat t ↔
    ∃ m i f e, Parts t m i f e ∧ Int i ∧ (isFloat = true ↔ f ≠ [] ∨ e ≠ []) := by
  constructor
  · rintro ⟨m, i, f, e, hm, hi, hf, he, ht, hflag⟩
    exact ⟨m, i, f, e, ⟨hm, hi.digits, hf, he, ht⟩, hi, hflag⟩
  · rintro ⟨m, i, f, e, hp, hi, hflag⟩
    exact ⟨m, i, f, e, hp.sign, hi, hp.frac, hp.exp, hp.text, hflag⟩

theorem ZeroLed.accepted {t : Bytes} (h : ZeroLed t) : (isJsonNumber t).1 = true := by
  obtain ⟨m, i, f, e, hp, -, hfe⟩ := h
  rw [isJsonNumber_iff.2 ⟨m, i, f, e, hp, .inr hfe, iff_of_true rfl hfe⟩]

theorem ZeroLed.not_number {t : Bytes} (h : ZeroLed t) (isFloat : Bool) : ¬ Number isFloat t := by
  obtain ⟨m, i, f, e, hp, hi, -⟩ := h
  intro hnum
  obtain ⟨m', i', f', e', hp', hi', -⟩ := number_parts.1 hnum
  exact hi (hp.int_eq.trans hp'.int_eq.symm ▸ hi')

/-- **`isJsonNumber` recognises the numbers of the RFC but for those led by a zero**: these it accepts
as well. -/
theorem recognises_iff (t : Bytes) : Recognises t ↔ ¬ ZeroLed t := by
  constructor
  · rintro ⟨hrec, -⟩ hz
    obtain ⟨isFloat, hnum⟩ := hrec.1 hz.accepted
    exact hz.not_number isFloat hnum
  · intro hz
    have hacc : ∀ isFloat, isJsonNumber t = (true, isFloat) ↔ Number isFloat t := fun isFloat => by
      rw [isJsonNumber_iff, number_parts]
      refine exists_congr fun m => exists_congr fun i => exists_congr fun f => exists_congr fun e =>
        and_congr_right fun hp => and_congr_left fun _ => ?_
      refine ⟨fun h => h.elim id fun hfe => ?_, .inl⟩
      by_contra hi
      exact hz ⟨m, i, f, e, hp, hi, hfe⟩
    have hfalse : (isJsonNumber t).1 = false → (isJsonNumber t).2 = false := by
      unfold isJsonNumber
      split
      · exact fun _ => rfl
      · intro h
        dsimp only at h ⊢
        rw [h, Bool.false_and]
    constructor
    · constructor
      · intro h
        exact ⟨(isJsonNumber t).2, (hacc _).1 (Prod.ext h rfl)⟩
      · rintro ⟨isFloat, hnum⟩
        rw [(hacc _).2 hnum]
    · rw [← hacc true]
      constructor
      · intro h
        refine Prod.ext ?_ h
        by_contra h1
        rw [hfalse (by simpa using h1)] at h
        cases h
      · intro h
        rw [h]

theorem zeroLed_one : ZeroLed (cs "01.5") := by
  refine ⟨[], cs "01", cs ".5", [], ⟨.inl rfl, ⟨by decide, ?_⟩, .inr ⟨cs "5", ⟨by decide, ?_⟩, rfl⟩, .inl rfl, rfl⟩,
    ?_, .inl (by decide)⟩
  · decide +kernel
  · decide +kernel
  · rintro (h | ⟨b, ds, h, -, hb, -⟩)
    · exact absurd h (by decide)
    · exact hb (List.cons.inj h).1.symm

/-- `01.5` is accepted. -/
theorem zero_led : ¬ Recognises (cs "01.5") := by
  rintro ⟨hrec, -⟩
  obtain ⟨isFloat, hnum⟩ := hrec.1 zeroLed_one.accepted
  exact zeroLed_one.not_number isFloat hnum

end JsonDom.Rfc
