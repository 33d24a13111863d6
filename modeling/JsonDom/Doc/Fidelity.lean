import JsonDom.Proof.Outcome
import JsonDom.Spec.Rfc

/-!
# The texts of RFC 8259 are parsed

Every text of the RFC is a text of the grammar the parser accepts (`Rfc.Text.document`), so
`jd_parse_file` accepts it with the tree of its document (`rfc_parsed`).
-/

namespace JsonDom

open Lib OTree

namespace Rfc

/-! ## Numbers -/

theorem Digit.isdigit {b : UInt8} (h : Digit b) : isdigit b = true := by
  simpa [JsonDom.isdigit, Digit] using h

theorem isdigit_ne {b c : UInt8} (hb : JsonDom.isdigit b = true) (hc : JsonDom.isdigit c = false) : b ≠ c := by
  rintro rfl
  rw [hb] at hc
  cases hc

theorem scan_digits {v : NumberScan} {prev : Option UInt8} {ds t : Bytes} (hds : Digits ds) :
    ∃ d, JsonDom.isdigit d = true ∧ isJsonNumber.scan v prev (ds ++ t) = isJsonNumber.scan
      { v with hasNumerals := true
               firstNumeral := if v.firstNumeral = none then some (ds ++ t) else v.firstNumeral } (some d) t := by
  obtain ⟨hne, hds⟩ := hds
  induction ds generalizing v prev with
  | nil => exact absurd rfl hne
  | cons b ds ih =>
    obtain ⟨hb, hds⟩ := List.forall_mem_cons.1 hds
    have hstep : isJsonNumber.scan v prev (b :: ds ++ t) = isJsonNumber.scan
        { v with hasNumerals := true
                 firstNumeral := if v.firstNumeral = none then some (b :: ds ++ t) else v.firstNumeral }
        (some b) (ds ++ t) := by
      rw [List.cons_append, isJsonNumber.scan, if_pos hb.isdigit]
    cases ds with
    | nil => exact ⟨b, hb.isdigit, hstep⟩
    | cons c ds =>
      obtain ⟨d, hd, hscan⟩ := ih (List.cons_ne_nil _ _) hds
      refine ⟨d, hd, hstep.trans (hscan.trans ?_)⟩
      cases v.firstNumeral <;> rfl

theorem Int.digits {i : Bytes} (h : Int i) : Digits i := by
  rcases h with rfl | ⟨b, ds, rfl, hb, -, hds⟩
  · exact ⟨List.cons_ne_nil _ _, List.forall_mem_singleton.2 (by decide)⟩
  · exact ⟨List.cons_ne_nil _ _, List.forall_mem_cons.2 ⟨hb, hds⟩⟩

theorem Digits.head {ds t : Bytes} (h : Digits ds) : JsonDom.isdigit (charAt (ds ++ t)) = true := by
  obtain ⟨hne, hds⟩ := h
  cases ds with
  | nil => exact absurd rfl hne
  | cons b ds => exact (hds b List.mem_cons_self).isdigit

theorem scan_frac {v : NumberScan} {d : UInt8} {f t x : Bytes} (hd : JsonDom.isdigit d = true) (hf : Frac f)
    (hv : v =
      { isFloat := false, hasNumerals := true, hasDecimal := false, isExponent := false, firstNumeral := some x }) :
    ∃ d', isJsonNumber.scan v (some d) (f ++ t) =
      isJsonNumber.scan { v with isFloat := true, hasDecimal := true } (some d') t := by
  obtain ⟨ds, hds, rfl⟩ := hf
  subst hv
  obtain ⟨d', -, hscan⟩ := @scan_digits
    { isFloat := true, hasNumerals := true, hasDecimal := true, isExponent := false, firstNumeral := some x }
    (some (ch '.')) ds t hds
  refine ⟨d', Eq.trans ?_ hscan⟩
  have hdot : JsonDom.isdigit (ch '.') = false := by decide
  rw [List.cons_append, isJsonNumber.scan, hdot]
  simp [hd, hds.head]

theorem scan_exp {v : NumberScan} {prev : Option UInt8} {e x : Bytes} (he : Exp e) (hn : v.hasNumerals = true)
    (hx : v.isExponent = false) (hfirst : v.firstNumeral = some x) :
    isJsonNumber.scan v prev e = some { v with isFloat := true, isExponent := true } := by
  obtain ⟨c, sign, ds, hc, hsign, hds, rfl⟩ := he
  obtain ⟨isFloat, hasNumerals, hasDecimal, isExponent, firstNumeral⟩ := v
  obtain ⟨rfl, rfl, rfl⟩ : hasNumerals = true ∧ isExponent = false ∧ firstNumeral = some x := ⟨hn, hx, hfirst⟩
  have hdigit : JsonDom.isdigit c = false := by rcases hc with rfl | rfl <;> decide
  have hdot : c ≠ ch '.' := by rcases hc with rfl | rfl <;> decide
  have hcc : (c = ch 'e' || c = ch 'E') = true := by rcases hc with rfl | rfl <;> decide
  have hend (prev : Option UInt8) :
      isJsonNumber.scan ⟨true, false, hasDecimal, true, some x⟩ prev ds =
        some ⟨true, true, hasDecimal, true, some x⟩ := by
    obtain ⟨d, -, hscan⟩ := @scan_digits ⟨true, false, hasDecimal, true, some x⟩ prev ds [] hds
    rw [List.append_nil] at hscan
    exact hscan.trans (by rw [isJsonNumber.scan]; rfl)
  rw [isJsonNumber.scan, hdigit]
  simp only [Bool.false_eq_true, if_false, if_neg hdot, hcc, if_true, Bool.not_true]
  rcases hsign with rfl | rfl | rfl
  · have hhead := @Digits.head ds [] hds
    rw [List.append_nil] at hhead
    have hminus := isdigit_ne hhead (by decide : JsonDom.isdigit (ch '-') = false)
    have hplus := isdigit_ne hhead (by decide : JsonDom.isdigit (ch '+') = false)
    simpa [hminus, hplus] using hend (some c)
  · exact hend (some (ch '-'))
  · exact hend (some (ch '+'))

theorem scan_number {m i f e : Bytes} (hm : m = [] ∨ m = [ch '-']) (hi : Digits i) (hf : f = [] ∨ Frac f)
    (he : e = [] ∨ Exp e) : ∃ dec exp, (dec = true ↔ f ≠ []) ∧ (exp = true ↔ e ≠ []) ∧
      isJsonNumber.start (m ++ (i ++ (f ++ e))) = some ⟨dec || exp, true, dec, exp, some (i ++ (f ++ e))⟩ := by
  obtain ⟨prev, hstart⟩ : ∃ prev, isJsonNumber.start (m ++ (i ++ (f ++ e))) =
      isJsonNumber.scan ⟨false, false, false, false, none⟩ prev (i ++ (f ++ e)) := by
    rcases hm with rfl | rfl
    · have hhead := isdigit_ne (@Digits.head i (f ++ e) hi) (by decide : JsonDom.isdigit (ch '-') = false)
      refine ⟨none, ?_⟩
      rw [List.nil_append]
      generalize i ++ (f ++ e) = x at hhead
      cases x with
      | nil => rfl
      | cons c rest => exact if_neg hhead
    · exact ⟨some (ch '-'), rfl⟩
  generalize hx : i ++ (f ++ e) = x at hstart ⊢
  obtain ⟨d, hd, hint⟩ := @scan_digits ⟨false, false, false, false, none⟩ prev i (f ++ e) hi
  rw [hstart, ← hx, hint, hx, if_pos rfl]
  -- behind the fraction, if there is one
  obtain ⟨dec, hdec, prev, hfrac⟩ : ∃ dec, (dec = true ↔ f ≠ []) ∧ ∃ prev,
      isJsonNumber.scan ⟨false, true, false, false, some x⟩ (some d) (f ++ e) =
        isJsonNumber.scan ⟨dec, true, dec, false, some x⟩ prev e := by
    rcases hf with rfl | hf
    · exact ⟨false, by simp, some d, rfl⟩
    · obtain ⟨d', hscan⟩ := @scan_frac _ d f e x hd hf rfl
      refine ⟨true, ?_, some d', hscan⟩
      obtain ⟨ds, -, rfl⟩ := hf
      simp
  rcases he with rfl | he
  · refine ⟨dec, false, hdec, by simp, hfrac.trans ?_⟩
    rw [Bool.or_false, isJsonNumber.scan]
  · refine ⟨dec, true, hdec, ?_, hfrac.trans ?_⟩
    · obtain ⟨c, sign, ds, -, -, -, rfl⟩ := he
      simp
    · rw [Bool.or_true]
      exact scan_exp he rfl rfl rfl

/-- **The numbers of the RFC are numbers**, and those with a fraction or an exponent are floats. -/
theorem Number.isJsonNumber {isFloat : Bool} {t : Bytes} (h : Number isFloat t) :
    isJsonNumber t = (true, isFloat) := by
  obtain ⟨m, i, f, e, hm, hi, hf, he, rfl, hfloat⟩ := h
  obtain ⟨dec, exp, hdec, hexp, hscan⟩ := scan_number hm hi.digits hf he
  have hretval : NumberScan.retval ⟨dec || exp, true, dec, exp, some (i ++ (f ++ e))⟩ = true := by
    unfold NumberScan.retval
    simp only [Bool.true_and, Option.getD_some, Bool.or_eq_true]
    -- without a fraction and an exponent a leading zero is the whole number
    by_cases hboth : f = [] ∧ e = []
    · obtain ⟨rfl, rfl⟩ := hboth
      rcases hi with rfl | ⟨b, ds, rfl, -, hb, -⟩
      · exact .inl (.inl (.inr rfl))
      · exact .inl (.inl (.inl (bne_iff_ne.2 hb)))
    · by_cases hf' : f = []
      · exact .inl (.inr (hexp.2 fun he' => hboth ⟨hf', he'⟩))
      · exact .inr (hdec.2 hf')
  have hflag : (dec || exp) = isFloat := by
    rw [Bool.eq_iff_iff, Bool.or_eq_true, hdec, hexp, hfloat]
  rw [hflag] at hscan hretval
  rw [JsonDom.isJsonNumber, hscan]
  simp only [hretval, Bool.true_and]

/-! ## Strings -/

theorem unescaped_bytes {c : Char} (hq : c ≠ '"') (hs : c ≠ '\\') :
    ∀ b ∈ String.utf8EncodeChar c, b ≠ ch '"' ∧ b ≠ ch '\\' := by
  have hne {d : Char} (h : c ≠ d) : c.val.toNat ≠ d.val.toNat :=
    fun he => h (Char.ext (UInt32.toNat_inj.1 he))
  have hq' := hne hq
  have hs' := hne hs
  intro b hb
  suffices b.toNat ≠ 34 ∧ b.toNat ≠ 92 by
    exact ⟨fun h => this.1 (by rw [h]; rfl), fun h => this.2 (by rw [h]; rfl)⟩
  change c.val.toNat ≠ 34 at hq'
  change c.val.toNat ≠ 92 at hs'
  unfold String.utf8EncodeChar at hb
  dsimp only at hb
  generalize c.val.toNat = v at hb hq' hs'
  split at hb
  · rw [List.mem_singleton] at hb
    rw [hb, UInt8.toNat_ofNat']
    omega
  · -- every byte of a longer sequence has its high bit set
    suffices 128 ≤ b.toNat by omega
    split at hb
    · simp only [List.mem_cons, List.not_mem_nil, or_false] at hb
      rcases hb with rfl | rfl <;> rw [UInt8.toNat_ofNat'] <;> omega
    · split at hb
      · simp only [List.mem_cons, List.not_mem_nil, or_false] at hb
        rcases hb with rfl | rfl | rfl <;> rw [UInt8.toNat_ofNat'] <;> omega
      · simp only [List.mem_cons, List.not_mem_nil, or_false] at hb
        rcases hb with rfl | rfl | rfl | rfl <;> rw [UInt8.toNat_ofNat'] <;> omega

theorem Body.append {t s : Bytes} (ht : ∀ b ∈ t, b ≠ ch '"' ∧ b ≠ ch '\\') (hs : Body s) : Body (t ++ s) := by
  induction t with
  | nil => exact hs
  | cons b t ih =>
    obtain ⟨hb, ht⟩ := List.forall_mem_cons.1 ht
    exact .plain hb.1 hb.2 (ih ht)

theorem HexDigit.ne {b : UInt8} (h : HexDigit b) : b ≠ ch '"' ∧ b ≠ ch '\\' := by
  constructor <;> rintro rfl <;> revert h <;> unfold HexDigit Digit <;> decide

theorem Chars.body {s : Bytes} (h : Chars s) : Body s := by
  induction h with
  | nil => exact .nil
  | unescaped _ hq hs _ ih => exact Body.append (unescaped_bytes hq hs) ih
  | escape _ _ ih => exact .escape ih
  | unicode ha hb hc hd _ ih =>
    exact .escape (.plain ha.ne.1 ha.ne.2 (.plain hb.ne.1 hb.ne.2 (.plain hc.ne.1 hc.ne.2
      (.plain hd.ne.1 hd.ne.2 ih))))

/-! ## Documents -/

theorem Ws.blank {w : Bytes} (h : Ws w) : Blank w := by
  intro b hb
  rcases h b hb with rfl | rfl | rfl | rfl <;> decide

theorem Member.member {x : Piece} {k : Kind} {m : Bytes} (h : Member x k m) (hr : Renders x.value x.text) :
    x.Member k m := by
  cases k with
  | arr =>
    obtain ⟨hl, rfl⟩ := h
    exact ⟨⟨hl, [], .inl rfl, rfl⟩, hr.str_head⟩
  | obj =>
    obtain ⟨hl, u, v, hu, hv, rfl⟩ := h
    refine ⟨⟨hl.body, u ++ ch ':' :: v, [], ⟨fun b hb => ?_, by simp⟩, .inl rfl, by simp⟩, fun _ => rfl⟩
    rcases List.mem_append.1 hb with hb | hb
    · exact .inl (hu.blank b hb)
    · exact (List.mem_cons.1 hb).symm.imp_left (hv.blank b)

theorem Members.items {k : Kind} {xs : List Piece} {t : Bytes} (h : Members k xs t)
    (hr : ∀ x ∈ xs, Renders x.value x.text) : Items k xs t := by
  induction xs generalizing t with
  | nil => exact h
  | cons x xs ih =>
    obtain ⟨hx, hxs⟩ := List.forall_mem_cons.1 hr
    obtain ⟨u, v, m, r, hu, hv, hm, rfl, hrest⟩ := h
    refine ⟨u, m, v, r, hu.blank, hm.member hx, .inl hv.blank, rfl, hrest.imp_right ?_⟩
    exact fun ⟨r', hr', hms⟩ => ⟨r', hr', ih hms hxs⟩

theorem Value.renders {J : Json} {v : Bytes} (h : Value J v) : Renders J v := by
  induction h with
  | null | true | false => exact .bare rfl
  | str hs => exact .quoted hs.body
  | int hn | float hn => exact .bare ⟨rfl, hn.isJsonNumber⟩
  | @empty k u hu => exact @Renders.coll k [] _ nofun (.inl ⟨rfl, u, hu.blank, rfl⟩)
  | coll _ hms ih => exact .coll ih (.inr (hms.items ih))

theorem Text.document {J : Json} {d : Bytes} (h : Text J d) : Document J d := by
  obtain ⟨u, v, w, hu, hv, hw, rfl⟩ := h
  exact ⟨u, v, w, hu.blank, hv.renders, .inl hw.blank, rfl⟩

end Rfc

/-- **Every text of the RFC is parsed**, into the tree of its document. -/
theorem rfc_parsed {w : World} {J : Json} (hw : w.Ample) (hd : Rfc.Text J w.input) :
    ∃ t w', Returns w (true, some t.addr) w' ∧ IsTree w'.heap t J := by
  obtain ⟨t, w', hret, ha⟩ := document_parsed (hw.grants _) hd.document
  exact ⟨t, w', hret, ha.isTree⟩

theorem sample_text : Rfc.Text (.arr [.float (cs "-1.5")]) (cs " [-1.5]\n") := by
  have hnumber : Rfc.Number true (cs "-1.5") :=
    ⟨[ch '-'], cs "1", cs ".5", [], .inr rfl, .inr ⟨ch '1', [], rfl, by decide, by decide, nofun⟩,
      .inr ⟨cs "5", ⟨List.cons_ne_nil _ _, List.forall_mem_singleton.2 (by decide)⟩, rfl⟩, .inl rfl, rfl, by decide⟩
  have harr : Rfc.Value (.arr [.float (cs "-1.5")]) (cs "[-1.5]") := by
    refine @Rfc.Value.coll .arr [⟨[], .float (cs "-1.5"), cs "-1.5"⟩] _ (by simpa using .float hnumber) ?_
    exact ⟨[], [], _, _, nofun, nofun, ⟨rfl, rfl⟩, rfl, .inl ⟨rfl, rfl⟩⟩
  exact ⟨[0x20], _, [0x0A], List.forall_mem_singleton.2 (.inl rfl), harr,
    List.forall_mem_singleton.2 (.inr (.inr (.inl rfl))), rfl⟩

theorem rfc_parsed_array : ∃ t w', Returns (World.start (cs " [-1.5]\n") .eof) (true, some t.addr) w' ∧
    IsTree w'.heap t (.arr [.float (cs "-1.5")]) :=
  rfc_parsed (start_ample _ _) sample_text

end JsonDom
