import JsonDom.Model.Number

/-!
# The characters of a number

A text `isJsonNumber` accepts consists of digits, `.`, `e`, `E`, `-` and `+` (`isJsonNumber_chars`)
and starts with a digit or a minus sign (`isJsonNumber_head`).
-/

namespace JsonDom

/-- A character that the scan of a number passes over. -/
def NumberChar (b : UInt8) : Prop :=
  isdigit b = true ∨ b = ch '.' ∨ (b = ch 'e' ∨ b = ch 'E') ∨ b = ch '-' ∨ b = ch '+'

theorem scan_chars {v v' : NumberScan} {prev : Option UInt8} {t : Bytes}
    (h : isJsonNumber.scan v prev t = some v') : ∀ b ∈ t, NumberChar b := by
  fun_induction isJsonNumber.scan v prev t with
  | case1 => exact fun _ hb => absurd hb List.not_mem_nil
  | case2 v prev c rest hc ih => exact List.forall_mem_cons.2 ⟨.inl hc, ih h⟩
  | case3 | case4 | case6 | case7 | case11 => cases h
  | case5 v prev rest _ _ _ ih => exact List.forall_mem_cons.2 ⟨.inr (.inl rfl), ih h⟩
  | case8 v prev c _ _ he _ _ v1 sign rest hs ih =>
    simp only [Bool.or_eq_true, decide_eq_true_eq] at hs he
    exact List.forall_mem_cons.2 ⟨.inr (.inr (.inl he)),
      List.forall_mem_cons.2 ⟨.inr (.inr (.inr hs)), ih h⟩⟩
  | case9 v prev c _ _ he _ _ v1 hs => exact absurd hs (by decide)
  | case10 v prev c rest _ _ he _ _ v1 _ ih =>
    simp only [Bool.or_eq_true, decide_eq_true_eq] at he
    exact List.forall_mem_cons.2 ⟨.inr (.inr (.inl he)), ih h⟩

theorem isJsonNumber_chars {t : Bytes} (h : (isJsonNumber t).1 = true) : ∀ b ∈ t, NumberChar b := by
  rcases hs : isJsonNumber.start t with _ | v
  · simp [isJsonNumber, hs] at h
  cases t with
  | nil => exact fun _ hb => absurd hb List.not_mem_nil
  | cons c rest =>
    unfold isJsonNumber.start at hs
    dsimp only at hs
    split at hs
    · next hc => exact List.forall_mem_cons.2 ⟨.inr (.inr (.inr (.inl hc))), scan_chars hs⟩
    · exact scan_chars hs

/-- A number starts with a digit or a minus sign. -/
theorem isJsonNumber_head {t : Bytes} (h : (isJsonNumber t).1 = true) :
    ∃ c rest, t = c :: rest ∧ (isdigit c = true ∨ c = ch '-') := by
  cases t with
  | nil => exact absurd h (by decide)
  | cons c rest =>
    refine ⟨c, rest, rfl, ?_⟩
    by_contra hc
    rw [not_or] at hc
    have hs : isJsonNumber.start (c :: rest) = none := by
      unfold isJsonNumber.start
      dsimp only
      rw [if_neg hc.2]
      unfold isJsonNumber.scan
      simp [hc.1]
    simp [isJsonNumber, hs] at h

end JsonDom
