import JsonDom.Proof.Memory
import JsonDom.Model.Parser

/-!
# More fuel

`M.Le x y`: the computation `y` does what `x` does, unless `x` ran out of fuel. Every function of
the parser is monotone in its fuel (`more_fuel`), so what `jd_parse_file` comes to does not depend
on the fuel (`Returns.unique`).
-/

namespace JsonDom

/-- `y` does what `x` does, unless `x` ran out of fuel. -/
def M.Le {α : Type} (x y : M α) : Prop := ∀ w, x w = .error .timeout ∨ x w = y w

namespace M.Le

variable {α β : Type}

theorem refl (x : M α) : M.Le x x := fun _ => .inr rfl

theorem out (y : M α) : M.Le (halt .timeout) y := fun _ => .inl rfl

theorem trans {x y z : M α} (h1 : M.Le x y) (h2 : M.Le y z) : M.Le x z := fun w => by
  rcases h1 w with h | h
  · exact .inl h
  · rw [h]
    exact h2 w

theorem bind {x y : M α} {f g : α → M β} (h : M.Le x y) (hf : ∀ a, M.Le (f a) (g a)) :
    M.Le (x >>= f) (y >>= g) := fun w => by
  rcases h w with h | h
  · exact .inl (M.bind_error h)
  · cases hy : y w with
    | error e => exact .inr (by rw [M.bind_error (h.trans hy), M.bind_error hy])
    | ok p =>
      rw [M.bind_ok (h.trans hy), M.bind_ok hy]
      exact hf _ _

/-- What comes to an end does so with more fuel. -/
theorem ok {x y : M α} {w : World} {r : α × World} (h : M.Le x y) (hx : x w = .ok r) : y w = .ok r := by
  rcases h w with he | he
  · rw [hx] at he
    cases he
  · rw [← he, hx]

theorem chain {f : Nat → M α} (hf : ∀ n, M.Le (f n) (f (n + 1))) {n m : Nat} (h : n ≤ m) :
    M.Le (f n) (f m) := by
  induction h with
  | refl => exact refl _
  | step _ ih => exact ih.trans (hf _)

/-- What a fuelled computation comes to does not depend on the fuel. -/
theorem unique {f : Nat → M α} (hf : ∀ n, M.Le (f n) (f (n + 1))) {n m : Nat} {w : World}
    {r r' : α × World} (h : f n w = .ok r) (h' : f m w = .ok r') : r = r' :=
  Except.ok.inj (((chain hf (Nat.le_max_left n m)).ok h).symm.trans
    ((chain hf (Nat.le_max_right n m)).ok h'))

theorem ite {p : Prop} [Decidable p] {x y x' y' : M α} (ht : M.Le x y) (he : M.Le x' y') :
    M.Le (if p then x else x') (if p then y else y') := by
  by_cases hp : p
  · rw [if_pos hp, if_pos hp]
    exact ht
  · rw [if_neg hp, if_neg hp]
    exact he

end M.Le

open M.Le

theorem skipSpace_mono (fuel : Nat) (chr : UInt8) : M.Le (skipSpace fuel chr) (skipSpace (fuel + 1) chr) := by
  induction fuel generalizing chr with
  | zero => exact out _
  | succ fuel ih =>
    unfold skipSpace
    refine ite (bind (refl _) fun r => ?_) (refl _)
    cases r with
    | one | minusOne => exact ih _
    | zero => exact refl _

/-- Every function of the parser does with one more unit of fuel what it does with `fuel`. -/
structure Mono (fuel : Nat) : Prop where
  value : ∀ parent node chr es, M.Le (jParser fuel parent node chr es) (jParser (fuel + 1) parent node chr es)
  collection : ∀ parent tools node, M.Le (parseCollection fuel parent tools node)
    (parseCollection (fuel + 1) parent tools node)
  loop : ∀ tools newNode needs, M.Le (parseCollection.loop fuel tools newNode needs)
    (parseCollection.loop (fuel + 1) tools newNode needs)
  member : ∀ tools newNode chr, M.Le (parseCollection.member fuel tools newNode chr)
    (parseCollection.member (fuel + 1) tools newNode chr)
  read : ∀ tools parent node chr es, M.Le (readMember fuel tools parent node chr es)
    (readMember (fuel + 1) tools parent node chr es)
  object : ∀ parent node chr es, M.Le (objectReadMember fuel parent node chr es)
    (objectReadMember (fuel + 1) parent node chr es)
  afterLabel : ∀ parent node es label past, M.Le (objectReadMember.loop fuel parent node es label past)
    (objectReadMember.loop (fuel + 1) parent node es label past)

theorem more_fuel (fuel : Nat) : Mono fuel := by
  induction fuel with
  | zero =>
    exact ⟨fun _ _ _ _ => out _, fun _ _ _ => out _, fun _ _ _ => out _, fun _ _ _ => out _,
      fun _ _ _ _ _ => out _, fun _ _ _ _ => out _, fun _ _ _ _ _ => out _⟩
  | succ fuel ih =>
    constructor
    case value =>
      intro parent node chr es
      unfold jParser
      refine bind (skipSpace_mono _ _) fun r => ?_
      cases r with
      | none => exact refl _
      | some chr =>
        exact ite (bind (ih.collection _ _ _) fun _ => refl _)
          (ite (bind (ih.collection _ _ _) fun _ => refl _) (refl _))
    case collection =>
      intro parent tools node
      unfold parseCollection
      exact bind (refl _) fun _ => ite (bind (refl _) fun _ => ite (bind (ih.loop _ _ _) fun _ => refl _)
        (refl _)) (refl _)
    case loop =>
      intro tools newNode needs
      unfold parseCollection.loop
      refine bind (refl _) fun r => ?_
      cases r with
      | zero | minusOne => exact refl _
      | one chr =>
        refine ite (ih.loop _ _ _) (ite (ite (refl _) (ih.member _ _ _)) (ite (refl _) (ite (refl _)
          (bind (refl _) fun _ => ite (ite (refl _) (ih.loop _ _ _)) (ite (refl _) (ih.member _ _ _))))))
    case member =>
      intro tools newNode chr
      unfold parseCollection.member
      exact bind (ih.read _ _ _ _ _) fun _ => ite (ite (ih.loop _ _ _) (ite (refl _)
        (ite (ih.loop _ _ _) (refl _)))) (refl _)
    case read =>
      intro tools parent node chr es
      cases tools with
      | arrayTools => exact ih.value _ _ _ _
      | objectTools => exact ih.object _ _ _ _
    case object =>
      intro parent node chr es
      unfold objectReadMember
      exact ite (refl _) (bind (refl _) fun _ => ite (bind (ih.afterLabel _ _ _ _ _) fun _ => refl _)
        (refl _))
    case afterLabel =>
      intro parent node es label past
      unfold objectReadMember.loop
      refine bind (refl _) fun r => ?_
      cases r with
      | zero | minusOne => exact refl _
      | one chr =>
        exact ite (ih.afterLabel _ _ _ _ _) (ite (ih.afterLabel _ _ _ _ _)
          (ite (bind (ih.value _ _ _ _) fun _ => refl _) (refl _)))

theorem jParser_mono {fuel fuel' : Nat} (h : fuel ≤ fuel') (parent node : Ptr) (chr : UInt8)
    (es : Option UInt8) : M.Le (jParser fuel parent node chr es) (jParser fuel' parent node chr es) :=
  chain (f := fun n => jParser n parent node chr es) (fun n => (more_fuel n).value _ _ _ _) h

theorem jdParseFile_mono {fuel fuel' : Nat} (h : fuel ≤ fuel') :
    M.Le (jdParseFile fuel) (jdParseFile fuel') :=
  bind (jParser_mono h _ _ _ _) fun _ => refl _

/-! ## Results -/

/-- `jd_parse_file` comes to this result and this world. -/
def Returns (w : World) (result : Bool × Ptr) (w' : World) : Prop :=
  ∃ n, ∀ fuel ≥ n, jdParseFile fuel w = .ok (result, w')

theorem returns_iff {w w' : World} {result : Bool × Ptr} :
    Returns w result w' ↔ ∃ fuel, jdParseFile fuel w = .ok (result, w') := by
  exact ⟨fun ⟨n, h⟩ => ⟨n, h n (Nat.le_refl n)⟩, fun ⟨n, h⟩ => ⟨n, fun fuel hf => (jdParseFile_mono hf).ok h⟩⟩

theorem Returns.unique {w w1 w2 : World} {r1 r2 : Bool × Ptr} (h1 : Returns w r1 w1)
    (h2 : Returns w r2 w2) : r1 = r2 ∧ w1 = w2 := by
  obtain ⟨n1, h1⟩ := h1
  obtain ⟨n2, h2⟩ := h2
  have h := (h1 (max n1 n2) (Nat.le_max_left _ _)).symm.trans (h2 (max n1 n2) (Nat.le_max_right _ _))
  cases h
  exact ⟨rfl, rfl⟩

end JsonDom
