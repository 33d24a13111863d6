import JsonDom.Lib.Store

/-!
# Parts of a store

`Splits h base g`: the store `g` is `h` and, apart from it, the cells `base`. What is done to cells of `h` is
done to `g` in the same way and leaves `base` alone (`Splits.alloc`, `Splits.put`, `Splits.release`).
-/

namespace Lib

namespace Store

variable {α : Type} {h g : Store α} {base : Nat → Option α} {a : Nat} {x y : α}

structure Splits (h : Store α) (base : Nat → Option α) (g : Store α) : Prop where
  size : g.size = h.size
  get : ∀ a, g.get? a = (h.get? a).or (base a)
  apart : ∀ a x, base a = some x → h.get? a = none ∧ a < h.size

namespace Splits

theorem refl (h : Store α) : Splits h (fun _ => none) h where
  size := rfl
  get a := by simp
  apart a x hx := by cases hx

theorem mine (hs : Splits h base g) (ha : h.get? a = some x) : g.get? a = some x := by
  rw [hs.get, ha]
  rfl

theorem theirs (hs : Splits h base g) (ha : base a = some x) : g.get? a = some x := by
  rw [hs.get, (hs.apart a x ha).1, ha]
  rfl

theorem base_none (hs : Splits h base g) (ha : h.get? a = some x) : base a = none := by
  cases hb : base a with
  | none => rfl
  | some y =>
    rw [(hs.apart a y hb).1] at ha
    cases ha

theorem alloc (hs : Splits h base g) (x : α) : Splits (h.alloc x) base (g.alloc x) where
  size := by rw [size_alloc, size_alloc, hs.size]
  get a := by
    by_cases ha : a = h.size
    · rw [ha, get?_alloc_self, ← hs.size, get?_alloc_self]
      rfl
    · rw [get?_alloc_ne ha, get?_alloc_ne (by rwa [hs.size]), hs.get]
  apart a y hb := by
    obtain ⟨hnone, hlt⟩ := hs.apart a y hb
    rw [get?_alloc_lt hlt, size_alloc]
    exact ⟨hnone, by omega⟩

theorem put (hs : Splits h base g) (ha : h.get? a = some y) (x : α) : Splits (h.put a x) base (g.put a x) where
  size := by rw [size_put, size_put, hs.size]
  get b := by
    rw [get?_put ha, get?_put (hs.mine ha), hs.get]
    split <;> rfl
  apart b z hb := by
    obtain ⟨hnone, hlt⟩ := hs.apart b z hb
    have hba : b ≠ a := by
      rintro rfl
      rw [ha] at hnone
      cases hnone
    rw [get?_put_ne hba, size_put]
    exact ⟨hnone, hlt⟩

theorem release (hs : Splits h base g) (ha : h.get? a = some y) : Splits (h.release a) base (g.release a) where
  size := by rw [size_release, size_release, hs.size]
  get b := by
    rw [get?_release, get?_release, hs.get]
    split
    · next hb => rw [hb, hs.base_none ha]; rfl
    · rfl
  apart b z hb := by
    obtain ⟨hnone, hlt⟩ := hs.apart b z hb
    rw [get?_release, size_release]
    refine ⟨?_, hlt⟩
    split
    · rfl
    · exact hnone

/-- The number of cells in `base`. -/
theorem card_live (hs : Splits h base g) {n : Nat} (hn : h.size ≤ n) :
    g.live.card = h.live.card + ((Finset.range n).filter fun a => (base a).isSome).card := by
  have hunion : g.live = h.live ∪ (Finset.range n).filter fun a => (base a).isSome := by
    ext a
    rw [Finset.mem_union, Finset.mem_filter, Finset.mem_range, mem_live, mem_live, hs.get]
    cases hh : h.get? a with
    | some y => simp
    | none =>
      cases hb : base a with
      | none => simp
      | some y =>
        have hlt := (hs.apart a y hb).2
        simp only [Option.none_or, Option.isSome_some, Option.isSome_none, and_true, true_iff]
        exact .inr (by omega)
  have hd : Disjoint h.live ((Finset.range n).filter fun a => (base a).isSome) := by
    rw [Finset.disjoint_left]
    intro a ha hb
    obtain ⟨y, hy⟩ := Option.isSome_iff_exists.1 (Finset.mem_filter.1 hb).2
    rw [mem_live, (hs.apart a y hy).1] at ha
    cases ha
  rw [hunion, Finset.card_union_of_disjoint hd]

end Splits

/-! ## The cells at some addresses -/

section

variable {S : Nat → Prop} [DecidablePred S]

/-- The store without the cells at other addresses. -/
def restrict (g : Store α) (S : Nat → Prop) [DecidablePred S] : Store α :=
  ⟨g.cells.mapIdx fun a c => if S a then c else none⟩

@[simp] theorem size_restrict (g : Store α) : (g.restrict S).size = g.size := by
  simp [size, restrict]

theorem get?_restrict (g : Store α) (a : Nat) : (g.restrict S).get? a = if S a then g.get? a else none := by
  simp only [get?, restrict, List.getElem?_mapIdx]
  cases g.cells[a]? with
  | none => simp
  | some c => by_cases ha : S a <;> simp [ha]

theorem Splits.restrict (g : Store α) : Splits (g.restrict S) (fun a => if S a then none else g.get? a) g where
  size := (g.size_restrict).symm
  get a := by
    rw [get?_restrict]
    split <;> simp
  apart a x hx := by
    rw [get?_restrict, size_restrict]
    split at hx
    · cases hx
    · next ha => exact ⟨if_neg ha, lt_size hx⟩

end

end Store

end Lib
