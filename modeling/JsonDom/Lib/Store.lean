import Mathlib.Data.Finset.Card
import Mathlib.Data.Finset.Range

/-!
# An allocation store

`Store α`: memory as numbered cells. `alloc` hands out the next unused address and no address is
handed out twice, so a released cell stays absent and a use after release shows as `get? = none`.
-/

namespace Lib

/-- The cells handed out so far; `none` is a released cell. -/
structure Store (α : Type) where
  cells : List (Option α)

namespace Store

variable {α : Type}

def empty : Store α := ⟨[]⟩

/-- The next address `alloc` hands out. -/
def size (s : Store α) : Nat := s.cells.length

/-- The live cell at an address. -/
def get? (s : Store α) (a : Nat) : Option α := s.cells[a]?.join

def alloc (s : Store α) (x : α) : Store α := ⟨s.cells ++ [some x]⟩

def put (s : Store α) (a : Nat) (x : α) : Store α := ⟨s.cells.set a (some x)⟩

def release (s : Store α) (a : Nat) : Store α := ⟨s.cells.set a none⟩

def map (f : α → α) (s : Store α) : Store α := ⟨s.cells.map (Option.map f)⟩

/-! ## Reading back -/

@[simp] theorem get?_map (f : α → α) (s : Store α) (a : Nat) : (s.map f).get? a = (s.get? a).map f := by
  simp only [get?, map, List.getElem?_map]
  cases s.cells[a]? <;> rfl

theorem lt_size {s : Store α} {a : Nat} {x : α} (h : s.get? a = some x) : a < s.size := by
  by_contra hc
  rw [get?, List.getElem?_eq_none (Nat.le_of_not_lt hc)] at h
  cases h

theorem get?_size_le {s : Store α} {a : Nat} (h : s.size ≤ a) : s.get? a = none := by
  rw [get?, List.getElem?_eq_none h]
  rfl

@[simp] theorem size_alloc (s : Store α) (x : α) : (s.alloc x).size = s.size + 1 := by
  simp [size, alloc]

@[simp] theorem size_put (s : Store α) (a : Nat) (x : α) : (s.put a x).size = s.size := by
  simp [size, put]

@[simp] theorem size_release (s : Store α) (a : Nat) : (s.release a).size = s.size := by
  simp [size, release]

@[simp] theorem get?_alloc_self (s : Store α) (x : α) : (s.alloc x).get? s.size = some x := by
  simp [get?, alloc, size]

theorem get?_alloc_lt {s : Store α} {x : α} {a : Nat} (h : a < s.size) :
    (s.alloc x).get? a = s.get? a := by
  simp only [get?, alloc]
  rw [List.getElem?_append_left h]

theorem get?_alloc_ne {s : Store α} {x : α} {a : Nat} (h : a ≠ s.size) :
    (s.alloc x).get? a = s.get? a := by
  rcases Nat.lt_or_gt_of_ne h with hlt | hgt
  · exact get?_alloc_lt hlt
  · rw [get?_size_le (by rw [size_alloc]; omega), get?_size_le (by omega)]

theorem get?_put_self {s : Store α} {a : Nat} {x : α} (h : a < s.size) :
    (s.put a x).get? a = some x := by
  simp only [get?, put]
  rw [List.getElem?_set_self h]
  rfl

@[simp] theorem get?_put_ne {s : Store α} {a b : Nat} {x : α} (h : b ≠ a) :
    (s.put a x).get? b = s.get? b := by
  simp only [get?, put]
  rw [List.getElem?_set_ne (Ne.symm h)]

/-- Writing to a live cell. -/
theorem get?_put {s : Store α} {a : Nat} {y : α} (h : s.get? a = some y) (x : α) (b : Nat) :
    (s.put a x).get? b = if b = a then some x else s.get? b := by
  split
  · next hb => rw [hb, get?_put_self (lt_size h)]
  · next hb => exact get?_put_ne hb

@[simp] theorem put_alloc (s : Store α) (x y : α) : (s.alloc x).put s.size y = s.alloc y := by
  simp [alloc, put, size]

@[simp] theorem put_put (s : Store α) (a : Nat) (x y : α) : (s.put a x).put a y = s.put a y := by
  simp [put]

/-- Writing what is there. -/
theorem put_self {s : Store α} {a : Nat} {x : α} (h : s.get? a = some x) : s.put a x = s := by
  have hlt : a < s.cells.length := lt_size h
  have hx : s.cells[a] = some x := by
    rw [get?, List.getElem?_eq_getElem hlt] at h
    exact h
  rw [put, ← hx, List.set_getElem_self]

@[simp] theorem get?_release_self (s : Store α) (a : Nat) : (s.release a).get? a = none := by
  rw [get?, release, List.getElem?_set, if_pos rfl]
  split <;> rfl

@[simp] theorem get?_release_ne {s : Store α} {a b : Nat} (h : b ≠ a) :
    (s.release a).get? b = s.get? b := by
  simp only [get?, release]
  rw [List.getElem?_set_ne (Ne.symm h)]

theorem get?_release (s : Store α) (a b : Nat) :
    (s.release a).get? b = if b = a then none else s.get? b := by
  split
  · next h => rw [h, get?_release_self]
  · next h => exact get?_release_ne h

/-! ## The live cells -/

/-- The addresses of the cells that are not released. -/
def live (s : Store α) : Finset Nat := (Finset.range s.size).filter fun a => (s.get? a).isSome

@[simp] theorem mem_live {s : Store α} {a : Nat} : a ∈ s.live ↔ (s.get? a).isSome = true := by
  rw [live, Finset.mem_filter, Finset.mem_range, and_iff_right_iff_imp]
  intro h
  obtain ⟨x, hx⟩ := Option.isSome_iff_exists.1 h
  exact lt_size hx

theorem live_lt {s : Store α} {a : Nat} (h : a ∈ s.live) : a < s.size := by
  obtain ⟨x, hx⟩ := Option.isSome_iff_exists.1 (mem_live.1 h)
  exact lt_size hx

theorem live_congr {s s' : Store α} (h : ∀ a, (s'.get? a).isSome = (s.get? a).isSome) : s'.live = s.live := by
  ext a
  rw [mem_live, mem_live, h]

/-- One more cell. -/
theorem card_live_insert {s s' : Store α} {a : Nat} {x : α} (ha : s.get? a = none) (hx : s'.get? a = some x)
    (h : ∀ b, b ≠ a → (s'.get? b).isSome = (s.get? b).isSome) : s'.live.card = s.live.card + 1 := by
  have hs : s'.live = insert a s.live := by
    ext b
    rw [Finset.mem_insert, mem_live, mem_live]
    by_cases hb : b = a
    · simp [hb, hx]
    · simp [hb, h b hb]
  rw [hs, Finset.card_insert_of_notMem (by simp [ha])]

theorem card_live_alloc (s : Store α) (x : α) : (s.alloc x).live.card = s.live.card + 1 :=
  card_live_insert (get?_size_le (Nat.le_refl _)) (get?_alloc_self s x) fun b hb => by
    rw [get?_alloc_ne hb]

theorem live_put {s : Store α} {a : Nat} {y : α} (h : s.get? a = some y) (x : α) :
    (s.put a x).live = s.live :=
  live_congr fun b => by
    rw [get?_put h]
    split
    · next hb => rw [hb, h]; rfl
    · rfl

/-- The cells `as` are released. -/
theorem card_live_release {s s' : Store α} {as : List Nat} (hn : as.Nodup)
    (ha : ∀ a ∈ as, (s.get? a).isSome = true) (h : ∀ b, s'.get? b = if b ∈ as then none else s.get? b) :
    s'.live.card + as.length = s.live.card := by
  have hs : s'.live = s.live \ as.toFinset := by
    ext b
    rw [Finset.mem_sdiff, mem_live, mem_live, h, List.mem_toFinset]
    by_cases hb : b ∈ as <;> simp [hb]
  have hsub : as.toFinset ⊆ s.live := fun a hm => mem_live.2 (ha a (List.mem_toFinset.1 hm))
  rw [hs, Finset.card_sdiff_of_subset hsub, List.toFinset_card_of_nodup hn]
  have hle := Finset.card_le_card hsub
  rw [List.toFinset_card_of_nodup hn] at hle
  omega

/-- Which of the new cells are live can be told from their number, where the old ones are as they were. -/
theorem card_live_iff {s s' : Store α} {as : List Nat} (hframe : ∀ x < s.size, s'.get? x = s.get? x)
    (hn : as.Nodup) (hfresh : ∀ x ∈ as, s.size ≤ x) (hlive : ∀ x ∈ as, (s'.get? x).isSome = true) :
    (∀ x, s.size ≤ x → ((s'.get? x).isSome = true ↔ x ∈ as)) ↔
      s'.live.card = s.live.card + as.length := by
  have hd : Disjoint s.live as.toFinset := by
    rw [Finset.disjoint_left]
    intro x hx hx'
    exact absurd (hfresh x (List.mem_toFinset.1 hx')) (Nat.not_le_of_lt (live_lt hx))
  have hsub : s.live ∪ as.toFinset ⊆ s'.live := by
    intro x hx
    rw [mem_live]
    rcases Finset.mem_union.1 hx with hx | hx
    · rw [hframe x (live_lt hx)]
      exact mem_live.1 hx
    · exact hlive x (List.mem_toFinset.1 hx)
  have hcard : (s.live ∪ as.toFinset).card = s.live.card + as.length := by
    rw [Finset.card_union_of_disjoint hd, List.toFinset_card_of_nodup hn]
  constructor
  · intro h
    have heq : s'.live = s.live ∪ as.toFinset := by
      refine Finset.Subset.antisymm (fun x hx => ?_) hsub
      rw [Finset.mem_union, List.mem_toFinset]
      rcases Nat.lt_or_ge x s.size with hlt | hge
      · rw [mem_live, hframe x hlt] at hx
        exact .inl (mem_live.2 hx)
      · exact .inr ((h x hge).1 (mem_live.1 hx))
    rw [heq, hcard]
  · intro h x hx
    have heq : s.live ∪ as.toFinset = s'.live := Finset.eq_of_subset_of_card_le hsub (by omega)
    rw [← mem_live, ← heq, Finset.mem_union, List.mem_toFinset]
    exact or_iff_right fun hold => absurd hx (Nat.not_le_of_lt (live_lt hold))

end Store

end Lib
