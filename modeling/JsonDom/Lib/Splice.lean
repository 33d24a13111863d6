import Mathlib.Data.List.Basic

/-!
# Writing into a block

`splice block off xs` is `block` with `xs` written over it from `off` on.
-/

namespace Lib

variable {α : Type}

/-- The block with `xs` written over it from `off` on. -/
def splice (block : List α) (off : Nat) (xs : List α) : List α :=
  block.take off ++ xs ++ block.drop (off + xs.length)

variable {block xs ys : List α} {off : Nat}

@[simp] theorem length_splice (h : off + xs.length ≤ block.length) :
    (splice block off xs).length = block.length := by
  simp only [splice, List.length_append, List.length_take, List.length_drop]
  omega

@[simp] theorem splice_zero : splice block 0 xs = xs ++ block.drop xs.length := by
  simp [splice]

theorem take_splice (h : off ≤ block.length) :
    (splice block off xs).take (off + xs.length) = block.take off ++ xs := by
  rw [splice, List.take_left']
  rw [List.length_append, List.length_take, Nat.min_eq_left h]

theorem drop_splice (h : off ≤ block.length) :
    (splice block off xs).drop (off + xs.length) = block.drop (off + xs.length) := by
  rw [splice, List.drop_left']
  rw [List.length_append, List.length_take, Nat.min_eq_left h]

/-- What stands in front of a write. -/
theorem prefix_splice {s : List α} (hs : s.length = off) (h : off ≤ block.length) :
    s <+: splice block off xs ↔ s = block.take off := by
  rw [List.prefix_iff_eq_take, hs, splice, List.append_assoc, List.take_left']
  rw [List.length_take, Nat.min_eq_left h]

theorem append_prefix_splice {s : List α} (hs : s.length = off) (h : off ≤ block.length) :
    s ++ xs <+: splice block off xs ↔ s = block.take off := by
  rw [List.prefix_iff_eq_take, List.length_append, hs, take_splice h, List.append_left_inj]

/-- Two writes, the second right behind the first, are one. -/
theorem splice_splice (h : off ≤ block.length) :
    splice (splice block off xs) (off + xs.length) ys = splice block off (xs ++ ys) := by
  have hdrop : (splice block off xs).drop (off + xs.length + ys.length) =
      block.drop (off + (xs ++ ys).length) := by
    rw [← List.drop_drop, drop_splice h, List.drop_drop, List.length_append, Nat.add_assoc]
  rw [splice, take_splice h, hdrop, splice, List.append_assoc (block.take off)]

end Lib
