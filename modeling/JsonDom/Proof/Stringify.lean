import JsonDom.Model.Stringify
import JsonDom.Proof.Memory

/-!
# Writing into a caller's buffer
-/

namespace JsonDom

open Lib

variable {w : World} {b : Addr} {block : Bytes}

theorem toInt_small {n : Nat} (h : n ≤ 2147483647) : toInt n = n := by
  rw [toInt, BitVec.toInt_eq_toNat_of_lt]
  · rw [BitVec.toNat_ofNat, Nat.mod_eq_of_lt (by omega)]
  · rw [BitVec.toNat_ofNat, Nat.mod_eq_of_lt (by omega)]
    omega

/-- A length that does not fit is not what an `int` holds. -/
theorem toInt_large {n : Nat} (h : 2147483647 < n) : toInt n ≠ n := by
  have hlt := @BitVec.toInt_lt 32 (BitVec.ofNat 32 n)
  rw [toInt]
  intro he
  rw [he, show (2 : Int) ^ (32 - 1) = 2147483648 from rfl] at hlt
  omega

theorem memcpy_run (hb : w.heap.get? b = some (.text block)) {off n : Nat} {src : Bytes}
    (hn : n ≤ src.length) (hfit : off + n ≤ block.length) :
    memcpy (some b) off src n w =
      .ok ((), { w with heap := w.heap.put b (.text (splice block off (src.take n))) }) := by
  unfold memcpy
  rw [M.bind_ok (load_run w hb)]
  dsimp only
  rw [if_pos (by omega), Int.toNat_natCast, Int.toNat_natCast]
  exact store_run w hb _

theorem putChar_run (hb : w.heap.get? b = some (.text block)) {i : Nat} (hi : i < block.length)
    (c : UInt8) : putChar (some b) i c w =
      .ok ((), { w with heap := w.heap.put b (.text (splice block i [c])) }) :=
  memcpy_run hb (Nat.le_refl 1) hi

theorem putChar_out (hb : w.heap.get? b = some (.text block)) {i : Nat} (hi : block.length ≤ i)
    (c : UInt8) : putChar (some b) i c w = .error .badAccess := by
  unfold putChar memcpy
  rw [M.bind_ok (load_run w hb)]
  dsimp only
  rw [if_neg (by omega)]
  rfl

end JsonDom
