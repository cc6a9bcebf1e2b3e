import Mathlib.Data.List.Basic
import Mathlib.Data.List.TakeDrop
import Mathlib.Tactic.Common
import Mathlib.Data.Nat.Bitwise
import Mathlib.Data.Int.ModEq

/-! Byte storage as a list, with loads and stores that fail outside its bounds, and the
64-bit conversions `size_t` and `ssize_t` of a mathematical integer. -/

namespace Latypus.Lib

section Words

/-- Conversion to an unsigned 64-bit word. -/
def sizeT (x : Int) : Nat := (x % 2 ^ 64).toNat

/-- Conversion to a signed 64-bit word. -/
def ssizeT (x : Int) : Int := Int.bmod x (2 ^ 64)

theorem sizeT_of_lt {x : Int} (h0 : 0 ≤ x) (h : x < 2 ^ 64) : sizeT x = x.toNat := by
  rw [sizeT, Int.emod_eq_of_lt h0 h]

theorem sizeT_natCast {n : Nat} (h : n < 2 ^ 64) : sizeT n = n := by
  rw [sizeT_of_lt (Int.natCast_nonneg n) (by exact_mod_cast h), Int.toNat_natCast]

theorem ssizeT_of_lt {x : Int} (h0 : -2 ^ 63 ≤ x) (h : x < 2 ^ 63) : ssizeT x = x := by
  rw [ssizeT, Int.bmod_eq_of_le] <;> omega

end Words

section Storage
variable {α : Type*}

def load (m : List α) (off len : Nat) : Option (List α) :=
  if off + len ≤ m.length then some ((m.drop off).take len) else none

def store (m : List α) (off : Nat) (src : List α) : Option (List α) :=
  if off + src.length ≤ m.length then some (m.take off ++ src ++ m.drop (off + src.length))
  else none

theorem load_eq_some {m bs : List α} {off len : Nat} :
    load m off len = some bs ↔ off + len ≤ m.length ∧ bs = (m.drop off).take len := by
  unfold load
  split_ifs with h <;> simp [h, eq_comm]

theorem store_eq_some {m m' src : List α} {off : Nat} :
    store m off src = some m' ↔
      off + src.length ≤ m.length ∧ m' = m.take off ++ src ++ m.drop (off + src.length) := by
  unfold store
  split_ifs with h <;> simp [h, eq_comm]

theorem length_of_store {m m' src : List α} {off : Nat} (h : store m off src = some m') :
    m'.length = m.length := by
  obtain ⟨hle, rfl⟩ := store_eq_some.mp h
  simp
  omega

theorem getElem?_of_store {m m' src : List α} {off : Nat} (h : store m off src = some m')
    (i : Nat) : m'[i]? = if off ≤ i ∧ i < off + src.length then src[i - off]? else m[i]? := by
  obtain ⟨hle, rfl⟩ := store_eq_some.mp h
  have hlen : (m.take off).length = off := by simp; omega
  rw [List.append_assoc]
  by_cases hi : i < off
  · rw [List.getElem?_append_left (by omega), List.getElem?_take_of_lt hi, if_neg (by omega)]
  · rw [List.getElem?_append_right (by omega), hlen]
    by_cases hs : i < off + src.length
    · rw [List.getElem?_append_left (by omega), if_pos (by omega)]
    · rw [List.getElem?_append_right (by omega), List.getElem?_drop, if_neg (by omega)]
      congr 1
      omega

end Storage
end Latypus.Lib
