import Mathlib.Data.List.Basic
import Mathlib.Tactic.Common

/-! Tables of numbers below `2 ^ 16`, packed into one number. An entry is found by a division, which
the kernel does at once, and not by a walk along the list. -/

namespace Latypus.Lib

def pack (l : List Nat) : Nat := l.foldr (fun a n => a + 65536 * n) 0

/-- Entry `i` of a packed table. -/
def entry (t i : Nat) : Nat := Nat.mod (Nat.div t (Nat.pow 65536 i)) 65536

/-- The `n` entries from `off` on. -/
def entries (t off n : Nat) : List Nat := (List.range n).map fun i => entry t (off + i)

theorem entry_pack {l : List Nat} (h : l.all (· < 65536) = true) (i : Nat) : entry (pack l) i = l.getD i 0 := by
  induction l generalizing i with
  | nil => exact (congrArg (· % 65536) (Nat.zero_div (65536 ^ i))).trans rfl
  | cons a l ih =>
    rw [List.all_cons, Bool.and_eq_true, decide_eq_true_iff] at h
    change (a + 65536 * pack l) / 65536 ^ i % 65536 = _
    cases i with
    | zero => rw [Nat.pow_zero, Nat.div_one, Nat.add_mul_mod_self_left, Nat.mod_eq_of_lt h.1, List.getD_cons_zero]
    | succ i =>
      rw [Nat.pow_succ', ← Nat.div_div_eq_div_mul, Nat.add_mul_div_left a _ (by decide), Nat.div_eq_of_lt h.1,
        Nat.zero_add, List.getD_cons_succ]
      exact ih h.2 i

theorem getD_entries {l : List Nat} (h : l.all (· < 65536) = true) (off n i : Nat) :
    (entries (pack l) off n).getD i 0 = ((l.drop off).take n).getD i 0 := by
  unfold entries
  simp only [List.getD_eq_getElem?_getD, List.getElem?_map, List.getElem?_take, List.getElem?_drop]
  split_ifs with hi
  · rw [List.getElem?_range hi, Option.map_some, Option.getD_some, entry_pack h, List.getD_eq_getElem?_getD]
  · rw [List.getElem?_eq_none (by simpa using hi)]
    rfl

theorem getD_entries_of_lt {t off n i : Nat} (h : i < n) : (entries t off n).getD i 0 = entry t (off + i) := by
  rw [entries, List.getD_eq_getElem?_getD, List.getElem?_map, List.getElem?_range h, Option.map_some, Option.getD_some]

theorem mem_entries {l : List Nat} (h : l.all (· < 65536) = true) {a off n : Nat} (ha : a ∈ (l.drop off).take n) :
    a ∈ entries (pack l) off n := by
  obtain ⟨i, hi⟩ := List.mem_iff_getElem?.mp ha
  have hlt : i < n := by
    by_contra hge
    rw [List.getElem?_take_eq_none (Nat.not_lt.mp hge)] at hi
    cases hi
  refine List.mem_map.mpr ⟨i, List.mem_range.mpr hlt, ?_⟩
  rw [List.getElem?_take_of_lt hlt, List.getElem?_drop] at hi
  rw [entry_pack h, List.getD_eq_getElem?_getD, hi, Option.getD_some]

end Latypus.Lib
