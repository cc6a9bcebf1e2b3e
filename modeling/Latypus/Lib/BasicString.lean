import Mathlib.Data.List.TakeWhile
import Latypus.Lib.Memory

/-! `basic_string`: a position is a 64-bit word, of which the greatest stands for no position and is
longer than any string. A string is cut at a separator by a walk over such positions. -/

namespace Latypus.Lib

/-- `npos`, or -1 as a word. -/
def npos : Nat := 2 ^ 64 - 1

structure BasicString (α : Type) where
  chars : List α
  length_lt : chars.length < npos

namespace BasicString
variable {α : Type}

def size (s : BasicString α) : Nat := s.chars.length

/-- `substr`; without a result it has thrown `out_of_range`. -/
def substr (s : BasicString α) (pos n : Nat) : Option (BasicString α) :=
  if pos ≤ s.size then
    some ⟨(s.chars.drop pos).take n, ((List.take_sublist n _).trans (List.drop_sublist pos _)).length_le.trans_lt s.length_lt⟩
  else none

theorem exists_substr {s : BasicString α} {pos : Nat} (h : pos ≤ s.size) (n : Nat) :
    ∃ t, s.substr pos n = some t ∧ t.chars = (s.chars.drop pos).take n :=
  ⟨_, if_pos h, rfl⟩

variable [DecidableEq α]

/-- `find_first_of` with one character. -/
def findFirstOf (s : BasicString α) (c : α) (pos : Nat) : Nat :=
  ((s.chars.drop pos).findIdx? (· = c)).elim npos (pos + ·)

section Find
variable {s : BasicString α} {c : α} {pos next : Nat} {u v : List α}

theorem findIdx?_of_notMem (h : c ∉ u) : u.findIdx? (· = c) = none := by
  rw [List.findIdx?_eq_none_iff]
  intro x hx
  exact decide_eq_false fun heq => h (heq ▸ hx)

theorem findFirstOf_of_notMem (h : c ∉ s.chars.drop pos) : s.findFirstOf c pos = npos := by
  rw [findFirstOf, findIdx?_of_notMem h]
  rfl

theorem findFirstOf_of_drop (hdrop : s.chars.drop pos = u ++ c :: v) (hu : c ∉ u) :
    s.findFirstOf c pos = pos + u.length := by
  rw [findFirstOf, hdrop, List.findIdx?_append, findIdx?_of_notMem hu, List.findIdx?_cons, if_pos (decide_eq_true rfl)]
  simp

/-- One round of the walk from the position behind a separator, or from the beginning. What is cut off is
the first part of what is left, and where there is a separator behind it, the walk is not at its end. -/
theorem walk (hpos : pos ≤ s.size) (hnext : s.findFirstOf c pos = next) :
    ∃ item, s.substr pos (sizeT ((next : Int) - pos)) = some item ∧
      (next = npos ∧ (s.chars.drop pos).splitOn c = [item.chars] ∨
        next ≠ npos ∧ sizeT ((next : Int) + 1) ≤ s.size ∧
          (s.chars.drop pos).splitOn c = item.chars :: (s.chars.drop (sizeT ((next : Int) + 1))).splitOn c) := by
  have hlt := s.length_lt
  have hsize : s.size = s.chars.length := rfl
  unfold npos at hlt
  obtain ⟨item, hitem, hchars⟩ := exists_substr hpos (sizeT ((next : Int) - pos))
  refine ⟨item, hitem, ?_⟩
  by_cases hmem : c ∈ s.chars.drop pos
  · obtain ⟨u, v, hdrop, hu⟩ := List.eq_append_cons_of_mem hmem
    obtain rfl := (findFirstOf_of_drop hdrop hu).symm.trans hnext
    have hlen : pos + (u.length + 1 + v.length) = s.chars.length := by
      have hlength := congrArg List.length hdrop
      rw [List.length_drop, List.length_append, List.length_cons] at hlength
      omega
    have hcut : sizeT (((pos + u.length : Nat) : Int) - pos) = u.length := by
      rw [Nat.cast_add, add_sub_cancel_left, sizeT_natCast (by omega)]
    have hbehind : sizeT (((pos + u.length : Nat) : Int) + 1) = pos + u.length + 1 := by
      rw [← Nat.cast_succ, sizeT_natCast (by omega)]
    have hrest : s.chars.drop (pos + u.length + 1) = v := by
      rw [Nat.add_assoc, ← List.drop_drop, hdrop, ← List.drop_drop, List.drop_left, List.drop_one, List.tail_cons]
    rw [hcut, hdrop, List.take_left] at hchars
    rw [hbehind, hrest, hdrop, List.splitOn_append_cons_self_of_not_mem hu, hchars]
    exact .inr ⟨by unfold npos; omega, by omega, rfl⟩
  · obtain rfl := (findFirstOf_of_notMem hmem).symm.trans hnext
    have hlen : (s.chars.drop pos).length ≤ sizeT ((npos : Int) - pos) := by
      rw [List.length_drop, ← Nat.cast_sub (by unfold npos; omega), sizeT_natCast (by unfold npos; omega)]
      unfold npos
      omega
    rw [List.take_of_length_le hlen] at hchars
    rw [List.splitOn_eq_singleton hmem, hchars]
    exact .inl ⟨rfl, rfl⟩

theorem length_splitOn_le (c : α) (u : List α) : (u.splitOn c).length ≤ u.length + 1 := by
  induction u with
  | nil => simp
  | cons a u ih =>
    rw [List.splitOn_cons_eq_if_modifyHead]
    split_ifs
    · rw [List.length_cons, List.length_cons]
      omega
    · rw [List.length_modifyHead, List.length_cons]
      omega

end Find
end BasicString
end Latypus.Lib
