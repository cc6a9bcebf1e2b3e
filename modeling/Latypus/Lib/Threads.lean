import Mathlib.Data.List.Basic
import Mathlib.Data.List.Count
import Mathlib.Tactic.Common

/-! Lists of thread-local states. A step of one thread replaces one entry of the list; the number
of threads in a set of states says whether a critical section is held, and at most one is in it. -/

namespace Latypus.Lib
variable {σ : Type*} {l : List σ} {i j : Nat} {x y z : σ} {p : σ → Bool}

theorem countP_set_add (h : l[i]? = some x) :
    (l.set i y).countP p + (p x).toNat = l.countP p + (p y).toNat := by
  induction l generalizing i with
  | nil => simp at h
  | cons a l ih =>
    cases i with
    | zero =>
      obtain rfl : a = x := by simpa using h
      cases hx : p a <;> cases hy : p y <;> simp [hx, hy]
    | succ i =>
      have hrest := ih (i := i) (by simpa using h)
      simp only [List.set_cons_succ, List.countP_cons]
      omega

/-- What the threads hold, after one of them has changed what it holds. -/
theorem count_flatMap_set_add {β : Type*} [BEq β] {f : σ → List β} (h : l[i]? = some x) (b : β) :
    ((l.set i y).flatMap f).count b + (f x).count b = (l.flatMap f).count b + (f y).count b := by
  induction l generalizing i with
  | nil => simp at h
  | cons a l ih =>
    cases i with
    | zero =>
      obtain rfl : a = x := by simpa using h
      simp only [List.set_cons_zero, List.flatMap_cons, List.count_append]
      omega
    | succ i =>
      have hrest := ih (i := i) (by simpa using h)
      simp only [List.set_cons_succ, List.flatMap_cons, List.count_append]
      omega

theorem countP_pos_of_getElem? (h : l[i]? = some x) (hx : p x = true) : 0 < l.countP p :=
  List.countP_pos_iff.mpr ⟨x, List.mem_of_getElem? h, hx⟩

/-- Two threads in a section that holds one thread at most are the same. -/
theorem eq_of_countP_le_one (hle : l.countP p ≤ 1) (hi : l[i]? = some x) (hx : p x = true)
    (hj : l[j]? = some y) (hy : p y = true) : i = j := by
  induction l generalizing i j with
  | nil => simp at hi
  | cons a l ih =>
    rw [List.countP_cons] at hle
    cases i with
    | zero =>
      obtain rfl : a = x := by simpa using hi
      cases j with
      | zero => rfl
      | succ j =>
        have := countP_pos_of_getElem? (p := p) (l := l) (i := j) (by simpa using hj) hy
        simp only [hx, if_true] at hle
        omega
    | succ i =>
      cases j with
      | zero =>
        obtain rfl : a = y := by simpa using hj
        have := countP_pos_of_getElem? (p := p) (l := l) (i := i) (by simpa using hi) hx
        simp only [hy, if_true] at hle
        omega
      | succ j =>
        have hij : i = j := ih (by omega) (by simpa using hi) (by simpa using hj)
        rw [hij]

/-- After a step of one thread, every thread is that thread in its new state or another one
as it was. -/
theorem getElem?_set_cases (h : (l.set i y)[j]? = some z) : (j = i ∧ z = y) ∨ (j ≠ i ∧ l[j]? = some z) := by
  by_cases hij : j = i
  · subst hij
    rw [List.getElem?_set] at h
    split_ifs at h with hlt
    · exact .inl ⟨rfl, (Option.some.inj h).symm⟩
    · simp_all
  · rw [List.getElem?_set_ne (Ne.symm hij)] at h
    exact .inr ⟨hij, h⟩

end Latypus.Lib
