import Latypus.Lib.Memory

/-! A stream laid out in a ring: the cells of a window of the stream stand in the storage at
their positions modulo its size. Appending at the end of the window keeps it as long as the
window never outgrows the ring. -/

namespace Latypus.Lib
variable {α : Type*} {S m m' src bs : List α} {N lo hi n : Nat}

def Window (S m : List α) (N lo hi : Nat) : Prop :=
  ∀ i, lo ≤ i → i < hi → m[i % N]? = S[i]?

theorem Window.nil (S m : List α) (N lo : Nat) : Window S m N lo lo :=
  fun i h h' => absurd h (by omega)

theorem Window.mono {lo' : Nat} (h : Window S m N lo hi) (hle : lo ≤ lo') : Window S m N lo' hi :=
  fun i hi' => h i (hle.trans hi')

/-- Two positions less than `N` apart have different residues. -/
theorem mod_ne_of_lt {i j : Nat} (hij : i < j) (hj : j < i + N) : i % N ≠ j % N := by
  intro h
  have hdvd : N ∣ j - i := (Nat.modEq_iff_dvd' hij.le).mp h
  exact absurd (Nat.le_of_dvd (by omega) hdvd) (by omega)

theorem add_mod_of_lt {k : Nat} (h : hi % N + k < N) : (hi + k) % N = hi % N + k := by
  have hk : k % N = k := Nat.mod_eq_of_lt (by omega)
  rw [Nat.add_mod_of_add_mod_lt (by omega), hk]

theorem Window.store (h : Window S m N lo hi) (hlen : m.length = N)
    (hstore : store m (hi % N) src = some m') (hsrc : src <+: S.drop hi)
    (hfit : hi + src.length ≤ lo + N) : Window S m' N lo (hi + src.length) := by
  have hbound := (store_eq_some.mp hstore).1
  intro i h1 h2
  rw [getElem?_of_store hstore]
  by_cases hi' : i < hi
  · rw [if_neg, h i h1 hi']
    rintro ⟨hlo, hup⟩
    -- the cell written at `i % N` would be that of a stream position behind `i`
    have hj : (hi + (i % N - hi % N)) % N = _ := add_mod_of_lt (by omega)
    exact mod_ne_of_lt (N := N) (i := i) (j := hi + (i % N - hi % N)) (by omega) (by omega)
      (by omega)
  · have hmod : i % N = hi % N + (i - hi) := by
      rw [← add_mod_of_lt (by omega)]
      congr 1
      omega
    rw [if_pos (by omega), show i % N - hi % N = i - hi by omega]
    obtain ⟨t, ht⟩ := hsrc
    have hS : (S.drop hi)[i - hi]? = S[i]? := by
      rw [List.getElem?_drop]
      congr 1
      omega
    rw [← hS, ← ht, List.getElem?_append_left (by omega)]

theorem Window.load (h : Window S m N lo hi) (hload : load m (lo % N) n = some bs)
    (hlen : m.length = N) (hle : lo + n ≤ hi) : bs = (S.drop lo).take n := by
  obtain ⟨hbound, rfl⟩ := load_eq_some.mp hload
  apply List.ext_getElem?
  intro j
  by_cases hj : j < n
  · rw [List.getElem?_take_of_lt hj, List.getElem?_take_of_lt hj, List.getElem?_drop,
      List.getElem?_drop, ← h (lo + j) (by omega) (by omega)]
    congr 1
    rw [add_mod_of_lt (by omega)]
  · rw [List.getElem?_eq_none (by simp; omega), List.getElem?_eq_none (by simp; omega)]

/-- A prefix of a stream grows by the next element of the stream. -/
theorem prefix_concat {x : α} (h : m <+: S) (hx : S[m.length]? = some x) : m ++ [x] <+: S := by
  obtain ⟨tail, rfl⟩ := h
  rw [List.getElem?_append_right le_rfl, Nat.sub_self] at hx
  cases tail with
  | nil => simp at hx
  | cons a tail =>
    obtain rfl : a = x := by simpa using hx
    exact ⟨tail, by simp⟩

end Latypus.Lib
