import Mathlib.Data.List.Basic
import Mathlib.Order.Basic
import Mathlib.Algebra.Order.Group.Nat
import Mathlib.Tactic.Common

/-! Scanners: automata with output that read one symbol at a time and stop by themselves.
Reading an input in pieces gives the same state, position and output as reading it whole. -/

namespace Latypus.Lib

structure Scanner (σ α ε : Type*) where
  step : σ → Nat → α → σ × List ε
  stops : σ → Bool
  /-- Whether the symbol that led to a state in which the scanner stops is consumed. -/
  takes : σ → Bool

namespace Scanner
variable {σ α ε : Type*} (M : Scanner σ α ε)

/-- Read a list of symbols from position `p` on: the final state, the position reached and
the output. -/
def scan : List α → Nat → σ → σ × Nat × List ε
  | [], p, s => (s, p, [])
  | a :: as, p, s =>
    if M.stops s then (s, p, [])
    else
      let r := M.step s p a
      if M.stops r.1 then (r.1, if M.takes r.1 then p + 1 else p, r.2)
      else
        let t := scan as (p + 1) r.1
        (t.1, t.2.1, r.2 ++ t.2.2)

theorem scan_of_stops {s : σ} (h : M.stops s = true) (as : List α) (p : Nat) :
    M.scan as p s = (s, p, []) := by
  cases as <;> simp [scan, h]

theorem scan_append (as bs : List α) (p : Nat) (s : σ) :
    M.scan (as ++ bs) p s =
      let r := M.scan as p s
      let t := M.scan bs r.2.1 r.1
      (t.1, t.2.1, r.2.2 ++ t.2.2) := by
  induction as generalizing p s with
  | nil => simp [scan]
  | cons a as ih =>
    by_cases hs : M.stops s
    · simp [scan_of_stops, hs]
    · by_cases ht : M.stops (M.step s p a).1
      · simp [scan, hs, ht, scan_of_stops]
      · simp [scan, hs, ht, ih]

/-- The position reached when the scanner has not stopped. -/
theorem pos_of_not_stops {as : List α} {p : Nat} {s : σ}
    (h : M.stops (M.scan as p s).1 = false) : (M.scan as p s).2.1 = p + as.length := by
  induction as generalizing p s with
  | nil => simp [scan]
  | cons a as ih =>
    by_cases hs : M.stops s
    · rw [scan_of_stops M hs] at h
      simp [hs] at h
    · by_cases ht : M.stops (M.step s p a).1
      · simp [scan, hs, ht] at h
      · simp only [scan, hs, ht, if_false, Bool.false_eq_true] at h ⊢
        rw [ih h, List.length_cons]
        omega

theorem le_pos (as : List α) (p : Nat) (s : σ) : p ≤ (M.scan as p s).2.1 := by
  induction as generalizing p s with
  | nil => simp [scan]
  | cons a as ih =>
    simp only [scan]
    split_ifs
    · exact le_rfl
    · exact Nat.le_succ p
    · exact le_rfl
    · exact (Nat.le_succ p).trans (ih (p + 1) _)

theorem pos_le (as : List α) (p : Nat) (s : σ) : (M.scan as p s).2.1 ≤ p + as.length := by
  induction as generalizing p s with
  | nil => simp [scan]
  | cons a as ih =>
    have hih := ih (p + 1) (M.step s p a).1
    simp only [scan, List.length_cons]
    split_ifs <;> simp only <;> omega

/-- A property that every step's output has with respect to the step's position holds of all
output, at some position of the input. -/
theorem forall_output {P : Nat → ε → Prop} (hP : ∀ s p a, ∀ e ∈ (M.step s p a).2, P p e)
    (as : List α) (p : Nat) (s : σ) :
    ∀ e ∈ (M.scan as p s).2.2, ∃ q, p ≤ q ∧ q < p + as.length ∧ P q e := by
  induction as generalizing p s with
  | nil => simp [scan]
  | cons a as ih =>
    intro e he
    simp only [scan] at he
    split_ifs at he with hs ht
    · simp at he
    · exact ⟨p, le_rfl, by simp, hP s p a e he⟩
    · exact ⟨p, le_rfl, by simp, hP s p a e he⟩
    · rcases List.mem_append.mp he with he | he
      · exact ⟨p, le_rfl, by simp, hP s p a e he⟩
      · obtain ⟨q, hq, hq', hPe⟩ := ih (p + 1) _ e he
        exact ⟨q, by omega, by simp; omega, hPe⟩

/-- A property of the output of every step that does not make the scanner stop holds of all
output as long as it has not stopped. -/
theorem forall_output_of_not_stops {P : ε → Prop}
    (hP : ∀ s p a, M.stops (M.step s p a).1 = false → ∀ e ∈ (M.step s p a).2, P e)
    {as : List α} {p : Nat} {s : σ} (h : M.stops (M.scan as p s).1 = false) :
    ∀ e ∈ (M.scan as p s).2.2, P e := by
  induction as generalizing p s with
  | nil => simp [scan]
  | cons a as ih =>
    by_cases hs : M.stops s = true
    · simp [scan_of_stops M hs]
    by_cases ht : M.stops (M.step s p a).1 = true
    · simp [scan, hs, ht] at h
    · simp only [scan, hs, ht, if_false, Bool.false_eq_true] at h ⊢
      intro e he
      rcases List.mem_append.mp he with he | he
      · exact hP s p a (by simpa using ht) e he
      · exact ih h e he

/-- Reading `as` from position `p` on leads from `s` to `t` with the output `out`, and takes
every symbol. -/
def Passes (as : List α) (p : Nat) (s t : σ) (out : List ε) : Prop :=
  M.stops s = false ∧ M.scan as p s = (t, p + as.length, out)

variable {M} {as bs : List α} {p : Nat} {s t u : σ} {out out' : List ε}

theorem Passes.nil (hs : M.stops s = false) : M.Passes [] p s s [] := ⟨hs, rfl⟩

theorem Passes.single {a : α} (hs : M.stops s = false) (hstep : M.step s p a = (t, out))
    (ht : M.stops t = true → M.takes t = true) : M.Passes [a] p s t out := by
  refine ⟨hs, ?_⟩
  simp only [scan, hs, hstep, Bool.false_eq_true, if_false, List.append_nil, List.length_singleton]
  split_ifs with h h'
  · rfl
  · exact absurd (ht h) h'
  · rfl

theorem Passes.append (h : M.Passes as p s t out) (h' : M.Passes bs (p + as.length) t u out') :
    M.Passes (as ++ bs) p s u (out ++ out') := by
  refine ⟨h.1, ?_⟩
  rw [scan_append, h.2]
  simp [h'.2, Nat.add_assoc]

theorem Passes.append_at {q : Nat} (h : M.Passes as p s t out) (hq : q = p + as.length)
    (h' : M.Passes bs q t u out') : M.Passes (as ++ bs) p s u (out ++ out') :=
  h.append (hq ▸ h')

theorem Passes.cons {a : α} (h : M.Passes [a] p s t out) (h' : M.Passes as (p + 1) t u out') :
    M.Passes (a :: as) p s u (out ++ out') := h.append h'

/-- Symbols that leave a state as it is. -/
theorem Passes.loop (hs : M.stops s = false) (h : ∀ a ∈ as, ∀ p, M.step s p a = (s, [])) :
    M.Passes as p s s [] := by
  induction as generalizing p with
  | nil => exact .nil hs
  | cons a as ih =>
    have hone : M.Passes [a] p s s [] := .single hs (h a List.mem_cons_self p) (by simp [hs])
    exact hone.cons (ih fun b hb => h b (List.mem_cons_of_mem a hb))

/-- Symbols each of which leads back to the state. -/
theorem Passes.of_forall (hs : M.stops s = false) (h : ∀ a ∈ as, ∀ p, M.Passes [a] p s s []) :
    M.Passes as p s s [] := by
  induction as generalizing p with
  | nil => exact .nil hs
  | cons a as ih =>
    exact (h a List.mem_cons_self p).cons (ih fun b hb => h b (List.mem_cons_of_mem a hb))

end Scanner
end Latypus.Lib
