import Mathlib.Computability.DFA
import Mathlib.Algebra.Order.Kleene
import Mathlib.Order.CompletePartialOrder

/-! Rules for finding the language of a deterministic automaton. The words that lead from one
set of states into another form a language that is closed under the operations of the grammar,
and a language for each state that grows along the transitions contains every word that leads
to the state. -/

namespace Latypus.Lib
open Computability

/-- The words of one symbol with a property. -/
def oneOf {α : Type*} (P : α → Prop) : Language α := {w | ∃ a, P a ∧ w = [a]}

theorem mem_oneOf {α : Type*} {P : α → Prop} {w : List α} : w ∈ oneOf P ↔ ∃ a, P a ∧ w = [a] :=
  Iff.rfl

theorem singleton_mem_oneOf {α : Type*} {P : α → Prop} {a : α} : [a] ∈ oneOf P ↔ P a := by
  simp [mem_oneOf]

theorem oneOf_mono {α : Type*} {P Q : α → Prop} (h : ∀ a, P a → Q a) : oneOf P ≤ oneOf Q := by
  rintro w ⟨a, ha, rfl⟩
  exact singleton_mem_oneOf.mpr (h a ha)

section Kleene
variable {K : Type*} [KleeneAlgebra K] {a b c d : K}

theorem le_mul_of_one_le (ha : 1 ≤ a) (h : c ≤ b) : c ≤ a * b :=
  calc c = 1 * c := (one_mul c).symm
    _ ≤ a * b := mul_le_mul' ha h

theorem le_mul_kstar (h : c ≤ a) : c ≤ a * b∗ :=
  calc c = c * 1 := (mul_one c).symm
    _ ≤ a * b∗ := mul_le_mul' h one_le_kstar

/-- One more round of a repetition. -/
theorem mul_mul_le_kstar (h : c ≤ a * b∗) (hd : d ≤ b) : c * d ≤ a * b∗ :=
  calc c * d ≤ a * b∗ * b := mul_le_mul' h hd
    _ = a * (b∗ * b) := mul_assoc a _ b
    _ ≤ a * b∗ := mul_le_mul_right kstar_mul_le_kstar a

/-- A repetition in which separators follow, then one in which they lead. -/
theorem kstar_mul_swap (a b : K) : (a * b)∗ * a ≤ a * (b * a)∗ := by
  refine kstar_mul_le (le_mul_kstar le_rfl) ?_
  calc a * b * (a * (b * a)∗) = a * (b * a * (b * a)∗) := by simp only [mul_assoc]
    _ ≤ a * (b * a)∗ := mul_le_mul_right mul_kstar_le_kstar a

end Kleene

section Automaton
variable {α σ : Type*} (M : DFA α σ) {A B C : Set σ} {l m : Language α}

/-- The words that lead from each state of one set into another. -/
def leads (A B : Set σ) : Language α := {w | ∀ q ∈ A, M.evalFrom q w ∈ B}

variable {M}

theorem oneOf_le_leads {P : α → Prop} (h : ∀ q ∈ A, ∀ a, P a → M.step q a ∈ B) :
    oneOf P ≤ leads M A B := by
  rintro w ⟨a, ha, rfl⟩ q hq
  exact h q hq a ha

theorem mul_le_leads (hl : l ≤ leads M A B) (hm : m ≤ leads M B C) : l * m ≤ leads M A C := by
  intro w hw q hq
  obtain ⟨u, hu, v, hv, rfl⟩ := Language.mem_mul.mp hw
  rw [M.evalFrom_of_append]
  exact hm hv _ (hl hu q hq)

theorem kstar_le_leads (hl : l ≤ leads M A A) : l∗ ≤ leads M A A := by
  refine kstar_le_of_mul_le_left ?_ ?_
  · rintro w rfl q hq
    exact hq
  · exact mul_le_leads le_rfl hl

theorem leads_mono {B' : Set σ} (h : B ⊆ B') : leads M A B ≤ leads M A B' :=
  fun _ hw q hq => h (hw q hq)

/-- Every word is in the language of the state it leads to. -/
theorem mem_of_eval {L : σ → Language α} (hstart : [] ∈ L M.start)
    (hstep : ∀ q a, L q * oneOf (· = a) ≤ L (M.step q a)) (w : List α) : w ∈ L (M.eval w) := by
  induction w using List.reverseRecOn with
  | nil => exact hstart
  | append_singleton w a ih =>
    rw [M.eval_append_singleton]
    exact hstep _ a (Language.append_mem_mul ih (singleton_mem_oneOf.mpr rfl))

end Automaton
end Latypus.Lib
