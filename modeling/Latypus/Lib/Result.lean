import Mathlib.Logic.Basic

/-! Postconditions on results that may be an error: what is true of the error and what is true of
the value, with the rules for sequencing and for runs over a list. -/

namespace Latypus.Lib
variable {ε α β : Type}

/-- The result is an error of the one kind or a value of the other. -/
def Ensures (E : ε → Prop) (Q : α → Prop) : Except ε α → Prop
  | .error e => E e
  | .ok a => Q a

variable {E E' : ε → Prop} {Q R : α → Prop} {S : β → Prop}

theorem Ensures.bind {r : Except ε α} {f : α → Except ε β} (hr : Ensures E Q r)
    (hf : ∀ a, Q a → Ensures E S (f a)) : Ensures E S (r >>= f) := by
  cases r with
  | error e => exact hr
  | ok a => exact hf a hr

theorem Ensures.mono {r : Except ε α} (hr : Ensures E Q r) (hE : ∀ e, E e → E' e) (hQ : ∀ a, Q a → R a) :
    Ensures E' R r := by
  cases r with
  | error e => exact hE e hr
  | ok a => exact hQ a hr

theorem bind_eq_ok {r : Except ε α} {f : α → Except ε β} {b : β} :
    r >>= f = .ok b ↔ ∃ a, r = .ok a ∧ f a = .ok b := by
  cases r with
  | error e => exact ⟨nofun, by rintro ⟨a, heq, -⟩; cases heq⟩
  | ok a => exact ⟨fun h => ⟨a, rfl, h⟩, by rintro ⟨a', heq, h⟩; cases heq; exact h⟩

/-- A list is gone through when each of its members gives a value. -/
theorem exists_mapM_iff {f : α → Except ε β} {as : List α} :
    (∃ bs, as.mapM f = .ok bs) ↔ ∀ a ∈ as, ∃ b, f a = .ok b := by
  induction as with
  | nil => exact iff_of_true ⟨[], rfl⟩ (List.forall_mem_nil _)
  | cons a as ih =>
    rw [List.forall_mem_cons, ← ih]
    simp only [List.mapM_cons, bind_eq_ok]
    constructor
    · rintro ⟨-, b, hb, bs, hbs, -⟩
      exact ⟨⟨b, hb⟩, bs, hbs⟩
    · rintro ⟨⟨b, hb⟩, bs, hbs⟩
      exact ⟨b :: bs, b, hb, bs, hbs, rfl⟩

section Run
variable {f : β → α → Except ε β} {b : β} {as : List α}

/-- One more step of a run over a list, which goes on where the run has not stopped. -/
theorem foldlM_take_succ {n : Nat} {a : α} (h : as[n]? = some a) :
    (as.take (n + 1)).foldlM f b = (as.take n).foldlM f b >>= fun b => f b a := by
  rw [List.take_add_one, h, Option.toList_some, List.foldlM_append]
  simp only [List.foldlM_cons, List.foldlM_nil, bind_pure]

/-- What holds at the start and is kept by each step of the run holds along the run, and may speak
of the part of the list that was run over. -/
theorem Ensures.foldlM_take {I : List α → β → Prop} (h0 : I [] b)
    (hstep : ∀ n a s, as[n]? = some a → (as.take n).foldlM f b = .ok s → I (as.take n) s →
      Ensures E (I (as.take n ++ [a])) (f s a)) (n : Nat) :
    Ensures E (I (as.take n)) ((as.take n).foldlM f b) := by
  induction n with
  | zero => exact h0
  | succ n ih =>
    cases h : as[n]? with
    | none =>
      rw [List.take_add_one, h, Option.toList_none, List.append_nil]
      exact ih
    | some a =>
      rw [foldlM_take_succ h, List.take_add_one, h, Option.toList_some]
      cases hrun : (as.take n).foldlM f b with
      | error e =>
        rw [hrun] at ih
        exact ih
      | ok s =>
        rw [hrun] at ih
        exact hstep n a s h hrun ih

/-- A run that does under `g` what another one does. -/
theorem foldlM_map_eq {γ : Type} {g : β → γ} {f' : γ → α → Except ε γ} (h : ∀ b a, f' (g b) a = (f b a).map g) :
    as.foldlM f' (g b) = (as.foldlM f b).map g := by
  induction as generalizing b with
  | nil => rfl
  | cons a as ih =>
    rw [List.foldlM_cons, List.foldlM_cons, h]
    cases f b a with
    | error e => rfl
    | ok b' => exact ih

end Run
end Latypus.Lib
