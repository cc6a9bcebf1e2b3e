import Mathlib.Data.List.Basic
import Mathlib.Logic.Basic

/-! Transition systems given by a partial step function, with the states they reach
under a side condition on the steps taken. A run is a list of actions; the invariant
rule and the passage from a concrete run to reachability are all that is needed. -/

namespace Latypus.Lib

structure Machine (σ α : Type*) where
  init : σ → Prop
  step : σ → α → Option σ

namespace Machine
variable {σ α : Type*}

/-- States reached by steps that all meet `ok`, a condition on the state before the step
and the action taken. -/
inductive Reaches (M : Machine σ α) (ok : σ → α → Prop) : σ → Prop
  | start {s : σ} : M.init s → Reaches M ok s
  | next {s s' : σ} {a : α} : Reaches M ok s → ok s a → M.step s a = some s' → Reaches M ok s'

def run (M : Machine σ α) : σ → List α → Option σ
  | s, [] => some s
  | s, a :: as => (M.step s a).bind fun s' => M.run s' as

theorem run_append (M : Machine σ α) (s : σ) (as bs : List α) :
    M.run s (as ++ bs) = (M.run s as).bind fun s' => M.run s' bs := by
  induction as generalizing s with
  | nil => rfl
  | cons a as ih =>
    cases h : M.step s a with
    | none => simp [run, h]
    | some s' => simp [run, h, ih]

theorem Reaches.invariant {M : Machine σ α} {ok : σ → α → Prop} {P : σ → Prop}
    (h0 : ∀ s, M.init s → P s)
    (hstep : ∀ s a s', P s → ok s a → M.step s a = some s' → P s')
    {s : σ} (h : Reaches M ok s) : P s := by
  induction h with
  | start hs => exact h0 _ hs
  | next _ hok hs ih => exact hstep _ _ _ ih hok hs

theorem Reaches.mono {M : Machine σ α} {ok ok' : σ → α → Prop}
    (hle : ∀ s a, ok s a → ok' s a) {s : σ} (h : Reaches M ok s) : Reaches M ok' s := by
  induction h with
  | start hs => exact .start hs
  | next _ hok hs ih => exact .next ih (hle _ _ hok) hs

theorem Reaches.of_run {M : Machine σ α} {ok : σ → α → Prop} {s s' : σ} {as : List α}
    (h : Reaches M ok s) (hok : ∀ a ∈ as, ∀ t, ok t a) (hrun : M.run s as = some s') :
    Reaches M ok s' := by
  induction as generalizing s with
  | nil =>
    obtain rfl : s = s' := by simpa [run] using hrun
    exact h
  | cons a as ih =>
    obtain ⟨t, ht, hrest⟩ := Option.bind_eq_some_iff.mp hrun
    exact ih (.next h (hok a List.mem_cons_self s) ht)
      (fun b hb => hok b (List.mem_cons_of_mem a hb)) hrest

/-- The machine that takes only the steps that meet `ok`. -/
def guard (M : Machine σ α) (ok : σ → α → Prop) [∀ s a, Decidable (ok s a)] : Machine σ α where
  init := M.init
  step s a := if ok s a then M.step s a else none

theorem Reaches.of_guard_run {M : Machine σ α} {ok : σ → α → Prop} [∀ s a, Decidable (ok s a)] {s s' : σ}
    {as : List α} (h : Reaches M ok s) (hrun : (M.guard ok).run s as = some s') : Reaches M ok s' := by
  induction as generalizing s with
  | nil =>
    obtain rfl : s = s' := by simpa [run] using hrun
    exact h
  | cons a as ih =>
    obtain ⟨t, ht, hrest⟩ := Option.bind_eq_some_iff.mp hrun
    simp only [guard] at ht
    split_ifs at ht with hok
    exact ih (.next h hok ht) hrest

/-- The outcome of a guarded run is that of a state that is reached. -/
theorem Reaches.exists_of_guard_run {β : Type*} {M : Machine σ α} {ok : σ → α → Prop} [∀ s a, Decidable (ok s a)]
    {s : σ} {as : List α} {f : σ → β} {v : β} (h : Reaches M ok s) (hend : ((M.guard ok).run s as).map f = some v) :
    ∃ s', Reaches M ok s' ∧ f s' = v := by
  obtain ⟨s', hrun, hv⟩ := Option.map_eq_some_iff.mp hend
  exact ⟨s', h.of_guard_run hrun, hv⟩

end Machine
end Latypus.Lib
