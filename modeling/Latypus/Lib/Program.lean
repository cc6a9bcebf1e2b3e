import Mathlib.Logic.Basic

/-! Programs that issue operations and go on with the answers of their environment, and a logic
of positions for them. A discipline says at which position an operation may be issued and where
each answer leads; a triple says that a program keeps to the discipline from a position on, and
what is true of the position where it ends. -/

namespace Latypus.Lib

/-- A program that issues operations `o` and continues with an answer in `A o`. -/
inductive Program {O : Type} (A : O → Type) (α : Type) : Type
  | pure (a : α) : Program A α
  | op (o : O) (k : A o → Program A α) : Program A α

namespace Program
variable {O : Type} {A : O → Type} {α β : Type}

def bind : Program A α → (α → Program A β) → Program A β
  | .pure a, f => f a
  | .op o k, f => .op o fun a => (k a).bind f

instance : Monad (Program A) where
  pure := .pure
  bind := .bind

/-- The program that issues one operation and returns its answer. -/
def perform (o : O) : Program A (A o) := .op o .pure

/-- The rest of a program after the answer `a` to the operation `o` it stands at. -/
def resume [DecidableEq O] : Program A α → (o : O) → A o → Option (Program A α)
  | .pure _, _, _ => none
  | .op o k, o', a => if h : o' = o then some (k (h ▸ a)) else none

theorem resume_eq_some [DecidableEq O] {p q : Program A α} {o : O} {a : A o} :
    p.resume o a = some q ↔ ∃ k, p = .op o k ∧ q = k a := by
  cases p with
  | pure x => simp [resume]
  | op o' k =>
    by_cases h : o = o'
    · subst h
      simp [resume, eq_comm]
    · simp only [resume, h, dite_false, reduceCtorEq, false_iff, not_exists, not_and]
      rintro k' heq -
      cases heq
      exact h rfl

end Program

/-- Where an operation may be issued, and the positions to which an answer may lead. An answer
that leads nowhere is one the program need not be prepared for. -/
structure Discipline {O : Type} (A : O → Type) (Pos : Type) where
  allowed : Pos → O → Prop
  next : Pos → (o : O) → A o → Pos → Prop

namespace Discipline
variable {O : Type} {A : O → Type} {Pos α β : Type}

/-- From the position, the program keeps to the discipline and ends as the postcondition says. -/
def Triple (D : Discipline A Pos) (Q : α → Pos → Prop) : Program A α → Pos → Prop
  | .pure a, P => Q a P
  | .op o k, P => D.allowed P o ∧ ∀ a P', D.next P o a P' → Triple D Q (k a) P'

variable {D : Discipline A Pos} {Q : α → Pos → Prop} {P : Pos}

theorem triple_bind {R : β → Pos → Prop} {f : α → Program A β} {p : Program A α}
    (hp : D.Triple Q p P) (hf : ∀ a P', Q a P' → D.Triple R (f a) P') :
    D.Triple R (p >>= f) P := by
  induction p generalizing P with
  | pure a => exact hf a P hp
  | op o k ih => exact ⟨hp.1, fun a P' hnext => ih a (hp.2 a P' hnext)⟩

theorem triple_perform {o : O} {f : A o → Program A α} (ho : D.allowed P o)
    (hf : ∀ a P', D.next P o a P' → D.Triple Q (f a) P') :
    D.Triple Q (Program.perform o >>= f) P := ⟨ho, hf⟩

theorem Triple.resume [DecidableEq O] {p q : Program A α} {o : O} {a : A o}
    (h : D.Triple Q p P) (hq : p.resume o a = some q) :
    D.allowed P o ∧ ∀ P', D.next P o a P' → D.Triple Q q P' := by
  obtain ⟨k, rfl, rfl⟩ := Program.resume_eq_some.mp hq
  exact ⟨h.1, h.2 a⟩

end Discipline
end Latypus.Lib
