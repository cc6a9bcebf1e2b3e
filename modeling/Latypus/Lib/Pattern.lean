import Mathlib.Data.List.Basic
import Mathlib.Tactic.Common

/-! Regular expressions with actions, as in the generators of state machines. An action stands where
an expression is entered, and is executed on the first symbol of it, or where one is left, and is
executed on the symbol behind it or at the end of the input. A machine follows all readings of the
input at once and executes the actions of each; a reading is the list of what is still to be read. -/

namespace Latypus.Lib

/-- Patterns over classes `κ` of symbols `α`, with actions `A`. -/
inductive Pattern (κ α A : Type) where
  | empty
  | sym (k : κ)
  | seq (r s : Pattern κ α A)
  | alt (r s : Pattern κ α A)
  | star (r : Pattern κ α A)
  | enter (a : A) (r : Pattern κ α A)
  | out (a : A)
  /-- The words of `r` in which no forbidden word occurs; `seen` is what has been read of the word. -/
  | avoid (r : Pattern κ α A) (seen : List α)
deriving DecidableEq

namespace Pattern
variable {κ α A : Type}

def opt (r : Pattern κ α A) : Pattern κ α A := alt r empty

def plus (r : Pattern κ α A) : Pattern κ α A := seq r (star r)

def leave (a : A) (r : Pattern κ α A) : Pattern κ α A := seq r (out a)

/-- The members of a sequence. -/
def flat : Pattern κ α A → List (Pattern κ α A)
  | seq r s => flat r ++ flat s
  | r => [r]

def cat : List (Pattern κ α A) → Pattern κ α A
  | [] => empty
  | [r] => r
  | r :: s :: k => seq r (cat (s :: k))

/-- The actions on the way past a pattern that has no more to read, if it can be left. -/
def leaving : Pattern κ α A → Option (List A)
  | empty | star _ => some []
  | sym _ => none
  | seq r s => (leaving r).bind fun as => (leaving s).map fun bs => as ++ bs
  | alt r s =>
    match leaving r, leaving s with
    | some as, some bs => some (as ++ bs)
    | some as, none => some as
    | none, o => o
  | enter _ r => leaving r
  | out a => some [a]
  | avoid r _ => leaving r

section Read
variable (has : κ → α → Bool) (forbidden : List (List κ))

/-- A word is one of a list of classes. -/
def spells : List κ → List α → Bool
  | [], [] => true
  | k :: ks, a :: w => has k a && spells ks w
  | _, _ => false

/-- A forbidden word stands at the end. -/
def endsForbidden (w : List α) : Bool :=
  forbidden.any fun ks => spells has ks (w.drop (w.length - ks.length))

/-- The ways to read a symbol: the actions executed on it and what is to be read behind it. -/
def deriv (c : α) : Pattern κ α A → List (List A × List (Pattern κ α A))
  | empty | out _ => []
  | sym k => if has k c then [([], [])] else []
  | seq r s =>
    ((deriv c r).map fun (as, k) => (as, k ++ flat s)) ++
      match leaving r with
      | some as => (deriv c s).map fun (bs, k) => (as ++ bs, k)
      | none => []
  | alt r s => deriv c r ++ deriv c s
  | star r => (deriv c r).map fun (as, k) => (as, k ++ [star r])
  | enter a r => (deriv c r).map fun (as, k) => (a :: as, k)
  | avoid r seen =>
    if endsForbidden has forbidden (seen ++ [c]) then []
    else (deriv c r).map fun (as, k) => (as, [avoid (cat k) (seen ++ [c])])

/-- The ways to read a symbol at the front of a list of patterns. -/
def step (c : α) : List (Pattern κ α A) → List (List A × List (Pattern κ α A))
  | [] => []
  | r :: k =>
    ((deriv has forbidden c r).map fun (as, k') => (as, k' ++ k)) ++
      match leaving r with
      | some as => (step c k).map fun (bs, k') => (as ++ bs, k')
      | none => []

/-- The actions at the end of the input, if there is no more to read. -/
def finish : List (Pattern κ α A) → Option (List A)
  | [] => some []
  | r :: k => (leaving r).bind fun as => (finish k).map fun bs => as ++ bs

/-- A symbol read by all readings. -/
def moves (ts : List (List (Pattern κ α A))) (c : α) : List (List A × List (Pattern κ α A)) :=
  ts.flatMap (step has forbidden c)

/-- The readings behind a symbol. -/
def after (ts : List (List (Pattern κ α A))) (c : α) : List (List (Pattern κ α A)) :=
  (moves has forbidden ts c).map Prod.snd

/-- The actions on a symbol. -/
def fired (ts : List (List (Pattern κ α A))) (c : α) : List A :=
  (moves has forbidden ts c).flatMap Prod.fst

end Read

/-- The classes that a pattern can begin with. -/
def firsts : Pattern κ α A → List κ
  | empty | out _ => []
  | sym k => [k]
  | seq r s => firsts r ++ if (leaving r).isSome then firsts s else []
  | alt r s => firsts r ++ firsts s
  | star r | enter _ r | avoid r _ => firsts r

def begins : List (Pattern κ α A) → List κ
  | [] => []
  | r :: k => firsts r ++ if (leaving r).isSome then begins k else []

section Lemmas
variable {has : κ → α → Bool} {forbidden : List (List κ)} {c : α} {k : κ} {seen : List α}
  {t : List (Pattern κ α A)} {ts us : List (List (Pattern κ α A))}

theorem length_eq_of_spells {ks : List κ} {w : List α} (h : spells has ks w) : w.length = ks.length := by
  induction ks generalizing w with
  | nil =>
    cases w with
    | nil => rfl
    | cons a w => simp [spells] at h
  | cons k ks ih =>
    cases w with
    | nil => simp [spells] at h
    | cons a w =>
      rw [spells, Bool.and_eq_true] at h
      rw [List.length_cons, ih h.2, List.length_cons]

theorem deriv_eq_nil {r : Pattern κ α A} (h : ∀ k ∈ firsts r, has k c = false) :
    deriv has forbidden c r = [] := by
  induction r with
  | empty => rfl
  | out a => rfl
  | sym k => simp [deriv, h k (by simp [firsts])]
  | seq r s ihr ihs =>
    have hr := ihr fun k hk => h k (by simp [firsts, hk])
    cases hleaving : leaving r with
    | none => simp [deriv, hr, hleaving]
    | some as =>
      have hs := ihs fun k hk => h k (by simp [firsts, hleaving, hk])
      simp [deriv, hr, hleaving, hs]
  | alt r s ihr ihs =>
    have hr := ihr fun k hk => h k (by simp [firsts, hk])
    have hs := ihs fun k hk => h k (by simp [firsts, hk])
    simp [deriv, hr, hs]
  | star r ih => simp [deriv, ih h]
  | enter a r ih => simp [deriv, ih h]
  | avoid r seen ih => simp [deriv, ih h]

theorem step_eq_nil (h : ∀ k ∈ begins t, has k c = false) : step has forbidden c t = [] := by
  induction t with
  | nil => rfl
  | cons r t ih =>
    have hr : deriv has forbidden c r = [] := deriv_eq_nil fun k hk => h k (by simp [begins, hk])
    cases hleaving : leaving r with
    | none => simp [step, hr, hleaving]
    | some as =>
      have ht := ih fun k hk => h k (by simp [begins, hleaving, hk])
      simp [step, hr, hleaving, ht]

theorem moves_append : moves has forbidden (ts ++ us) c =
    moves has forbidden ts c ++ moves has forbidden us c := by
  simp [moves]

/-- One more symbol of a repeated class. -/
theorem step_star (h : has k c = true) :
    step has forbidden c (star (sym k) :: t) = ([], star (sym k) :: t) :: step has forbidden c t := by
  simp [step, deriv, leaving, h]

theorem step_star_of_not (h : has k c = false) :
    step has forbidden c (star (sym k) :: t) = step has forbidden c t := by
  simp [step, deriv, leaving, h]

/-- One more symbol of a word without forbidden words. -/
theorem step_avoid (h : has k c = true) :
    step has forbidden c (avoid (star (sym k)) seen :: t) =
      (if endsForbidden has forbidden (seen ++ [c]) then []
        else [([], avoid (star (sym k)) (seen ++ [c]) :: t)]) ++ step has forbidden c t := by
  simp only [step, deriv, leaving, h]
  split <;> simp [cat]

theorem step_avoid_of_not (h : has k c = false) :
    step has forbidden c (avoid (star (sym k)) seen :: t) = step has forbidden c t := by
  simp [step, deriv, leaving, h]

end Lemmas

end Pattern
end Latypus.Lib
