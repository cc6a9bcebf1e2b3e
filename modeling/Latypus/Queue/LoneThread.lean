import Latypus.Queue.Sequential
import Mathlib.Logic.Relation

/-! What a call of `push_back` or `pop_front` does as a whole is what the steps of its thread do
when no other thread moves in between. -/

namespace Latypus.Queue
open Lib Relation

variable {T : Type}

def QueueState.words (s : QueueState T) : Words T :=
  ⟨s.vec, s.counterBack, s.versionBack, s.counterFront, s.versionFront⟩

/-- A step of thread `t`. -/
def ThreadStep (P : Params) (null : T) (t : Nat) (s s' : QueueState T) : Prop :=
  ∃ spurious, (machine P null).step s (.step t spurious) = some s'

/-- Thread `t` with `spins` passes of the push loop left. -/
def pushAt (elem : T) (front spins : Nat) : Pc T :=
  if 0 < spins then .pushCounter elem front (spinLimit - spins) else .idle

def popAt (back spins : Nat) : Pc T :=
  if 0 < spins then .popCounter back (spinLimit - spins) else .idle

section Steps
variable {P : Params} {null : T} {t spins : Nat} {s s' : QueueState T} {pc : Pc T}

theorem pushRetry_eq {elem : T} {front : Nat} (hspins : spins + 1 ≤ spinLimit) :
    pushRetry elem front (spinLimit - (spins + 1)) = pushAt elem front spins := by
  unfold pushRetry pushAt
  rw [show spinLimit - (spins + 1) + 1 = spinLimit - spins by omega]
  exact if_congr (by omega) rfl rfl

theorem popRetry_eq {back : Nat} (hspins : spins + 1 ≤ spinLimit) :
    popRetry (T := T) back (spinLimit - (spins + 1)) = popAt back spins := by
  unfold popRetry popAt
  rw [show spinLimit - (spins + 1) + 1 = spinLimit - spins by omega]
  exact if_congr (by omega) rfl rfl

theorem ThreadStep.of_pc (spurious : Bool) (hlen : t < s.threads.length)
    (h : stepThread P (s.set t pc) t spurious pc = some s') : ThreadStep P null t (s.set t pc) s' := by
  have hget : (s.set t pc).threads[t]? = some pc := List.getElem?_set_self hlen
  refine ⟨spurious, ?_⟩
  simp only [machine, hget, Option.bind_some, h]

theorem set_set (pc' : Pc T) : (s.set t pc).set t pc' = s.set t pc' :=
  congrArg (fun threads => { s with threads := threads }) (List.set_set ..)

theorem set_idle (h : s.threads[t]? = some .idle) : s.threads.set t .idle = s.threads := by
  obtain ⟨hlen, hget⟩ := List.getElem?_eq_some_iff.mp h
  rw [← hget, List.set_getElem_self]

/-- A step that only moves thread `t`. -/
theorem ThreadStep.set {pc' : Pc T} (spurious : Bool) (hlen : t < s.threads.length)
    (h : stepThread P (s.set t pc) t spurious pc = some ((s.set t pc).set t pc')) :
    ThreadStep P null t (s.set t pc) (s.set t pc') := by
  rw [set_set] at h
  exact .of_pc spurious hlen h

section Push
variable {elem : T} {front fails back : Nat} {b : Bool} {w : Words T}

variable (null) in
theorem step_pushCounter (hlen : t < s.threads.length) :
    ThreadStep P null t (s.set t (pushAt elem front (spins + 1)))
      (s.set t (.pushVersion elem front (spinLimit - (spins + 1)) s.counterBack)) :=
  .set false hlen rfl

/-- A pass that does not come to its exchange, or whose exchange fails. -/
theorem step_pushRetry (spurious : Bool) (hlen : t < s.threads.length) (hspins : spins + 1 ≤ spinLimit)
    (h : stepThread P (s.set t pc) t spurious pc =
      some ((s.set t pc).set t (pushRetry elem front (spinLimit - (spins + 1))))) :
    ThreadStep P null t (s.set t pc) (s.set t (pushAt elem front spins)) := by
  rw [pushRetry_eq hspins] at h
  exact .set spurious hlen h

variable (elem front) in
theorem stepThread_pushVersion (s : QueueState T) (spin : Nat) :
    stepThread P (s.set t (.pushVersion elem front spin s.counterBack)) t false (.pushVersion elem front spin s.counterBack) =
      match P.unpackOffsets s.counterBack s.versionBack with
      | some back =>
        if front = back then some ((s.set t (.pushVersion elem front spin s.counterBack)).set t .idle)
        else some ((s.set t (.pushVersion elem front spin s.counterBack)).set t
          (.pushExchange elem front spin s.counterBack back))
      | none => some ((s.set t (.pushVersion elem front spin s.counterBack)).set t (pushRetry elem front spin)) :=
  rfl

/-- The exchange that succeeds, the store and the word that ends the critical section. -/
theorem steps_pushEnter {vec : List T} {spin : Nat} (hlen : t < s.threads.length)
    (hstore : store s.vec (P.position back) [elem] = some vec) :
    ReflTransGen (ThreadStep P null t) (s.set t (.pushExchange elem front spin s.counterBack back))
      { s.set t .idle with
        vec, counterBack := P.nextVersion s.counterBack, versionBack := P.nextPack s.counterBack back,
        pushed := s.pushed ++ [elem] } := by
  let s₁ : QueueState T := { s with counterBack := P.nextVersion s.counterBack }
  let s₂ : QueueState T := { s₁ with vec }
  have hexchange : ThreadStep P null t (s.set t (.pushExchange elem front spin s.counterBack back))
      (s₁.set t (.pushStore elem s.counterBack back)) := by
    refine .of_pc false hlen ?_
    rw [stepThread, if_pos ⟨rfl, rfl⟩, set_set]
    rfl
  have hcell : ThreadStep P null t (s₁.set t (.pushStore elem s.counterBack back))
      (s₂.set t (.pushPublish elem s.counterBack back)) := by
    refine .of_pc (s := s₁) false hlen ?_
    rw [stepThread]
    change (store s.vec _ _).map _ = _
    rw [hstore, set_set]
    rfl
  refine .head hexchange (.head hcell (.single ?_))
  refine .of_pc (s := s₂) false hlen ?_
  rw [stepThread, set_set]
  rfl

variable (null) in
/-- The passes of the push loop that are left, one step for each access. -/
theorem steps_pushLoop (hlen : t < s.threads.length) (hspins : spins ≤ spinLimit)
    (h : s.words.pushLoop P elem front spins fails = some (b, w)) :
    ∃ s', ReflTransGen (ThreadStep P null t) (s.set t (pushAt elem front spins)) s' ∧
      s'.words = w ∧ s'.threads = s.threads.set t .idle ∧
      s'.pushed = if b then s.pushed ++ [elem] else s.pushed := by
  induction spins generalizing fails with
  | zero =>
    cases h
    exact ⟨s.set t .idle, .refl, rfl, rfl, rfl⟩
  | succ spins ih =>
    have hversion := stepThread_pushVersion (P := P) (t := t) elem front s (spinLimit - (spins + 1))
    rw [Words.pushLoop] at h
    dsimp only [QueueState.words] at h
    cases hback : P.unpackOffsets s.counterBack s.versionBack with
    | none =>
      rw [hback] at h hversion
      obtain ⟨s', hsteps, hs'⟩ := ih (by omega) h
      exact ⟨s', .head (step_pushCounter null hlen) (.head (step_pushRetry false hlen hspins hversion) hsteps), hs'⟩
    | some back =>
      rw [hback] at h hversion
      dsimp only at h hversion
      by_cases hfull : front = back
      · rw [if_pos hfull] at h hversion
        cases h
        exact ⟨s.set t .idle, .head (step_pushCounter null hlen) (.single (.set false hlen hversion)), rfl, rfl, rfl⟩
      rw [if_neg hfull] at h hversion
      have hread := ReflTransGen.head (step_pushCounter null hlen) (.single (.set false hlen hversion))
      by_cases hfails : fails = 0
      · rw [if_pos hfails] at h
        obtain ⟨vec, hstore, heq⟩ := Option.map_eq_some_iff.mp h
        cases heq
        exact ⟨_, hread.trans (steps_pushEnter hlen hstore), rfl, rfl, rfl⟩
      · rw [if_neg hfails] at h
        obtain ⟨s', hsteps, hs'⟩ := ih (by omega) h
        have hretry : ThreadStep P null t
            (s.set t (.pushExchange elem front (spinLimit - (spins + 1)) s.counterBack back))
            (s.set t (pushAt elem front spins)) := by
          apply step_pushRetry true hlen hspins
          rw [stepThread, if_neg (by simp)]
        exact ⟨s', hread.trans (.head hretry hsteps), hs'⟩

/-- A push as a whole is a run of its thread. -/
theorem steps_pushBack (hidle : s.threads[t]? = some .idle) (h : s.words.pushBack P elem fails = some (b, w)) :
    ∃ s₁ s', (machine P null).step s (.callPush t elem) = some s₁ ∧ ReflTransGen (ThreadStep P null t) s₁ s' ∧
      s'.words = w ∧ s'.threads = s.threads ∧ s'.pushed = if b then s.pushed ++ [elem] else s.pushed := by
  have hlen : t < s.threads.length := (List.getElem?_eq_some_iff.mp hidle).1
  let s₀ : QueueState T := { s with calls := s.calls + 1 }
  obtain ⟨s', hsteps, hwords, hthreads, hpushed⟩ := steps_pushLoop null (s := s₀) hlen le_rfl h
  have hfront : ThreadStep P null t (s₀.set t (.pushFront elem))
      (s₀.set t (pushAt elem (P.offsetOf s.versionFront) spinLimit)) := .set false hlen rfl
  refine ⟨s₀.set t (.pushFront elem), s', ?_, .head hfront hsteps, hwords, ?_, hpushed⟩
  · simp only [machine, hidle]
    rfl
  · exact hthreads.trans (set_idle hidle)

end Push

section Pop
variable {front back fails : Nat} {val : T} {w : Words T}

variable (null) in
theorem step_popCounter (hlen : t < s.threads.length) :
    ThreadStep P null t (s.set t (popAt back (spins + 1)))
      (s.set t (.popVersion back (spinLimit - (spins + 1)) s.counterFront)) :=
  .set false hlen rfl

theorem step_popRetry (spurious : Bool) (hlen : t < s.threads.length) (hspins : spins + 1 ≤ spinLimit)
    (h : stepThread P (s.set t pc) t spurious pc =
      some ((s.set t pc).set t (popRetry back (spinLimit - (spins + 1))))) :
    ThreadStep P null t (s.set t pc) (s.set t (popAt back spins)) := by
  rw [popRetry_eq hspins] at h
  exact .set spurious hlen h

variable (back) in
theorem stepThread_popVersion (s : QueueState T) (spin : Nat) :
    stepThread P (s.set t (.popVersion back spin s.counterFront)) t false (.popVersion back spin s.counterFront) =
      match P.unpackOffsets s.counterFront s.versionFront with
      | some front =>
        if P.sub front back = P.sizeLimit then some ((s.set t (.popVersion back spin s.counterFront)).set t .idle)
        else some ((s.set t (.popVersion back spin s.counterFront)).set t
          (.popExchange back spin s.counterFront front))
      | none => some ((s.set t (.popVersion back spin s.counterFront)).set t (popRetry back spin)) :=
  rfl

/-- The exchange that succeeds, the load and the word that ends the critical section. -/
theorem steps_popEnter {spin : Nat} (hlen : t < s.threads.length) (hcell : s.vec[P.position front]? = some val) :
    ReflTransGen (ThreadStep P null t) (s.set t (.popExchange back spin s.counterFront front))
      { s.set t .idle with
        counterFront := P.nextVersion s.counterFront, versionFront := P.nextPack s.counterFront front,
        popped := s.popped ++ [val] } := by
  let s₁ : QueueState T := { s with counterFront := P.nextVersion s.counterFront }
  have hexchange : ThreadStep P null t (s.set t (.popExchange back spin s.counterFront front))
      (s₁.set t (.popLoad s.counterFront front)) := by
    refine .of_pc false hlen ?_
    rw [stepThread, if_pos ⟨rfl, rfl⟩, set_set]
    rfl
  have hload : ThreadStep P null t (s₁.set t (.popLoad s.counterFront front))
      (s₁.set t (.popPublish s.counterFront front val)) := by
    refine .of_pc (s := s₁) false hlen ?_
    rw [stepThread]
    change (s.vec[_]?).map _ = _
    rw [hcell]
    exact congrArg some (set_set _)
  refine .head hexchange (.head hload (.single ?_))
  refine .of_pc (s := s₁) false hlen ?_
  rw [stepThread, set_set]
  rfl

variable (null) in
/-- The passes of the pop loop that are left. A pop that gives up leaves what was taken out. -/
theorem steps_popLoop (hlen : t < s.threads.length) (hspins : spins ≤ spinLimit)
    (h : s.words.popLoop P null back spins fails = some (val, w)) :
    ∃ s', ReflTransGen (ThreadStep P null t) (s.set t (popAt back spins)) s' ∧
      s'.words = w ∧ s'.threads = s.threads.set t .idle ∧
      (s'.popped = s.popped ++ [val] ∨ val = null ∧ s'.popped = s.popped) := by
  induction spins generalizing fails with
  | zero =>
    cases h
    exact ⟨s.set t .idle, .refl, rfl, rfl, .inr ⟨rfl, rfl⟩⟩
  | succ spins ih =>
    have hversion := stepThread_popVersion (P := P) (t := t) back s (spinLimit - (spins + 1))
    rw [Words.popLoop] at h
    dsimp only [QueueState.words] at h
    cases hfront : P.unpackOffsets s.counterFront s.versionFront with
    | none =>
      rw [hfront] at h hversion
      obtain ⟨s', hsteps, hs'⟩ := ih (by omega) h
      exact ⟨s', .head (step_popCounter null hlen) (.head (step_popRetry false hlen hspins hversion) hsteps), hs'⟩
    | some front =>
      rw [hfront] at h hversion
      dsimp only at h hversion
      by_cases hempty : P.sub front back = P.sizeLimit
      · rw [if_pos hempty] at h hversion
        cases h
        exact ⟨s.set t .idle, .head (step_popCounter null hlen) (.single (.set false hlen hversion)), rfl, rfl,
          .inr ⟨rfl, rfl⟩⟩
      rw [if_neg hempty] at h hversion
      have hread := ReflTransGen.head (step_popCounter null hlen) (.single (.set false hlen hversion))
      by_cases hfails : fails = 0
      · rw [if_pos hfails] at h
        obtain ⟨val, hcell, heq⟩ := Option.map_eq_some_iff.mp h
        cases heq
        exact ⟨_, hread.trans (steps_popEnter hlen hcell), rfl, rfl, .inl rfl⟩
      · rw [if_neg hfails] at h
        obtain ⟨s', hsteps, hs'⟩ := ih (by omega) h
        have hretry : ThreadStep P null t
            (s.set t (.popExchange back (spinLimit - (spins + 1)) s.counterFront front))
            (s.set t (popAt back spins)) := by
          apply step_popRetry true hlen hspins
          rw [stepThread, if_neg (by simp)]
        exact ⟨s', hread.trans (.head hretry hsteps), hs'⟩

/-- A pop as a whole is a run of its thread. -/
theorem steps_popFront (hidle : s.threads[t]? = some .idle) (h : s.words.popFront P null fails = some (val, w)) :
    ∃ s₁ s', (machine P null).step s (.callPop t) = some s₁ ∧ ReflTransGen (ThreadStep P null t) s₁ s' ∧
      s'.words = w ∧ s'.threads = s.threads ∧
      (s'.popped = s.popped ++ [val] ∨ val = null ∧ s'.popped = s.popped) := by
  have hlen : t < s.threads.length := (List.getElem?_eq_some_iff.mp hidle).1
  let s₀ : QueueState T := { s with calls := s.calls + 1 }
  obtain ⟨s', hsteps, hwords, hthreads, hpopped⟩ := steps_popLoop null (s := s₀) hlen le_rfl h
  have hback : ThreadStep P null t (s₀.set t .popBack)
      (s₀.set t (popAt (P.offsetOf s.versionBack) spinLimit)) := .set false hlen rfl
  refine ⟨s₀.set t .popBack, s', ?_, .head hback hsteps, hwords, ?_, hpopped⟩
  · simp only [machine, hidle]
    rfl
  · exact hthreads.trans (set_idle hidle)

end Pop
end Steps
end Latypus.Queue
