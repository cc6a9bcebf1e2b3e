import Latypus.Log.LogThread

/-! The wait for a log buffer, without spurious wake-ups: a client that waits on `writer_cond` goes
on only when `notify_all` has taken it out of the wait. The writer clears `writer_waiting` and
notifies outside `log_mutex`, so it may do both between a client's store of the flag and its wait;
that client then waits with the flag cleared. -/

namespace Latypus.Log
open Lib Http

/-- The logger with the clients that `notify_all` has taken out of their wait on `writer_cond`. -/
structure WaitState where
  log : LogState
  notified : List Nat
deriving DecidableEq, Repr

namespace WaitState

/-- The client waits on `writer_cond` and nobody has notified it. -/
def Blocked (s : WaitState) (i : Nat) : Prop :=
  (∃ call, s.log.clients[i]? = some (.waiting call)) ∧ i ∉ s.notified

/-- The clients that wait on `writer_cond`. -/
def waiters (s : WaitState) : List Nat :=
  (List.range s.log.clients.length).filter fun i =>
    match s.log.clients[i]? with
    | some (.waiting _) => true
    | _ => false

/-- A client that is blocked makes no step, and one that leaves its wait can be blocked again. -/
def clientStep (M : Machine LogState LogAct) (s : WaitState) (i : Nat) : Option WaitState :=
  match s.log.clients[i]? with
  | some (.waiting _) =>
    if i ∈ s.notified then (M.step s.log (.client i)).map fun log => ⟨log, s.notified.erase i⟩ else none
  | _ => (M.step s.log (.client i)).map fun log => ⟨log, s.notified⟩

/-- `notify_all` takes every client that waits out of its wait. -/
def writerStep (M : Machine LogState LogAct) (s : WaitState) (count : Nat) : Option WaitState :=
  (M.step s.log (.writer count)).map fun log =>
    ⟨log, if s.log.writer = .notifyAll then s.waiters else s.notified⟩

end WaitState

/-- The logger in which waits end by notifications only; the wait of the writer has a time limit
and may still end at any time. -/
def waitMachine (numBuffers numClients : Nat) : Machine WaitState LogAct where
  init s := s = ⟨logStart numClients, []⟩
  step s
    | .client i => s.clientStep (logMachine numBuffers numClients) i
    | .writer count => s.writerStep (logMachine numBuffers numClients) count
    | a => ((logMachine numBuffers numClients).step s.log a).map fun log => ⟨log, s.notified⟩

/-- The writer notifies after it has cleared the flag that a client has stored without waiting yet. -/
def OvertakesStore (s : WaitState) : LogAct → Prop
  | .writer _ =>
    s.log.writer = .notifyAll ∧ s.log.writerWaiting = false ∧
      ∃ (i : Nat) (call : LogCall), s.log.clients[i]? = some (.stored call)
  | _ => False

section Steps
variable {numBuffers numClients i : Nat} {s s' : WaitState} {log log' : LogState} {pc pc' : ClientPc}

/-- What a step of a client does to the flag, and which step puts it to sleep. -/
theorem clientStep_flag (h : clientStep numBuffers log pc = some (log', pc')) :
    log'.clients = log.clients ∧ log'.writer = log.writer ∧
      (log.writerWaiting = true → log'.writerWaiting = true) ∧
      (∀ call, pc' = .stored call → log'.writerWaiting = true) ∧
      ∀ call, pc' = .waiting call → pc = .stored call := by
  cases pc with
  | idle => cases h
  | retry call =>
    simp only [clientStep] at h
    split at h <;> cases h <;> simp
  | stall call | waiting call =>
    simp only [clientStep] at h
    split at h <;> cases h
    simp
  | locked call | stored call | woken call | copy call buffer | notify call =>
    cases h
    simp
  | push call buffer =>
    simp only [clientStep] at h
    split at h <;> cases h <;> simp

theorem writeLogsStep_flag (n : Nat) (log : LogState) (count : Nat) (pc : WriteLogs) :
    (writeLogsStep n log count pc).1.clients = log.clients ∧
      (writeLogsStep n log count pc).1.writer = log.writer ∧
      (writeLogsStep n log count pc).1.writerWaiting = log.writerWaiting := by
  unfold writeLogsStep
  split
  · split <;> simp
  · simp
  · split <;> simp
  · simp

/-- The writer clears the flag by its exchange only, and then it is about to notify. -/
theorem writerStep_flag {count : Nat} (h : writerStep numBuffers log count = some log') :
    log'.clients = log.clients ∧
      (log'.writer = .notifyAll ∨ log'.writerWaiting = log.writerWaiting) := by
  cases hpc : log.writer with
  | logs pc =>
    have hflag := writeLogsStep_flag numBuffers log count pc
    simp only [writerStep, hpc] at h
    split at h <;> rename_i heq <;> rw [heq] at hflag <;> cases h <;> exact ⟨hflag.1, .inr hflag.2.2⟩
  | lock | waiting | exchange =>
    simp only [writerStep, hpc] at h
    split at h <;> cases h <;> simp
  | done => simp [writerStep, hpc] at h
  | test | locked | unlock | notifyAll =>
    simp only [writerStep, hpc] at h
    cases h
    simp

theorem ownerStep_flag {count : Nat} (h : ownerStep numBuffers log count = some log') :
    log'.clients = log.clients ∧ log'.writer = log.writer ∧ log'.writerWaiting = log.writerWaiting := by
  cases hpc : log.owner with
  | drain pc =>
    have hflag := writeLogsStep_flag numBuffers log count pc
    simp only [ownerStep, hpc] at h
    split at h <;> rename_i heq <;> rw [heq] at hflag <;> cases h <;> exact hflag
  | create i | createPush i buffer | exchange destroying | join destroying =>
    simp only [ownerStep, hpc] at h
    split at h <;> cases h <;> simp
  | delete i =>
    simp only [ownerStep, hpc] at h
    split at h
    · split at h <;> cases h <;> simp
    · cases h
      simp
  | notify destroying | close =>
    simp only [ownerStep, hpc] at h
    cases h
    simp
  | ready | destroyed => simp [ownerStep, hpc] at h

/-! ### What keeps a client from being forgotten -/

/-- A wake-up is pending: the flag is set, or the writer is about to notify. -/
def WakeUp (log : LogState) : Prop := log.writerWaiting = true ∨ log.writer = .notifyAll

/-- There is a wake-up for every client that is blocked and for every one that is about to be. -/
structure Pending (s : WaitState) : Prop where
  blocked : ∀ i, s.Blocked i → WakeUp s.log
  stored : ∀ (i : Nat) call, s.log.clients[i]? = some (.stored call) → WakeUp s.log

theorem WakeUp.congr (h : WakeUp log) (hwriter : log'.writer = log.writer)
    (hflag : log.writerWaiting = true → log'.writerWaiting = true) : WakeUp log' :=
  h.imp hflag fun h => hwriter.trans h

/-- A step that moves no client and keeps the flag and the writer. -/
theorem Pending.congr {notified : List Nat} (h : Pending s) (hnotified : s.notified ⊆ notified)
    (hclients : log'.clients = s.log.clients) (hwakeUp : WakeUp s.log → WakeUp log') : Pending ⟨log', notified⟩ := by
  refine ⟨fun i => ?_, fun i call hi => ?_⟩
  · rintro ⟨⟨call, hi⟩, hnot⟩
    change log'.clients[i]? = _ at hi
    rw [hclients] at hi
    exact hwakeUp (h.blocked i ⟨⟨call, hi⟩, fun hmem => hnot (hnotified hmem)⟩)
  · change log'.clients[i]? = _ at hi
    rw [hclients] at hi
    exact hwakeUp (h.stored i call hi)

/-- A step that moves client `i`: it is stored by a step that sets the flag, and it waits by a step
from there. -/
theorem Pending.move {notified : List Nat} (h : Pending s) (hi : s.log.clients[i]? = some pc)
    (hclients : log'.clients = s.log.clients.set i pc') (hwakeUp : WakeUp s.log → WakeUp log')
    (hstored : ∀ call, pc' = .stored call → WakeUp log') (hwaiting : ∀ call, pc' = .waiting call → pc = .stored call)
    (hnotified : ∀ j, j ≠ i → j ∈ s.notified → j ∈ notified) : Pending ⟨log', notified⟩ := by
  have hlen : i < s.log.clients.length := (List.getElem?_eq_some_iff.mp hi).1
  refine ⟨fun j => ?_, fun j call hj => ?_⟩
  · rintro ⟨⟨call, hj⟩, hnot⟩
    change log'.clients[j]? = _ at hj
    rw [hclients] at hj
    by_cases hij : i = j
    · subst hij
      rw [List.getElem?_set_self hlen] at hj
      have hpc := hwaiting call (Option.some.inj hj)
      exact hwakeUp (h.stored i call (hpc ▸ hi))
    · rw [List.getElem?_set_ne hij] at hj
      exact hwakeUp (h.blocked j ⟨⟨call, hj⟩, fun hmem => hnot (hnotified j (Ne.symm hij) hmem)⟩)
  · change log'.clients[j]? = _ at hj
    rw [hclients] at hj
    by_cases hij : i = j
    · subst hij
      rw [List.getElem?_set_self hlen] at hj
      exact hstored call (Option.some.inj hj)
    · rw [List.getElem?_set_ne hij] at hj
      exact hwakeUp (h.stored j call hj)

/-- A step of a client, whatever becomes of its own notification. -/
theorem Pending.client {notified : List Nat} (h : Pending s)
    (hstep : (logMachine numBuffers numClients).step s.log (.client i) = some log')
    (hnotified : ∀ j, j ≠ i → j ∈ s.notified → j ∈ notified) : Pending ⟨log', notified⟩ := by
  simp only [logMachine] at hstep
  split at hstep
  · cases hstep
  split at hstep
  · cases hstep
  rename_i pc hi
  split at hstep
  · cases hstep
  rename_i log₁ pc' hclient
  cases hstep
  obtain ⟨hclients, hwriter, hflag, hstored, hwaiting⟩ := clientStep_flag hclient
  exact h.move hi (congrArg (List.set · i pc') hclients) (fun hw => hw.congr hwriter hflag)
    (fun call hcall => .inl (hstored call hcall)) hwaiting hnotified

theorem mem_waiters {s : WaitState} {i : Nat} {call : LogCall} (h : s.log.clients[i]? = some (.waiting call)) :
    i ∈ s.waiters := by
  unfold WaitState.waiters
  rw [List.mem_filter, List.mem_range]
  exact ⟨(List.getElem?_eq_some_iff.mp h).1, by rw [h]⟩

/-- After `notify_all` nobody is blocked. -/
theorem not_blocked_of_notifyAll {count : Nat} (hwriter : s.log.writer = .notifyAll)
    (hstep : (waitMachine numBuffers numClients).step s (.writer count) = some s') (i : Nat) : ¬ s'.Blocked i := by
  obtain ⟨log', hlog, rfl⟩ := Option.map_eq_some_iff.mp hstep
  rintro ⟨⟨call, hi⟩, hnot⟩
  change log'.clients[i]? = _ at hi
  rw [(writerStep_flag hlog).1] at hi
  change i ∉ if s.log.writer = .notifyAll then s.waiters else s.notified at hnot
  rw [if_pos hwriter] at hnot
  exact hnot (mem_waiters hi)

theorem Pending.step {a : LogAct} (h : Pending s) (hok : ¬ OvertakesStore s a)
    (hstep : (waitMachine numBuffers numClients).step s a = some s') : Pending s' := by
  cases a with
  | call i currentTime message =>
    obtain ⟨log', hlog, rfl⟩ := Option.map_eq_some_iff.mp hstep
    simp only [logMachine] at hlog
    split_ifs at hlog with howner hidle
    obtain rfl := Option.some.inj hlog
    exact h.move hidle rfl id nofun nofun fun _ _ => id
  | client i =>
    change s.clientStep _ i = _ at hstep
    unfold WaitState.clientStep at hstep
    split at hstep
    · split_ifs at hstep
      obtain ⟨log', hlog, rfl⟩ := Option.map_eq_some_iff.mp hstep
      exact h.client hlog fun j hj hmem => (List.mem_erase_of_ne hj).mpr hmem
    · obtain ⟨log', hlog, rfl⟩ := Option.map_eq_some_iff.mp hstep
      exact h.client hlog fun _ _ => id
  | writer count =>
    obtain ⟨log', hlog, rfl⟩ := Option.map_eq_some_iff.mp hstep
    obtain ⟨hclients, hflag⟩ := writerStep_flag hlog
    by_cases hwriter : s.log.writer = .notifyAll
    · refine ⟨fun i hi => absurd hi (not_blocked_of_notifyAll hwriter hstep i), fun i call hi => .inl ?_⟩
      change log'.clients[i]? = _ at hi
      rw [hclients] at hi
      obtain rfl : { s.log with writer := .test } = log' := by
        simpa [logMachine, writerStep, hwriter] using hlog
      show s.log.writerWaiting = true
      by_contra hflag
      exact hok ⟨hwriter, by simpa using hflag, i, call, hi⟩
    · rw [if_neg hwriter]
      refine h.congr (List.Subset.refl _) hclients fun hw => ?_
      rcases hflag with hnotify | hflag
      · exact .inr hnotify
      · exact .inl (hflag.trans (hw.resolve_right hwriter))
  | owner count =>
    obtain ⟨log', hlog, rfl⟩ := Option.map_eq_some_iff.mp hstep
    obtain ⟨hclients, hwriter, hflag⟩ := ownerStep_flag hlog
    exact h.congr (List.Subset.refl _) hclients fun hw => hw.congr hwriter hflag.trans
  | shutdown | destroy =>
    obtain ⟨log', hlog, rfl⟩ := Option.map_eq_some_iff.mp hstep
    simp only [logMachine] at hlog
    split_ifs at hlog
    obtain rfl := Option.some.inj hlog
    exact h.congr (List.Subset.refl _) rfl id

theorem pending_start : Pending ⟨logStart numClients, []⟩ := by
  have hidle (i : Nat) (pc : ClientPc) (h : (logStart numClients).clients[i]? = some pc) : pc = .idle :=
    List.eq_of_mem_replicate (List.mem_of_getElem? h)
  refine ⟨fun i => ?_, fun i call hi => ?_⟩
  · rintro ⟨⟨call, hi⟩, -⟩
    cases hidle i _ hi
  · cases hidle i _ hi

end Steps

/-- As long as the writer does not notify past a client that has stored the flag and does not wait
yet, a client that is blocked has its wake-up: the flag is set unless the writer is about to notify,
so the writer's next exchange succeeds, and the `notify_all` behind it leaves nobody blocked. -/
theorem blocked_has_wakeUp {numBuffers numClients : Nat} {s : WaitState}
    (h : (waitMachine numBuffers numClients).Reaches (fun s a => ¬ OvertakesStore s a) s) :
    (∀ i, s.Blocked i → s.log.writer ≠ .notifyAll → s.log.writerWaiting = true) ∧
    (∀ i count, s.Blocked i → s.log.writer = .exchange →
      ∃ s', (waitMachine numBuffers numClients).step s (.writer count) = some s' ∧ s'.log.writer = .notifyAll) ∧
    ∀ count s', s.log.writer = .notifyAll → (waitMachine numBuffers numClients).step s (.writer count) = some s' →
      ∀ i, ¬ s'.Blocked i := by
  have hpending : Pending s := by
    refine h.invariant ?_ fun s a s' hs hok hstep => hs.step hok hstep
    rintro s rfl
    exact pending_start
  have hflag (i : Nat) (hi : s.Blocked i) (hwriter : s.log.writer ≠ .notifyAll) : s.log.writerWaiting = true :=
    (hpending.blocked i hi).resolve_right hwriter
  refine ⟨hflag, fun i count hi hwriter => ?_, fun count s' hwriter hstep => not_blocked_of_notifyAll hwriter hstep⟩
  have hset := hflag i hi (by rw [hwriter]; simp)
  refine ⟨⟨{ s.log with writerWaiting := false, writer := .notifyAll }, s.notified⟩, ?_, rfl⟩
  simp [waitMachine, WaitState.writerStep, logMachine, writerStep, hwriter, hset]

/-- The one buffer is made and a client takes it; another finds none. -/
def stallRun : List LogAct := [
  .owner 0, .owner 0, .owner 0,
  .call 0 1 [97], .client 0,
  .call 1 1 [98], .client 1]

/-- The writer comes to its exchange. -/
def writerRun : List LogAct := [.writer 0, .writer 0, .writer 0, .writer 0, .writer 0, .writer 0, .writer 0]

/-- What the two runs below look at. -/
def WaitState.view (s : WaitState) : Option ClientPc × List Nat × WriterPc × Bool :=
  (s.log.clients[1]?, s.notified, s.log.writer, s.log.writerWaiting)

theorem exists_view (ok : WaitState → LogAct → Prop) (acts : List LogAct)
    (v : Option ClientPc × List Nat × WriterPc × Bool) (hok : ∀ a ∈ acts, ∀ s, ok s a)
    (h : ((waitMachine 1 2).run ⟨logStart 2, []⟩ acts).map WaitState.view = some v) :
    ∃ s, (waitMachine 1 2).Reaches ok s ∧ s.view = v := by
  obtain ⟨s, hrun, hview⟩ := Option.map_eq_some_iff.mp h
  exact ⟨s, .of_run (.start rfl) hok hrun, hview⟩

theorem WaitState.blocked_of_view {s : WaitState} {call : LogCall} {pc : WriterPc} {flag : Bool}
    (h : s.view = (some (.waiting call), [], pc, flag)) : s.Blocked 1 ∧ s.log.writer = pc ∧ s.log.writerWaiting = flag := by
  simp only [view, Prod.mk.injEq] at h
  obtain ⟨hclient, hnotified, hwriter, hflag⟩ := h
  exact ⟨⟨⟨call, hclient⟩, by simp [hnotified]⟩, hwriter, hflag⟩

/-- The second client stores the flag and waits; the writer has not come to its first test. -/
theorem blocked_has_wakeUp_stalled :
    ∃ s, (waitMachine 1 2).Reaches (fun s a => ¬ OvertakesStore s a) s ∧ s.Blocked 1 ∧
      s.log.writerWaiting = true := by
  obtain ⟨s, hs, hview⟩ := exists_view (fun s a => ¬ OvertakesStore s a) (stallRun ++ [.client 1, .client 1, .client 1])
    (some (.waiting ⟨1, 1, [98]⟩), [], .test, true) (by simp [stallRun, OvertakesStore]) (by decide +kernel)
  obtain ⟨hblocked, hwriter, -⟩ := WaitState.blocked_of_view hview
  exact ⟨s, hs, hblocked, (blocked_has_wakeUp hs).1 1 hblocked (by rw [hwriter]; simp)⟩

/-- The writer clears the flag and notifies between the store and the wait of the second client,
which is then blocked with the flag cleared. -/
theorem blocked_without_wakeUp :
    ∃ s, (waitMachine 1 2).Reaches (fun _ _ => True) s ∧ s.Blocked 1 ∧ s.log.writer = .test ∧
      s.log.writerWaiting = false := by
  obtain ⟨s, hs, hview⟩ := exists_view (fun _ _ => True)
    (stallRun ++ writerRun ++ [.client 1, .client 1, .writer 0, .writer 0, .client 1])
    (some (.waiting ⟨1, 1, [98]⟩), [], .test, false) (fun _ _ _ => trivial) (by decide +kernel)
  exact ⟨s, hs, WaitState.blocked_of_view hview⟩

end Latypus.Log
