import Latypus.Log.Conservation

/-! `log_thread::shutdown` over whole runs. The writer tests `running` only at the top of its loop, behind
its last drain: what is pushed between the drain and the store of `shutdown` is written by nobody. -/

namespace Latypus.Log
open Lib

/-- The logger with the calls of `log` that had returned when `shutdown` was last called, by the owner or
by the destructor. -/
structure ShutdownState where
  log : LogState
  before : List LogCall
deriving DecidableEq, Repr

/-- The call of `shutdown` has not returned. -/
def OwnerPc.inShutdown : OwnerPc → Bool
  | exchange _ | notify _ | join _ => true
  | _ => false

/-- The next step of the owner is the exchange on `running`. -/
def OwnerPc.exchanges : OwnerPc → Bool
  | exchange _ => true
  | _ => false

/-- The writer has still to find the queue of messages empty before it tests `running` again. -/
def WriterPc.drains : WriterPc → Bool
  | lock | locked | waiting => true
  | logs .flush => false
  | logs _ => true
  | _ => false

/-- The calls whose messages are in the queue. -/
def LogState.queued (s : LogState) : List LogCall := s.pushed.drop (s.pushed.length - s.inuse.length)

namespace ShutdownState

/-- The machine of the logger, which records the calls. -/
def machine (numBuffers numClients : Nat) : Machine ShutdownState LogAct where
  init s := s.log = logStart numClients ∧ s.before = []
  step s a := ((logMachine numBuffers numClients).step s.log a).map fun log =>
    ⟨log, if a = .shutdown ∨ a = .destroy then s.log.returned else s.before⟩

/-- The messages of the calls are written. -/
def Written (s : LogState) (calls : List LogCall) : Prop := ∀ call ∈ calls, call ∈ s.pushed.take s.written.length

/-- When `shutdown` returns, the messages of the calls that had returned before it are written. -/
def Flushed (s : ShutdownState) : Prop := s.log.owner.inShutdown = false → Written s.log s.before

/-- When `shutdown` stores false to `running`, or finds it there, the writer has still to drain the queue or
no message of a call that had returned is in it. -/
def InTime (s : ShutdownState) : LogAct → Prop
  | .owner _ => s.log.owner.exchanges = true →
      s.log.writer.drains = true ∨ ∀ call ∈ s.before, call ∉ s.log.queued
  | _ => True

section Frames
variable {n numClients : Nat} {s s' : LogState} {calls calls' : List LogCall} {count : Nat}

/-- What no step takes back. -/
structure Grows (s s' : LogState) : Prop where
  pushed : s.pushed <+: s'.pushed
  written : s.written <+: s'.written
  returned : s.returned ⊆ s'.returned

theorem Grows.refl (s : LogState) : Grows s s := ⟨List.prefix_rfl, List.prefix_rfl, List.Subset.refl _⟩

theorem Written.mono (h : Written s calls) (hgrows : Grows s s') : Written s' calls :=
  fun call hcall => mem_take_of_prefix hgrows.pushed hgrows.written.length_le (h call hcall)

theorem writeLogsStep_grows (pc : WriteLogs) (count : Nat) :
    Grows s (writeLogsStep n s count pc).1 ∧ (writeLogsStep n s count pc).1.owner = s.owner ∧
      (writeLogsStep n s count pc).1.running = s.running := by
  cases pc with
  | pop =>
    simp only [writeLogsStep]
    split <;> exact ⟨{ Grows.refl s with }, rfl, rfl⟩
  | write b => exact ⟨{ Grows.refl s with written := List.prefix_append _ _ }, rfl, rfl⟩
  | push b =>
    simp only [writeLogsStep]
    split <;> exact ⟨{ Grows.refl s with }, rfl, rfl⟩
  | flush => exact ⟨.refl s, rfl, rfl⟩

theorem writeLogsStep_writer (pc : WriteLogs) (count : Nat) : (writeLogsStep n s count pc).1.writer = s.writer := by
  cases pc with
  | pop =>
    simp only [writeLogsStep]
    split <;> rfl
  | write b | flush => rfl
  | push b =>
    simp only [writeLogsStep]
    split <;> rfl

theorem writerStep_grows (hstep : writerStep n s count = some s') :
    Grows s s' ∧ s'.owner = s.owner ∧ s'.running = s.running := by
  cases hw : s.writer with
  | logs pc =>
    have hframe := writeLogsStep_grows (n := n) (s := s) pc count
    simp only [writerStep, hw] at hstep
    split at hstep <;> next t _ heq =>
      cases hstep
      rw [heq] at hframe
      exact ⟨{ hframe.1 with }, hframe.2⟩
  | lock | waiting =>
    simp only [writerStep, hw] at hstep
    split at hstep
    · cases hstep
    · cases hstep
      exact ⟨{ Grows.refl s with }, rfl, rfl⟩
  | exchange =>
    simp only [writerStep, hw] at hstep
    split at hstep <;> cases hstep <;> exact ⟨{ Grows.refl s with }, rfl, rfl⟩
  | test | locked | unlock | notifyAll =>
    simp only [writerStep, hw] at hstep
    cases hstep
    exact ⟨{ Grows.refl s with }, rfl, rfl⟩
  | done =>
    simp only [writerStep, hw] at hstep
    cases hstep

theorem ownerStep_grows (hstep : ownerStep n s count = some s') : Grows s s' ∧ s'.writer = s.writer := by
  cases hpc : s.owner with
  | create i | createPush i b =>
    simp only [ownerStep, hpc] at hstep
    split at hstep <;> cases hstep <;> exact ⟨{ Grows.refl s with }, rfl⟩
  | ready | destroyed =>
    simp only [ownerStep, hpc] at hstep
    cases hstep
  | exchange d =>
    simp only [ownerStep, hpc] at hstep
    split at hstep <;> cases hstep <;> exact ⟨{ Grows.refl s with }, rfl⟩
  | notify d | close =>
    simp only [ownerStep, hpc] at hstep
    cases hstep
    exact ⟨{ Grows.refl s with }, rfl⟩
  | join d =>
    simp only [ownerStep, hpc] at hstep
    split at hstep
    · cases hstep
      exact ⟨{ Grows.refl s with }, rfl⟩
    · cases hstep
  | drain pc =>
    have hframe := writeLogsStep_grows (n := n) (s := s) pc count
    have hwriter : (writeLogsStep n s count pc).1.writer = s.writer := writeLogsStep_writer pc count
    simp only [ownerStep, hpc] at hstep
    split at hstep <;> next t _ heq =>
      cases hstep
      rw [heq] at hframe hwriter
      exact ⟨{ hframe.1 with }, hwriter⟩
  | delete i =>
    simp only [ownerStep, hpc] at hstep
    split at hstep
    · split at hstep <;> cases hstep <;> exact ⟨{ Grows.refl s with }, rfl⟩
    · cases hstep
      exact ⟨{ Grows.refl s with }, rfl⟩

theorem afterShutdown_inShutdown (d : Bool) :
    (afterShutdown d).inShutdown = false ∧ (afterShutdown d).stopping = false := by
  cases d <;> exact ⟨rfl, rfl⟩

/-- What the owner does in `shutdown`. -/
theorem ownerStep_shutdown (hstep : ownerStep n s count = some s') :
    (∃ d, s.owner = .exchange d ∧ (s'.owner.stopping = true → s'.running = false) ∧
      (s'.owner.inShutdown = false → s.running = false)) ∨
    (s.owner.stopping = true ∧ s'.running = s.running ∧ (s'.owner.stopping = true ∨ s.writer = .done)) ∨
    s.owner.inShutdown = false ∧ s'.owner.inShutdown = false ∧ s'.owner.stopping = false := by
  cases hpc : s.owner with
  | exchange d =>
    refine .inl ⟨d, rfl, ?_⟩
    simp only [ownerStep, hpc] at hstep
    split at hstep
    · cases hstep
      refine ⟨fun _ => rfl, fun hout => ?_⟩
      cases hout
    · next hrunning =>
      cases hstep
      refine ⟨fun hstopping => ?_, fun _ => Bool.not_eq_true _ |>.mp hrunning⟩
      rw [(afterShutdown_inShutdown d).2] at hstopping
      cases hstopping
  | notify d =>
    simp only [ownerStep, hpc] at hstep
    cases hstep
    exact .inr (.inl ⟨rfl, rfl, .inl rfl⟩)
  | join d =>
    simp only [ownerStep, hpc] at hstep
    split at hstep
    · next hdone =>
      cases hstep
      exact .inr (.inl ⟨rfl, rfl, .inr hdone⟩)
    · cases hstep
  | create i | createPush i b =>
    simp only [ownerStep, hpc] at hstep
    split at hstep <;> cases hstep <;> exact .inr (.inr ⟨rfl, rfl, rfl⟩)
  | ready | destroyed =>
    simp only [ownerStep, hpc] at hstep
    cases hstep
  | drain pc =>
    simp only [ownerStep, hpc] at hstep
    split at hstep <;> cases hstep <;> exact .inr (.inr ⟨rfl, rfl, rfl⟩)
  | delete i =>
    simp only [ownerStep, hpc] at hstep
    split at hstep
    · split at hstep <;> cases hstep <;> exact .inr (.inr ⟨rfl, rfl, rfl⟩)
    · cases hstep
      exact .inr (.inr ⟨rfl, rfl, rfl⟩)
  | close =>
    simp only [ownerStep, hpc] at hstep
    cases hstep
    exact .inr (.inr ⟨rfl, rfl, rfl⟩)

theorem step_grows {a : LogAct} (h : Inv n s) (hstep : (logMachine n numClients).step s a = some s') : Grows s s' := by
  cases a with
  | call i time message =>
    simp only [logMachine] at hstep
    split_ifs at hstep
    cases hstep
    exact { Grows.refl s with }
  | client i =>
    simp only [logMachine] at hstep
    split_ifs at hstep
    split at hstep
    · cases hstep
    · next pc hi =>
      split at hstep
      · cases hstep
      · next t pc' hclient =>
        cases hstep
        have hframe := h.flow.clientFrame hi h.length_le hclient
        exact ⟨hframe.pushed, hframe.written ▸ List.prefix_rfl, hframe.returned.subset⟩
  | writer count => exact (writerStep_grows hstep).1
  | owner count => exact (ownerStep_grows hstep).1
  | shutdown | destroy =>
    simp only [logMachine] at hstep
    split_ifs at hstep
    cases hstep
    exact { Grows.refl s with }

/-- The text of every message that is neither in the queue nor in the hands of a thread is written. -/
theorem length_written (h : Inv n s) (hwriter : s.writer.unwritten = []) (howner : s.owner.unwritten = []) :
    s.written.length + s.inuse.length = s.pushed.length := by
  have htexts := congrArg List.length h.flow.texts
  rw [hwriter, howner] at htexts
  simpa using htexts

theorem unwritten_of_not_drains {w : WriterPc} (h : w.drains = false) : w.unwritten = [] := by
  cases w with
  | logs pc =>
    cases pc with
    | flush => rfl
    | _ => cases h
  | _ => rfl

theorem OwnerPc.unwritten_of_inShutdown {pc : OwnerPc} (h : pc.inShutdown = true) : pc.unwritten = [] := by
  cases pc with
  | drain pc => cases h
  | _ => rfl

theorem OwnerPc.inShutdown_of_stopping {pc : OwnerPc} (h : pc.stopping = true) : pc.inShutdown = true := by
  cases pc with
  | notify d | join d => rfl
  | _ => cases h

/-- Calls that have returned are written when none of their messages is in the queue. -/
theorem written_of_notMem_queued (h : Inv n s) (hwriter : s.writer.drains = false)
    (howner : s.owner.inShutdown = true) (hcalls : calls ⊆ s.returned) (hqueued : ∀ call ∈ calls, call ∉ s.queued) :
    Written s calls := by
  intro call hcall
  have hlength := length_written h (unwritten_of_not_drains hwriter) (OwnerPc.unwritten_of_inShutdown howner)
  have hmem := h.flow.returned (hcalls hcall)
  rw [← List.take_append_drop (s.pushed.length - s.inuse.length) s.pushed] at hmem
  have htake := (List.mem_append.mp hmem).resolve_right (hqueued call hcall)
  rwa [show s.pushed.length - s.inuse.length = s.written.length by omega] at htake

/-- A writer that has to drain the queue goes on to do so, or has just found it empty. -/
theorem drains_step (h : Inv n s) (hw : s.writer.drains = true) (hstep : writerStep n s count = some s') :
    s'.writer.drains = true ∨ Written s' s'.pushed := by
  cases hpc : s.writer with
  | logs pc =>
    cases pc with
    | pop =>
      cases hinuse : s.inuse with
      | nil =>
        simp only [writerStep, hpc, writeLogsStep, hinuse] at hstep
        cases hstep
        have hdone : s.writer ≠ .done := by
          intro hdone
          rw [hpc] at hdone
          cases hdone
        have hlength := length_written h (by rw [hpc]; rfl) (OwnerPc.unwritten_eq_nil (h.joined_eq_false hdone))
        rw [hinuse, List.length_nil, Nat.add_zero] at hlength
        refine .inr fun call hcall => ?_
        dsimp only
        rw [hlength, List.take_length]
        exact hcall
      | cons b inuse =>
        simp only [writerStep, hpc, writeLogsStep, hinuse] at hstep
        cases hstep
        exact .inl rfl
    | write b =>
      simp only [writerStep, hpc, writeLogsStep] at hstep
      cases hstep
      exact .inl rfl
    | push b =>
      simp only [writerStep, hpc, writeLogsStep] at hstep
      split_ifs at hstep <;> cases hstep <;> exact .inl rfl
    | flush =>
      rw [hpc] at hw
      cases hw
  | lock | waiting =>
    simp only [writerStep, hpc] at hstep
    split at hstep
    · cases hstep
    · cases hstep
      exact .inl rfl
  | locked =>
    simp only [writerStep, hpc] at hstep
    cases hstep
    exact .inl rfl
  | test | unlock | exchange | notifyAll | done =>
    rw [hpc] at hw
    cases hw

end Frames

section Runs
variable {n numClients : Nat} {s s' : ShutdownState} {a : LogAct}

/-- What holds of runs whose calls of `shutdown` are in time. -/
structure Inv (n : Nat) (s : ShutdownState) : Prop where
  log : Log.Inv n s.log
  before : s.before ⊆ s.log.returned
  stopping : s.log.owner.stopping = true →
    s.log.running = false ∧ (s.log.writer.drains = true ∨ Written s.log s.before)
  through : s.log.owner.inShutdown = false → Written s.log s.before

/-- A step that leaves the owner and the writer in their places. -/
theorem Inv.keep {log : LogState} (h : Inv n s) (hinv : Log.Inv n log) (hgrows : Grows s.log log)
    (howner : log.owner = s.log.owner) (hwriter : log.writer = s.log.writer) (hrunning : log.running = s.log.running) :
    Inv n ⟨log, s.before⟩ := by
  refine ⟨hinv, List.Subset.trans h.before hgrows.returned, fun hstopping => ?_, fun hthrough => ?_⟩
  · obtain ⟨hfalse, hdrains⟩ := h.stopping (howner ▸ hstopping)
    exact ⟨hrunning.trans hfalse, hdrains.imp (fun hd => by rw [hwriter]; exact hd) fun hw => hw.mono hgrows⟩
  · exact (h.through (howner ▸ hthrough)).mono hgrows

theorem Inv.client {i : Nat} {log : LogState} (h : Inv n s) (hstep : (logMachine n numClients).step s.log (.client i) = some log) :
    Inv n ⟨log, s.before⟩ := by
  have hinv := h.log.step hstep
  have hgrows := step_grows h.log hstep
  simp only [logMachine] at hstep
  split_ifs at hstep
  split at hstep
  · cases hstep
  · next pc hi =>
    split at hstep
    · cases hstep
    · next t pc' hclient =>
      have hframe := h.log.flow.clientFrame hi h.log.length_le hclient
      have heq := Option.some.inj hstep
      exact h.keep hinv hgrows (heq ▸ hframe.owner) (heq ▸ hframe.writer) (heq ▸ hframe.running)

theorem Inv.writer {log : LogState} {count : Nat} (h : Inv n s) (hstep : writerStep n s.log count = some log) :
    Inv n ⟨log, s.before⟩ := by
  obtain ⟨hgrows, howner, hrunning⟩ := writerStep_grows hstep
  have hbefore := List.Subset.trans h.before hgrows.returned
  have hinv := h.log.writer hstep
  refine ⟨hinv, hbefore, fun hstopping => ?_, fun hthrough => ?_⟩
  · obtain ⟨hfalse, hdrains | hwritten⟩ := h.stopping (howner ▸ hstopping)
    · refine ⟨hrunning.trans hfalse, (drains_step h.log hdrains hstep).imp id fun hall => ?_⟩
      exact fun call hcall => hall call (hinv.flow.returned (hbefore hcall))
    · exact ⟨hrunning.trans hfalse, .inr (hwritten.mono hgrows)⟩
  · exact (h.through (howner ▸ hthrough)).mono hgrows

theorem Inv.owner {log : LogState} {count : Nat} (h : Inv n s) (hok : s.InTime (.owner count))
    (hstep : ownerStep n s.log count = some log) : Inv n ⟨log, s.before⟩ := by
  obtain ⟨hgrows, hwriter⟩ := ownerStep_grows hstep
  have hbefore := List.Subset.trans h.before hgrows.returned
  rcases ownerStep_shutdown hstep with ⟨d, hpc, hfalse, hagain⟩ | ⟨hstopping, hrunning, hnext⟩ | ⟨hthrough, hnext, hidle⟩
  · -- the store of false, or the second call of `shutdown`
    have hcovered : s.log.writer.drains = true ∨ Written s.log s.before := by
      cases hdrains : s.log.writer.drains with
      | true => exact .inl rfl
      | false =>
        have hqueued := (hok (by rw [hpc]; rfl)).resolve_left (by rw [hdrains]; exact Bool.false_ne_true)
        exact .inr (written_of_notMem_queued h.log hdrains (by rw [hpc]; rfl) h.before hqueued)
    refine ⟨h.log.owner hstep, hbefore, fun hstopping => ⟨hfalse hstopping, ?_⟩, fun hthrough => ?_⟩
    · exact hcovered.imp (fun hd => by rw [hwriter]; exact hd) fun hw => hw.mono hgrows
    · have hdone : s.log.writer = .done := by
        rcases h.log.stopped with hrunning | hdone | hstopping
        · rw [hagain hthrough] at hrunning
          cases hrunning
        · exact hdone
        · rw [hpc] at hstopping
          cases hstopping
      exact (hcovered.resolve_left (by rw [hdone]; exact nofun)).mono hgrows
  · obtain ⟨hfalse, hcovered⟩ := h.stopping hstopping
    refine ⟨h.log.owner hstep, hbefore, fun _ => ⟨hrunning.trans hfalse, ?_⟩, fun hthrough => ?_⟩
    · exact hcovered.imp (fun hd => by rw [hwriter]; exact hd) fun hw => hw.mono hgrows
    · rcases hnext with hstopping | hdone
      · rw [OwnerPc.inShutdown_of_stopping hstopping] at hthrough
        cases hthrough
      · exact (hcovered.resolve_left (by rw [hdone]; exact nofun)).mono hgrows
  · refine ⟨h.log.owner hstep, hbefore, fun hstopping => ?_, fun _ => (h.through hthrough).mono hgrows⟩
    rw [hidle] at hstopping
    cases hstopping

theorem Inv.step (h : Inv n s) (hok : s.InTime a) (hstep : (machine n numClients).step s a = some s') : Inv n s' := by
  obtain ⟨log, hlog, rfl⟩ := Option.map_eq_some_iff.mp hstep
  cases a with
  | call i time message =>
    have hinv := h.log.step hlog
    have hgrows := step_grows h.log hlog
    simp only [logMachine] at hlog
    split_ifs at hlog
    have heq := Option.some.inj hlog
    exact h.keep hinv hgrows (heq ▸ rfl) (heq ▸ rfl) (heq ▸ rfl)
  | client i => exact h.client hlog
  | writer count => exact h.writer hlog
  | owner count => exact h.owner hok hlog
  | shutdown | destroy =>
    have hinv := h.log.step hlog
    simp only [logMachine] at hlog
    split_ifs at hlog
    have heq := Option.some.inj hlog
    refine ⟨hinv, ?_, ?_, ?_⟩
    · rw [← heq]
      exact List.Subset.refl _
    · intro hstopping
      rw [← heq] at hstopping
      cases hstopping
    · intro hthrough
      rw [← heq] at hthrough
      cases hthrough

theorem inv_of_reaches (h : (machine n numClients).Reaches InTime s) : Inv n s := by
  refine Machine.Reaches.invariant (P := Inv n) ?_ ?_ h
  · rintro ⟨log, before⟩ ⟨hlog, hbefore⟩
    obtain rfl := hlog
    obtain rfl := hbefore
    have hstart : (logMachine n numClients).Reaches (fun _ _ => True) (logStart numClients) := .start rfl
    refine ⟨Log.inv_of_reaches hstart, List.nil_subset _, nofun, fun _ => ?_⟩
    intro call hcall
    cases hcall
  · intro s a s' hs hok hstep
    exact hs.step hok hstep

/-- When `shutdown` returns, every message whose call had returned before it is written, in every run in
which `shutdown` is in time for the last drain of the writer. -/
theorem shutdown_flushes (n numClients : Nat) (s : ShutdownState) (h : (machine n numClients).Reaches InTime s) :
    s.Flushed := (inv_of_reaches h).through

end Runs

instance (s : ShutdownState) (a : LogAct) : Decidable (InTime s a) :=
  match a with
  | .owner _ => inferInstanceAs (Decidable (s.log.owner.exchanges = true →
      s.log.writer.drains = true ∨ ∀ call ∈ s.before, call ∉ s.log.queued))
  | .call _ _ _ | .client _ | .writer _ | .shutdown | .destroy => .isTrue trivial

/-- One buffer, a message that is logged, and the writer about to drain the queue when `shutdown` is called. -/
def inTimeRun : List LogAct :=
  List.flatten [
    List.replicate 3 (.owner 0), [.call 0 7 [104, 105]], List.replicate 4 (.client 0),
    [.writer 0, .shutdown, .owner 0], List.replicate 11 (.writer 2), List.replicate 2 (.owner 0)]

theorem shutdown_flushes_inTime : ∃ s, (machine 1 1).Reaches InTime s ∧ s.log.owner = .ready ∧
    s.log.written = [[104, 105]] ∧ s.before = [⟨0, 7, [104, 105]⟩] ∧ s.Flushed := by
  have hend : (((machine 1 1).guard InTime).run ⟨logStart 1, []⟩ inTimeRun).map
      (fun s => (s.log.owner, s.log.written, s.before)) =
        some (.ready, [[104, 105]], [⟨0, 7, [104, 105]⟩]) := by decide +kernel
  have hstart : (machine 1 1).Reaches InTime ⟨logStart 1, []⟩ := .start ⟨rfl, rfl⟩
  obtain ⟨s, hreach, hstate⟩ := hstart.exists_of_guard_run hend
  simp only [Prod.mk.injEq] at hstate
  obtain ⟨howner, hwritten, hbefore⟩ := hstate
  exact ⟨s, hreach, howner, hwritten, hbefore, shutdown_flushes 1 1 s hreach⟩

/-- The writer has drained the empty queue when the message is logged, and finds `running` false. -/
def lateRun : List LogAct :=
  List.flatten [
    List.replicate 3 (.owner 0), List.replicate 5 (.writer 0), [.call 0 7 [104, 105]],
    List.replicate 4 (.client 0), [.shutdown, .owner 0], List.replicate 4 (.writer 0),
    List.replicate 2 (.owner 0)]

/-- The call of `log` has returned before `shutdown`, and its message is not written when `shutdown` returns. -/
theorem shutdown_not_flushes :
    ¬ ∀ n numClients s, (machine n numClients).Reaches (fun _ _ => True) s → s.Flushed := by
  intro h
  have hend : ((machine 1 1).run ⟨logStart 1, []⟩ lateRun).map (fun s => (s.log.owner, s.log.written, s.before)) =
      some (.ready, [], [⟨0, 7, [104, 105]⟩]) := by decide +kernel
  obtain ⟨s, hrun, hstate⟩ := Option.map_eq_some_iff.mp hend
  simp only [Prod.mk.injEq] at hstate
  obtain ⟨howner, hwritten, hbefore⟩ := hstate
  have hflushed := h 1 1 s (Machine.Reaches.of_run (.start ⟨rfl, rfl⟩) (fun _ _ _ => trivial) hrun)
    (by rw [howner]; rfl) ⟨0, 7, [104, 105]⟩ (by rw [hbefore]; exact List.mem_singleton.mpr rfl)
  rw [hwritten] at hflushed
  cases hflushed

end ShutdownState
end Latypus.Log
