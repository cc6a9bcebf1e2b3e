import Mathlib.Logic.Function.Basic
import Latypus.Lib.Machine

/-! The inbox of one protocol thread: a notify socket of bounded capacity, and the message queue
that takes what the socket has refused. The queue is drained only behind the receipt of a
datagram, and a sender that the socket refused puts its message in the queue without another
attempt to wake the receiver. -/

namespace Latypus.Engine.Mailbox
open Lib Function

/-- A sender in `send_message` and `queue_message`. -/
inductive Sender (μ : Type)
  | idle
  /-- Behind an EAGAIN, before the lock. -/
  | refused (msg : μ)
  | locked (msg : μ)
  | pushed
deriving DecidableEq

/-- Between a failed send and the enqueue of the message. -/
def Sender.isBetween {μ : Type} : Sender μ → Bool
  | refused _ | locked _ => true
  | idle | pushed => false

/-- The receiver in `mainloop` and `receive_message`. -/
inductive Receiver (μ : Type)
  | polling
  /-- `do_poll` has returned with the notify socket. -/
  | woken
  | handling (msg : μ)
  | received
  | draining
  | drainHandling (msg : μ)
  /-- The rest of the loop, with no notify event left. -/
  | looping
deriving DecidableEq

/-- The receiver has still to see the queue empty before it polls again. -/
def Receiver.drains {μ : Type} : Receiver μ → Bool
  | woken | handling _ | received | draining | drainHandling _ => true
  | polling | looping => false

/-- Who holds `message_lock`. -/
inductive Holder (ι : Type)
  | sender (i : ι)
  | receiver
deriving DecidableEq

structure State (ι μ : Type) where
  socket : List μ
  queue : List μ
  lock : Option (Holder ι)
  senders : ι → Sender μ
  receiver : Receiver μ

inductive Action (ι μ : Type)
  | send (i : ι) (msg : μ)
  | lock (i : ι)
  | pushBack (i : ι)
  | unlock (i : ι)
  | poll
  | pollOthers
  | recv
  | handled
  | lockQueue
  | popFront
  | unlockQueue
  | loop

variable {ι μ : Type} [DecidableEq ι]

namespace State

def setSender (s : State ι μ) (i : ι) (x : Sender μ) : State ι μ :=
  { s with senders := update s.senders i x }

def step (capacity : Nat) (s : State ι μ) : Action ι μ → Option (State ι μ)
  | .send i msg =>
    match s.senders i with
    | .idle =>
      if s.socket.length < capacity then some { s with socket := s.socket ++ [msg] }
      else some (s.setSender i (.refused msg))
    | _ => none
  | .lock i =>
    match s.senders i, s.lock with
    | .refused msg, none => some { s.setSender i (.locked msg) with lock := some (.sender i) }
    | _, _ => none
  | .pushBack i =>
    match s.senders i with
    | .locked msg => some { s.setSender i .pushed with queue := s.queue ++ [msg] }
    | _ => none
  | .unlock i =>
    match s.senders i with
    | .pushed => some { s.setSender i .idle with lock := none }
    | _ => none
  | .poll =>
    match s.receiver, s.socket with
    | .polling, _ :: _ => some { s with receiver := .woken }
    | _, _ => none
  | .pollOthers =>
    match s.receiver with
    | .polling => some { s with receiver := .looping }
    | _ => none
  | .recv =>
    match s.receiver, s.socket with
    | .woken, msg :: rest => some { s with receiver := .handling msg, socket := rest }
    | .woken, [] => some { s with receiver := .received }
    | _, _ => none
  | .handled =>
    match s.receiver with
    | .handling _ => some { s with receiver := .received }
    | .drainHandling _ => some { s with receiver := .draining }
    | _ => none
  | .lockQueue =>
    match s.receiver, s.lock with
    | .received, none => some { s with receiver := .draining, lock := some .receiver }
    | _, _ => none
  | .popFront =>
    match s.receiver, s.queue with
    | .draining, msg :: rest => some { s with receiver := .drainHandling msg, queue := rest }
    | _, _ => none
  | .unlockQueue =>
    match s.receiver, s.queue with
    | .draining, [] => some { s with receiver := .looping, lock := none }
    | _, _ => none
  | .loop =>
    match s.receiver with
    | .looping => some { s with receiver := .polling }
    | _ => none

end State

/-- The inbox with a socket of the given capacity; every sender is idle at first. -/
def mailbox (ι μ : Type) [DecidableEq ι] (capacity : Nat) : Machine (State ι μ) (Action ι μ) where
  init s := s = ⟨[], [], none, fun _ => .idle, .polling⟩
  step := State.step capacity

/-- A message waits in the queue while the receiver is blocked in `do_poll`, no datagram is
pending, and no sender is about to put a message in the queue. -/
def Stranded (s : State ι μ) : Prop :=
  s.receiver = .polling ∧ s.socket = [] ∧ (∀ i, (s.senders i).isBetween = false) ∧ s.queue ≠ []

/-- A message goes to the queue only while a datagram is pending or the receiver has not drained
the queue yet. -/
def PushedInTime (s : State ι μ) : Action ι μ → Prop
  | .pushBack _ => s.socket ≠ [] ∨ s.receiver.drains = true
  | _ => True

/-- The receiver will look at a queue that is not empty. -/
def WakePending (s : State ι μ) : Prop := s.queue ≠ [] → s.socket ≠ [] ∨ s.receiver.drains = true

/-- What a step can do to the queue and to what wakes the receiver. -/
theorem step_cases {capacity : Nat} {s s' : State ι μ} {a : Action ι μ}
    (hstep : s.step capacity a = some s') :
    (s'.queue = s.queue ∧ s'.socket = s.socket ∧ s'.receiver = s.receiver) ∨
    s'.socket ≠ [] ∨ s'.receiver.drains = true ∨
    (∃ i msg, a = .pushBack i ∧ s'.queue = s.queue ++ [msg] ∧ s'.socket = s.socket ∧
      s'.receiver = s.receiver) ∨
    (s'.queue = s.queue ∧ s'.socket = s.socket ∧ s.receiver.drains = false) ∨ s'.queue = [] := by
  cases a with
  | send i msg =>
    simp only [State.step] at hstep
    split at hstep
    · split_ifs at hstep <;> cases hstep
      · exact .inr (.inl (by simp))
      · exact .inl ⟨rfl, rfl, rfl⟩
    · cases hstep
  | lock i | unlock i =>
    simp only [State.step] at hstep
    split at hstep <;> cases hstep
    exact .inl ⟨rfl, rfl, rfl⟩
  | pushBack i =>
    simp only [State.step] at hstep
    split at hstep <;> cases hstep
    exact .inr (.inr (.inr (.inl ⟨i, _, rfl, rfl, rfl, rfl⟩)))
  | poll | recv | handled | lockQueue | popFront =>
    simp only [State.step] at hstep
    split at hstep <;> cases hstep
    all_goals exact .inr (.inr (.inl rfl))
  | pollOthers | loop =>
    simp only [State.step] at hstep
    split at hstep <;> cases hstep
    exact .inr (.inr (.inr (.inr (.inl ⟨rfl, rfl, by simp_all [Receiver.drains]⟩))))
  | unlockQueue =>
    simp only [State.step] at hstep
    split at hstep <;> cases hstep
    exact .inr (.inr (.inr (.inr (.inr ‹_›))))

theorem WakePending.step {capacity : Nat} {s s' : State ι μ} {a : Action ι μ} (h : WakePending s)
    (hok : PushedInTime s a) (hstep : s.step capacity a = some s') : WakePending s' := by
  intro hqueue
  obtain ⟨hq, hs, hr⟩ | hs | hr | ⟨i, msg, rfl, -, hs, hr⟩ | ⟨hq, hs, hr⟩ | hq := step_cases hstep
  · rw [hs, hr]
    exact h (hq ▸ hqueue)
  · exact .inl hs
  · exact .inr hr
  · rw [hs, hr]
    exact hok
  -- the receiver leaves or enters `do_poll`, which only a pending datagram can justify
  · rcases h (hq ▸ hqueue) with hsock | hdrain
    · exact .inl (hs ▸ hsock)
    · rw [hr] at hdrain
      cases hdrain
  · exact absurd hq hqueue

/-- No message is stranded in a run in which every message goes to the queue in time. -/
theorem not_stranded {capacity : Nat} {s : State ι μ}
    (h : (mailbox ι μ capacity).Reaches PushedInTime s) : ¬Stranded s := by
  have hwake : WakePending s := by
    refine h.invariant (P := WakePending) ?_ fun s a s' hs hok hstep => hs.step hok hstep
    rintro s rfl
    exact fun hq => absurd rfl hq
  rintro ⟨hpoll, hsocket, -, hqueue⟩
  rcases hwake hqueue with hs | hr
  · exact hs hsocket
  · rw [hpoll] at hr
    cases hr

/-- With room for one datagram, the second of two senders is refused, and the receiver handles the
datagram of the first. -/
def refusedRun : List (Action Bool Nat) := [.send false 10, .send true 11, .poll, .recv, .handled]

instance (s : State ι μ) : (a : Action ι μ) → Decidable (PushedInTime s a)
  | .pushBack _ => inferInstanceAs (Decidable (s.socket ≠ [] ∨ s.receiver.drains = true))
  | .send .. | .lock _ | .unlock _ | .poll | .pollOthers | .recv | .handled | .lockQueue | .popFront | .unlockQueue
  | .loop => .isTrue trivial

/-- The refused sender puts its message in the queue before the receiver drains it, and the receiver handles it and
polls again. -/
theorem not_stranded_in_time :
    (∃ s, (mailbox Bool Nat 1).Reaches PushedInTime s ∧ s.queue = [11] ∧ s.socket = [] ∧ ¬Stranded s) ∧
      ∃ s, (mailbox Bool Nat 1).Reaches PushedInTime s ∧ s.receiver = .polling ∧ s.queue = [] ∧ ¬Stranded s := by
  have hstart : (mailbox Bool Nat 1).Reaches PushedInTime ⟨[], [], none, fun _ => .idle, .polling⟩ := .start rfl
  have hpushed : (((mailbox Bool Nat 1).guard PushedInTime).run ⟨[], [], none, fun _ => .idle, .polling⟩
      (refusedRun ++ [.lock true, .pushBack true])).map (fun s => (s.queue, s.socket)) = some ([11], []) := by
    decide +kernel
  have hdrained : (((mailbox Bool Nat 1).guard PushedInTime).run ⟨[], [], none, fun _ => .idle, .polling⟩
      (refusedRun ++ [.lock true, .pushBack true, .unlock true, .lockQueue, .popFront, .handled, .unlockQueue,
        .loop])).map (fun s => (s.receiver, s.queue)) = some (.polling, []) := by decide +kernel
  obtain ⟨s, hreach, hs⟩ := hstart.exists_of_guard_run hpushed
  obtain ⟨s', hreach', hs'⟩ := hstart.exists_of_guard_run hdrained
  obtain ⟨hqueue, hsocket⟩ := Prod.mk.inj hs
  obtain ⟨hreceiver, hqueue'⟩ := Prod.mk.inj hs'
  exact ⟨⟨s, hreach, hqueue, hsocket, not_stranded hreach⟩, s', hreach', hreceiver, hqueue', not_stranded hreach'⟩

/-- The receiver finds the queue empty and polls before the refused sender puts its message
there. -/
theorem stranded_late : ∃ s, (mailbox Bool Nat 1).Reaches (fun _ _ => True) s ∧ Stranded s := by
  obtain ⟨s, hrun, hs⟩ : ∃ s, (mailbox Bool Nat 1).run ⟨[], [], none, fun _ => .idle, .polling⟩
      (refusedRun ++ [.lockQueue, .unlockQueue, .loop, .lock true, .pushBack true, .unlock true]) =
      some s ∧ Stranded s := ⟨_, rfl, rfl, rfl, by decide, by decide⟩
  exact ⟨s, .of_run (.start rfl) (fun _ _ _ => trivial) hrun, hs⟩

end Latypus.Engine.Mailbox
