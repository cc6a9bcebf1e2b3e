import Mathlib.Logic.Relation
import Latypus.Engine.Machine

/-! The `message_lock`s of the threads. A thread takes its own lock in `receive_message` and keeps it
while it handles the messages of its queue, and whoever sends a message past a full notify socket takes the
lock of the receiver for the push. All other operations are free to answer as they like, but for the choice
of a thread. -/

namespace Latypus.Engine
open Lib Function

/-- The programs of all protocols: the functions that are called through their tables, what `mainloop`
starts for an event or a timeout, and what a caller of the public interface runs. -/
structure Handlers (Entry Submission : Type) where
  body : Thread → Call → Prog Unit
  entry : Thread → Entry → Prog Unit
  submit : Submission → Prog Unit

def Handlers.enter {Entry Submission : Type} (H : Handlers Entry Submission) (o : Op) (rest : Prog Unit) : Prog Unit :=
  match o with
  | .call t f => H.body t f >>= fun _ => rest
  | _ => rest

/-- Where a thread is in `mainloop`: at the events and timeouts, in `receive_message` before it has its
lock, or at the queue with its lock. -/
inductive Phase
  | events | receive | drain
deriving DecidableEq

def Phase.hasLock : Phase → Bool
  | drain => true
  | _ => false

structure LockState where
  phase : Thread → Phase
  tasks : Exec → Prog Unit
  notify : Thread → List Message
  queue : Thread → List Message
  /-- Who holds the lock of a thread. -/
  lock : Thread → Option Exec
  /-- Who is in `queue_message` with the lock that it takes there. -/
  pushing : Exec → Bool

inductive LockLabel (Entry Submission : Type)
  /-- A thread handles an event or a timeout. -/
  | entry (t : Thread) (e : Entry)
  /-- A thread enters `receive_message`; `received` when there is a message on the socket. -/
  | receive (t : Thread) (received : Bool)
  | lock (e : Exec)
  /-- A thread goes on with its queue. -/
  | drain (t : Thread)
  | perform (e : Exec) (o : Op) (a : Answer o)
  | submit (i : Nat) (x : Submission)

namespace LockState

def start (s : LockState) (e : Exec) (p : Prog Unit) : LockState := { s with tasks := update s.tasks e p }

/-- The lock that an executor is about to take. -/
def wanted (s : LockState) (e : Exec) : Option Thread :=
  match s.tasks e with
  | .op (.queueMessage dest _) _ => if s.pushing e then none else some dest
  | .op _ _ => none
  | .pure _ =>
    match e with
    | .thread t => if s.phase t = .receive then some t else none
    | .caller _ => none

def exec (cfg : Config) (s : LockState) (e : Exec) : (o : Op) → Answer o → Option LockState
  | .sendNotify dest msg, r =>
    match r with
    | .sent => some { s with notify := update s.notify dest (s.notify dest ++ [msg]) }
    | .again => some s
    | .failed => some s
  | .queueMessage dest msg, () =>
    if s.pushing e ∧ s.lock dest = some e then
      some { s with
        queue := update s.queue dest (s.queue dest ++ [msg])
        lock := update s.lock dest none
        pushing := update s.pushing e false }
    else none
  | .chooseThread t m, dest =>
    if cfg.mask t m then (if dest = some t then some s else none)
    else if dest.all (cfg.mask · m) then some s else none
  | .engineChooseThread m, dest => if dest.all (cfg.mask · m) then some s else none
  | _, _ => some s

section Step
variable {Entry Submission : Type} (H : Handlers Entry Submission) (cfg : Config) (s : LockState)

/-- The thread is at its events and runs no handler. -/
def AtEvents (t : Thread) : Prop :=
  t < cfg.threads.length ∧ State.isDone (s.tasks (.thread t)) = true ∧ s.phase t = .events

instance (t : Thread) : Decidable (s.AtEvents cfg t) := inferInstanceAs (Decidable (_ ∧ _))

def receive (t : Thread) (received : Bool) : LockState :=
  let s' := { s with phase := update s.phase t .receive }
  match s.notify t, received with
  | msg :: msgs, true =>
    { s' with notify := update s.notify t msgs }.start (.thread t) (H.body t (.message msg))
  | _, _ => s'

def takeLock (e : Exec) : Option LockState :=
  match s.wanted e with
  | none => none
  | some dest =>
    if s.lock dest = none then
      let s' := { s with lock := update s.lock dest (some e) }
      if State.isDone (s.tasks e) then some { s' with phase := update s.phase dest .drain }
      else some { s' with pushing := update s.pushing e true }
    else none

def drainNext (t : Thread) : LockState :=
  match s.queue t with
  | msg :: msgs => { s with queue := update s.queue t msgs }.start (.thread t) (H.body t (.message msg))
  | [] => { s with lock := update s.lock t none, phase := update s.phase t .events }

def step : LockLabel Entry Submission → Option LockState
  | .entry t e => if s.AtEvents cfg t then some (s.start (.thread t) (H.entry t e)) else none
  | .receive t received => if s.AtEvents cfg t then some (s.receive H t received) else none
  | .lock e => s.takeLock e
  | .drain t =>
    if State.isDone (s.tasks (.thread t)) ∧ s.phase t = .drain then some (s.drainNext H t) else none
  | .perform e o a => do
    let rest ← (s.tasks e).resume o a
    let s' ← s.exec cfg e o a
    return s'.start e (H.enter o rest)
  | .submit i x => if State.isDone (s.tasks (.caller i)) then some (s.start (.caller i) (H.submit x)) else none

end Step

/-- All threads at their events, with no messages and no locks. -/
def initial : LockState where
  phase := fun _ => .events
  tasks := fun _ => pure ()
  notify := fun _ => []
  queue := fun _ => []
  lock := fun _ => none
  pushing := fun _ => false

/-- An executor is about to take a lock that another one holds. -/
def Blocks (s : LockState) (e e' : Exec) : Prop := ∃ t, s.wanted e = some t ∧ s.lock t = some e'

/-- No thread that holds its own lock waits for a lock, and nobody waits for itself in the end. -/
structure DeadlockFree (s : LockState) : Prop where
  own : ∀ t, s.lock t = some (.thread t) → s.wanted (.thread t) = none
  acyclic : ∀ e, ¬Relation.TransGen s.Blocks e e

end LockState

def Handlers.lockMachine {Entry Submission : Type} (H : Handlers Entry Submission) (cfg : Config) :
    Machine LockState (LockLabel Entry Submission) where
  init s := s = .initial
  step := LockState.step H cfg

/-! ### The discipline -/

/-- What the choice of a thread promises. -/
def GoodChoice (cfg : Config) : (o : Op) → Answer o → Prop
  | .chooseThread t m, dest => cfg.mask t m = true → dest = some t
  | .engineChooseThread m, dest => dest.all (cfg.mask · m) = true
  | _, _ => True

/-- Whether a program that runs with the lock of its thread (`true`) or without it may issue an operation:
with the lock it pushes nothing and handles only actions that may be in a queue. -/
def MayIssue (queues : Action → Prop) (locked : Bool) : Op → Prop
  | .queueMessage _ msg => locked = false ∧ queues msg.action
  | .call _ (.message msg) => locked = true → queues msg.action
  | .call _ _ => locked = false
  | _ => True

def lockDiscipline (cfg : Config) (queues : Action → Prop) : Discipline Answer Bool where
  allowed := MayIssue queues
  next locked o a locked' := locked' = locked ∧ GoodChoice cfg o a

/-- The program keeps to the discipline to its end. -/
def Obeys (cfg : Config) (queues : Action → Prop) (locked : Bool) {α : Type} (p : Prog α) : Prop :=
  (lockDiscipline cfg queues).Triple (fun _ locked' => locked' = locked) p locked

section Obeys
variable {cfg : Config} {queues : Action → Prop} {locked : Bool} {α β : Type} {t dest : Thread} {c : Slot}
  {msg : Message} {m : Mask} {a : Action}

theorem obeys_pure {x : α} : Obeys cfg queues locked (pure x : Prog α) := rfl

theorem obeys_bind {p : Prog α} {f : α → Prog β} (hp : Obeys cfg queues locked p)
    (hf : ∀ x, Obeys cfg queues locked (f x)) : Obeys cfg queues locked (p >>= f) := by
  refine Discipline.triple_bind hp ?_
  rintro x _ rfl
  exact hf x

theorem obeys_op {o : Op} {f : Answer o → Prog α} (ho : MayIssue queues locked o)
    (hf : ∀ x, GoodChoice cfg o x → Obeys cfg queues locked (f x)) :
    Obeys cfg queues locked (issue o >>= f) := by
  refine Discipline.triple_perform ho ?_
  rintro x _ ⟨rfl, hgood⟩
  exact hf x hgood

theorem obeys_issue {o : Op} (ho : MayIssue queues locked o) : Obeys cfg queues locked (issue o) :=
  ⟨ho, fun _ _ hnext => hnext.1⟩

theorem obeys_removeEvents : Obeys cfg queues locked (removeEvents t c) :=
  obeys_op trivial fun _ _ => obeys_pure

theorem obeys_freeConnection : Obeys cfg queues locked (freeConnection c) :=
  obeys_bind (obeys_issue trivial) fun _ => obeys_bind (obeys_issue trivial) fun _ => obeys_issue trivial

theorem obeys_abortConnection : Obeys cfg queues locked (abortConnection c) :=
  obeys_bind (obeys_issue trivial) fun _ => obeys_freeConnection

theorem obeys_closeConnection : Obeys cfg queues locked (closeConnection c) :=
  obeys_bind (obeys_issue trivial) fun _ => obeys_freeConnection

theorem obeys_remove_abort : Obeys cfg queues locked (do removeEvents t c; abortConnection c) :=
  obeys_bind obeys_removeEvents fun _ => obeys_abortConnection

theorem obeys_remove_close : Obeys cfg queues locked (do removeEvents t c; closeConnection c) :=
  obeys_bind obeys_removeEvents fun _ => obeys_closeConnection

theorem obeys_newConnection : Obeys cfg queues locked newConnection := by
  refine obeys_op trivial fun x _ => ?_
  cases x with
  | none => exact obeys_pure
  | some c => exact obeys_bind (obeys_issue trivial) fun _ => obeys_pure

/-- A message whose action may be queued is sent outside the lock. -/
theorem obeys_sendMessage (hqueues : queues msg.action) : Obeys cfg queues false (sendMessage t dest msg) := by
  unfold sendMessage
  split_ifs
  · exact obeys_issue (by exact fun _ => hqueues)
  · refine obeys_op trivial fun r _ => ?_
    cases r with
    | sent => exact obeys_pure
    | again => exact obeys_issue ⟨rfl, hqueues⟩
    | failed => exact obeys_pure

theorem obeys_forwardConnection (hqueues : queues a) : Obeys cfg queues false (forwardConnection t c m a) := by
  refine obeys_op trivial fun dest _ => ?_
  cases dest with
  | none => exact obeys_abortConnection
  | some dest => exact obeys_sendMessage hqueues

/-- A thread that has the mask chooses itself, and handles the message at once. -/
theorem obeys_forwardConnection_self (hmask : cfg.mask t m = true) :
    Obeys cfg queues false (forwardConnection t c m a) := by
  refine obeys_op trivial fun dest hdest => ?_
  obtain rfl : dest = some t := hdest hmask
  dsimp only
  unfold sendMessage
  rw [if_pos rfl]
  exact obeys_issue nofun

end Obeys

/-- The programs of the protocols keep to the discipline. -/
structure Handlers.Sound {Entry Submission : Type} (H : Handlers Entry Submission) (cfg : Config)
    (queues : Action → Prop) : Prop where
  message : ∀ t msg, queues msg.action → Obeys cfg queues true (H.body t (.message msg))
  body : ∀ t f, Obeys cfg queues false (H.body t f)
  entry : ∀ t e, Obeys cfg queues false (H.entry t e)
  submit : ∀ x, Obeys cfg queues false (H.submit x)

/-! ### The invariant -/

namespace LockState

/-- The thread has the lock that it takes in `receive_message`. -/
def locked (s : LockState) : Exec → Bool
  | .thread t => (s.phase t).hasLock
  | .caller _ => false

/-- The executor is in `queue_message` with the lock of the receiver. -/
def Pushing (s : LockState) (e : Exec) (t : Thread) : Prop :=
  s.pushing e = true ∧ ∃ msg k, s.tasks e = .op (.queueMessage t msg) k

structure Inv (cfg : Config) (queues : Action → Prop) (s : LockState) : Prop where
  tasks : ∀ e, Obeys cfg queues (s.locked e) (s.tasks e)
  queued : ∀ t, ∀ msg ∈ s.queue t, queues msg.action
  held : ∀ t e, s.lock t = some e → e = .thread t ∧ s.phase t = .drain ∨ s.Pushing e t

section Inv
variable {Entry Submission : Type} {H : Handlers Entry Submission} {cfg : Config} {queues : Action → Prop}
  {s s' : LockState} {e e' : Exec} {t t' : Thread} {p : Prog Unit}

/-- A thread with its own lock is not at a push. -/
theorem Inv.not_queueMessage {msg : Message} {k : Unit → Prog Unit} (h : Inv cfg queues s)
    (hlocked : s.locked e = true) : s.tasks e ≠ .op (.queueMessage t msg) k := by
  intro htask
  have hobeys := h.tasks e
  rw [hlocked, htask] at hobeys
  cases hobeys.1.1

/-- Whoever holds a lock is not about to take one. -/
theorem Inv.wanted_eq_none (h : Inv cfg queues s) (hlock : s.lock t = some e) : s.wanted e = none := by
  unfold wanted
  rcases h.held t e hlock with ⟨rfl, hphase⟩ | ⟨hpushing, msg, k, htask⟩
  · split
    · next dest msg k htask =>
      exact absurd htask (h.not_queueMessage (by rw [locked, hphase]; rfl))
    · rfl
    · dsimp only
      rw [hphase, if_neg nofun]
  · rw [htask]
    dsimp only
    rw [if_pos hpushing]

theorem Inv.deadlockFree (h : Inv cfg queues s) : s.DeadlockFree := by
  refine ⟨fun t hlock => h.wanted_eq_none hlock, fun e hcycle => ?_⟩
  -- the executor waits, and another one waits for it
  obtain ⟨e₁, ⟨t, hwanted, -⟩, -⟩ := Relation.TransGen.head'_iff.mp hcycle
  obtain ⟨e₂, -, ⟨t', -, hlock⟩⟩ := Relation.TransGen.tail'_iff.mp hcycle
  rw [h.wanted_eq_none hlock] at hwanted
  cases hwanted

theorem Inv.initial : Inv cfg queues .initial := by
  refine ⟨fun e => obeys_pure, fun t msg hmsg => ?_, fun t e hlock => ?_⟩
  · cases hmsg
  · cases hlock

theorem obeys_of_isDone {b : Bool} (hdone : State.isDone p = true) : Obeys cfg queues b p := by
  cases p with
  | pure x => rfl
  | op o k => cases hdone

theorem not_pushing_of_isDone (hdone : State.isDone (s.tasks e) = true) : ¬s.Pushing e t := by
  rintro ⟨-, msg, k, htask⟩
  rw [htask] at hdone
  cases hdone

/-- An executor that runs nothing starts a program. -/
theorem Inv.start (h : Inv cfg queues s) (hdone : State.isDone (s.tasks e) = true)
    (hp : Obeys cfg queues (s.locked e) p) : Inv cfg queues (s.start e p) := by
  refine ⟨fun e' => ?_, h.queued, fun t e' hlock => ?_⟩
  · change Obeys cfg queues (s.locked e') (update s.tasks e p e')
    rw [update_apply]
    split_ifs with heq
    · rw [heq]
      exact hp
    · exact h.tasks e'
  · rcases h.held t e' hlock with hown | ⟨hpushing, msg, k, htask⟩
    · exact .inl hown
    · refine .inr ⟨hpushing, msg, k, ?_⟩
      have hne : e' ≠ e := by
        rintro rfl
        exact not_pushing_of_isDone hdone ⟨hpushing, msg, k, htask⟩
      exact (update_of_ne hne _ _).trans htask

/-- A thread that runs nothing and holds no lock of its own goes to another place in `mainloop`. -/
theorem Inv.setPhase (h : Inv cfg queues s) (phase : Phase) (hdone : State.isDone (s.tasks (.thread t)) = true)
    (hlock : s.lock t ≠ some (.thread t)) : Inv cfg queues { s with phase := update s.phase t phase } := by
  refine ⟨fun e => ?_, h.queued, fun t' e hheld => ?_⟩
  · cases e with
    | caller i => exact h.tasks (.caller i)
    | thread u =>
      by_cases hu : u = t
      · rw [hu]
        exact obeys_of_isDone hdone
      · have heq : locked { s with phase := update s.phase t phase } (.thread u) = s.locked (.thread u) :=
          congrArg Phase.hasLock (update_of_ne hu _ _)
        rw [heq]
        exact h.tasks (.thread u)
  · rcases h.held t' e hheld with ⟨rfl, hphase⟩ | hpushing
    · have hne : t' ≠ t := by
        rintro rfl
        exact hlock hheld
      exact .inl ⟨rfl, (update_of_ne hne _ _).trans hphase⟩
    · exact .inr hpushing

theorem Inv.setNotify {notify : Thread → List Message} (h : Inv cfg queues s) :
    Inv cfg queues { s with notify } := ⟨h.tasks, h.queued, h.held⟩

theorem Inv.setQueue {msgs : List Message} (h : Inv cfg queues s) (hmsgs : ∀ msg ∈ msgs, queues msg.action) :
    Inv cfg queues { s with queue := update s.queue t msgs } := by
  refine ⟨h.tasks, fun u msg hmsg => ?_, h.held⟩
  dsimp only at hmsg
  rw [update_apply] at hmsg
  split_ifs at hmsg
  · exact hmsgs msg hmsg
  · exact h.queued u msg hmsg

theorem Inv.receive {received : Bool} (h : Inv cfg queues s) (hH : H.Sound cfg queues) (ht : s.AtEvents cfg t) :
    Inv cfg queues (s.receive H t received) := by
  obtain ⟨-, hdone, hphase⟩ := ht
  have hlock : s.lock t ≠ some (.thread t) := by
    intro hlock
    rcases h.held t _ hlock with ⟨-, hdrain⟩ | hpushing
    · rw [hphase] at hdrain
      cases hdrain
    · exact not_pushing_of_isDone hdone hpushing
  have hphase' := h.setPhase .receive hdone hlock
  unfold LockState.receive
  split
  · refine Inv.start hphase'.setNotify hdone ?_
    have hunlocked : (update s.phase t Phase.receive t).hasLock = false := by
      rw [update_self]
      rfl
    change Obeys cfg queues (update s.phase t Phase.receive t).hasLock _
    rw [hunlocked]
    exact hH.body t _
  · exact hphase'

theorem Inv.takeLock (h : Inv cfg queues s) (hstep : s.takeLock e = some s') : Inv cfg queues s' := by
  unfold LockState.takeLock at hstep
  cases hwanted : s.wanted e with
  | none =>
    rw [hwanted] at hstep
    cases hstep
  | some dest =>
    rw [hwanted] at hstep
    dsimp only at hstep
    split_ifs at hstep with hfree hdone
    · -- a thread takes its own lock
      obtain rfl := Option.some.inj hstep
      obtain rfl : e = .thread dest := by
        unfold wanted at hwanted
        split at hwanted
        · next htask =>
          rw [htask] at hdone
          cases hdone
        · cases hwanted
        · split at hwanted
          · split_ifs at hwanted
            rw [Option.some.inj hwanted]
          · cases hwanted
      have hphase := h.setPhase .drain hdone (by rw [hfree]; nofun)
      refine ⟨hphase.tasks, h.queued, fun u e hheld => ?_⟩
      dsimp only at hheld
      rw [update_apply] at hheld
      split_ifs at hheld with hu
      · obtain rfl := Option.some.inj hheld
        rw [hu]
        exact .inl ⟨rfl, update_self _ _ _⟩
      · exact hphase.held u e hheld
    · -- a push takes the lock of the receiver
      obtain rfl := Option.some.inj hstep
      have htask : ∃ msg k, s.tasks e = .op (.queueMessage dest msg) k := by
        unfold wanted at hwanted
        split at hwanted
        · next msg k htask =>
          split_ifs at hwanted
          rw [← Option.some.inj hwanted]
          exact ⟨msg, k, htask⟩
        · cases hwanted
        · next htask =>
          rw [htask] at hdone
          exact absurd rfl hdone
      refine ⟨h.tasks, h.queued, fun u e' hheld => ?_⟩
      dsimp only at hheld
      rw [update_apply] at hheld
      split_ifs at hheld with hu
      · obtain rfl := Option.some.inj hheld
        rw [hu]
        exact .inr ⟨update_self _ _ _, htask⟩
      · refine (h.held u e' hheld).imp id fun hpushing => ⟨?_, hpushing.2⟩
        dsimp only
        rw [update_apply]
        split_ifs
        · rfl
        · exact hpushing.1

theorem Inv.drainNext (h : Inv cfg queues s) (hH : H.Sound cfg queues)
    (hdone : State.isDone (s.tasks (.thread t)) = true) (hphase : s.phase t = .drain) :
    Inv cfg queues (s.drainNext H t) := by
  have hlocked : s.locked (.thread t) = true := by
    rw [locked, hphase]
    rfl
  unfold LockState.drainNext
  split
  · next msg msgs hqueue =>
    have hmem := h.queued t
    rw [hqueue] at hmem
    refine Inv.start (h.setQueue fun msg' hmsg => hmem msg' (List.mem_cons_of_mem _ hmsg)) hdone ?_
    change Obeys cfg queues (s.locked (.thread t)) _
    rw [hlocked]
    exact hH.message t msg (hmem msg List.mem_cons_self)
  · have hunlock : Inv cfg queues { s with lock := update s.lock t none } := by
      refine ⟨h.tasks, h.queued, fun u e hheld => ?_⟩
      dsimp only at hheld
      rw [update_apply] at hheld
      split_ifs at hheld
      exact h.held u e hheld
    have hfree : update s.lock t none t ≠ some (Exec.thread t) := by
      rw [update_self]
      nofun
    exact hunlock.setPhase .events hdone hfree

/-- An operation changes the messages on the sockets, or it is a push that gives the lock back. -/
theorem exec_cases {o : Op} {a : Answer o} (h : s.exec cfg e o a = some s') : GoodChoice cfg o a ∧
    ((∃ notify, s' = { s with notify }) ∧ (∀ dest msg, o ≠ .queueMessage dest msg) ∨
      ∃ dest msg, o = .queueMessage dest msg ∧ s.lock dest = some e ∧ s' = { s with
        queue := update s.queue dest (s.queue dest ++ [msg])
        lock := update s.lock dest none
        pushing := update s.pushing e false }) := by
  cases o with
  | sendNotify dest msg =>
    refine ⟨trivial, .inl ⟨?_, nofun⟩⟩
    cases a with
    | sent => exact ⟨_, (Option.some.inj h).symm⟩
    | again | failed => exact ⟨s.notify, (Option.some.inj h).symm⟩
  | queueMessage dest msg =>
    dsimp only [LockState.exec] at h
    split_ifs at h with hlock
    exact ⟨trivial, .inr ⟨dest, msg, rfl, hlock.2, (Option.some.inj h).symm⟩⟩
  | chooseThread t m =>
    dsimp only [LockState.exec] at h
    split_ifs at h with hmask hdest hall
    · exact ⟨fun _ => hdest, .inl ⟨⟨s.notify, (Option.some.inj h).symm⟩, nofun⟩⟩
    · exact ⟨fun habs => absurd habs hmask, .inl ⟨⟨s.notify, (Option.some.inj h).symm⟩, nofun⟩⟩
  | engineChooseThread m =>
    dsimp only [LockState.exec] at h
    split_ifs at h with hall
    exact ⟨hall, .inl ⟨⟨s.notify, (Option.some.inj h).symm⟩, nofun⟩⟩
  | _ => exact ⟨trivial, .inl ⟨⟨s.notify, (Option.some.inj h).symm⟩, nofun⟩⟩

/-- What follows an operation is the rest of the program, behind the function that the operation calls. -/
theorem obeys_enter {o : Op} {rest : Prog Unit} {b : Bool} (hH : H.Sound cfg queues) (ho : MayIssue queues b o)
    (hrest : Obeys cfg queues b rest) : Obeys cfg queues b (H.enter o rest) := by
  cases o with
  | call t f =>
    refine obeys_bind ?_ fun _ => hrest
    cases b with
    | false => exact hH.body t f
    | true =>
      cases f with
      | message msg => exact hH.message t msg (ho rfl)
      | connection c revents => cases ho
      | accept => cases ho
  | _ => exact hrest

theorem Inv.perform {o : Op} {a : Answer o} {rest : Prog Unit} {t : LockState} (h : Inv cfg queues s)
    (hH : H.Sound cfg queues) (hrest : (s.tasks e).resume o a = some rest) (hexec : s.exec cfg e o a = some t) :
    Inv cfg queues (t.start e (H.enter o rest)) := by
  obtain ⟨hgood, hcases⟩ := exec_cases hexec
  obtain ⟨hallowed, hnext⟩ := Discipline.Triple.resume (h.tasks e) hrest
  have hprog : Obeys cfg queues (s.locked e) (H.enter o rest) :=
    obeys_enter hH hallowed (hnext (s.locked e) ⟨rfl, hgood⟩)
  have hothers : ∀ t' : LockState, t'.locked = s.locked → t'.tasks = s.tasks →
      ∀ e', Obeys cfg queues ((t'.start e (H.enter o rest)).locked e') ((t'.start e (H.enter o rest)).tasks e') := by
    intro t' hlocked htasks e'
    have hlocked' : (t'.start e (H.enter o rest)).locked = s.locked := hlocked
    rw [hlocked', LockState.start, htasks]
    dsimp only
    rw [update_apply]
    split_ifs with heq
    · rw [heq]
      exact hprog
    · exact h.tasks e'
  obtain ⟨k, htask, -⟩ := Program.resume_eq_some.mp hrest
  rcases hcases with ⟨⟨notify, rfl⟩, hother⟩ | ⟨dest, msg, rfl, hlock, rfl⟩
  · refine ⟨hothers _ rfl rfl, h.queued, fun u e' hheld => ?_⟩
    refine (h.held u e' hheld).imp id fun ⟨hpushing, msg, k', htask'⟩ => ⟨hpushing, msg, k', ?_⟩
    refine (update_of_ne ?_ _ _).trans htask'
    rintro rfl
    rw [htask] at htask'
    cases htask'
    exact hother _ _ rfl
  · refine ⟨hothers _ rfl rfl, ?_, fun u e' hheld => ?_⟩
    · intro u msg' hmsg
      dsimp only [LockState.start] at hmsg
      rw [update_apply] at hmsg
      split_ifs at hmsg with hu
      · rcases List.mem_append.mp hmsg with hold | hnew
        · exact h.queued dest msg' hold
        · rw [List.mem_singleton.mp hnew]
          exact hallowed.2
      · exact h.queued u msg' hmsg
    · dsimp only [LockState.start] at hheld
      rw [update_apply] at hheld
      split_ifs at hheld with hu
      rcases h.held u e' hheld with hown | ⟨hpushing, msg', k', htask'⟩
      · exact .inl hown
      · have hne : e' ≠ e := by
          rintro rfl
          rw [htask] at htask'
          cases htask'
          exact hu rfl
        exact .inr ⟨(update_of_ne hne _ _).trans hpushing, msg', k', (update_of_ne hne _ _).trans htask'⟩

theorem Inv.step {l : LockLabel Entry Submission} (h : Inv cfg queues s) (hH : H.Sound cfg queues)
    (hstep : s.step H cfg l = some s') : Inv cfg queues s' := by
  cases l with
  | entry t e =>
    dsimp only [LockState.step] at hstep
    split_ifs at hstep with ht
    obtain rfl := Option.some.inj hstep
    refine h.start ht.2.1 ?_
    rw [locked, ht.2.2]
    exact hH.entry t e
  | receive t received =>
    dsimp only [LockState.step] at hstep
    split_ifs at hstep with ht
    obtain rfl := Option.some.inj hstep
    exact h.receive hH ht
  | lock e => exact h.takeLock hstep
  | drain t =>
    dsimp only [LockState.step] at hstep
    split_ifs at hstep with ht
    obtain rfl := Option.some.inj hstep
    exact h.drainNext hH ht.1 ht.2
  | perform e o a =>
    obtain ⟨rest, hrest, hstep⟩ := Option.bind_eq_some_iff.mp hstep
    obtain ⟨t, hexec, hstep⟩ := Option.bind_eq_some_iff.mp hstep
    obtain rfl := Option.some.inj hstep
    exact h.perform hH hrest hexec
  | submit i x =>
    dsimp only [LockState.step] at hstep
    split_ifs at hstep with hdone
    obtain rfl := Option.some.inj hstep
    exact h.start hdone (hH.submit x)

theorem deadlockFree_of_reaches {ok : LockState → LockLabel Entry Submission → Prop} (hH : H.Sound cfg queues)
    (h : (H.lockMachine cfg).Reaches ok s) : s.DeadlockFree := by
  refine Inv.deadlockFree (Machine.Reaches.invariant (P := Inv cfg queues) ?_ ?_ h)
  · rintro s rfl
    exact .initial
  · intro s l s' hs _ hstep
    exact hs.step hH hstep

end Inv
end LockState

end Latypus.Engine
