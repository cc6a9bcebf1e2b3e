import Latypus.Engine.Runs

/-! The engine with its clocks: the `current_time` of each thread, which it takes when it polls, and the
`last_activity` of each connection. `mainloop` sweeps over a copy of its pollset, and a connection of the
copy is followed until the sweep is over: it waits for its turn, is looked at, is out of the pollset in the
hands of the thread, or has not been idle for longer than both timeouts. -/

namespace Latypus.Engine
open Lib Function

structure Timeouts where
  connectionTimeout : Int
  keepaliveTimeout : Int

def Timeouts.longest (x : Timeouts) : Int := max x.connectionTimeout x.keepaliveTimeout

/-- The connection whose last activity a function sets at its start. -/
def Call.touches : Call → Option Slot
  | .message msg => some msg.conn
  | .connection c revents =>
    if revents &&& pollEventHup ≠ 0 ∨ revents &&& pollEventErr ≠ 0 ∨ revents &&& pollEventInvalid ≠ 0 then none
    else some c
  | .accept => none

/-- The connection whose last activity is set by the next thing that a thread does. -/
def State.touches (s : State) (t : Thread) (received : Bool) : Option Slot :=
  match s.todo t with
  | .ipc :: _ => if received then (s.notify t).head?.map Message.conn else none
  | .drain :: _ => (s.queue t).head?.map Message.conn
  | .conn c revents :: _ => (Call.connection c revents).touches
  | _ => none

/-- The connections of a pollset. -/
def State.objects (s : State) (t : Thread) : List Slot := (s.pollset t).map Prod.snd

/-- The connection that goes to the free list or into a message. -/
def Op.releases : Op → Option Slot
  | .pushFree c => some c
  | .sendNotify _ msg | .queueMessage _ msg => some msg.conn
  | _ => none

structure Clocked where
  state : State
  lastActivity : Slot → Int
  currentTime : Thread → Int
  /-- `pollobjects_copy` of a thread that has not polled again, less the connections that were freed or sent
  away since. -/
  swept : Thread → List Slot

namespace Clocked

/-- For how long a connection has been idle at the time of a thread. -/
def idle (s : Clocked) (t : Thread) (c : Slot) : Int := s.currentTime t - s.lastActivity c

def setLastActivity (s : Clocked) : Option (Slot × Int) → Slot → Int
  | some (c, time) => update s.lastActivity c time
  | none => s.lastActivity

/-- What an operation does to the last activity; `init` resets the connection. -/
def stamp (s : Clocked) : (o : Op) → Answer o → Option (Slot × Int)
  | .init c, _ => some (c, 0)
  | .getNewConnectionForUrl _, some c => some (c, 0)
  | .call t f, _ => f.touches.map (·, s.currentTime t)
  | _, _ => none

def beginSweep (s : Clocked) (t : Thread) : Thread → List Slot :=
  match s.state.todo t with
  | .sweep :: _ => update s.swept t (s.state.objects t)
  | _ => s.swept

/-- The two conditions that a thread reads off its clock. -/
def answers (x : Timeouts) (s : Clocked) : Exec → (o : Op) → Answer o → Bool
  | .thread t, .test .connectionTimeout c, a => a == decide (x.connectionTimeout < s.idle t c)
  | .thread t, .test .keepaliveTimeout c, a => a == decide (x.keepaliveTimeout < s.idle t c)
  | _, _, _ => true

def performed (s : Clocked) (state : State) (o : Op) (a : Answer o) : Clocked :=
  { s with
    state
    lastActivity := s.setLastActivity (s.stamp o a)
    swept := fun t => (s.swept t).filter (o.releases ≠ some ·) }

/-- A step of the engine; `time` is what the clock says to a thread that polls. -/
def step (proto : Protocol) (cfg : Config) (x : Timeouts) (s : Clocked) (l : Label) (time : Int) : Option Clocked := do
  let state ← s.state.step proto cfg l
  match l with
  | .perform e o a =>
    if s.answers x e o a then some (s.performed state o a) else none
  | .poll t _ _ =>
    some { s with state, currentTime := update s.currentTime t time, swept := update s.swept t [] }
  | .next t received =>
    some { s with
      state
      lastActivity := s.setLastActivity ((s.state.touches t received).map (·, s.currentTime t))
      swept := s.beginSweep t }
  | .submit _ _ _ => some { s with state }

/-- The engine after `init`; a connection that was never active has the time 0. -/
def initial (numConnections : Nat) : Clocked where
  state := .initial numConnections
  lastActivity := fun _ => 0
  currentTime := fun _ => 0
  swept := fun _ => []

/-- The thread has done everything that it had to do before it polls again. -/
def IsThrough (s : Clocked) (t : Thread) : Prop :=
  s.state.todo t = [] ∧ State.isDone (s.state.tasks (.thread t)) = true

/-- After a sweep no connection that is still in the pollset has been idle for longer than the timeouts. -/
def SweepCovers (x : Timeouts) (s : Clocked) : Prop :=
  ∀ t, s.IsThrough t → ∀ c ∈ s.swept t, c ∈ s.state.objects t → s.idle t c ≤ x.longest

/-- A connection that the sweep finds in a state without a timeout has not been idle for longer than the
timeouts, and one that the thread takes over from itself is not idle for too long from the start. -/
def InTime (times : ConnState → Bool) (x : Timeouts) (s : Clocked) : Label → Prop
  | .perform (.thread t) (.getState c) state => c ∈ s.swept t → times state = true ∨ s.idle t c ≤ x.longest
  | .perform (.thread t) (.call _ (.message msg)) _ => msg.conn ∈ s.swept t → 0 ≤ x.longest
  | _ => True

/-- The condition on the steps of a run. -/
def GoodTimes (times : ConnState → Bool) (x : Timeouts) (s : Clocked) (l : Label × Int) : Prop :=
  GoodStep s.state l.1 ∧ s.InTime times x l.1

end Clocked

def Protocol.clockMachine (proto : Protocol) (cfg : Config) (x : Timeouts) : Machine Clocked (Label × Int) where
  init s := ∃ numConnections, s = .initial numConnections
  step s l := s.step proto cfg x l.1 l.2

/-! ### The programs of a sweep -/

/-- What a thread knows of the connection that it times out. -/
inductive Stage
  /-- Perhaps it has been idle for too long. -/
  | due (c : Slot)
  /-- It is out of the pollset. -/
  | out (c : Slot)
  /-- The thread has it back by a message to itself. -/
  | back (c : Slot)
  | done

/-- What a program of a sweep may do; `keeps` are the actions that a thread may send to itself. -/
def Stage.allowed (keeps : Action → Prop) (t : Thread) : Stage → Op → Prop
  | .due c, .getState c' => c' = c
  | .due c, .test q c' => c' = c ∧ (q = .connectionTimeout ∨ q = .keepaliveTimeout)
  | .due c, .removeEvents t' c' => t' = t ∧ c' = c
  | .out _, .chooseThread _ _ | .out _, .close _ | .out _, .setState _ _ | .out _, .setHandler _ _ => True
  | .out c, .pushFree c' => c' = c
  | .out c, .sendNotify _ msg | .out c, .queueMessage _ msg => msg.conn = c
  | .out c, .call t' (.message msg) => t' = t ∧ msg.conn = c ∧ keeps msg.action
  | .back _, .setState _ _ | .back _, .startLingeringClose _ => True
  | .back c, .addEvents t' c' _ => t' = t ∧ c' = c
  | _, _ => False

def Stage.next (times : ConnState → Bool) : Stage → (o : Op) → Answer o → Stage
  | .due c, .getState _, state => if times state then .due c else .done
  | .due c, .test _ _, late => if late then .due c else .done
  | .due c, .removeEvents _ _, _ => .out c
  | .out c, .sendNotify _ _, .again => .out c
  | .out _, .sendNotify _ _, _ => .done
  | .out _, .pushFree _, _ | .out _, .queueMessage _ _, _ | .out _, .call _ _, _ => .done
  | .back _, .addEvents _ _ _, _ => .done
  | st, _, _ => st

def sweepDiscipline (times : ConnState → Bool) (keeps : Action → Prop) (t : Thread) : Discipline Answer Stage where
  allowed := Stage.allowed keeps t
  next st o a st' := st' = st.next times o a

/-- A program of a sweep leaves no connection that has been idle for too long. -/
def Sweeps (times : ConnState → Bool) (keeps : Action → Prop) (t : Thread) (p : Prog Unit) (st : Stage) : Prop :=
  (sweepDiscipline times keeps t).Triple (fun _ st' => st' = .done) p st

section Sweeps
variable {times : ConnState → Bool} {keeps : Action → Prop} {t dest : Thread} {c : Slot} {α : Type} {m : Mask}
  {a : Action}

theorem sweeps_issue {st : Stage} {o : Op} {f : Answer o → Prog Unit} (ho : st.allowed keeps t o)
    (hf : ∀ x, Sweeps times keeps t (f x) (st.next times o x)) : Sweeps times keeps t (issue o >>= f) st := by
  refine Discipline.triple_perform ho ?_
  rintro x _ rfl
  exact hf x

theorem sweeps_last {st : Stage} {o : Op} {f : Answer o → Unit} (ho : st.allowed keeps t o)
    (hdone : ∀ x, st.next times o x = .done) : Sweeps times keeps t (issue o >>= fun x => pure (f x)) st :=
  sweeps_issue ho hdone

theorem sweeps_done : Sweeps times keeps t (pure ()) .done := rfl

theorem sweeps_freeConnection : Sweeps times keeps t (freeConnection c) (.out c) :=
  sweeps_issue trivial fun _ => sweeps_issue trivial fun _ => sweeps_last rfl fun _ => rfl

theorem sweeps_abortConnection : Sweeps times keeps t (abortConnection c) (.out c) :=
  sweeps_issue trivial fun _ => sweeps_freeConnection

theorem sweeps_closeConnection : Sweeps times keeps t (closeConnection c) (.out c) :=
  sweeps_issue trivial fun _ => sweeps_freeConnection

theorem sweeps_removeEvents {p : Prog Unit} (hp : Sweeps times keeps t p (.out c)) :
    Sweeps times keeps t (do removeEvents t c; p) (.due c) :=
  sweeps_issue (o := .removeEvents t c) ⟨rfl, rfl⟩ fun _ => hp

theorem sweeps_sendMessage (ha : keeps a) : Sweeps times keeps t (sendMessage t dest ⟨a, c⟩) (.out c) := by
  unfold sendMessage
  split_ifs
  · exact sweeps_last (o := .call t (.message ⟨a, c⟩)) ⟨rfl, rfl, ha⟩ fun _ => rfl
  · refine sweeps_issue (o := .sendNotify dest ⟨a, c⟩) rfl fun r => ?_
    cases r with
    | sent | failed => exact sweeps_done
    | again => exact sweeps_last (o := .queueMessage dest ⟨a, c⟩) rfl fun _ => rfl

theorem sweeps_forwardConnection (ha : keeps a) : Sweeps times keeps t (forwardConnection t c m a) (.out c) := by
  refine sweeps_issue (o := .chooseThread t m) trivial fun dest => ?_
  cases dest with
  | none => exact sweeps_abortConnection
  | some dest => exact sweeps_sendMessage ha

/-- A look at the clock, and what follows for a connection that is late. -/
theorem sweeps_timeout {q : Cond} {p : Prog Unit} (hq : q = .connectionTimeout ∨ q = .keepaliveTimeout)
    (hp : Sweeps times keeps t p (.out c)) : Sweeps times keeps t (do
      if ← test q c then
        removeEvents t c
        p) (.due c) := by
  refine sweeps_issue (o := .test q c) ⟨rfl, hq⟩ fun late => ?_
  cases late with
  | true => exact sweeps_removeEvents hp
  | false => exact sweeps_done

end Sweeps

/-- The programs that a protocol runs in a sweep. -/
structure Protocol.TimesOut (proto : Protocol) (times : ConnState → Bool) (keeps : Action → Prop) : Prop where
  timeout : ∀ t c, Sweeps times keeps t (proto.timeoutConnection t c) (.due c)
  message : ∀ t msg, keeps msg.action → Sweeps times keeps t (proto.handleMessage t msg) (.back msg.conn)

/-! ### The connections of a sweep -/

namespace State
variable {cfg : Config} {s s' : State} {o : Op} {a : Answer o} {t : Thread} {c : Slot}

theorem exec_todo (h : s.exec cfg o a = some s') : s'.todo = s.todo := by
  cases o <;> simp only [exec, Option.map_eq_some_iff] at h <;>
    grind [modifyConn, closeSock, openSock, initConn]

/-- Only `remove_events` takes a connection out of a pollset. -/
theorem mem_objects_of_exec (h : s.exec cfg o a = some s') (hc : c ∈ s.objects t)
    (ho : ∀ c', o ≠ .removeEvents t c') : c ∈ s'.objects t := by
  have hsame : s'.pollset = s.pollset → c ∈ s'.objects t := by
    intro heq
    rw [objects, heq]
    exact hc
  cases o with
  | addEvents u c' events =>
    obtain ⟨fd, -, rfl⟩ := Option.map_eq_some_iff.mp h
    dsimp only [objects]
    rw [update_apply]
    split_ifs with heq
    · subst heq
      unfold addObject
      split_ifs
      · exact hc
      · have hperm := (List.perm_orderedInsert (fun x y : Fd × Slot => x.1 ≤ y.1) (fd, c') (s.pollset t)).map Prod.snd
        exact hperm.mem_iff.mpr (List.mem_cons_of_mem _ hc)
    · exact hc
  | removeEvents u c' =>
    obtain ⟨fd, -, rfl⟩ := Option.map_eq_some_iff.mp h
    have hne : t ≠ u := by
      rintro rfl
      exact ho c' rfl
    dsimp only [objects]
    rw [update_of_ne hne]
    exact hc
  | _ =>
    refine hsame ?_
    simp only [exec] at h
    grind [modifyConn, closeSock, openSock, initConn]

end State

/-- Where a connection of the copy is. -/
def Clocked.Tracked (x : Timeouts) (s : Clocked) (t : Thread) (st : Stage) (P : Pos) (c : Slot) : Prop :=
  c ∈ s.state.objects t ∧ (c ∈ s.state.pending t ∨ st = .due c ∨ s.idle t c ≤ x.longest) ∨
    P.Hands c ∧ (st = .out c ∨ st = .back c ∧ s.idle t c ≤ x.longest)

/-- A thread with a copy of its pollset is in its sweep, or through with it. -/
structure Clocked.Sweeping (times : ConnState → Bool) (keeps : Action → Prop) (x : Timeouts) (s : Clocked)
    (t : Thread) (st : Stage) (P : Pos) : Prop where
  todo : ∀ item ∈ s.state.todo t, ∃ c, item = .timeout c
  task : Sweeps times keeps t (s.state.tasks (.thread t)) st
  tracked : ∀ c ∈ s.swept t, s.Tracked x t st P c

section Sweeping
variable {cfg : Config} {R : Rules} {proto : Protocol} {times : ConnState → Bool} {keeps : Action → Prop}
  {x : Timeouts} {s s' : Clocked} {t : Thread} {st : Stage} {P P' : Pos} {c : Slot} {e : Exec} {o : Op}
  {a : Answer o} {owner : Slot → Owner} {pos : Exec → Pos}

theorem Clocked.Tracked.frame (h : s.Tracked x t st P c) (hobjects : c ∈ s.state.objects t → c ∈ s'.state.objects t)
    (hpending : s'.state.pending t = s.state.pending t) (hidle : s'.idle t c = s.idle t c) :
    s'.Tracked x t st P c := by
  unfold Clocked.Tracked
  rw [hpending, hidle]
  exact h.imp (And.imp_left hobjects) id

/-- What the others do is nothing to the sweep. -/
theorem Clocked.Sweeping.frame (h : s.Sweeping times keeps x t st P) (htodo : s'.state.todo t = s.state.todo t)
    (htask : s'.state.tasks (.thread t) = s.state.tasks (.thread t)) (hswept : ∀ c ∈ s'.swept t, c ∈ s.swept t)
    (hobjects : ∀ c ∈ s.state.objects t, c ∈ s'.state.objects t)
    (hidle : ∀ c ∈ s'.swept t, s'.idle t c = s.idle t c) : s'.Sweeping times keeps x t st P := by
  refine ⟨?_, ?_, fun c hc => ?_⟩
  · rw [htodo]
    exact h.todo
  · rw [htask]
    exact h.task
  · refine (h.tracked c (hswept c hc)).frame (hobjects c) ?_ (hidle c hc)
    rw [State.pending, htodo]
    rfl

/-- The owner of a connection of the copy. -/
theorem Clocked.Tracked.owned (h : s.Tracked x t st (pos (.thread t)) c) (hinv : Inv cfg R s.state owner pos) :
    owner c = .poll t ∨ owner c = .held (.thread t) := by
  rcases h with ⟨hc, -⟩ | ⟨⟨state, sock, request, hP⟩, -⟩
  · obtain ⟨⟨fd, c'⟩, hmem, rfl⟩ := List.mem_map.mp hc
    exact .inl ((hinv.mem_pollset t fd c').mp hmem).1
  · have hholds := hinv.holds (.thread t)
    rw [hP] at hholds
    exact .inr hholds.1

theorem setLastActivity_of_ne {stamp : Option (Slot × Int)} (h : ∀ time, stamp ≠ some (c, time)) :
    s.setLastActivity stamp c = s.lastActivity c := by
  cases stamp with
  | none => rfl
  | some y =>
    obtain ⟨c', time⟩ := y
    refine update_of_ne ?_ _ _
    rintro rfl
    exact h time rfl

/-- Whoever sets the last activity of a connection has it, or takes it from the free list. -/
theorem owner_of_stamp {time : Int} {state : State} (hinv : Inv cfg R s.state owner pos)
    (ho : R.allowed cfg (pos e) o) (hexec : s.state.exec cfg o a = some state) (h : s.stamp o a = some (c, time)) :
    owner c = .free ∨ owner c = .held e ∨ ∃ u, e = .thread u ∧ owner c = .poll u := by
  have hholds := hinv.holds e
  cases o with
  | init c' =>
    cases h
    obtain ⟨request, hP⟩ := ho
    rw [hP] at hholds
    exact .inr (.inl hholds.1)
  | getNewConnectionForUrl url =>
    cases a with
    | none => cases h
    | some c' =>
      cases h
      obtain ⟨hlast, -⟩ := Option.ite_none_right_eq_some.mp hexec
      exact .inl ((hinv.mem_free c).mp (List.mem_of_getLast? hlast.symm))
  | call u f =>
    obtain ⟨c', htouches, heq⟩ := Option.map_eq_some_iff.mp h
    cases heq
    cases f with
    | message msg =>
      cases htouches
      rcases ho with ⟨state, sock, request, m, hP, -⟩ | ⟨hP, -⟩
      · rw [hP] at hholds
        exact .inr (.inl hholds.1)
      · rw [hP] at hholds
        exact .inr (.inr ⟨u, hholds.1, hholds.2.1⟩)
    | connection c' revents =>
      dsimp only [Call.touches] at htouches
      split_ifs at htouches
      cases htouches
      have hP : pos e = .reg u c := ho
      rw [hP] at hholds
      exact .inr (.inr ⟨u, hholds.1, hholds.2.1⟩)
    | accept => cases htouches
  | _ => cases h

theorem Clocked.Tracked.of_ne (h : s.Tracked x t st P c) (hdue : st ≠ .due c) (hout : st ≠ .out c)
    (hback : st ≠ .back c) : c ∈ s.state.objects t ∧ (c ∈ s.state.pending t ∨ s.idle t c ≤ x.longest) := by
  rcases h with ⟨hc, hpending | hst | hidle⟩ | ⟨-, hst | ⟨hst, -⟩⟩
  · exact ⟨hc, .inl hpending⟩
  · exact absurd hst hdue
  · exact ⟨hc, .inr hidle⟩
  · exact absurd hst hout
  · exact absurd hst hback

theorem Clocked.Tracked.stays {state : State} (h : s.Tracked x t st P c) (htodo : state.todo = s.state.todo)
    (hobjects : c ∈ s.state.objects t → c ∈ state.objects t) (hstamp : ∀ time, s.stamp o a ≠ some (c, time))
    (hhands : P.Hands c → P'.Hands c) : (s.performed state o a).Tracked x t st P' c := by
  have hpending : state.pending t = s.state.pending t := by rw [State.pending, htodo]; rfl
  have hidle : (s.performed state o a).idle t c = s.idle t c := by
    unfold Clocked.idle
    exact congrArg (s.currentTime t - ·) (setLastActivity_of_ne hstamp)
  have hmoved : (s.performed state o a).Tracked x t st P c := h.frame hobjects hpending hidle
  exact hmoved.imp id (And.imp_left hhands)

/-- A connection that the thread is not at stays where it is. -/
theorem Clocked.Tracked.performed {state : State} (h : s.Tracked x t st P c) (hdue : st ≠ .due c) (hout : st ≠ .out c)
    (hback : st ≠ .back c) (hobjects : c ∈ state.objects t) (htodo : state.todo = s.state.todo)
    (hstamp : ∀ time, s.stamp o a ≠ some (c, time)) {st' : Stage} :
    (s.performed state o a).Tracked x t st' P' c := by
  obtain ⟨hregistered, hrest⟩ := (h.stays htodo (fun _ => hobjects) hstamp id).of_ne hdue hout hback
  exact .inl ⟨hregistered, hrest.imp id .inr⟩

theorem Inv.mem_objects_addEvents {s s' : State} {events : Nat} {u : Unit} (hinv : Inv cfg R s owner pos)
    (hc : owner c = .held e) (h : s.exec cfg (.addEvents t c events) u = some s') : c ∈ s'.objects t := by
  obtain ⟨fd, hfd, rfl⟩ := Option.map_eq_some_iff.mp h
  dsimp only [State.objects]
  rw [update_self]
  exact List.mem_map_of_mem ((State.mem_addObject (hinv.fd_not_mem hc hfd)).mpr (.inl rfl))

/-- Of a pollset `remove_events` takes its connection only. -/
theorem Inv.mem_objects_removeEvents {s s' : State} {c' : Slot} {ok : Bool} (hinv : Inv cfg R s owner pos)
    (hc : c ∈ s.objects t) (hne : c ≠ c') (h : s.exec cfg (.removeEvents t c') ok = some s') : c ∈ s'.objects t := by
  obtain ⟨fd, hfd, rfl⟩ := Option.map_eq_some_iff.mp h
  dsimp only [State.objects]
  rw [update_self]
  unfold State.removeObject
  split_ifs
  · obtain ⟨⟨fd', c⟩, hmem, rfl⟩ := List.mem_map.mp hc
    refine List.mem_map.mpr ⟨(fd', c), List.mem_filter.mpr ⟨hmem, ?_⟩, rfl⟩
    obtain ⟨-, hfd'⟩ := (hinv.mem_pollset t fd' c).mp hmem
    obtain ⟨sock, hsock, rfl⟩ := Option.map_eq_some_iff.mp hfd
    obtain ⟨sock', hsock', rfl⟩ := Option.map_eq_some_iff.mp hfd'
    have hdiff : sock'.fd ≠ sock.fd := fun hsame => hne (hinv.fd_inj c c' sock' sock hsock' hsock hsame)
    exact decide_eq_true hdiff
  · exact hc

theorem idle_le_of_answers {q : Cond} (hq : q = .connectionTimeout ∨ q = .keepaliveTimeout)
    (h : s.answers x (.thread t) (.test q c) false = true) : s.idle t c ≤ x.longest := by
  rcases hq with rfl | rfl
  · have hidle : ¬x.connectionTimeout < s.idle t c := decide_eq_false_iff_not.mp (beq_iff_eq.mp h).symm
    exact (not_lt.mp hidle).trans (le_max_left _ _)
  · have hidle : ¬x.keepaliveTimeout < s.idle t c := decide_eq_false_iff_not.mp (beq_iff_eq.mp h).symm
    exact (not_lt.mp hidle).trans (le_max_right _ _)

section Perform
variable {state : State} {c₀ : Slot}

/-- The connection that is looked at stays, or it has not been idle for too long, or it goes out. -/
theorem Clocked.Tracked.perform_due (h : s.Tracked x t (.due c₀) P c) (hc : c ∈ s.swept t)
    (hallowed : (Stage.due c₀).allowed keeps t o) (hinv : Inv cfg R s.state owner pos)
    (hexec : s.state.exec cfg o a = some state) (hanswers : s.answers x (.thread t) o a = true)
    (hok : s.InTime times x (.perform (.thread t) o a)) (hafter : R.after cfg P o a P') :
    (s.performed state o a).Tracked x t ((Stage.due c₀).next times o a) P' c := by
  have htodo := State.exec_todo hexec
  have hother : c ≠ c₀ → c ∈ state.objects t → (∀ time, s.stamp o a ≠ some (c, time)) →
      ∀ st', (s.performed state o a).Tracked x t st' P' c := by
    intro hne hobjects hstamp st'
    refine h.performed (fun hdue => hne ?_) nofun nofun hobjects htodo hstamp
    cases hdue
    rfl
  have hregistered : c ∈ s.state.objects t := by
    rcases h with ⟨hobjects, -⟩ | ⟨-, hout | ⟨hback, -⟩⟩
    · exact hobjects
    · cases hout
    · cases hback
  cases o with
  | getState c' =>
    obtain rfl : c' = c₀ := hallowed
    obtain ⟨rfl, hstate⟩ := Option.ite_none_right_eq_some.mp hexec
    obtain rfl := Option.some.inj hstate
    by_cases hne : c = c'
    · subst hne
      cases htimes : times (s.state.conns c).state with
      | true =>
        dsimp only [Stage.next]
        rw [htimes]
        exact .inl ⟨hregistered, .inr (.inl rfl)⟩
      | false =>
        refine .inl ⟨hregistered, .inr (.inr ((hok hc).resolve_left ?_))⟩
        rw [htimes]
        nofun
    · exact hother hne hregistered nofun _
  | test q c' =>
    obtain ⟨rfl, hq⟩ := hallowed
    obtain rfl := Option.some.inj hexec
    by_cases hne : c = c'
    · subst hne
      cases a with
      | true => exact .inl ⟨hregistered, .inr (.inl rfl)⟩
      | false => exact .inl ⟨hregistered, .inr (.inr (idle_le_of_answers hq hanswers))⟩
    · exact hother hne hregistered nofun _
  | removeEvents u c' =>
    obtain ⟨rfl, rfl⟩ := hallowed
    by_cases hne : c = c'
    · subst hne
      obtain rfl : P' = .hand c none true none := hafter
      exact .inr ⟨⟨_, _, _, rfl⟩, .inl rfl⟩
    · exact hother hne (hinv.mem_objects_removeEvents hregistered hne hexec) nofun _
  | _ => exact False.elim hallowed

/-- A connection that is out of the pollset stays in the hands of the thread until it is released. -/
theorem Clocked.Tracked.perform_out (h : s.Tracked x t (.out c₀) P c) (hreleases : o.releases ≠ some c)
    (hallowed : (Stage.out c₀).allowed keeps t o) (hcall : ∀ u f, o ≠ .call u f)
    (hexec : s.state.exec cfg o a = some state) (hafter : R.after cfg P o a P') :
    (s.performed state o a).Tracked x t ((Stage.out c₀).next times o a) P' c := by
  have htodo := State.exec_todo hexec
  have hremove : ∀ c', o ≠ .removeEvents t c' := by
    rintro c' rfl
    exact hallowed
  have hobjects := fun hc => State.mem_objects_of_exec (c := c) hexec hc hremove
  have hother : c ≠ c₀ → (∀ time, s.stamp o a ≠ some (c, time)) → ∀ st', (s.performed state o a).Tracked x t st' P' c := by
    intro hne hstamp st'
    have hout : Stage.out c₀ ≠ .out c := by
      intro hout
      cases hout
      exact hne rfl
    exact h.performed nofun hout nofun (hobjects (h.of_ne nofun hout nofun).1) htodo hstamp
  cases o with
  | chooseThread u m =>
    obtain ⟨rfl, -⟩ := hafter
    exact h.stays htodo hobjects nofun id
  | close c' =>
    obtain rfl : P' = P.withSock false := hafter
    exact h.stays htodo hobjects nofun Pos.Hands.withSock
  | setState c' y =>
    obtain rfl : P' = P.withState c' y := hafter
    exact h.stays htodo hobjects nofun Pos.Hands.withState
  | setHandler c' handler =>
    obtain rfl : P' = P := hafter
    exact h.stays htodo hobjects nofun id
  | pushFree c' =>
    obtain rfl : c' = c₀ := hallowed
    exact hother (fun heq => hreleases (congrArg some heq.symm)) nofun _
  | sendNotify dest msg | queueMessage dest msg =>
    obtain rfl : msg.conn = c₀ := hallowed
    exact hother (fun heq => hreleases (congrArg some heq.symm)) nofun _
  | call u f => exact absurd rfl (hcall u f)
  | _ => exact False.elim hallowed

/-- A connection that the thread has back has just been active, and goes into the pollset. -/
theorem Clocked.Tracked.perform_back (h : s.Tracked x t (.back c₀) P c) (hallowed : (Stage.back c₀).allowed keeps t o)
    (hinv : Inv cfg R s.state owner pos) (hP : pos e = P) (hexec : s.state.exec cfg o a = some state)
    (hafter : R.after cfg P o a P') : (s.performed state o a).Tracked x t ((Stage.back c₀).next times o a) P' c := by
  have htodo := State.exec_todo hexec
  have hremove : ∀ c', o ≠ .removeEvents t c' := by
    rintro c' rfl
    exact hallowed
  have hobjects := fun hc => State.mem_objects_of_exec (c := c) hexec hc hremove
  cases o with
  | setState c' y =>
    obtain rfl : P' = P.withState c' y := hafter
    exact h.stays htodo hobjects nofun Pos.Hands.withState
  | startLingeringClose c' =>
    obtain rfl : P' = P := hafter
    exact h.stays htodo hobjects nofun id
  | addEvents u c' events =>
    obtain ⟨rfl, rfl⟩ := hallowed
    have hpending : state.pending u = s.state.pending u := by rw [State.pending, htodo]; rfl
    rcases h with ⟨hregistered, hrest⟩ | ⟨⟨y, sock, request, rfl⟩, hout | ⟨hback, hidle⟩⟩
    · refine .inl ⟨hobjects hregistered, ?_⟩
      rcases hrest with hold | hdue | hidle
      · exact .inl (hpending ▸ hold)
      · cases hdue
      · exact .inr (.inr hidle)
    · cases hout
    · cases hback
      have hheld := hinv.holds e
      rw [hP] at hheld
      exact .inl ⟨hinv.mem_objects_addEvents hheld.1 hexec, .inr (.inr hidle)⟩
  | _ => exact False.elim hallowed

/-- A message that the thread sends to itself makes the connection active. -/
theorem Clocked.Tracked.perform_call {msg : Message} {u : Unit} (h : s.Tracked x t (.out msg.conn) P c)
    (hok : s.InTime times x (.perform (.thread t) (.call t (.message msg)) u)) (hc : c ∈ s.swept t) :
    (s.performed s.state (.call t (.message msg)) u).Tracked x t (.back msg.conn) P c := by
  by_cases hne : c = msg.conn
  · have hlast : (s.performed s.state (.call t (.message msg)) u).lastActivity c = s.currentTime t := by
      rw [hne]
      exact update_self _ _ _
    have hidle : (s.performed s.state (.call t (.message msg)) u).idle t c ≤ x.longest := by
      unfold Clocked.idle
      rw [hlast]
      exact (sub_self (s.currentTime t)).le.trans (hok (hne ▸ hc))
    refine h.imp (fun hpoll => ⟨hpoll.1, .inr (.inr hidle)⟩) fun hhands => ⟨hhands.1, .inr ⟨by rw [hne], hidle⟩⟩
  · have hout : Stage.out msg.conn ≠ .out c := by
      intro hout
      cases hout
      exact hne rfl
    refine h.performed nofun hout nofun (h.of_ne nofun hout nofun).1 rfl fun time hstamp => hne ?_
    cases hstamp
    rfl

end Perform

/-- An operation of the thread takes its sweep on. -/
theorem Clocked.Sweeping.perform {state : State} {rest : Prog Unit}
    (h : s.Sweeping times keeps x t st (pos (.thread t))) (hproto : proto.TimesOut times keeps)
    (hinv : Inv cfg R s.state owner pos) (hrest : (s.state.tasks (.thread t)).resume o a = some rest)
    (hexec : s.state.exec cfg o a = some state) (hanswers : s.answers x (.thread t) o a = true)
    (hok : s.InTime times x (.perform (.thread t) o a))
    (hafter : (∃ u f, o = .call u f) ∧ P' = pos (.thread t) ∨
      (∀ u f, o ≠ .call u f) ∧ R.after cfg (pos (.thread t)) o a P') :
    ∃ st', (s.performed (state.start (.thread t) (proto.enter o rest)) o a).Sweeping times keeps x t st' P' := by
  obtain ⟨hallowed, hnext⟩ := Discipline.Triple.resume h.task hrest
  have hkeeps : Sweeps times keeps t rest (st.next times o a) := hnext _ rfl
  have hbuild : ∀ st', Sweeps times keeps t (proto.enter o rest) st' →
      (∀ c ∈ s.swept t, o.releases ≠ some c → (s.performed state o a).Tracked x t st' P' c) →
      (s.performed (state.start (.thread t) (proto.enter o rest)) o a).Sweeping times keeps x t st' P' := by
    intro st' hprog htracked
    refine ⟨?_, ?_, fun c hc => ?_⟩
    · have htodo : state.todo = s.state.todo := State.exec_todo hexec
      change ∀ item ∈ state.todo t, ∃ c, item = .timeout c
      rw [htodo]
      exact h.todo
    · change Sweeps times keeps t (update state.tasks (.thread t) (proto.enter o rest) (.thread t)) st'
      rw [update_self]
      exact hprog
    · obtain ⟨hc, hreleases⟩ := List.mem_filter.mp hc
      exact htracked c hc (of_decide_eq_true hreleases)
  rcases hafter with ⟨⟨u, f, rfl⟩, rfl⟩ | ⟨hcall, hafter⟩
  · -- only a thread that has the connection out of its pollset calls, and only for a message to itself
    obtain rfl := Option.some.inj hexec
    cases st with
    | out c₀ =>
      cases f with
      | message msg =>
        obtain ⟨rfl, rfl, haction⟩ := hallowed
        refine ⟨.back msg.conn, hbuild _ ?_ fun c hc _ => (h.tracked c hc).perform_call hok hc⟩
        refine Discipline.triple_bind (hproto.message u msg haction) ?_
        rintro - _ rfl
        exact hkeeps
      | connection c revents => exact hallowed.elim
      | accept => exact hallowed.elim
    | due c₀ => exact hallowed.elim
    | back c₀ => exact hallowed.elim
    | done => exact hallowed.elim
  · have henter : proto.enter o rest = rest := by
      cases o <;> first | rfl | exact absurd rfl (hcall _ _)
    refine ⟨st.next times o a, hbuild _ (by rw [henter]; exact hkeeps) fun c hc hreleases => ?_⟩
    have htracked := h.tracked c hc
    cases st with
    | due c₀ => exact htracked.perform_due hc hallowed hinv hexec hanswers hok hafter
    | out c₀ => exact htracked.perform_out hreleases hallowed hcall hexec hafter
    | back c₀ => exact htracked.perform_back hallowed hinv rfl hexec hafter
    | done => exact hallowed.elim

/-! ### The steps of `mainloop` -/

theorem done_of_isDone {p : Prog Unit} (h : Sweeps times keeps t p st) (hdone : State.isDone p = true) : st = .done := by
  cases p with
  | pure y => exact h
  | op o k => cases hdone

/-- A thread that begins a sweep has all connections of its pollset before it. -/
theorem Clocked.Sweeping.begin {lastActivity : Slot → Int} {swept : Thread → List Slot}
    (hdone : State.isDone (s.state.tasks (.thread t)) = true) (hswept : swept t = s.state.objects t) :
    Clocked.Sweeping times keeps x { s with
      state := s.state.setTodo t ((s.state.pollset t).map fun y => .timeout y.2)
      lastActivity
      swept } t .done P := by
  refine ⟨fun item hitem => ?_, ?_, fun c hc => ?_⟩
  · dsimp only [State.setTodo] at hitem
    rw [update_self] at hitem
    obtain ⟨y, -, rfl⟩ := List.mem_map.mp hitem
    exact ⟨y.2, rfl⟩
  · change Sweeps times keeps t (s.state.tasks (.thread t)) .done
    cases htask : s.state.tasks (.thread t) with
    | pure y => rfl
    | op o k =>
      rw [htask] at hdone
      cases hdone
  · dsimp only at hc
    rw [hswept] at hc
    refine .inl ⟨hc, .inl ?_⟩
    obtain ⟨y, hy, rfl⟩ := List.mem_map.mp hc
    dsimp only [State.pending, State.setTodo]
    rw [update_self]
    exact List.mem_filterMap.mpr ⟨.timeout y.2, List.mem_map_of_mem hy, rfl⟩

/-- The next connection of a sweep has its turn. -/
theorem Clocked.Sweeping.timeout {rest : List Item} (h : s.Sweeping times keeps x t st P)
    (hproto : proto.TimesOut times keeps) (hdone : State.isDone (s.state.tasks (.thread t)) = true)
    (htodo : s.state.todo t = .timeout c :: rest) :
    Clocked.Sweeping times keeps x
      { s with state := (s.state.setTodo t rest).start (.thread t) (proto.timeoutConnection t c) } t (.due c) P' := by
  obtain rfl := done_of_isDone h.task hdone
  have hrest : ((s.state.setTodo t rest).start (.thread t) (proto.timeoutConnection t c)).todo t = rest :=
    update_self _ _ _
  refine ⟨?_, ?_, fun c' hc' => .inl ?_⟩
  · dsimp only
    rw [hrest]
    exact fun item hitem => h.todo item (htodo ▸ List.mem_cons_of_mem _ hitem)
  · change Sweeps times keeps t (update s.state.tasks (.thread t) (proto.timeoutConnection t c) (.thread t)) (.due c)
    rw [update_self]
    exact hproto.timeout t c
  · obtain ⟨hobjects, hpending | hidle⟩ := (h.tracked c' hc').of_ne nofun nofun nofun
    · rw [State.pending, htodo] at hpending
      have hmem : c' = c ∨ c' ∈ rest.filterMap Item.slot := List.mem_cons.mp hpending
      refine ⟨hobjects, hmem.symm.imp (fun hmem => ?_) fun heq => .inl (by rw [heq])⟩
      dsimp only [State.pending]
      rw [hrest]
      exact hmem
    · exact ⟨hobjects, .inr (.inr hidle)⟩

/-- A thread sets the last activity of connections that are its own to handle. -/
theorem owner_of_touches {received : Bool} (hinv : Inv cfg R s.state owner pos)
    (h : s.state.touches t received = some c) : owner c = .message t ∨ owner c = .poll t := by
  unfold State.touches at h
  split at h
  · split_ifs at h
    obtain ⟨msg, hmsg, rfl⟩ := Option.map_eq_some_iff.mp h
    refine .inl ((hinv.mem_inbox t msg.conn).mp (List.mem_map_of_mem ?_))
    exact List.mem_append_left _ (List.mem_of_head? hmsg)
  · obtain ⟨msg, hmsg, rfl⟩ := Option.map_eq_some_iff.mp h
    refine .inl ((hinv.mem_inbox t msg.conn).mp (List.mem_map_of_mem ?_))
    exact List.mem_append_right _ (List.mem_of_head? hmsg)
  · next c' revents rest htodo =>
    dsimp only [Call.touches] at h
    split_ifs at h
    cases h
    refine .inr (hinv.mem_pending t c ?_)
    rw [State.pending, htodo]
    exact List.mem_cons_self
  · cases h

/-- The next thing of one thread is nothing to the others, and no pollset changes. -/
theorem nextItem_frame {s s' : State} {u : Thread} {received : Bool} (h : s.nextItem proto u received = some s') :
    s'.pollset = s.pollset ∧ ∀ t, t ≠ u → s'.todo t = s.todo t ∧ s'.tasks (.thread t) = s.tasks (.thread t) := by
  have hne : ∀ {t}, t ≠ u → Exec.thread t ≠ .thread u := by
    rintro t hne heq
    cases heq
    exact hne rfl
  unfold State.nextItem at h
  split at h
  · cases h
  · split at h <;> obtain rfl := Option.some.inj h
    · exact ⟨rfl, fun t ht => ⟨update_of_ne ht _ _, update_of_ne (hne ht) _ _⟩⟩
    · exact ⟨rfl, fun t ht => ⟨update_of_ne ht _ _, rfl⟩⟩
  · split at h <;> obtain rfl := Option.some.inj h
    · exact ⟨rfl, fun t ht => ⟨rfl, update_of_ne (hne ht) _ _⟩⟩
    · exact ⟨rfl, fun t ht => ⟨update_of_ne ht _ _, rfl⟩⟩
  · obtain rfl := Option.some.inj h
    exact ⟨rfl, fun t ht => ⟨update_of_ne ht _ _, update_of_ne (hne ht) _ _⟩⟩
  · obtain rfl := Option.some.inj h
    exact ⟨rfl, fun t ht => ⟨update_of_ne ht _ _, update_of_ne (hne ht) _ _⟩⟩
  · obtain rfl := Option.some.inj h
    exact ⟨rfl, fun t ht => ⟨update_of_ne ht _ _, rfl⟩⟩
  · obtain rfl := Option.some.inj h
    exact ⟨rfl, fun t ht => ⟨update_of_ne ht _ _, update_of_ne (hne ht) _ _⟩⟩

theorem beginSweep_of_ne {u : Thread} (h : u ≠ t ∨ ∀ rest, s.state.todo t ≠ .sweep :: rest) :
    s.beginSweep t u = s.swept u := by
  unfold Clocked.beginSweep
  cases htodo : s.state.todo t with
  | nil => rfl
  | cons item rest =>
    cases item with
    | sweep =>
      rcases h with hne | hsweep
      · exact update_of_ne hne _ _
      · exact absurd htodo (hsweep rest)
    | _ => rfl

/-- A thread goes on: it begins a sweep, or comes to the next connection of the one that it is in. -/
theorem Clocked.Sweeping.next {state : State} {received : Bool} (hproto : proto.TimesOut times keeps)
    (hsweep : s.swept t ≠ [] → ∃ st, s.Sweeping times keeps x t st P)
    (hstep : s.state.step proto cfg (.next t received) = some state) (hswept : s.beginSweep t t ≠ []) :
    ∃ st, Clocked.Sweeping times keeps x { s with
      state
      lastActivity := s.setLastActivity ((s.state.touches t received).map (·, s.currentTime t))
      swept := s.beginSweep t } t st P' := by
  obtain ⟨hdone, hstep⟩ := Option.ite_none_right_eq_some.mp hstep
  cases htodo : s.state.todo t with
  | nil =>
    unfold State.nextItem at hstep
    rw [htodo] at hstep
    cases hstep
  | cons item rest =>
    by_cases hitem : item = .sweep
    · subst hitem
      have hbegin : s.beginSweep t t = s.state.objects t := by
        unfold Clocked.beginSweep
        rw [htodo]
        exact update_self _ _ _
      unfold State.nextItem at hstep
      rw [htodo] at hstep
      obtain rfl := Option.some.inj hstep
      exact ⟨.done, .begin hdone hbegin⟩
    · have hsame : s.beginSweep t = s.swept := by
        funext u
        refine beginSweep_of_ne (.inr fun rest' hsweep => hitem ?_)
        rw [htodo] at hsweep
        exact (List.cons.inj hsweep).1
      rw [hsame] at hswept ⊢
      obtain ⟨st, hst⟩ := hsweep hswept
      obtain ⟨c, rfl⟩ := hst.todo item (htodo ▸ List.mem_cons_self)
      have htouches : s.state.touches t received = none := by
        unfold State.touches
        rw [htodo]
      unfold State.nextItem at hstep
      rw [htodo] at hstep
      obtain rfl := Option.some.inj hstep
      rw [htouches]
      exact ⟨.due c, hst.timeout hproto hdone htodo⟩

/-- Every connection has its owner, and every thread with a copy of its pollset is on with its sweep. -/
def Clocked.Follows (cfg : Config) (R : Rules) (times : ConnState → Bool) (keeps : Action → Prop) (x : Timeouts)
    (s : Clocked) : Prop :=
  ∃ owner pos, Accounts cfg R (fun _ => True) s.state owner pos ∧
    ∀ t, s.swept t ≠ [] → ∃ st, s.Sweeping times keeps x t st (pos (.thread t))

theorem Clocked.Follows.perform {state : State} (h : s.Follows cfg R times keeps x) (hadmits : R.Admits cfg proto)
    (hproto : proto.TimesOut times keeps) (hgood : s.GoodTimes times x (.perform e o a, 0))
    (hanswers : s.answers x e o a = true) (hstep : s.state.step proto cfg (.perform e o a) = some state) :
    (s.performed state o a).Follows cfg R times keeps x := by
  obtain ⟨owner, pos, hacc, hsweep⟩ := h
  obtain ⟨owner', P', hinv', htasks', hmove, hallowed, hafter⟩ :=
    perform_cases hadmits hacc.inv hacc.tasks hgood.1 hstep
  refine ⟨owner', _, ⟨hinv', htasks', fun c e' => hmove.hands hacc.hands, fun _ _ => trivial⟩, fun t ht => ?_⟩
  obtain ⟨rest, hrest, hstep⟩ := Option.bind_eq_some_iff.mp hstep
  obtain ⟨state', hexec, hstep⟩ := Option.bind_eq_some_iff.mp hstep
  obtain rfl := Option.some.inj hstep
  have hkept : ∀ c ∈ (s.performed (state'.start e (proto.enter o rest)) o a).swept t, c ∈ s.swept t :=
    fun c hc => (List.mem_filter.mp hc).1
  obtain ⟨c, hc⟩ := List.exists_mem_of_ne_nil _ ht
  obtain ⟨st, hst⟩ := hsweep t (List.ne_nil_of_mem (hkept c hc))
  by_cases he : e = .thread t
  · subst he
    rw [update_self]
    exact hst.perform hproto hacc.inv hrest hexec hanswers hgood.2 hafter
  · have hne : Exec.thread t ≠ e := fun heq => he heq.symm
    rw [update_of_ne hne]
    have htask : (update state'.tasks e (proto.enter o rest)) (.thread t) = s.state.tasks (.thread t) := by
      rw [update_of_ne hne, State.exec_tasks hexec]
    refine ⟨st, hst.frame (congrFun (State.exec_todo hexec) t) htask hkept (fun c hc => ?_) fun c hc => ?_⟩
    · change c ∈ state'.objects t
      refine State.mem_objects_of_exec hexec hc ?_
      rintro c' rfl
      have hP : pos e = .reg t c' := hallowed
      have hholds := hacc.inv.holds e
      rw [hP] at hholds
      exact he hholds.1
    · refine congrArg (s.currentTime t - ·) (setLastActivity_of_ne fun time hstamp => ?_)
      have howned := (hst.tracked c (hkept c hc)).owned hacc.inv
      rcases owner_of_stamp hacc.inv hallowed hexec hstamp with ho | ho | ⟨u, rfl, ho⟩ <;> rw [ho] at howned
      · rcases howned with hpoll | hheld
        · cases hpoll
        · cases hheld
      · rcases howned with hpoll | hheld
        · cases hpoll
        · cases hheld
          exact he rfl
      · rcases howned with hpoll | hheld
        · cases hpoll
          exact he rfl
        · cases hheld

theorem Clocked.Follows.poll {state : State} {events : List Event} {sweep : Bool} {time : Int}
    (h : s.Follows cfg R times keeps x) (hstep : s.state.step proto cfg (.poll t events sweep) = some state) :
    Clocked.Follows cfg R times keeps x { s with
      state, currentTime := update s.currentTime t time, swept := update s.swept t [] } := by
  obtain ⟨owner, pos, hacc, hsweep⟩ := h
  obtain ⟨owner', P', hacc'⟩ := hacc.poll hstep
  refine ⟨owner', _, hacc', fun u hu => ?_⟩
  obtain ⟨-, hstep⟩ := Option.ite_none_right_eq_some.mp hstep
  obtain ⟨items, -, rfl⟩ := Option.map_eq_some_iff.mp hstep
  dsimp only at hu
  have hne : u ≠ t := by
    rintro rfl
    rw [update_self] at hu
    exact hu rfl
  have hswept : update s.swept t [] u = s.swept u := update_of_ne hne _ _
  rw [hswept] at hu
  obtain ⟨st, hst⟩ := hsweep u hu
  have hpos : Exec.thread u ≠ .thread t := by
    rintro ⟨⟩
    exact hne rfl
  rw [update_of_ne hpos]
  refine ⟨st, hst.frame (update_of_ne hne _ _) rfl (fun c hc => hswept ▸ hc) (fun c hc => hc) fun c _ => ?_⟩
  exact congrArg (· - s.lastActivity c) (update_of_ne hne _ _)

theorem Clocked.Follows.next {state : State} {received : Bool} (h : s.Follows cfg R times keeps x)
    (hadmits : R.Admits cfg proto) (hproto : proto.TimesOut times keeps)
    (hstep : s.state.step proto cfg (.next t received) = some state) :
    Clocked.Follows cfg R times keeps x { s with
      state
      lastActivity := s.setLastActivity ((s.state.touches t received).map (·, s.currentTime t))
      swept := s.beginSweep t } := by
  obtain ⟨owner, pos, hacc, hsweep⟩ := h
  obtain ⟨owner', P', hacc'⟩ := hacc.next hadmits hstep
  refine ⟨owner', _, hacc', fun u hu => ?_⟩
  by_cases hut : u = t
  · subst hut
    exact Clocked.Sweeping.next hproto (hsweep u) hstep hu
  · have hswept : s.beginSweep t u = s.swept u := beginSweep_of_ne (.inl hut)
    obtain ⟨hpollset, hframe⟩ := nextItem_frame (Option.ite_none_right_eq_some.mp hstep).2
    dsimp only at hu
    rw [hswept] at hu
    obtain ⟨st, hst⟩ := hsweep u hu
    have hpos : Exec.thread u ≠ .thread t := by
      rintro ⟨⟩
      exact hut rfl
    rw [update_of_ne hpos]
    have hobjects : state.objects u = s.state.objects u := by
      unfold State.objects
      rw [hpollset]
    refine ⟨st, hst.frame (hframe u hut).1 (hframe u hut).2 (fun c hc => hswept ▸ hc) (fun c hc => ?_) fun c hc => ?_⟩
    · exact hobjects ▸ hc
    · refine congrArg (s.currentTime u - ·) (setLastActivity_of_ne fun time hstamp => ?_)
      obtain ⟨c', htouches, heq⟩ := Option.map_eq_some_iff.mp hstamp
      cases heq
      have howned := (hst.tracked c (hswept ▸ hc)).owned hacc.inv
      rcases owner_of_touches hacc.inv htouches with ho | ho <;> rw [ho] at howned
      · rcases howned with hpoll | hheld
        · cases hpoll
        · cases hheld
      · rcases howned with hpoll | hheld
        · cases hpoll
          exact hut rfl
        · cases hheld

theorem Clocked.Follows.submit {state : State} {i : Nat} {r : Request} {maxRequests : Nat}
    (h : s.Follows cfg R times keeps x) (hadmits : R.Admits cfg proto)
    (hstep : s.state.step proto cfg (.submit i r maxRequests) = some state) :
    Clocked.Follows cfg R times keeps x { s with state } := by
  obtain ⟨owner, pos, hacc, hsweep⟩ := h
  obtain ⟨owner', P', hacc'⟩ := hacc.submit hadmits hstep
  refine ⟨owner', _, hacc', fun t ht => ?_⟩
  obtain ⟨-, hstep⟩ := Option.ite_none_right_eq_some.mp hstep
  obtain ⟨submitRequest, -, rfl⟩ := Option.map_eq_some_iff.mp hstep
  obtain ⟨st, hst⟩ := hsweep t ht
  have hne : Exec.thread t ≠ .caller i := nofun
  have htask := update_of_ne hne (submitRequest r maxRequests) s.state.tasks
  rw [update_of_ne hne]
  exact ⟨st, hst.frame rfl htask (fun c hc => hc) (fun c hc => hc) fun c _ => rfl⟩

theorem Clocked.Follows.step {l : Label × Int} (h : s.Follows cfg R times keeps x) (hadmits : R.Admits cfg proto)
    (hproto : proto.TimesOut times keeps) (hgood : s.GoodTimes times x l)
    (hstep : s.step proto cfg x l.1 l.2 = some s') : s'.Follows cfg R times keeps x := by
  obtain ⟨label, time⟩ := l
  obtain ⟨state, hstate, hstep⟩ := Option.bind_eq_some_iff.mp hstep
  cases label with
  | perform e o a =>
    obtain ⟨hanswers, hstep⟩ := Option.ite_none_right_eq_some.mp hstep
    obtain rfl := Option.some.inj hstep
    exact h.perform hadmits hproto hgood hanswers hstate
  | poll t events sweep =>
    obtain rfl := Option.some.inj hstep
    exact h.poll hstate
  | next t received =>
    obtain rfl := Option.some.inj hstep
    exact h.next hadmits hproto hstate
  | submit i r maxRequests =>
    obtain rfl := Option.some.inj hstep
    exact h.submit hadmits hstate

theorem Clocked.Follows.initial (hfree : R.legit .free) (numConnections : Nat) :
    (Clocked.initial numConnections).Follows cfg R times keeps x := by
  have hacc : Accounted cfg R (fun _ => True) (.initial numConnections) := accounted_initial hfree fun c _ => trivial
  obtain ⟨owner, pos, hacc⟩ := hacc
  exact ⟨owner, pos, hacc, fun t ht => absurd rfl ht⟩

/-- When a thread is through, what is left of its sweep has not been idle for too long. -/
theorem Clocked.Follows.sweepCovers (h : s.Follows cfg R times keeps x) : s.SweepCovers x := by
  obtain ⟨owner, pos, hacc, hsweep⟩ := h
  intro t ⟨htodo, hdone⟩ c hc _
  obtain ⟨st, hst⟩ := hsweep t (List.ne_nil_of_mem hc)
  obtain rfl := done_of_isDone hst.task hdone
  obtain ⟨-, hpending | hidle⟩ := (hst.tracked c hc).of_ne nofun nofun nofun
  · rw [State.pending, htodo] at hpending
    cases hpending
  · exact hidle

theorem sweepCovers_of_reaches (hadmits : R.Admits cfg proto) (hproto : proto.TimesOut times keeps)
    (h : (proto.clockMachine cfg x).Reaches (Clocked.GoodTimes times x) s) : s.SweepCovers x := by
  have hfollows : s.Follows cfg R times keeps x := by
    refine h.invariant ?_ fun s l s' hs hgood hstep => hs.step hadmits hproto hgood hstep
    rintro s ⟨numConnections, rfl⟩
    exact .initial hadmits.free numConnections
  exact hfollows.sweepCovers

end Sweeping

end Latypus.Engine
