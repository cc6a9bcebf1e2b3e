import Mathlib.Data.List.Sort
import Mathlib.Logic.Function.Basic
import Latypus.Lib.Machine
import Latypus.Engine.Protocol

/-! The engine that both protocols run in: `protocol_connection_state` with the connection table
and its free list, the pollsets and inboxes of the threads, and `mainloop`. Threads and the
callers of the public interface take turns at every operation, in any order. -/

namespace Latypus.Engine
open Lib Http Function

structure Config where
  /-- The masks of each thread. -/
  threads : List (List Mask)

def Config.mask (cfg : Config) (t : Thread) (m : Mask) : Bool := m ∈ cfg.threads.getD t []

/-- Who runs a handler: a protocol thread, or a caller of the public interface. -/
inductive Exec
  | thread (t : Thread)
  | caller (i : Nat)
deriving DecidableEq

/-- What `mainloop` has still to do before it polls again. -/
inductive Item
  | ipc
  | drain
  | listen
  | conn (c : Slot) (revents : Nat)
  | sweep
  | timeout (c : Slot)

def Item.slot : Item → Option Slot
  | .conn c _ => some c
  | .timeout c => some c
  | _ => none

structure State where
  free : List Slot
  conns : Slot → Conn
  hostMap : Bytes → List Slot
  /-- The descriptors of sockets that are open in the process. -/
  isOpen : Fd → Bool
  /-- `pollobjects_map`, the entries that are set in the order of their descriptors. -/
  pollset : Thread → List (Fd × Slot)
  notify : Thread → List Message
  queue : Thread → List Message
  todo : Thread → List Item
  tasks : Exec → Prog Unit

namespace State

def inbox (s : State) (t : Thread) : List Message := s.notify t ++ s.queue t

def pending (s : State) (t : Thread) : List Slot := (s.todo t).filterMap Item.slot

def modifyConn (s : State) (c : Slot) (f : Conn → Conn) : State :=
  { s with conns := update s.conns c (f (s.conns c)) }

@[grind =] theorem modifyConn_conns (s : State) (c c' : Slot) (f : Conn → Conn) :
    (s.modifyConn c f).conns c' = if c' = c then f (s.conns c) else s.conns c' := by
  simp [modifyConn, update_apply]

/-- Drop the socket of a connection, which closes its descriptor. -/
def closeSock (s : State) (c : Slot) : State :=
  match (s.conns c).sock with
  | none => s
  | some sock =>
    { s.modifyConn c ({ · with sock := none }) with isOpen := update s.isOpen sock.fd false }

/-- Give a connection a new socket; the descriptor is not that of an open one. -/
def openSock (s : State) (c : Slot) (sock : Sock) : Option State :=
  if s.isOpen sock.fd then none
  else some { s.modifyConn c ({ · with sock := some sock }) with
    isOpen := update s.isOpen sock.fd true }

theorem closeSock_of_none {s : State} {c : Slot} (h : (s.conns c).sock = none) :
    s.closeSock c = s := by
  simp [closeSock, h]

@[grind =] theorem closeSock_conns (s : State) (c c' : Slot) :
    (s.closeSock c).conns c' = if c' = c then { s.conns c with sock := none } else s.conns c' := by
  cases hsock : (s.conns c).sock with
  | none =>
    rw [closeSock_of_none hsock, ← hsock]
    split
    · subst c'
      rfl
    · rfl
  | some sock => simp [closeSock, hsock, modifyConn_conns]

theorem openSock_conns {s s' : State} {c : Slot} {sock : Sock} (h : s.openSock c sock = some s')
    (c' : Slot) :
    s'.conns c' = if c' = c then { s.conns c with sock := some sock } else s.conns c' := by
  unfold openSock at h
  split at h
  · simp at h
  · obtain rfl := Option.some.inj h
    simp [modifyConn_conns]

/-- `init` of a connection, which leaves `url_requests` as it is. -/
def initConn (s : State) (c : Slot) : State :=
  (s.closeSock c).modifyConn c ({ · with state := .free, handler := none })

/-- `pollset_epoll::add_object`: an entry that is there stays. -/
def addObject (objects : List (Fd × Slot)) (fd : Fd) (c : Slot) : List (Fd × Slot) :=
  if fd ∈ objects.map Prod.fst then objects
  else objects.orderedInsert (fun x y => x.1 ≤ y.1) (fd, c)

/-- `pollset_epoll::remove_object`, with the outcome of `epoll_ctl` on an entry that is there. -/
def removeObject (objects : List (Fd × Slot)) (fd : Fd) (ok : Bool) : List (Fd × Slot) :=
  if ok then objects.filter (·.1 ≠ fd) else objects

theorem mem_addObject {objects : List (Fd × Slot)} {fd : Fd} {c : Slot} {x : Fd × Slot}
    (hnew : fd ∉ objects.map Prod.fst) :
    x ∈ addObject objects fd c ↔ x = (fd, c) ∨ x ∈ objects := by
  rw [addObject, if_neg hnew, List.mem_orderedInsert]

theorem nodup_addObject {objects : List (Fd × Slot)} (h : (objects.map Prod.fst).Nodup)
    (fd : Fd) (c : Slot) : ((addObject objects fd c).map Prod.fst).Nodup := by
  unfold addObject
  split
  · exact h
  · have hperm := (List.perm_orderedInsert (fun x y : Fd × Slot => x.1 ≤ y.1) (fd, c)
      objects).map Prod.fst
    rw [hperm.nodup_iff, List.map_cons, List.nodup_cons]
    exact ⟨‹_›, h⟩

theorem mem_removeObject {objects : List (Fd × Slot)} {fd : Fd} {x : Fd × Slot} :
    x ∈ removeObject objects fd true ↔ x ∈ objects ∧ x.1 ≠ fd := by
  simp [removeObject]

theorem nodup_removeObject {objects : List (Fd × Slot)} (h : (objects.map Prod.fst).Nodup)
    (fd : Fd) (ok : Bool) : ((removeObject objects fd ok).map Prod.fst).Nodup := by
  unfold removeObject
  split
  · exact h.sublist (List.filter_sublist.map Prod.fst)
  · exact h

/-- The first connection of a host that may take one more request. -/
def findExisting (s : State) (host : Bytes) (maxRequests : Nat) : Option Slot :=
  (s.hostMap host).find? fun c => (s.conns c).urlRequests.length < maxRequests

def rotate (slots : List Slot) : List Slot := slots.tail ++ slots.head?.toList

/-- One operation. There is no next state when the answer is not one that the operation can
give, or when its behaviour is undefined: an entry of `pollobjects_map` for the descriptor -1,
`pop_front` of an empty list. -/
def exec (cfg : Config) (s : State) : (o : Op) → Answer o → Option State
  | .newConnection, c =>
    if c = s.free.getLast? then some { s with free := s.free.dropLast } else none
  | .getNewConnectionForUrl url, c =>
    if c = s.free.getLast? then
      match c with
      | none => some s
      | some c => some { { s with free := s.free.dropLast }.initConn c with
          hostMap := update s.hostMap url.host (s.hostMap url.host ++ [c]) }
    else none
  | .getExistingConnectionForUrl url maxRequests, c =>
    if c = s.findExisting url.host maxRequests then
      some (if c.isSome then
        { s with hostMap := update s.hostMap url.host (rotate (s.hostMap url.host)) } else s)
    else none
  | .init c, () => some (s.initConn c)
  | .accept c, fd => (s.closeSock c).openSock c ⟨fd, none⟩
  | .connectToHost c target, r =>
    match r with
    | .noSocket => some (s.closeSock c)
    | .refused fd => (s.closeSock c).openSock c ⟨fd, some target⟩
    | .connected fd => (s.closeSock c).openSock c ⟨fd, some target⟩
  | .close c, () => some (s.closeSock c)
  | .startLingeringClose c, ok =>
    match (s.conns c).sock with
    | none => some s
    | some sock => some (if ok then s else { s with isOpen := update s.isOpen sock.fd false })
  | .getState c, state => if state = (s.conns c).state then some s else none
  | .setState c state, () => some (s.modifyConn c ({ · with state := state }))
  | .setHandler c handler, () => some (s.modifyConn c ({ · with handler := handler }))
  | .pushFree c, () => some { s with free := s.free ++ [c] }
  | .addEvents t c _, () => (s.conns c).pollFd.map fun fd =>
    { s with pollset := update s.pollset t (addObject (s.pollset t) fd c) }
  | .removeEvents t c, ok => (s.conns c).pollFd.map fun fd =>
    { s with pollset := update s.pollset t (removeObject (s.pollset t) fd ok) }
  | .chooseThread t m, dest =>
    if cfg.mask t m then (if dest = some t then some s else none)
    else if dest.all (cfg.mask · m) then some s else none
  | .engineChooseThread m, dest => if dest.all (cfg.mask · m) then some s else none
  | .sendNotify dest msg, r =>
    match r with
    | .sent => some { s with notify := update s.notify dest (s.notify dest ++ [msg]) }
    | .again => some s
    | .failed => some s
  | .queueMessage dest msg, () =>
    some { s with queue := update s.queue dest (s.queue dest ++ [msg]) }
  | .urlRequestsFront c, r => if r = (s.conns c).urlRequests.head? then some s else none
  | .urlRequestsPushBack c r, () =>
    some (s.modifyConn c fun conn => { conn with urlRequests := conn.urlRequests ++ [r] })
  | .urlRequestsPushIfActive c r, active =>
    if active = !(s.conns c).urlRequests.isEmpty then
      some (if active then
        s.modifyConn c fun conn => { conn with urlRequests := conn.urlRequests ++ [r] } else s)
    else none
  | .urlRequestsPopFront c, more =>
    match (s.conns c).urlRequests with
    | [] => none
    | _ :: rest => if more = !rest.isEmpty then
        some (s.modifyConn c ({ · with urlRequests := rest })) else none
  | _, _ => some s

@[simp] theorem closeSock_tasks (s : State) (c : Slot) : (s.closeSock c).tasks = s.tasks := by
  unfold closeSock
  split <;> rfl

theorem openSock_tasks {s s' : State} {c : Slot} {sock : Sock} (h : s.openSock c sock = some s') :
    s'.tasks = s.tasks := by
  unfold openSock at h
  split at h
  · simp at h
  · obtain rfl := Option.some.inj h
    rfl

/-- An operation leaves the programs of all executors alone. -/
theorem exec_tasks {cfg : Config} {s s' : State} {o : Op} {a : Answer o}
    (h : s.exec cfg o a = some s') : s'.tasks = s.tasks := by
  cases o <;> simp only [exec, Option.map_eq_some_iff] at h <;>
    grind [modifyConn, closeSock_tasks, openSock_tasks, initConn]

end State

/-- The functions by which a protocol is called. -/
structure Protocol where
  handleMessage : Thread → Message → Prog Unit
  handleConnection : Thread → Slot → Nat → Prog Unit
  timeoutConnection : Thread → Slot → Prog Unit
  /-- `handle_accept`, if the protocol listens. -/
  handleAccept : Option (Thread → Prog Unit)
  /-- `submit_request`, if the protocol has it. -/
  submitRequest : Option (Request → Nat → Prog Unit)

def Protocol.body (proto : Protocol) (t : Thread) : Call → Prog Unit
  | .message msg => proto.handleMessage t msg
  | .connection c revents => proto.handleConnection t c revents
  | .accept => match proto.handleAccept with
    | some handleAccept => handleAccept t
    | none => pure ()

/-- The rest of a program behind an operation; a call puts the called function before it. -/
def Protocol.enter (proto : Protocol) (o : Op) (rest : Prog Unit) : Prog Unit :=
  match o with
  | .call t f => proto.body t f >>= fun _ => rest
  | _ => rest

/-- What `do_poll` reports: the notify socket, a listening socket, or a connection. -/
inductive Event
  | ipc
  | listen
  | conn (fd : Fd) (revents : Nat)

def Event.fd : Event → Option Fd
  | .conn fd _ => some fd
  | _ => none

inductive Label
  | perform (e : Exec) (o : Op) (a : Answer o)
  /-- A thread polls; `sweep` when it is time to look for timeouts. -/
  | poll (t : Thread) (events : List Event) (sweep : Bool)
  /-- A thread goes on with what it has to do; `received` when `recv_message` succeeds. -/
  | next (t : Thread) (received : Bool)
  /-- A caller submits a request. -/
  | submit (i : Nat) (r : Request) (maxRequests : Nat)

namespace State
variable (proto : Protocol) (cfg : Config) (s : State)

def isDone : Prog Unit → Bool
  | .pure _ => true
  | .op _ _ => false

/-- The object of an event, as the pollset has it at the time of the poll. -/
def itemOf (t : Thread) : Event → Option Item
  | .ipc => some .ipc
  | .listen => if proto.handleAccept.isSome && cfg.mask t .listener then some .listen else none
  | .conn fd revents => ((s.pollset t).find? (·.1 = fd)).map fun x => .conn x.2 revents

def start (e : Exec) (p : Prog Unit) : State := { s with tasks := update s.tasks e p }

def setTodo (t : Thread) (items : List Item) : State := { s with todo := update s.todo t items }

/-- The next thing that `mainloop` does. -/
def nextItem (t : Thread) (received : Bool) : Option State :=
  match s.todo t with
  | [] => none
  | .ipc :: rest =>
    match s.notify t, received with
    | msg :: msgs, true =>
      some (({ s with notify := update s.notify t msgs }.setTodo t (.drain :: rest)).start
        (.thread t) (proto.handleMessage t msg))
    | _, _ => some (s.setTodo t (.drain :: rest))
  | .drain :: rest =>
    match s.queue t with
    | msg :: msgs =>
      some ({ s with queue := update s.queue t msgs }.start (.thread t)
        (proto.handleMessage t msg))
    | [] => some (s.setTodo t rest)
  | .listen :: rest => some ((s.setTodo t rest).start (.thread t) (proto.body t .accept))
  | .conn c revents :: rest =>
    some ((s.setTodo t rest).start (.thread t) (proto.handleConnection t c revents))
  -- the sweep over a copy of the pollset is the last thing before the next poll
  | .sweep :: _ => some (s.setTodo t ((s.pollset t).map fun x => .timeout x.2))
  | .timeout c :: rest =>
    some ((s.setTodo t rest).start (.thread t) (proto.timeoutConnection t c))

def step : Label → Option State
  | .perform e o a => do
    let rest ← (s.tasks e).resume o a
    let s' ← s.exec cfg o a
    return s'.start e (proto.enter o rest)
  | .poll t events sweep =>
    if t < cfg.threads.length ∧ isDone (s.tasks (.thread t)) ∧ (s.todo t).isEmpty ∧
        (events.filterMap Event.fd).Nodup then
      (events.mapM (s.itemOf proto cfg t)).map fun items =>
        s.setTodo t (items ++ if sweep then [.sweep] else [])
    else none
  | .next t received =>
    if isDone (s.tasks (.thread t)) then s.nextItem proto t received else none
  | .submit i r maxRequests =>
    if isDone (s.tasks (.caller i)) then
      proto.submitRequest.map fun submitRequest =>
        s.start (.caller i) (submitRequest r maxRequests)
    else none

end State

/-- The engine after `init` with a number of connections. -/
def State.initial (numConnections : Nat) : State where
  free := List.range numConnections
  conns := fun _ => ⟨.free, none, [], none⟩
  hostMap := fun _ => []
  isOpen := fun _ => false
  pollset := fun _ => []
  notify := fun _ => []
  queue := fun _ => []
  todo := fun _ => []
  tasks := fun _ => pure ()

def Protocol.machine (proto : Protocol) (cfg : Config) : Lib.Machine State Label where
  init s := ∃ numConnections, s = .initial numConnections
  step := State.step proto cfg

end Latypus.Engine
