import Latypus.Lib.Machine
import Latypus.Http.Message

/-! `log_thread`: client threads fill buffers with messages, a writer thread writes them out, and
the thread that owns the logger creates the buffers after the writer has started and deletes them
in the destructor. One step is one operation on something shared; a queue holds as many pointers as
there are buffers and its operations are atomic. A wait on a condition variable may end at any
time, so that a notification is a step without an effect. -/

namespace Latypus.Log
open Lib Http

def logBufferSize : Nat := 1024

/-- `strncpy`: the string up to its NUL, cut to `n` bytes or filled up with zeros. -/
def strncpy (message : Bytes) (n : Nat) : Bytes :=
  (cString message).take n ++ List.replicate (n - (cString message).length) 0

/-- `io_result`, with the `errcode` of its `io_error`. -/
structure IoResult where
  size : Int
  errcode : Int
deriving DecidableEq, Repr

def IoResult.ofSize (size : Int) : IoResult := ⟨size, 0⟩

def IoResult.hasError (result : IoResult) : Bool := result.errcode != 0

/-- A call of `log`. The ticket tells it from the other calls; the code does not have it. -/
structure LogCall where
  ticket : Nat
  currentTime : Int
  message : Bytes
deriving DecidableEq, Repr

/-- The bytes of a message that fit into a buffer. -/
def LogCall.cut (call : LogCall) : Bytes := (cString call.message).take (logBufferSize - 1)

/-- The `log_error` of each error branch. -/
inductive LogError where
  | creating
  | deleting
  | writing
  | returning
  | pushing
deriving DecidableEq, Repr

/-- Where a client is in `log`: at the label `retry`, in the branch that waits for a buffer, or
with a buffer in its hands. -/
inductive ClientPc where
  | idle
  | retry (call : LogCall)
  | stall (call : LogCall)
  | locked (call : LogCall)
  | stored (call : LogCall)
  | waiting (call : LogCall)
  | woken (call : LogCall)
  | copy (call : LogCall) (buffer : Nat)
  | push (call : LogCall) (buffer : Nat)
  | notify (call : LogCall)
deriving DecidableEq, Repr

/-- Where a thread is in `write_logs`. -/
inductive WriteLogs where
  | pop
  | write (buffer : Nat)
  | push (buffer : Nat)
  | flush
deriving DecidableEq, Repr

/-- Where the writer is in `mainloop`. -/
inductive WriterPc where
  | test
  | lock
  | locked
  | waiting
  | logs (pc : WriteLogs)
  | unlock
  | exchange
  | notifyAll
  | done
deriving DecidableEq, Repr

/-- Where the owner is: in `create_buffers`, in `shutdown`, called by itself or by the destructor,
or in the rest of the destructor. -/
inductive OwnerPc where
  | create (i : Nat)
  | createPush (i buffer : Nat)
  | ready
  | exchange (destroying : Bool)
  | notify (destroying : Bool)
  | join (destroying : Bool)
  | drain (pc : WriteLogs)
  | delete (i : Nat)
  | close
  | destroyed
deriving DecidableEq, Repr

/-- The logger with its threads. A buffer is its position in `memory`. The last fields record
what has happened: the calls made, those whose message was pushed and those that have returned, each
in that order, those that had returned when the destructor was called, and the texts written. -/
structure LogState where
  free : List Nat
  inuse : List Nat
  memory : List Bytes
  lastTime : Int
  running : Bool
  writerWaiting : Bool
  logMutex : Bool
  clients : List ClientPc
  writer : WriterPc
  owner : OwnerPc
  deleted : List Nat
  errors : List LogError
  calls : Nat
  pushed : List LogCall
  returned : List LogCall
  returnedBefore : List LogCall
  written : List Bytes
deriving DecidableEq, Repr

/-- What `strlen` and `fwrite` see of a buffer. -/
def LogState.text (s : LogState) (buffer : Nat) : Bytes := cString ((s.memory[buffer]?).getD [])

inductive LogAct where
  | call (client : Nat) (currentTime : Int) (message : Bytes)
  | client (client : Nat)
  /-- A step of the writer; `count` is what `fwrite` returns. -/
  | writer (count : Nat)
  | owner (count : Nat)
  | shutdown
  | destroy
deriving DecidableEq, Repr

section Steps
variable (numBuffers : Nat)

/-- A step of a client in `log`, with where it is after it. -/
def clientStep (s : LogState) : ClientPc → Option (LogState × ClientPc)
  | .idle => none
  | .retry call =>
    match s.free with
    | [] => some (s, .stall call)
    | buffer :: free => some ({ s with free }, .copy call buffer)
  | .stall call => if s.logMutex then none else some ({ s with logMutex := true }, .locked call)
  | .locked call => some ({ s with writerWaiting := true }, .stored call)
  | .stored call => some ({ s with logMutex := false }, .waiting call)
  | .waiting call => if s.logMutex then none else some ({ s with logMutex := true }, .woken call)
  | .woken call => some ({ s with logMutex := false }, .retry call)
  | .copy call buffer =>
    some ({ s with memory := s.memory.set buffer (strncpy call.message (logBufferSize - 1) ++ [0]) },
      .push call buffer)
  | .push call buffer =>
    if s.inuse.length = numBuffers then
      some ({ s with errors := s.errors ++ [.pushing], returned := s.returned ++ [call] }, .idle)
    else some ({ s with inuse := s.inuse ++ [buffer], pushed := s.pushed ++ [call] }, .notify call)
  | .notify call =>
    some ({ s with
      lastTime := if call.currentTime ≠ s.lastTime then call.currentTime else s.lastTime
      returned := s.returned ++ [call] }, .idle)

/-- A step in `write_logs`, with where the thread is after it, `none` when it returns. -/
def writeLogsStep (s : LogState) (count : Nat) : WriteLogs → LogState × Option WriteLogs
  | .pop =>
    match s.inuse with
    | [] => (s, some .flush)
    | buffer :: inuse => ({ s with inuse }, some (.write buffer))
  | .write buffer =>
    let result := IoResult.ofSize count
    ({ s with
      written := s.written ++ [s.text buffer]
      errors := if result.hasError then s.errors ++ [.writing] else s.errors }, some (.push buffer))
  | .push buffer =>
    if s.free.length = numBuffers then ({ s with errors := s.errors ++ [.returning] }, some .pop)
    else ({ s with free := s.free ++ [buffer] }, some .pop)
  | .flush => (s, none)

def writerStep (s : LogState) (count : Nat) : Option LogState :=
  match s.writer with
  | .test => some { s with writer := if s.running then .lock else .done }
  | .lock => if s.logMutex then none else some { s with logMutex := true, writer := .locked }
  | .locked => some { s with logMutex := false, writer := .waiting }
  | .waiting => if s.logMutex then none else some { s with logMutex := true, writer := .logs .pop }
  | .logs pc =>
    match writeLogsStep numBuffers s count pc with
    | (s, some pc) => some { s with writer := .logs pc }
    | (s, none) => some { s with writer := .unlock }
  | .unlock => some { s with logMutex := false, writer := .exchange }
  | .exchange =>
    if s.writerWaiting then some { s with writerWaiting := false, writer := .notifyAll }
    else some { s with writer := .test }
  | .notifyAll => some { s with writer := .test }
  | .done => none

/-- Where the owner goes when `shutdown` returns. -/
def afterShutdown : Bool → OwnerPc
  | true => .drain .pop
  | false => .ready

def ownerStep (s : LogState) (count : Nat) : Option LogState :=
  match s.owner with
  | .create i =>
    if i < numBuffers then
      -- nothing reads the bytes of a new buffer
      some { s with
        memory := s.memory ++ [List.replicate logBufferSize 0], owner := .createPush i s.memory.length }
    else some { s with owner := .ready }
  | .createPush i buffer =>
    if s.free.length = numBuffers then
      some { s with errors := s.errors ++ [.creating], owner := .create (i + 1) }
    else some { s with free := s.free ++ [buffer], owner := .create (i + 1) }
  | .ready => none
  | .exchange destroying =>
    if s.running then some { s with running := false, owner := .notify destroying }
    else some { s with owner := afterShutdown destroying }
  | .notify destroying => some { s with owner := .join destroying }
  | .join destroying =>
    if s.writer = .done then some { s with owner := afterShutdown destroying } else none
  | .drain pc =>
    match writeLogsStep numBuffers s count pc with
    | (s, some pc) => some { s with owner := .drain pc }
    | (s, none) => some { s with owner := .delete 0 }
  | .delete i =>
    if i < numBuffers then
      match s.free with
      | [] => some { s with errors := s.errors ++ [.deleting], owner := .delete (i + 1) }
      | buffer :: free =>
        some { s with free, deleted := s.deleted ++ [buffer], owner := .delete (i + 1) }
    else some { s with owner := .close }
  | .close => some { s with owner := .destroyed }
  | .destroyed => none

/-- The logger when the constructor has started the writer. -/
def logStart (numClients : Nat) : LogState where
  free := []
  inuse := []
  memory := []
  lastTime := 0
  running := true
  writerWaiting := false
  logMutex := false
  clients := List.replicate numClients .idle
  writer := .test
  owner := .create 0
  deleted := []
  errors := []
  calls := 0
  pushed := []
  returned := []
  returnedBefore := []
  written := []

/-- The constructor goes on to create the buffers. Clients may call `log` at any time until the
destructor has returned, and the owner may call `shutdown` before the destructor. -/
def logMachine (numClients : Nat) : Machine LogState LogAct where
  init s := s = logStart numClients
  step s
    | .call i currentTime message =>
      if s.owner = .destroyed then none
      else if s.clients[i]? = some .idle then
        some { s with clients := s.clients.set i (.retry ⟨s.calls, currentTime, message⟩), calls := s.calls + 1 }
      else none
    | .client i =>
      if s.owner = .destroyed then none
      else
        match s.clients[i]? with
        | none => none
        | some pc =>
          match clientStep numBuffers s pc with
          | none => none
          | some (s', pc') => some { s' with clients := s'.clients.set i pc' }
    | .writer count => writerStep numBuffers s count
    | .owner count => ownerStep numBuffers s count
    | .shutdown => if s.owner = .ready then some { s with owner := .exchange false } else none
    | .destroy =>
      if s.owner = .ready then
        some { s with owner := .exchange true, returnedBefore := s.returned }
      else none

end Steps
end Latypus.Log
