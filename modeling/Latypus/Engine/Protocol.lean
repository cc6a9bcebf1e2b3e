import Latypus.Lib.Program
import Latypus.Http.Message

/-! The vocabulary of the protocol handlers. A handler is a program over the operations below,
and each of its accesses to what threads share is an operation of its own. What a handler learns
from a socket, from a request handler, from the parser or from the clock is an answer that the
environment is free to give. -/

namespace Latypus.Engine
open Lib Http

/-- The number of a connection in `connections_all`. -/
abbrev Slot := Nat
abbrev Fd := Nat
abbrev Thread := Nat

/-- The connection states of the server and, but for the last, of the client. -/
inductive ConnState
  | free | tlsHandshake | clientRequest | clientBody | serverResponse | serverBody | waiting
  | lingeringClose
deriving DecidableEq

inductive Mask
  | listener | router | keepalive | worker
  | clientConnect | clientWorker | clientKeepalive
deriving DecidableEq

/-- The table of actions, first those of the server and then those of the client. -/
inductive Action
  | routerTlsHandshake | routerProcessHeaders | keepaliveWaitConnection
  | workerProcessRequest | lingerReadConnection
  | connectHost | processTlsHandshake | processNextRequest | clientKeepaliveWaitConnection
deriving DecidableEq

structure Message where
  action : Action
  conn : Slot
deriving DecidableEq

inductive Scheme
  | http | https | other
deriving DecidableEq

structure Url where
  scheme : Scheme
  host : Bytes
  port : Nat
  path : Bytes
deriving DecidableEq

/-- An `http_client_request`; `id` stands for its handler object. -/
structure Request where
  id : Nat
  method : Bytes
  url : Url
deriving DecidableEq

/-- What a client socket was opened for. -/
structure Target where
  host : Bytes
  port : Nat
  scheme : Scheme
deriving DecidableEq

def Request.target (r : Request) : Target := ⟨r.url.host, r.url.port, r.url.scheme⟩

structure Sock where
  fd : Fd
  /-- `none` for an accepted socket. -/
  target : Option Target

structure Conn where
  state : ConnState
  sock : Option Sock
  urlRequests : List Request
  /-- The client's request whose handler the connection has. -/
  handler : Option Request

def Conn.pollFd (conn : Conn) : Option Fd := conn.sock.map Sock.fd

def pollEventIn : Nat := 0x001
def pollEventOut : Nat := 0x004
def pollEventErr : Nat := 0x008
def pollEventHup : Nat := 0x010
def pollEventInvalid : Nat := 0x020

/-- Conditions that handlers read off buffers, parsers, request handlers and the clock. -/
inductive Cond
  | bytesWritable | backIsZero | isFinished | hasError | sanitizePath
  | requestHasBody | responseHasBody | connectionClose | bytesReadable
  | handleRequest | populateResponse | populateRequest | endRequest
  | connectionTimeout | keepaliveTimeout | listenIsTls | lookup | sslCtx
deriving DecidableEq

inductive Io
  | bufferRead | bufferWrite | readRequestBody | writeResponseBody
  | writeRequestBody | readResponseBody
deriving DecidableEq

inductive Handshake
  | none | wantWrite | wantRead | other

inductive Connect
  | noSocket | refused (fd : Fd) | connected (fd : Fd)

inductive Send
  | sent | again | failed

/-- A function of the protocol that is called through its table. -/
inductive Call
  | message (msg : Message)
  | connection (c : Slot) (revents : Nat)
  | accept
deriving DecidableEq

inductive Op
  | acceptReady
  | newConnection
  | getNewConnectionForUrl (url : Url)
  | getExistingConnectionForUrl (url : Url) (maxRequests : Nat)
  | init (c : Slot)
  | accept (c : Slot)
  | connectToHost (c : Slot) (target : Target)
  | close (c : Slot)
  | startLingeringClose (c : Slot)
  | getState (c : Slot)
  | setState (c : Slot) (state : ConnState)
  | setHandler (c : Slot) (handler : Option Request)
  | pushFree (c : Slot)
  | addEvents (t : Thread) (c : Slot) (events : Nat)
  | removeEvents (t : Thread) (c : Slot)
  | chooseThread (t : Thread) (m : Mask)
  | engineChooseThread (m : Mask)
  | sendNotify (dest : Thread) (msg : Message)
  | queueMessage (dest : Thread) (msg : Message)
  | call (t : Thread) (f : Call)
  | test (q : Cond) (c : Slot)
  | transfer (q : Io) (c : Slot)
  | doHandshake (c : Slot)
  | responseToBuffer (c : Slot)
  | requestToBuffer (c : Slot) (r : Request)
  | urlRequestsFront (c : Slot)
  | urlRequestsPushBack (c : Slot) (r : Request)
  | urlRequestsPushIfActive (c : Slot) (r : Request)
  | urlRequestsPopFront (c : Slot)
  | undefined
deriving DecidableEq

@[reducible] def Answer : Op → Type
  | .acceptReady => Bool
  | .newConnection => Option Slot
  | .getNewConnectionForUrl _ => Option Slot
  | .getExistingConnectionForUrl _ _ => Option Slot
  | .accept _ => Fd
  | .connectToHost _ _ => Connect
  | .startLingeringClose _ => Bool
  | .getState _ => ConnState
  | .removeEvents _ _ => Bool
  | .chooseThread _ _ => Option Thread
  | .engineChooseThread _ => Option Thread
  | .sendNotify _ _ => Send
  | .test _ _ => Bool
  | .transfer _ _ => Option Nat
  | .doHandshake _ => Handshake
  | .responseToBuffer _ => Int
  | .requestToBuffer _ _ => Int
  | .urlRequestsFront _ => Option Request
  | .urlRequestsPushIfActive _ _ => Bool
  | .urlRequestsPopFront _ => Bool
  | .undefined => Empty
  | _ => Unit

abbrev Prog := Program Answer

def issue (o : Op) : Prog (Answer o) := .perform o

/-! ### The operations as programs -/

def test (q : Cond) (c : Slot) : Prog Bool := issue (.test q c)

/-- An `io_result`: its size, or `none` when it has an error. -/
def transfer (q : Io) (c : Slot) : Prog (Option Nat) := issue (.transfer q c)

def doHandshake (c : Slot) : Prog Handshake := issue (.doHandshake c)

def getState (c : Slot) : Prog ConnState := issue (.getState c)

def setState (c : Slot) (state : ConnState) : Prog Unit := issue (.setState c state)

def setHandler (c : Slot) (handler : Option Request) : Prog Unit :=
  issue (.setHandler c handler)

def addEvents (t : Thread) (c : Slot) (events : Nat) : Prog Unit :=
  issue (.addEvents t c events)

/-- `remove_events`, which ignores the result of `remove_object`. -/
def removeEvents (t : Thread) (c : Slot) : Prog Unit := do
  let _ ← issue (.removeEvents t c)

def close (c : Slot) : Prog Unit := issue (.close c)

def pushFree (c : Slot) : Prog Unit := issue (.pushFree c)

def chooseThread (t : Thread) (m : Mask) : Prog (Option Thread) := issue (.chooseThread t m)

def sendNotify (dest : Thread) (msg : Message) : Prog Send := issue (.sendNotify dest msg)

def queueMessage (dest : Thread) (msg : Message) : Prog Unit := issue (.queueMessage dest msg)

def call (t : Thread) (f : Call) : Prog Unit := issue (.call t f)

def urlRequestsFront (c : Slot) : Prog (Option Request) := issue (.urlRequestsFront c)

/-- The program has no defined behaviour from here on. -/
def undefined : Prog Unit := do
  let _ ← issue .undefined

/-- `new_connection`, which initialises the connection outside the lock. -/
def newConnection : Prog (Option Slot) := do
  match ← issue .newConnection with
  | none => return none
  | some c =>
    issue (.init c)
    return some c

def freeConnection (c : Slot) : Prog Unit := do
  setState c .free
  setHandler c none
  pushFree c

def abortConnection (c : Slot) : Prog Unit := do
  close c
  freeConnection c

def closeConnection (c : Slot) : Prog Unit := do
  close c
  freeConnection c

def sendMessage (t dest : Thread) (msg : Message) : Prog Unit := do
  if t = dest then
    call t (.message msg)
  else
    match ← sendNotify dest msg with
    | .sent => return
    | .again => queueMessage dest msg
    | .failed => return

def forwardConnection (t : Thread) (c : Slot) (m : Mask) (a : Action) : Prog Unit := do
  match ← chooseThread t m with
  | some dest => sendMessage t dest ⟨a, c⟩
  | none => abortConnection c

end Latypus.Engine
