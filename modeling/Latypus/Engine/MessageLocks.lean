import Latypus.Engine.Locks
import Latypus.Client.Handlers
import Latypus.Server.Handlers

/-! The server and the client under the `message_lock`s. Of all actions only `connect_host` sends a message,
and it is never in a queue: it is sent by `submit_request` alone, in the name of a thread that has the
connect mask and so chooses itself. -/

namespace Latypus
open Lib Engine

/-- The actions that may be in a queue. -/
def Queued (a : Action) : Prop := a ≠ .connectHost

namespace HttpServer
variable {cfg : Config} {locked : Bool} {t : Thread} {c : Slot}

theorem obeys_populateResponseHeaders : Obeys cfg Queued locked (populateResponseHeaders t c) := by
  refine obeys_op trivial fun populated _ => ?_
  cases populated with
  | true =>
    refine obeys_op trivial fun length _ => ?_
    split_ifs
    · exact obeys_bind obeys_removeEvents fun _ => obeys_bind obeys_abortConnection fun _ => obeys_pure
    · exact obeys_pure
  | false =>
    refine obeys_bind obeys_abortConnection fun _ => obeys_op trivial fun length _ => ?_
    split_ifs
    · exact obeys_bind obeys_removeEvents fun _ => obeys_bind obeys_abortConnection fun _ => obeys_pure
    · exact obeys_pure

theorem obeys_setResponseState : Obeys cfg Queued locked (setResponseState c) := by
  refine obeys_op trivial fun hasBody _ => ?_
  cases hasBody <;> exact obeys_issue trivial

theorem obeys_register {state : ConnState} {events : Nat} :
    Obeys cfg Queued locked (do setState c state; addEvents t c events) :=
  obeys_bind (obeys_issue trivial) fun _ => obeys_issue trivial

/-! ### Messages, with or without the lock -/

theorem obeys_workerProcessRequest : Obeys cfg Queued locked (workerProcessRequest t c) := by
  refine obeys_op trivial fun handled _ => ?_
  cases handled with
  | false => exact obeys_abortConnection
  | true =>
    refine obeys_op trivial fun hasBody _ => ?_
    cases hasBody with
    | true => exact obeys_register
    | false =>
      refine obeys_bind obeys_populateResponseHeaders fun length => ?_
      split_ifs
      · exact obeys_bind obeys_setResponseState fun _ => obeys_issue trivial
      · exact obeys_abortConnection

theorem obeys_lingerReadConnection : Obeys cfg Queued locked (lingerReadConnection t c) :=
  obeys_bind (obeys_issue trivial) fun _ => obeys_op trivial fun _ _ => obeys_issue trivial

theorem obeys_handleMessage (msg : Message) : Obeys cfg Queued locked (handleMessage t msg) := by
  unfold handleMessage
  cases msg.action with
  | routerTlsHandshake | routerProcessHeaders | keepaliveWaitConnection => exact obeys_register
  | workerProcessRequest => exact obeys_workerProcessRequest
  | lingerReadConnection => exact obeys_lingerReadConnection
  | _ => exact obeys_pure

/-! ### Events, timeouts and new connections, without the lock -/

theorem obeys_forward {m : Mask} {a : Action} (ha : Queued a) : Obeys cfg Queued false (do
    removeEvents t c
    forwardConnection t c m a) :=
  obeys_bind obeys_removeEvents fun _ => obeys_forwardConnection ha

theorem obeys_handleStateTlsHandshake : Obeys cfg Queued false (handleStateTlsHandshake t c) := by
  refine obeys_op trivial fun r _ => ?_
  cases r with
  | none => exact obeys_forwardConnection nofun
  | wantWrite | wantRead => exact obeys_issue trivial
  | other => exact obeys_remove_close

theorem obeys_handleStateClientRequest : Obeys cfg Queued false (handleStateClientRequest t c) := by
  refine obeys_op trivial fun writable _ => ?_
  cases writable with
  | false => exact obeys_remove_abort
  | true =>
    refine obeys_op trivial fun r _ => ?_
    cases r with
    | none => exact obeys_remove_abort
    | some size =>
      refine obeys_op trivial fun backIsZero _ => ?_
      split
      · exact obeys_remove_close
      · refine obeys_op trivial fun finished _ => ?_
        cases finished with
        | true =>
          refine obeys_op trivial fun sane _ => ?_
          cases sane with
          | true => exact obeys_forward nofun
          | false => exact obeys_remove_abort
        | false =>
          refine obeys_op trivial fun error _ => ?_
          cases error with
          | true => exact obeys_remove_abort
          | false => exact obeys_pure

theorem obeys_handleStateClientBody : Obeys cfg Queued false (handleStateClientBody t c) := by
  refine obeys_op trivial fun r _ => ?_
  cases r with
  | none => exact obeys_remove_abort
  | some size =>
    dsimp only
    split_ifs
    · exact obeys_bind obeys_populateResponseHeaders fun _ =>
        obeys_bind obeys_setResponseState fun _ => obeys_issue trivial
    · exact obeys_pure

theorem obeys_finishResponse : Obeys cfg Queued false (finishResponse t c) := by
  refine obeys_op trivial fun ended _ => ?_
  cases ended with
  | false => exact obeys_remove_abort
  | true =>
    refine obeys_op trivial fun close _ => ?_
    cases close with
    | true => exact obeys_remove_close
    | false => exact obeys_forward nofun

theorem obeys_writeBuffer : Obeys cfg Queued false (writeBuffer t c) := by
  refine obeys_op trivial fun readable _ => ?_
  cases readable with
  | false => exact obeys_finishResponse
  | true =>
    refine obeys_op trivial fun r _ => ?_
    cases r with
    | none => exact obeys_remove_abort
    | some size =>
      dsimp only
      split_ifs
      · exact obeys_finishResponse
      · exact obeys_pure

theorem obeys_handleStateServerBody : Obeys cfg Queued false (handleStateServerBody t c) := by
  refine obeys_op trivial fun hasBody _ => ?_
  cases hasBody with
  | false => exact obeys_writeBuffer
  | true =>
    refine obeys_op trivial fun r _ => ?_
    cases r with
    | none => exact obeys_remove_abort
    | some size => exact obeys_writeBuffer

theorem obeys_handleStateLingeringClose : Obeys cfg Queued false (handleStateLingeringClose t c) := by
  refine obeys_op trivial fun r _ => ?_
  cases r with
  | none => exact obeys_remove_close
  | some size => exact obeys_pure

theorem obeys_handleConnection (revents : Nat) : Obeys cfg Queued false (handleConnection t c revents) := by
  unfold handleConnection
  split_ifs
  · exact obeys_remove_close
  · refine obeys_op trivial fun state _ => ?_
    cases state with
    | free => exact obeys_remove_abort
    | tlsHandshake => exact obeys_handleStateTlsHandshake
    | clientRequest => exact obeys_handleStateClientRequest
    | clientBody => exact obeys_handleStateClientBody
    | serverResponse => exact obeys_writeBuffer
    | serverBody => exact obeys_handleStateServerBody
    | waiting => exact obeys_forward nofun
    | lingeringClose => exact obeys_handleStateLingeringClose

theorem obeys_timeoutConnection : Obeys cfg Queued false (timeoutConnection t c) := by
  refine obeys_op trivial fun state _ => ?_
  cases state with
  | clientRequest | clientBody | serverResponse | serverBody =>
    refine obeys_op trivial fun timeout _ => ?_
    cases timeout with
    | true => exact obeys_forward nofun
    | false => exact obeys_pure
  | lingeringClose =>
    refine obeys_op trivial fun timeout _ => ?_
    cases timeout with
    | true => exact obeys_remove_abort
    | false => exact obeys_pure
  | waiting =>
    refine obeys_op trivial fun timeout _ => ?_
    cases timeout with
    | true => exact obeys_remove_close
    | false => exact obeys_pure
  | free | tlsHandshake => exact obeys_pure

theorem obeys_handleAccept : Obeys cfg Queued false (handleAccept t) := by
  refine obeys_op trivial fun ready _ => ?_
  cases ready with
  | false => exact obeys_pure
  | true =>
    refine obeys_bind obeys_newConnection fun conn => ?_
    cases conn with
    | none => exact obeys_issue rfl
    | some c =>
      refine obeys_op trivial fun _ _ => obeys_op trivial fun tls _ => ?_
      cases tls with
      | true => exact obeys_bind (obeys_forwardConnection nofun) fun _ => obeys_issue rfl
      | false => exact obeys_bind (obeys_forwardConnection nofun) fun _ => obeys_issue rfl

end HttpServer

namespace HttpClient
variable {cfg : Config} {locked : Bool} {t : Thread} {c : Slot}

theorem obeys_undefined : Obeys cfg Queued locked undefined := obeys_op trivial fun x _ => x.elim

theorem obeys_urlRequestsFront {f : Option Request → Prog Unit} (hnone : f none = undefined)
    (hsome : ∀ r, Obeys cfg Queued locked (f (some r))) : Obeys cfg Queued locked (urlRequestsFront c >>= f) := by
  refine obeys_op trivial fun r _ => ?_
  cases r with
  | none =>
    rw [hnone]
    exact obeys_undefined
  | some r => exact hsome r

theorem obeys_populateRequestHeaders {r : Request} : Obeys cfg Queued locked (populateRequestHeaders t c r) := by
  refine obeys_op trivial fun populated _ => ?_
  cases populated with
  | true =>
    refine obeys_op trivial fun length _ => ?_
    split_ifs
    · exact obeys_bind obeys_removeEvents fun _ => obeys_bind obeys_abortConnection fun _ => obeys_pure
    · exact obeys_pure
  | false =>
    refine obeys_bind obeys_abortConnection fun _ => obeys_op trivial fun length _ => ?_
    split_ifs
    · exact obeys_bind obeys_removeEvents fun _ => obeys_bind obeys_abortConnection fun _ => obeys_pure
    · exact obeys_pure

/-! ### Messages, with or without the lock -/

theorem obeys_processTlsHandshake : Obeys cfg Queued locked (processTlsHandshake t c) :=
  obeys_bind (obeys_issue trivial) fun _ => obeys_issue trivial

theorem obeys_processNextRequest : Obeys cfg Queued locked (processNextRequest t c) := by
  refine obeys_urlRequestsFront rfl fun r => ?_
  refine obeys_bind (obeys_issue trivial) fun _ => obeys_bind obeys_populateRequestHeaders fun length => ?_
  split_ifs
  · exact obeys_bind (obeys_issue trivial) fun _ => obeys_issue trivial
  · exact obeys_abortConnection

/-- The actions of the client that may be in a queue. -/
theorem obeys_handleMessage_queued {msg : Message} (hmsg : Queued msg.action) :
    Obeys cfg Queued locked (handleMessage t msg) := by
  unfold handleMessage
  cases haction : msg.action with
  | connectHost => exact absurd haction hmsg
  | processTlsHandshake => exact obeys_processTlsHandshake
  | processNextRequest => exact obeys_processNextRequest
  | _ => exact obeys_pure

/-! ### `connect_host`, events and timeouts, without the lock -/

theorem obeys_processConnection : Obeys cfg Queued false (processConnection t c) := obeys_forwardConnection nofun

theorem obeys_connectHost : Obeys cfg Queued false (connectHost t c) := by
  refine obeys_urlRequestsFront rfl fun r => ?_
  refine obeys_op trivial fun found _ => ?_
  cases found with
  | false => exact obeys_abortConnection
  | true =>
    rw [if_pos rfl]
    cases r.url.scheme with
    | http =>
      refine obeys_op trivial fun x _ => ?_
      cases x with
      | noSocket | refused fd => exact obeys_abortConnection
      | connected fd => exact obeys_processConnection
    | https =>
      refine obeys_op trivial fun ctx _ => ?_
      cases ctx with
      | false => exact obeys_undefined
      | true =>
        refine obeys_op trivial fun x _ => ?_
        cases x with
        | noSocket | refused fd => exact obeys_abortConnection
        | connected fd => exact obeys_forwardConnection nofun
    | other => exact obeys_pure

theorem obeys_handleMessage (msg : Message) : Obeys cfg Queued false (handleMessage t msg) := by
  by_cases haction : msg.action = .connectHost
  · unfold handleMessage
    rw [haction]
    exact obeys_connectHost
  · exact obeys_handleMessage_queued haction

theorem obeys_handleStateTlsHandshake : Obeys cfg Queued false (handleStateTlsHandshake t c) := by
  refine obeys_op trivial fun r _ => ?_
  cases r with
  | none => exact obeys_bind obeys_removeEvents fun _ => obeys_processNextRequest
  | wantWrite | wantRead => exact obeys_issue trivial
  | other => exact obeys_remove_close

theorem obeys_awaitResponse : Obeys cfg Queued false (awaitResponse t c) :=
  obeys_bind obeys_removeEvents fun _ => obeys_bind (obeys_issue trivial) fun _ => obeys_issue trivial

theorem obeys_handleStateClientRequest : Obeys cfg Queued false (handleStateClientRequest t c) := by
  refine obeys_op trivial fun r _ => ?_
  cases r with
  | none => exact obeys_remove_abort
  | some size =>
    refine obeys_op trivial fun readable _ => ?_
    cases readable with
    | true => exact obeys_pure
    | false =>
      refine obeys_op trivial fun hasBody _ => ?_
      cases hasBody with
      | true => exact obeys_bind (obeys_issue trivial) fun _ => obeys_issue rfl
      | false => exact obeys_awaitResponse

theorem obeys_handleStateClientBody : Obeys cfg Queued false (handleStateClientBody t c) := by
  refine obeys_op trivial fun r _ => ?_
  cases r with
  | none => exact obeys_remove_abort
  | some size =>
    dsimp only
    split_ifs
    · exact obeys_awaitResponse
    · exact obeys_pure

theorem obeys_finishRequest : Obeys cfg Queued false (finishRequest t c) := by
  refine obeys_op trivial fun ended _ => ?_
  cases ended with
  | false => exact obeys_remove_abort
  | true =>
    refine obeys_op trivial fun close _ => ?_
    cases close with
    | true => exact obeys_remove_close
    | false =>
      refine obeys_bind obeys_removeEvents fun _ => obeys_bind (obeys_issue trivial) fun _ => ?_
      refine obeys_op trivial fun more _ => ?_
      cases more with
      | true => exact obeys_processConnection
      | false => exact obeys_closeConnection

theorem obeys_handleStateServerResponse : Obeys cfg Queued false (handleStateServerResponse t c) := by
  refine obeys_op trivial fun writable _ => ?_
  cases writable with
  | false => exact obeys_remove_abort
  | true =>
    refine obeys_op trivial fun r _ => ?_
    cases r with
    | none => exact obeys_remove_abort
    | some size =>
      refine obeys_op trivial fun finished _ => ?_
      cases finished with
      | true =>
        refine obeys_op trivial fun hasBody _ => ?_
        cases hasBody with
        | true => exact obeys_bind (obeys_issue trivial) fun _ => obeys_issue rfl
        | false => exact obeys_finishRequest
      | false =>
        refine obeys_op trivial fun error _ => ?_
        cases error with
        | true => exact obeys_remove_abort
        | false => exact obeys_pure

theorem obeys_handleStateServerBody : Obeys cfg Queued false (handleStateServerBody t c) := by
  refine obeys_op trivial fun r _ => ?_
  cases r with
  | none => exact obeys_remove_abort
  | some size =>
    dsimp only
    split_ifs
    · exact obeys_finishRequest
    · exact obeys_pure

theorem obeys_handleConnection (revents : Nat) : Obeys cfg Queued false (handleConnection t c revents) := by
  unfold handleConnection
  split_ifs
  · exact obeys_remove_close
  · refine obeys_op trivial fun state _ => ?_
    cases state with
    | tlsHandshake => exact obeys_handleStateTlsHandshake
    | clientRequest => exact obeys_handleStateClientRequest
    | clientBody => exact obeys_handleStateClientBody
    | serverResponse => exact obeys_handleStateServerResponse
    | serverBody => exact obeys_handleStateServerBody
    | waiting => exact obeys_closeConnection
    | free | lingeringClose => exact obeys_remove_abort

theorem obeys_timeoutConnection : Obeys cfg Queued false (timeoutConnection t c) := by
  refine obeys_op trivial fun state _ => ?_
  cases state with
  | clientRequest | clientBody | serverResponse | serverBody =>
    refine obeys_op trivial fun timeout _ => ?_
    cases timeout with
    | true => exact obeys_remove_abort
    | false => exact obeys_pure
  | waiting =>
    refine obeys_op trivial fun timeout _ => ?_
    cases timeout with
    | true => exact obeys_remove_close
    | false => exact obeys_pure
  | free | tlsHandshake | lingeringClose => exact obeys_pure

/-! ### `submit_request`, whose message a thread sends to itself -/

theorem obeys_submitNew (urlReq : Request) : Obeys cfg Queued false (submitNew urlReq) := by
  refine obeys_op trivial fun conn _ => ?_
  cases conn with
  | none => exact obeys_pure
  | some c =>
    refine obeys_bind (obeys_issue trivial) fun _ => obeys_op trivial fun dest hdest => ?_
    cases dest with
    | none => exact obeys_bind obeys_undefined fun _ => obeys_pure
    | some dest => exact obeys_bind (obeys_forwardConnection_self hdest) fun _ => obeys_pure

theorem obeys_submitRequest (urlReq : Request) (maxRequests : Nat) :
    Obeys cfg Queued false (submitRequest urlReq maxRequests) := by
  unfold submitRequest
  split_ifs
  · exact obeys_pure
  · refine obeys_op trivial fun conn _ => ?_
    cases conn with
    | none => exact obeys_submitNew urlReq
    | some c =>
      refine obeys_op trivial fun joined _ => ?_
      cases joined with
      | true => exact obeys_pure
      | false => exact obeys_submitNew urlReq
  · exact obeys_submitNew urlReq

end HttpClient

/-! ### Both protocols -/

namespace Engine

/-- What `mainloop` starts. -/
inductive Entry
  | accept
  | serverConnection (c : Slot) (revents : Nat)
  | serverTimeout (c : Slot)
  | clientConnection (c : Slot) (revents : Nat)
  | clientTimeout (c : Slot)

/-- A call of `submit_request`. -/
structure Submission where
  urlReq : Request
  maxRequestsPerConnection : Nat

/-- The actions are registered by their protocols, each its own. -/
def handleMessage (t : Thread) (msg : Message) : Prog Unit :=
  match msg.action with
  | .routerTlsHandshake | .routerProcessHeaders | .keepaliveWaitConnection | .workerProcessRequest
  | .lingerReadConnection => HttpServer.handleMessage t msg
  | .connectHost | .processTlsHandshake | .processNextRequest | .clientKeepaliveWaitConnection =>
    HttpClient.handleMessage t msg

def handlers : Handlers Entry Submission where
  body t
    | .message msg => handleMessage t msg
    -- only `http_client` calls `handle_connection` from a handler, and only `http_server` `handle_accept`
    | .connection c revents => HttpClient.handleConnection t c revents
    | .accept => HttpServer.handleAccept t
  entry t
    | .accept => HttpServer.handleAccept t
    | .serverConnection c revents => HttpServer.handleConnection t c revents
    | .serverTimeout c => HttpServer.timeoutConnection t c
    | .clientConnection c revents => HttpClient.handleConnection t c revents
    | .clientTimeout c => HttpClient.timeoutConnection t c
  submit x := do
    let _ ← HttpClient.submitRequest x.urlReq x.maxRequestsPerConnection

theorem obeys_handleMessage_queued {cfg : Config} {locked : Bool} {t : Thread} {msg : Message}
    (hmsg : Queued msg.action) : Obeys cfg Queued locked (handleMessage t msg) := by
  unfold handleMessage
  split
  all_goals first
    | exact HttpServer.obeys_handleMessage msg
    | exact HttpClient.obeys_handleMessage_queued hmsg

theorem obeys_handleMessage {cfg : Config} {t : Thread} (msg : Message) :
    Obeys cfg Queued false (handleMessage t msg) := by
  unfold handleMessage
  split
  all_goals first
    | exact HttpServer.obeys_handleMessage msg
    | exact HttpClient.obeys_handleMessage msg

theorem handlers_sound (cfg : Config) : handlers.Sound cfg Queued where
  message t msg hmsg := obeys_handleMessage_queued hmsg
  body t f := by
    cases f with
    | message msg => exact obeys_handleMessage msg
    | connection c revents => exact HttpClient.obeys_handleConnection revents
    | accept => exact HttpServer.obeys_handleAccept
  entry t e := by
    cases e with
    | accept => exact HttpServer.obeys_handleAccept
    | serverConnection c revents => exact HttpServer.obeys_handleConnection revents
    | serverTimeout c => exact HttpServer.obeys_timeoutConnection
    | clientConnection c revents => exact HttpClient.obeys_handleConnection revents
    | clientTimeout c => exact HttpClient.obeys_timeoutConnection
  submit x := obeys_bind (HttpClient.obeys_submitRequest x.urlReq x.maxRequestsPerConnection) fun _ => obeys_pure

/-- In every run of the server and the client, whatever the masks of the threads are and whatever sockets are
full, no thread waits for a lock while it holds its own, and there is no cycle of waiting threads. -/
theorem messageLocks_deadlockFree {cfg : Config} {s : LockState}
    (h : (handlers.lockMachine cfg).Reaches (fun _ _ => True) s) : s.DeadlockFree :=
  LockState.deadlockFree_of_reaches (handlers_sound cfg) h

/-- A timeout of thread 0 goes to thread 1, whose socket is full and which is at its queue. -/
def timeoutRun : List (LockLabel Entry Submission) := [
  .entry 0 (.serverTimeout 5),
  .perform (.thread 0) (.getState 5) ConnState.clientRequest,
  .perform (.thread 0) (.test .connectionTimeout 5) true,
  .perform (.thread 0) (.removeEvents 0 5) true,
  .perform (.thread 0) (.chooseThread 0 .keepalive) (some 1),
  .perform (.thread 0) (.sendNotify 1 ⟨.lingerReadConnection, 5⟩) Send.again,
  .receive 1 false,
  .lock (.thread 1)]

/-- One thread waits for the lock that the other one holds. -/
theorem timeoutRun_deadlockFree : ∃ s, (handlers.lockMachine ⟨[[.router], [.keepalive]]⟩).Reaches (fun _ _ => True) s ∧
    s.Blocks (.thread 0) (.thread 1) ∧ s.DeadlockFree := by
  have hend : ((handlers.lockMachine ⟨[[.router], [.keepalive]]⟩).run .initial timeoutRun).map
      (fun s => (s.wanted (.thread 0), s.lock 1)) = some (some 1, some (.thread 1)) := by decide
  obtain ⟨s, hrun, hstate⟩ := Option.map_eq_some_iff.mp hend
  obtain ⟨hwanted, hlock⟩ := Prod.mk.inj hstate
  have hreach := (Machine.Reaches.start rfl).of_run (fun _ _ _ => trivial) hrun
  exact ⟨s, hreach, ⟨1, hwanted, hlock⟩, messageLocks_deadlockFree hreach⟩

end Engine
end Latypus
