import Latypus.Engine.Runs
import Latypus.Server.Handlers

/-! The handlers of the server keep to the ownership discipline when the answers are good. Only a
thread with the router mask has connections in the handshake in its pollset, and that is why
`handle_state_tls_handshake` may dispatch a connection it has not removed. -/

namespace Latypus.HttpServer
open Lib Engine

def rules (cfg : Config) : Rules where
  legit _ := True
  fits t x := x = .tlsHandshake → cfg.mask t .router = true
  action
    | .routerTlsHandshake => some (.router, true)
    | .routerProcessHeaders => some (.router, true)
    | .keepaliveWaitConnection => some (.keepalive, true)
    | .workerProcessRequest => some (.worker, true)
    | .lingerReadConnection => some (.keepalive, true)
    | _ => none
  inplace a := a = .routerProcessHeaders
  queues _ := True
  listens := True
  shares := False
  undefinedCalls := False

section Keeps
variable {cfg : Config} {t : Thread} {c : Slot} {α : Type} {P : Pos}

theorem triple_populateResponseHeaders {Q : α → Pos → Prop} {f : Int → Prog α} (hat : P.At c)
    (hf : ∀ length, ((rules cfg).discipline cfg).Triple Q (f length) P) :
    ((rules cfg).discipline cfg).Triple Q (populateResponseHeaders t c >>= f) P := by
  refine Discipline.triple_bind (Q := fun _ P' => P' = P) ?_ ?_
  · unfold populateResponseHeaders
    refine triple_test hat fun b hb => ?_
    obtain rfl : b = true := hb
    refine triple_issue hat fun length P' hlength hP' => ?_
    obtain rfl : P' = P := hP'
    have hnot : ¬length < 0 := not_lt.mpr hlength
    rw [if_neg hnot]
    rfl
  · rintro length P' rfl
    exact hf length

/-- A state that a connection may have in any pollset, set and registered. -/
theorem keeps_register {x : ConnState} {state : Option ConnState} {request : Option Request}
    {events : Nat} (hx : (rules cfg).fits t x) :
    (rules cfg).Keeps cfg (do setState c x; addEvents t c events) (.hand c state true request) :=
  triple_setState_hand trivial (triple_addEvents_hand (.inl ⟨x, rfl, hx⟩) (.inl rfl))

theorem keeps_respond {state : Option ConnState} {request : Option Request} :
    (rules cfg).Keeps cfg (do setResponseState c; addEvents t c pollEventOut)
      (.hand c state true request) := by
  refine triple_test (Pos.at_hand ..) fun b _ => ?_
  cases b with
  | true => exact keeps_register nofun
  | false => exact keeps_register nofun

theorem keeps_respond_reg :
    (rules cfg).Keeps cfg (do setResponseState c; addEvents t c pollEventOut) (.reg t c) := by
  refine triple_test (Pos.at_reg ..) fun b _ => ?_
  cases b with
  | true => exact triple_setState_reg trivial nofun (triple_addEvents_reg (.inl rfl))
  | false => exact triple_setState_reg trivial nofun (triple_addEvents_reg (.inl rfl))

theorem keeps_stay : (rules cfg).Keeps cfg (pure ()) (.reg t c) := .inr ⟨t, c, rfl⟩

theorem keeps_handleStateTlsHandshake (hmask : cfg.mask t .router) :
    (rules cfg).Keeps cfg (handleStateTlsHandshake t c) (.reg t c) := by
  refine triple_doHandshake (Pos.at_reg ..) fun r => ?_
  cases r with
  | none => exact triple_forwardConnection_reg hmask rfl fun _ h => h
  | wantWrite => exact triple_addEvents_reg (.inl rfl)
  | wantRead => exact triple_addEvents_reg (.inl rfl)
  | other => exact keeps_remove_close trivial

theorem keeps_handleStateClientRequest :
    (rules cfg).Keeps cfg (handleStateClientRequest t c) (.reg t c) := by
  refine triple_test (Pos.at_reg ..) fun writable _ => ?_
  cases writable with
  | false => exact keeps_remove_abort trivial
  | true =>
    refine triple_transfer (Pos.at_reg ..) fun r => ?_
    cases r with
    | none => exact keeps_remove_abort trivial
    | some size =>
      refine triple_test (Pos.at_reg ..) fun backIsZero _ => ?_
      split
      · exact keeps_remove_close trivial
      · refine triple_test (Pos.at_reg ..) fun finished _ => ?_
        cases finished with
        | true =>
          refine triple_test (Pos.at_reg ..) fun sane _ => ?_
          cases sane with
          | true => exact keeps_remove_forward trivial rfl
          | false => exact keeps_remove_abort trivial
        | false =>
          refine triple_test (Pos.at_reg ..) fun error _ => ?_
          cases error with
          | true => exact keeps_remove_abort trivial
          | false => exact keeps_stay

theorem keeps_handleStateClientBody :
    (rules cfg).Keeps cfg (handleStateClientBody t c) (.reg t c) := by
  refine triple_transfer (Pos.at_reg ..) fun r => ?_
  cases r with
  | none => exact keeps_remove_abort trivial
  | some size =>
    dsimp only
    split
    · exact triple_populateResponseHeaders (Pos.at_reg ..) fun _ => keeps_respond_reg
    · exact keeps_stay

theorem keeps_finishResponse : (rules cfg).Keeps cfg (finishResponse t c) (.reg t c) := by
  refine triple_test (Pos.at_reg ..) fun ended _ => ?_
  cases ended with
  | false => exact keeps_remove_abort trivial
  | true =>
    refine triple_test (Pos.at_reg ..) fun close _ => ?_
    cases close with
    | true => exact keeps_remove_close trivial
    | false => exact keeps_remove_forward trivial rfl

theorem keeps_writeBuffer : (rules cfg).Keeps cfg (writeBuffer t c) (.reg t c) := by
  refine triple_test (Pos.at_reg ..) fun readable _ => ?_
  cases readable with
  | false => exact keeps_finishResponse
  | true =>
    refine triple_transfer (Pos.at_reg ..) fun r => ?_
    cases r with
    | none => exact keeps_remove_abort trivial
    | some size =>
      dsimp only
      split
      · exact keeps_finishResponse
      · exact keeps_stay

theorem keeps_handleStateServerBody :
    (rules cfg).Keeps cfg (handleStateServerBody t c) (.reg t c) := by
  refine triple_test (Pos.at_reg ..) fun hasBody _ => ?_
  cases hasBody with
  | false => exact keeps_writeBuffer
  | true =>
    refine triple_transfer (Pos.at_reg ..) fun r => ?_
    cases r with
    | none => exact keeps_remove_abort trivial
    | some size => exact keeps_writeBuffer

theorem keeps_handleStateLingeringClose :
    (rules cfg).Keeps cfg (handleStateLingeringClose t c) (.reg t c) := by
  refine triple_transfer (Pos.at_reg ..) fun r => ?_
  cases r with
  | none => exact keeps_remove_close trivial
  | some size => exact keeps_stay

theorem keeps_handleConnection (revents : Nat) :
    (rules cfg).Keeps cfg (handleConnection t c revents) (.reg t c) := by
  unfold handleConnection
  split
  · exact keeps_remove_close trivial
  · refine triple_getState fun x _ hfits => ?_
    cases x with
    | free => exact keeps_remove_abort trivial
    | tlsHandshake => exact keeps_handleStateTlsHandshake (hfits rfl)
    | clientRequest => exact keeps_handleStateClientRequest
    | clientBody => exact keeps_handleStateClientBody
    | serverResponse => exact keeps_writeBuffer
    | serverBody => exact keeps_handleStateServerBody
    | waiting => exact keeps_remove_forward trivial rfl
    | lingeringClose => exact keeps_handleStateLingeringClose

theorem keeps_timeoutConnection : (rules cfg).Keeps cfg (timeoutConnection t c) (.reg t c) := by
  have hlinger : (rules cfg).Keeps cfg (do
      if ← test .connectionTimeout c then
        removeEvents t c
        lingerConnection t c) (.reg t c) := by
    refine triple_test (Pos.at_reg ..) fun expired _ => ?_
    cases expired with
    | true => exact keeps_remove_forward trivial rfl
    | false => exact keeps_stay
  refine triple_getState fun x _ _ => ?_
  cases x with
  | free => exact keeps_stay
  | tlsHandshake => exact keeps_stay
  | clientRequest => exact hlinger
  | clientBody => exact hlinger
  | serverResponse => exact hlinger
  | serverBody => exact hlinger
  | waiting =>
    refine triple_test (Pos.at_reg ..) fun expired _ => ?_
    cases expired with
    | true => exact keeps_remove_close trivial
    | false => exact keeps_stay
  | lingeringClose =>
    refine triple_test (Pos.at_reg ..) fun expired _ => ?_
    cases expired with
    | true => exact keeps_remove_abort trivial
    | false => exact keeps_stay

theorem keeps_workerProcessRequest {state : Option ConnState} {request : Option Request} :
    (rules cfg).Keeps cfg (workerProcessRequest t c) (.hand c state true request) := by
  refine triple_test (Pos.at_hand ..) fun handled _ => ?_
  cases handled with
  | false => exact triple_abortConnection trivial (.inl rfl)
  | true =>
    refine triple_test (Pos.at_hand ..) fun hasBody _ => ?_
    cases hasBody with
    | true => exact keeps_register nofun
    | false =>
      refine triple_populateResponseHeaders (Pos.at_hand ..) fun length => ?_
      split
      · exact keeps_respond
      · exact triple_abortConnection trivial (.inl rfl)

theorem keeps_lingerReadConnection {state : Option ConnState} {request : Option Request} :
    (rules cfg).Keeps cfg (lingerReadConnection t c) (.hand c state true request) := by
  refine triple_setState_hand trivial (triple_issue ⟨_, _, _, rfl⟩ fun _ P' _ hP' => ?_)
  obtain rfl : P' = .hand c (some .lingeringClose) true request := hP'
  exact triple_addEvents_hand (.inl ⟨_, rfl, nofun⟩) (.inl rfl)

theorem keeps_handleMessage {msg : Message} (h : (rules cfg).Delivers cfg t msg P) :
    (rules cfg).Keeps cfg (handleMessage t msg) P := by
  obtain ⟨action, c⟩ := msg
  rcases h with ⟨state, sock, request, m, rfl, haction, hmask⟩ | ⟨rfl, haction⟩
  · cases action with
    | routerTlsHandshake =>
      cases haction
      exact keeps_register fun _ => hmask
    | routerProcessHeaders =>
      cases haction
      exact keeps_register nofun
    | keepaliveWaitConnection =>
      cases haction
      exact keeps_register nofun
    | workerProcessRequest =>
      cases haction
      exact keeps_workerProcessRequest
    | lingerReadConnection =>
      cases haction
      exact keeps_lingerReadConnection
    | connectHost => cases haction
    | processTlsHandshake => cases haction
    | processNextRequest => cases haction
    | clientKeepaliveWaitConnection => cases haction
  · -- the connection whose handshake is done stays where it is
    obtain rfl : action = .routerProcessHeaders := haction
    exact triple_setState_reg trivial nofun (triple_addEvents_reg (.inl rfl))

theorem keeps_handleAccept (hP : P.Settled) : (rules cfg).Keeps cfg (handleAccept t) P := by
  refine triple_issue trivial fun ready P' _ hP' => ?_
  obtain rfl : P' = P := hP'
  cases ready with
  | false => exact hP
  | true =>
    refine triple_newConnection hP (triple_call hP fun _ h => h) fun c => ?_
    refine triple_issue ⟨trivial, _, _, rfl⟩ fun _ P'' _ hP'' => ?_
    obtain rfl : P'' = .hand c none true none := hP''
    refine triple_test (Pos.at_hand ..) fun isTls _ => ?_
    have hagain : ∀ (_ : Unit) P, P.Settled → (rules cfg).Keeps cfg (call t .accept) P :=
      fun _ P hP => triple_call hP fun _ h => h
    cases isTls with
    | true =>
      exact Discipline.triple_bind (triple_forwardConnection trivial rfl fun _ h => h) hagain
    | false =>
      exact Discipline.triple_bind (triple_forwardConnection trivial rfl fun _ h => h) hagain

end Keeps

theorem admits (cfg : Config) : (rules cfg).Admits cfg httpServer where
  free := trivial
  message _ _ _ h := keeps_handleMessage h
  connection _ _ revents := keeps_handleConnection revents
  timeout _ _ := keeps_timeoutConnection
  accept handleAccept h t P hP := by
    cases h
    exact keeps_handleAccept hP
  submit _ h := by cases h

end Latypus.HttpServer
