import Latypus.Engine.Runs
import Latypus.Client.Handlers

/-! The handlers of the client keep to the ownership discipline when the answers are good. A
caller of `submit_request` may register a connection with a thread and then still set its state,
so no state is special to a thread; the one state that must not be reached is the one whose
handler closes a connection that is still registered. -/

namespace Latypus.HttpClient
open Lib Engine

def rules : Rules where
  legit x := x ≠ .waiting
  fits _ _ := True
  action
    | .connectHost => some (.clientConnect, false)
    | .processTlsHandshake => some (.clientWorker, true)
    | .processNextRequest => some (.clientWorker, true)
    | _ => none
  inplace _ := False
  queues r := r.url.scheme ≠ .other
  listens := False
  shares := True
  undefinedCalls := True

section Keeps
variable {cfg : Config} {t : Thread} {c : Slot} {P : Pos} {state : Option ConnState}
variable {request : Option Request}

theorem ready : rules.Ready t state := .inr fun _ _ => trivial

theorem free_legit : rules.legit .free := nofun

theorem keeps_stay : rules.Keeps cfg (pure ()) (.reg t c) := .inr ⟨t, c, rfl⟩

theorem triple_urlRequestsFront {sock : Bool} {f : Option Request → Prog Unit}
    (hsome : ∀ r, rules.queues r →
      rules.Keeps cfg (f (some r)) (.hand c state sock (some r)))
    (hnone : f none = undefined) :
    rules.Keeps cfg (urlRequestsFront c >>= f) (.hand c state sock request) := by
  refine triple_issue (Pos.at_hand ..) fun r P' _ hP' => ?_
  obtain ⟨rfl, hr⟩ := hP'
  cases r with
  | none =>
    rw [hnone]
    exact triple_issue trivial fun a => a.elim
  | some r =>
    simpa [Pos.withRequest, Rules.Keeps] using hsome r (hr r rfl)

theorem keeps_processNextRequest :
    rules.Keeps cfg (processNextRequest t c) (.hand c state true request) := by
  refine triple_urlRequestsFront (fun r _ => ?_) rfl
  refine triple_issue (Pos.at_hand ..) fun _ P' _ hP' => ?_
  obtain rfl : P' = .hand c state true (some r) := hP'
  refine Discipline.triple_bind (Q := fun _ P' => P' = .hand c state true (some r)) ?_ ?_
  · refine triple_test (Pos.at_hand ..) fun b hb => ?_
    obtain rfl : b = true := hb
    refine triple_issue ⟨_, rfl⟩ fun length P' hlength hP' => ?_
    obtain rfl : P' = .hand c state true (some r) := hP'
    have hnot : ¬length < 0 := not_lt.mpr hlength
    rw [if_neg hnot]
    rfl
  · rintro length P' rfl
    split
    · exact triple_setState_hand nofun (triple_addEvents_hand ready (.inl rfl))
    · exact triple_abortConnection free_legit (.inl rfl)

theorem keeps_processTlsHandshake :
    rules.Keeps cfg (processTlsHandshake t c) (.hand c state true request) := by
  refine Discipline.triple_bind (triple_addEvents_hand (Q := fun _ P' => P' = .idle) ready rfl) ?_
  rintro - P' rfl
  -- the state is set when the connection is in the pollset already
  exact ⟨⟨nofun, .inr (.inr ⟨trivial, fun _ => trivial⟩)⟩, fun _ P' h => .inl h.2⟩

theorem keeps_connect {r : Request} {p : Prog Unit}
    (hp : rules.Keeps cfg p (.hand c state true (some r))) :
    rules.Keeps cfg (do
      match ← issue (.connectToHost c r.target) with
      | .connected _ => p
      | _ => abortConnection c) (.hand c state false (some r)) := by
  refine triple_issue ⟨_, _, rfl, rfl⟩ fun a P' _ hP' => ?_
  cases a with
  | noSocket =>
    obtain rfl : P' = .hand c state false (some r) := hP'
    exact triple_abortConnection free_legit (.inl rfl)
  | refused fd =>
    obtain rfl : P' = .hand c state true (some r) := hP'
    exact triple_abortConnection free_legit (.inl rfl)
  | connected fd =>
    obtain rfl : P' = .hand c state true (some r) := hP'
    exact hp

theorem keeps_connectHost :
    rules.Keeps cfg (connectHost t c) (.hand c state false request) := by
  refine triple_urlRequestsFront (fun r hr => ?_) rfl
  refine triple_test (Pos.at_hand ..) fun found _ => ?_
  cases found with
  | false => exact triple_abortConnection free_legit (.inl rfl)
  | true =>
    rw [if_pos rfl]
    cases hscheme : r.url.scheme with
    | http => exact keeps_connect (triple_forwardConnection free_legit rfl fun _ h => h)
    | https =>
      refine triple_test (Pos.at_hand ..) fun ctx _ => ?_
      cases ctx with
      | true => exact keeps_connect (triple_forwardConnection free_legit rfl fun _ h => h)
      | false => exact triple_issue trivial fun a => a.elim
    | other => exact absurd hscheme hr

theorem keeps_handleMessage {msg : Message} (h : rules.Delivers cfg t msg P) :
    rules.Keeps cfg (handleMessage t msg) P := by
  obtain ⟨action, c⟩ := msg
  rcases h with ⟨state, sock, request, m, rfl, haction, -⟩ | ⟨-, haction⟩
  · cases action with
    | connectHost =>
      cases haction
      exact keeps_connectHost
    | processTlsHandshake =>
      cases haction
      exact keeps_processTlsHandshake
    | processNextRequest =>
      cases haction
      exact keeps_processNextRequest
    | routerTlsHandshake => cases haction
    | routerProcessHeaders => cases haction
    | keepaliveWaitConnection => cases haction
    | workerProcessRequest => cases haction
    | lingerReadConnection => cases haction
    | clientKeepaliveWaitConnection => cases haction
  · exact haction.elim

theorem keeps_handleStateTlsHandshake :
    rules.Keeps cfg (handleStateTlsHandshake t c) (.reg t c) := by
  refine triple_doHandshake (Pos.at_reg ..) fun r => ?_
  cases r with
  | none => exact triple_removeEvents keeps_processNextRequest
  | wantWrite => exact triple_addEvents_reg (.inl rfl)
  | wantRead => exact triple_addEvents_reg (.inl rfl)
  | other => exact keeps_remove_close free_legit

theorem keeps_awaitResponse : rules.Keeps cfg (awaitResponse t c) (.reg t c) := by
  refine triple_removeEvents ?_
  refine Discipline.triple_bind (triple_addEvents_hand (Q := fun _ P' => P' = .idle) ready rfl) ?_
  rintro - P' rfl
  exact ⟨⟨nofun, .inr (.inr ⟨trivial, fun _ => trivial⟩)⟩, fun _ P' h => .inl h.2⟩

/-- A handler that sets a state and starts over in it. -/
theorem keeps_restart {x : ConnState} {revents : Nat} (hx : x ≠ .waiting) :
    rules.Keeps cfg (do setState c x; call t (.connection c revents)) (.reg t c) :=
  triple_setState_reg hx trivial (triple_call rfl fun _ h => h)

theorem keeps_handleStateClientRequest :
    rules.Keeps cfg (handleStateClientRequest t c) (.reg t c) := by
  refine triple_transfer (Pos.at_reg ..) fun r => ?_
  cases r with
  | none => exact keeps_remove_abort free_legit
  | some size =>
    refine triple_test (Pos.at_reg ..) fun unsent _ => ?_
    cases unsent with
    | true => exact keeps_stay
    | false =>
      refine triple_test (Pos.at_reg ..) fun hasBody _ => ?_
      cases hasBody with
      | true => exact keeps_restart nofun
      | false => exact keeps_awaitResponse

theorem keeps_handleStateClientBody :
    rules.Keeps cfg (handleStateClientBody t c) (.reg t c) := by
  refine triple_transfer (Pos.at_reg ..) fun r => ?_
  cases r with
  | none => exact keeps_remove_abort free_legit
  | some size =>
    dsimp only
    split
    · exact keeps_awaitResponse
    · exact keeps_stay

theorem keeps_finishRequest : rules.Keeps cfg (finishRequest t c) (.reg t c) := by
  refine triple_test (Pos.at_reg ..) fun ended _ => ?_
  cases ended with
  | false => exact keeps_remove_abort free_legit
  | true =>
    refine triple_test (Pos.at_reg ..) fun close _ => ?_
    cases close with
    | true => exact keeps_remove_close free_legit
    | false =>
      refine triple_removeEvents (triple_issue (Pos.at_hand ..) fun _ P' _ hP' => ?_)
      obtain rfl : P' = .hand c none true none := hP'
      refine triple_issue ⟨_, _, _, rfl⟩ fun more P' _ hP' => ?_
      have hpop : (Pos.hand c none true none).withRequest c none = .hand c none true none := by
        simp [Pos.withRequest]
      obtain rfl : P' = .hand c none true none := (show P' = _ from hP').trans hpop
      cases more with
      | true => exact triple_forwardConnection free_legit rfl fun _ h => h
      | false => exact triple_abortConnection free_legit (.inl rfl)

theorem keeps_handleStateServerResponse :
    rules.Keeps cfg (handleStateServerResponse t c) (.reg t c) := by
  refine triple_test (Pos.at_reg ..) fun writable _ => ?_
  cases writable with
  | false => exact keeps_remove_abort free_legit
  | true =>
    refine triple_transfer (Pos.at_reg ..) fun r => ?_
    cases r with
    | none => exact keeps_remove_abort free_legit
    | some size =>
      refine triple_test (Pos.at_reg ..) fun finished _ => ?_
      cases finished with
      | true =>
        refine triple_test (Pos.at_reg ..) fun hasBody _ => ?_
        cases hasBody with
        | true => exact keeps_restart nofun
        | false => exact keeps_finishRequest
      | false =>
        refine triple_test (Pos.at_reg ..) fun error _ => ?_
        cases error with
        | true => exact keeps_remove_abort free_legit
        | false => exact keeps_stay

theorem keeps_handleStateServerBody :
    rules.Keeps cfg (handleStateServerBody t c) (.reg t c) := by
  refine triple_transfer (Pos.at_reg ..) fun r => ?_
  cases r with
  | none => exact keeps_remove_abort free_legit
  | some size =>
    dsimp only
    split
    · exact keeps_finishRequest
    · exact keeps_stay

theorem keeps_handleConnection (revents : Nat) :
    rules.Keeps cfg (handleConnection t c revents) (.reg t c) := by
  unfold handleConnection
  split
  · exact keeps_remove_close free_legit
  · refine triple_getState fun x hx _ => ?_
    cases x with
    | free => exact keeps_remove_abort free_legit
    | tlsHandshake => exact keeps_handleStateTlsHandshake
    | clientRequest => exact keeps_handleStateClientRequest
    | clientBody => exact keeps_handleStateClientBody
    | serverResponse => exact keeps_handleStateServerResponse
    | serverBody => exact keeps_handleStateServerBody
    | waiting => exact absurd rfl hx
    | lingeringClose => exact keeps_remove_abort free_legit

theorem keeps_timeoutConnection : rules.Keeps cfg (timeoutConnection t c) (.reg t c) := by
  have habort : rules.Keeps cfg (do
      if ← test .connectionTimeout c then
        removeEvents t c
        abortConnection c) (.reg t c) := by
    refine triple_test (Pos.at_reg ..) fun expired _ => ?_
    cases expired with
    | true => exact keeps_remove_abort free_legit
    | false => exact keeps_stay
  refine triple_getState fun x hx _ => ?_
  cases x with
  | free => exact keeps_stay
  | tlsHandshake => exact keeps_stay
  | clientRequest => exact habort
  | clientBody => exact habort
  | serverResponse => exact habort
  | serverBody => exact habort
  | waiting => exact absurd rfl hx
  | lingeringClose => exact keeps_stay

theorem triple_submitNew {urlReq : Request} (hurl : rules.queues urlReq) (hP : P.Settled) :
    (rules.discipline cfg).Triple (fun _ P' => P'.Settled) (submitNew urlReq) P := by
  refine triple_issue hP fun c P' _ hP' => ?_
  cases c with
  | none =>
    obtain rfl : P' = P := hP'
    exact hP
  | some c =>
    obtain rfl : P' = .hand c none false none := hP'
    refine triple_issue ⟨hurl, _, _, rfl⟩ fun _ P' _ hP' => ?_
    obtain rfl : P' = .hand c none false none := hP'
    refine triple_issue trivial fun dest P' _ hP' => ?_
    obtain ⟨rfl, -⟩ := hP'
    cases dest with
    | none => exact triple_issue trivial fun a => a.elim
    | some t =>
      exact Discipline.triple_bind (triple_forwardConnection free_legit rfl fun _ h => h)
        fun _ _ h => h

theorem triple_submitRequest {urlReq : Request} {maxRequests : Nat} (hP : P.Settled) :
    (rules.discipline cfg).Triple (fun _ P' => P'.Settled) (submitRequest urlReq maxRequests) P := by
  unfold submitRequest
  split
  · exact hP
  · rename_i hurl
    split
    · refine triple_issue trivial fun c P' _ hP' => ?_
      obtain rfl : P' = P := hP'
      cases c with
      | none => exact triple_submitNew hurl hP
      | some c =>
        refine triple_issue ⟨trivial, hurl⟩ fun active P'' _ hP'' => ?_
        obtain rfl : P'' = P' := hP''
        cases active with
        | true => exact hP
        | false => exact triple_submitNew hurl hP
    · exact triple_submitNew hurl hP

end Keeps

theorem admits (cfg : Config) : rules.Admits cfg httpClient where
  free := free_legit
  message _ _ _ h := keeps_handleMessage h
  connection _ _ revents := keeps_handleConnection revents
  timeout _ _ := keeps_timeoutConnection
  accept _ h := by cases h
  submit submit h urlReq maxRequests P hP := by
    cases h
    exact Discipline.triple_bind (triple_submitRequest hP) fun _ _ h => h

end Latypus.HttpClient
