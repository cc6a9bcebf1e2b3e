import Latypus.Engine.Clock
import Latypus.Engine.Conservation

/-! The timeouts of the server and the client. The sweep of `mainloop` leaves the connections alone whose
state has no timeout: those in the TLS handshake, above all. -/

namespace Latypus
open Lib Engine

namespace HttpServer

/-- The states of which `timeout_connection` looks at the clock. -/
def timesOut : ConnState → Bool
  | .clientRequest | .clientBody | .serverResponse | .serverBody | .waiting | .lingeringClose => true
  | .free | .tlsHandshake => false

theorem sweeps_timeoutConnection (t : Thread) (c : Slot) :
    Sweeps timesOut (· = .lingerReadConnection) t (timeoutConnection t c) (.due c) := by
  refine sweeps_issue (o := .getState c) rfl fun state => ?_
  cases state with
  | clientRequest | clientBody | serverResponse | serverBody =>
    exact sweeps_timeout (.inl rfl) (sweeps_forwardConnection rfl)
  | lingeringClose => exact sweeps_timeout (.inl rfl) sweeps_abortConnection
  | waiting => exact sweeps_timeout (.inr rfl) sweeps_closeConnection
  | free | tlsHandshake => exact sweeps_done

theorem sweeps_lingerReadConnection (t : Thread) (c : Slot) :
    Sweeps timesOut (· = .lingerReadConnection) t (lingerReadConnection t c) (.back c) :=
  sweeps_issue trivial fun _ => sweeps_issue trivial fun _ => sweeps_last ⟨rfl, rfl⟩ fun _ => rfl

theorem timesOut_httpServer : httpServer.TimesOut timesOut (· = .lingerReadConnection) where
  timeout := sweeps_timeoutConnection
  message t msg haction := by
    dsimp only [httpServer]
    unfold handleMessage
    rw [haction]
    exact sweeps_lingerReadConnection t msg.conn

end HttpServer

namespace HttpClient

def timesOut : ConnState → Bool
  | .clientRequest | .clientBody | .serverResponse | .serverBody | .waiting => true
  | .free | .tlsHandshake | .lingeringClose => false

theorem sweeps_timeoutConnection (t : Thread) (c : Slot) :
    Sweeps timesOut (fun _ => False) t (timeoutConnection t c) (.due c) := by
  refine sweeps_issue (o := .getState c) rfl fun state => ?_
  cases state with
  | clientRequest | clientBody | serverResponse | serverBody => exact sweeps_timeout (.inl rfl) sweeps_abortConnection
  | waiting => exact sweeps_timeout (.inr rfl) sweeps_closeConnection
  | free | tlsHandshake | lingeringClose => exact sweeps_done

theorem timesOut_httpClient : httpClient.TimesOut timesOut fun _ => False where
  timeout := sweeps_timeoutConnection
  message _ _ haction := haction.elim

end HttpClient

namespace Engine

/-- In every run of the server or the client whose answers are good and whose sweeps find no connection idle
for too long in a state without a timeout, a sweep leaves none in the pollset that is idle for too long. -/
theorem timeoutSweep_covers (cfg : Config) (x : Timeouts) :
    (∀ s, (HttpServer.httpServer.clockMachine cfg x).Reaches (Clocked.GoodTimes HttpServer.timesOut x) s →
      s.SweepCovers x) ∧
    ∀ s, (HttpClient.httpClient.clockMachine cfg x).Reaches (Clocked.GoodTimes HttpClient.timesOut x) s →
      s.SweepCovers x :=
  ⟨fun _ => sweepCovers_of_reaches (HttpServer.admits cfg) HttpServer.timesOut_httpServer,
    fun _ => sweepCovers_of_reaches (HttpClient.admits cfg) HttpClient.timesOut_httpClient⟩

/-- A connection is accepted at time 0 and registered with the first action. -/
def acceptedRun (tls : Bool) (a : Action) (state : ConnState) : List (Label × Int) :=
  let act (o : Op) (x : Answer o) : Label × Int := (.perform (.thread 0) o x, 0)
  [ (.poll 0 [.listen] false, 0), (.next 0 true, 0),
    act .acceptReady true, act .newConnection (some 0), act (.init 0) (), act (.accept 0) 5,
    act (.test .listenIsTls 0) tls, act (.chooseThread 0 .router) (some 0), act (.call 0 (.message ⟨a, 0⟩)) (),
    act (.setState 0 state) (), act (.addEvents 0 0 pollEventIn) (), act (.call 0 .accept) (), act .acceptReady false ]

/-- At time 100 the thread sweeps, and the connection has sent no request. -/
def lingerRun : List (Label × Int) :=
  let act (o : Op) (x : Answer o) : Label × Int := (.perform (.thread 0) o x, 0)
  acceptedRun false .routerProcessHeaders .clientRequest ++
  [ (.poll 0 [] true, 100), (.next 0 true, 0), (.next 0 true, 0),
    act (.getState 0) ConnState.clientRequest, act (.test .connectionTimeout 0) true, act (.removeEvents 0 0) true,
    act (.chooseThread 0 .keepalive) (some 0), act (.call 0 (.message ⟨.lingerReadConnection, 0⟩)) (),
    act (.setState 0 .lingeringClose) (), act (.startLingeringClose 0) true, act (.addEvents 0 0 pollEventIn) () ]

/-- At time 1000 the thread sweeps, and the connection has not begun its handshake. -/
def handshakeRun : List (Label × Int) :=
  acceptedRun true .routerTlsHandshake .tlsHandshake ++
  [ (.poll 0 [] true, 1000), (.next 0 true, 0), (.next 0 true, 0),
    (.perform (.thread 0) (.getState 0) ConnState.tlsHandshake, 0) ]

/-- What there is to see of the only connection and the only thread. -/
def Clocked.view (s : Clocked) : Bool × Bool × List Slot × List Slot × Int :=
  ((s.state.todo 0).isEmpty, State.isDone (s.state.tasks (.thread 0)), s.swept 0, s.state.objects 0, s.idle 0 0)

/-- The connection without a request is back in the pollset for its lingering close. -/
theorem timeoutSweep_covers_linger : ∃ s, (HttpServer.httpServer.clockMachine oneThread ⟨60, 15⟩).Reaches
      (Clocked.GoodTimes HttpServer.timesOut ⟨60, 15⟩) s ∧
    s.view = (true, true, [0], [0], 0) ∧ s.SweepCovers ⟨60, 15⟩ ∧ (Clocked.initial 1).SweepCovers ⟨60, 15⟩ := by
  have hend : ((HttpServer.httpServer.clockMachine oneThread ⟨60, 15⟩).run (.initial 1) lingerRun).map Clocked.view =
      some (true, true, [0], [0], 0) := by decide +kernel
  obtain ⟨s, hrun, hview⟩ := Option.map_eq_some_iff.mp hend
  have hgood : ∀ l ∈ lingerRun, ∀ s : Clocked, s.GoodTimes HttpServer.timesOut ⟨60, 15⟩ l := by
    have hlongest : (0 : Int) ≤ Timeouts.longest ⟨60, 15⟩ := by decide
    simp only [lingerRun, acceptedRun, List.cons_append, List.nil_append, List.forall_mem_cons, Clocked.GoodTimes,
      GoodStep, Good, Clocked.InTime, HttpServer.timesOut, hlongest, implies_true, and_true, true_or,
      List.not_mem_nil, false_imp_iff]
  have hinit : (HttpServer.httpServer.clockMachine oneThread ⟨60, 15⟩).init (.initial 1) := ⟨1, rfl⟩
  have hreach := (Machine.Reaches.start hinit).of_run hgood hrun
  exact ⟨s, hreach, hview, (timeoutSweep_covers oneThread ⟨60, 15⟩).1 s hreach,
    (timeoutSweep_covers oneThread ⟨60, 15⟩).2 _ (.start ⟨1, rfl⟩)⟩

/-- A peer that never begins the handshake keeps its connection through every sweep. -/
theorem timeoutSweep_not_covers : ¬ ∀ (cfg : Config) (x : Timeouts) (s : Clocked),
    (HttpServer.httpServer.clockMachine cfg x).Reaches (fun s l => GoodStep s.state l.1) s → s.SweepCovers x := by
  intro h
  have hend : ((HttpServer.httpServer.clockMachine oneThread ⟨60, 15⟩).run (.initial 1) handshakeRun).map
      Clocked.view = some (true, true, [0], [0], 1000) := by decide +kernel
  obtain ⟨s, hrun, hview⟩ := Option.map_eq_some_iff.mp hend
  have hgood : ∀ l ∈ handshakeRun, ∀ s : Clocked, GoodStep s.state l.1 := by
    simp only [handshakeRun, acceptedRun, List.cons_append, List.nil_append, List.forall_mem_cons, GoodStep, Good,
      implies_true, true_and, List.not_mem_nil, false_imp_iff]
  have hinit : (HttpServer.httpServer.clockMachine oneThread ⟨60, 15⟩).init (.initial 1) := ⟨1, rfl⟩
  have hcovers := h oneThread ⟨60, 15⟩ s ((Machine.Reaches.start hinit).of_run hgood hrun)
  simp only [Clocked.view, Prod.mk.injEq] at hview
  obtain ⟨htodo, hdone, hswept, hobjects, hidle⟩ := hview
  have hlate := hcovers 0 ⟨List.isEmpty_iff.mp htodo, hdone⟩ 0 (hswept ▸ List.mem_singleton_self 0)
    (hobjects ▸ List.mem_singleton_self 0)
  rw [hidle] at hlate
  exact absurd hlate (by decide)

end Engine
end Latypus
