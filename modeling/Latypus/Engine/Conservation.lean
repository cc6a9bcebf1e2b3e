import Latypus.Server.Ownership
import Latypus.Client.Ownership

/-! Connections are conserved, in the server and in the client, as long as the answers are good.
A header that does not fit the buffer makes `populate_response_headers` abort a connection that
its caller aborts again. -/

namespace Latypus.Engine
open Lib

/-- Every step that frees a connection finds that nothing else has it. -/
def FreesOnce (proto : Protocol) (cfg : Config) (s : State) : Prop :=
  ∀ e c a s', State.step proto cfg s (.perform e (.pushFree c) a) = some s' →
    c ∉ s.free ∧ ¬s.Registered c ∧ ¬s.Named c

theorem connections_conserved (cfg : Config) :
    (∀ s, (HttpServer.httpServer.machine cfg).Reaches GoodStep s →
      s.Conserved ∧ FreesOnce HttpServer.httpServer cfg s) ∧
    ∀ s, (HttpClient.httpClient.machine cfg).Reaches GoodStep s →
      s.Conserved ∧ FreesOnce HttpClient.httpClient cfg s := by
  constructor
  · intro s hs
    have howned := owned_of_reaches (HttpServer.admits cfg) hs
    exact ⟨howned.conserved, fun _ _ _ _ hstep => howned.pushFree hstep⟩
  · intro s hs
    have howned := owned_of_reaches (HttpClient.admits cfg) hs
    exact ⟨howned.conserved, fun _ _ _ _ hstep => howned.pushFree hstep⟩

/-- One thread with all the masks of the server. -/
def oneThread : Config := ⟨[[.listener, .router, .keepalive, .worker]]⟩

/-- A connection is accepted, its request head comes, and the headers of the response do not fit
the buffer. -/
def overflowRun : List Label :=
  let act (o : Op) (a : Answer o) : Label := .perform (.thread 0) o a
  [ .poll 0 [.listen] false, .next 0 true,
    act .acceptReady true, act .newConnection (some 0), act (.init 0) (), act (.accept 0) 5,
    act (.test .listenIsTls 0) false, act (.chooseThread 0 .router) (some 0),
    act (.call 0 (.message ⟨.routerProcessHeaders, 0⟩)) (),
    act (.setState 0 .clientRequest) (), act (.addEvents 0 0 pollEventIn) (),
    act (.call 0 .accept) (), act .acceptReady false,
    .poll 0 [.conn 5 pollEventIn] false, .next 0 true,
    act (.getState 0) .clientRequest, act (.test .bytesWritable 0) true,
    act (.transfer .bufferRead 0) (some 18), act (.test .backIsZero 0) false,
    act (.test .isFinished 0) true, act (.test .sanitizePath 0) true,
    act (.removeEvents 0 0) true, act (.chooseThread 0 .worker) (some 0),
    act (.call 0 (.message ⟨.workerProcessRequest, 0⟩)) (),
    act (.test .handleRequest 0) true, act (.test .requestHasBody 0) false,
    act (.test .populateResponse 0) true, act (.responseToBuffer 0) (-1),
    act (.removeEvents 0 0) true,
    act (.close 0) (), act (.setState 0 .free) (), act (.setHandler 0 none) (),
    act (.pushFree 0) (),
    act (.close 0) (), act (.setState 0 .free) (), act (.setHandler 0 none) (),
    act (.pushFree 0) () ]

/-- A thread that listens and routes, and one that works. -/
def twoThreads : Config := ⟨[[.listener, .router, .keepalive], [.worker]]⟩

/-- Two connections are accepted by the first thread. The head of one comes, and its message goes to the second
thread, which works on the request; the other one breaks and is free again. -/
def handOverRun : List Label :=
  let act (t : Thread) (o : Op) (a : Answer o) : Label := .perform (.thread t) o a
  let accepted (c fd : Nat) : List Label :=
    [ act 0 .acceptReady true, act 0 .newConnection (some c), act 0 (.init c) (), act 0 (.accept c) fd,
      act 0 (.test .listenIsTls c) false, act 0 (.chooseThread 0 .router) (some 0),
      act 0 (.call 0 (.message ⟨.routerProcessHeaders, c⟩)) (), act 0 (.setState c .clientRequest) (),
      act 0 (.addEvents 0 c pollEventIn) (), act 0 (.call 0 .accept) () ]
  [.poll 0 [.listen] false, .next 0 true] ++ accepted 1 5 ++ accepted 0 6 ++
  [ act 0 .acceptReady false,
    .poll 0 [.conn 5 pollEventIn, .conn 6 pollEventHup] false, .next 0 true,
    act 0 (.getState 1) .clientRequest, act 0 (.test .bytesWritable 1) true, act 0 (.transfer .bufferRead 1) (some 18),
    act 0 (.test .backIsZero 1) false, act 0 (.test .isFinished 1) true, act 0 (.test .sanitizePath 1) true,
    act 0 (.removeEvents 0 1) true, act 0 (.chooseThread 0 .worker) (some 1),
    act 0 (.sendNotify 1 ⟨.workerProcessRequest, 1⟩) .sent,
    .poll 1 [.ipc] false, .next 0 true, .next 1 true,
    act 1 (.test .handleRequest 1) true, act 0 (.removeEvents 0 0) true, act 0 (.close 0) (),
    act 1 (.test .requestHasBody 1) false, act 0 (.setState 0 .free) (), act 0 (.setHandler 0 none) (),
    act 1 (.test .populateResponse 1) true, act 1 (.responseToBuffer 1) (40 : Int), act 0 (.pushFree 0) (),
    act 1 (.test .responseHasBody 1) false, act 1 (.setState 1 .serverResponse) (),
    act 1 (.addEvents 1 1 pollEventOut) () ]

/-- Threads that connect and that work for a client. -/
def twoClientThreads : Config := ⟨[[.clientConnect], [.clientWorker]]⟩

/-- A request is submitted, its host connected to by the caller, and processed by the second thread. -/
def connectRun (r : Request) : List Label :=
  let act (e : Exec) (o : Op) (a : Answer o) : Label := .perform e o a
  [ .submit 0 r 0, act (.caller 0) (.getNewConnectionForUrl r.url) (some 1),
    act (.caller 0) (.urlRequestsPushBack 1 r) (), act (.caller 0) (.engineChooseThread .clientConnect) (some 0),
    act (.caller 0) (.chooseThread 0 .clientConnect) (some 0),
    act (.caller 0) (.call 0 (.message ⟨.connectHost, 1⟩)) (), act (.caller 0) (.urlRequestsFront 1) (some r),
    act (.caller 0) (.test .lookup 1) true, act (.caller 0) (.connectToHost 1 r.target) (.connected 7),
    act (.caller 0) (.chooseThread 0 .clientWorker) (some 1),
    act (.caller 0) (.sendNotify 1 ⟨.processNextRequest, 1⟩) .sent,
    .poll 1 [.ipc] false, .next 1 true,
    act (.thread 1) (.urlRequestsFront 1) (some r), act (.thread 1) (.setHandler 1 (some r)) (),
    act (.thread 1) (.test .populateRequest 1) true, act (.thread 1) (.requestToBuffer 1 r) (40 : Int),
    act (.thread 1) (.setState 1 .clientRequest) (), act (.thread 1) (.addEvents 1 1 pollEventOut) () ]

theorem connections_conserved_handOver :
    (∃ s, (HttpServer.httpServer.machine twoThreads).Reaches GoodStep s ∧
      (s.free, s.pollset 0, s.pollset 1) = ([0], [], [(5, 1)]) ∧ s.Conserved) ∧
    ∃ s, (HttpClient.httpClient.machine twoClientThreads).Reaches GoodStep s ∧
      (s.free, s.pollset 1) = ([0], [(7, 1)]) ∧ s.Conserved := by
  let r : Request := ⟨0, [], ⟨.http, [104], 80, [47]⟩⟩
  have hserver : (((HttpServer.httpServer.machine twoThreads).guard GoodStep).run (.initial 2) handOverRun).map
      (fun s => (s.free, s.pollset 0, s.pollset 1)) = some ([0], [], [(5, 1)]) := by decide +kernel
  have hclient : (((HttpClient.httpClient.machine twoClientThreads).guard GoodStep).run (.initial 2)
      (connectRun r)).map (fun s => (s.free, s.pollset 1)) = some ([0], [(7, 1)]) := by decide +kernel
  have hstart : (HttpServer.httpServer.machine twoThreads).Reaches GoodStep (.initial 2) := .start ⟨2, rfl⟩
  have hstart' : (HttpClient.httpClient.machine twoClientThreads).Reaches GoodStep (.initial 2) := .start ⟨2, rfl⟩
  obtain ⟨s, hreach, hs⟩ := hstart.exists_of_guard_run hserver
  obtain ⟨s', hreach', hs'⟩ := hstart'.exists_of_guard_run hclient
  exact ⟨⟨s, hreach, hs, ((connections_conserved twoThreads).1 s hreach).1⟩,
    s', hreach', hs', ((connections_conserved twoClientThreads).2 s' hreach').1⟩

theorem conservation_fails_overflow :
    ∃ s, (HttpServer.httpServer.machine oneThread).Reaches (fun _ _ => True) s ∧
      ¬s.Conserved := by
  have hfree : ((HttpServer.httpServer.machine oneThread).run (.initial 1) overflowRun).map
      State.free = some [0, 0] := by
    decide +kernel
  obtain ⟨s, hrun, hfree⟩ := Option.map_eq_some_iff.mp hfree
  refine ⟨s, .of_run (.start ⟨1, rfl⟩) (fun _ _ _ => trivial) hrun, fun h => ?_⟩
  have hnodup := h.1
  simp [hfree] at hnodup

end Latypus.Engine
