import Latypus.Client.Ownership

/-! Which server a request of the client goes to. `connections_host_map` finds a connection by the
host name alone, its entries outlive the connections, and a connection keeps the requests that
were queued when it was aborted. A request is sent to its own server as long as no request joins
the queue of one for another. -/

namespace Latypus.HttpClient
open Lib Engine Function

/-- The requests of a queue are for one server, and the socket is open to that server. -/
def RoutedConn (conn : Conn) : Prop :=
  (∀ r ∈ conn.urlRequests, ∀ r' ∈ conn.urlRequests, r.target = r'.target) ∧
    ∀ sock, conn.sock = some sock →
      ∃ target, sock.target = some target ∧ ∀ r ∈ conn.urlRequests, r.target = target

def Routed (s : State) : Prop := ∀ c, RoutedConn (s.conns c)

/-- The requests that a new one is queued behind are for the same host, port and scheme. -/
def SameServer (s : State) : Op → Prop
  | .urlRequestsPushBack c r => ∀ r' ∈ (s.conns c).urlRequests, r'.target = r.target
  | .urlRequestsPushIfActive c r => ∀ r' ∈ (s.conns c).urlRequests, r'.target = r.target
  | _ => True

def RoutedStep (s : State) (label : Label) : Prop :=
  GoodStep s label ∧ match label with
    | .perform _ o _ => SameServer s o
    | _ => True

instance (s : State) : (o : Op) → Decidable (SameServer s o)
  | .urlRequestsPushBack c r | .urlRequestsPushIfActive c r =>
    inferInstanceAs (Decidable (∀ r' ∈ (s.conns c).urlRequests, r'.target = r.target))
  | .acceptReady | .newConnection | .getNewConnectionForUrl _ | .getExistingConnectionForUrl _ _ | .init _ | .accept _
  | .connectToHost _ _ | .close _ | .startLingeringClose _ | .getState _ | .setState _ _ | .setHandler _ _ | .pushFree _
  | .addEvents _ _ _ | .removeEvents _ _ | .chooseThread _ _ | .engineChooseThread _ | .sendNotify _ _
  | .queueMessage _ _ | .call _ _ | .test _ _ | .transfer _ _ | .doHandshake _ | .responseToBuffer _
  | .requestToBuffer _ _ | .urlRequestsFront _ | .urlRequestsPopFront _ | .undefined => .isTrue trivial

instance (s : State) : (label : Label) → Decidable (RoutedStep s label)
  | .perform e o a => inferInstanceAs (Decidable (GoodStep s (.perform e o a) ∧ SameServer s o))
  | .poll .. | .next .. | .submit .. => inferInstanceAs (Decidable (True ∧ True))

/-- The connection has a socket that was opened for the host, port and scheme of the request. -/
def OpenFor (s : State) (c : Slot) (r : Request) : Prop :=
  ∃ sock, (s.conns c).sock = some sock ∧ sock.target = some r.target

section Step
variable {cfg : Config} {s s' : State} {owner : Slot → Owner} {pos : Exec → Pos} {e : Exec}
variable {c : Slot}

theorem Routed.modifyConn (h : Routed s) {f : Conn → Conn} (hf : RoutedConn (f (s.conns c))) :
    Routed (s.modifyConn c f) := by
  intro c'
  rw [State.modifyConn_conns]
  split
  · exact hf
  · exact h c'

theorem Routed.closeSock (h : Routed s) : Routed (s.closeSock c) := by
  intro c'
  rw [State.closeSock_conns]
  split
  · exact ⟨(h c).1, nofun⟩
  · exact h c'

theorem Routed.initConn (h : Routed s) : Routed (s.initConn c) :=
  h.closeSock.modifyConn (h.closeSock c)

/-- A socket opened for one of the requests in the queue is open to the server of them all. -/
theorem Routed.openSock {sock : Sock} {r : Request} (h : Routed s)
    (hr : r ∈ (s.conns c).urlRequests) (htarget : sock.target = some r.target)
    (hs : s.openSock c sock = some s') : Routed s' := by
  intro c'
  rw [State.openSock_conns hs]
  split
  · refine ⟨(h c).1, fun sock' hsock' => ?_⟩
    obtain rfl := Option.some.inj hsock'
    exact ⟨r.target, htarget, fun r' hr' => (h c).1 r' hr' r hr⟩
  · exact h c'

theorem RoutedConn.pushBack {conn : Conn} {r : Request} (h : RoutedConn conn)
    (hsame : ∀ r' ∈ conn.urlRequests, r'.target = r.target)
    (hsock : conn.sock = none ∨ conn.urlRequests ≠ []) :
    RoutedConn { conn with urlRequests := conn.urlRequests ++ [r] } := by
  have hall : ∀ r' ∈ conn.urlRequests ++ [r], r'.target = r.target := by
    intro r' hr'
    rcases List.mem_append.mp hr' with hr' | hr'
    · exact hsame r' hr'
    · rw [List.mem_singleton.mp hr']
  refine ⟨fun r₁ h₁ r₂ h₂ => (hall r₁ h₁).trans (hall r₂ h₂).symm, fun sock hopen => ?_⟩
  rcases hsock with hnone | hne
  · rw [show conn.sock = some sock from hopen] at hnone
    cases hnone
  · -- the server of the socket is that of the requests that were there before
    obtain ⟨target, htarget, hqueue⟩ := h.2 sock hopen
    obtain ⟨r₀, hr₀⟩ := List.exists_mem_of_ne_nil _ hne
    refine ⟨target, htarget, fun r' hr' => ?_⟩
    rw [hall r' hr', ← hsame r₀ hr₀, hqueue r₀ hr₀]

theorem RoutedConn.subset {conn : Conn} {rest : List Request} (h : RoutedConn conn)
    (hrest : rest ⊆ conn.urlRequests) : RoutedConn { conn with urlRequests := rest } := by
  refine ⟨fun r hr r' hr' => h.1 r (hrest hr) r' (hrest hr'), fun sock hsock => ?_⟩
  obtain ⟨target, htarget, hqueue⟩ := h.2 sock hsock
  exact ⟨target, htarget, fun r hr => hqueue r (hrest hr)⟩

theorem Routed.exec {o : Op} {a : Answer o} (h : Routed s) (hinv : Inv cfg rules s owner pos)
    (hallowed : rules.allowed cfg (pos e) o) (hsame : SameServer s o)
    (hs : s.exec cfg o a = some s') : Routed s' := by
  have hh := hinv.holds e
  cases o with
  | newConnection =>
    simp only [State.exec, Option.ite_none_right_eq_some, Option.some.injEq] at hs
    obtain ⟨-, rfl⟩ := hs
    exact h
  | getNewConnectionForUrl url =>
    simp only [State.exec, Option.ite_none_right_eq_some] at hs
    obtain ⟨-, hs⟩ := hs
    cases a with
    | none =>
      obtain rfl := Option.some.inj hs
      exact h
    | some c =>
      obtain rfl := Option.some.inj hs
      exact Routed.initConn (s := { s with free := s.free.dropLast }) h
  | init c =>
    obtain rfl := Option.some.inj hs
    exact h.initConn
  | accept c => exact hallowed.1.elim
  | connectToHost c target =>
    obtain ⟨state, r, hpos, rfl⟩ := hallowed
    rw [hpos] at hh
    have hr : r ∈ ((s.closeSock c).conns c).urlRequests := by
      simpa [State.closeSock_conns] using hh.2.2.2 r rfl
    cases a with
    | noSocket =>
      obtain rfl := Option.some.inj hs
      exact h.closeSock
    | refused fd => exact h.closeSock.openSock hr rfl hs
    | connected fd => exact h.closeSock.openSock hr rfl hs
  | close c =>
    obtain rfl := Option.some.inj hs
    exact h.closeSock
  | setState c x =>
    obtain rfl := Option.some.inj hs
    exact h.modifyConn (h c)
  | setHandler c handler =>
    obtain rfl := Option.some.inj hs
    exact h.modifyConn (h c)
  | urlRequestsPushBack c r =>
    obtain ⟨-, state, request, hpos⟩ := hallowed
    rw [hpos] at hh
    obtain rfl := Option.some.inj hs
    exact h.modifyConn ((h c).pushBack hsame (.inl (by simpa using hh.2.2.1)))
  | urlRequestsPushIfActive c r =>
    simp only [State.exec, Option.ite_none_right_eq_some, Option.some.injEq] at hs
    obtain ⟨rfl, rfl⟩ := hs
    split
    · rename_i hactive
      exact h.modifyConn ((h c).pushBack hsame (.inr (by simpa using hactive)))
    · exact h
  | urlRequestsPopFront c =>
    simp only [State.exec] at hs
    split at hs
    · simp at hs
    · rename_i heq
      obtain ⟨-, hs⟩ := Option.ite_none_right_eq_some.mp hs
      obtain rfl := Option.some.inj hs
      exact h.modifyConn ((h c).subset (by rw [heq]; exact List.subset_cons_self _ _))
  | _ =>
    have hconns : s'.conns = s.conns := by
      simp only [State.exec, Option.map_eq_some_iff] at hs
      grind
    intro c'
    rw [hconns]
    exact h c'

/-- What `mainloop` and the callers do besides leaves the connections alone. -/
theorem conns_of_step {label : Label} (hlabel : ∀ e o a, label ≠ .perform e o a)
    (hs : State.step httpClient cfg s label = some s') : s'.conns = s.conns := by
  cases label with
  | perform e o a => exact absurd rfl (hlabel e o a)
  | poll t events sweep =>
    obtain ⟨-, hs⟩ := Option.ite_none_right_eq_some.mp hs
    obtain ⟨items, -, rfl⟩ := Option.map_eq_some_iff.mp hs
    rfl
  | next t received =>
    obtain ⟨-, hs⟩ := Option.ite_none_right_eq_some.mp hs
    simp only [State.nextItem] at hs
    grind [State.setTodo, State.start]
  | submit i r maxRequests =>
    obtain ⟨-, hs⟩ := Option.ite_none_right_eq_some.mp hs
    obtain ⟨submitRequest, -, rfl⟩ := Option.map_eq_some_iff.mp hs
    rfl

theorem routed_step {label : Label} (howned : Owned cfg rules s) (h : Routed s)
    (hok : RoutedStep s label) (hs : State.step httpClient cfg s label = some s') : Routed s' := by
  obtain ⟨owner, pos, hinv, htasks⟩ := howned
  by_cases hlabel : ∃ e o a, label = .perform e o a
  · obtain ⟨e, o, a, rfl⟩ := hlabel
    simp only [State.step, Option.bind_eq_bind, Option.bind_eq_some_iff] at hs
    obtain ⟨rest, hrest, s₁, hexec, hs'⟩ := hs
    obtain rfl := Option.some.inj hs'
    obtain ⟨hallowed, -⟩ := (htasks e).resume hrest
    have hrouted : Routed s₁ := h.exec hinv hallowed hok.2 hexec
    exact hrouted
  · intro c
    rw [conns_of_step (fun e o a heq => hlabel ⟨e, o, a, heq⟩) hs]
    exact h c

theorem routed_of_reaches (h : (httpClient.machine cfg).Reaches RoutedStep s) :
    Owned cfg rules s ∧ Routed s := by
  have hboth : Accounted cfg rules (fun _ => True) s ∧ Routed s := by
    refine h.invariant (P := fun s => Accounted cfg rules (fun _ => True) s ∧ Routed s) ?_ ?_
    · rintro s ⟨numConnections, rfl⟩
      exact ⟨accounted_initial free_legit fun _ _ => trivial, fun c => ⟨nofun, nofun⟩⟩
    · rintro s label s' ⟨haccounted, hrouted⟩ hok hstep
      exact ⟨accounted_step (admits cfg) haccounted hok.1 (fun _ _ => trivial) hstep,
        routed_step haccounted.owned hrouted hok hstep⟩
  exact ⟨hboth.1.owned, hboth.2⟩

end Step

/-- Whenever `process_next_request` serialises a request, the socket was opened for its server. -/
theorem request_openFor {cfg : Config} {s s' : State} {e : Exec} {c : Slot} {r : Request}
    {a : Answer (.requestToBuffer c r)} (h : (httpClient.machine cfg).Reaches RoutedStep s)
    (hs : State.step httpClient cfg s (.perform e (.requestToBuffer c r) a) = some s') :
    OpenFor s c r := by
  obtain ⟨⟨owner, pos, hinv, htasks⟩, hrouted⟩ := routed_of_reaches h
  simp only [State.step, Option.bind_eq_bind, Option.bind_eq_some_iff] at hs
  obtain ⟨rest, hrest, -⟩ := hs
  obtain ⟨hallowed, -⟩ := (htasks e).resume hrest
  obtain ⟨state, hpos⟩ : ∃ state, pos e = .hand c state true (some r) := hallowed
  have hh := hinv.holds e
  rw [hpos] at hh
  obtain ⟨-, -, hsome, hqueued⟩ := hh
  obtain ⟨sock, hsock⟩ := Option.isSome_iff_exists.mp hsome
  obtain ⟨target, htarget, hqueue⟩ := (hrouted c).2 sock hsock
  exact ⟨sock, hsock, by rw [htarget, hqueue r (hqueued r rfl)]⟩

/-- One thread with all the masks of the client. -/
def oneThread : Config := ⟨[[.clientConnect, .clientWorker, .clientKeepalive]]⟩

/-- GET http://h/ -/
def plainRequest : Request := ⟨0, [71, 69, 84], .http, [104], 80, [47]⟩

/-- GET http://h/a -/
def anotherRequest : Request := ⟨1, [71, 69, 84], .http, [104], 80, [47, 97]⟩

/-- GET https://h/ -/
def secureRequest : Request := ⟨1, [71, 69, 84], .https, [104], 443, [47]⟩

/-- A request is submitted, and its connection opened and registered. -/
def submitRun : List Label :=
  let act (o : Op) (a : Answer o) : Label := .perform (.caller 0) o a
  [ .submit 0 plainRequest 2,
    act (.getExistingConnectionForUrl plainRequest.url 2) none,
    act (.getNewConnectionForUrl plainRequest.url) (some 0),
    act (.urlRequestsPushBack 0 plainRequest) (),
    act (.engineChooseThread .clientConnect) (some 0),
    act (.chooseThread 0 .clientConnect) (some 0), act (.call 0 (.message ⟨.connectHost, 0⟩)) (),
    act (.urlRequestsFront 0) (some plainRequest), act (.test .lookup 0) true,
    act (.connectToHost 0 plainRequest.target) (.connected 7),
    act (.chooseThread 0 .clientWorker) (some 0),
    act (.call 0 (.message ⟨.processNextRequest, 0⟩)) (),
    act (.urlRequestsFront 0) (some plainRequest), act (.setHandler 0 (some plainRequest)) (),
    act (.test .populateRequest 0) true ]

/-- A second request for the same host joins the queue, and its turn comes when the response to
the first has been read. -/
def joinRun (r : Request) : List Label :=
  let act (o : Op) (a : Answer o) : Label := .perform (.thread 0) o a
  [ .perform (.caller 0) (.requestToBuffer 0 plainRequest) 40,
    .perform (.caller 0) (.setState 0 .clientRequest) (),
    .perform (.caller 0) (.addEvents 0 0 pollEventOut) (),
    .submit 1 r 2,
    .perform (.caller 1) (.getExistingConnectionForUrl r.url 2) (some 0),
    .perform (.caller 1) (.urlRequestsPushIfActive 0 r) true,
    .poll 0 [.conn 7 pollEventOut] false, .next 0 true,
    act (.getState 0) .clientRequest, act (.transfer .bufferWrite 0) (some 40),
    act (.test .bytesReadable 0) false, act (.test .requestHasBody 0) false,
    act (.removeEvents 0 0) true, act (.addEvents 0 0 pollEventIn) (),
    act (.setState 0 .serverResponse) (),
    .poll 0 [.conn 7 pollEventIn] false, .next 0 true,
    act (.getState 0) .serverResponse, act (.test .bytesWritable 0) true,
    act (.transfer .bufferRead 0) (some 60), act (.test .isFinished 0) true,
    act (.test .responseHasBody 0) false, act (.test .endRequest 0) true,
    act (.test .connectionClose 0) false, act (.removeEvents 0 0) true,
    act (.setHandler 0 none) (), act (.urlRequestsPopFront 0) true,
    act (.chooseThread 0 .clientWorker) (some 0),
    act (.call 0 (.message ⟨.processNextRequest, 0⟩)) (),
    act (.urlRequestsFront 0) (some r), act (.setHandler 0 (some r)) (),
    act (.test .populateRequest 0) true ]

/-- The state after a run, with its socket's target and whether the request can be serialised. -/
def serialises (run : List Label) (e : Exec) (r : Request) : Option (Option Target × Bool) :=
  ((httpClient.machine oneThread).run (.initial 1) run).map fun s =>
    ((s.conns 0).sock.bind Sock.target,
      (State.step httpClient oneThread s (.perform e (.requestToBuffer 0 r) (40 : Int))).isSome)

/-- The second request waits behind the first one, and is sent on the socket that was opened for that. -/
theorem request_openFor_joined : ∃ s s' a, (httpClient.machine oneThread).Reaches RoutedStep s ∧
    (s.conns 0).urlRequests = [anotherRequest] ∧
    State.step httpClient oneThread s (.perform (.thread 0) (.requestToBuffer 0 anotherRequest) a) = some s' ∧
    OpenFor s 0 anotherRequest := by
  have hstart : (httpClient.machine oneThread).Reaches RoutedStep (.initial 1) := .start ⟨1, rfl⟩
  have hend : (((httpClient.machine oneThread).guard RoutedStep).run (.initial 1)
      (submitRun ++ joinRun anotherRequest)).map (fun s => ((s.conns 0).urlRequests,
        (State.step httpClient oneThread s (.perform (.thread 0) (.requestToBuffer 0 anotherRequest) (40 : Int))).isSome)) =
      some ([anotherRequest], true) := by
    decide +kernel
  obtain ⟨s, hreach, hs⟩ := hstart.exists_of_guard_run hend
  obtain ⟨hqueue, hturn⟩ := Prod.mk.inj hs
  obtain ⟨s', hstep⟩ := Option.isSome_iff_exists.mp hturn
  exact ⟨s, s', 40, hreach, hqueue, hstep, request_openFor hreach hstep⟩

theorem openFor_fails_https :
    ∃ s s' a, (httpClient.machine oneThread).Reaches (fun _ _ => True) s ∧
      State.step httpClient oneThread s (.perform (.thread 0) (.requestToBuffer 0 secureRequest) a) =
        some s' ∧ ¬OpenFor s 0 secureRequest := by
  have hrun : serialises (submitRun ++ joinRun secureRequest) (.thread 0) secureRequest =
      some (some plainRequest.target, true) := by
    decide +kernel
  obtain ⟨s, hs, heq⟩ := Option.map_eq_some_iff.mp hrun
  simp only [Prod.mk.injEq] at heq
  obtain ⟨s', hstep⟩ := Option.isSome_iff_exists.mp heq.2
  refine ⟨s, s', 40, .of_run (.start ⟨1, rfl⟩) (fun _ _ _ => trivial) hs, hstep, ?_⟩
  rintro ⟨sock, hsock, htarget⟩
  have hplain := heq.1
  rw [hsock, Option.bind_some, htarget] at hplain
  exact absurd hplain (by decide)

end Latypus.HttpClient
