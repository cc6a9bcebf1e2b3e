import Latypus.Engine.Machine

/-! The ownership discipline of connections. At any time a connection is in the free list, in the
pollset of one thread, named by one message, or in the hands of one handler; a handler's position
says what it holds. The rules of a protocol say in which states a connection may be registered
and which thread a message may be sent to. -/

namespace Latypus.Engine
open Lib Function

structure Rules where
  /-- The states that connections are ever in. -/
  legit : ConnState → Prop
  /-- The states in which a connection may be registered with a thread. -/
  fits : Thread → ConnState → Prop
  /-- The mask an action needs, and whether the connection has a socket when it runs. -/
  action : Action → Option (Mask × Bool)
  /-- The actions that a thread may call on a connection of its own pollset. -/
  inplace : Action → Prop
  /-- The requests that are ever queued. -/
  queues : Request → Prop
  /-- Whether the protocol accepts connections. -/
  listens : Prop
  /-- Whether a connection in other hands is touched: its state set once it is registered, or a
  request queued on it. -/
  shares : Prop
  /-- Whether the protocol has calls without a defined behaviour. -/
  undefinedCalls : Prop

/-- What a handler holds: nothing, a connection of its thread's pollset, or a connection that
nothing else refers to. Of the last it may know a state that fits no better than the present one,
whether there is a socket, and a request that is queued. -/
inductive Pos
  | idle
  | reg (t : Thread) (c : Slot)
  | hand (c : Slot) (state : Option ConnState) (sock : Bool) (request : Option Request)

namespace Pos

def Settled (P : Pos) : Prop := P = idle ∨ ∃ t c, P = reg t c

def Hands (P : Pos) (c : Slot) : Prop := ∃ state sock request, P = hand c state sock request

/-- The position holds the connection, in a pollset or in hand. -/
def At (P : Pos) (c : Slot) : Prop := P.Hands c ∨ ∃ t, P = reg t c

theorem at_reg (t : Thread) (c : Slot) : (reg t c).At c := .inr ⟨t, rfl⟩

theorem at_hand (c : Slot) (state : Option ConnState) (sock : Bool) (request : Option Request) :
    (hand c state sock request).At c := .inl ⟨state, sock, request, rfl⟩

def withState (P : Pos) (c : Slot) (x : ConnState) : Pos :=
  match P with
  | hand c' state sock request =>
    if c' = c then hand c (some x) sock request else hand c' state sock request
  | P => P

def withSock : Pos → Bool → Pos
  | hand c state _ request, sock => hand c state sock request
  | P, _ => P

def withRequest (P : Pos) (c : Slot) (r : Option Request) : Pos :=
  match P with
  | hand c' state sock request =>
    if c' = c then hand c' state sock r else hand c' state sock request
  | P => P

theorem Settled.not_hands {P : Pos} {c : Slot} (h : P.Settled) : ¬P.Hands c := by
  rintro ⟨_, _, _, rfl⟩
  obtain h | ⟨_, _, h⟩ := h <;> cases h

theorem Hands.withSock {P : Pos} {c : Slot} {sock : Bool} (h : P.Hands c) : (P.withSock sock).Hands c := by
  obtain ⟨state, _, request, rfl⟩ := h
  exact ⟨state, sock, request, rfl⟩

theorem Hands.withState {P : Pos} {c c' : Slot} {x : ConnState} (h : P.Hands c) :
    (P.withState c' x).Hands c := by
  obtain ⟨state, sock, request, rfl⟩ := h
  simp only [Pos.withState]
  split
  · rename_i heq
    exact ⟨_, _, _, by rw [heq]⟩
  · exact ⟨_, _, _, rfl⟩

theorem Hands.withRequest {P : Pos} {c c' : Slot} {r : Option Request} (h : P.Hands c) :
    (P.withRequest c' r).Hands c := by
  obtain ⟨state, sock, request, rfl⟩ := h
  simp only [Pos.withRequest]
  split <;> exact ⟨_, _, _, rfl⟩

theorem withState_of_not_hands {P : Pos} {c : Slot} {x : ConnState} (h : ¬P.Hands c) :
    P.withState c x = P := by
  cases P with
  | idle => rfl
  | reg t c' => rfl
  | hand c' state sock request =>
    refine if_neg fun hc => h ?_
    exact ⟨state, sock, request, by rw [hc]⟩

end Pos

namespace Rules
variable (cfg : Config) (R : Rules)

def Ready (t : Thread) (state : Option ConnState) : Prop :=
  (∃ x, state = some x ∧ R.fits t x) ∨ ∀ x, R.legit x → R.fits t x

/-- The position of a handler that may send the message to the thread. -/
def Sends (dest : Thread) (msg : Message) (P : Pos) : Prop :=
  ∃ state sock request m, P = .hand msg.conn state sock request ∧
    R.action msg.action = some (m, sock) ∧ cfg.mask dest m

/-- The position of a handler that may call the message's action in its own thread. -/
def Delivers (t : Thread) (msg : Message) (P : Pos) : Prop :=
  R.Sends cfg t msg P ∨ (P = .reg t msg.conn ∧ R.inplace msg.action)

def allowed (P : Pos) : Op → Prop
  | .newConnection => P.Settled
  | .getNewConnectionForUrl _ => P.Settled
  | .init c => ∃ request, P = .hand c none false request
  | .accept c => R.listens ∧ ∃ state request, P = .hand c state false request
  | .connectToHost c target => ∃ state r, P = .hand c state false (some r) ∧ r.target = target
  | .close c => P.Hands c
  | .startLingeringClose c => P.Hands c
  | .getState c => ∃ t, P = .reg t c
  | .setState c x => R.legit x ∧
      (P.Hands c ∨ (∃ t, P = .reg t c ∧ R.fits t x) ∨ (R.shares ∧ ∀ t, R.fits t x))
  | .pushFree c => ∃ state request, P = .hand c state false request
  | .addEvents t c _ => P = .reg t c ∨
      ∃ state request, P = .hand c state true request ∧ R.Ready t state
  | .removeEvents t c => P = .reg t c
  | .sendNotify dest msg => R.Sends cfg dest msg P
  | .queueMessage dest msg => R.Sends cfg dest msg P
  | .call t (.message msg) => R.Delivers cfg t msg P
  | .call t (.connection c _) => P = .reg t c
  | .call _ .accept => P.Settled
  | .requestToBuffer c r => ∃ state, P = .hand c state true (some r)
  | .urlRequestsPushBack c r => R.queues r ∧ ∃ state request, P = .hand c state false request
  | .urlRequestsPushIfActive _ r => R.shares ∧ R.queues r
  | .urlRequestsPopFront c => P.Hands c
  | .setHandler c _ => P.At c
  | .test _ c => P.At c
  | .transfer _ c => P.At c
  | .doHandshake c => P.At c
  | .responseToBuffer c => P.At c
  | .urlRequestsFront c => P.At c
  | .undefined => R.undefinedCalls
  | .acceptReady | .getExistingConnectionForUrl _ _ | .chooseThread _ _ | .engineChooseThread _ => True

end Rules

/-- The answers that the handlers cope with: `epoll_ctl` takes a descriptor out of the set,
`shutdown` succeeds, handlers populate their message and the headers fit the buffer. -/
def Good : (o : Op) → Answer o → Prop
  | .removeEvents _ _, ok => ok = true
  | .startLingeringClose _, ok => ok = true
  | .test .populateResponse _, ok => ok = true
  | .test .populateRequest _, ok => ok = true
  | .responseToBuffer _, length => 0 ≤ length
  | .requestToBuffer _ _, length => 0 ≤ length
  | _, _ => True

namespace Rules
variable (cfg : Config) (R : Rules)

def after (P : Pos) : (o : Op) → Answer o → Pos → Prop
  | .newConnection, c, P' => P' = c.elim P fun c => .hand c none false none
  | .getNewConnectionForUrl _, c, P' => P' = c.elim P fun c => .hand c none false none
  | .accept _, _, P' => P' = P.withSock true
  | .connectToHost _ _, .noSocket, P' => P' = P
  | .connectToHost _ _, _, P' => P' = P.withSock true
  | .close _, _, P' => P' = P.withSock false
  | .getState c, x, P' => P' = P ∧ ∀ t, P = .reg t c → R.legit x ∧ R.fits t x
  | .setState c x, _, P' => P' = P.withState c x
  | .pushFree _, _, P' => P' = .idle
  | .addEvents _ _ _, _, P' => P' = .idle
  | .removeEvents _ c, _, P' => P' = .hand c none true none
  | .chooseThread t m, dest, P' => P' = P ∧ (cfg.mask t m → dest = some t) ∧
      ∀ d, dest = some d → cfg.mask d m
  | .engineChooseThread m, dest, P' => P' = P ∧ ∀ d, dest = some d → cfg.mask d m
  | .sendNotify _ _, .again, P' => P' = P
  | .sendNotify _ _, _, P' => P' = .idle
  | .queueMessage _ _, _, P' => P' = .idle
  | .call _ _, _, P' => P'.Settled
  | .urlRequestsFront c, r, P' => P' = P.withRequest c r ∧ ∀ x, r = some x → R.queues x
  | .urlRequestsPopFront c, _, P' => P' = P.withRequest c none
  | _, _, P' => P' = P

/-- The discipline of a protocol under good answers. -/
def discipline : Discipline Answer Pos where
  allowed := R.allowed cfg
  next P o a P' := Good o a ∧ R.after cfg P o a P'

/-- The program keeps to the discipline from the position on, and holds on to nothing. -/
def Keeps (p : Prog Unit) (P : Pos) : Prop :=
  (R.discipline cfg).Triple (fun _ P' => P'.Settled) p P

end Rules

/-! ### Rules for the operations and the functions of the engine -/

section Triples
variable {cfg : Config} {R : Rules} {α : Type} {Q : α → Pos → Prop} {P : Pos} {t : Thread}
variable {c : Slot}

theorem triple_issue {o : Op} {f : Answer o → Prog α} (ho : R.allowed cfg P o)
    (hf : ∀ a P', Good o a → R.after cfg P o a P' → (R.discipline cfg).Triple Q (f a) P') :
    (R.discipline cfg).Triple Q (issue o >>= f) P :=
  Discipline.triple_perform ho fun a P' h => hf a P' h.1 h.2

theorem triple_test {q : Cond} {f : Bool → Prog α} (hP : P.At c)
    (hf : ∀ b, Good (.test q c) b → (R.discipline cfg).Triple Q (f b) P) :
    (R.discipline cfg).Triple Q (test q c >>= f) P :=
  triple_issue hP fun b P' hgood hP' => by
    obtain rfl : P' = P := hP'
    exact hf b hgood

theorem triple_transfer {q : Io} {f : Option Nat → Prog α} (hP : P.At c)
    (hf : ∀ r, (R.discipline cfg).Triple Q (f r) P) :
    (R.discipline cfg).Triple Q (transfer q c >>= f) P :=
  triple_issue hP fun r P' _ hP' => by
    obtain rfl : P' = P := hP'
    exact hf r

theorem triple_doHandshake {f : Handshake → Prog α} (hP : P.At c)
    (hf : ∀ r, (R.discipline cfg).Triple Q (f r) P) :
    (R.discipline cfg).Triple Q (doHandshake c >>= f) P :=
  triple_issue hP fun r P' _ hP' => by
    obtain rfl : P' = P := hP'
    exact hf r

theorem triple_getState {f : ConnState → Prog α}
    (hf : ∀ x, R.legit x → R.fits t x → (R.discipline cfg).Triple Q (f x) (.reg t c)) :
    (R.discipline cfg).Triple Q (getState c >>= f) (.reg t c) :=
  triple_issue ⟨t, rfl⟩ fun x P' _ hP' => by
    obtain ⟨rfl, hx⟩ := hP'
    exact hf x (hx t rfl).1 (hx t rfl).2

theorem triple_removeEvents {f : Unit → Prog α}
    (hf : (R.discipline cfg).Triple Q (f ()) (.hand c none true none)) :
    (R.discipline cfg).Triple Q (removeEvents t c >>= f) (.reg t c) :=
  triple_issue (o := .removeEvents t c) rfl fun _ P' _ hP' => by
    obtain rfl : P' = _ := hP'
    exact hf

theorem triple_setState_hand {x : ConnState} {state : Option ConnState} {sock : Bool}
    {request : Option Request} {f : Unit → Prog α} (hlegit : R.legit x)
    (hf : (R.discipline cfg).Triple Q (f ()) (.hand c (some x) sock request)) :
    (R.discipline cfg).Triple Q (setState c x >>= f) (.hand c state sock request) :=
  triple_issue ⟨hlegit, .inl ⟨_, _, _, rfl⟩⟩ fun _ P' _ hP' => by
    obtain rfl : P' = (Pos.hand c state sock request).withState c x := hP'
    simpa [Pos.withState] using hf

theorem triple_setState_reg {x : ConnState} {f : Unit → Prog α} (hlegit : R.legit x)
    (hfits : R.fits t x) (hf : (R.discipline cfg).Triple Q (f ()) (.reg t c)) :
    (R.discipline cfg).Triple Q (setState c x >>= f) (.reg t c) :=
  triple_issue ⟨hlegit, .inr (.inl ⟨t, rfl, hfits⟩)⟩ fun _ P' _ hP' => by
    obtain rfl : P' = .reg t c := hP'
    exact hf

theorem triple_addEvents_hand {state : Option ConnState} {request : Option Request}
    {events : Nat} {Q : Unit → Pos → Prop} (hready : R.Ready t state) (hQ : Q () .idle) :
    (R.discipline cfg).Triple Q (addEvents t c events) (.hand c state true request) :=
  ⟨.inr ⟨_, _, rfl, hready⟩, fun _ P' h => by
    obtain rfl : P' = .idle := h.2
    exact hQ⟩

theorem triple_addEvents_reg {events : Nat} {Q : Unit → Pos → Prop} (hQ : Q () .idle) :
    (R.discipline cfg).Triple Q (addEvents t c events) (.reg t c) :=
  ⟨.inl rfl, fun _ P' h => by
    obtain rfl : P' = .idle := h.2
    exact hQ⟩

theorem triple_freeConnection {state : Option ConnState} {request : Option Request}
    {Q : Unit → Pos → Prop} (hfree : R.legit .free) (hQ : Q () .idle) :
    (R.discipline cfg).Triple Q (freeConnection c) (.hand c state false request) := by
  refine triple_setState_hand hfree (triple_issue (Pos.at_hand ..) fun _ P' _ hP' => ?_)
  obtain rfl : P' = .hand c (some .free) false request := hP'
  refine ⟨⟨_, _, rfl⟩, fun _ P' h => ?_⟩
  obtain rfl : P' = .idle := h.2
  exact hQ

/-- Aborting or closing the connection in hand leaves nothing. -/
theorem triple_abortConnection {state : Option ConnState} {sock : Bool}
    {request : Option Request} {Q : Unit → Pos → Prop} (hfree : R.legit .free) (hQ : Q () .idle) :
    (R.discipline cfg).Triple Q (abortConnection c) (.hand c state sock request) :=
  triple_issue (o := .close c) ⟨_, _, _, rfl⟩ fun _ P' _ hP' => by
    obtain rfl : P' = .hand c state false request := hP'
    exact triple_freeConnection hfree hQ

theorem keeps_remove_abort (hfree : R.legit .free) :
    R.Keeps cfg (do removeEvents t c; abortConnection c) (.reg t c) :=
  triple_removeEvents (triple_abortConnection hfree (.inl rfl))

theorem keeps_remove_close (hfree : R.legit .free) :
    R.Keeps cfg (do removeEvents t c; closeConnection c) (.reg t c) :=
  triple_removeEvents (triple_abortConnection hfree (.inl rfl))

theorem triple_newConnection {f : Option Slot → Prog α} (hP : P.Settled)
    (hnone : (R.discipline cfg).Triple Q (f none) P)
    (hsome : ∀ c, (R.discipline cfg).Triple Q (f (some c)) (.hand c none false none)) :
    (R.discipline cfg).Triple Q (newConnection >>= f) P := by
  refine triple_issue (o := .newConnection) hP fun c P' _ hP' => ?_
  cases c with
  | none =>
    obtain rfl : P' = P := hP'
    exact hnone
  | some c =>
    obtain rfl : P' = .hand c none false none := hP'
    refine triple_issue (o := .init c) ⟨_, rfl⟩ fun _ P'' _ hP'' => ?_
    obtain rfl : P'' = .hand c none false none := hP''
    exact hsome c

variable {m : Mask} {a : Action} {Q : Unit → Pos → Prop}

theorem triple_call {f : Call} (hf : R.allowed cfg P (.call t f)) (hQ : ∀ P', P'.Settled → Q () P') :
    (R.discipline cfg).Triple Q (call t f) P :=
  ⟨hf, fun _ P' h => hQ P' h.2⟩

/-- A connection in hand may go to any thread that has the mask of the action. -/
theorem triple_sendMessage {dest : Thread} {msg : Message} (hP : R.Sends cfg dest msg P)
    (hQ : ∀ P', P'.Settled → Q () P') :
    (R.discipline cfg).Triple Q (sendMessage t dest msg) P := by
  unfold sendMessage
  split
  · rename_i ht
    subst ht
    exact triple_call (.inl hP) hQ
  · refine triple_issue hP fun r P' _ hP' => ?_
    cases r with
    | sent =>
      obtain rfl : P' = .idle := hP'
      exact hQ _ (.inl rfl)
    | failed =>
      obtain rfl : P' = .idle := hP'
      exact hQ _ (.inl rfl)
    | again =>
      obtain rfl : P' = P := hP'
      refine ⟨hP, fun _ P'' h => ?_⟩
      obtain rfl : P'' = .idle := h.2
      exact hQ _ (.inl rfl)

theorem triple_forwardConnection {state : Option ConnState} {sock : Bool}
    {request : Option Request} (hfree : R.legit .free) (ha : R.action a = some (m, sock))
    (hQ : ∀ P', P'.Settled → Q () P') :
    (R.discipline cfg).Triple Q (forwardConnection t c m a) (.hand c state sock request) := by
  refine triple_issue trivial fun dest P' _ hP' => ?_
  obtain ⟨rfl, -, hmask⟩ := hP'
  cases dest with
  | none => exact triple_abortConnection hfree (hQ _ (.inl rfl))
  | some dest => exact triple_sendMessage ⟨_, _, _, m, rfl, ha, hmask dest rfl⟩ hQ

/-- A thread with the mask itself keeps a connection of its pollset. -/
theorem triple_forwardConnection_reg (hmask : cfg.mask t m) (ha : R.inplace a)
    (hQ : ∀ P', P'.Settled → Q () P') :
    (R.discipline cfg).Triple Q (forwardConnection t c m a) (.reg t c) := by
  refine triple_issue trivial fun dest P' _ hP' => ?_
  obtain ⟨rfl, hself, -⟩ := hP'
  obtain rfl := hself hmask
  change (R.discipline cfg).Triple Q (sendMessage t t ⟨a, c⟩) (.reg t c)
  rw [sendMessage, if_pos rfl]
  exact triple_call (.inr ⟨rfl, ha⟩) hQ

theorem keeps_remove_forward (hfree : R.legit .free) (ha : R.action a = some (m, true)) :
    R.Keeps cfg (do removeEvents t c; forwardConnection t c m a) (.reg t c) :=
  triple_removeEvents (triple_forwardConnection hfree ha fun _ h => h)

end Triples

end Latypus.Engine
