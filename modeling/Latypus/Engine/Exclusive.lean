import Latypus.Engine.Conservation

/-! No two threads of the server run handlers on the same connection. Between the handlers every
connection is in the free list, in one pollset or named by one message; while a handler moves it
from one to another it is in the hands of that handler alone. -/

namespace Latypus.Engine
open Lib Function

/-- The connection that an operation is about. -/
def Op.slot : Op → Option Slot
  | .init c | .accept c | .connectToHost c _ | .close c | .startLingeringClose c | .getState c
  | .setState c _ | .setHandler c _ | .pushFree c | .addEvents _ c _ | .removeEvents _ c | .test _ c
  | .transfer _ c | .doHandshake c | .responseToBuffer c | .requestToBuffer c _ | .urlRequestsFront c
  | .urlRequestsPushBack c _ | .urlRequestsPushIfActive c _ | .urlRequestsPopFront c
  | .call _ (.connection c _) => some c
  | .sendNotify _ msg | .queueMessage _ msg | .call _ (.message msg) => some msg.conn
  | .call _ .accept | .acceptReady | .newConnection | .getNewConnectionForUrl _
  | .getExistingConnectionForUrl _ _ | .chooseThread _ _ | .engineChooseThread _ | .undefined => none

/-- The connection that an operation takes from the free list. -/
def taken : (o : Op) → Answer o → Option Slot
  | .newConnection, c => c
  | .getNewConnectionForUrl _, c => c
  | _, _ => none

/-- The handler that `e` runs works on the connection: it stands at an operation on it, or comes to
one by steps of its own, other than by taking it from the free list. -/
inductive Engaged (proto : Protocol) (cfg : Config) (e : Exec) (c : Slot) : State → Prop
  | now {s : State} {o : Op} {k : Answer o → Prog Unit} : s.tasks e = .op o k → o.slot = some c →
      Engaged proto cfg e c s
  | later {s s' : State} {o : Op} {a : Answer o} : Good o a → taken o a ≠ some c →
      State.step proto cfg s (.perform e o a) = some s' → Engaged proto cfg e c s' →
      Engaged proto cfg e c s

namespace State

/-- In the free list, once. -/
def FreeOnce (s : State) (c : Slot) : Prop := s.free.count c = 1

/-- In the pollset of one thread, once. -/
def RegisteredOnce (s : State) (c : Slot) : Prop :=
  ∃ t, ((s.pollset t).map Prod.snd).count c = 1 ∧ ∀ t', t' ≠ t → c ∉ (s.pollset t').map Prod.snd

/-- Named by one message that has not been received. -/
def NamedOnce (s : State) (c : Slot) : Prop :=
  ∃ t, ((s.inbox t).map Message.conn).count c = 1 ∧ ∀ t', t' ≠ t → c ∉ (s.inbox t').map Message.conn

/-- In exactly one of the three places. -/
def Placed (s : State) (c : Slot) : Prop :=
  (s.FreeOnce c ∧ ¬s.Registered c ∧ ¬s.Named c) ∨
  (c ∉ s.free ∧ s.RegisteredOnce c ∧ ¬s.Named c) ∨
  (c ∉ s.free ∧ ¬s.Registered c ∧ s.NamedOnce c)

/-- In none of the three, and with a handler at work on it. -/
def InHands (proto : Protocol) (cfg : Config) (s : State) (c : Slot) : Prop :=
  c ∉ s.free ∧ ¬s.Registered c ∧ ¬s.Named c ∧ ∃ e, Engaged proto cfg e c s

end State

section Engaged
variable {cfg : Config} {R : Rules} {proto : Protocol} {s : State} {owner : Slot → Owner}
variable {pos : Exec → Pos} {e e' : Exec} {c : Slot} {P P' : Pos} {o : Op} {a : Answer o}

/-- A protocol that keeps its hands off the connections of others works on what it holds. -/
theorem at_of_slot (hshares : ¬R.shares) (h : R.allowed cfg P o) (hc : o.slot = some c) : P.At c := by
  cases o with
  | call t f =>
    cases f with
    | message msg =>
      obtain rfl := Option.some.inj hc
      obtain ⟨state, sock, request, -, rfl, -⟩ | ⟨rfl, -⟩ := h
      · exact Pos.at_hand ..
      · exact Pos.at_reg ..
    | connection c' revents =>
      obtain rfl := Option.some.inj hc
      obtain rfl : P = _ := h
      exact Pos.at_reg ..
    | accept => cases hc
  | acceptReady | newConnection | getNewConnectionForUrl _ | getExistingConnectionForUrl _ _
  | chooseThread _ _ | engineChooseThread _ | undefined => cases hc
  | sendNotify dest msg | queueMessage dest msg =>
    obtain rfl := Option.some.inj hc
    obtain ⟨state, sock, request, -, rfl, -⟩ := h
    exact Pos.at_hand ..
  | setState c' x =>
    obtain rfl := Option.some.inj hc
    obtain ⟨-, hhands | ⟨t, rfl, -⟩ | ⟨hs, -⟩⟩ := h
    · exact .inl hhands
    · exact Pos.at_reg ..
    · exact absurd hs hshares
  | addEvents t c' events =>
    obtain rfl := Option.some.inj hc
    obtain rfl | ⟨state, request, rfl, -⟩ := h
    · exact Pos.at_reg ..
    · exact Pos.at_hand ..
  | urlRequestsPushIfActive c' r => exact absurd h.1 hshares
  | test q c' | transfer q c' | doHandshake c' | responseToBuffer c' | urlRequestsFront c'
  | setHandler c' _ =>
    obtain rfl := Option.some.inj hc
    exact h
  | close c' | startLingeringClose c' | urlRequestsPopFront c' =>
    obtain rfl := Option.some.inj hc
    exact .inl h
  | init c' =>
    obtain rfl := Option.some.inj hc
    obtain ⟨request, rfl⟩ := h
    exact Pos.at_hand ..
  | accept c' | urlRequestsPushBack c' r =>
    obtain rfl := Option.some.inj hc
    obtain ⟨-, state, request, rfl⟩ := h
    exact Pos.at_hand ..
  | pushFree c' =>
    obtain rfl := Option.some.inj hc
    obtain ⟨state, request, rfl⟩ := h
    exact Pos.at_hand ..
  | connectToHost c' target =>
    obtain rfl := Option.some.inj hc
    obtain ⟨state, r, rfl, -⟩ := h
    exact Pos.at_hand ..
  | requestToBuffer c' r =>
    obtain rfl := Option.some.inj hc
    obtain ⟨state, rfl⟩ := h
    exact Pos.at_hand ..
  | getState c' =>
    obtain rfl := Option.some.inj hc
    obtain ⟨t, rfl⟩ := h
    exact Pos.at_reg ..
  | removeEvents t c' =>
    obtain rfl := Option.some.inj hc
    obtain rfl : P = _ := h
    exact Pos.at_reg ..

/-- The connection that a position holds. -/
def Pos.slot : Pos → Option Slot
  | .idle => none
  | .reg _ c | .hand c _ _ _ => some c

theorem Pos.at_iff : P.At c ↔ P.slot = some c := by
  cases P <;> simp [Pos.At, Pos.Hands, Pos.slot]

theorem Pos.slot_withSock (P : Pos) (sock : Bool) : (P.withSock sock).slot = P.slot := by
  cases P <;> rfl

theorem Pos.slot_withState (P : Pos) (c : Slot) (x : ConnState) : (P.withState c x).slot = P.slot := by
  cases P with
  | idle | reg _ _ => rfl
  | hand c' state sock request =>
    simp only [Pos.withState]
    split <;> simp_all [Pos.slot]

theorem Pos.slot_withRequest (P : Pos) (c : Slot) (r : Option Request) :
    (P.withRequest c r).slot = P.slot := by
  cases P with
  | idle | reg _ _ => rfl
  | hand c' state sock request =>
    simp only [Pos.withRequest]
    split <;> rfl

/-- An operation brings nothing to the handler but what it takes from the free list. -/
theorem Pos.At.before (h : P'.At c) (hallowed : R.allowed cfg P o) (hcall : ∀ t f, o ≠ .call t f)
    (hafter : R.after cfg P o a P') (htaken : taken o a ≠ some c) : P.At c := by
  rw [Pos.at_iff] at h ⊢
  cases o with
  | call t f => exact absurd rfl (hcall t f)
  | newConnection | getNewConnectionForUrl _ =>
    cases a with
    | none =>
      obtain rfl : P' = P := hafter
      exact h
    | some c' =>
      obtain rfl : P' = .hand c' none false none := hafter
      have hcc : c' ≠ c := fun hcc => htaken (by rw [← hcc]; rfl)
      exact absurd (Option.some.inj h) hcc
  | accept c' | close c' =>
    obtain rfl : P' = P.withSock _ := hafter
    rwa [Pos.slot_withSock] at h
  | connectToHost c' target =>
    cases a with
    | noSocket =>
      obtain rfl : P' = P := hafter
      exact h
    | refused _ | connected _ =>
      obtain rfl : P' = P.withSock true := hafter
      rwa [Pos.slot_withSock] at h
  | setState c' x =>
    obtain rfl : P' = P.withState c' x := hafter
    rwa [Pos.slot_withState] at h
  | pushFree _ | addEvents _ _ _ | queueMessage _ _ =>
    obtain rfl : P' = .idle := hafter
    cases h
  | sendNotify _ _ =>
    cases a with
    | again =>
      obtain rfl : P' = P := hafter
      exact h
    | sent | failed =>
      obtain rfl : P' = .idle := hafter
      cases h
  | removeEvents t c' =>
    obtain rfl : P = .reg t c' := hallowed
    obtain rfl : P' = .hand c' none true none := hafter
    exact h
  | urlRequestsFront c' =>
    obtain ⟨rfl, -⟩ := hafter
    rwa [Pos.slot_withRequest] at h
  | urlRequestsPopFront c' =>
    obtain rfl : P' = P.withRequest c' none := hafter
    rwa [Pos.slot_withRequest] at h
  | getState _ | chooseThread _ _ | engineChooseThread _ =>
    obtain ⟨rfl, -⟩ := hafter
    exact h
  | undefined => exact a.elim
  | acceptReady | getExistingConnectionForUrl _ _ | init _ | startLingeringClose _ | setHandler _ _
  | test _ _ | transfer _ _ | doHandshake _ | responseToBuffer _ | requestToBuffer _ _
  | urlRequestsPushBack _ _ | urlRequestsPushIfActive _ _ =>
    obtain rfl : P' = P := hafter
    exact h

/-- The handler that works on a connection holds it. -/
theorem Engaged.at (hadmits : R.Admits cfg proto) (hshares : ¬R.shares)
    (hinv : Inv cfg R s owner pos) (htasks : ∀ e, R.Keeps cfg (s.tasks e) (pos e))
    (h : Engaged proto cfg e c s) : (pos e).At c := by
  induction h generalizing owner pos with
  | now htask hslot =>
    have hkeeps := htasks e
    rw [htask] at hkeeps
    exact at_of_slot hshares hkeeps.1 hslot
  | later hgood htaken hstep _ ih =>
    obtain ⟨owner', P', hinv', htasks', -, hallowed, hnext⟩ := perform_cases hadmits hinv htasks hgood hstep
    have hat := ih hinv' htasks'
    rw [update_self] at hat
    obtain ⟨-, rfl⟩ | ⟨hcall, hafter⟩ := hnext
    · exact hat
    · exact hat.before hallowed hcall hafter htaken

/-- What a position holds belongs to its executor. -/
theorem Inv.owner_of_at (hinv : Inv cfg R s owner pos) (h : (pos e).At c) :
    owner c = .held e ∨ ∃ t, owner c = .poll t ∧ e = .thread t := by
  have hh := hinv.holds e
  obtain ⟨state, sock, request, hpos⟩ | ⟨t, hpos⟩ := h
  · rw [hpos] at hh
    exact .inl hh.1
  · rw [hpos] at hh
    exact .inr ⟨t, hh.2.1, hh.1⟩

/-- An operation about no connection, by a handler with one in its hands, can always be answered,
and leaves it there. -/
theorem exec_of_no_slot (hundefined : ¬R.undefinedCalls) (hhands : P.Hands c) (h : R.allowed cfg P o)
    (hslot : o.slot = none) (s : State) :
    (∀ t f, o ≠ .call t f) ∧ ∃ a s', Good o a ∧ taken o a = none ∧ s.exec cfg o a = some s' ∧
      ∀ P', R.after cfg P o a P' → P' = P := by
  have hsettled : ¬P.Settled := fun h => h.not_hands hhands
  cases o with
  | acceptReady => exact ⟨by simp, true, s, trivial, rfl, rfl, fun _ h => h⟩
  | getExistingConnectionForUrl url maxRequests =>
    exact ⟨by simp, s.findExisting url.host maxRequests, _, trivial, rfl, if_pos rfl, fun _ h => h⟩
  | chooseThread t m =>
    refine ⟨by simp, if cfg.mask t m then some t else none, s, trivial, rfl, ?_, fun _ h => h.1⟩
    by_cases hmask : cfg.mask t m = true <;> simp [State.exec, hmask]
  | engineChooseThread m => exact ⟨by simp, none, s, trivial, rfl, rfl, fun _ h => h.1⟩
  | newConnection | getNewConnectionForUrl _ => exact absurd h hsettled
  | undefined => exact absurd h hundefined
  | call t f =>
    cases f with
    | accept => exact absurd h hsettled
    | message _ | connection _ _ => cases hslot
  | _ => cases hslot

/-- A handler with a connection in its hands is at work on it. -/
theorem engaged_of_hands (hadmits : R.Admits cfg proto) (hundefined : ¬R.undefinedCalls)
    (hinv : Inv cfg R s owner pos) (htasks : ∀ e, R.Keeps cfg (s.tasks e) (pos e))
    (hhands : (pos e).Hands c) (hshares : ¬R.shares) : Engaged proto cfg e c s := by
  -- along the program of the handler
  generalize htask : s.tasks e = p
  induction p generalizing s owner pos with
  | pure u =>
    have hsettled := htasks e
    rw [htask] at hsettled
    exact absurd hhands (Pos.Settled.not_hands hsettled)
  | op o k ih =>
    have hkeeps := htasks e
    rw [htask] at hkeeps
    cases hslot : o.slot with
    | some c' =>
      have hat := at_of_slot hshares hkeeps.1 hslot
      rw [Pos.at_iff] at hat
      have hc : (pos e).slot = some c := Pos.at_iff.mp (.inl hhands)
      rw [hat] at hc
      exact .now htask (hslot.trans hc)
    | none =>
      obtain ⟨hcall, a, s', hgood, htaken, hexec, hafter⟩ :=
        exec_of_no_slot hundefined hhands hkeeps.1 hslot s
      have henter : proto.enter o (k a) = k a := by
        cases o <;> first | rfl | exact absurd rfl (hcall _ _)
      have hstep : State.step proto cfg s (.perform e o a) = some (s'.start e (k a)) := by
        have hresume : (s.tasks e).resume o a = some (k a) :=
          Program.resume_eq_some.mpr ⟨k, htask, rfl⟩
        simp [State.step, hresume, hexec, henter]
      obtain ⟨owner', P', hinv', htasks', -, -, hnext⟩ := perform_cases hadmits hinv htasks hgood hstep
      obtain ⟨⟨t, f, hf⟩, -⟩ | ⟨-, hP'⟩ := hnext
      · exact absurd hf (hcall t f)
      obtain rfl := hafter P' hP'
      refine .later hgood (by simp [htaken]) hstep (ih a hinv' htasks' ?_ ?_)
      · rwa [update_self]
      · simp [State.start]

theorem not_isDone_of_engaged (h : Engaged proto cfg e c s) : ¬State.isDone (s.tasks e) = true := by
  cases h with
  | now htask _ => simp [htask, State.isDone]
  | later _ _ hstep _ =>
    obtain ⟨rest, hrest, -⟩ := Option.bind_eq_some_iff.mp hstep
    obtain ⟨k, hk, -⟩ := Program.resume_eq_some.mp hrest
    simp [hk, State.isDone]

/-- Every connection that is not lost has its place, or is in the hands of a handler. -/
theorem Accounts.placed_or_inHands {lost : Slot → Prop} (hadmits : R.Admits cfg proto) (hshares : ¬R.shares)
    (hundefined : ¬R.undefinedCalls) (h : Accounts cfg R lost s owner pos) (hc : ¬lost c) :
    s.Placed c ∨ s.InHands proto cfg c := by
  have hinv := h.inv
  have hfree : owner c ≠ .free → c ∉ s.free := fun hne hmem => hne ((hinv.mem_free c).mp hmem)
  have hreg : (∀ t, owner c ≠ .poll t) → ¬s.Registered c := by
    intro hne hreg
    obtain ⟨t, ho⟩ := hinv.owner_of_registered hreg
    exact hne t ho
  have hnamed : (∀ t, owner c ≠ .message t) → ¬s.Named c := by
    intro hne hnamed
    obtain ⟨t, ho⟩ := hinv.owner_of_named hnamed
    exact hne t ho
  cases ho : owner c with
  | free =>
    rw [ho] at hreg hnamed
    exact .inl (.inl ⟨List.count_eq_one_of_mem hinv.free_nodup ((hinv.mem_free c).mpr ho), hreg (by simp), hnamed (by simp)⟩)
  | poll t =>
    rw [ho] at hfree hnamed
    refine .inl (.inr (.inl ⟨hfree (by simp), ⟨t, ?_, fun t' ht' hmem => ?_⟩, hnamed (by simp)⟩))
    · obtain ⟨sock, hsock⟩ := Option.ne_none_iff_exists'.mp (hinv.poll_sock t c ho)
      refine List.count_eq_one_of_mem (hinv.nodup_objects t) (List.mem_map.mpr ⟨(sock.fd, c), ?_, rfl⟩)
      exact (hinv.mem_pollset t sock.fd c).mpr ⟨ho, by simp [Conn.pollFd, hsock]⟩
    · obtain ⟨⟨fd, c'⟩, hmem', rfl⟩ := List.mem_map.mp hmem
      have ho' := ((hinv.mem_pollset t' fd c').mp hmem').1
      rw [ho] at ho'
      cases ho'
      exact ht' rfl
  | message t =>
    rw [ho] at hfree hreg
    refine .inl (.inr (.inr ⟨hfree (by simp), hreg (by simp), t, ?_, fun t' ht' hmem => ?_⟩))
    · exact List.count_eq_one_of_mem (hinv.inbox_nodup t) ((hinv.mem_inbox t c).mpr ho)
    · have ho' := (hinv.mem_inbox t' c).mp hmem
      rw [ho] at ho'
      cases ho'
      exact ht' rfl
  | held e =>
    rw [ho] at hfree hreg hnamed
    exact .inr ⟨hfree (by simp), hreg (by simp), hnamed (by simp), e,
      engaged_of_hands hadmits hundefined hinv h.tasks (h.hands c e ho) hshares⟩
  | lost => exact absurd (h.lost c ho) hc

end Engaged

/-- The server with a number of connections. -/
def serverMachine (cfg : Config) (numConnections : Nat) : Lib.Machine State Label where
  init s := s = .initial numConnections
  step := State.step HttpServer.httpServer cfg

/-- The answers are good, and a message is sent, or fails with EAGAIN or ENOBUFS. -/
def SoundStep (s : State) (label : Label) : Prop := GoodStep s label ∧ label.dropped = none

instance (s : State) (label : Label) : Decidable (SoundStep s label) := inferInstanceAs (Decidable (_ ∧ _))

/-- In every state that the server reaches, every connection is in exactly one of the three places or
in the hands of a handler, in a place when no handler runs, and never with two handlers. -/
theorem connections_exclusive (cfg : Config) (numConnections : Nat) (s : State)
    (h : (serverMachine cfg numConnections).Reaches SoundStep s) :
    (∀ c < numConnections, s.Placed c ∨ s.InHands HttpServer.httpServer cfg c) ∧
    ((∀ e, State.isDone (s.tasks e)) → ∀ c < numConnections, s.Placed c) ∧
    ∀ e c, Engaged HttpServer.httpServer cfg e c s →
      (c ∉ s.free ∧ ¬s.Named c ∧ ∀ t, c ∈ (s.pollset t).map Prod.snd → e = .thread t) ∧
      ∀ e', Engaged HttpServer.httpServer cfg e' c s → e' = e := by
  have hadmits := HttpServer.admits cfg
  have haccounted : Accounted cfg (HttpServer.rules cfg) (numConnections ≤ ·) s := by
    refine Machine.Reaches.invariant (M := serverMachine cfg numConnections)
      (P := Accounted cfg (HttpServer.rules cfg) (numConnections ≤ ·)) ?_ ?_ h
    · rintro s rfl
      exact accounted_initial hadmits.free fun _ h => h
    · rintro s label s' hs ⟨hgood, hdropped⟩ hstep
      refine accounted_step hadmits hs hgood (fun c hc => ?_) hstep
      rw [hdropped] at hc
      cases hc
  obtain ⟨owner, pos, h⟩ := haccounted
  have hplaced : ∀ c < numConnections, s.Placed c ∨ s.InHands HttpServer.httpServer cfg c :=
    fun c hc => h.placed_or_inHands hadmits id id (not_le.mpr hc)
  refine ⟨hplaced, fun hdone c hc => ?_, fun e c he => ?_⟩
  · obtain hplaced | ⟨-, -, -, e, hengaged⟩ := hplaced c hc
    · exact hplaced
    · exact absurd (hdone e) (not_isDone_of_engaged hengaged)
  · have howner := fun e (he : Engaged HttpServer.httpServer cfg e c s) =>
      h.inv.owner_of_at (he.at hadmits id h.inv h.tasks)
    refine ⟨⟨fun hmem => ?_, fun hnamed => ?_, fun t hmem => ?_⟩, fun e' he' => ?_⟩
    · have ho := (h.inv.mem_free c).mp hmem
      obtain ho' | ⟨_, ho', -⟩ := howner e he <;> simp [ho] at ho'
    · obtain ⟨t, ho⟩ := h.inv.owner_of_named hnamed
      obtain ho' | ⟨_, ho', -⟩ := howner e he <;> simp [ho] at ho'
    · obtain ⟨⟨fd, c'⟩, hmem', rfl⟩ := List.mem_map.mp hmem
      have ho := ((h.inv.mem_pollset t fd c').mp hmem').1
      obtain ho' | ⟨t', ho', rfl⟩ := howner e he
      · simp [ho] at ho'
      · rw [ho] at ho'
        cases ho'
        rfl
    · obtain ho | ⟨t, ho, rfl⟩ := howner e he <;> obtain ho' | ⟨t', ho', rfl⟩ := howner e' he' <;>
        rw [ho] at ho' <;> cases ho' <;> rfl

/-- A connection that the second thread has been sent and works on, and one that is free again; while the message
is under way, they are in two other places. -/
theorem connections_exclusive_handOver :
    (∃ s, (serverMachine twoThreads 2).Reaches SoundStep s ∧ (s.notify 1).map Message.conn = [1] ∧
      s.pollset 0 = [(6, 0)] ∧ ∀ c < 2, s.Placed c ∨ s.InHands HttpServer.httpServer twoThreads c) ∧
    ∃ s, (serverMachine twoThreads 2).Reaches SoundStep s ∧ s.free = [0] ∧ s.pollset 1 = [(5, 1)] ∧
      ∀ c < 2, s.Placed c ∨ s.InHands HttpServer.httpServer twoThreads c := by
  have hstart : (serverMachine twoThreads 2).Reaches SoundStep (.initial 2) := .start rfl
  have hsent : (((serverMachine twoThreads 2).guard SoundStep).run (.initial 2) (handOverRun.take 34)).map
      (fun s => ((s.notify 1).map Message.conn, s.pollset 0)) = some ([1], [(6, 0)]) := by decide +kernel
  have hend : (((serverMachine twoThreads 2).guard SoundStep).run (.initial 2) handOverRun).map
      (fun s => (s.free, s.pollset 1)) = some ([0], [(5, 1)]) := by decide +kernel
  obtain ⟨s, hreach, hs⟩ := hstart.exists_of_guard_run hsent
  obtain ⟨s', hreach', hs'⟩ := hstart.exists_of_guard_run hend
  obtain ⟨hnotify, hpollset⟩ := Prod.mk.inj hs
  obtain ⟨hfree, hpollset'⟩ := Prod.mk.inj hs'
  exact ⟨⟨s, hreach, hnotify, hpollset, (connections_exclusive twoThreads 2 s hreach).1⟩,
    s', hreach', hfree, hpollset', (connections_exclusive twoThreads 2 s' hreach').1⟩

end Latypus.Engine
