import Latypus.Engine.Invariant

/-! Whole runs of the engine. A protocol whose functions keep to its rules leaves every reachable
state with an owner for each connection, as long as the answers are good ones. -/

namespace Latypus.Engine
open Lib Function

/-- The functions of a protocol keep to its rules. -/
structure Rules.Admits (cfg : Config) (R : Rules) (proto : Protocol) : Prop where
  free : R.legit .free
  message : ∀ t msg P, R.Delivers cfg t msg P → R.Keeps cfg (proto.handleMessage t msg) P
  connection : ∀ t c revents, R.Keeps cfg (proto.handleConnection t c revents) (.reg t c)
  timeout : ∀ t c, R.Keeps cfg (proto.timeoutConnection t c) (.reg t c)
  accept : ∀ handleAccept, proto.handleAccept = some handleAccept →
    ∀ t P, P.Settled → R.Keeps cfg (handleAccept t) P
  submit : ∀ submitRequest, proto.submitRequest = some submitRequest →
    ∀ r maxRequests P, P.Settled → R.Keeps cfg (submitRequest r maxRequests) P

/-- The steps whose answers are good. -/
def GoodStep (_ : State) : Label → Prop
  | .perform _ o a => Good o a
  | _ => True

instance : (o : Op) → (a : Answer o) → Decidable (Good o a)
  | .removeEvents _ _, ok | .startLingeringClose _, ok | .test .populateResponse _, ok | .test .populateRequest _, ok =>
    inferInstanceAs (Decidable (ok = true))
  | .responseToBuffer _, length | .requestToBuffer _ _, length => inferInstanceAs (Decidable (0 ≤ length))
  | .test .bytesWritable _, _ | .test .backIsZero _, _ | .test .isFinished _, _ | .test .hasError _, _
  | .test .sanitizePath _, _ | .test .requestHasBody _, _ | .test .responseHasBody _, _ | .test .connectionClose _, _
  | .test .bytesReadable _, _ | .test .handleRequest _, _ | .test .endRequest _, _ | .test .connectionTimeout _, _
  | .test .keepaliveTimeout _, _ | .test .listenIsTls _, _ | .test .lookup _, _ | .test .sslCtx _, _
  | .acceptReady, _ | .newConnection, _ | .getNewConnectionForUrl _, _ | .getExistingConnectionForUrl _ _, _
  | .init _, _ | .accept _, _ | .connectToHost _ _, _ | .close _, _ | .getState _, _ | .setState _ _, _
  | .setHandler _ _, _ | .pushFree _, _ | .addEvents _ _ _, _ | .chooseThread _ _, _ | .engineChooseThread _, _
  | .sendNotify _ _, _ | .queueMessage _ _, _ | .call _ _, _ | .transfer _ _, _ | .doHandshake _, _
  | .urlRequestsFront _, _ | .urlRequestsPushBack _ _, _ | .urlRequestsPushIfActive _ _, _
  | .urlRequestsPopFront _, _ | .undefined, _ => .isTrue trivial

instance (s : State) : (label : Label) → Decidable (GoodStep s label)
  | .perform _ o a => inferInstanceAs (Decidable (Good o a))
  | .poll .. | .next .. | .submit .. => .isTrue trivial

/-- Some assignment of connections to owners and of positions to handlers explains the state. -/
def Owned (cfg : Config) (R : Rules) (s : State) : Prop :=
  ∃ owner pos, Inv cfg R s owner pos ∧ ∀ e, R.Keeps cfg (s.tasks e) (pos e)

/-- The same, with what handlers own in their hands, and only connections that may be lost with
nobody. -/
structure Accounts (cfg : Config) (R : Rules) (lost : Slot → Prop) (s : State) (owner : Slot → Owner)
    (pos : Exec → Pos) : Prop where
  inv : Inv cfg R s owner pos
  tasks : ∀ e, R.Keeps cfg (s.tasks e) (pos e)
  hands : ∀ c e, owner c = .held e → (pos e).Hands c
  lost : ∀ c, owner c = .lost → lost c

def Accounted (cfg : Config) (R : Rules) (lost : Slot → Prop) (s : State) : Prop :=
  ∃ owner pos, Accounts cfg R lost s owner pos

/-- The same after a step of `e`, which is the only one to change its position. -/
def Advances (cfg : Config) (R : Rules) (lost : Slot → Prop) (s : State) (e : Exec) (pos : Exec → Pos) : Prop :=
  ∃ owner P, Accounts cfg R lost s owner (update pos e P)

theorem Advances.accounted {cfg : Config} {R : Rules} {lost : Slot → Prop} {s : State} {e : Exec}
    {pos : Exec → Pos} (h : Advances cfg R lost s e pos) : Accounted cfg R lost s := by
  obtain ⟨owner, P, h⟩ := h
  exact ⟨owner, _, h⟩

section Run
variable {cfg : Config} {R : Rules} {proto : Protocol} {s s' : State}
variable {owner : Slot → Owner} {pos : Exec → Pos} {e : Exec} {p : Prog Unit} {P : Pos}
variable {lost : Slot → Prop}

theorem Rules.Admits.body (h : R.Admits cfg proto) {t : Thread} {f : Call} {P : Pos}
    (hP : R.allowed cfg P (.call t f)) : R.Keeps cfg (proto.body t f) P := by
  cases f with
  | message msg => exact h.message t msg P hP
  | connection c revents =>
    obtain rfl : P = .reg t c := hP
    exact h.connection t c revents
  | accept =>
    cases haccept : proto.handleAccept with
    | some handleAccept => simpa [Protocol.body, haccept] using h.accept handleAccept haccept t P hP
    | none =>
      have hbody : proto.body t .accept = pure () := by simp [Protocol.body, haccept]
      rw [hbody]
      exact hP

theorem keeps_start (hp : R.Keeps cfg p P) (htasks : ∀ e', e' ≠ e → R.Keeps cfg (s.tasks e') (pos e'))
    (e' : Exec) : R.Keeps cfg ((s.start e p).tasks e') (update pos e P e') := by
  by_cases he : e' = e
  · subst he
    simpa [State.start] using hp
  · simpa [State.start, he] using htasks e' he

theorem Accounts.start {owner' : Slot → Owner} (h : Accounts cfg R lost s owner pos)
    {s' : State} (hinv : Inv cfg R s' owner' (update pos e P)) (hmove : Transfer e (pos e) P none owner owner')
    (htasks : s'.tasks = s.tasks) (hp : R.Keeps cfg p P) :
    Advances cfg R lost (s'.start e p) e pos := by
  refine ⟨owner', P, { hinv with }, keeps_start hp fun e' _ => ?_, fun c e' => hmove.hands h.hands,
    fun c hc => ?_⟩
  · rw [htasks]
    exact h.tasks e'
  · rcases hmove.lost hc with hc | hc
    · exact h.lost c hc
    · cases hc

theorem settled_of_isDone (hp : R.Keeps cfg p P) (h : State.isDone p) : P.Settled := by
  cases p with
  | pure a => exact hp
  | op o k => simp [State.isDone] at h

theorem keeps_of_isDone (h : State.isDone p) (hP : P.Settled) : R.Keeps cfg p P := by
  cases p with
  | pure a => exact hP
  | op o k => simp [State.isDone] at h

/-- What a handler's step does to its position: a call leaves it where it is, and every other
operation takes it on. -/
theorem perform_cases {o : Op} {a : Answer o} (hadmits : R.Admits cfg proto)
    (hinv : Inv cfg R s owner pos) (htasks : ∀ e, R.Keeps cfg (s.tasks e) (pos e)) (hgood : Good o a)
    (hs : State.step proto cfg s (.perform e o a) = some s') :
    ∃ owner' P', Inv cfg R s' owner' (update pos e P') ∧
      (∀ e', R.Keeps cfg (s'.tasks e') (update pos e P' e')) ∧
      Transfer e (pos e) P' (dropped o a) owner owner' ∧ R.allowed cfg (pos e) o ∧
      ((∃ t f, o = .call t f) ∧ P' = pos e ∨ (∀ t f, o ≠ .call t f) ∧ R.after cfg (pos e) o a P') := by
  simp only [State.step, Option.bind_eq_bind, Option.bind_eq_some_iff] at hs
  obtain ⟨rest, hrest, s₁, hexec, hs'⟩ := hs
  obtain rfl := Option.some.inj hs'
  obtain ⟨hallowed, hkeeps⟩ := (htasks e).resume hrest
  by_cases hcall : ∃ t f, o = .call t f
  · obtain ⟨t, f, rfl⟩ := hcall
    obtain rfl := Option.some.inj hexec
    have hinv' : Inv cfg R s owner (update pos e (pos e)) := hinv.move (hinv.holds e)
    refine ⟨owner, pos e, { hinv' with }, keeps_start ?_ fun e' _ => htasks e', .stay fun _ h => h,
      hallowed, .inl ⟨⟨t, f, rfl⟩, rfl⟩⟩
    exact Discipline.triple_bind (hadmits.body hallowed) fun _ P' hP' => hkeeps P' ⟨trivial, hP'⟩
  · have hcall' : ∀ t f, o ≠ .call t f := fun t f ho => hcall ⟨t, f, ho⟩
    have henter : proto.enter o rest = rest := by
      cases o <;> first | rfl | exact absurd rfl (hcall' _ _)
    obtain ⟨owner', P', hafter, hinv', hmove⟩ := hinv.exec hadmits.free hallowed hgood hcall' hexec
    rw [henter]
    refine ⟨owner', P', { hinv' with }, keeps_start (hkeeps P' ⟨hgood, hafter⟩) fun e' _ => ?_, hmove,
      hallowed, .inr ⟨hcall', hafter⟩⟩
    rw [State.exec_tasks hexec]
    exact htasks e'

theorem Accounts.perform {o : Op} {a : Answer o} (hadmits : R.Admits cfg proto)
    (h : Accounts cfg R lost s owner pos) (hgood : Good o a) (hdropped : ∀ c, dropped o a = some c → lost c)
    (hs : State.step proto cfg s (.perform e o a) = some s') : Advances cfg R lost s' e pos := by
  obtain ⟨owner', P', hinv', htasks', hmove, -⟩ := perform_cases hadmits h.inv h.tasks hgood hs
  exact ⟨owner', _, hinv', htasks', fun c e' => hmove.hands h.hands,
    fun c hc => (hmove.lost hc).elim (h.lost c) (hdropped c)⟩

theorem Accounts.setTodo {t : Thread} {items : List Item} (h : Accounts cfg R lost s owner pos)
    (hdone : State.isDone (s.tasks (.thread t))) (hnodup : (items.filterMap Item.slot).Nodup)
    (hpoll : ∀ c ∈ items.filterMap Item.slot, owner c = .poll t) :
    Advances cfg R lost (s.setTodo t items) (.thread t) pos := by
  have hsettled := settled_of_isDone (h.tasks (.thread t)) hdone
  have hmove : Transfer (.thread t) (pos (.thread t)) .idle none owner owner :=
    .stay fun c hc => absurd hc hsettled.not_hands
  refine ⟨owner, _, h.inv.setTodo items hnodup hpoll (.inl rfl), fun e' => ?_,
    fun c e' => hmove.hands h.hands, h.lost⟩
  by_cases he : e' = .thread t
  · subst he
    rw [update_self]
    exact keeps_of_isDone hdone (.inl rfl)
  · rw [update_of_ne he]
    exact h.tasks e'

/-- The objects that `do_poll` returns are those of different descriptors, hence different. -/
theorem slots_of_events {t : Thread} {events : List Event} {items : List Item}
    (hinv : Inv cfg R s owner pos) (hnodup : (events.filterMap Event.fd).Nodup)
    (hitems : events.mapM (s.itemOf proto cfg t) = some items) :
    (items.filterMap Item.slot).Nodup ∧
      ∀ c ∈ items.filterMap Item.slot, ∃ fd ∈ events.filterMap Event.fd,
        (fd, c) ∈ s.pollset t := by
  induction events generalizing items with
  | nil =>
    obtain rfl : items = [] := by simpa using hitems.symm
    simp
  | cons event events ih =>
    simp only [List.mapM_cons, Option.bind_eq_bind, Option.bind_eq_some_iff] at hitems
    obtain ⟨item, hitem, rest, hrest, hcons⟩ := hitems
    obtain rfl : items = item :: rest := by simpa using hcons.symm
    cases event with
    | ipc =>
      obtain rfl := Option.some.inj hitem
      simpa [List.filterMap_cons, Item.slot, Event.fd] using ih hnodup hrest
    | listen =>
      obtain ⟨-, hitem⟩ := Option.ite_none_right_eq_some.mp hitem
      obtain rfl := Option.some.inj hitem
      simpa [List.filterMap_cons, Item.slot, Event.fd] using ih hnodup hrest
    | conn fd revents =>
      simp only [List.filterMap_cons_some (f := Event.fd) (a := .conn fd revents) rfl,
        List.nodup_cons] at hnodup ⊢
      obtain ⟨hnd, hmem⟩ := ih hnodup.2 hrest
      obtain ⟨⟨fd', c⟩, hfind, rfl⟩ := Option.map_eq_some_iff.mp hitem
      obtain rfl : fd' = fd := by simpa using List.find?_some hfind
      have hc := List.mem_of_find?_eq_some hfind
      have hslot : (Item.conn c revents).slot = some c := rfl
      simp only [List.filterMap_cons_some hslot, List.nodup_cons, List.forall_mem_cons]
      refine ⟨⟨fun hin => ?_, hnd⟩, ⟨fd', List.mem_cons_self, hc⟩, fun c' hc' => ?_⟩
      · -- the same connection under two descriptors
        obtain ⟨fd, hfd, hin'⟩ := hmem c hin
        have h1 := ((hinv.mem_pollset t fd' c).mp hc).2
        have h2 := ((hinv.mem_pollset t fd c).mp hin').2
        rw [h1] at h2
        exact hnodup.1 (Option.some.inj h2 ▸ hfd)
      · obtain ⟨fd, hfd, hin'⟩ := hmem c' hc'
        exact ⟨fd, List.mem_cons_of_mem _ hfd, hin'⟩

theorem Accounts.poll {t : Thread} {events : List Event} {sweep : Bool} (h : Accounts cfg R lost s owner pos)
    (hs : State.step proto cfg s (.poll t events sweep) = some s') : Advances cfg R lost s' (.thread t) pos := by
  obtain ⟨⟨-, hdone, -, hnodup⟩, hs⟩ := Option.ite_none_right_eq_some.mp hs
  obtain ⟨items, hitems, rfl⟩ := Option.map_eq_some_iff.mp hs
  obtain ⟨hslots, hmem⟩ := slots_of_events h.inv hnodup hitems
  have hsweep : (items ++ if sweep then [Item.sweep] else []).filterMap Item.slot =
      items.filterMap Item.slot := by
    cases sweep <;> simp [Item.slot]
  refine h.setTodo hdone (hsweep ▸ hslots) fun c hc => ?_
  obtain ⟨fd, -, hfd⟩ := hmem c (hsweep ▸ hc)
  exact ((h.inv.mem_pollset t fd c).mp hfd).1

/-- A pollset has every connection once. -/
theorem Inv.nodup_objects (hinv : Inv cfg R s owner pos) (t : Thread) :
    ((s.pollset t).map Prod.snd).Nodup := by
  refine List.Nodup.map_on ?_ (hinv.pollset_nodup t).of_map
  rintro ⟨fd, c⟩ hx ⟨fd', c'⟩ hy rfl
  have h1 := ((hinv.mem_pollset t fd c).mp hx).2
  have h2 := ((hinv.mem_pollset t fd' c).mp hy).2
  rw [h1] at h2
  rw [Option.some.inj h2]

theorem Accounts.next {t : Thread} {received : Bool} (hadmits : R.Admits cfg proto)
    (h : Accounts cfg R lost s owner pos) (hs : State.step proto cfg s (.next t received) = some s') :
    Advances cfg R lost s' (.thread t) pos := by
  obtain ⟨hdone, hs⟩ := Option.ite_none_right_eq_some.mp hs
  have hinv := h.inv
  have hnd := hinv.pending_nodup t
  have hpoll := hinv.mem_pending t
  have hsettled := settled_of_isDone (h.tasks (.thread t)) hdone
  have hstay : ∀ P, Transfer (.thread t) (pos (.thread t)) P none owner owner :=
    fun P => .stay fun c hc => absurd hc hsettled.not_hands
  unfold State.pending at hnd hpoll
  cases htodo : s.todo t with
  | nil => simp [State.nextItem, htodo] at hs
  | cons item rest =>
    rw [htodo] at hnd hpoll
    cases item with
    | ipc =>
      have hinv' := hinv.setTodo (.drain :: rest) (P := .idle) hnd hpoll (.inl rfl)
      cases hnotify : s.notify t with
      | nil =>
        obtain rfl : _ = s' := by simpa [State.nextItem, htodo, hnotify] using hs
        exact h.setTodo hdone hnd hpoll
      | cons msg msgs =>
        cases received with
        | false =>
          obtain rfl : _ = s' := by simpa [State.nextItem, htodo, hnotify] using hs
          exact h.setTodo hdone hnd hpoll
        | true =>
          obtain rfl : _ = s' := by simpa [State.nextItem, htodo, hnotify] using hs
          have hperm : ∀ t', (s.inbox t').Perm (if t' = t then
              msg :: (update s.notify t msgs t' ++ s.queue t')
              else update s.notify t msgs t' ++ s.queue t') := by
            intro t'
            by_cases ht : t' = t
            · subst ht
              rw [if_pos rfl, update_self, State.inbox, hnotify]
              exact .refl _
            · rw [if_neg ht, update_of_ne ht]
              exact .refl _
          obtain ⟨m, sock, haction, hmask, hinv''⟩ := hinv'.receive hperm
          rw [update_idem] at hinv''
          refine h.start (P := .hand msg.conn none sock none) { hinv'' with }
            (.take hsettled ⟨_, _, _, rfl⟩) rfl ?_
          exact hadmits.message t msg _ (.inl ⟨none, sock, none, m, rfl, haction, hmask⟩)
    | drain => 
      cases hqueue : s.queue t with
      | nil =>
        obtain rfl : _ = s' := by simpa [State.nextItem, htodo, hqueue] using hs
        exact h.setTodo hdone hnd hpoll
      | cons msg msgs =>
        obtain rfl : _ = s' := by simpa [State.nextItem, htodo, hqueue] using hs
        have hperm : ∀ t', (s.inbox t').Perm (if t' = t then
            msg :: (s.notify t' ++ update s.queue t msgs t')
            else s.notify t' ++ update s.queue t msgs t') := by
          intro t'
          by_cases ht : t' = t
          · subst ht
            rw [if_pos rfl, update_self, State.inbox, hqueue]
            exact List.perm_middle
          · rw [if_neg ht, update_of_ne ht]
            exact .refl _
        obtain ⟨m, sock, haction, hmask, hinv'⟩ := hinv.receive hperm
        refine h.start (P := .hand msg.conn none sock none) { hinv' with }
          (.take hsettled ⟨_, _, _, rfl⟩) rfl ?_
        exact hadmits.message t msg _ (.inl ⟨none, sock, none, m, rfl, haction, hmask⟩)
    | listen =>
      obtain rfl : _ = s' := by simpa [State.nextItem, htodo] using hs
      refine h.start (P := .idle) (hinv.setTodo _ hnd hpoll (.inl rfl)) (hstay _) rfl ?_
      exact hadmits.body (f := .accept) (.inl rfl)
    | conn c revents =>
      obtain rfl : _ = s' := by simpa [State.nextItem, htodo] using hs
      have hslot : (Item.conn c revents).slot = some c := rfl
      rw [List.filterMap_cons_some hslot] at hnd hpoll
      obtain ⟨hc, hnd⟩ := List.nodup_cons.mp hnd
      obtain ⟨ho, hpoll⟩ := List.forall_mem_cons.mp hpoll
      exact h.start (hinv.setTodo _ hnd hpoll (.inr ⟨c, rfl, ho, hc⟩)) (hstay _) rfl
        (hadmits.connection t c revents)
    | sweep =>
      obtain rfl : _ = s' := by simpa [State.nextItem, htodo] using hs
      have hslots : ((s.pollset t).map fun x => Item.timeout x.2).filterMap Item.slot =
          (s.pollset t).map Prod.snd := by
        rw [List.filterMap_map, ← List.filterMap_eq_map]
        rfl
      refine h.setTodo hdone (hslots ▸ hinv.nodup_objects t) fun c hc => ?_
      obtain ⟨⟨fd, c'⟩, hmem, rfl⟩ := List.mem_map.mp (hslots ▸ hc)
      exact ((hinv.mem_pollset t fd c').mp hmem).1
    | timeout c =>
      obtain rfl : _ = s' := by simpa [State.nextItem, htodo] using hs
      have hslot : (Item.timeout c).slot = some c := rfl
      rw [List.filterMap_cons_some hslot] at hnd hpoll
      obtain ⟨hc, hnd⟩ := List.nodup_cons.mp hnd
      obtain ⟨ho, hpoll⟩ := List.forall_mem_cons.mp hpoll
      exact h.start (hinv.setTodo _ hnd hpoll (.inr ⟨c, rfl, ho, hc⟩)) (hstay _) rfl
        (hadmits.timeout t c)

theorem Accounts.submit {i : Nat} {r : Request} {maxRequests : Nat} (hadmits : R.Admits cfg proto)
    (h : Accounts cfg R lost s owner pos) (hs : State.step proto cfg s (.submit i r maxRequests) = some s') :
    Advances cfg R lost s' (.caller i) pos := by
  obtain ⟨hdone, hs⟩ := Option.ite_none_right_eq_some.mp hs
  obtain ⟨submitRequest, hsubmit, rfl⟩ := Option.map_eq_some_iff.mp hs
  have hsettled := settled_of_isDone (h.tasks (.caller i)) hdone
  refine h.start (P := .idle) (h.inv.move trivial)
    (.stay fun c hc => absurd hc hsettled.not_hands) rfl ?_
  exact hadmits.submit submitRequest hsubmit r maxRequests .idle (.inl rfl)

theorem inv_initial (hfree : R.legit .free) (numConnections : Nat) :
    Inv cfg R (.initial numConnections)
      (fun c => if c < numConnections then .free else .lost) fun _ => .idle where
  free_nodup := List.nodup_range
  mem_free c := by simp [State.initial]
  pollset_nodup t := List.nodup_nil
  mem_pollset t fd c := by simp [State.initial, Conn.pollFd]
  inbox_nodup t := List.nodup_nil
  mem_inbox t c := by
    have hinbox : (State.initial numConnections).inbox t = [] := rfl
    grind
  inbox_action t msg hmsg := by simp [State.initial, State.inbox] at hmsg
  pending_nodup t := List.nodup_nil
  mem_pending t c hc := by simp [State.initial, State.pending] at hc
  free_sock c _ := rfl
  poll_sock t c ho := by grind
  fd_isOpen c sock hsock := by simp [State.initial] at hsock
  fd_inj c c' sock sock' hsock := by simp [State.initial] at hsock
  legit c := hfree
  fits t c ho := by grind
  queues c r hr := by simp [State.initial] at hr
  holds e := trivial

/-- The connection that a step loses. -/
def Label.dropped : Label → Option Slot
  | .perform _ o a => Engine.dropped o a
  | _ => none

/-- Who takes a step. -/
def Label.exec : Label → Exec
  | .perform e _ _ => e
  | .poll t _ _ => .thread t
  | .next t _ => .thread t
  | .submit i _ _ => .caller i

theorem Accounts.step {label : Label} (hadmits : R.Admits cfg proto) (h : Accounts cfg R lost s owner pos)
    (hgood : GoodStep s label) (hdropped : ∀ c, label.dropped = some c → lost c)
    (hs : State.step proto cfg s label = some s') : Advances cfg R lost s' label.exec pos := by
  cases label with
  | perform e o a => exact h.perform hadmits hgood hdropped hs
  | poll t events sweep => exact h.poll hs
  | next t received => exact h.next hadmits hs
  | submit i r maxRequests => exact h.submit hadmits hs

theorem accounted_step {label : Label} (hadmits : R.Admits cfg proto) (h : Accounted cfg R lost s)
    (hgood : GoodStep s label) (hdropped : ∀ c, label.dropped = some c → lost c)
    (hs : State.step proto cfg s label = some s') : Accounted cfg R lost s' := by
  obtain ⟨owner, pos, h⟩ := h
  exact (h.step hadmits hgood hdropped hs).accounted

theorem accounted_initial (hfree : R.legit .free) {numConnections : Nat}
    (hlost : ∀ c, numConnections ≤ c → lost c) : Accounted cfg R lost (.initial numConnections) := by
  refine ⟨_, _, inv_initial hfree numConnections, fun e => .inl rfl, fun c e hc => ?_, fun c hc => ?_⟩
  · split_ifs at hc
  · by_cases hlt : c < numConnections
    · rw [if_pos hlt] at hc
      cases hc
    · exact hlost c (not_lt.mp hlt)

theorem Accounted.owned (h : Accounted cfg R lost s) : Owned cfg R s := by
  obtain ⟨owner, pos, h⟩ := h
  exact ⟨owner, pos, h.inv, h.tasks⟩

theorem accounted_of_reaches (hadmits : R.Admits cfg proto)
    (h : (proto.machine cfg).Reaches GoodStep s) : Accounted cfg R (fun _ => True) s := by
  refine h.invariant ?_ fun _ _ _ hs hgood hstep =>
    accounted_step hadmits hs hgood (fun _ _ => trivial) hstep
  rintro s ⟨numConnections, rfl⟩
  exact accounted_initial hadmits.free fun _ _ => trivial

theorem owned_of_reaches (hadmits : R.Admits cfg proto)
    (h : (proto.machine cfg).Reaches GoodStep s) : Owned cfg R s :=
  (accounted_of_reaches hadmits h).owned

end Run

namespace State

def Registered (s : State) (c : Slot) : Prop := ∃ t, c ∈ (s.pollset t).map Prod.snd

def Named (s : State) (c : Slot) : Prop := ∃ t, c ∈ (s.inbox t).map Message.conn

/-- No connection is in the free list twice, or there while a pollset or a message has it. -/
def Conserved (s : State) : Prop :=
  s.free.Nodup ∧ ∀ c ∈ s.free, ¬s.Registered c ∧ ¬s.Named c

end State

section Conserved
variable {cfg : Config} {R : Rules} {proto : Protocol} {s s' : State} {e : Exec} {c : Slot}
variable {owner : Slot → Owner} {pos : Exec → Pos}

theorem Inv.owner_of_registered (hinv : Inv cfg R s owner pos) (h : s.Registered c) :
    ∃ t, owner c = .poll t := by
  obtain ⟨t, hmem⟩ := h
  obtain ⟨⟨fd, c'⟩, hmem', rfl⟩ := List.mem_map.mp hmem
  exact ⟨t, ((hinv.mem_pollset t fd c').mp hmem').1⟩

theorem Inv.owner_of_named (hinv : Inv cfg R s owner pos) (h : s.Named c) :
    ∃ t, owner c = .message t := by
  obtain ⟨t, hmem⟩ := h
  exact ⟨t, (hinv.mem_inbox t c).mp hmem⟩

theorem Owned.conserved (h : Owned cfg R s) : s.Conserved := by
  obtain ⟨owner, pos, hinv, -⟩ := h
  refine ⟨hinv.free_nodup, fun c hc => ⟨fun hreg => ?_, fun hnamed => ?_⟩⟩
  · obtain ⟨t, ho⟩ := hinv.owner_of_registered hreg
    simp [(hinv.mem_free c).mp hc] at ho
  · obtain ⟨t, ho⟩ := hinv.owner_of_named hnamed
    simp [(hinv.mem_free c).mp hc] at ho

/-- `free_connection` runs on connections that nothing else has. -/
theorem Owned.pushFree {a : Answer (.pushFree c)} (h : Owned cfg R s)
    (hs : State.step proto cfg s (.perform e (.pushFree c) a) = some s') :
    c ∉ s.free ∧ ¬s.Registered c ∧ ¬s.Named c := by
  obtain ⟨owner, pos, hinv, htasks⟩ := h
  simp only [State.step, Option.bind_eq_bind, Option.bind_eq_some_iff] at hs
  obtain ⟨rest, hrest, -⟩ := hs
  obtain ⟨hallowed, -⟩ := (htasks e).resume hrest
  obtain ⟨state, request, hpos⟩ : ∃ state request, pos e = .hand c state false request := hallowed
  have hh := hinv.holds e
  rw [hpos] at hh
  refine ⟨fun hmem => ?_, fun hreg => ?_, fun hnamed => ?_⟩
  · simpa [hh.1] using (hinv.mem_free c).mp hmem
  · obtain ⟨t, ho⟩ := hinv.owner_of_registered hreg
    simp [hh.1] at ho
  · obtain ⟨t, ho⟩ := hinv.owner_of_named hnamed
    simp [hh.1] at ho

end Conserved
end Latypus.Engine
