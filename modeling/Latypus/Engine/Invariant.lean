import Latypus.Engine.Ownership

/-! What the ownership discipline gives: the free list, the pollsets and the inboxes never name
a connection twice, however the handlers interleave. Each operation moves at most one connection
from one owner to another, and a handler that keeps to its position moves only its own. -/

namespace Latypus.Engine
open Lib Function

/-- Where a connection is. -/
inductive Owner
  | free
  | poll (t : Thread)
  | message (t : Thread)
  | held (e : Exec)
  | lost

/-- The connection of a message whose send fails for good. -/
def dropped : (o : Op) → Answer o → Option Slot
  | .sendNotify _ msg, .failed => some msg.conn
  | _, _ => none

section Invariant
variable (cfg : Config) (R : Rules)

/-- What a position says about the connection it holds. -/
def Holds (s : State) (owner : Slot → Owner) (e : Exec) : Pos → Prop
  | .idle => True
  | .reg t c => e = .thread t ∧ owner c = .poll t ∧ c ∉ s.pending t
  | .hand c state sock request => owner c = .held e ∧
      (∀ x, state = some x → ∀ t, R.fits t x → R.fits t (s.conns c).state) ∧
      (s.conns c).sock.isSome = sock ∧ ∀ r, request = some r → r ∈ (s.conns c).urlRequests

structure Inv (s : State) (owner : Slot → Owner) (pos : Exec → Pos) : Prop where
  free_nodup : s.free.Nodup
  mem_free : ∀ c, c ∈ s.free ↔ owner c = .free
  pollset_nodup : ∀ t, ((s.pollset t).map Prod.fst).Nodup
  mem_pollset : ∀ t fd c, (fd, c) ∈ s.pollset t ↔
    owner c = .poll t ∧ (s.conns c).pollFd = some fd
  inbox_nodup : ∀ t, ((s.inbox t).map Message.conn).Nodup
  mem_inbox : ∀ t c, c ∈ (s.inbox t).map Message.conn ↔ owner c = .message t
  inbox_action : ∀ t, ∀ msg ∈ s.inbox t, ∃ m,
    R.action msg.action = some (m, (s.conns msg.conn).sock.isSome) ∧ cfg.mask t m
  pending_nodup : ∀ t, (s.pending t).Nodup
  mem_pending : ∀ t, ∀ c ∈ s.pending t, owner c = .poll t
  free_sock : ∀ c, owner c = .free → (s.conns c).sock = none
  poll_sock : ∀ t c, owner c = .poll t → (s.conns c).sock ≠ none
  fd_isOpen : ∀ c sock, (s.conns c).sock = some sock → s.isOpen sock.fd = true
  fd_inj : ∀ c c' sock sock', (s.conns c).sock = some sock → (s.conns c').sock = some sock' →
    sock.fd = sock'.fd → c = c'
  legit : ∀ c, R.legit (s.conns c).state
  fits : ∀ t c, owner c = .poll t → R.fits t (s.conns c).state
  queues : ∀ c, ∀ r ∈ (s.conns c).urlRequests, R.queues r
  holds : ∀ e, Holds R s owner e (pos e)

end Invariant

/-- A connection that no handler but that of `e` can hold. -/
def Owner.Apart (o : Owner) (e : Exec) : Prop :=
  (∀ e', o = .held e' → e = e') ∧ ∀ t, o = .poll t → e = .thread t

/-- How a step of `e` moves connections between owners: not at all, the one in its hands to another
owner, or one into its empty hands. -/
inductive Transfer (e : Exec) (P P' : Pos) (drop : Option Slot) (owner : Slot → Owner) :
    (Slot → Owner) → Prop
  | stay : (∀ c, P.Hands c → P'.Hands c) → Transfer e P P' drop owner owner
  | give {c : Slot} {o : Owner} : P.Hands c → (∀ e', o ≠ .held e') → (o = .lost → drop = some c) →
      Transfer e P P' drop owner (update owner c o)
  | take {c : Slot} : P.Settled → P'.Hands c → Transfer e P P' drop owner (update owner c (.held e))

namespace Transfer
variable {e : Exec} {P' : Pos} {pos : Exec → Pos} {drop : Option Slot} {owner owner' : Slot → Owner}

theorem lost {P : Pos} (h : Transfer e P P' drop owner owner') {c : Slot} (hc : owner' c = .lost) :
    owner c = .lost ∨ drop = some c := by
  cases h with
  | stay _ => exact .inl hc
  | @give c' o _ _ hdrop =>
    by_cases hcc : c = c'
    · subst hcc
      rw [update_self] at hc
      exact .inr (hdrop hc)
    · rw [update_of_ne hcc] at hc
      exact .inl hc
  | @take c' _ _ =>
    by_cases hcc : c = c'
    · rw [hcc, update_self] at hc
      cases hc
    · rw [update_of_ne hcc] at hc
      exact .inl hc

/-- What has an executor for its owner is in its hands. -/
theorem hands (h : Transfer e (pos e) P' drop owner owner')
    (hpos : ∀ c e', owner c = .held e' → (pos e').Hands c) {c : Slot} {e' : Exec}
    (hc : owner' c = .held e') : (update pos e P' e').Hands c := by
  cases h with
  | stay hkeeps =>
    by_cases he : e' = e
    · subst he
      rw [update_self]
      exact hkeeps c (hpos c e' hc)
    · rw [update_of_ne he]
      exact hpos c e' hc
  | @give c' o hhands hnot _ =>
    by_cases hcc : c = c'
    · rw [hcc, update_self] at hc
      exact absurd hc (hnot e')
    rw [update_of_ne hcc] at hc
    have hold := hpos c e' hc
    by_cases he : e' = e
    · subst he
      obtain ⟨_, _, _, h1⟩ := hhands
      obtain ⟨_, _, _, h2⟩ := hold
      rw [h1] at h2
      cases h2
      exact absurd rfl hcc
    · rwa [update_of_ne he]
  | @take c' hsettled hhands =>
    by_cases hcc : c = c'
    · subst hcc
      rw [update_self] at hc
      cases hc
      rwa [update_self]
    rw [update_of_ne hcc] at hc
    have hold := hpos c e' hc
    by_cases he : e' = e
    · subst he
      exact absurd hold hsettled.not_hands
    · rwa [update_of_ne he]

end Transfer

section Frame
variable {R : Rules} {s s' : State} {owner owner' : Slot → Owner} {e e' : Exec} {c : Slot}
variable {P : Pos} {pos : Exec → Pos}

/-- What one handler does with its connection is nothing to the others. -/
theorem Holds.frame (h : Holds R s owner e' P) {o : Owner} (hne : e' ≠ e)
    (hc : owner c = o) (ho : o.Apart e)
    (hconns : ∀ c', c' ≠ c → s'.conns c' = s.conns c')
    (howner : ∀ c', c' ≠ c → owner' c' = owner c') (hpending : s'.pending = s.pending) :
    Holds R s' owner' e' P := by
  have hne' : ∀ c', owner c' = .held e' ∨ (∃ t, owner c' = .poll t ∧ e' = .thread t) →
      c' ≠ c := by
    rintro c' hc' rfl
    subst hc
    grind [Owner.Apart]
  cases P with
  | idle => trivial
  | reg t c' =>
    obtain ⟨he, ho, hp⟩ := h
    refine ⟨he, ?_, hpending ▸ hp⟩
    rw [howner c' (hne' c' (.inr ⟨t, ho, he⟩)), ho]
  | hand c' state sock request =>
    obtain ⟨ho, hrest⟩ := h
    have hcc := hne' c' (.inl ho)
    refine ⟨(howner c' hcc).trans ho, ?_⟩
    rw [hconns c' hcc]
    exact hrest

theorem Holds.mono (h : Holds R s owner e P) (hpending : s'.pending = s.pending)
    (hsock : ∀ c, (s'.conns c).sock = (s.conns c).sock)
    (hrequests : ∀ c, (s.conns c).urlRequests ⊆ (s'.conns c).urlRequests)
    (hfits : ∀ c t, R.fits t (s.conns c).state → R.fits t (s'.conns c).state) :
    Holds R s' owner e P := by
  cases P with
  | idle => trivial
  | reg t c => exact ⟨h.1, h.2.1, hpending ▸ h.2.2⟩
  | hand c state sock request =>
    obtain ⟨ho, hstate, hisSome, hrequest⟩ := h
    exact ⟨ho, fun x hx t ht => hfits c t (hstate x hx t ht), by rw [hsock, hisSome],
      fun r hr => hrequests c (hrequest r hr)⟩

/-- The request at the front of a queue is queued. -/
theorem Holds.front (h : Holds R s owner e P) :
    Holds R s owner e (P.withRequest c (s.conns c).urlRequests.head?) := by
  cases P with
  | idle => trivial
  | reg t c' => exact h
  | hand c' state sock request =>
    by_cases hc : c' = c
    · subst hc
      simpa [Pos.withRequest, Holds] using
        ⟨h.1, h.2.1, h.2.2.1, fun r hr => List.mem_of_head? hr⟩
    · simpa [Pos.withRequest, hc] using h

theorem holds_update (hothers : ∀ e', e' ≠ e → Holds R s owner e' (pos e'))
    (hP : Holds R s owner e P) (e' : Exec) : Holds R s owner e' (update pos e P e') := by
  by_cases he : e' = e
  · subst he
    rwa [update_self]
  · rw [update_of_ne he]
    exact hothers e' he

end Frame

namespace Inv
variable {cfg : Config} {R : Rules} {s : State} {owner : Slot → Owner} {pos pos' : Exec → Pos}
variable {c : Slot} {e : Exec} {P : Pos}

theorem move (h : Inv cfg R s owner pos) (hP : Holds R s owner e P) :
    Inv cfg R s owner (update pos e P) :=
  { h with holds := holds_update (fun e' _ => h.holds e') hP }

/-- A change of a connection that leaves its socket alone. -/
theorem modifyConn (h : Inv cfg R s owner pos) (f : Conn → Conn)
    (hsock : (f (s.conns c)).sock = (s.conns c).sock) (hlegit : R.legit (f (s.conns c)).state)
    (hfits : ∀ t, owner c = .poll t → R.fits t (f (s.conns c)).state)
    (hqueues : ∀ r ∈ (f (s.conns c)).urlRequests, R.queues r)
    (hholds : ∀ e, Holds R (s.modifyConn c f) owner e (pos' e)) :
    Inv cfg R (s.modifyConn c f) owner pos' := by
  have hconns : ∀ c', ((s.modifyConn c f).conns c').sock = (s.conns c').sock := by
    grind
  have hpollset : ∀ t, (s.modifyConn c f).pollset t = s.pollset t := fun _ => rfl
  have hinbox : ∀ t, (s.modifyConn c f).inbox t = s.inbox t := fun _ => rfl
  have hisOpen : ∀ fd, (s.modifyConn c f).isOpen fd = s.isOpen fd := fun _ => rfl
  exact { h with
    mem_pollset := by simpa only [Conn.pollFd, hconns, hpollset] using h.mem_pollset
    inbox_action := by simpa only [hconns, hinbox] using h.inbox_action
    free_sock := by simpa only [hconns] using h.free_sock
    poll_sock := by simpa only [hconns] using h.poll_sock
    fd_isOpen := by simpa only [hconns, hisOpen] using h.fd_isOpen
    fd_inj := by simpa only [hconns] using h.fd_inj
    legit := by grind [h.legit]
    fits := by grind [h.fits]
    queues := by grind [h.queues]
    holds := hholds }

/-- A change that a handler makes to the connection in its hands, except to the socket. -/
theorem modifyHeld (h : Inv cfg R s owner pos) (hc : owner c = .held e) (f : Conn → Conn)
    (hsock : (f (s.conns c)).sock = (s.conns c).sock) (hlegit : R.legit (f (s.conns c)).state)
    (hqueues : ∀ r ∈ (f (s.conns c)).urlRequests, R.queues r)
    (hP : Holds R (s.modifyConn c f) owner e P) :
    Inv cfg R (s.modifyConn c f) owner (update pos e P) := by
  refine h.modifyConn f hsock hlegit (by simp [hc]) hqueues (holds_update (fun e' he => ?_) hP)
  exact (h.holds e').frame he hc (by simp [Owner.Apart]) (by grind) (fun _ _ => rfl) rfl

/-- A new socket, or none, for the connection in a handler's hands. -/
theorem setSock (h : Inv cfg R s owner pos) (hc : owner c = .held e) (x : Option Sock)
    (isOpen : Fd → Bool)
    (hothers : ∀ c' sock', c' ≠ c → (s.conns c').sock = some sock' →
      isOpen sock'.fd = true ∧ ∀ sock, x = some sock → sock.fd ≠ sock'.fd)
    (hopen : ∀ sock, x = some sock → isOpen sock.fd = true)
    (hP : Holds R { s.modifyConn c ({ · with sock := x }) with isOpen := isOpen } owner e P) :
    Inv cfg R { s.modifyConn c ({ · with sock := x }) with isOpen := isOpen } owner
      (update pos e P) := by
  have hne : ∀ t, ∀ msg ∈ s.inbox t, msg.conn ≠ c := by
    intro t msg hmsg hm
    have ho := (h.mem_inbox t msg.conn).mp (List.mem_map_of_mem hmsg)
    simp [hm, hc] at ho
  exact { h with
    mem_pollset := by
      intro t fd c'
      have := h.mem_pollset t fd c'
      grind [State.modifyConn, Conn.pollFd]
    inbox_action := by
      intro t msg hmsg
      have hconn := hne t msg hmsg
      have := h.inbox_action t msg hmsg
      grind
    free_sock := by grind [h.free_sock]
    poll_sock := by grind [h.poll_sock]
    fd_isOpen := by grind
    fd_inj := by grind [h.fd_inj]
    legit := by grind [h.legit]
    fits := by grind [h.fits]
    queues := by grind [h.queues]
    holds := by
      refine holds_update (fun e' he => ?_) hP
      exact (h.holds e').frame he hc (by simp [Owner.Apart]) (by grind) (fun _ _ => rfl) rfl }

theorem closeSock (h : Inv cfg R s owner pos) (hc : owner c = .held e)
    (hP : Holds R (s.closeSock c) owner e P) :
    Inv cfg R (s.closeSock c) owner (update pos e P) := by
  unfold State.closeSock at hP ⊢
  split at hP
  case h_1 hsock => exact h.move hP
  case h_2 sock hsock =>
    refine h.setSock hc none _ (fun c' sock' hne hsock' => ?_) (by simp) hP
    have hfd : sock'.fd ≠ sock.fd := fun hfd => hne (h.fd_inj c' c _ _ hsock' hsock hfd)
    simp [update_of_ne hfd, h.fd_isOpen c' sock' hsock']

theorem openSock {s' : State} {sock : Sock} (h : Inv cfg R s owner pos) (hc : owner c = .held e)
    (hs : s.openSock c sock = some s') (hP : Holds R s' owner e P) :
    Inv cfg R s' owner (update pos e P) := by
  unfold State.openSock at hs
  split at hs
  · simp at hs
  · rename_i hclosed
    obtain rfl := Option.some.inj hs
    refine h.setSock hc (some sock) _ (fun c' sock' hne hsock' => ?_) (by simp) hP
    have hopen := h.fd_isOpen c' sock' hsock'
    have hfd : sock'.fd ≠ sock.fd := fun hfd => hclosed (hfd ▸ hopen)
    simp [update_of_ne hfd, hopen, hfd.symm]

/-- `new_connection` puts the last connection of the free list in the caller's hands. -/
theorem take {l : List Slot} (h : Inv cfg R s owner pos) (hfree : s.free = l ++ [c]) :
    Inv cfg R { s with free := l } (update owner c (.held e))
      (update pos e (.hand c none false none)) := by
  have hc : owner c = .free := (h.mem_free c).mp (by simp [hfree])
  have hsock := h.free_sock c hc
  have hnodup := h.free_nodup
  rw [hfree] at hnodup
  exact { h with
    free_nodup := by grind
    mem_free := by
      intro c'
      have := h.mem_free c'
      grind
    mem_pollset := by
      intro t fd c'
      have := h.mem_pollset t fd c'
      grind
    mem_inbox := by
      intro t c'
      have := h.mem_inbox t c'
      grind [State.inbox]
    mem_pending := by
      intro t c' hc'
      have := h.mem_pending t c' hc'
      grind
    free_sock := by grind [h.free_sock]
    poll_sock := by grind [h.poll_sock]
    fits := by grind [h.fits]
    holds := by
      refine holds_update (fun e' he => ?_) (by simp [Holds, hsock])
      exact (h.holds e').frame he hc (by simp [Owner.Apart]) (by grind) (by grind) rfl }

/-- `free_connection` puts the connection back, its socket closed. -/
theorem release (h : Inv cfg R s owner pos) (hc : owner c = .held e)
    (hsock : (s.conns c).sock = none) :
    Inv cfg R { s with free := s.free ++ [c] } (update owner c .free) (update pos e .idle) := by
  have hnot : c ∉ s.free := fun hmem => by simpa [hc] using (h.mem_free c).mp hmem
  exact { h with
    free_nodup := by
      have := h.free_nodup
      grind
    mem_free := by
      intro c'
      have := h.mem_free c'
      grind
    mem_pollset := by
      intro t fd c'
      have := h.mem_pollset t fd c'
      grind
    mem_inbox := by
      intro t c'
      have := h.mem_inbox t c'
      grind [State.inbox]
    mem_pending := by
      intro t c' hc'
      have := h.mem_pending t c' hc'
      grind
    free_sock := by grind [h.free_sock]
    poll_sock := by grind [h.poll_sock]
    fits := by grind [h.fits]
    holds := by
      refine holds_update (fun e' he => ?_) trivial
      exact (h.holds e').frame he hc (by simp [Owner.Apart]) (by grind) (by grind) rfl }

/-- The descriptor of a connection in a handler's hands is no other connection's, so no pollset has an entry
for it. -/
theorem fd_not_mem {t : Thread} {fd : Fd} (h : Inv cfg R s owner pos) (hc : owner c = .held e)
    (hfd : (s.conns c).pollFd = some fd) : fd ∉ (s.pollset t).map Prod.fst := by
  intro hmem
  obtain ⟨⟨fd', c'⟩, hmem', rfl⟩ := List.mem_map.mp hmem
  obtain ⟨ho, hfd'⟩ := (h.mem_pollset t fd' c').mp hmem'
  obtain ⟨sock, hsock, heq⟩ := Option.map_eq_some_iff.mp hfd
  obtain ⟨sock', hsock', heq'⟩ := Option.map_eq_some_iff.mp hfd'
  obtain rfl := h.fd_inj c c' sock sock' hsock hsock' (heq.trans heq'.symm)
  rw [hc] at ho
  cases ho

/-- `add_events` on the connection in a handler's hands. -/
theorem register {t : Thread} {fd : Fd} (h : Inv cfg R s owner pos) (hc : owner c = .held e)
    (hfd : (s.conns c).pollFd = some fd) (hfits : R.fits t (s.conns c).state) :
    Inv cfg R { s with pollset := update s.pollset t (State.addObject (s.pollset t) fd c) }
      (update owner c (.poll t)) (update pos e .idle) := by
  have hsock : (s.conns c).sock ≠ none := by
    intro hnone
    simp [Conn.pollFd, hnone] at hfd
  have hnew := h.fd_not_mem (t := t) hc hfd
  exact { h with
    mem_free := by
      intro c'
      have := h.mem_free c'
      grind
    pollset_nodup := by
      intro t'
      have := h.pollset_nodup t'
      grind [State.nodup_addObject]
    mem_pollset := by
      intro t' fd' c'
      have := h.mem_pollset t' fd' c'
      grind [State.mem_addObject]
    mem_inbox := by
      intro t c'
      have := h.mem_inbox t c'
      grind [State.inbox]
    mem_pending := by
      intro t c' hc'
      have := h.mem_pending t c' hc'
      grind
    free_sock := by grind [h.free_sock]
    poll_sock := by grind [h.poll_sock]
    fits := by grind [h.fits]
    holds := by
      refine holds_update (fun e' he => ?_) trivial
      exact (h.holds e').frame he hc (by simp [Owner.Apart]) (by grind) (by grind) rfl }

/-- `remove_events` by the thread that has the connection in its pollset. -/
theorem unregister {t : Thread} {fd : Fd} (h : Inv cfg R s owner pos) (hc : owner c = .poll t)
    (hpending : c ∉ s.pending t) (hfd : (s.conns c).pollFd = some fd) :
    Inv cfg R { s with pollset := update s.pollset t (State.removeObject (s.pollset t) fd true) }
      (update owner c (.held (.thread t)))
      (update pos (.thread t) (.hand c none true none)) := by
  have hsock : (s.conns c).sock.isSome := Option.isSome_iff_ne_none.mpr (h.poll_sock t c hc)
  have honly : ∀ c', owner c' = .poll t → (s.conns c').pollFd = some fd → c' = c := by
    intro c' _ hfd'
    obtain ⟨sock, hsock, heq⟩ := Option.map_eq_some_iff.mp hfd
    obtain ⟨sock', hsock', heq'⟩ := Option.map_eq_some_iff.mp hfd'
    exact h.fd_inj c' c sock' sock hsock' hsock (heq'.trans heq.symm)
  exact { h with
    mem_free := by
      intro c'
      have := h.mem_free c'
      grind
    pollset_nodup := by
      intro t'
      have := h.pollset_nodup t'
      grind [State.nodup_removeObject]
    mem_pollset := by
      intro t' fd' c'
      have := h.mem_pollset t' fd' c'
      grind [State.mem_removeObject]
    mem_inbox := by
      intro t c'
      have := h.mem_inbox t c'
      grind [State.inbox]
    mem_pending := by
      intro t' c' hc'
      have := h.mem_pending t' c' hc'
      grind [State.pending]
    free_sock := by grind [h.free_sock]
    poll_sock := by grind [h.poll_sock]
    fits := by grind [h.fits]
    holds := by
      refine holds_update (fun e' he => ?_) ⟨update_self .., by simp, hsock, by simp⟩
      exact (h.holds e').frame he hc (by simp [Owner.Apart]) (by grind) (by grind) rfl }

/-- A message takes the connection it names out of the sender's hands. -/
theorem send {dest : Thread} {msg : Message} {notify queue : Thread → List Message} {m : Mask}
    (h : Inv cfg R s owner pos) (hc : owner msg.conn = .held e)
    (haction : R.action msg.action = some (m, (s.conns msg.conn).sock.isSome))
    (hmask : cfg.mask dest m = true)
    (hinbox : ∀ t, (notify t ++ queue t).Perm
      (if t = dest then msg :: s.inbox t else s.inbox t)) :
    Inv cfg R { s with notify := notify, queue := queue } (update owner msg.conn (.message dest))
      (update pos e .idle) := by
  have hmem : ∀ t x, x ∈ notify t ++ queue t ↔ (t = dest ∧ x = msg) ∨ x ∈ s.inbox t := by
    intro t x
    rw [(hinbox t).mem_iff]
    split <;> simp_all
  have hconn : ∀ t, msg.conn ∉ (s.inbox t).map Message.conn := by
    intro t hin
    simpa [hc] using (h.mem_inbox t msg.conn).mp hin
  exact { h with
    mem_free := by
      intro c'
      have := h.mem_free c'
      grind
    mem_pollset := by
      intro t fd c'
      have := h.mem_pollset t fd c'
      grind
    inbox_nodup := by
      intro t
      have hold := h.inbox_nodup t
      have hnot := hconn t
      change ((notify t ++ queue t).map Message.conn).Nodup
      rw [((hinbox t).map Message.conn).nodup_iff]
      split
      · rw [List.map_cons, List.nodup_cons]
        exact ⟨hnot, hold⟩
      · exact hold
    mem_inbox := by
      intro t c'
      have hold := h.mem_inbox t c'
      change c' ∈ (notify t ++ queue t).map Message.conn ↔ _
      rw [((hinbox t).map Message.conn).mem_iff]
      grind
    inbox_action := by
      intro t x hx
      rcases (hmem t x).mp hx with ⟨rfl, rfl⟩ | hx
      · exact ⟨m, haction, hmask⟩
      · exact h.inbox_action t x hx
    mem_pending := by
      intro t c' hc'
      have := h.mem_pending t c' hc'
      grind
    free_sock := by grind [h.free_sock]
    poll_sock := by grind [h.poll_sock]
    fits := by grind [h.fits]
    holds := by
      refine holds_update (fun e' he => ?_) trivial
      exact (h.holds e').frame he hc (by simp [Owner.Apart]) (by grind) (by grind) rfl }

/-- A message that is neither sent nor queued leaves its connection to nobody. -/
theorem lose (h : Inv cfg R s owner pos) (hc : owner c = .held e) :
    Inv cfg R s (update owner c .lost) (update pos e .idle) :=
  { h with
    mem_free := by
      intro c'
      have := h.mem_free c'
      grind
    mem_pollset := by
      intro t fd c'
      have := h.mem_pollset t fd c'
      grind
    mem_inbox := by
      intro t c'
      have := h.mem_inbox t c'
      grind
    mem_pending := by
      intro t c' hc'
      have := h.mem_pending t c' hc'
      grind
    free_sock := by grind [h.free_sock]
    poll_sock := by grind [h.poll_sock]
    fits := by grind [h.fits]
    holds := by
      refine holds_update (fun e' he => ?_) trivial
      exact (h.holds e').frame he hc (by simp [Owner.Apart]) (by grind) (by grind) rfl }

/-- The thread that takes a message has the connection it names in its hands. -/
theorem receive {t : Thread} {msg : Message} {notify queue : Thread → List Message}
    (h : Inv cfg R s owner pos)
    (hinbox : ∀ t', (s.inbox t').Perm
      (if t' = t then msg :: (notify t' ++ queue t') else notify t' ++ queue t')) :
    ∃ m sock, R.action msg.action = some (m, sock) ∧ cfg.mask t m = true ∧
      Inv cfg R { s with notify := notify, queue := queue }
        (update owner msg.conn (.held (.thread t)))
        (update pos (.thread t) (.hand msg.conn none sock none)) := by
  have hmsg : msg ∈ s.inbox t := by
    rw [(hinbox t).mem_iff, if_pos rfl]
    exact List.mem_cons_self
  have hsub : ∀ t', ∀ x ∈ notify t' ++ queue t', x ∈ s.inbox t' := by
    intro t' x hx
    rw [(hinbox t').mem_iff]
    split <;> simp_all
  have hc : owner msg.conn = .message t :=
    (h.mem_inbox t msg.conn).mp (List.mem_map_of_mem hmsg)
  have hnodup : ∀ t', (notify t' ++ queue t').map Message.conn |>.Nodup := by
    intro t'
    have hold := h.inbox_nodup t'
    rw [((hinbox t').map Message.conn).nodup_iff] at hold
    split at hold
    · exact (List.nodup_cons.mp hold).2
    · exact hold
  obtain ⟨m, haction, hmask⟩ := h.inbox_action t msg hmsg
  refine ⟨m, _, haction, hmask, { h with
    mem_free := by
      intro c'
      have := h.mem_free c'
      grind
    mem_pollset := by
      intro t fd c'
      have := h.mem_pollset t fd c'
      grind
    inbox_nodup := hnodup
    mem_inbox := by
      intro t' c'
      have hold := h.mem_inbox t' c'
      have hperm := (hinbox t').map Message.conn
      have hnd := h.inbox_nodup t'
      rw [hperm.nodup_iff] at hnd
      rw [hperm.mem_iff] at hold
      change c' ∈ (notify t' ++ queue t').map Message.conn ↔ _
      by_cases ht : t' = t
      · subst ht
        rw [if_pos rfl, List.map_cons] at hold hnd
        grind
      · rw [if_neg ht] at hold
        grind
    inbox_action := fun t' x hx => h.inbox_action t' x (hsub t' x hx)
    mem_pending := by
      intro t c' hc'
      have := h.mem_pending t c' hc'
      grind
    free_sock := by grind [h.free_sock]
    poll_sock := by grind [h.poll_sock]
    fits := by grind [h.fits]
    holds := by
      refine holds_update (fun e' he => ?_) ⟨update_self .., by simp, rfl, by simp⟩
      exact (h.holds e').frame he hc (by simp [Owner.Apart]) (by grind) (by grind) rfl }⟩

theorem init (h : Inv cfg R s owner pos) (hfree : R.legit .free) {request : Option Request}
    (hpos : pos e = .hand c none false request) :
    Inv cfg R (s.initConn c) owner (update pos e (pos e)) := by
  have hh := h.holds e
  rw [hpos] at hh ⊢
  obtain ⟨hc, -, hsock, hrequest⟩ := hh
  have hclose : s.closeSock c = s := by
    simp only [Option.isSome_eq_false_iff, Option.isNone_iff_eq_none] at hsock
    simp [State.closeSock, hsock]
  rw [State.initConn, hclose]
  refine h.modifyHeld hc _ rfl hfree (h.queues c) ⟨hc, by simp, ?_, ?_⟩
  · simpa [State.modifyConn_conns] using hsock
  · simpa [State.modifyConn_conns] using hrequest

theorem close {state : Option ConnState} {sock : Bool} {request : Option Request}
    (h : Inv cfg R s owner pos) (hpos : pos e = .hand c state sock request) :
    Inv cfg R (s.closeSock c) owner (update pos e ((pos e).withSock false)) := by
  have hh := h.holds e
  rw [hpos] at hh ⊢
  obtain ⟨hc, hstate, -, hrequest⟩ := hh
  refine h.closeSock hc ?_
  simpa [Pos.withSock, Holds, State.closeSock_conns] using ⟨hc, hstate, hrequest⟩

/-- `accept` and `connect_to_host` give a connection without a socket one. -/
theorem replaceSock {state : Option ConnState} {request : Option Request} {s' : State}
    {sock : Sock} (h : Inv cfg R s owner pos) (hpos : pos e = .hand c state false request)
    (hs : (s.closeSock c).openSock c sock = some s') :
    Inv cfg R s' owner (update pos e ((pos e).withSock true)) := by
  have hh := h.holds e
  rw [hpos] at hh ⊢
  obtain ⟨hc, hstate, hsock, hrequest⟩ := hh
  rw [State.closeSock_of_none (by simpa using hsock)] at hs
  refine h.openSock hc hs ?_
  simpa [Pos.withSock, Holds, State.openSock_conns hs] using ⟨hc, hstate, hrequest⟩

theorem setState_hands {x : ConnState} (h : Inv cfg R s owner pos) (hlegit : R.legit x)
    (hhands : (pos e).Hands c) :
    Inv cfg R (s.modifyConn c ({ · with state := x })) owner
      (update pos e ((pos e).withState c x)) := by
  obtain ⟨state, sock, request, hpos⟩ := hhands
  have hh := h.holds e
  rw [hpos] at hh ⊢
  obtain ⟨hc, hstate, hsock, hrequest⟩ := hh
  refine h.modifyHeld hc _ rfl hlegit (h.queues c) ?_
  simpa [Pos.withState, Holds, State.modifyConn_conns] using ⟨hc, hsock, hrequest⟩

/-- `state = ...` in a handler. Where the handler does not hold the connection, the state fits
every thread. -/
theorem setState {x : ConnState} (h : Inv cfg R s owner pos)
    (hallowed : R.allowed cfg (pos e) (.setState c x)) :
    Inv cfg R (s.modifyConn c ({ · with state := x })) owner
      (update pos e ((pos e).withState c x)) := by
  obtain ⟨hlegit, hallowed⟩ := hallowed
  rcases hallowed with hhands | ⟨t, hpos, hfits⟩ | ⟨-, hfits⟩
  · exact h.setState_hands hlegit hhands
  · have hh := h.holds e
    rw [hpos] at hh ⊢
    obtain ⟨rfl, hc, hpending⟩ := hh
    refine h.modifyConn _ rfl hlegit (by simpa [hc] using hfits) (h.queues c) (holds_update ?_ ?_)
    · intro e' he
      exact (h.holds e').frame he hc (by simp [Owner.Apart]) (by grind) (fun _ _ => rfl) rfl
    · exact ⟨rfl, hc, hpending⟩
  · by_cases hhands : (pos e).Hands c
    · exact h.setState_hands hlegit hhands
    · rw [Pos.withState_of_not_hands hhands]
      refine h.modifyConn _ rfl hlegit (fun t _ => hfits t) (h.queues c)
        (holds_update (fun e' _ => ?_) ?_)
      all_goals exact (h.holds _).mono rfl (by grind) (by grind) (by grind)

/-- A request queued on a connection, whoever holds it. -/
theorem pushBack {r : Request} (h : Inv cfg R s owner pos) (hr : R.queues r) :
    Inv cfg R (s.modifyConn c fun conn => { conn with urlRequests := conn.urlRequests ++ [r] })
      owner pos := by
  refine h.modifyConn _ rfl (h.legit c) (fun t ho => h.fits t c ho) ?_ fun e' => ?_
  · have hold := h.queues c
    grind
  exact (h.holds e').mono rfl (by grind) (by grind) (by grind)

/-- An operation that the position of its handler allows keeps the invariant. -/
theorem exec {o : Op} {a : Answer o} {s' : State} (h : Inv cfg R s owner pos)
    (hfree : R.legit .free) (hallowed : R.allowed cfg (pos e) o) (hgood : Good o a)
    (hcall : ∀ t f, o ≠ .call t f) (hs : s.exec cfg o a = some s') :
    ∃ owner' P', R.after cfg (pos e) o a P' ∧ Inv cfg R s' owner' (update pos e P') ∧
      Transfer e (pos e) P' (dropped o a) owner owner' := by
  have hkeep : Transfer e (pos e) (pos e) (dropped o a) owner owner := .stay fun _ h => h
  have hself : Inv cfg R s owner (update pos e (pos e)) := h.move (h.holds e)
  have hh := h.holds e
  cases o with
  | call t f => exact absurd rfl (hcall t f)
  | undefined => exact a.elim
  | acceptReady =>
    obtain rfl := Option.some.inj hs
    exact ⟨owner, _, rfl, hself, hkeep⟩
  | newConnection =>
    simp only [State.exec, Option.ite_none_right_eq_some, Option.some.injEq] at hs
    obtain ⟨rfl, rfl⟩ := hs
    cases hlast : s.free.getLast? with
    | none =>
      have hnil : s.free.dropLast = s.free := by simp [List.getLast?_eq_none_iff.mp hlast]
      exact ⟨owner, _, rfl, by rw [hnil]; exact hself, hkeep⟩
    | some c =>
      obtain ⟨l, hl⟩ := List.getLast?_eq_some_iff.mp hlast
      have hdrop : s.free.dropLast = l := by simp [hl]
      exact ⟨update owner c (.held e), _, rfl, by rw [hdrop]; exact h.take hl, .take hallowed ⟨_, _, _, rfl⟩⟩
  | getNewConnectionForUrl url =>
    simp only [State.exec, Option.ite_none_right_eq_some] at hs
    obtain ⟨rfl, hs⟩ := hs
    cases hlast : s.free.getLast? with
    | none =>
      rw [hlast] at hs
      obtain rfl := Option.some.inj hs
      exact ⟨owner, _, rfl, hself, hkeep⟩
    | some c =>
      rw [hlast] at hs
      obtain rfl := Option.some.inj hs
      obtain ⟨l, hl⟩ := List.getLast?_eq_some_iff.mp hlast
      have hdrop : s.free.dropLast = l := by simp [hl]
      have hinit := (h.take (e := e) hl).init hfree (update_self ..)
      rw [update_idem, update_self] at hinit
      refine ⟨update owner c (.held e), _, rfl, ?_, .take hallowed ⟨_, _, _, rfl⟩⟩
      rw [hdrop]
      exact { hinit with }
  | getExistingConnectionForUrl url maxRequests =>
    simp only [State.exec, Option.ite_none_right_eq_some, Option.some.injEq] at hs
    obtain ⟨rfl, rfl⟩ := hs
    refine ⟨owner, _, rfl, ?_, hkeep⟩
    split
    · exact { hself with }
    · exact hself
  | init c =>
    obtain ⟨request, hpos⟩ := hallowed
    obtain rfl := Option.some.inj hs
    exact ⟨owner, _, rfl, h.init hfree hpos, hkeep⟩
  | accept c =>
    obtain ⟨-, state, request, hpos⟩ := hallowed
    exact ⟨owner, _, rfl, h.replaceSock hpos hs, .stay fun _ => Pos.Hands.withSock⟩
  | connectToHost c target =>
    obtain ⟨state, r, hpos, rfl⟩ := hallowed
    cases a with
    | noSocket =>
      rw [hpos] at hh
      have hsock : (s.conns c).sock = none := by simpa using hh.2.2.1
      obtain rfl := (Option.some.inj hs).symm.trans (State.closeSock_of_none hsock)
      exact ⟨owner, _, rfl, hself, hkeep⟩
    | refused fd => exact ⟨owner, _, rfl, h.replaceSock hpos hs, .stay fun _ => Pos.Hands.withSock⟩
    | connected fd => exact ⟨owner, _, rfl, h.replaceSock hpos hs, .stay fun _ => Pos.Hands.withSock⟩
  | close c =>
    obtain ⟨state, sock, request, hpos⟩ := hallowed
    obtain rfl := Option.some.inj hs
    exact ⟨owner, _, rfl, h.close hpos, .stay fun _ => Pos.Hands.withSock⟩
  | startLingeringClose c =>
    obtain rfl : a = true := hgood
    have hs' : s' = s := by
      simp only [State.exec] at hs
      split at hs <;> exact (Option.some.inj hs).symm
    exact ⟨owner, _, rfl, hs' ▸ hself, hkeep⟩
  | getState c =>
    obtain ⟨t, hpos⟩ := hallowed
    simp only [State.exec, Option.ite_none_right_eq_some, Option.some.injEq] at hs
    obtain ⟨rfl, rfl⟩ := hs
    rw [hpos] at hh
    refine ⟨owner, _, ⟨rfl, fun t' hpos' => ⟨h.legit c, ?_⟩⟩, hself, hkeep⟩
    rw [hpos] at hpos'
    cases hpos'
    exact h.fits t c hh.2.1
  | setState c x =>
    obtain rfl := Option.some.inj hs
    exact ⟨owner, _, rfl, h.setState hallowed, .stay fun _ => Pos.Hands.withState⟩
  | setHandler c handler =>
    obtain rfl := Option.some.inj hs
    refine ⟨owner, _, rfl,
      hself.modifyConn _ rfl (h.legit c) (fun t ho => h.fits t c ho) (h.queues c) ?_, hkeep⟩
    exact fun e' => (hself.holds e').mono rfl (by grind) (by grind) (by grind)
  | pushFree c =>
    obtain ⟨state, request, hpos⟩ := hallowed
    obtain rfl := Option.some.inj hs
    rw [hpos] at hh
    obtain ⟨hc, -, hsock, -⟩ := hh
    exact ⟨_, _, rfl, h.release hc (by simpa using hsock),
      .give (hpos ▸ ⟨_, _, _, rfl⟩) (by simp) (by simp)⟩
  | addEvents t c events =>
    obtain ⟨fd, hfd, rfl⟩ := Option.map_eq_some_iff.mp hs
    rcases hallowed with hpos | ⟨state, request, hpos, hready⟩
    · rw [hpos] at hh
      have hmem : fd ∈ (s.pollset t).map Prod.fst :=
        List.mem_map.mpr ⟨(fd, c), (h.mem_pollset t fd c).mpr ⟨hh.2.1, hfd⟩, rfl⟩
      refine ⟨owner, _, rfl, ?_, .stay fun c' hc' => ?_⟩
      swap
      · rw [hpos] at hc'
        obtain ⟨_, _, _, hc'⟩ := hc'
        cases hc'
      rw [State.addObject, if_pos hmem, update_eq_self]
      exact h.move trivial
    · rw [hpos] at hh
      obtain ⟨hc, hstate, -, -⟩ := hh
      refine ⟨_, _, rfl, h.register hc hfd ?_, .give (hpos ▸ ⟨_, _, _, rfl⟩) (by simp) (by simp)⟩
      rcases hready with ⟨x, hx, hfits⟩ | hall
      · exact hstate x hx t hfits
      · exact hall _ (h.legit c)
  | removeEvents t c =>
    obtain rfl : a = true := hgood
    obtain ⟨fd, hfd, rfl⟩ := Option.map_eq_some_iff.mp hs
    rw [show pos e = .reg t c from hallowed] at hh
    obtain ⟨rfl, hc, hpending⟩ := hh
    exact ⟨_, _, rfl, h.unregister hc hpending hfd, .take (.inr ⟨t, c, hallowed⟩) ⟨_, _, _, rfl⟩⟩
  | chooseThread t m =>
    have hs' : s' = s ∧ (cfg.mask t m = true → a = some t) ∧
        ∀ d, a = some d → cfg.mask d m = true := by
      simp only [State.exec] at hs
      grind
    exact ⟨owner, _, ⟨rfl, hs'.2⟩, hs'.1 ▸ hself, hkeep⟩
  | engineChooseThread m =>
    have hs' : s' = s ∧ ∀ d, a = some d → cfg.mask d m = true := by
      simp only [State.exec] at hs
      grind
    exact ⟨owner, _, ⟨rfl, hs'.2⟩, hs'.1 ▸ hself, hkeep⟩
  | sendNotify dest msg =>
    obtain ⟨state, sock, request, m, hpos, haction, hmask⟩ := hallowed
    rw [hpos] at hh
    obtain ⟨hc, -, rfl, -⟩ := hh
    cases a with
    | sent =>
      obtain rfl := Option.some.inj hs
      refine ⟨_, _, rfl, h.send hc haction hmask fun t => ?_, .give (hpos ▸ ⟨_, _, _, rfl⟩) (by simp) (by simp)⟩
      by_cases ht : t = dest
      · subst ht
        rw [update_self, if_pos rfl, List.append_assoc]
        exact List.perm_middle
      · rw [update_of_ne ht, if_neg ht]
        exact .refl _
    | again =>
      obtain rfl := Option.some.inj hs
      exact ⟨owner, _, rfl, hself, hkeep⟩
    | failed =>
      obtain rfl := Option.some.inj hs
      exact ⟨_, _, rfl, h.lose hc, .give (hpos ▸ ⟨_, _, _, rfl⟩) (by simp) fun _ => rfl⟩
  | queueMessage dest msg =>
    obtain ⟨state, sock, request, m, hpos, haction, hmask⟩ := hallowed
    rw [hpos] at hh
    obtain ⟨hc, -, rfl, -⟩ := hh
    obtain rfl := Option.some.inj hs
    refine ⟨_, _, rfl, h.send hc haction hmask fun t => ?_, .give (hpos ▸ ⟨_, _, _, rfl⟩) (by simp) (by simp)⟩
    by_cases ht : t = dest
    · subst ht
      rw [update_self, if_pos rfl, ← List.append_assoc]
      exact List.perm_append_singleton msg (s.inbox t)
    · rw [update_of_ne ht, if_neg ht]
      exact .refl _
  | test q c =>
    obtain rfl := Option.some.inj hs
    exact ⟨owner, _, rfl, hself, hkeep⟩
  | transfer q c =>
    obtain rfl := Option.some.inj hs
    exact ⟨owner, _, rfl, hself, hkeep⟩
  | doHandshake c =>
    obtain rfl := Option.some.inj hs
    exact ⟨owner, _, rfl, hself, hkeep⟩
  | responseToBuffer c =>
    obtain rfl := Option.some.inj hs
    exact ⟨owner, _, rfl, hself, hkeep⟩
  | requestToBuffer c r =>
    obtain rfl := Option.some.inj hs
    exact ⟨owner, _, rfl, hself, hkeep⟩
  | urlRequestsFront c =>
    simp only [State.exec, Option.ite_none_right_eq_some, Option.some.injEq] at hs
    obtain ⟨rfl, rfl⟩ := hs
    exact ⟨owner, _, ⟨rfl, fun r hr => h.queues c r (List.mem_of_head? hr)⟩, h.move hh.front,
      .stay fun _ => Pos.Hands.withRequest⟩
  | urlRequestsPushBack c r =>
    obtain rfl := Option.some.inj hs
    exact ⟨owner, _, rfl, hself.pushBack hallowed.1, hkeep⟩
  | urlRequestsPushIfActive c r =>
    simp only [State.exec, Option.ite_none_right_eq_some, Option.some.injEq] at hs
    obtain ⟨rfl, rfl⟩ := hs
    refine ⟨owner, _, rfl, ?_, hkeep⟩
    split
    · exact hself.pushBack hallowed.2
    · exact hself
  | urlRequestsPopFront c =>
    obtain ⟨state, sock, request, hpos⟩ := hallowed
    have hs' : ∃ rest, s' = s.modifyConn c ({ · with urlRequests := rest }) ∧
        rest ⊆ (s.conns c).urlRequests := by
      simp only [State.exec] at hs
      split at hs
      · simp at hs
      · rename_i heq
        obtain ⟨-, hs⟩ := Option.ite_none_right_eq_some.mp hs
        exact ⟨_, (Option.some.inj hs).symm, by rw [heq]; exact List.subset_cons_self _ _⟩
    obtain ⟨rest, rfl, hrest⟩ := hs'
    rw [hpos] at hh
    obtain ⟨hc, hstate, hsock, -⟩ := hh
    refine ⟨owner, _, rfl,
      h.modifyHeld hc _ rfl (h.legit c) (fun r hr => h.queues c r (hrest hr)) ?_,
      .stay fun _ => Pos.Hands.withRequest⟩
    simpa [hpos, Pos.withRequest, Holds, State.modifyConn_conns] using ⟨hc, hstate, hsock⟩

/-- `mainloop` turns to other work: the connections it still has to look at are in the pollset,
and so is the one it takes up, if it does. -/
theorem setTodo {t : Thread} (items : List Item) (h : Inv cfg R s owner pos)
    (hnodup : (items.filterMap Item.slot).Nodup)
    (hpoll : ∀ c ∈ items.filterMap Item.slot, owner c = .poll t)
    (hP : P = .idle ∨ ∃ c, P = .reg t c ∧ owner c = .poll t ∧ c ∉ items.filterMap Item.slot) :
    Inv cfg R (s.setTodo t items) owner (update pos (.thread t) P) := by
  have hpending : ∀ t', (s.setTodo t items).pending t' =
      if t' = t then items.filterMap Item.slot else s.pending t' := by
    intro t'
    by_cases ht : t' = t <;> simp [State.pending, State.setTodo, ht]
  exact { h with
    pending_nodup := by
      intro t'
      rw [hpending]
      split
      · exact hnodup
      · exact h.pending_nodup t'
    mem_pending := by
      intro t' c hc
      rw [hpending] at hc
      split at hc
      · rename_i ht
        exact ht ▸ hpoll c hc
      · exact h.mem_pending t' c hc
    holds := by
      refine holds_update (fun e' he => ?_) ?_
      · have hh := h.holds e'
        cases hpos : pos e' with
        | idle => trivial
        | hand c state sock request =>
          rw [hpos] at hh
          exact hh
        | reg t' c =>
          rw [hpos] at hh
          obtain ⟨rfl, ho, hc⟩ := hh
          refine ⟨rfl, ho, ?_⟩
          rw [hpending, if_neg (by simpa using he)]
          exact hc
      · rcases hP with rfl | ⟨c, rfl, ho, hc⟩
        · trivial
        · exact ⟨rfl, ho, by rwa [hpending, if_pos rfl]⟩ }

end Inv

end Latypus.Engine
