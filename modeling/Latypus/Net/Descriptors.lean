import Latypus.Lib.Machine
import Mathlib.Tactic.Common
import Mathlib.Logic.Function.Basic

/-! The descriptors of connections: sockets that connections create, give a descriptor and destroy, over a
kernel that hands out numbers again as soon as they are closed. Each open number has an owner. A lingering
close whose `shutdown` fails closes the descriptor and keeps its number. -/

namespace Latypus.Net
open Lib
variable {ι : Type*}

/-- Who has been given a descriptor: a connection, or another part of the process. -/
inductive Owner (ι : Type*)
  | conn (c : ι)
  | other
deriving DecidableEq

/-- A `connected_socket`, of either mode. -/
structure ConnectedSocket where
  fd : Int
  lingeringClose : Bool
deriving DecidableEq, Repr

/-- The default constructors of both modes. -/
def ConnectedSocket.new : ConnectedSocket := ⟨-1, false⟩

/-- The owners of the open descriptors and the sockets of the connections. It is marked whether a connection
has ever closed a number that it does not own. -/
structure Sockets (ι : Type*) where
  owner : Int → Option (Owner ι)
  sock : ι → Option ConnectedSocket
  stray : Bool

namespace Sockets

section Functions
variable [DecidableEq ι]

/-- The kernel gives a connection a number that is closed. -/
def handOut (s : Sockets ι) (c : ι) (fd : Int) : Option (Sockets ι) :=
  if 0 ≤ fd ∧ s.owner fd = none then some { s with owner := Function.update s.owner fd (some (.conn c)) } else none

/-- The system call `close`, made by a connection. -/
def sysClose (s : Sockets ι) (c : ι) (fd : Int) : Sockets ι :=
  { s with
    owner := Function.update s.owner fd none
    stray := s.stray || decide (s.owner fd ≠ some (.conn c)) }

def closeConnection (s : Sockets ι) (c : ι) (sock : ConnectedSocket) : Sockets ι :=
  if 0 ≤ sock.fd then s.sysClose c sock.fd else s

/-- The socket of a connection is replaced, and the destructor of the old one closes its connection. -/
def setSock (s : Sockets ι) (c : ι) (sock : Option ConnectedSocket) : Sockets ι :=
  let s' := match s.sock c with
    | none => s
    | some old => s.closeConnection c old
  { s' with sock := Function.update s.sock c sock }

/-- `set_fd` of the socket of a connection. -/
def setFd (s : Sockets ι) (c : ι) (fd : Int) : Sockets ι :=
  match s.sock c with
  | none => s
  | some sock =>
    if fd ≠ sock.fd then
      { s.closeConnection c sock with sock := Function.update s.sock c (some { sock with fd }) }
    else s

/-- `accept` with the descriptor that the system call of this name has returned. -/
def accept (s : Sockets ι) (c : ι) (fd : Int) : Option (Sockets ι) := do
  let s ← s.handOut c fd
  some ((s.setSock c (some .new)).setFd c fd)

/-- `accept_tls`; the socket refuses a descriptor without a context or when `SSL_new` fails. -/
def acceptTls (s : Sockets ι) (c : ι) (fd : Int) (ctx sslNew : Bool) : Option (Sockets ι) := do
  let s ← s.handOut c fd
  let s := s.setSock c (some .new)
  some (if ctx && sslNew then s.setFd c fd else s)

/-- The part of `connect_to_host` that both modes share, with the descriptor that `socket` returns if it
does not fail. -/
def openSocket (s : Sockets ι) (c : ι) (socket : Option Int) (connects : Bool) : Option (Sockets ι × Bool) := do
  match socket with
  | none => some (s, false)
  | some fd =>
    let s ← s.handOut c fd
    some (s.setFd c fd, connects)

def connectToHost (s : Sockets ι) (c : ι) (socket : Option Int) (connects : Bool) : Option (Sockets ι × Bool) :=
  (s.setSock c (some .new)).openSocket c socket connects

def connectToHostTls (s : Sockets ι) (c : ι) (ctx sslNew : Bool) (socket : Option Int) (connects : Bool) :
    Option (Sockets ι × Bool) :=
  let s := s.setSock c (some .new)
  if ctx && sslNew then s.openSocket c socket connects else some (s, false)

/-- `shutdown` succeeds; on a number that is closed it never does. -/
def shutdown (s : Sockets ι) (fd : Int) (fails : Bool) : Bool := !fails && (s.owner fd).isSome

def startLingeringClose (s : Sockets ι) (c : ι) (fails : Bool) : Sockets ι :=
  match s.sock c with
  | none => s
  | some sock =>
    if sock.lingeringClose then s
    else if s.shutdown sock.fd fails then
      { s with sock := Function.update s.sock c (some { sock with lingeringClose := true }) }
    else s.sysClose c sock.fd

/-- `connection::close`, which is also what `reset` does to the socket. -/
def close (s : Sockets ι) (c : ι) : Sockets ι := s.setSock c none

end Functions

inductive Op (ι : Type*) where
  | accept (c : ι) (fd : Int)
  | acceptTls (c : ι) (fd : Int) (ctx sslNew : Bool)
  | connectToHost (c : ι) (socket : Option Int) (connects : Bool)
  | connectToHostTls (c : ι) (ctx sslNew : Bool) (socket : Option Int) (connects : Bool)
  | startLingeringClose (c : ι) (fails : Bool)
  | close (c : ι)
  | reset (c : ι)
  | otherOpen (fd : Int)
  | otherClose (fd : Int)

variable [DecidableEq ι]

/-- An operation of a connection, or the rest of the process opening a descriptor or closing one of its
own. -/
def step (s : Sockets ι) : Op ι → Option (Sockets ι)
  | .accept c fd => s.accept c fd
  | .acceptTls c fd ctx sslNew => s.acceptTls c fd ctx sslNew
  | .connectToHost c socket connects => (s.connectToHost c socket connects).map Prod.fst
  | .connectToHostTls c ctx sslNew socket connects => (s.connectToHostTls c ctx sslNew socket connects).map Prod.fst
  | .startLingeringClose c fails => some (s.startLingeringClose c fails)
  | .close c | .reset c => some (s.close c)
  | .otherOpen fd =>
    if 0 ≤ fd ∧ s.owner fd = none then some { s with owner := Function.update s.owner fd (some .other) } else none
  | .otherClose fd =>
    if s.owner fd = some .other then some { s with owner := Function.update s.owner fd none } else none

/-- Runs that start with no connections and some descriptors of the rest of the process. -/
def machine (ι : Type*) [DecidableEq ι] : Machine (Sockets ι) (Op ι) where
  init s := (∀ fd, fd < 0 → s.owner fd = none) ∧ (∀ c, s.sock c = none) ∧ s.stray = false
  step := step

/-- The descriptors that are stored are open and different, and only own ones have been closed. -/
structure Safe (s : Sockets ι) : Prop where
  isOpen : ∀ c sock, s.sock c = some sock → 0 ≤ sock.fd → (s.owner sock.fd).isSome = true
  distinct : ∀ c c' sock sock', s.sock c = some sock → s.sock c' = some sock' → 0 ≤ sock.fd →
    sock.fd = sock'.fd → c = c'
  clean : s.stray = false

/-- A lingering close that is not yet begun has its `shutdown` succeed. -/
def ShutsDown (s : Sockets ι) : Op ι → Prop
  | .startLingeringClose c fails =>
    ∀ sock, s.sock c = some sock → sock.lingeringClose = false → s.shutdown sock.fd fails = true
  | _ => True

/-! ### Ownership -/

/-- A connection owns the descriptor that it stores. -/
structure Owns (s : Sockets ι) : Prop where
  owned : ∀ c sock, s.sock c = some sock → 0 ≤ sock.fd → s.owner sock.fd = some (.conn c)
  nonneg : ∀ fd, fd < 0 → s.owner fd = none
  clean : s.stray = false

variable {s s' : Sockets ι} {c c' : ι} {sock : ConnectedSocket} {new : Option ConnectedSocket} {fd fd' : Int}
  {op : Op ι}

omit [DecidableEq ι] in
theorem Owns.safe (h : s.Owns) : s.Safe := by
  refine ⟨?_, ?_, h.clean⟩
  · intro c sock hsock hfd
    rw [h.owned c sock hsock hfd]
    rfl
  · intro c c' sock sock' hsock hsock' hfd heq
    have howner := h.owned c sock hsock hfd
    rw [heq, h.owned c' sock' hsock' (heq ▸ hfd)] at howner
    exact (Owner.conn.inj (Option.some.inj howner)).symm

theorem closeConnection_owner : (s.closeConnection c sock).owner fd =
    if fd = sock.fd ∧ 0 ≤ sock.fd then none else s.owner fd := by
  unfold closeConnection sysClose
  split_ifs with hfd heq heq
  · rw [heq.1]
    exact Function.update_self _ _ _
  · exact Function.update_of_ne (fun h => heq ⟨h, hfd⟩) _ _
  · exact absurd heq.2 hfd
  · rfl

/-- A stored descriptor is closed and the socket replaced by one that stores none or another one. -/
theorem Owns.replace (h : s.Owns) (hsock : s.sock c = some sock)
    (hnew : ∀ sock', new = some sock' → 0 ≤ sock'.fd → sock'.fd ≠ sock.fd ∧ s.owner sock'.fd = some (.conn c)) :
    Owns { s.closeConnection c sock with sock := Function.update s.sock c new } := by
  refine ⟨?_, ?_, ?_⟩
  · intro c' sock' hsock' hfd
    dsimp only at hsock' ⊢
    rw [closeConnection_owner]
    rw [Function.update_apply] at hsock'
    split_ifs at hsock' with hc
    · obtain ⟨hne, howner⟩ := hnew sock' hsock' hfd
      rw [if_neg fun heq => hne heq.1, howner, hc]
    · have howner := h.owned c' sock' hsock' hfd
      rw [if_neg, howner]
      rintro ⟨heq, -⟩
      rw [heq, h.owned c sock hsock (heq ▸ hfd)] at howner
      exact hc (Owner.conn.inj (Option.some.inj howner)).symm
  · intro fd hfd
    dsimp only
    rw [closeConnection_owner, h.nonneg fd hfd, ite_self]
  · dsimp only [closeConnection, sysClose]
    split_ifs with hfd
    · rw [h.clean, h.owned c sock hsock hfd]
      simp
    · exact h.clean

theorem Owns.setSock (h : s.Owns) (hnew : ∀ sock', new = some sock' → sock'.fd < 0) : (s.setSock c new).Owns := by
  unfold Sockets.setSock
  cases hsock : s.sock c with
  | some sock => exact h.replace hsock fun sock' heq hfd => absurd (hnew sock' heq) (by omega)
  | none =>
    refine ⟨?_, h.nonneg, h.clean⟩
    intro c' sock' hsock' hfd
    dsimp only at hsock'
    rw [Function.update_apply] at hsock'
    split_ifs at hsock' with hc
    · exact absurd (hnew sock' hsock') (by omega)
    · exact h.owned c' sock' hsock' hfd

theorem setSock_sock : (s.setSock c new).sock c = new := Function.update_self _ _ _

theorem Owns.setSock_new (h : s.Owns) : (s.setSock c (some .new)).Owns := by
  refine h.setSock fun sock' heq => ?_
  obtain rfl := Option.some.inj heq
  decide

omit [DecidableEq ι] in
/-- A number that no connection owns is opened or closed. -/
theorem Owns.update_owner {o : Option (Owner ι)} (h : s.Owns) (hfree : ∀ c, s.owner fd ≠ some (.conn c))
    (ho : fd < 0 → o = none) : Owns { s with owner := Function.update s.owner fd o } := by
  refine ⟨?_, ?_, h.clean⟩
  · intro c sock hsock hfd
    have howner := h.owned c sock hsock hfd
    dsimp only
    rw [Function.update_of_ne, howner]
    rintro rfl
    exact hfree c howner
  · intro fd' hfd'
    dsimp only
    rw [Function.update_apply, h.nonneg fd' hfd']
    split_ifs with heq
    · exact ho (heq ▸ hfd')
    · rfl

omit [DecidableEq ι] in
theorem Owns.handOut (h : s.Owns) (hout : s.handOut c fd = some s') :
    s'.Owns ∧ s'.sock = s.sock ∧ 0 ≤ fd ∧ s.owner fd = none ∧ s'.owner fd = some (.conn c) := by
  unfold Sockets.handOut at hout
  split_ifs at hout with hclosed
  obtain rfl := Option.some.inj hout
  refine ⟨h.update_owner ?_ fun hneg => ?_, rfl, hclosed.1, hclosed.2, Function.update_self _ _ _⟩
  · intro c' howner
    rw [hclosed.2] at howner
    cases howner
  · have hnonneg := hclosed.1
    omega

/-- A socket without a descriptor is given one that its connection owns. -/
theorem Owns.setFd (h : s.Owns) (hsock : s.sock c = some .new) (howner : s.owner fd = some (.conn c)) :
    (s.setFd c fd).Owns := by
  unfold Sockets.setFd
  rw [hsock]
  dsimp only
  split_ifs with hne
  · refine h.replace hsock fun sock' heq hfd => ?_
    obtain rfl := Option.some.inj heq
    exact ⟨hne, howner⟩
  · exact h

/-- The number that is handed out for the new socket is not the one that the old socket closes. -/
theorem Owns.setSock_owner (h : s.Owns) (hclosed : s.owner fd = none) (hout : s.handOut c fd = some s') :
    (s'.setSock c (some .new)).owner fd = some (.conn c) := by
  obtain ⟨-, hsame, hfd, -, howner⟩ := h.handOut hout
  unfold Sockets.setSock
  cases hsock : s'.sock c with
  | none => exact howner
  | some sock =>
    dsimp only
    rw [closeConnection_owner, if_neg, howner]
    rintro ⟨rfl, -⟩
    rw [hsame] at hsock
    rw [h.owned c sock hsock hfd] at hclosed
    cases hclosed

theorem Owns.openSocket {socket : Option Int} {connects ok : Bool} (h : s.Owns) (hsock : s.sock c = some .new)
    (hopen : s.openSocket c socket connects = some (s', ok)) : s'.Owns := by
  unfold Sockets.openSocket at hopen
  cases socket with
  | none =>
    obtain ⟨rfl, -⟩ := Prod.mk.inj (Option.some.inj hopen)
    exact h
  | some fd =>
    obtain ⟨t, hout, heq⟩ := Option.bind_eq_some_iff.mp hopen
    obtain ⟨rfl, -⟩ := Prod.mk.inj (Option.some.inj heq)
    obtain ⟨hown, hsame, -, -, howner⟩ := h.handOut hout
    exact hown.setFd (by rw [hsame, hsock]) howner

theorem Owns.startLingeringClose {fails : Bool} (h : s.Owns) (hop : s.ShutsDown (.startLingeringClose c fails)) :
    (s.startLingeringClose c fails).Owns := by
  unfold Sockets.startLingeringClose
  cases hsock : s.sock c with
  | none => exact h
  | some sock =>
    dsimp only
    by_cases hlinger : sock.lingeringClose = true
    · rw [if_pos hlinger]
      exact h
    · rw [if_neg hlinger, if_pos (hop sock hsock (Bool.not_eq_true _ |>.mp hlinger))]
      refine ⟨?_, h.nonneg, h.clean⟩
      intro c' sock' hsock' hfd
      dsimp only at hsock' ⊢
      rw [Function.update_apply] at hsock'
      split_ifs at hsock' with hc
      · obtain rfl := Option.some.inj hsock'
        rw [hc]
        exact h.owned c sock hsock hfd
      · exact h.owned c' sock' hsock' hfd

theorem Owns.step (h : s.Owns) (hop : s.ShutsDown op) (hstep : s.step op = some s') : s'.Owns := by
  cases op with
  | accept c fd =>
    obtain ⟨t, hout, heq⟩ := Option.bind_eq_some_iff.mp hstep
    obtain rfl := Option.some.inj heq
    obtain ⟨hown, -, -, hclosed, -⟩ := h.handOut hout
    exact hown.setSock_new.setFd setSock_sock (h.setSock_owner hclosed hout)
  | acceptTls c fd ctx sslNew =>
    obtain ⟨t, hout, heq⟩ := Option.bind_eq_some_iff.mp hstep
    obtain rfl := Option.some.inj heq
    obtain ⟨hown, -, -, hclosed, -⟩ := h.handOut hout
    split_ifs
    · exact hown.setSock_new.setFd setSock_sock (h.setSock_owner hclosed hout)
    · exact hown.setSock_new
  | connectToHost c socket connects =>
    obtain ⟨⟨t, ok⟩, hconnect, rfl⟩ := Option.map_eq_some_iff.mp hstep
    exact h.setSock_new.openSocket setSock_sock hconnect
  | connectToHostTls c ctx sslNew socket connects =>
    obtain ⟨⟨t, ok⟩, hconnect, rfl⟩ := Option.map_eq_some_iff.mp hstep
    unfold connectToHostTls at hconnect
    dsimp only at hconnect
    split_ifs at hconnect
    · exact h.setSock_new.openSocket setSock_sock hconnect
    · obtain ⟨rfl, -⟩ := Prod.mk.inj (Option.some.inj hconnect)
      exact h.setSock_new
  | startLingeringClose c fails =>
    obtain rfl := Option.some.inj hstep
    exact h.startLingeringClose hop
  | close c =>
    obtain rfl := Option.some.inj hstep
    exact h.setSock fun _ habs => by cases habs
  | reset c =>
    obtain rfl := Option.some.inj hstep
    exact h.setSock fun _ habs => by cases habs
  | otherOpen fd =>
    dsimp only [Sockets.step] at hstep
    split_ifs at hstep with hclosed
    obtain rfl := Option.some.inj hstep
    refine h.update_owner ?_ fun hneg => absurd hclosed.1 (by omega)
    intro c' howner
    rw [hclosed.2] at howner
    cases howner
  | otherClose fd =>
    dsimp only [Sockets.step] at hstep
    split_ifs at hstep with hother
    obtain rfl := Option.some.inj hstep
    refine h.update_owner ?_ fun _ => rfl
    intro c' howner
    rw [hother] at howner
    cases howner

/-- A lingering close that fails to begin leaves a number that is not open, or closes -1. -/
theorem Owns.not_safe (h : s.Owns) (hop : ¬s.ShutsDown op) (hstep : s.step op = some s') : ¬s'.Safe := by
  cases op with
  | startLingeringClose c fails =>
    obtain rfl := Option.some.inj hstep
    obtain ⟨sock, hop⟩ := not_forall.mp hop
    obtain ⟨hsock, hop⟩ := Classical.not_imp.mp hop
    obtain ⟨hlinger, hshutdown⟩ := Classical.not_imp.mp hop
    have heq : s.startLingeringClose c fails = s.sysClose c sock.fd := by
      unfold Sockets.startLingeringClose
      rw [hsock]
      dsimp only
      rw [hlinger, if_neg Bool.false_ne_true, if_neg hshutdown]
    rw [heq]
    intro hsafe
    by_cases hfd : 0 ≤ sock.fd
    · have hopen := hsafe.isOpen c sock hsock hfd
      dsimp only [sysClose] at hopen
      rw [Function.update_self] at hopen
      cases hopen
    · have hclean := hsafe.clean
      dsimp only [sysClose] at hclean
      rw [h.nonneg sock.fd (by omega)] at hclean
      simp at hclean
  | _ => exact absurd trivial hop

/-- In a run whose lingering closes all begin, the descriptors that are stored are open and different and
only own ones are closed; the first one that fails to begin breaks it. -/
theorem descriptors_safe (ι : Type*) [DecidableEq ι] (s : Sockets ι) (h : (machine ι).Reaches ShutsDown s) :
    s.Safe ∧ ∀ op s', s.step op = some s' → (s'.Safe ↔ s.ShutsDown op) := by
  have hown : s.Owns := by
    refine Machine.Reaches.invariant ?_ ?_ h
    · rintro s ⟨hnonneg, hsock, hclean⟩
      refine ⟨fun c sock heq => ?_, hnonneg, hclean⟩
      rw [hsock c] at heq
      cases heq
    · intro s op s' hs hop hstep
      exact hs.step hop hstep
  refine ⟨hown.safe, fun op s' hstep => ⟨fun hsafe => ?_, fun hop => (hown.step hop hstep).safe⟩⟩
  by_contra hop
  exact hown.not_safe hop hstep hsafe

/-- No descriptor is open and there are no connections. -/
def empty : Sockets Nat := ⟨fun _ => none, fun _ => none, false⟩

theorem empty_init : (machine Nat).init empty := ⟨fun _ _ => rfl, fun _ => rfl, rfl⟩

instance (s : Sockets ι) : (op : Op ι) → Decidable (s.ShutsDown op)
  | .startLingeringClose c fails => inferInstanceAs (Decidable (∀ sock ∈ s.sock c, sock.lingeringClose = false →
      s.shutdown sock.fd fails = true))
  | .accept .. | .acceptTls .. | .connectToHost .. | .connectToHostTls .. | .close _ | .reset _ | .otherOpen _
  | .otherClose _ => .isTrue trivial

/-- Two connections linger and are closed, a third is given the number of the first, and the second one connects
to a host with its old number. -/
theorem descriptors_safe_reuse : ∃ s, (machine Nat).Reaches ShutsDown s ∧
    (s.sock 0, s.sock 1, s.sock 2) = (none, some ⟨6, false⟩, some ⟨5, true⟩) ∧
      (s.Safe ∧ ∀ op s', s.step op = some s' → (s'.Safe ↔ s.ShutsDown op)) := by
  have hend : (((machine Nat).guard ShutsDown).run empty [.accept 0 5, .acceptTls 1 6 true true, .otherOpen 7,
      .startLingeringClose 0 false, .startLingeringClose 1 false, .startLingeringClose 0 true, .close 0,
      .accept 2 5, .reset 1, .connectToHost 1 (some 6) true, .startLingeringClose 2 false, .otherClose 7]).map
        (fun s => (s.sock 0, s.sock 1, s.sock 2)) = some (none, some ⟨6, false⟩, some ⟨5, true⟩) := by decide +kernel
  obtain ⟨s, hreach, hsocks⟩ := Machine.Reaches.exists_of_guard_run (.start empty_init) hend
  exact ⟨s, hreach, hsocks, descriptors_safe Nat s hreach⟩

/-- The `shutdown` of one connection fails, its descriptor is handed out to another one, and the first
connection closes it. -/
theorem descriptors_not_safe : ¬ ∀ s, (machine Nat).Reaches (fun _ _ => True) s → s.Safe := by
  intro h
  obtain ⟨s, hrun, hstray⟩ : ∃ s, (machine Nat).run empty
      [.accept 0 5, .startLingeringClose 0 true, .accept 1 5, .close 0] = some s ∧ s.stray = true := ⟨_, rfl, rfl⟩
  have hsafe := h s ((Machine.Reaches.start empty_init).of_run (fun _ _ _ => trivial) hrun)
  rw [hsafe.clean] at hstray
  cases hstray

end Sockets
end Latypus.Net
