import Latypus.Net.Pollset
import Mathlib.Data.List.Nodup
import Mathlib.Data.List.Perm.Basic

/-! `pollset_poll`, the pollset of systems with no other. It keeps its objects in two lists side by side and finds
them by their pointer; as long as an object has one descriptor, it does what `pollset_epoll` does. -/

namespace Latypus.Net
open Lib

structure PollFd where
  fd : Int
  events : Nat
  revents : Nat
deriving DecidableEq, Repr

/-- `operator==` -/
def PollObject.same (o o' : PollObject) : Bool := o.ptr = o'.ptr ∧ o.type = o'.type

structure PollsetPoll where
  pollfds : List PollFd
  pollobjects : List PollObject
deriving DecidableEq, Repr

namespace PollsetPoll

def new : PollsetPoll := ⟨[], []⟩

/-- `resize` of a vector, with what `pollfd` is at first. -/
def resize (pollfds : List PollFd) (n : Nat) : List PollFd :=
  pollfds.take n ++ List.replicate (n - pollfds.length) ⟨0, 0, 0⟩

def addObject (s : PollsetPoll) (obj : PollObject) (events : Nat) : PollsetPoll × Bool :=
  let (s, pi) := match s.pollobjects.findIdx? (·.same obj) with
    | some pi => (s, pi)
    | none =>
      let pi := s.pollobjects.length
      (⟨(resize s.pollfds (pi + 1)).modify pi ({ · with fd := obj.fd }), s.pollobjects ++ [obj]⟩, pi)
  ({ s with pollfds := s.pollfds.modify pi ({ · with events, revents := 0 }) }, true)

def removeObject (s : PollsetPoll) (obj : PollObject) : PollsetPoll × Bool :=
  match s.pollobjects.findIdx? (·.same obj) with
  | none => (s, false)
  | some pi => (⟨s.pollfds.eraseIdx pi, s.pollobjects.eraseIdx pi⟩, true)

/-- `do_poll`, where `poll` finds these events of a descriptor among those that it is asked for. -/
def doPoll (s : PollsetPoll) (found : Int → Nat → Nat) : PollsetPoll × List PollObject :=
  let pollfds := s.pollfds.map fun pfd => { pfd with revents := found pfd.fd pfd.events }
  ({ s with pollfds }, (s.pollobjects.zip pollfds).filterMap fun (o, pfd) =>
    if pfd.revents ≠ 0 then some (o.withEvents pfd.revents) else none)

/-- A new object goes to the end of both lists. -/
theorem addObject_new {s : PollsetPoll} {obj : PollObject} (hfind : s.pollobjects.findIdx? (·.same obj) = none)
    (hlen : s.pollfds.length = s.pollobjects.length) (events : Nat) :
    s.addObject obj events = (⟨s.pollfds ++ [⟨obj.fd, events, 0⟩], s.pollobjects ++ [obj]⟩, true) := by
  have hresize : resize s.pollfds (s.pollobjects.length + 1) = s.pollfds ++ [⟨0, 0, 0⟩] := by
    rw [resize, ← hlen, List.take_of_length_le (Nat.le_succ _), Nat.add_sub_cancel_left]
    rfl
  have hmodify (pfd : PollFd) (f : PollFd → PollFd) :
      (s.pollfds ++ [pfd]).modify s.pollobjects.length f = s.pollfds ++ [f pfd] := by
    rw [← hlen, List.modify_eq_take_drop]
    simp
  rw [addObject, hfind]
  dsimp only
  rw [hresize, hmodify, hmodify]

def call (s : PollsetPoll) : Pollset.Op → PollsetPoll × Bool
  | .add obj events _ => s.addObject obj events
  | .remove obj _ => s.removeObject obj
  | .close _ | .reopen _ => (s, true)

end PollsetPoll

namespace Pollset
variable {s s' : Pollset} {p : PollsetPoll} {obj o ent : PollObject} {events : Nat} {op : Op} {limit : Nat}

theorem mem_getObjects (h : s.Indexed) : o ∈ s.getObjects ↔ s.entry o.fd = some o ∧ o.fd ≠ -1 := by
  constructor
  · intro hmem
    obtain ⟨hmem, hpresent⟩ := List.mem_filter.mp hmem
    have hne : o.fd ≠ -1 := by simpa using hpresent
    obtain ⟨i, hi⟩ := List.mem_iff_getElem?.mp hmem
    have hentry : s.entry i = some o := by
      rw [entry, if_neg (by omega), Int.toNat_natCast, hi]
    exact ⟨(h i o hentry).resolve_left hne ▸ hentry, hne⟩
  · rintro ⟨hentry, hne⟩
    rw [entry, if_neg (Int.not_lt.mpr (entry_nonneg hentry))] at hentry
    exact List.mem_filter.mpr ⟨List.mem_of_getElem? hentry, by simpa using hne⟩

theorem nodup_getObjects (h : s.Indexed) : s.getObjects.Nodup := by
  rw [getObjects, List.Nodup, List.pairwise_filter, List.pairwise_iff_getElem]
  intro i j hi hj hij hpi hpj heq
  have hat {k : Nat} (hk : k < s.pollobjectsMap.length) (hne : s.pollobjectsMap[k].fd ≠ -1) :
      s.pollobjectsMap[k].fd = k := by
    refine (h k _ ?_).resolve_left hne
    rw [entry, if_neg (by omega), Int.toNat_natCast, List.getElem?_eq_getElem hk]
  have hi' := hat hi (of_decide_eq_true hpi)
  have hj' := hat hj (of_decide_eq_true hpj)
  rw [heq] at hi'
  omega

/-- The system calls succeed, and an object has one descriptor. -/
def Agreed (s : Pollset) : Op → Prop
  | .add obj _ fails | .remove obj fails =>
    (s.entry obj.fd).isSome = true ∧ s.kernel.isOpen obj.fd = true ∧ fails = false ∧
      ∀ o ∈ s.getObjects, o.same obj = true ↔ o.fd = obj.fd
  | .close fd => fd ∉ s.getObjects.map PollObject.fd
  | .reopen _ => True

/-- What a descriptor is watched for. -/
def eventsOf (s : Pollset) (fd : Int) : Nat := (s.kernel.watched fd).getD 0

/-- The lists of `pollset_poll` have what the table and the kernel have. -/
structure Sim (s : Pollset) (p : PollsetPoll) : Prop where
  inv : s.Inv
  objects : ∀ o, o ∈ p.pollobjects ↔ s.entry o.fd = some o ∧ o.fd ≠ -1
  apart : (p.pollobjects.map PollObject.fd).Nodup
  fds : p.pollfds.map (fun pfd => (pfd.fd, pfd.events)) = p.pollobjects.map fun o => (o.fd, s.eventsOf o.fd)

theorem sim_new (limit : Nat) (isOpen : Int → Bool) : Sim (new limit isOpen) .new := by
  refine ⟨inv_new limit isOpen, fun o => iff_of_false List.not_mem_nil ?_, List.nodup_nil, rfl⟩
  rintro ⟨hentry, hne⟩
  rw [entry] at hentry
  split_ifs at hentry
  exact hne (congrArg PollObject.fd (List.eq_of_mem_replicate (List.mem_of_getElem? hentry)))

namespace Sim

theorem mem_iff (h : Sim s p) : o ∈ p.pollobjects ↔ o ∈ s.getObjects :=
  (h.objects o).trans (mem_getObjects h.inv.indexed).symm

theorem perm (h : Sim s p) : p.pollobjects.Perm s.getObjects :=
  (List.perm_ext_iff_of_nodup h.apart.of_map (nodup_getObjects h.inv.indexed)).mpr fun _ => h.mem_iff

/-- Only one object stands under a descriptor. -/
theorem fd_ne (h : Sim s p) {i j : Nat} (hi : p.pollobjects[i]? = some o) (hj : p.pollobjects[j]? = some ent)
    (hne : i ≠ j) : o.fd ≠ ent.fd := by
  obtain ⟨hlt, -⟩ := List.getElem?_eq_some_iff.mp hi
  intro heq
  refine hne ((List.getElem?_inj (by rwa [List.length_map]) h.apart).mp ?_)
  rw [List.getElem?_map, List.getElem?_map, hi, hj, Option.map_some, Option.map_some, heq]

theorem fds_at (h : Sim s p) (j : Nat) : p.pollfds[j]?.map (fun pfd => (pfd.fd, pfd.events)) =
    p.pollobjects[j]?.map fun o => (o.fd, s.eventsOf o.fd) := by
  rw [← List.getElem?_map, ← List.getElem?_map, h.fds]

theorem find_free (h : Sim s p) (hagreed : ∀ o ∈ s.getObjects, o.same obj = true ↔ o.fd = obj.fd)
    (hentry : s.entry obj.fd = some ent) (hfree : ent.fd = -1) :
    p.pollobjects.findIdx? (·.same obj) = none := by
  refine List.findIdx?_eq_none_iff.mpr fun o ho => Bool.eq_false_iff.mpr fun hsame => ?_
  have hfd := (hagreed o (h.mem_iff.mp ho)).mp hsame
  obtain ⟨ho, hne⟩ := (h.objects o).mp ho
  rw [hfd, hentry] at ho
  exact hne (Option.some.inj ho ▸ hfree)

theorem find_present (h : Sim s p) (hagreed : ∀ o ∈ s.getObjects, o.same obj = true ↔ o.fd = obj.fd)
    (hentry : s.entry obj.fd = some ent) (hpresent : ent.fd ≠ -1) :
    ∃ pi, p.pollobjects.findIdx? (·.same obj) = some pi ∧ p.pollobjects[pi]? = some ent := by
  have hfd := (h.inv.indexed _ _ hentry).resolve_left hpresent
  have hmem : ent ∈ p.pollobjects := (h.objects ent).mpr ⟨hfd ▸ hentry, hpresent⟩
  cases hfind : p.pollobjects.findIdx? (·.same obj) with
  | none =>
    have hsame := (hagreed ent (h.mem_iff.mp hmem)).mpr hfd
    rw [List.findIdx?_eq_none_iff.mp hfind ent hmem] at hsame
    cases hsame
  | some pi =>
    obtain ⟨hlt, hsame, -⟩ := List.findIdx?_eq_some_iff_getElem.mp hfind
    have hat := List.getElem?_eq_getElem hlt
    have hobject := List.mem_of_getElem? hat
    have hfd' := (hagreed _ (h.mem_iff.mp hobject)).mp hsame
    have hentry' := ((h.objects _).mp hobject).1
    rw [hfd', hentry] at hentry'
    exact ⟨pi, rfl, hat.trans hentry'.symm⟩

end Sim

/-! ### Calls -/

theorem eventsOf_update {k : Kernel} {fd : Int} {e : Option Nat}
    (hk : k.watched = Function.update s.kernel.watched fd e) (fd' : Int) :
    ({ s with kernel := k } : Pollset).eventsOf fd' = if fd' = fd then e.getD 0 else s.eventsOf fd' := by
  rw [eventsOf]
  dsimp only
  rw [hk, Function.update_apply]
  split_ifs <;> rfl

theorem Sim.add_present (h : Sim s p) {kernel : Kernel} (hinv : ({ s with kernel } : Pollset).Inv) {pi : Nat}
    (hpi : p.pollobjects[pi]? = some ent)
    (hk : kernel.watched = Function.update s.kernel.watched ent.fd (some events)) :
    Sim { s with kernel } { p with pollfds := p.pollfds.modify pi ({ · with events, revents := 0 }) } := by
  refine ⟨hinv, h.objects, h.apart, List.ext_getElem? fun j => ?_⟩
  have hat := h.fds_at j
  dsimp only
  rw [List.getElem?_map, List.getElem?_map, List.getElem?_modify]
  simp only [eventsOf_update hk]
  cases ho : p.pollobjects[j]? with
  | none =>
    rw [ho, Option.map_none, Option.map_eq_none_iff] at hat
    rw [hat]
    rfl
  | some o =>
    rw [ho, Option.map_some, Option.map_eq_some_iff] at hat
    obtain ⟨pfd, hpfd, heq⟩ := hat
    obtain ⟨hfd, hevents⟩ := Prod.mk.inj heq
    rw [hpfd]
    -- the entry at `pi` is that of the descriptor, and all others have other descriptors
    by_cases hj : pi = j
    · subst hj
      obtain rfl := Option.some.inj (hpi.symm.trans ho)
      simp [hfd]
    · simp [hj, h.fd_ne ho hpi (Ne.symm hj), hfd, hevents]

theorem Sim.add_free (h : Sim s p) {kernel : Kernel} (hinv : ({ s.setEntry obj.fd obj with kernel } : Pollset).Inv)
    (hentry : s.entry obj.fd = some ent) (hfree : ent.fd = -1)
    (hk : kernel.watched = Function.update s.kernel.watched obj.fd (some events)) :
    Sim { s.setEntry obj.fd obj with kernel } ⟨p.pollfds ++ [⟨obj.fd, events, 0⟩], p.pollobjects ++ [obj]⟩ := by
  -- the entry is free, so that no object of the lists has the descriptor
  have hfd : ∀ o ∈ p.pollobjects, o.fd ≠ obj.fd := by
    intro o ho heq
    obtain ⟨ho, hne⟩ := (h.objects o).mp ho
    rw [heq, hentry] at ho
    exact hne (Option.some.inj ho ▸ hfree)
  have hset (fd : Int) : ({ s.setEntry obj.fd obj with kernel } : Pollset).entry fd =
      if fd = obj.fd then some obj else s.entry fd := entry_setEntry hentry obj fd
  have hevents (fd : Int) : ({ s.setEntry obj.fd obj with kernel } : Pollset).eventsOf fd =
      if fd = obj.fd then events else s.eventsOf fd := eventsOf_update (s := s.setEntry obj.fd obj) hk fd
  refine ⟨hinv, fun o => ?_, ?_, ?_⟩
  · rw [List.mem_append, List.mem_singleton, hset]
    constructor
    · rintro (ho | rfl)
      · rw [if_neg (hfd o ho)]
        exact (h.objects o).mp ho
      · have hnonneg := entry_nonneg hentry
        exact ⟨if_pos rfl, by omega⟩
    · rintro ⟨ho, hne⟩
      split_ifs at ho with heq
      · exact .inr (Option.some.inj ho).symm
      · exact .inl ((h.objects o).mpr ⟨ho, hne⟩)
  · rw [List.map_append, List.map_singleton]
    refine List.Nodup.append h.apart (List.nodup_singleton _) ?_
    rw [List.disjoint_singleton, List.mem_map]
    rintro ⟨o, ho, heq⟩
    exact hfd o ho heq
  · rw [List.map_append, List.map_append, h.fds, List.map_singleton, List.map_singleton, hevents, if_pos rfl]
    refine congrArg (· ++ _) (List.map_congr_left fun o ho => ?_)
    rw [hevents, if_neg (hfd o ho)]

theorem Sim.remove_present (h : Sim s p) {kernel : Kernel} (hinv : ({ s with kernel }.setEntry ent.fd .free).Inv)
    (hentry : s.entry ent.fd = some ent) {pi : Nat} (hpi : p.pollobjects[pi]? = some ent)
    (hk : kernel.watched = Function.update s.kernel.watched ent.fd none) :
    Sim ({ s with kernel }.setEntry ent.fd .free) ⟨p.pollfds.eraseIdx pi, p.pollobjects.eraseIdx pi⟩ := by
  have hset (fd : Int) : ({ s with kernel }.setEntry ent.fd .free).entry fd =
      if fd = ent.fd then some .free else s.entry fd := entry_setEntry (s := { s with kernel }) hentry .free fd
  have hmem {o : PollObject} : o ∈ p.pollobjects.eraseIdx pi ↔ o ∈ p.pollobjects ∧ o.fd ≠ ent.fd := by
    rw [List.mem_eraseIdx_iff_getElem?]
    constructor
    · rintro ⟨i, hi, ho⟩
      exact ⟨List.mem_of_getElem? ho, h.fd_ne ho hpi hi⟩
    · rintro ⟨ho, hne⟩
      obtain ⟨i, hi⟩ := List.mem_iff_getElem?.mp ho
      refine ⟨i, ?_, hi⟩
      rintro rfl
      exact hne (congrArg PollObject.fd (Option.some.inj (hi.symm.trans hpi)))
  refine ⟨hinv, fun o => ?_, h.apart.sublist ((List.eraseIdx_sublist _ _).map _), ?_⟩
  · rw [hset]
    constructor
    · intro ho
      obtain ⟨ho, hne⟩ := hmem.mp ho
      rw [if_neg hne]
      exact (h.objects o).mp ho
    · rintro ⟨ho, hne⟩
      split_ifs at ho with heq
      · exact absurd (congrArg PollObject.fd (Option.some.inj ho)).symm hne
      · exact hmem.mpr ⟨(h.objects o).mpr ⟨ho, hne⟩, heq⟩
  · dsimp only
    rw [← List.eraseIdx_map, h.fds, List.eraseIdx_map]
    refine List.map_congr_left fun o ho => ?_
    have hevents : ({ s with kernel }.setEntry ent.fd .free).eventsOf o.fd = s.eventsOf o.fd :=
      (eventsOf_update hk o.fd).trans (if_neg (hmem.mp ho).2)
    rw [hevents]

/-- The system call succeeds when it is for what is watched, or for what is not. -/
theorem exists_epollCtl {k : Kernel} (ctl : EpollOp) {fd : Int} (hopen : k.isOpen fd = true)
    (hctl : (k.watched fd).isSome = true ↔ ctl ≠ .add) (events : Nat) :
    ∃ kernel, k.epollCtl ctl fd events false = some kernel := by
  unfold Kernel.epollCtl
  rw [if_neg (by simp [hopen])]
  cases hwatched : k.watched fd with
  | none =>
    rw [hwatched] at hctl
    obtain rfl : ctl = .add := by simpa using hctl
    exact ⟨_, rfl⟩
  | some e =>
    rw [hwatched] at hctl
    cases ctl with
    | add => exact absurd rfl (hctl.mp rfl)
    | mod => exact ⟨_, rfl⟩
    | del => exact ⟨_, rfl⟩

theorem Sim.step_add {fails : Bool} (h : Sim s p) (hagreed : s.Agreed (.add obj events fails)) :
    ∃ s', s.addObject obj events fails = some (s', (p.addObject obj events).2) ∧ Sim s' (p.addObject obj events).1 := by
  obtain ⟨hsome, hopen, rfl, hagreed⟩ := hagreed
  obtain ⟨ent, hentry⟩ := Option.isSome_iff_exists.mp hsome
  by_cases hfree : ent.fd = -1
  · have habsent : ¬s.Present obj.fd := by
      rintro ⟨ent', hentry', hne⟩
      exact hne (Option.some.inj (hentry.symm.trans hentry') ▸ hfree)
    obtain ⟨kernel, hctl⟩ := exists_epollCtl .add hopen
      (iff_of_false ((h.inv.watched obj.fd).not.mp habsent) fun hne => hne rfl) events
    have hcall : s.addObject obj events false = some ({ s.setEntry obj.fd obj with kernel }, true) := by
      rw [addObject_free hentry hfree, hctl]
    have hinv := inv_add h.inv ⟨ent, hentry, by rw [if_pos hfree, hctl]; rfl⟩ hcall
    have hlen : p.pollfds.length = p.pollobjects.length := by simpa using congrArg List.length h.fds
    rw [PollsetPoll.addObject_new (h.find_free hagreed hentry hfree) hlen]
    exact ⟨_, hcall, h.add_free hinv hentry hfree (epollCtl_watched hctl).1⟩
  · obtain ⟨pi, hfind, hpi⟩ := h.find_present hagreed hentry hfree
    have hfd := (h.inv.indexed _ _ hentry).resolve_left hfree
    obtain ⟨kernel, hctl⟩ := exists_epollCtl .mod hopen
      (iff_of_true ((h.inv.watched obj.fd).mp ⟨ent, hentry, hfree⟩) (by rintro ⟨⟩)) events
    have hcall : s.addObject obj events false = some ({ s with kernel }, true) := by
      rw [addObject_present hentry hfree, hctl]
    have hsame : ent.withEvents 0 = obj.withEvents 0 := by
      have hmem := h.mem_iff.mp (List.mem_of_getElem? hpi)
      obtain ⟨hptr, htype⟩ := of_decide_eq_true ((hagreed ent hmem).mpr hfd)
      simp [PollObject.withEvents, hptr, htype, hfd]
    have hinv := inv_add h.inv ⟨ent, hentry, by rw [if_neg hfree]; exact .inl hsame⟩ hcall
    rw [PollsetPoll.addObject, hfind]
    exact ⟨_, hcall, h.add_present hinv hpi (hfd ▸ (epollCtl_watched hctl).1)⟩

theorem Sim.step_remove {fails : Bool} (h : Sim s p) (hagreed : s.Agreed (.remove obj fails)) :
    ∃ s', s.removeObject obj fails = some (s', (p.removeObject obj).2) ∧ Sim s' (p.removeObject obj).1 := by
  obtain ⟨hsome, hopen, rfl, hagreed⟩ := hagreed
  obtain ⟨ent, hentry⟩ := Option.isSome_iff_exists.mp hsome
  by_cases hfree : ent.fd = -1
  · rw [PollsetPoll.removeObject, h.find_free hagreed hentry hfree]
    exact ⟨s, removeObject_free hentry hfree, h⟩
  · obtain ⟨pi, hfind, hpi⟩ := h.find_present hagreed hentry hfree
    have hfd := (h.inv.indexed _ _ hentry).resolve_left hfree
    obtain ⟨kernel, hctl⟩ := exists_epollCtl .del hopen
      (iff_of_true ((h.inv.watched obj.fd).mp ⟨ent, hentry, hfree⟩) (by rintro ⟨⟩)) 0
    have hcall : s.removeObject obj false = some ({ s with kernel }.setEntry ent.fd .free, true) := by
      rw [removeObject_present hentry hfree, hctl, hfd]
    rw [PollsetPoll.removeObject, hfind]
    refine ⟨_, hcall, h.remove_present (inv_remove h.inv hcall) (hfd.symm ▸ hentry) hpi ?_⟩
    exact hfd ▸ (epollCtl_watched hctl).1

theorem Sim.close (h : Sim s p) {fd : Int} (hfd : fd ∉ s.getObjects.map PollObject.fd) :
    Sim { s with kernel := s.kernel.close fd } p := by
  refine ⟨inv_close h.inv ((mem_getObjects_iff h.inv.indexed).not.mp hfd), h.objects, h.apart, ?_⟩
  rw [h.fds]
  refine List.map_congr_left fun o ho => ?_
  have hne : o.fd ≠ fd := fun heq => hfd (heq ▸ List.mem_map_of_mem (h.mem_iff.mp ho))
  have hclose : (s.kernel.close fd).watched = Function.update s.kernel.watched fd none := rfl
  rw [eventsOf_update hclose, if_neg hne]

/-- Both pollsets give one answer. -/
theorem Sim.step (h : Sim s p) (hagreed : s.Agreed op) :
    ∃ s', s.call op = some (s', (p.call op).2) ∧ Sim s' (p.call op).1 := by
  cases op with
  | add obj events fails => exact h.step_add hagreed
  | remove obj fails => exact h.step_remove hagreed
  | close fd => exact ⟨_, rfl, h.close hagreed⟩
  | reopen fd => exact ⟨_, rfl, ⟨⟨h.inv.indexed, h.inv.watched⟩, h.objects, h.apart, h.fds⟩⟩

/-! ### Polls -/

/-- What the kernel can return from `epoll_wait`, where it finds these events of a descriptor. -/
def report (s : Pollset) (found : Int → Nat → Nat) : List (Int × Nat) :=
  s.getObjects.filterMap fun o =>
    if found o.fd (s.eventsOf o.fd) ≠ 0 then some (o.fd, found o.fd (s.eventsOf o.fd)) else none

theorem filterMap_zip {α β γ δ : Type} (a : β → γ) (b : α → γ) (f : α → γ → Option δ) {l : List α} {q : List β}
    (h : q.map a = l.map b) : (l.zip q).filterMap (fun x => f x.1 (a x.2)) = l.filterMap fun x => f x (b x) := by
  induction l generalizing q with
  | nil => rfl
  | cons x l ih =>
    cases q with
    | nil => cases h
    | cons y q =>
      obtain ⟨hy, hq⟩ := List.cons.inj h
      rw [List.zip_cons_cons, List.filterMap_cons, List.filterMap_cons, ih hq, hy]

theorem Sim.doPoll_eq (h : Sim s p) (found : Int → Nat → Nat) : (p.doPoll found).2 = p.pollobjects.filterMap fun o =>
    if found o.fd (s.eventsOf o.fd) ≠ 0 then some (o.withEvents (found o.fd (s.eventsOf o.fd))) else none := by
  have hzip := filterMap_zip (fun pfd : PollFd => (pfd.fd, pfd.events)) (fun o : PollObject => (o.fd, s.eventsOf o.fd))
    (fun o x => if found x.1 x.2 ≠ 0 then some (o.withEvents (found x.1 x.2)) else none) h.fds
  rw [← hzip, PollsetPoll.doPoll]
  dsimp only
  rw [List.zip_map_right, List.filterMap_map]
  rfl

theorem Sim.polled (h : Sim s p) (found : Int → Nat → Nat) : Sim s (p.doPoll found).1 := by
  refine ⟨h.inv, h.objects, h.apart, Eq.trans ?_ h.fds⟩
  simp [PollsetPoll.doPoll]

theorem doPoll_present {ready : List (Int × Nat)} (h : ∀ x ∈ ready, (s.entry x.1).isSome = true) :
    s.doPoll ready = some (ready.map fun x => ((s.entry x.1).getD .free).withEvents x.2) := by
  induction ready with
  | nil => rfl
  | cons x ready ih =>
    rw [List.forall_mem_cons] at h
    obtain ⟨ent, hentry⟩ := Option.isSome_iff_exists.mp h.1
    rw [doPoll, List.mapM_cons]
    change ((s.entry x.1).map _).bind (fun _ => (s.doPoll ready).bind _) = _
    rw [ih h.2, hentry, List.map_cons, hentry]
    rfl

/-- The same objects are reported, of those that the kernel returns. -/
theorem Sim.polls (h : Sim s p) {found : Int → Nat → Nat} {ready : List (Int × Nat)}
    (hready : ready.Subperm (s.report found)) : ∃ l, s.doPoll ready = some l ∧ l.Subperm (p.doPoll found).2 ∧
      (ready.Perm (s.report found) → l.Perm (p.doPoll found).2) := by
  have hentry : ∀ x ∈ ready, (s.entry x.1).isSome = true := by
    intro x hx
    obtain ⟨o, ho, hsome⟩ := List.mem_filterMap.mp (hready.subset hx)
    split_ifs at hsome
    obtain rfl := Option.some.inj hsome
    rw [((mem_getObjects h.inv.indexed).mp ho).1]
    rfl
  -- an entry of the table is the object that the lists have for its descriptor
  have hreport : ((s.report found).map fun x => ((s.entry x.1).getD .free).withEvents x.2).Perm
      (p.doPoll found).2 := by
    rw [h.doPoll_eq, report, List.map_filterMap]
    refine List.Perm.trans (.of_eq (List.filterMap_congr fun o ho => ?_)) (h.perm.symm.filterMap _)
    split_ifs
    · rw [Option.map_some, ((mem_getObjects h.inv.indexed).mp ho).1]
      rfl
    · rfl
  refine ⟨_, doPoll_present hentry, ?_, fun hall => (hall.map _).trans hreport⟩
  obtain ⟨l, hl, hsub⟩ := hready
  exact List.Subperm.trans ⟨_, hl.map _, hsub.map _⟩ hreport.subperm

/-! ### Runs -/

/-- A call on both pollsets, or a poll in which the kernel finds these events. -/
inductive Action
  | call (op : Op)
  | poll (found : Int → Nat → Nat)

/-- Both pollsets side by side. -/
def both (limit : Nat) : Machine (Pollset × PollsetPoll) Action where
  init sp := ∃ isOpen, sp = (new limit isOpen, .new)
  step sp
    | .call op => (sp.1.call op).map fun r => (r.1, (sp.2.call op).1)
    | .poll found => some (sp.1, (sp.2.doPoll found).1)

def AgreedBoth (sp : Pollset × PollsetPoll) : Action → Prop
  | .call op => sp.1.Agreed op
  | .poll _ => True

instance : ∀ sp a, Decidable (AgreedBoth sp a)
  | _, .call (.add _ _ _) | _, .call (.remove _ _) => inferInstanceAs (Decidable (_ ∧ _ ∧ _ ∧ _))
  | _, .call (.close _) => inferInstanceAs (Decidable ¬_)
  | _, .call (.reopen _) | _, .poll _ => .isTrue trivial

theorem sim_of_reaches {sp : Pollset × PollsetPoll} (h : (both limit).Reaches AgreedBoth sp) : Sim sp.1 sp.2 := by
  refine h.invariant (P := fun sp => Sim sp.1 sp.2) ?_ ?_
  · rintro _ ⟨isOpen, rfl⟩
    exact sim_new limit isOpen
  · rintro ⟨s, p⟩ a sp' h hagreed hstep
    cases a with
    | call op =>
      obtain ⟨s', hcall, hsim⟩ := h.step hagreed
      obtain ⟨r, hr, rfl⟩ := Option.map_eq_some_iff.mp hstep
      obtain rfl := Option.some.inj (hcall.symm.trans hr)
      exact hsim
    | poll found =>
      obtain rfl := Option.some.inj hstep
      exact h.polled found

/-- As long as the system calls succeed and an object has one descriptor, `pollset_poll` and `pollset_epoll` answer
alike, have the same objects and report the same ones. -/
theorem pollsets_agree {sp : Pollset × PollsetPoll} (h : (both limit).Reaches AgreedBoth sp) :
    sp.2.pollobjects.Perm sp.1.getObjects ∧
    (∀ op, sp.1.Agreed op → ∃ s', sp.1.call op = some (s', (sp.2.call op).2)) ∧
    ∀ found ready, ready.Subperm (sp.1.report found) → ∃ l, sp.1.doPoll ready = some l ∧
      l.Subperm (sp.2.doPoll found).2 ∧ (ready.Perm (sp.1.report found) → l.Perm (sp.2.doPoll found).2) := by
  have hsim := sim_of_reaches h
  refine ⟨hsim.perm, fun op hagreed => ?_, fun found ready hready => hsim.polls hready⟩
  obtain ⟨s', hcall, -⟩ := hsim.step hagreed
  exact ⟨s', hcall⟩

/-- Two connections are reported, in any order. -/
theorem pollsets_agree_two : ∃ sp, (both 2).run (new 2 fun _ => true, .new)
      [.call (.add ⟨1, 0, 1, 0⟩ 1 false), .call (.add ⟨2, 1, 1, 0⟩ 4 false)] = some sp ∧
    ∃ l, sp.1.doPoll [(1, 4), (0, 1)] = some l ∧ l.Perm (sp.2.doPoll fun _ events => events).2 := by
  refine ⟨_, rfl, ?_⟩
  have hstart : (both 2).Reaches AgreedBoth (new 2 fun _ => true, .new) := .start ⟨_, rfl⟩
  have hrun : ((both 2).guard AgreedBoth).run (new 2 fun _ => true, .new)
    [.call (.add ⟨1, 0, 1, 0⟩ 1 false), .call (.add ⟨2, 1, 1, 0⟩ 4 false)] = some _ := rfl
  obtain ⟨l, hl, -, hall⟩ := (pollsets_agree (hstart.of_guard_run hrun)).2.2 (fun _ events => events) [(1, 4), (0, 1)]
    (List.Perm.subperm (by decide))
  exact ⟨l, hl, hall (by decide)⟩

end Pollset
end Latypus.Net
