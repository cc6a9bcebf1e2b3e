import Latypus.Lib.Machine
import Mathlib.Tactic.Common
import Mathlib.Logic.Function.Basic

/-! `pollset_epoll` and the kernel's side of it. The table of the objects is indexed by descriptor; whether
an object is added or modified is told by the table, which one path writes before the system call and the
other not at all. -/

namespace Latypus.Net
open Lib

/-- `poll_object`, whose `fd` is -1 in an entry that is free. -/
structure PollObject where
  ptr : Nat
  fd : Int
  type : Nat
  eventMask : Nat
deriving DecidableEq, Repr

namespace PollObject

/-- The default constructor. -/
def free : PollObject := ⟨0, -1, 0, 0⟩

/-- The object with the events that a poll reports. -/
def withEvents (o : PollObject) (eventMask : Nat) : PollObject := { o with eventMask }

end PollObject

/-! ### The kernel -/

/-- The open descriptors of the process and the events that the epoll descriptor watches them for. -/
structure Kernel where
  isOpen : Int → Bool
  watched : Int → Option Nat

inductive EpollOp
  | add | mod | del
deriving DecidableEq, Repr

namespace Kernel

/-- `epoll_ctl`, with `none` for -1: apart from the failures that are documented for the state the kernel is
in, the call may fail for a reason of its own. -/
def epollCtl (k : Kernel) (op : EpollOp) (fd : Int) (events : Nat) (fails : Bool) : Option Kernel :=
  if fails = true ∨ k.isOpen fd = false then none
  else
    match op, k.watched fd with
    | .add, none => some { k with watched := Function.update k.watched fd (some events) }
    | .mod, some _ => some { k with watched := Function.update k.watched fd (some events) }
    | .del, some _ => some { k with watched := Function.update k.watched fd none }
    | _, _ => none

/-- A descriptor that is closed is no longer watched. -/
def close (k : Kernel) (fd : Int) : Kernel :=
  ⟨Function.update k.isOpen fd false, Function.update k.watched fd none⟩

/-- A number that is closed is handed out again. -/
def reopen (k : Kernel) (fd : Int) : Kernel := { k with isOpen := Function.update k.isOpen fd true }

end Kernel

/-! ### The pollset -/

structure Pollset where
  pollobjectsMap : List PollObject
  kernel : Kernel

namespace Pollset

/-- A new pollset; the table has an entry for each number below the limit of descriptors. -/
def new (limit : Nat) (isOpen : Int → Bool) : Pollset :=
  ⟨List.replicate limit .free, isOpen, fun _ => none⟩

/-- The entry of a descriptor. An access outside the table is undefined in the source and `none` here. -/
def entry (s : Pollset) (fd : Int) : Option PollObject :=
  if fd < 0 then none else s.pollobjectsMap[fd.toNat]?

def setEntry (s : Pollset) (fd : Int) (o : PollObject) : Pollset :=
  { s with pollobjectsMap := s.pollobjectsMap.set fd.toNat o }

def getObjects (s : Pollset) : List PollObject := s.pollobjectsMap.filter (·.fd ≠ -1)

def addObject (s : Pollset) (obj : PollObject) (events : Nat) (fails : Bool) : Option (Pollset × Bool) := do
  let ent ← s.entry obj.fd
  let (op, s) := if ent.fd ≠ -1 then (EpollOp.mod, s) else (EpollOp.add, s.setEntry obj.fd obj)
  match s.kernel.epollCtl op obj.fd events fails with
  | none => some (s, false)
  | some kernel => some ({ s with kernel }, true)

def removeObject (s : Pollset) (obj : PollObject) (fails : Bool) : Option (Pollset × Bool) := do
  let ent ← s.entry obj.fd
  if ent.fd = -1 then return (s, false)
  match s.kernel.epollCtl .del obj.fd 0 fails with
  | none => some (s, false)
  | some kernel => some ({ s with kernel }.setEntry obj.fd .free, true)

/-- What `do_poll` reports for the descriptors and events that `epoll_wait` returns. -/
def doPoll (s : Pollset) (ready : List (Int × Nat)) : Option (List PollObject) :=
  ready.mapM fun (fd, eventMask) => (s.entry fd).map (·.withEvents eventMask)

/-- A call on the pollset, or what the process does with its descriptors besides. -/
inductive Op where
  | add (obj : PollObject) (events : Nat) (fails : Bool)
  | remove (obj : PollObject) (fails : Bool)
  | close (fd : Int)
  | reopen (fd : Int)
deriving DecidableEq, Repr

def call (s : Pollset) : Op → Option (Pollset × Bool)
  | .add obj events fails => s.addObject obj events fails
  | .remove obj fails => s.removeObject obj fails
  | .close fd => some ({ s with kernel := s.kernel.close fd }, true)
  | .reopen fd => some ({ s with kernel := s.kernel.reopen fd }, true)

def machine (limit : Nat) : Machine Pollset Op where
  init s := ∃ isOpen, s = new limit isOpen
  step s op := (s.call op).map Prod.fst

/-- The object is the one that is reported for its descriptor. -/
def Reports (s : Pollset) (obj : PollObject) : Prop :=
  ∀ eventMask, s.doPoll [(obj.fd, eventMask)] = some [obj.withEvents eventMask]

/-- An object that is added is watched with its events and reported; a call that returns false leaves the
table as it was. -/
def Obeys (s : Pollset) (op : Op) : Prop := ∃ s' ok, s.call op = some (s', ok) ∧
  match op with
  | .add obj events _ =>
    (ok = true → s'.kernel.watched obj.fd = some events ∧ s'.Reports obj) ∧
      (ok = false → s'.pollobjectsMap = s.pollobjectsMap)
  | .remove _ _ => ok = false → s'.pollobjectsMap = s.pollobjectsMap
  | _ => True

/-- The descriptors of the objects are those that the kernel watches. -/
def Mirrors (s : Pollset) : Prop :=
  ∀ fd, fd ∈ s.getObjects.map PollObject.fd ↔ (s.kernel.watched fd).isSome = true

/-- The descriptor is one of the table; one that is not in the pollset is added without a failure of the
system call, and one that is in it is added again only for the same object or when the call fails. -/
def Sound (s : Pollset) : Op → Prop
  | .add obj events fails => ∃ ent, s.entry obj.fd = some ent ∧
      if ent.fd = -1 then (s.kernel.epollCtl .add obj.fd events fails).isSome = true
      else ent.withEvents 0 = obj.withEvents 0 ∨ s.kernel.epollCtl .mod obj.fd events fails = none
  | .remove obj _ => (s.entry obj.fd).isSome = true
  | _ => True

/-- A descriptor is removed before it is closed. -/
def RemovedBefore (s : Pollset) : Op → Prop
  | .close fd => fd ∉ s.getObjects.map PollObject.fd
  | _ => True

variable {limit : Nat} {s s' : Pollset} {obj o ent : PollObject} {fd fd' : Int} {events : Nat} {fails ok : Bool}
  {op : Op}

/-! ### Entries -/

theorem entry_nonneg (h : s.entry fd = some ent) : 0 ≤ fd := by
  by_contra hfd
  rw [entry, if_pos (Int.not_le.mp hfd)] at h
  cases h

theorem entry_setEntry (h : s.entry fd = some ent) (o : PollObject) (fd' : Int) :
    (s.setEntry fd o).entry fd' = if fd' = fd then some o else s.entry fd' := by
  have hfd := entry_nonneg h
  rw [entry, if_neg (Int.not_lt.mpr hfd)] at h
  obtain ⟨hlt, -⟩ := List.getElem?_eq_some_iff.mp h
  by_cases hneg : fd' < 0
  · rw [if_neg (by omega), entry, entry, if_pos hneg, if_pos hneg]
  · unfold entry setEntry
    rw [if_neg hneg, if_neg hneg, List.getElem?_set]
    by_cases heq : fd' = fd
    · rw [if_pos heq, if_pos (by rw [heq]), if_pos hlt]
    · rw [if_neg heq, if_neg (by omega)]

theorem reports_iff (h : s.entry obj.fd = some ent) : s.Reports obj ↔ ent.withEvents 0 = obj.withEvents 0 := by
  have hpoll : ∀ m, s.doPoll [(obj.fd, m)] = some [ent.withEvents m] := by
    intro m
    simp [doPoll, h]
  constructor
  · intro hreports
    have heq := (hpoll 0).symm.trans (hreports 0)
    simpa using heq
  · intro heq m
    have hm : ent.withEvents m = obj.withEvents m := by
      change (ent.withEvents 0).withEvents m = (obj.withEvents 0).withEvents m
      rw [heq]
    rw [hpoll, hm]

/-! ### Calls -/

theorem epollCtl_watched {k k' : Kernel} {ctl : EpollOp} (h : k.epollCtl ctl fd events fails = some k') :
    k'.watched = Function.update k.watched fd (if ctl = .del then none else some events) ∧
      ((k.watched fd).isSome = true ↔ ctl ≠ .add) := by
  unfold Kernel.epollCtl at h
  split_ifs at h
  cases hw : k.watched fd with
  | none =>
    rw [hw] at h
    cases ctl <;> simp_all
    · exact h ▸ rfl
  | some e =>
    rw [hw] at h
    cases ctl <;> simp_all
    · exact h ▸ rfl
    · exact h ▸ rfl

theorem addObject_free (h : s.entry obj.fd = some ent) (hfree : ent.fd = -1) :
    s.addObject obj events fails = match s.kernel.epollCtl .add obj.fd events fails with
      | none => some (s.setEntry obj.fd obj, false)
      | some kernel => some ({ s.setEntry obj.fd obj with kernel }, true) := by
  unfold addObject
  rw [h, Option.bind_eq_bind, Option.bind_some, if_neg (by simp [hfree])]
  rfl

theorem addObject_present (h : s.entry obj.fd = some ent) (hpresent : ent.fd ≠ -1) :
    s.addObject obj events fails = match s.kernel.epollCtl .mod obj.fd events fails with
      | none => some (s, false)
      | some kernel => some ({ s with kernel }, true) := by
  unfold addObject
  rw [h, Option.bind_eq_bind, Option.bind_some, if_pos hpresent]

theorem removeObject_free (h : s.entry obj.fd = some ent) (hfree : ent.fd = -1) :
    s.removeObject obj fails = some (s, false) := by
  unfold removeObject
  rw [h, Option.bind_eq_bind, Option.bind_some, if_pos hfree]
  rfl

theorem removeObject_present (h : s.entry obj.fd = some ent) (hpresent : ent.fd ≠ -1) :
    s.removeObject obj fails = match s.kernel.epollCtl .del obj.fd 0 fails with
      | none => some (s, false)
      | some kernel => some ({ s with kernel }.setEntry obj.fd .free, true) := by
  unfold removeObject
  rw [h, Option.bind_eq_bind, Option.bind_some, if_neg hpresent]

theorem obeys_add_free (h : s.entry obj.fd = some ent) (hfree : ent.fd = -1) :
    s.Obeys (.add obj events fails) ↔ (s.kernel.epollCtl .add obj.fd events fails).isSome = true := by
  have hentry := entry_setEntry h obj obj.fd
  rw [if_pos rfl] at hentry
  unfold Obeys
  rw [call, addObject_free h hfree]
  cases hctl : s.kernel.epollCtl .add obj.fd events fails with
  | none =>
    constructor
    · rintro ⟨s', ok, heq, -, hsame⟩
      obtain ⟨rfl, rfl⟩ := Prod.mk.inj (Option.some.inj heq)
      -- the table has changed: its entry was free, and the object has a number
      have hsame' : (s.setEntry obj.fd obj).entry obj.fd = s.entry obj.fd := by
        rw [entry, entry, hsame rfl]
      have heq := Option.some.inj (h.symm.trans (hsame'.symm.trans hentry))
      have hfd := entry_nonneg h
      rw [heq] at hfree
      omega
    · intro habs
      cases habs
  | some kernel =>
    refine iff_of_true ⟨_, true, rfl, fun _ => ⟨?_, ?_⟩, fun habs => by cases habs⟩ rfl
    · rw [(epollCtl_watched hctl).1, Function.update_self]
      rfl
    · exact (reports_iff hentry).mpr rfl

theorem obeys_add_present (h : s.entry obj.fd = some ent) (hpresent : ent.fd ≠ -1) :
    s.Obeys (.add obj events fails) ↔
      ent.withEvents 0 = obj.withEvents 0 ∨ s.kernel.epollCtl .mod obj.fd events fails = none := by
  unfold Obeys
  rw [call, addObject_present h hpresent]
  cases hctl : s.kernel.epollCtl .mod obj.fd events fails with
  | none => exact iff_of_true ⟨s, false, rfl, ⟨fun habs => (by cases habs), fun _ => rfl⟩⟩ (.inr rfl)
  | some kernel =>
    have hreports : ({ s with kernel } : Pollset).Reports obj ↔ ent.withEvents 0 = obj.withEvents 0 := reports_iff h
    constructor
    · rintro ⟨s', ok, heq, hwatched, -⟩
      obtain ⟨rfl, rfl⟩ := Prod.mk.inj (Option.some.inj heq)
      exact .inl (hreports.mp (hwatched rfl).2)
    · rintro (heq | habs)
      · refine ⟨_, true, rfl, fun _ => ⟨?_, hreports.mpr heq⟩, fun habs => by cases habs⟩
        rw [(epollCtl_watched hctl).1, Function.update_self]
        rfl
      · cases habs

theorem obeys_remove (h : s.entry obj.fd = some ent) : s.Obeys (.remove obj fails) := by
  unfold Obeys
  by_cases hfree : ent.fd = -1
  · exact ⟨s, false, removeObject_free h hfree, fun _ => rfl⟩
  · rw [call, removeObject_present h hfree]
    cases s.kernel.epollCtl .del obj.fd 0 fails with
    | none => exact ⟨s, false, rfl, fun _ => rfl⟩
    | some kernel => exact ⟨_, true, rfl, fun habs => by cases habs⟩

theorem obeys_iff (s : Pollset) (op : Op) : s.Obeys op ↔ s.Sound op := by
  cases op with
  | add obj events fails =>
    cases h : s.entry obj.fd with
    | none =>
      refine iff_of_false ?_ ?_
      · rintro ⟨s', ok, heq, -⟩
        rw [call, addObject, h] at heq
        cases heq
      · rintro ⟨ent, heq, -⟩
        cases h.symm.trans heq
    | some ent =>
      by_cases hfree : ent.fd = -1
      · rw [obeys_add_free h hfree]
        refine ⟨fun hctl => ⟨ent, h, by rwa [if_pos hfree]⟩, ?_⟩
        rintro ⟨ent', heq, hctl⟩
        obtain rfl := Option.some.inj (h.symm.trans heq)
        rwa [if_pos hfree] at hctl
      · rw [obeys_add_present h hfree]
        refine ⟨fun hctl => ⟨ent, h, by rwa [if_neg hfree]⟩, ?_⟩
        rintro ⟨ent', heq, hctl⟩
        obtain rfl := Option.some.inj (h.symm.trans heq)
        rwa [if_neg hfree] at hctl
  | remove obj fails =>
    cases h : s.entry obj.fd with
    | none =>
      refine iff_of_false ?_ ?_
      · rintro ⟨s', ok, heq, -⟩
        rw [call, removeObject, h] at heq
        cases heq
      · intro habs
        rw [Sound, h] at habs
        cases habs
    | some ent => exact iff_of_true (obeys_remove h) (by rw [Sound, h]; rfl)
  | close fd => exact iff_of_true ⟨_, true, rfl, trivial⟩ trivial
  | reopen fd => exact iff_of_true ⟨_, true, rfl, trivial⟩ trivial

/-! ### Runs -/

/-- The objects of the table stand under their descriptors. -/
def Indexed (s : Pollset) : Prop := ∀ fd ent, s.entry fd = some ent → ent.fd = -1 ∨ ent.fd = fd

def Present (s : Pollset) (fd : Int) : Prop := ∃ ent, s.entry fd = some ent ∧ ent.fd ≠ -1

theorem mem_getObjects_iff (h : s.Indexed) : fd ∈ s.getObjects.map PollObject.fd ↔ s.Present fd := by
  rw [List.mem_map]
  constructor
  · rintro ⟨ent, hmem, rfl⟩
    obtain ⟨hmem, hpresent⟩ := List.mem_filter.mp hmem
    obtain ⟨i, hi⟩ := List.mem_iff_getElem?.mp hmem
    have hentry : s.entry i = some ent := by
      rw [entry, if_neg (by omega), Int.toNat_natCast, hi]
    have hne : ent.fd ≠ -1 := by simpa using hpresent
    have hfd := (h i ent hentry).resolve_left hne
    exact ⟨ent, hfd ▸ hentry, hne⟩
  · rintro ⟨ent, hentry, hne⟩
    refine ⟨ent, List.mem_filter.mpr ⟨?_, by simpa using hne⟩, (h fd ent hentry).resolve_left hne⟩
    have hfd := entry_nonneg hentry
    rw [entry, if_neg (Int.not_lt.mpr hfd)] at hentry
    exact List.mem_of_getElem? hentry

/-- What holds of a run that removes a descriptor before it is closed and adds without failures. -/
structure Inv (s : Pollset) : Prop where
  indexed : s.Indexed
  watched : ∀ fd, s.Present fd ↔ (s.kernel.watched fd).isSome = true

theorem indexed_setEntry (h : s.Indexed) (hentry : s.entry fd = some ent) (ho : o.fd = -1 ∨ o.fd = fd) :
    (s.setEntry fd o).Indexed := by
  intro fd' ent' hentry'
  rw [entry_setEntry hentry] at hentry'
  split_ifs at hentry' with heq
  · obtain rfl := Option.some.inj hentry'
    rw [heq]
    exact ho
  · exact h fd' ent' hentry'

theorem present_setEntry (hentry : s.entry fd = some ent) :
    (s.setEntry fd o).Present fd' ↔ if fd' = fd then o.fd ≠ -1 else s.Present fd' := by
  unfold Present
  rw [entry_setEntry hentry]
  split_ifs with heq
  · simp
  · rfl

theorem inv_new (limit : Nat) (isOpen : Int → Bool) : (new limit isOpen).Inv := by
  have hfree : ∀ fd ent, (new limit isOpen).entry fd = some ent → ent.fd = -1 := by
    intro fd ent h
    unfold entry at h
    split_ifs at h
    obtain rfl := List.eq_of_mem_replicate (List.mem_of_getElem? h)
    rfl
  refine ⟨fun fd ent h => .inl (hfree fd ent h), fun fd => ?_⟩
  refine iff_of_false ?_ Bool.false_ne_true
  rintro ⟨ent, hentry, hpresent⟩
  exact hpresent (hfree fd ent hentry)

theorem inv_add (h : s.Inv) (hsound : s.Sound (.add obj events fails))
    (hcall : s.addObject obj events fails = some (s', ok)) : s'.Inv := by
  obtain ⟨ent, hentry, hctl⟩ := hsound
  have hfd := entry_nonneg hentry
  by_cases hfree : ent.fd = -1
  · rw [if_pos hfree] at hctl
    obtain ⟨kernel, hkernel⟩ := Option.isSome_iff_exists.mp hctl
    rw [addObject_free hentry hfree, hkernel] at hcall
    obtain ⟨rfl, -⟩ := Prod.mk.inj (Option.some.inj hcall)
    refine ⟨indexed_setEntry h.indexed hentry (.inr rfl), fun fd => ?_⟩
    refine (present_setEntry hentry).trans ?_
    dsimp only
    rw [(epollCtl_watched hkernel).1, if_neg (show EpollOp.add ≠ .del by decide), Function.update_apply]
    split_ifs with heq
    · exact iff_of_true (by omega) rfl
    · exact h.watched fd
  · rw [addObject_present hentry hfree] at hcall
    cases hkernel : s.kernel.epollCtl .mod obj.fd events fails with
    | none =>
      rw [hkernel] at hcall
      obtain ⟨rfl, -⟩ := Prod.mk.inj (Option.some.inj hcall)
      exact h
    | some kernel =>
      rw [hkernel] at hcall
      obtain ⟨rfl, -⟩ := Prod.mk.inj (Option.some.inj hcall)
      refine ⟨h.indexed, fun fd => (h.watched fd).trans ?_⟩
      obtain ⟨hupdate, hwatched⟩ := epollCtl_watched hkernel
      dsimp only
      rw [hupdate, if_neg (by decide), Function.update_apply]
      split_ifs with heq
      · rw [heq]
        exact iff_of_true (hwatched.mpr (by decide)) rfl
      · rfl

theorem inv_remove (h : s.Inv) (hcall : s.removeObject obj fails = some (s', ok)) : s'.Inv := by
  cases hentry : s.entry obj.fd with
  | none =>
    rw [removeObject, hentry] at hcall
    cases hcall
  | some ent =>
    by_cases hfree : ent.fd = -1
    · rw [removeObject_free hentry hfree] at hcall
      obtain ⟨rfl, -⟩ := Prod.mk.inj (Option.some.inj hcall)
      exact h
    · rw [removeObject_present hentry hfree] at hcall
      cases hkernel : s.kernel.epollCtl .del obj.fd 0 fails with
      | none =>
        rw [hkernel] at hcall
        obtain ⟨rfl, -⟩ := Prod.mk.inj (Option.some.inj hcall)
        exact h
      | some kernel =>
        rw [hkernel] at hcall
        obtain ⟨rfl, -⟩ := Prod.mk.inj (Option.some.inj hcall)
        have hentry' : ({ s with kernel } : Pollset).entry obj.fd = some ent := hentry
        refine ⟨indexed_setEntry h.indexed hentry' (.inl rfl), fun fd => ?_⟩
        refine (present_setEntry hentry').trans ?_
        change _ ↔ (kernel.watched fd).isSome = true
        rw [(epollCtl_watched hkernel).1, if_pos rfl, Function.update_apply]
        split_ifs with heq
        · exact iff_of_false (not_not.mpr rfl) Bool.false_ne_true
        · exact h.watched fd

theorem inv_close (h : s.Inv) (hfd : ¬s.Present fd) : ({ s with kernel := s.kernel.close fd } : Pollset).Inv := by
  refine ⟨h.indexed, fun fd' => (h.watched fd').trans ?_⟩
  dsimp only [Kernel.close]
  rw [Function.update_apply]
  split_ifs with heq
  · rw [heq, ← h.watched fd]
    exact iff_of_false hfd Bool.false_ne_true
  · rfl

theorem inv_step (h : s.Inv) (hsound : s.Sound op) (hremoved : s.RemovedBefore op)
    (hstep : (machine limit).step s op = some s') : s'.Inv := by
  obtain ⟨⟨s'', ok⟩, hcall, rfl⟩ := Option.map_eq_some_iff.mp hstep
  cases op with
  | add obj events fails => exact inv_add h hsound hcall
  | remove obj fails => exact inv_remove h hcall
  | close fd =>
    obtain ⟨rfl, -⟩ := Prod.mk.inj (Option.some.inj hcall)
    exact inv_close h ((mem_getObjects_iff h.indexed).not.mp hremoved)
  | reopen fd =>
    obtain ⟨rfl, -⟩ := Prod.mk.inj (Option.some.inj hcall)
    exact ⟨h.indexed, h.watched⟩

/-- The calls obey exactly when they are sound, and the table mirrors the kernel in every run of sound calls
that removes the descriptors before they are closed. -/
theorem pollset_mirrors (limit : Nat) : (∀ (s : Pollset) (op : Op), s.Obeys op ↔ s.Sound op) ∧
    ∀ s, (machine limit).Reaches (fun s op => s.Sound op ∧ s.RemovedBefore op) s → s.Mirrors := by
  refine ⟨obeys_iff, fun s hs => ?_⟩
  have hinv : s.Inv := by
    refine Machine.Reaches.invariant ?_ ?_ hs
    · rintro s ⟨isOpen, rfl⟩
      exact inv_new limit isOpen
    · rintro s op s' h ⟨hsound, hremoved⟩ hstep
      exact inv_step h hsound hremoved hstep
  exact fun fd => (mem_getObjects_iff hinv.indexed).trans (hinv.watched fd)

/-- A connection under descriptor 0. -/
def object (ptr : Nat) : PollObject := ⟨ptr, 0, 1, 0⟩

instance (s : Pollset) : (op : Op) → Decidable (s.Sound op)
  | .add obj events fails => inferInstanceAs (Decidable (∃ ent, ent ∈ s.entry obj.fd ∧
      if ent.fd = -1 then (s.kernel.epollCtl .add obj.fd events fails).isSome = true
      else ent.withEvents 0 = obj.withEvents 0 ∨ s.kernel.epollCtl .mod obj.fd events fails = none))
  | .remove obj _ => inferInstanceAs (Decidable ((s.entry obj.fd).isSome = true))
  | .close _ | .reopen _ => .isTrue trivial

instance (s : Pollset) : (op : Op) → Decidable (s.RemovedBefore op)
  | .close fd => inferInstanceAs (Decidable (fd ∉ s.getObjects.map PollObject.fd))
  | .add .. | .remove .. | .reopen _ => .isTrue trivial

/-- A connection is added and its events changed, once without success; it is removed and its descriptor closed,
and the next connection has the number. -/
theorem pollset_mirrors_reopened : ∃ s, (machine 2).Reaches (fun s op => s.Sound op ∧ s.RemovedBefore op) s ∧
    s.getObjects = [object 2, ⟨3, 1, 1, 0⟩] ∧ s.Mirrors := by
  have hend : (((machine 2).guard fun s op => s.Sound op ∧ s.RemovedBefore op).run (new 2 fun _ => true)
      [.add (object 1) 1 false, .add (object 1) 4 false, .add (object 1) 1 true, .add ⟨3, 1, 1, 0⟩ 1 false,
        .remove (object 1) true, .remove (object 1) false, .close 0, .reopen 0, .add (object 2) 1 false]).map
        getObjects = some [object 2, ⟨3, 1, 1, 0⟩] := by decide +kernel
  have hstart : (machine 2).Reaches (fun s op => s.Sound op ∧ s.RemovedBefore op) (new 2 fun _ => true) :=
    .start ⟨_, rfl⟩
  obtain ⟨s, hreach, hobjects⟩ := hstart.exists_of_guard_run hend
  exact ⟨s, hreach, hobjects, (pollset_mirrors 2).2 s hreach⟩

/-- An object whose system call fails stays in the table. -/
theorem pollset_not_mirrors :
    ¬ ∀ limit s, (machine limit).Reaches (fun s op => (∃ s' ok, s.call op = some (s', ok)) ∧ s.RemovedBefore op) s →
      s.Mirrors ∧ ∀ op, s.RemovedBefore op → (∃ s' ok, s.call op = some (s', ok)) → s.Obeys op := by
  intro h
  have hstart : (machine 1).Reaches (fun s op => (∃ s' ok, s.call op = some (s', ok)) ∧ s.RemovedBefore op)
      (new 1 fun _ => true) := .start ⟨_, rfl⟩
  obtain ⟨s', ok, hcall⟩ : ∃ s' ok, (new 1 fun _ => true).call (.add (object 1) 1 true) = some (s', ok) :=
    ⟨_, _, rfl⟩
  have hobeys := (h 1 _ hstart).2 (.add (object 1) 1 true) trivial ⟨s', ok, hcall⟩
  obtain ⟨ent, hentry, hctl⟩ := (obeys_iff _ _).mp hobeys
  obtain rfl : PollObject.free = ent := Option.some.inj hentry
  exact absurd hctl (by decide)

-- another object under a descriptor of the pollset is added, and the first one is reported
example : ((new 1 fun _ => true).addObject (object 1) 1 false >>= fun r => r.1.addObject (object 2) 1 false).map
    (fun r => (r.1.doPoll [(0, 1)], r.2)) = some (some [(object 1).withEvents 1], true) := by decide

end Pollset
end Latypus.Net
