import Latypus.Http.ByteClasses
import Latypus.Lib.Memory
import Latypus.Lib.Search
import Mathlib.Data.List.Induction

/-! The TLS session cache of http_tls_shared.cc: a map from keys to sessions and a deque of the
sessions in the order in which they were added. The two are not kept in step. A removal leaves the
deque alone, adding a key that is in the map pushes its old session once more, and expiry works
from the front of the deque and erases the map by key. -/

namespace Latypus.Tls
open Lib Http

abbrev Key := List UInt8

def hexDigits : List UInt8 := [48, 49, 50, 51, 52, 53, 54, 55, 56, 57, 65, 66, 67, 68, 69, 70]

def hexHigh (b : UInt8) : UInt8 := hexDigits.getD ((b >>> 4) &&& 15).toNat 0

def hexLow (b : UInt8) : UInt8 := hexDigits.getD (b &&& 15).toNat 0

/-- `hex::encode` -/
def hexEncode (buf : List UInt8) : Key := buf.flatMap fun b => [hexHigh b, hexLow b]

theorem hexEncode_injective : Function.Injective hexEncode := by
  have hvalue : ∀ b, UInt8.ofNat (16 * hexDigits.idxOf (hexHigh b) + hexDigits.idxOf (hexLow b)) = b :=
    forall_byte (by decide +kernel)
  intro xs
  induction xs with
  | nil =>
    intro ys h
    cases ys with
    | nil => rfl
    | cons y ys => simp [hexEncode] at h
  | cons x xs ih =>
    intro ys h
    cases ys with
    | nil => simp [hexEncode] at h
    | cons y ys =>
      simp only [hexEncode, List.flatMap_cons, List.cons_append, List.nil_append, List.cons.injEq] at h
      rw [← hvalue x, ← hvalue y, h.1, h.2.1, ih h.2.2]

structure Session where
  sessKey : Key
  sessTime : Int
  sessDer : List UInt8
deriving DecidableEq, Repr

structure Cache where
  sessionMap : List (Key × Session)
  sessionDeque : List Session
deriving DecidableEq, Repr

/-- The settings `tls_session_timeout` and `tls_session_count`. -/
structure Settings where
  timeout : Int
  count : Int

namespace Cache

def empty : Cache := ⟨[], []⟩

def erase (map : List (Key × Session)) (key : Key) : List (Key × Session) := map.filter (·.1 ≠ key)

/-- The loop of `tls_expire_sessions` over the deque. -/
def expireFrom (cfg : Settings) (now : Int) : List (Key × Session) → List Session → Cache
  | map, [] => ⟨map, []⟩
  | map, s :: deque =>
    if s.sessTime < now - cfg.timeout ∨ (s :: deque).length > sizeT cfg.count then
      expireFrom cfg now (erase map s.sessKey) deque
    else ⟨map, s :: deque⟩

def expireSessions (cfg : Settings) (now : Int) (c : Cache) : Cache :=
  expireFrom cfg now c.sessionMap c.sessionDeque

/-- `tls_new_session_cb`: a key that is in the map keeps its session, which is pushed again. -/
def newSession (c : Cache) (id der : List UInt8) (now : Int) : Cache :=
  let key := hexEncode id
  match c.sessionMap.lookup key with
  | some s => { c with sessionDeque := c.sessionDeque ++ [s] }
  | none =>
    let s : Session := ⟨key, now, der⟩
    ⟨c.sessionMap ++ [(key, s)], c.sessionDeque ++ [s]⟩

def removeSession (c : Cache) (id : List UInt8) : Cache :=
  { c with sessionMap := erase c.sessionMap (hexEncode id) }

/-- `tls_get_session_cb`: the cache after expiry and the bytes of a hit. -/
def getSession (cfg : Settings) (c : Cache) (id : List UInt8) (now : Int) : Cache × Option (List UInt8) :=
  let c := c.expireSessions cfg now
  (c, (c.sessionMap.lookup (hexEncode id)).map (·.sessDer))

end Cache

/-- A call of one of the callbacks, with the time at which it reads the clock. -/
inductive Call where
  | newSession (id der : List UInt8) (now : Int)
  | removeSession (id : List UInt8)
  | getSession (id : List UInt8) (now : Int)
deriving DecidableEq

def Call.time? : Call → Option Int
  | newSession _ _ now => some now
  | removeSession _ => none
  | getSession _ now => some now

def Cache.call (cfg : Settings) (c : Cache) : Call → Cache
  | .newSession id der now => c.newSession id der now
  | .removeSession id => c.removeSession id
  | .getSession id now => (c.getSession cfg id now).1

def Cache.run (cfg : Settings) (calls : List Call) : Cache := calls.foldl (Cache.call cfg) .empty

/-- The clock does not go back. -/
def ClockMonotone (calls : List Call) : Prop := (calls.filterMap Call.time?).Pairwise (· ≤ ·)

instance (calls : List Call) : Decidable (ClockMonotone calls) :=
  inferInstanceAs (Decidable (List.Pairwise _ _))

/-- The calls added the bytes under the id at the given time, and have not removed the id since. -/
def AddedLast (calls : List Call) (id der : List UInt8) (time : Int) : Prop :=
  ∃ pre post, calls = pre ++ .newSession id der time :: post ∧ .removeSession id ∉ post

/-- A session stands in the deque with only older ones before it. -/
def Queued (deque : List Session) (s : Session) : Prop :=
  ∃ before after, deque = before ++ s :: after ∧ ∀ x ∈ before, x.sessTime ≤ s.sessTime

structure Inv (calls : List Call) (c : Cache) : Prop where
  key : ∀ e ∈ c.sessionMap, e.2.sessKey = e.1
  added : ∀ e ∈ c.sessionMap, ∃ id, hexEncode id = e.1 ∧ AddedLast calls id e.2.sessDer e.2.sessTime
  queued : ∀ e ∈ c.sessionMap, Queued c.sessionDeque e.2
  time : ∀ s ∈ c.sessionDeque, s.sessTime ∈ calls.filterMap Call.time?

section Added
variable {calls : List Call} {id der : List UInt8} {time : Int}

theorem AddedLast.concat (h : AddedLast calls id der time) {c : Call} (hc : c ≠ .removeSession id) :
    AddedLast (calls ++ [c]) id der time := by
  obtain ⟨pre, post, rfl, hpost⟩ := h
  refine ⟨pre, post ++ [c], by simp, fun hmem => ?_⟩
  rcases List.mem_append.mp hmem with hmem | hmem
  · exact hpost hmem
  · exact hc (List.mem_singleton.mp hmem).symm

theorem addedLast_concat (calls : List Call) (id der : List UInt8) (time : Int) :
    AddedLast (calls ++ [.newSession id der time]) id der time :=
  ⟨calls, [], rfl, by simp⟩

end Added

section Queued
variable {deque : List Session} {s x : Session}

theorem Queued.mem (h : Queued deque s) : s ∈ deque := by
  obtain ⟨before, after, rfl, -⟩ := h
  simp

theorem Queued.concat (h : Queued deque s) (x : Session) : Queued (deque ++ [x]) s := by
  obtain ⟨before, after, rfl, hbefore⟩ := h
  exact ⟨before, after ++ [x], by simp, hbefore⟩

/-- Behind a session of another key the place is kept. -/
theorem Queued.tail (h : Queued (x :: deque) s) (hne : x ≠ s) : Queued deque s := by
  obtain ⟨before, after, hdeque, hbefore⟩ := h
  cases before with
  | nil => exact absurd (List.cons.inj hdeque).1 hne
  | cons y before =>
    exact ⟨before, after, (List.cons.inj hdeque).2, fun z hz => hbefore z (List.mem_cons_of_mem y hz)⟩

/-- The front of the deque is not younger. -/
theorem Queued.le_front (h : Queued (x :: deque) s) : x.sessTime ≤ s.sessTime := by
  obtain ⟨before, after, hdeque, hbefore⟩ := h
  cases before with
  | nil => rw [(List.cons.inj hdeque).1]
  | cons y before =>
    rw [(List.cons.inj hdeque).1]
    exact hbefore y List.mem_cons_self

end Queued

theorem mem_erase {map : List (Key × Session)} {key : Key} {e : Key × Session} :
    e ∈ Cache.erase map key ↔ e ∈ map ∧ e.1 ≠ key := by
  simp [Cache.erase]

/-- What expiry does: entries only leave, those left are still queued, none of them is too old, and
the deque is not too long. -/
theorem expireFrom_spec (cfg : Settings) (now : Int) {map : List (Key × Session)} {deque : List Session}
    (hkey : ∀ e ∈ map, e.2.sessKey = e.1) (hqueued : ∀ e ∈ map, Queued deque e.2) :
    (∀ e ∈ (Cache.expireFrom cfg now map deque).sessionMap, e ∈ map ∧
      Queued (Cache.expireFrom cfg now map deque).sessionDeque e.2 ∧ now - cfg.timeout ≤ e.2.sessTime) ∧
    (Cache.expireFrom cfg now map deque).sessionDeque <:+ deque ∧
    (Cache.expireFrom cfg now map deque).sessionDeque.length ≤ sizeT cfg.count := by
  induction deque generalizing map with
  | nil =>
    refine ⟨fun e he => ?_, List.suffix_rfl, by simp [Cache.expireFrom]⟩
    exact absurd (hqueued e he).mem (by simp)
  | cons s deque ih =>
    rw [Cache.expireFrom]
    split_ifs with hexpired
    · have hkey' : ∀ e ∈ Cache.erase map s.sessKey, e.2.sessKey = e.1 := fun e he => hkey e (mem_erase.mp he).1
      have hqueued' : ∀ e ∈ Cache.erase map s.sessKey, Queued deque e.2 := by
        intro e he
        obtain ⟨he, hne⟩ := mem_erase.mp he
        exact (hqueued e he).tail fun heq => hne (by rw [heq, hkey e he])
      obtain ⟨hleft, hsuffix, hlen⟩ := ih hkey' hqueued'
      refine ⟨fun e he => ?_, hsuffix.trans (List.suffix_cons s deque), hlen⟩
      exact ⟨(mem_erase.mp (hleft e he).1).1, (hleft e he).2⟩
    · rw [not_or, not_lt, not_lt] at hexpired
      exact ⟨fun e he => ⟨he, hqueued e he, hexpired.1.trans (hqueued e he).le_front⟩, List.suffix_rfl, hexpired.2⟩

section Steps
variable {calls : List Call} {c : Cache}

theorem inv_empty : Inv [] .empty :=
  ⟨by simp [Cache.empty], by simp [Cache.empty], by simp [Cache.empty], by simp [Cache.empty]⟩

theorem Inv.time_concat (h : Inv calls c) (call : Call) :
    ∀ s ∈ c.sessionDeque, s.sessTime ∈ (calls ++ [call]).filterMap Call.time? := by
  intro s hs
  rw [List.filterMap_append]
  exact List.mem_append_left _ (h.time s hs)

theorem Inv.newSession (h : Inv calls c) (id der : List UInt8) (now : Int)
    (hclock : ClockMonotone (calls ++ [.newSession id der now])) :
    Inv (calls ++ [.newSession id der now]) (c.newSession id der now) := by
  have hadded : ∀ e ∈ c.sessionMap, ∃ id', hexEncode id' = e.1 ∧
      AddedLast (calls ++ [.newSession id der now]) id' e.2.sessDer e.2.sessTime := by
    intro e he
    obtain ⟨id', hid', hlast⟩ := h.added e he
    exact ⟨id', hid', hlast.concat (by simp)⟩
  have htime := h.time_concat (.newSession id der now)
  rw [Cache.newSession]
  cases hlookup : c.sessionMap.lookup (hexEncode id) with
  | some s =>
    refine ⟨h.key, hadded, fun e he => (h.queued e he).concat s, fun x hx => ?_⟩
    rcases List.mem_append.mp hx with hx | hx
    · exact htime x hx
    · rw [List.mem_singleton.mp hx]
      exact htime s (h.queued _ (mem_of_lookup_eq_some hlookup)).mem
  | none =>
    refine ⟨fun e he => ?_, fun e he => ?_, fun e he => ?_, fun x hx => ?_⟩
    · rcases List.mem_append.mp he with he | he
      · exact h.key e he
      · rw [List.mem_singleton.mp he]
    · rcases List.mem_append.mp he with he | he
      · exact hadded e he
      · rw [List.mem_singleton.mp he]
        exact ⟨id, rfl, addedLast_concat calls id der now⟩
    · rcases List.mem_append.mp he with he | he
      · exact (h.queued e he).concat _
      · rw [List.mem_singleton.mp he]
        -- every session of the deque was added when the clock showed no more than now
        refine ⟨c.sessionDeque, [], rfl, fun x hx => ?_⟩
        rw [ClockMonotone, List.filterMap_append, List.pairwise_append] at hclock
        exact hclock.2.2 _ (h.time x hx) now (by simp [Call.time?])
    · rcases List.mem_append.mp hx with hx | hx
      · exact htime x hx
      · rw [List.mem_singleton.mp hx]
        simp [Call.time?]

theorem Inv.removeSession (h : Inv calls c) (id : List UInt8) :
    Inv (calls ++ [.removeSession id]) (c.removeSession id) := by
  refine ⟨fun e he => h.key e (mem_erase.mp he).1, fun e he => ?_,
    fun e he => h.queued e (mem_erase.mp he).1, h.time_concat (.removeSession id)⟩
  obtain ⟨he, hne⟩ := mem_erase.mp he
  obtain ⟨id', hid', hlast⟩ := h.added e he
  refine ⟨id', hid', hlast.concat fun heq => hne ?_⟩
  rw [← hid', Call.removeSession.inj heq]

theorem Inv.getSession (h : Inv calls c) (cfg : Settings) (id : List UInt8) (now : Int) :
    Inv (calls ++ [.getSession id now]) (c.getSession cfg id now).1 := by
  obtain ⟨hleft, hsuffix, -⟩ := expireFrom_spec cfg now h.key h.queued
  refine ⟨fun e he => h.key e (hleft e he).1, fun e he => ?_, fun e he => (hleft e he).2.1,
    fun s hs => h.time_concat (.getSession id now) s (hsuffix.subset hs)⟩
  obtain ⟨id', hid', hlast⟩ := h.added e (hleft e he).1
  exact ⟨id', hid', hlast.concat (by simp)⟩

theorem inv_run (cfg : Settings) {calls : List Call} (hclock : ClockMonotone calls) : Inv calls (Cache.run cfg calls) := by
  induction calls using List.reverseRecOn with
  | nil => exact inv_empty
  | append_singleton calls call ih =>
    have hbefore : ClockMonotone calls := by
      rw [ClockMonotone, List.filterMap_append] at hclock
      exact (List.pairwise_append.mp hclock).1
    have h := ih hbefore
    rw [Cache.run, List.foldl_append, List.foldl_cons, List.foldl_nil]
    cases call with
    | newSession id der now => exact h.newSession id der now hclock
    | removeSession id => exact h.removeSession id
    | getSession id now => exact h.getSession cfg id now

end Steps

/-- The cache is sound after any calls: a hit gives bytes that were added under the id after its
last removal and not too long ago, every session of the map is in the deque, and after a lookup the
deque is not longer than the settings allow. -/
theorem sessionCache_sound (cfg : Settings) (calls : List Call) (hclock : ClockMonotone calls) :
    (∀ id now der, ((Cache.run cfg calls).getSession cfg id now).2 = some der →
      ∃ time, AddedLast calls id der time ∧ now - cfg.timeout ≤ time) ∧
    (∀ e ∈ (Cache.run cfg calls).sessionMap, e.2 ∈ (Cache.run cfg calls).sessionDeque) ∧
    (∀ id now, ((Cache.run cfg calls).getSession cfg id now).1.sessionDeque.length ≤ sizeT cfg.count) := by
  have h := inv_run cfg hclock
  refine ⟨fun id now der hhit => ?_, fun e he => (h.queued e he).mem, fun id now => ?_⟩
  · obtain ⟨s, hlookup, rfl⟩ := Option.map_eq_some_iff.mp hhit
    obtain ⟨hleft, -⟩ := expireFrom_spec cfg now h.key h.queued
    obtain ⟨hmem, -, hyoung⟩ := hleft _ (mem_of_lookup_eq_some hlookup)
    obtain ⟨id', hid', hlast⟩ := h.added _ hmem
    obtain rfl := hexEncode_injective hid'
    exact ⟨s.sessTime, hlast, hyoung⟩
  · exact (expireFrom_spec cfg now h.key h.queued).2.2

/-- A session that was added twice: the second lookup finds it no more, although its second place
in the deque is a young one. -/
theorem sessionCache_sound_readded :
    ((Cache.run ⟨10, 8⟩ [.newSession [1] [5] 0, .newSession [1] [6] 8]).getSession ⟨10, 8⟩ [1] 9).2 = some [5] ∧
      (∃ time, AddedLast [.newSession [1] [5] 0, .newSession [1] [6] 8] [1] [5] time ∧ 9 - 10 ≤ time) ∧
      ((Cache.run ⟨10, 8⟩ [.newSession [1] [5] 0, .newSession [1] [6] 8]).getSession ⟨10, 8⟩ [1] 11).2 = none := by
  refine ⟨by decide, ?_, by decide⟩
  exact (sessionCache_sound ⟨10, 8⟩ [.newSession [1] [5] 0, .newSession [1] [6] 8] (by decide)).1 [1] 9 [5]
    (by decide)

end Latypus.Tls
