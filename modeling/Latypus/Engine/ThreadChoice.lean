import Mathlib.Logic.Function.Basic
import Latypus.Engine.Machine
import Latypus.Engine.ThreadMask
import Latypus.Lib.Turns

/-! The threads of an engine and the turns in which they are chosen, from protocol_engine.cc. Both functions hold the
mutex of the threads, so that their calls come one after another, in any order. -/

namespace Latypus.Engine
open Lib Function

/-- What the mutex guards, in which `T` stands for pointers to threads. -/
structure EngineThreads (T : Type) where
  threadsAll : List T
  threadsMap : BitVec 32 → Option (List T)
  threadsNext : BitVec 32 → Option Nat

/-- The masks that are registered, and that of each thread. -/
structure ThreadMasks (P T : Type) where
  table : List (ProtocolMask P)
  threadMask : T → BitVec 32

namespace EngineThreads
variable {P T : Type} (M : ThreadMasks P T) (s : EngineThreads T)

def empty : EngineThreads T := ⟨[], fun _ => none, fun _ => none⟩

/-- The body of the loop over the table. -/
def addEntry (thread : T) (s : EngineThreads T) (ent : ProtocolMask P) : EngineThreads T :=
  if M.threadMask thread &&& ent.mask ≠ 0 then
    { s with
      threadsMap := update s.threadsMap ent.mask (some ((s.threadsMap ent.mask).getD [] ++ [thread]))
      threadsNext := if (s.threadsNext ent.mask).isNone then update s.threadsNext ent.mask (some 0) else s.threadsNext }
  else s

def addThread (thread : T) : EngineThreads T :=
  M.table.foldl (addEntry M thread) { s with threadsAll := s.threadsAll ++ [thread] }

/-- There is no result when `at` throws. -/
def chooseThread (mask : BitVec 32) : Option (Option T × EngineThreads T) :=
  match s.threadsMap mask, s.threadsNext mask with
  | some threadList, some threadNext =>
    threadList[threadNext]?.map fun chosenThread =>
      (some chosenThread, { s with
        threadsNext := update s.threadsNext mask
          (some (if threadNext + 1 = threadList.length then 0 else threadNext + 1)) })
  | _, _ => some (none, s)

/-- `choose_thread` of protocol_thread.cc. -/
def chooseThreadFor (thread : T) (mask : BitVec 32) : Option (Option T × EngineThreads T) :=
  if M.threadMask thread &&& mask ≠ 0 then some (some thread, s) else s.chooseThread mask

/-- The threads that serve a mask. -/
def serving (mask : BitVec 32) : List T :=
  s.threadsAll.filter fun thread => mask ∈ M.table.map ProtocolMask.mask ∧ M.threadMask thread &&& mask ≠ 0

def turns (mask : BitVec 32) : Turns T := ⟨s.serving M mask, (s.threadsNext mask).getD 0⟩

/-- A thread is there once, and the maps have what serves each mask. -/
structure Inv : Prop where
  nodup : s.threadsAll.Nodup
  entry : ∀ mask, (s.serving M mask = [] ∧ s.threadsMap mask = none ∧ s.threadsNext mask = none) ∨
    ∃ n < (s.serving M mask).length, s.threadsMap mask = some (s.serving M mask) ∧ s.threadsNext mask = some n

variable {M s} {thread : T} {mask mask' : BitVec 32}

theorem inv_empty : (empty : EngineThreads T).Inv M := ⟨List.nodup_nil, fun _ => .inl ⟨rfl, rfl, rfl⟩⟩

/-! ### `add_thread` -/

theorem addEntry_spec (thread : T) (ent : ProtocolMask P) (mask : BitVec 32) :
    (addEntry M thread s ent).threadsAll = s.threadsAll ∧
    (addEntry M thread s ent).threadsMap mask =
      (if mask = ent.mask ∧ M.threadMask thread &&& mask ≠ 0 then some ((s.threadsMap mask).getD [] ++ [thread])
        else s.threadsMap mask) ∧
    (addEntry M thread s ent).threadsNext mask =
      if mask = ent.mask ∧ M.threadMask thread &&& mask ≠ 0 then some ((s.threadsNext mask).getD 0)
        else s.threadsNext mask := by
  unfold addEntry
  by_cases h : mask = ent.mask ∧ M.threadMask thread &&& mask ≠ 0
  · have hbit : M.threadMask thread &&& ent.mask ≠ 0 := h.1 ▸ h.2
    rw [if_pos h, if_pos h, if_pos hbit, h.1]
    refine ⟨rfl, update_self .., ?_⟩
    cases hnext : s.threadsNext ent.mask with
    | none => simp
    | some n => simp [hnext]
  · rw [if_neg h, if_neg h]
    by_cases hbit : M.threadMask thread &&& ent.mask ≠ 0
    · have hne : mask ≠ ent.mask := fun hmask => h ⟨hmask, hmask ▸ hbit⟩
      rw [if_pos hbit]
      refine ⟨rfl, update_of_ne hne .., ?_⟩
      dsimp only
      split_ifs
      · exact update_of_ne hne ..
      · rfl
    · rw [if_neg hbit]
      exact ⟨rfl, rfl, rfl⟩

/-- The loop meets each mask of the table once. -/
theorem foldl_addEntry {table : List (ProtocolMask P)} (hmasks : (table.map ProtocolMask.mask).Nodup) (thread : T)
    (mask : BitVec 32) :
    (table.foldl (addEntry M thread) s).threadsAll = s.threadsAll ∧
    (table.foldl (addEntry M thread) s).threadsMap mask =
      (if mask ∈ table.map ProtocolMask.mask ∧ M.threadMask thread &&& mask ≠ 0 then
        some ((s.threadsMap mask).getD [] ++ [thread]) else s.threadsMap mask) ∧
    (table.foldl (addEntry M thread) s).threadsNext mask =
      if mask ∈ table.map ProtocolMask.mask ∧ M.threadMask thread &&& mask ≠ 0 then
        some ((s.threadsNext mask).getD 0) else s.threadsNext mask := by
  induction table generalizing s with
  | nil => simp
  | cons ent table ih =>
    rw [List.map_cons, List.nodup_cons] at hmasks
    obtain ⟨hall, hmap, hnext⟩ := ih (s := addEntry M thread s ent) hmasks.2
    obtain ⟨hall', hmap', hnext'⟩ := addEntry_spec (M := M) (s := s) thread ent mask
    rw [List.foldl_cons, hall, hmap, hnext, hall', hmap', hnext', List.map_cons]
    refine ⟨rfl, ?_⟩
    -- the rest of the table does not have the mask of this entry
    by_cases hmask : mask = ent.mask
    · subst hmask
      simp only [hmasks.1, List.mem_cons, true_or, true_and, false_and, if_false, and_self]
    · simp only [hmask, List.mem_cons, false_or, false_and, if_false, and_self]

theorem serving_addThread (hmasks : (M.table.map ProtocolMask.mask).Nodup) (mask : BitVec 32) :
    (s.addThread M thread).serving M mask =
      if mask ∈ M.table.map ProtocolMask.mask ∧ M.threadMask thread &&& mask ≠ 0 then s.serving M mask ++ [thread]
      else s.serving M mask := by
  rw [serving, addThread, (foldl_addEntry hmasks thread mask).1, List.filter_append, List.filter_singleton]
  by_cases hserves : mask ∈ M.table.map ProtocolMask.mask ∧ M.threadMask thread &&& mask ≠ 0
  · rw [if_pos hserves, decide_eq_true hserves]
    rfl
  · rw [if_neg hserves, decide_eq_false hserves]
    exact List.append_nil _

theorem Inv.addThread (h : s.Inv M) (hmasks : (M.table.map ProtocolMask.mask).Nodup) (hfresh : thread ∉ s.threadsAll) :
    (s.addThread M thread).Inv M := by
  refine ⟨?_, fun mask => ?_⟩
  · rw [EngineThreads.addThread, (foldl_addEntry hmasks thread 0).1]
    simpa using h.nodup.concat hfresh
  · obtain ⟨-, hmap, hnext⟩ := foldl_addEntry (M := M)
      (s := { s with threadsAll := s.threadsAll ++ [thread] }) hmasks thread mask
    rw [serving_addThread hmasks]
    have hentry := h.entry mask
    simp only [EngineThreads.addThread, hmap, hnext]
    split_ifs
    · right
      obtain ⟨hnil, hmap, hnext⟩ | ⟨n, hn, hmap, hnext⟩ := hentry
      · exact ⟨0, by simp, by rw [hmap, hnil]; rfl, by rw [hnext]; rfl⟩
      · exact ⟨n, by rw [List.length_append]; exact Nat.lt_add_right _ hn, by rw [hmap]; rfl, by rw [hnext]; rfl⟩
    · exact hentry

/-- A thread that is added joins the turns of its masks. -/
theorem turns_addThread (hmasks : (M.table.map ProtocolMask.mask).Nodup) (mask : BitVec 32) :
    (s.addThread M thread).turns M mask =
      if mask ∈ M.table.map ProtocolMask.mask ∧ M.threadMask thread &&& mask ≠ 0 then (s.turns M mask).join thread
      else s.turns M mask := by
  obtain ⟨-, -, hnext⟩ := foldl_addEntry (M := M)
    (s := { s with threadsAll := s.threadsAll ++ [thread] }) hmasks thread mask
  rw [turns, serving_addThread hmasks, EngineThreads.addThread, hnext]
  split_ifs
  · rfl
  · rfl

/-! ### `choose_thread` -/

theorem serves_of_mem (h : thread ∈ s.serving M mask) :
    mask ∈ M.table.map ProtocolMask.mask ∧ M.threadMask thread &&& mask ≠ 0 :=
  of_decide_eq_true (List.mem_filter.mp h).2

theorem Inv.proper_turns (h : s.Inv M) (hne : s.serving M mask ≠ []) : (s.turns M mask).Proper := by
  refine ⟨h.nodup.filter _, ?_⟩
  obtain ⟨hnil, -⟩ | ⟨n, hn, -, hnext⟩ := h.entry mask
  · exact absurd hnil hne
  · rw [turns, hnext]
    exact hn

/-- The thread whose turn it is, if there is one. -/
theorem chooseThread_cases (h : s.Inv M) (mask : BitVec 32) :
    (s.serving M mask = [] ∧ s.chooseThread mask = some (none, s)) ∨
    ∃ thread s', s.chooseThread mask = some (some thread, s') ∧
      (s.turns M mask).members[(s.turns M mask).next]? = some thread ∧ s'.Inv M ∧
      s'.threadsAll = s.threadsAll ∧ ∀ mask',
        s'.turns M mask' = if mask' = mask then (s.turns M mask).advance else s.turns M mask' := by
  obtain ⟨hnil, hmap, hnext⟩ | ⟨n, hn, hmap, hnext⟩ := h.entry mask
  · left
    rw [chooseThread, hmap]
    exact ⟨hnil, rfl⟩
  · right
    have hat := List.getElem?_eq_getElem hn
    let next := if n + 1 = (s.serving M mask).length then 0 else n + 1
    refine ⟨(s.serving M mask)[n], { s with threadsNext := update s.threadsNext mask (some next) }, ?_, ?_,
      ⟨h.nodup, fun mask' => ?_⟩, rfl, fun mask' => ?_⟩
    · simp only [chooseThread, hmap, hnext, hat, Option.map_some]
      rfl
    · rw [turns, hnext]
      exact hat
    · by_cases hmask : mask' = mask
      · subst hmask
        refine .inr ⟨next, ?_, hmap, update_self ..⟩
        change (if n + 1 = (s.serving M mask').length then 0 else n + 1) < (s.serving M mask').length
        split_ifs <;> omega
      · dsimp only
        rw [update_of_ne hmask]
        exact h.entry mask'
    · by_cases hmask : mask' = mask
      · subst hmask
        rw [if_pos rfl]
        simp only [turns, Turns.advance, hnext, update_self, Option.getD_some]
        rfl
      · rw [if_neg hmask]
        simp only [turns, update_of_ne hmask]
        rfl

/-- What is returned is one of the answers that the operation of the engine can give. -/
theorem Inv.exec_chooseThread (h : s.Inv M) {cfg : Config} {number : T → Thread} {bit : Mask → BitVec 32}
    (hcfg : ∀ thread m, cfg.mask (number thread) m = true ↔ M.threadMask thread &&& bit m ≠ 0) {m : Mask}
    {chosen : Option T} {s' : EngineThreads T} (hchosen : s.chooseThreadFor M thread (bit m) = some (chosen, s'))
    (state : State) : State.exec cfg state (.chooseThread (number thread) m) (chosen.map number) = some state := by
  rw [chooseThreadFor] at hchosen
  rw [State.exec]
  by_cases hbit : M.threadMask thread &&& bit m ≠ 0
  · rw [if_pos hbit] at hchosen
    obtain ⟨rfl, -⟩ := Prod.ext_iff.mp (Option.some.inj hchosen)
    rw [if_pos ((hcfg thread m).mpr hbit)]
    exact if_pos rfl
  · rw [if_neg hbit] at hchosen
    rw [if_neg fun hmask => hbit ((hcfg thread m).mp hmask)]
    refine if_pos ?_
    obtain ⟨-, hnone⟩ | ⟨other, t, hsome, hat, -⟩ := chooseThread_cases h (bit m)
    · obtain ⟨rfl, -⟩ := Prod.ext_iff.mp (Option.some.inj (hchosen.symm.trans hnone))
      rfl
    · obtain ⟨rfl, -⟩ := Prod.ext_iff.mp (Option.some.inj (hchosen.symm.trans hsome))
      exact (hcfg other m).mpr (serves_of_mem (List.mem_of_getElem? hat)).2

end EngineThreads

/-! ### Runs -/

inductive ThreadCall (T : Type)
  | addThread (thread : T)
  | chooseThread (mask : BitVec 32)
deriving DecidableEq

/-- The threads, and what has been returned for which mask. -/
structure Choices (T : Type) where
  threads : EngineThreads T
  chosen : List (BitVec 32 × Option T)

namespace Choices
variable {P T : Type} (M : ThreadMasks P T)

def step (s : Choices T) : ThreadCall T → Option (Choices T)
  | .addThread thread => some { s with threads := s.threads.addThread M thread }
  | .chooseThread mask => (s.threads.chooseThread mask).map fun r => ⟨r.2, s.chosen ++ [(mask, r.1)]⟩

/-- The calls from a state on. -/
def machine (start : Choices T) : Machine (Choices T) (ThreadCall T) where
  init s := s = start
  step := step M

def start : Choices T := ⟨.empty, []⟩

/-- A thread is added once, by what made it. -/
def Fresh (s : Choices T) : ThreadCall T → Prop
  | .addThread thread => thread ∉ s.threads.threadsAll
  | .chooseThread _ => True

/-- The threads that are returned for a mask. -/
def returned (mask : BitVec 32) (chosen : List (BitVec 32 × Option T)) : List T :=
  chosen.filterMap fun p => if p.1 = mask then p.2 else none

variable {M} {s s' s'' : Choices T} {mask : BitVec 32}

theorem returned_concat (chosen : List (BitVec 32 × Option T)) (mask mask' : BitVec 32) (r : Option T) :
    returned mask (chosen ++ [(mask', r)]) = returned mask chosen ++ (if mask' = mask then r else none).toList := by
  rw [returned, List.filterMap_append]
  refine congrArg _ ?_
  split_ifs with h <;> cases r <;> simp [h]

/-- What has been returned since a state are turns. -/
def Since (M : ThreadMasks P T) (s s' : Choices T) : Prop :=
  s'.threads.Inv M ∧ ∃ more, s'.chosen = s.chosen ++ more ∧
    ∀ mask, (s.threads.turns M mask).Took (returned mask more) (s'.threads.turns M mask)

theorem Since.step (hmasks : (M.table.map ProtocolMask.mask).Nodup) (h : Since M s s') {call : ThreadCall T}
    (hfresh : Fresh s' call) (hstep : Choices.step M s' call = some s'') : Since M s s'' := by
  obtain ⟨hinv, more, hmore, hturns⟩ := h
  cases call with
  | addThread thread =>
    obtain rfl := Option.some.inj hstep
    refine ⟨hinv.addThread hmasks hfresh, more, hmore, fun mask => ?_⟩
    dsimp only
    rw [EngineThreads.turns_addThread hmasks]
    split_ifs
    · exact (hturns mask).join thread fun hmem => hfresh (List.mem_of_mem_filter hmem)
    · exact hturns mask
  | chooseThread mask =>
    obtain ⟨r, hr, rfl⟩ := Option.map_eq_some_iff.mp hstep
    obtain ⟨-, hnone⟩ | ⟨thread, t, hsome, hat, hinv', -, hnext⟩ := EngineThreads.chooseThread_cases hinv mask
    · obtain rfl := Option.some.inj (hnone.symm.trans hr)
      refine ⟨hinv, more ++ [(mask, none)], by rw [hmore, List.append_assoc], fun mask' => ?_⟩
      rw [returned_concat, ite_self]
      exact (List.append_nil (returned mask' more)).symm ▸ hturns mask'
    · obtain rfl := Option.some.inj (hsome.symm.trans hr)
      refine ⟨hinv', more ++ [(mask, some thread)], by rw [hmore, List.append_assoc], fun mask' => ?_⟩
      dsimp only
      rw [returned_concat, hnext mask']
      -- a turn passes for the mask that is asked for, and for no other
      by_cases hmask : mask' = mask
      · subst hmask
        rw [if_pos rfl, if_pos rfl]
        exact (hturns mask').take thread hat
      · rw [if_neg (Ne.symm hmask), if_neg hmask]
        exact (List.append_nil (returned mask' more)).symm ▸ hturns mask'

theorem since_of_reaches (hmasks : (M.table.map ProtocolMask.mask).Nodup) (hs : s.threads.Inv M)
    (h : (machine M s).Reaches Fresh s') : Since M s s' := by
  refine h.invariant (P := Since M s) ?_ fun _ _ _ h hfresh hstep => h.step hmasks hfresh hstep
  rintro _ rfl
  exact ⟨hs, [], (List.append_nil _).symm, fun _ => .nil⟩

/-- Whatever calls came before, `choose_thread` does not throw and returns one of the threads that serve the mask, or
null when there is none. From any state on, two threads that serve a mask are returned equally often, but for one time,
whatever other calls come between. -/
theorem chooseThread_fair [DecidableEq T] {names : List (P × List UInt8)} (htable : registerAll names = some M.table)
    (hs : (machine M start).Reaches Fresh s) (hs' : (machine M s).Reaches Fresh s') (mask : BitVec 32) :
    (∃ r threads, s.threads.chooseThread mask = some (r, threads) ∧ (∀ thread ∈ r, thread ∈ s.threads.serving M mask) ∧
      (r = none ↔ s.threads.serving M mask = [])) ∧
    ∀ a ∈ s.threads.serving M mask, ∀ b ∈ s.threads.serving M mask,
      (returned mask (s'.chosen.drop s.chosen.length)).count a ≤
        (returned mask (s'.chosen.drop s.chosen.length)).count b + 1 := by
  have hmasks : (M.table.map ProtocolMask.mask).Nodup := Registry.nodup_of_registerAll htable
  obtain ⟨hinv, -⟩ := since_of_reaches hmasks EngineThreads.inv_empty hs
  obtain ⟨-, more, hmore, hturns⟩ := since_of_reaches hmasks hinv hs'
  constructor
  · obtain ⟨hnil, hnone⟩ | ⟨thread, t, hsome, hat, -⟩ := EngineThreads.chooseThread_cases hinv mask
    · exact ⟨none, s.threads, hnone, by rintro _ ⟨⟩, iff_of_true rfl hnil⟩
    · have hmem := List.mem_of_getElem? hat
      refine ⟨some thread, t, hsome, fun _ h => Option.some.inj h ▸ hmem, iff_of_false (Option.some_ne_none thread) ?_⟩
      exact List.ne_nil_of_mem hmem
  · intro a ha b hb
    rw [hmore, List.drop_left]
    exact (hturns mask).count_le (hinv.proper_turns (List.ne_nil_of_mem ha)) ha hb

/-- A worker of the client, and one that listens as well. -/
def workers : ThreadMasks HttpProtocol Bool := ⟨HttpProtocol.registry.table, fun listens => if listens then 10 else 2⟩

def workersAdded : Choices Bool := ⟨(EngineThreads.empty.addThread workers false).addThread workers true, []⟩

theorem chooseThread_fair_workers : ∃ s', (machine workers workersAdded).run workersAdded
      [.chooseThread 2, .chooseThread 8, .chooseThread 2, .chooseThread 2] = some s' ∧
    s'.chosen = [(2, some false), (8, some true), (2, some true), (2, some false)] ∧
    (returned 2 s'.chosen).count false ≤ (returned 2 s'.chosen).count true + 1 := by
  have hs : (machine workers start).Reaches Fresh workersAdded :=
    .next (a := .addThread true) (.next (a := .addThread false) (.start rfl) List.not_mem_nil rfl)
      (show true ∉ [false] by decide) rfl
  obtain ⟨s', hrun⟩ : ∃ s', (machine workers workersAdded).run workersAdded
      [.chooseThread 2, .chooseThread 8, .chooseThread 2, .chooseThread 2] = some s' := ⟨_, rfl⟩
  have hs' : (machine workers workersAdded).Reaches Fresh s' :=
    Machine.Reaches.of_run (.start rfl) (by simp [Fresh]) hrun
  have hchosen : ((machine workers workersAdded).run workersAdded
      [.chooseThread 2, .chooseThread 8, .chooseThread 2, .chooseThread 2]).map chosen =
        some [(2, some false), (8, some true), (2, some true), (2, some false)] := by decide
  rw [hrun] at hchosen
  have htable : registerAll HttpProtocol.masks = some workers.table := rfl
  exact ⟨s', hrun, Option.some.inj hchosen, (chooseThread_fair htable hs hs' 2).2 false (by decide) true (by decide)⟩

end Choices
end Latypus.Engine
