import Latypus.Log.Buffers

/-! The logger over whole runs. The owner's place in the constructor and the destructor says how
many buffers there are and how many `delete_buffers` has gone through; the writer is done before the
destructor writes what is left. A buffer that is not deleted in the end is in a `log` call that the
destructor has overtaken. -/

namespace Latypus.Log
open Lib Http

/-- How many buffers the owner has created. -/
def OwnerPc.allocated (n : Nat) : OwnerPc → Nat
  | create i => i
  | createPush i _ => i + 1
  | _ => n

/-- How often the loop of `delete_buffers` has gone round. -/
def OwnerPc.torn (n : Nat) : OwnerPc → Nat
  | delete i => i
  | close | destroyed => n
  | _ => 0

def OwnerPc.Bounded (n : Nat) : OwnerPc → Prop
  | create i | delete i => i ≤ n
  | createPush i _ => i < n
  | _ => True

/-- The owner has told the writer to stop and waits for it. -/
def OwnerPc.stopping : OwnerPc → Bool
  | notify _ | join _ => true
  | _ => false

/-- The destructor is past `shutdown`. -/
def OwnerPc.joined : OwnerPc → Bool
  | drain _ | delete _ | close | destroyed => true
  | _ => false

/-- The `write_logs` of the destructor has found the queue of messages empty. -/
def OwnerPc.drained : OwnerPc → Bool
  | drain .flush | delete _ | close | destroyed => true
  | _ => false

/-- The destructor has been called. -/
def OwnerPc.destroying : OwnerPc → Bool
  | exchange destroying | notify destroying | join destroying => destroying
  | drain _ | delete _ | close | destroyed => true
  | _ => false

/-- The invariant of the logger with `n` buffers. -/
structure Inv (n : Nat) (s : LogState) : Prop where
  flow : Flow s (s.writer.hand ++ s.owner.hand) (s.writer.unwritten ++ s.owner.unwritten)
  allocated : s.memory.length = s.owner.allocated n
  bounded : s.owner.Bounded n
  torn : s.deleted.length + s.errors.length = s.owner.torn n
  errors : ∀ e ∈ s.errors, e = .deleting
  /-- `delete_buffers` has failed to find a buffer only when there was none left. -/
  spent : s.errors ≠ [] → s.free = []
  stopped : s.running = true ∨ s.writer = .done ∨ s.owner.stopping = true
  joined : s.owner.joined = true → s.writer = .done
  before : s.returnedBefore ⊆ s.returned
  drained : s.owner.drained = true → ∀ call ∈ s.returnedBefore, call ∈ s.pushed.take s.written.length

theorem WriterPc.unwritten_subset (pc : WriterPc) : pc.unwritten ⊆ pc.hand := by
  cases pc with
  | logs pc =>
    cases pc with
    | write b => exact List.Subset.refl _
    | _ => exact List.nil_subset _
  | _ => exact List.nil_subset _

section Inv
variable {n i : Nat} {s s' : LogState} {pc pc' : ClientPc}

theorem OwnerPc.allocated_le {pc : OwnerPc} (h : pc.Bounded n) : pc.allocated n ≤ n := by
  cases pc with
  | create i | createPush i b => exact h
  | _ => exact le_rfl

theorem Inv.length_le (h : Inv n s) : s.memory.length ≤ n := h.allocated ▸ OwnerPc.allocated_le h.bounded

theorem mem_take_of_prefix {α : Type} {l l' : List α} {k k' : Nat} (hl : l <+: l') (hk : k ≤ k') {x : α}
    (hx : x ∈ l.take k) : x ∈ l'.take k' := by
  obtain ⟨rest, rfl⟩ := hl
  have hmem : x ∈ l.take k' := (List.take_subset_take_left l hk) hx
  rw [List.take_append]
  exact List.mem_append_left _ hmem

theorem Inv.call (h : Inv n s) (hi : s.clients[i]? = some .idle) (time : Int) (message : Bytes) :
    Inv n { s with clients := s.clients.set i (.retry ⟨s.calls, time, message⟩), calls := s.calls + 1 } :=
  { h with flow := h.flow.call hi time message }

theorem Inv.client (h : Inv n s) (hi : s.clients[i]? = some pc) (hstep : clientStep n s pc = some (s', pc')) :
    Inv n { s' with clients := s'.clients.set i pc' } := by
  have hframe := h.flow.clientFrame hi h.length_le hstep
  have hflow := h.flow.client hi h.length_le hstep
  refine ⟨?_, ?_, ?_, ?_, ?_, fun he => ?_, ?_, ?_, ?_, fun hd call hcall => ?_⟩
  · simpa only [hframe.writer, hframe.owner] using hflow
  · simpa only [hframe.length_memory, hframe.owner] using h.allocated
  · simpa only [hframe.owner] using h.bounded
  · simpa only [hframe.deleted, hframe.errors, hframe.owner] using h.torn
  · simpa only [hframe.errors] using h.errors
  · have hfree : s'.free <:+ [] := h.spent (hframe.errors ▸ he) ▸ hframe.free
    exact List.suffix_nil.mp hfree
  · simpa only [hframe.running, hframe.writer, hframe.owner] using h.stopped
  · simpa only [hframe.writer, hframe.owner] using h.joined
  · exact hframe.returnedBefore ▸ List.Subset.trans h.before hframe.returned.subset
  · refine mem_take_of_prefix hframe.pushed (le_of_eq ?_) (h.drained (hframe.owner ▸ hd) call ?_)
    · exact congrArg List.length hframe.written.symm
    · exact hframe.returnedBefore ▸ hcall

/-- While the writer runs, the owner is not past `shutdown`: nothing has been deleted. -/
theorem Inv.errors_eq_nil (h : Inv n s) (hjoined : s.owner.drained = false) : s.errors = [] := by
  have htorn := h.torn
  have hzero : s.owner.torn n = 0 := by
    cases hpc : s.owner with
    | delete i | close | destroyed => rw [hpc] at hjoined; cases hjoined
    | _ => rfl
  rw [← List.length_eq_zero_iff]
  omega

theorem OwnerPc.drained_eq_false {pc : OwnerPc} (h : pc.joined = false) : pc.drained = false := by
  cases pc with
  | drain pc | delete i | close | destroyed => cases h
  | _ => rfl

theorem OwnerPc.unwritten_eq_nil {pc : OwnerPc} (h : pc.joined = false) : pc.unwritten = [] := by
  cases pc with
  | drain pc => cases h
  | _ => rfl

theorem Inv.joined_eq_false (h : Inv n s) (hw : s.writer ≠ .done) : s.owner.joined = false := by
  cases hjoined : s.owner.joined with
  | false => rfl
  | true => exact absurd (h.joined hjoined) hw

/-- The writer takes a step outside `write_logs`. -/
theorem Inv.writer_quiet (h : Inv n s) {mutex waiting : Bool} {w : WriterPc} (hw : s.writer ≠ .done)
    (hhand : w.hand = s.writer.hand) (hunwritten : w.unwritten = s.writer.unwritten) :
    Inv n { s with logMutex := mutex, writerWaiting := waiting, writer := w } := by
  have hflow := h.flow
  rw [← hhand, ← hunwritten] at hflow
  have hstopped : s.running = true ∨ s.owner.stopping = true := by
    obtain hrunning | hdone | hstopping := h.stopped
    · exact .inl hrunning
    · exact absurd hdone hw
    · exact .inr hstopping
  refine { h with flow := ?_, stopped := hstopped.imp_right .inr, joined := fun hjoined => ?_ }
  · exact { hflow with }
  · exact absurd (h.joined hjoined) hw

/-- The writer takes a step in `write_logs`; it is not done, so the owner has nothing to write. -/
theorem Inv.writer_logs (h : Inv n s) {pc : WriteLogs} (hw : s.writer = .logs pc) (count : Nat) :
    ∃ s' next, writeLogsStep n s count pc = (s', next) ∧
      Inv n { s' with writer := next.elim .unlock WriterPc.logs } := by
  have hdone : s.writer ≠ .done := by rw [hw]; exact nofun
  have hjoined := h.joined_eq_false hdone
  have hflow := h.flow
  rw [hw, OwnerPc.unwritten_eq_nil hjoined, List.append_nil] at hflow
  obtain ⟨s', next, heq, hframe, -, -, hflow'⟩ :=
    Flow.writeLogs pc s.owner.hand hflow h.length_le count
  have herrors : s.errors = [] := h.errors_eq_nil (OwnerPc.drained_eq_false hjoined)
  have hhand : next.elim [] WriteLogs.hand = (next.elim WriterPc.unlock WriterPc.logs).hand := by
    cases next <;> rfl
  have hunwritten : next.elim [] WriteLogs.unwritten = (next.elim WriterPc.unlock WriterPc.logs).unwritten := by
    cases next <;> rfl
  refine ⟨s', next, heq, ?_, ?_, ?_, ?_, ?_, fun he => ?_, ?_, fun hj => ?_, ?_, fun hd => ?_⟩
  · rw [hhand, hunwritten] at hflow'
    rw [hframe.owner, OwnerPc.unwritten_eq_nil hjoined, List.append_nil]
    exact { hflow' with }
  · simpa only [hframe.memory, hframe.owner] using h.allocated
  · simpa only [hframe.owner] using h.bounded
  · simpa only [hframe.deleted, hframe.errors, hframe.owner] using h.torn
  · simpa only [hframe.errors] using h.errors
  · exact absurd (hframe.errors.trans herrors) he
  · obtain hrunning | h' | hstopping := h.stopped
    · exact .inl (hframe.running.trans hrunning)
    · exact absurd h' hdone
    · exact .inr (.inr (hframe.owner ▸ hstopping))
  · rw [hframe.owner, hjoined] at hj
    cases hj
  · simpa only [hframe.returnedBefore, hframe.returned] using h.before
  · rw [hframe.owner, OwnerPc.drained_eq_false hjoined] at hd
    cases hd

theorem Inv.writer (h : Inv n s) {count : Nat} (hstep : writerStep n s count = some s') : Inv n s' := by
  cases hw : s.writer with
  | logs pc =>
    obtain ⟨t, next, heq, hinv⟩ := h.writer_logs hw count
    simp only [writerStep, hw, heq] at hstep
    cases next <;> cases hstep <;> exact hinv
  | test =>
    simp only [writerStep, hw, Option.some.injEq] at hstep
    subst hstep
    have hne : s.writer ≠ .done := by rw [hw]; exact nofun
    refine h.writer_quiet hne ?_ ?_
    · rw [hw]
      split <;> rfl
    · rw [hw]
      split <;> rfl
  | lock | waiting =>
    simp only [writerStep, hw] at hstep
    split at hstep
    · cases hstep
    · cases hstep
      exact h.writer_quiet (by rw [hw]; exact nofun) (by rw [hw]; rfl) (by rw [hw]; rfl)
  | exchange =>
    simp only [writerStep, hw] at hstep
    split at hstep <;> cases hstep <;>
      exact h.writer_quiet (by rw [hw]; exact nofun) (by rw [hw]; rfl) (by rw [hw]; rfl)
  | locked | unlock | notifyAll =>
    simp only [writerStep, hw] at hstep
    cases hstep
    exact h.writer_quiet (by rw [hw]; exact nofun) (by rw [hw]; rfl) (by rw [hw]; rfl)
  | done =>
    simp only [writerStep, hw] at hstep
    cases hstep

/-- The owner goes on without touching a buffer. -/
theorem Inv.owner_quiet (h : Inv n s) {running : Bool} {pc : OwnerPc}
    (hhand : pc.hand = s.owner.hand) (hunwritten : pc.unwritten = s.owner.unwritten)
    (hallocated : pc.allocated n = s.owner.allocated n) (hbounded : pc.Bounded n)
    (htorn : pc.torn n = s.owner.torn n)
    (hstopped : running = true ∨ s.writer = .done ∨ pc.stopping = true)
    (hjoined : pc.joined = true → s.writer = .done) (hdrained : pc.drained = true → s.owner.drained = true) :
    Inv n { s with running, owner := pc } := by
  have hflow := h.flow
  rw [← hhand, ← hunwritten] at hflow
  refine { h with
    flow := ?_, allocated := h.allocated.trans hallocated.symm, bounded := hbounded
    torn := h.torn.trans htorn.symm, stopped := hstopped, joined := hjoined
    drained := fun hd => h.drained (hdrained hd) }
  exact { hflow with }

theorem Inv.owner_create (h : Inv n s) (hpc : s.owner = .create i) (hi : i < n) (w : Bytes) :
    Inv n { s with memory := s.memory ++ [w], owner := .createPush i s.memory.length } := by
  have hflow := h.flow
  have hlength : s.memory.length = i := by rw [h.allocated, hpc]; rfl
  have htorn := h.torn
  have hstopped := h.stopped
  rw [hpc] at hflow htorn hstopped
  have hcreate := hflow.create w
  simp only [OwnerPc.hand, OwnerPc.unwritten, List.append_nil] at hcreate
  refine { h with
    flow := ?_, allocated := ?_, bounded := hi, torn := htorn, stopped := hstopped
    joined := nofun, drained := nofun }
  · simp only [OwnerPc.hand, OwnerPc.unwritten, List.append_nil]
    exact { hcreate with }
  · simp only [List.length_append, List.length_singleton, OwnerPc.allocated, hlength]

/-- The queue of free buffers has room for the one that the owner has created. -/
theorem Inv.owner_createPush (h : Inv n s) {b : Nat} (hpc : s.owner = .createPush i b) :
    s.free.length ≠ n ∧ Inv n { s with free := s.free ++ [b], owner := .create (i + 1) } := by
  have hflow := h.flow
  have htorn := h.torn
  have hstopped := h.stopped
  have hlt : i < n := by
    have hbounded := h.bounded
    rw [hpc] at hbounded
    exact hbounded
  have herrors : s.errors = [] := h.errors_eq_nil (by rw [hpc]; rfl)
  have hallocated : s.memory.length = i + 1 := by rw [h.allocated, hpc]; rfl
  have hlength := h.flow.length_eq
  rw [hpc] at hflow htorn hstopped hlength
  simp only [OwnerPc.hand, List.length_append, List.length_singleton] at hlength
  refine ⟨by omega, { h with
    flow := ?_, allocated := hallocated, bounded := hlt, torn := htorn
    spent := fun he => absurd herrors he, stopped := hstopped, joined := nofun, drained := nofun }⟩
  refine ⟨fun b' => ?_, fun c hc => ?_, hflow.tickets, hflow.texts, hflow.clients, hflow.returned⟩
  · have hold := hflow.places b'
    simp only [OwnerPc.hand, List.count_append, List.count_nil, LogState.clientHands] at hold ⊢
    omega
  · obtain hc | hc := List.mem_append.mp hc
    · exact List.mem_append_left _ (WriterPc.unwritten_subset s.writer hc)
    · cases hc

/-- The destructor takes a step in `write_logs`. When it finds the queue empty, every message
pushed so far is written. -/
theorem Inv.owner_drain (h : Inv n s) {pc : WriteLogs} (hpc : s.owner = .drain pc) (count : Nat) :
    ∃ s' next, writeLogsStep n s count pc = (s', next) ∧
      Inv n { s' with owner := next.elim (.delete 0) OwnerPc.drain } := by
  have hdone : s.writer = .done := h.joined (by rw [hpc]; rfl)
  have hallocated : s.memory.length = n := by rw [h.allocated, hpc]; rfl
  have hflow := h.flow
  have htorn := h.torn
  rw [hpc] at htorn
  have herrors : s.errors = [] := List.length_eq_zero_iff.mp (Nat.eq_zero_of_add_eq_zero_left htorn)
  rw [hpc, hdone] at hflow
  obtain ⟨s', next, heq, hframe, hflush, hnone, hflow'⟩ :=
    Flow.writeLogs pc [] (by rw [List.append_nil]; exact hflow) h.length_le count
  have hhand : next.elim [] WriteLogs.hand = (next.elim (OwnerPc.delete 0) OwnerPc.drain).hand := by
    cases next <;> rfl
  have hunwritten : next.elim [] WriteLogs.unwritten = (next.elim (OwnerPc.delete 0) OwnerPc.drain).unwritten := by
    cases next <;> rfl
  refine ⟨s', next, heq, ?_, ?_, ?_, ?_, ?_, fun he => ?_, ?_, fun _ => ?_, ?_, fun hd call hcall => ?_⟩
  · rw [hhand, hunwritten, List.append_nil] at hflow'
    rw [hframe.writer, hdone]
    exact { hflow' with }
  · rw [hframe.memory, hallocated]
    cases next <;> rfl
  · cases next with
    | none => exact Nat.zero_le n
    | some pc => trivial
  · rw [hframe.deleted, hframe.errors, htorn]
    cases next <;> rfl
  · simpa only [hframe.errors] using h.errors
  · exact absurd (hframe.errors.trans herrors) he
  · exact .inr (.inl (hframe.writer.trans hdone))
  · exact hframe.writer.trans hdone
  · simpa only [hframe.returnedBefore, hframe.returned] using h.before
  · rw [hframe.returnedBefore] at hcall
    have hpushed : call ∈ s'.pushed := hframe.pushed ▸ h.flow.returned (h.before hcall)
    have hlength := congrArg List.length hflow'.texts
    cases next with
    | none =>
      obtain rfl := hnone rfl
      have hbefore := h.drained (by rw [hpc]; rfl) call hcall
      exact mem_take_of_prefix (hframe.pushed ▸ List.prefix_rfl) hframe.written.length_le hbefore
    | some pc' =>
      cases pc' with
      | flush =>
        have hinuse := hflush rfl
        simp only [hinuse, Option.elim_some, WriteLogs.unwritten, List.append_nil, List.map_nil,
          List.length_map] at hlength
        rwa [hlength, List.take_length]
      | _ => cases hd

theorem Inv.owner_delete (h : Inv n s) (hpc : s.owner = .delete i) (hi : i < n) :
    (s.free = [] → Inv n { s with errors := s.errors ++ [.deleting], owner := .delete (i + 1) }) ∧
    (∀ b free, s.free = b :: free →
      Inv n { s with free, deleted := s.deleted ++ [b], owner := .delete (i + 1) }) := by
  have hflow := h.flow
  have htorn := h.torn
  have hdrained := h.drained
  have hdone : s.writer = .done := h.joined (by rw [hpc]; rfl)
  have hallocated : s.memory.length = n := by rw [h.allocated, hpc]; rfl
  rw [hpc] at hflow htorn hdrained
  simp only [OwnerPc.torn] at htorn
  constructor
  · intro hfree
    refine { h with
      flow := { hflow with }, allocated := hallocated, bounded := hi, torn := ?_, errors := ?_
      spent := fun _ => hfree, stopped := .inr (.inl hdone), joined := fun _ => hdone, drained := hdrained }
    · rw [List.length_append, List.length_singleton, ← Nat.add_assoc, htorn]
      rfl
    · simpa [or_imp, forall_and] using h.errors
  · intro b free hfree
    have hnil : s.errors = [] := by
      by_contra he
      rw [h.spent he] at hfree
      cases hfree
    refine { h with
      flow := ⟨fun b' => ?_, hflow.held, hflow.tickets, hflow.texts, hflow.clients, hflow.returned⟩
      allocated := hallocated, bounded := hi, torn := ?_, spent := fun he => absurd hnil he
      stopped := .inr (.inl hdone), joined := fun _ => hdone, drained := hdrained }
    · have hold := hflow.places b'
      simp only [OwnerPc.hand, hfree, List.count_append, List.count_cons, List.count_nil,
        LogState.clientHands] at hold ⊢
      omega
    · rw [List.length_append, List.length_singleton, Nat.add_right_comm, htorn]
      rfl

theorem Inv.afterShutdown (h : Inv n s) (hdone : s.writer = .done) (d : Bool)
    (hhand : s.owner.hand = []) (hunwritten : s.owner.unwritten = []) (hallocated : s.owner.allocated n = n)
    (htorn : s.owner.torn n = 0) : Inv n { s with owner := afterShutdown d } := by
  refine h.owner_quiet ?_ ?_ ?_ ?_ ?_ (.inr (.inl hdone)) (fun _ => hdone) ?_
  · cases d <;> exact hhand.symm
  · cases d <;> exact hunwritten.symm
  · cases d <;> exact hallocated.symm
  · cases d <;> trivial
  · cases d <;> exact htorn.symm
  · cases d <;> exact nofun

theorem Inv.owner (h : Inv n s) {count : Nat} (hstep : ownerStep n s count = some s') : Inv n s' := by
  have hstopped := h.stopped
  cases hpc : s.owner with
  | create i =>
    simp only [ownerStep, hpc] at hstep
    split at hstep
    · next hi =>
      cases hstep
      exact h.owner_create hpc hi _
    · next hi =>
      cases hstep
      have hbounded := h.bounded
      rw [hpc] at hbounded hstopped
      obtain rfl : i = n := Nat.le_antisymm hbounded (Nat.not_lt.mp hi)
      exact h.owner_quiet (by rw [hpc]; rfl) (by rw [hpc]; rfl) (by rw [hpc]; rfl) trivial (by rw [hpc]; rfl)
        hstopped nofun nofun
  | createPush i b =>
    obtain ⟨hroom, hinv⟩ := h.owner_createPush hpc
    simp only [ownerStep, hpc, if_neg hroom] at hstep
    cases hstep
    exact hinv
  | ready | destroyed =>
    simp only [ownerStep, hpc] at hstep
    cases hstep
  | exchange d =>
    simp only [ownerStep, hpc] at hstep
    split at hstep
    · cases hstep
      exact h.owner_quiet (by rw [hpc]; rfl) (by rw [hpc]; rfl) (by rw [hpc]; rfl) trivial (by rw [hpc]; rfl)
        (.inr (.inr rfl)) nofun nofun
    · next hrunning =>
      cases hstep
      rw [hpc] at hstopped
      have hdone : s.writer = .done := by simpa [hrunning, OwnerPc.stopping] using hstopped
      exact h.afterShutdown hdone d (by rw [hpc]; rfl) (by rw [hpc]; rfl) (by rw [hpc]; rfl) (by rw [hpc]; rfl)
  | notify d =>
    simp only [ownerStep, hpc] at hstep
    cases hstep
    exact h.owner_quiet (by rw [hpc]; rfl) (by rw [hpc]; rfl) (by rw [hpc]; rfl) trivial (by rw [hpc]; rfl)
      (.inr (.inr rfl)) nofun nofun
  | join d =>
    simp only [ownerStep, hpc] at hstep
    split at hstep
    · next hdone =>
      cases hstep
      exact h.afterShutdown hdone d (by rw [hpc]; rfl) (by rw [hpc]; rfl) (by rw [hpc]; rfl) (by rw [hpc]; rfl)
    · cases hstep
  | drain pc =>
    obtain ⟨t, next, heq, hinv⟩ := h.owner_drain hpc count
    simp only [ownerStep, hpc, heq] at hstep
    cases next <;> cases hstep <;> exact hinv
  | delete i =>
    have hdone : s.writer = .done := h.joined (by rw [hpc]; rfl)
    simp only [ownerStep, hpc] at hstep
    split at hstep
    · next hi =>
      obtain ⟨hempty, hpop⟩ := h.owner_delete hpc hi
      split at hstep
      · next hfree =>
        cases hstep
        exact hempty hfree
      · next b free hfree =>
        cases hstep
        exact hpop b free hfree
    · next hi =>
      cases hstep
      have hbounded := h.bounded
      rw [hpc] at hbounded
      obtain rfl : i = n := Nat.le_antisymm hbounded (Nat.not_lt.mp hi)
      exact h.owner_quiet (by rw [hpc]; rfl) (by rw [hpc]; rfl) (by rw [hpc]; rfl) trivial (by rw [hpc]; rfl)
        (.inr (.inl hdone)) (fun _ => hdone) (fun _ => by rw [hpc]; rfl)
  | close =>
    have hdone : s.writer = .done := h.joined (by rw [hpc]; rfl)
    simp only [ownerStep, hpc] at hstep
    cases hstep
    exact h.owner_quiet (by rw [hpc]; rfl) (by rw [hpc]; rfl) (by rw [hpc]; rfl) trivial (by rw [hpc]; rfl)
      (.inr (.inl hdone)) (fun _ => hdone) (fun _ => by rw [hpc]; rfl)

theorem Inv.shutdown (h : Inv n s) (hpc : s.owner = .ready) (d : Bool) :
    Inv n { s with owner := .exchange d } := by
  have hstopped := h.stopped
  rw [hpc] at hstopped
  exact h.owner_quiet (by rw [hpc]; rfl) (by rw [hpc]; rfl) (by rw [hpc]; rfl) trivial (by rw [hpc]; rfl)
    hstopped nofun nofun

theorem Inv.step {numClients : Nat} {a : LogAct} (h : Inv n s)
    (hstep : (logMachine n numClients).step s a = some s') : Inv n s' := by
  cases a with
  | call i time message =>
    simp only [logMachine] at hstep
    split_ifs at hstep with hdestroyed hi
    cases hstep
    exact h.call hi time message
  | client i =>
    simp only [logMachine] at hstep
    split_ifs at hstep with hdestroyed
    split at hstep
    · cases hstep
    · next pc hi =>
      split at hstep
      · cases hstep
      · next t pc' hclient =>
        cases hstep
        exact h.client hi hclient
  | writer count => exact h.writer hstep
  | owner count => exact h.owner hstep
  | shutdown =>
    simp only [logMachine] at hstep
    split_ifs at hstep with hpc
    cases hstep
    exact h.shutdown hpc false
  | destroy =>
    simp only [logMachine] at hstep
    split_ifs at hstep with hpc
    cases hstep
    exact { h.shutdown hpc true with before := List.Subset.refl _, drained := nofun, flow := { (h.shutdown hpc true).flow with } }

theorem inv_of_reaches {numClients : Nat} {ok : LogState → LogAct → Prop}
    (h : (logMachine n numClients).Reaches ok s) : Inv n s := by
  refine h.invariant ?_ fun _ _ _ hinv _ hstep => hinv.step hstep
  rintro s rfl
  have hhands : ((List.replicate numClients ClientPc.idle).flatMap ClientPc.hand) = [] := by
    simp [ClientPc.hand]
  have hunpushed : ((List.replicate numClients ClientPc.idle).flatMap ClientPc.unpushed) = [] := by
    simp [ClientPc.unpushed]
  refine ⟨⟨fun b => ?_, List.Subset.refl _, fun t => ?_, rfl, fun pc hpc => ?_, List.Subset.refl _⟩, rfl,
    Nat.zero_le n, rfl, by simp [logStart], fun h => absurd rfl h, .inl rfl, by simp [logStart, OwnerPc.joined],
    List.Subset.refl _, by simp [logStart, OwnerPc.drained]⟩
  · simp [logStart, LogState.clientHands, hhands, WriterPc.hand, OwnerPc.hand]
  · simp [logStart, hunpushed]
  · obtain rfl := List.eq_of_mem_replicate hpc
    trivial

theorem Inv.drained_of_errors (h : Inv n s) (he : s.errors ≠ []) : s.owner.drained = true := by
  cases hd : s.owner.drained with
  | true => rfl
  | false => exact absurd (h.errors_eq_nil hd) he

/-- The buffers that the threads in `log` keep from `delete_buffers`, once it has missed one. -/
theorem Inv.overtaken (h : Inv n s) (he : s.errors ≠ []) : s.inuse ≠ [] ∨ s.clientHands ≠ [] := by
  have hdrained := h.drained_of_errors he
  have hlength := h.flow.length_eq
  have htorn := h.torn
  have hle : s.owner.torn n ≤ n ∧ s.owner.allocated n = n ∧ s.owner.joined = true ∧ s.owner.hand = [] := by
    have hbounded := h.bounded
    cases hpc : s.owner with
    | delete i => exact ⟨by rw [hpc] at hbounded; exact hbounded, rfl, rfl, rfl⟩
    | close | destroyed => exact ⟨le_rfl, rfl, rfl, rfl⟩
    | drain pc =>
      rw [hpc] at htorn
      exact absurd (List.length_eq_zero_iff.mp (Nat.eq_zero_of_add_eq_zero_left htorn)) he
    | _ => rw [hpc] at hdrained; cases hdrained
  obtain ⟨hbound, hallocated, hjoined, hhand⟩ := hle
  have hpos : 0 < s.errors.length := List.length_pos_iff.mpr he
  rw [h.allocated, hallocated, h.joined hjoined, hhand, h.spent he] at hlength
  simp only [WriterPc.hand, List.append_nil, List.length_nil] at hlength
  by_contra hnone
  obtain ⟨hinuse, hhands⟩ := not_or.mp hnone
  rw [not_not] at hinuse hhands
  rw [hinuse, hhands, List.length_nil] at hlength
  omega

end Inv

/-- No client is in `log` when the destructor is called, and none calls `log` after that. -/
def ClientsJoined (s : LogState) : LogAct → Prop
  | .call _ _ _ => s.owner.destroying = false
  | .destroy => ∀ pc ∈ s.clients, pc = .idle
  | _ => True

/-- The clients are out of `log` from the call of the destructor on. -/
structure Quiet (s : LogState) : Prop where
  idle : s.owner.destroying = true → ∀ pc ∈ s.clients, pc = .idle
  empty : s.owner.drained = true → s.inuse = []

section Quiet
variable {n numClients : Nat} {s s' : LogState}

theorem OwnerPc.destroying_of_drained {pc : OwnerPc} (h : pc.drained = true) : pc.destroying = true := by
  cases pc with
  | drain pc | delete i | close | destroyed => rfl
  | _ => cases h

theorem writeLogsStep_clients (pc : WriteLogs) (count : Nat) :
    (writeLogsStep n s count pc).1.clients = s.clients ∧ (writeLogsStep n s count pc).1.owner = s.owner := by
  cases pc with
  | pop =>
    simp only [writeLogsStep]
    split <;> exact ⟨rfl, rfl⟩
  | write b | flush => exact ⟨rfl, rfl⟩
  | push b =>
    simp only [writeLogsStep]
    split <;> exact ⟨rfl, rfl⟩

/-- `write_logs` ends after it has found the queue of messages empty. -/
theorem writeLogsStep_ends {pc : WriteLogs} {next : Option WriteLogs} {count : Nat}
    (h : writeLogsStep n s count pc = (s', next)) (hnext : next = some .flush ∨ next = none) :
    s' = s ∧ (pc = .flush ∨ s.inuse = []) := by
  cases pc with
  | pop =>
    simp only [writeLogsStep] at h
    split at h
    · next hinuse =>
      cases h
      exact ⟨rfl, .inr hinuse⟩
    · cases h
      simp at hnext
  | write b =>
    cases h
    simp at hnext
  | push b =>
    simp only [writeLogsStep] at h
    split at h <;> cases h <;> simp at hnext
  | flush =>
    cases h
    exact ⟨rfl, .inl rfl⟩

theorem writerStep_clients {count : Nat} (hstep : writerStep n s count = some s') :
    s'.clients = s.clients ∧ s'.owner = s.owner ∧ s.writer ≠ .done := by
  cases hw : s.writer with
  | logs pc =>
    obtain ⟨hclients, howner⟩ := writeLogsStep_clients (n := n) (s := s) pc count
    simp only [writerStep, hw] at hstep
    split at hstep <;> next t _ heq =>
      cases hstep
      rw [heq] at hclients howner
      exact ⟨hclients, howner, nofun⟩
  | lock | waiting =>
    simp only [writerStep, hw] at hstep
    split at hstep
    · cases hstep
    · cases hstep
      exact ⟨rfl, rfl, nofun⟩
  | exchange =>
    simp only [writerStep, hw] at hstep
    split at hstep <;> cases hstep <;> exact ⟨rfl, rfl, nofun⟩
  | test | locked | unlock | notifyAll =>
    simp only [writerStep, hw] at hstep
    cases hstep
    exact ⟨rfl, rfl, nofun⟩
  | done =>
    simp only [writerStep, hw] at hstep
    cases hstep

/-- What a step of the owner leaves to the clients. -/
theorem ownerStep_clients {count : Nat} (hstep : ownerStep n s count = some s') :
    s'.clients = s.clients ∧ s'.owner.destroying = s.owner.destroying ∧
      (s'.owner.drained = true → s'.inuse = s.inuse ∧ (s.owner.drained = true ∨ s.inuse = [])) := by
  cases hpc : s.owner with
  | create i | createPush i b =>
    simp only [ownerStep, hpc] at hstep
    split at hstep <;> cases hstep <;> exact ⟨rfl, rfl, nofun⟩
  | ready | destroyed =>
    simp only [ownerStep, hpc] at hstep
    cases hstep
  | exchange d =>
    simp only [ownerStep, hpc] at hstep
    split at hstep <;> cases hstep <;> cases d <;> exact ⟨rfl, rfl, nofun⟩
  | notify d =>
    simp only [ownerStep, hpc] at hstep
    cases hstep
    exact ⟨rfl, rfl, nofun⟩
  | join d =>
    simp only [ownerStep, hpc] at hstep
    split at hstep
    · cases hstep
      cases d <;> exact ⟨rfl, rfl, nofun⟩
    · cases hstep
  | drain pc =>
    obtain ⟨hclients, -⟩ := writeLogsStep_clients (n := n) (s := s) pc count
    simp only [ownerStep, hpc] at hstep
    split at hstep
    · next t pc' heq =>
      cases hstep
      rw [heq] at hclients
      refine ⟨hclients, rfl, fun hd => ?_⟩
      cases pc' with
      | flush =>
        obtain ⟨rfl, rfl | hinuse⟩ := writeLogsStep_ends heq (.inl rfl)
        · exact ⟨rfl, .inl rfl⟩
        · exact ⟨rfl, .inr hinuse⟩
      | _ => cases hd
    · next t heq =>
      cases hstep
      rw [heq] at hclients
      refine ⟨hclients, rfl, fun _ => ?_⟩
      obtain ⟨rfl, rfl | hinuse⟩ := writeLogsStep_ends heq (.inr rfl)
      · exact ⟨rfl, .inl rfl⟩
      · exact ⟨rfl, .inr hinuse⟩
  | delete i =>
    simp only [ownerStep, hpc] at hstep
    split at hstep
    · split at hstep <;> cases hstep <;> exact ⟨rfl, rfl, fun _ => ⟨rfl, .inl rfl⟩⟩
    · cases hstep
      exact ⟨rfl, rfl, fun _ => ⟨rfl, .inl rfl⟩⟩
  | close =>
    simp only [ownerStep, hpc] at hstep
    cases hstep
    exact ⟨rfl, rfl, fun _ => ⟨rfl, .inl rfl⟩⟩

theorem Quiet.step {a : LogAct} (h : Quiet s) (hinv : Inv n s) (hok : ClientsJoined s a)
    (hstep : (logMachine n numClients).step s a = some s') : Quiet s' := by
  cases a with
  | call i time message =>
    simp only [logMachine] at hstep
    split_ifs at hstep with hdestroyed hi
    cases hstep
    refine ⟨fun hd => ?_, h.empty⟩
    rw [show s.owner.destroying = false from hok] at hd
    cases hd
  | client i =>
    simp only [logMachine] at hstep
    split_ifs at hstep with hdestroyed
    split at hstep
    · cases hstep
    · next pc hi =>
      split at hstep
      · cases hstep
      · next t pc' hclient =>
        cases hstep
        have hframe := hinv.flow.clientFrame hi hinv.length_le hclient
        -- a client that takes a step is in `log`
        have hnot : s.owner.destroying ≠ true := by
          intro hd
          obtain rfl := h.idle hd pc (List.mem_of_getElem? hi)
          cases hclient
        refine ⟨fun hd => absurd (hframe.owner ▸ hd) hnot, fun hd => ?_⟩
        exact absurd (OwnerPc.destroying_of_drained (hframe.owner ▸ hd)) hnot
  | writer count =>
    obtain ⟨hclients, howner, hdone⟩ := writerStep_clients hstep
    refine ⟨by rw [hclients, howner]; exact h.idle, fun hd => ?_⟩
    have hjoined := OwnerPc.drained_eq_false (hinv.joined_eq_false hdone)
    rw [howner, hjoined] at hd
    cases hd
  | owner count =>
    obtain ⟨hclients, hdestroying, hdrained⟩ := ownerStep_clients hstep
    refine ⟨by rw [hclients, hdestroying]; exact h.idle, fun hd => ?_⟩
    obtain ⟨hinuse, hbefore | hempty⟩ := hdrained hd
    · exact hinuse.trans (h.empty hbefore)
    · exact hinuse.trans hempty
  | shutdown =>
    simp only [logMachine] at hstep
    split_ifs at hstep with hpc
    cases hstep
    exact ⟨nofun, nofun⟩
  | destroy =>
    simp only [logMachine] at hstep
    split_ifs at hstep with hpc
    cases hstep
    exact ⟨fun _ => hok, nofun⟩

theorem quiet_of_reaches (h : (logMachine n numClients).Reaches ClientsJoined s) : Quiet s := by
  have hboth : Inv n s ∧ Quiet s := by
    induction h with
    | start hs =>
      refine ⟨inv_of_reaches (show (logMachine n numClients).Reaches ClientsJoined _ from .start hs), ?_⟩
      obtain rfl := hs
      exact ⟨nofun, nofun⟩
    | next hreach hok hstep ih => exact ⟨ih.1.step hstep, ih.2.step ih.1 hok hstep⟩
  exact hboth.2

end Quiet

/-- What holds of a logger with `n` buffers at any moment of any run. -/
structure Conserves (n : Nat) (s : LogState) : Prop where
  /-- Every buffer created so far is in exactly one place, and no more than `n` are created. -/
  places : s.places.Perm (List.range s.memory.length) ∧ s.memory.length ≤ n
  /-- No push fails and no write does. -/
  errors : ∀ e ∈ s.errors, e = .deleting
  /-- No message is pushed twice, and they are written in the order of the pushes. -/
  written : (s.pushed.map LogCall.ticket).Nodup ∧ s.written = (s.pushed.take s.written.length).map LogCall.cut
  /-- The message of a call that has returned is pushed, and it is written when the destructor returns
  if the call had returned when the destructor was called. -/
  returned : s.returned ⊆ s.pushed ∧
    (s.owner = .destroyed → ∀ call ∈ s.returnedBefore, call ∈ s.pushed.take s.written.length)
  /-- When the destructor returns, every buffer is deleted but those of the `log` calls that it has
  overtaken; `delete_buffers` reports an error just when there are such buffers. -/
  deleted : s.owner = .destroyed → (s.deleted ++ (s.inuse ++ s.clientHands)).Perm (List.range n) ∧
    (s.errors ≠ [] ↔ s.inuse ++ s.clientHands ≠ [])

theorem Inv.conserves {n : Nat} {s : LogState} (h : Inv n s) : Conserves n s := by
  have hplaces : s.places.Perm (List.range s.memory.length) := by
    rw [List.perm_iff_count]
    intro b
    have hcount := h.flow.perm.count_eq b
    rw [← hcount]
    simp only [LogState.places, List.count_append]
    omega
  refine ⟨⟨hplaces, h.length_le⟩, h.errors, ⟨?_, ?_⟩, ⟨h.flow.returned, fun hpc => ?_⟩, fun hpc => ?_⟩
  · rw [List.nodup_iff_count]
    intro t
    have hcount := h.flow.tickets t
    split_ifs at hcount <;> omega
  · have htexts := h.flow.texts
    have hprefix : s.written <+: s.pushed.map LogCall.cut := ⟨_, htexts⟩
    rw [List.map_take]
    exact List.prefix_iff_eq_take.mp hprefix
  · exact h.drained (by rw [hpc]; rfl)
  · have hlength := h.flow.length_eq
    have htorn := h.torn
    have hallocated := h.allocated
    have hdone : s.writer = .done := h.joined (by rw [hpc]; rfl)
    have hperm := h.flow.perm
    rw [hpc] at hallocated htorn
    rw [hpc, hdone, hallocated] at hperm hlength
    simp only [OwnerPc.allocated, OwnerPc.torn, OwnerPc.hand, WriterPc.hand, List.append_nil,
      List.length_nil] at hperm hlength htorn
    -- a pop of `delete_buffers` has failed for each buffer that is not deleted, and none is left free
    have hfree : s.free = [] := by
      by_cases he : s.errors = []
      · rw [he, List.length_nil] at htorn
        rw [← List.length_eq_zero_iff]
        omega
      · exact h.spent he
    rw [hfree] at hperm hlength
    refine ⟨(List.perm_append_comm).trans hperm, ?_⟩
    rw [ne_eq, ne_eq, not_iff_not, ← List.length_eq_zero_iff, ← List.length_eq_zero_iff, List.length_append]
    simp only [List.length_nil] at hlength
    omega

theorem Quiet.clientHands_eq_nil {s : LogState} (h : Quiet s) (hd : s.owner.drained = true) :
    s.clientHands = [] := by
  rw [LogState.clientHands, List.flatMap_eq_nil_iff]
  intro pc hpc
  obtain rfl := h.idle (OwnerPc.destroying_of_drained hd) pc hpc
  rfl

/-- With any number of clients and in any order of steps the logger conserves its buffers and writes
the messages in order. It deletes every buffer, without an error, when no call of `log` is under way
from the call of the destructor on. -/
theorem logThread_conserves {n numClients : Nat} {s : LogState}
    (h : (logMachine n numClients).Reaches (fun _ _ => True) s) :
    Conserves n s ∧ ((logMachine n numClients).Reaches ClientsJoined s → s.errors = [] ∧
      (s.owner = .destroyed → s.deleted.Perm (List.range n) ∧ s.written = s.pushed.map LogCall.cut)) := by
  have hinv := inv_of_reaches h
  have hconserves := hinv.conserves
  refine ⟨hconserves, fun hjoined => ?_⟩
  have hquiet := quiet_of_reaches hjoined
  have herrors : s.errors = [] := by
    by_contra he
    have hdrained := hinv.drained_of_errors he
    obtain hinuse | hhands := hinv.overtaken he
    · exact hinuse (hquiet.empty hdrained)
    · exact hhands (hquiet.clientHands_eq_nil hdrained)
  refine ⟨herrors, fun hpc => ?_⟩
  have hdrained : s.owner.drained = true := by rw [hpc]; rfl
  obtain ⟨hperm, -⟩ := hconserves.deleted hpc
  have htexts := hinv.flow.texts
  have hinuse := hquiet.empty hdrained
  have hdone : s.writer = .done := hinv.joined (by rw [hpc]; rfl)
  constructor
  · rwa [hinuse, hquiet.clientHands_eq_nil hdrained, List.append_nil, List.append_nil] at hperm
  · rw [hinuse, hpc, hdone] at htexts
    simpa [WriterPc.unwritten, OwnerPc.unwritten] using htexts

instance (s : LogState) (a : LogAct) : Decidable (ClientsJoined s a) :=
  match a with
  | .call _ _ _ => decEq s.owner.destroying false
  | .destroy => List.decidableBAll (· = ClientPc.idle) s.clients
  | .client _ => .isTrue trivial
  | .writer _ => .isTrue trivial
  | .owner _ => .isTrue trivial
  | .shutdown => .isTrue trivial

/-- Two buffers and two clients: the writer writes one message while it runs, the destructor the
other. -/
def twoMessages : List LogAct :=
  List.flatten [
    List.replicate 5 (.owner 0), [.call 0 7 [104, 105], .call 1 7 [111, 107]],
    List.replicate 4 (.client 1), List.replicate 8 (.writer 2), List.replicate 4 (.client 0),
    [.destroy, .owner 0], List.replicate 4 (.writer 0), List.replicate 11 (.owner 2)]

/-- The run ends with both messages written and both buffers deleted. -/
theorem logThread_conserves_twoMessages :
    ∃ s, (logMachine 2 2).Reaches ClientsJoined s ∧ s.owner = .destroyed ∧
      s.written = [[111, 107], [104, 105]] ∧ Conserves 2 s ∧ s.errors = [] ∧
      s.deleted.Perm (List.range 2) ∧ s.written = s.pushed.map LogCall.cut := by
  have hend : (((logMachine 2 2).guard ClientsJoined).run (logStart 2) twoMessages).map
      (fun s => (s.owner, s.written)) = some (.destroyed, [[111, 107], [104, 105]]) := by decide +kernel
  have hstart : (logMachine 2 2).Reaches ClientsJoined (logStart 2) := .start rfl
  obtain ⟨s, hreach, hstate⟩ := hstart.exists_of_guard_run hend
  obtain ⟨howner, hwritten⟩ := Prod.mk.inj hstate
  obtain ⟨hconserves, hjoined⟩ := logThread_conserves (hreach.mono fun _ _ _ => trivial)
  obtain ⟨herrors, hdestroyed⟩ := hjoined hreach
  exact ⟨s, hreach, howner, hwritten, hconserves, herrors, hdestroyed howner⟩

/-- One buffer, which a client has taken when the destructor is called. -/
def overtakenCall : List LogAct :=
  List.flatten [
    List.replicate 3 (.owner 0), [.call 0 7 [104, 105], .client 0, .destroy, .owner 0, .owner 0, .writer 0],
    List.replicate 6 (.owner 0)]

/-- `delete_buffers` does not find the buffer and reports an error. -/
theorem deleteBuffers_overtaken :
    ∃ s, (logMachine 1 1).Reaches (fun _ _ => True) s ∧ s.owner = .destroyed ∧ s.errors = [.deleting] ∧
      s.deleted = [] ∧ s.clients = [.copy ⟨0, 7, [104, 105]⟩ 0] := by
  have hend : ((logMachine 1 1).run (logStart 1) overtakenCall).map
      (fun s => (s.owner, s.errors, s.deleted, s.clients)) =
        some (.destroyed, [.deleting], [], [.copy ⟨0, 7, [104, 105]⟩ 0]) := by decide +kernel
  obtain ⟨s, hrun, hstate⟩ := Option.map_eq_some_iff.mp hend
  simp only [Prod.mk.injEq] at hstate
  exact ⟨s, Machine.Reaches.of_run (.start rfl) (fun _ _ _ => trivial) hrun, hstate⟩

end Latypus.Log
