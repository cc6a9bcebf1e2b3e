import Latypus.Lib.Threads
import Latypus.Log.LogThread

/-! Where the buffers and the messages of a `log_thread` are. Every buffer created is in one place,
so a queue that has room for all of them never refuses one, and the text of a buffer stays
as it is from the push of its message until it is written. What the threads other than the clients
hold is a parameter of the central invariant: `write_logs` is run by the writer and by the
destructor. -/

namespace Latypus.Log
open Lib Http

def ClientPc.hand : ClientPc → List Nat
  | copy _ buffer | push _ buffer => [buffer]
  | _ => []

/-- The ticket of a client whose message is not pushed yet. -/
def ClientPc.unpushed : ClientPc → List Nat
  | idle | notify _ => []
  | retry call | stall call | locked call | stored call | waiting call | woken call => [call.ticket]
  | copy call _ | push call _ => [call.ticket]

def WriteLogs.hand : WriteLogs → List Nat
  | write buffer | push buffer => [buffer]
  | _ => []

def WriteLogs.unwritten : WriteLogs → List Nat
  | write buffer => [buffer]
  | _ => []

def WriterPc.hand : WriterPc → List Nat
  | logs pc => pc.hand
  | _ => []

def WriterPc.unwritten : WriterPc → List Nat
  | logs pc => pc.unwritten
  | _ => []

def OwnerPc.hand : OwnerPc → List Nat
  | createPush _ buffer => [buffer]
  | drain pc => pc.hand
  | _ => []

def OwnerPc.unwritten : OwnerPc → List Nat
  | drain pc => pc.unwritten
  | _ => []

/-- What the client threads have in their hands. -/
def LogState.clientHands (s : LogState) : List Nat := s.clients.flatMap ClientPc.hand

/-- The places where a buffer can be, each with the buffers that are there. -/
def LogState.places (s : LogState) : List Nat :=
  s.free ++ s.inuse ++ s.clientHands ++ s.writer.hand ++ s.owner.hand ++ s.deleted

theorem cString_append_zero {w rest : Bytes} (hw : 0 ∉ w) : cString (w ++ 0 :: rest) = w := by
  rw [cString, List.takeWhile_append_of_pos]
  · simp
  · intro c hc
    simp only [ne_eq, decide_eq_true_eq]
    rintro rfl
    exact hw hc

theorem zero_notMem_cString (w : Bytes) : 0 ∉ cString w := by
  intro hmem
  simpa using List.mem_takeWhile_imp hmem

/-- A buffer that `log` has filled reads as the message, cut to the size of the buffer. -/
theorem cString_strncpy (call : LogCall) :
    cString (strncpy call.message (logBufferSize - 1) ++ [0]) = call.cut := by
  have hcut : 0 ∉ call.cut := fun hmem => zero_notMem_cString _ (List.mem_of_mem_take hmem)
  have hzeros : ∀ k, List.replicate k (0 : UInt8) ++ [0] = 0 :: List.replicate k 0 := by
    intro k
    rw [← List.replicate_succ', List.replicate_succ]
  rw [strncpy, List.append_assoc, hzeros]
  exact cString_append_zero hcut

/-- What a client in `log` has established. -/
def ClientOk (s : LogState) : ClientPc → Prop
  | .push call buffer => s.text buffer = call.cut
  | .notify call => call ∈ s.pushed
  | _ => True

/-- The buffers and the messages, when the writer and the owner hold `hand` and have yet to write
the texts of `unwritten`. -/
structure Flow (s : LogState) (hand unwritten : List Nat) : Prop where
  places : ∀ b, s.free.count b + s.inuse.count b + s.clientHands.count b + hand.count b +
    s.deleted.count b = if b < s.memory.length then 1 else 0
  held : unwritten ⊆ hand
  tickets : ∀ t, (s.pushed.map LogCall.ticket).count t +
    (s.clients.flatMap ClientPc.unpushed).count t = if t < s.calls then 1 else 0
  texts : s.written ++ (unwritten ++ s.inuse).map s.text = s.pushed.map LogCall.cut
  clients : ∀ pc ∈ s.clients, ClientOk s pc
  returned : s.returned ⊆ s.pushed

section Flow
variable {n i : Nat} {s s' : LogState} {pc pc' : ClientPc} {hand unwritten rest : List Nat}

theorem Flow.perm (h : Flow s hand unwritten) :
    (s.free ++ s.inuse ++ s.clientHands ++ hand ++ s.deleted).Perm (List.range s.memory.length) := by
  rw [List.perm_iff_count]
  intro b
  simp only [List.count_append, h.places b, List.count_range]

theorem Flow.length_eq (h : Flow s hand unwritten) :
    s.free.length + s.inuse.length + s.clientHands.length + hand.length + s.deleted.length =
      s.memory.length := by
  simpa only [List.length_append, List.length_range] using h.perm.length_eq

theorem mem_clientHands (hi : s.clients[i]? = some pc) {b : Nat} (hb : b ∈ pc.hand) : b ∈ s.clientHands :=
  List.mem_flatMap.mpr ⟨pc, List.mem_of_getElem? hi, hb⟩

/-- What a step of a client does. -/
theorem clientStep_cases (h : clientStep n s pc = some (s', pc')) :
    (∃ mutex waiting, s' = { s with logMutex := mutex, writerWaiting := waiting } ∧
      pc'.hand = pc.hand ∧ pc'.unpushed = pc.unpushed ∧ ∀ t, ClientOk t pc') ∨
    (∃ call buffer free, s.free = buffer :: free ∧ pc = .retry call ∧ s' = { s with free } ∧
      pc' = .copy call buffer) ∨
    (∃ call buffer, pc = .copy call buffer ∧ pc' = .push call buffer ∧ s' = { s with
      memory := s.memory.set buffer (strncpy call.message (logBufferSize - 1) ++ [0]) }) ∨
    (∃ call buffer, pc = .push call buffer ∧ s.inuse.length = n) ∨
    (∃ call buffer, pc = .push call buffer ∧ s.inuse.length ≠ n ∧ pc' = .notify call ∧
      s' = { s with inuse := s.inuse ++ [buffer], pushed := s.pushed ++ [call] }) ∨
    (∃ call time, pc = .notify call ∧ pc' = .idle ∧
      s' = { s with lastTime := time, returned := s.returned ++ [call] }) := by
  cases pc with
  | idle => cases h
  | retry call =>
    simp only [clientStep] at h
    split at h
    · cases h
      exact .inl ⟨_, _, rfl, rfl, rfl, fun _ => trivial⟩
    · next buffer free hfree =>
      cases h
      exact .inr (.inl ⟨call, buffer, free, hfree, rfl, rfl, rfl⟩)
  | stall call | waiting call =>
    simp only [clientStep] at h
    split at h
    · cases h
    · cases h
      exact .inl ⟨_, _, rfl, rfl, rfl, fun _ => trivial⟩
  | locked call | stored call | woken call =>
    cases h
    exact .inl ⟨_, _, rfl, rfl, rfl, fun _ => trivial⟩
  | copy call buffer =>
    cases h
    exact .inr (.inr (.inl ⟨call, buffer, rfl, rfl, rfl⟩))
  | push call buffer =>
    simp only [clientStep] at h
    split at h
    · next hfull => exact .inr (.inr (.inr (.inl ⟨call, buffer, rfl, hfull⟩)))
    · next hroom =>
      cases h
      exact .inr (.inr (.inr (.inr (.inl ⟨call, buffer, rfl, hroom, rfl, rfl⟩))))
  | notify call =>
    cases h
    exact .inr (.inr (.inr (.inr (.inr ⟨call, _, rfl, rfl, rfl⟩))))

/-- What the buffers and the tickets of the clients count up to after a client has gone on. -/
theorem count_clientHands_set (pc' : ClientPc) (hi : s.clients[i]? = some pc) (b : Nat) :
    ((s.clients.set i pc').flatMap ClientPc.hand).count b + pc.hand.count b =
      s.clientHands.count b + pc'.hand.count b :=
  count_flatMap_set_add hi b

theorem count_unpushed_set (pc' : ClientPc) (hi : s.clients[i]? = some pc) (t : Nat) :
    ((s.clients.set i pc').flatMap ClientPc.unpushed).count t + pc.unpushed.count t =
      (s.clients.flatMap ClientPc.unpushed).count t + pc'.unpushed.count t :=
  count_flatMap_set_add hi t

theorem forall_clients_set {P : ClientPc → Prop} (h : ∀ pc ∈ s.clients, P pc) (hpc : P pc') :
    ∀ pc ∈ s.clients.set i pc', P pc := by
  intro q hq
  obtain hq | rfl := List.mem_or_eq_of_mem_set hq
  · exact h q hq
  · exact hpc

theorem Flow.places_set (h : Flow s hand unwritten) (hi : s.clients[i]? = some pc) (heq : pc'.hand = pc.hand)
    (b : Nat) : s.free.count b + s.inuse.count b + ((s.clients.set i pc').flatMap ClientPc.hand).count b +
      hand.count b + s.deleted.count b = if b < s.memory.length then 1 else 0 := by
  have hcount := count_clientHands_set pc' hi b
  rw [heq] at hcount
  rw [← h.places b]
  omega

theorem Flow.tickets_set (h : Flow s hand unwritten) (hi : s.clients[i]? = some pc)
    (heq : pc'.unpushed = pc.unpushed) (t : Nat) : (s.pushed.map LogCall.ticket).count t +
      ((s.clients.set i pc').flatMap ClientPc.unpushed).count t = if t < s.calls then 1 else 0 := by
  have hcount := count_unpushed_set pc' hi t
  rw [heq] at hcount
  rw [← h.tickets t]
  omega

theorem Flow.call (h : Flow s hand unwritten) (hi : s.clients[i]? = some .idle) (time : Int) (message : Bytes) :
    Flow { s with clients := s.clients.set i (.retry ⟨s.calls, time, message⟩), calls := s.calls + 1 }
      hand unwritten := by
  refine ⟨h.places_set hi rfl, h.held, fun t => ?_, h.texts, forall_clients_set h.clients trivial, h.returned⟩
  have hcount := count_unpushed_set (.retry ⟨s.calls, time, message⟩) hi t
  have hold := h.tickets t
  simp only [ClientPc.unpushed, List.count_nil, List.count_singleton, beq_iff_eq] at hcount
  dsimp only
  split_ifs at hold hcount ⊢ <;> omega

/-- No other place has the buffer that a client holds. -/
theorem Flow.exclusive (h : Flow s hand unwritten) (hi : s.clients[i]? = some pc) {b : Nat} (hb : b ∈ pc.hand) :
    b ∉ s.inuse ∧ b ∉ hand ∧ ∀ j q, j ≠ i → s.clients[j]? = some q → b ∉ q.hand := by
  have hcount := count_clientHands_set .idle hi b
  have hold := h.places b
  have hpos : 0 < pc.hand.count b := List.count_pos_iff.mpr hb
  have hnil : ClientPc.idle.hand.count b = 0 := rfl
  have hrest : ((s.clients.set i .idle).flatMap ClientPc.hand).count b = 0 := by split_ifs at hold <;> omega
  refine ⟨?_, ?_, fun j q hj hq hmem => ?_⟩
  · rw [← List.count_eq_zero]
    split_ifs at hold <;> omega
  · rw [← List.count_eq_zero]
    split_ifs at hold <;> omega
  · rw [List.count_eq_zero] at hrest
    refine hrest (List.mem_flatMap.mpr ⟨q, List.mem_of_getElem? (i := j) ?_, hmem⟩)
    rwa [List.getElem?_set_ne (Ne.symm hj)]

theorem LogState.text_set_ne {s : LogState} {b c : Nat} {w : Bytes} (hbc : c ≠ b) :
    LogState.text { s with memory := s.memory.set b w } c = s.text c := by
  simp only [LogState.text, List.getElem?_set_ne (Ne.symm hbc)]

theorem LogState.text_set_self {s : LogState} {b : Nat} {w : Bytes} (hb : b < s.memory.length) :
    LogState.text { s with memory := s.memory.set b w } b = cString w := by
  simp only [LogState.text, List.getElem?_set_self hb, Option.getD_some]

theorem Flow.lt_length (h : Flow s hand unwritten) {b : Nat} (hb : b ∈ s.clientHands) : b < s.memory.length := by
  have hold := h.places b
  have hpos : 0 < s.clientHands.count b := List.count_pos_iff.mpr hb
  split_ifs at hold with hlt
  · exact hlt
  · omega

/-- The queue of messages has room for the buffer that a client holds. -/
theorem Flow.inuse_ne (h : Flow s hand unwritten) (hi : s.clients[i]? = some pc) {b : Nat} (hb : b ∈ pc.hand)
    (hn : s.memory.length ≤ n) : s.inuse.length ≠ n := by
  have hlength := h.length_eq
  have hpos : 0 < s.clientHands.length := List.length_pos_of_mem (mem_clientHands hi hb)
  omega

/-- A client fills the buffer that it holds: the texts that are still to be written are others. -/
theorem Flow.copy (h : Flow s hand unwritten) {call : LogCall} {b : Nat}
    (hi : s.clients[i]? = some (.copy call b)) :
    Flow { s with
      memory := s.memory.set b (strncpy call.message (logBufferSize - 1) ++ [0])
      clients := s.clients.set i (.push call b) } hand unwritten := by
  have hmem : b ∈ (ClientPc.copy call b).hand := List.mem_singleton_self b
  obtain ⟨hinuse, hhand, hothers⟩ := h.exclusive hi hmem
  have hb : b < s.memory.length := h.lt_length (mem_clientHands hi hmem)
  refine ⟨fun b' => ?_, h.held, h.tickets_set hi rfl, ?_, fun q hq => ?_, h.returned⟩
  · rw [List.length_set]
    have hhand : (ClientPc.push call b).hand = (ClientPc.copy call b).hand := rfl
    exact h.places_set hi hhand b'
  · rw [← h.texts]
    congr 1
    refine List.map_congr_left fun c hc => LogState.text_set_ne ?_
    rintro rfl
    obtain hc | hc := List.mem_append.mp hc
    · exact hhand (h.held hc)
    · exact hinuse hc
  · obtain ⟨j, hj⟩ := List.getElem?_of_mem hq
    obtain ⟨rfl, rfl⟩ | ⟨hne, hj⟩ := getElem?_set_cases hj
    · exact (LogState.text_set_self hb).trans (cString_strncpy call)
    · have hold := h.clients q (List.mem_of_getElem? hj)
      have hother := hothers j q hne hj
      cases q with
      | push call' c =>
        refine (LogState.text_set_ne ?_).trans hold
        rintro rfl
        exact hother (List.mem_singleton_self c)
      | _ => exact hold

/-- A step of a client, when every buffer fits into the queue. -/
theorem Flow.client (h : Flow s hand unwritten) (hi : s.clients[i]? = some pc) (hn : s.memory.length ≤ n)
    (hstep : clientStep n s pc = some (s', pc')) :
    Flow { s' with clients := s'.clients.set i pc' } hand unwritten := by
  obtain ⟨mutex, waiting, rfl, hhand, hunpushed, hok⟩ | ⟨call, b, free, hfree, rfl, rfl, rfl⟩ |
    ⟨call, b, rfl, rfl, rfl⟩ | ⟨call, b, rfl, hfull⟩ | ⟨call, b, rfl, -, rfl, rfl⟩ |
    ⟨call, time, rfl, rfl, rfl⟩ := clientStep_cases hstep
  · exact ⟨h.places_set hi hhand, h.held, h.tickets_set hi hunpushed, h.texts,
      forall_clients_set h.clients (hok s), h.returned⟩
  · refine ⟨fun b' => ?_, h.held, h.tickets_set hi rfl, h.texts, forall_clients_set h.clients trivial,
      h.returned⟩
    have hcount := count_clientHands_set (.copy call b) hi b'
    have hold := h.places b'
    simp only [ClientPc.hand, List.count_nil, Nat.add_zero] at hcount
    simp only [LogState.clientHands, hfree, List.count_cons, List.count_nil] at hold hcount ⊢
    omega
  · exact h.copy hi
  · exact absurd hfull (h.inuse_ne hi (List.mem_singleton_self b) hn)
  · refine ⟨fun b' => ?_, h.held, fun t => ?_, ?_, ?_, fun c hc => List.mem_append_left _ (h.returned hc)⟩
    · have hcount := count_clientHands_set (.notify call) hi b'
      have hold := h.places b'
      simp only [ClientPc.hand, List.count_nil, Nat.add_zero] at hcount
      simp only [LogState.clientHands, List.count_append] at hold hcount ⊢
      omega
    · have hcount := count_unpushed_set (.notify call) hi t
      have hold := h.tickets t
      simp only [ClientPc.unpushed, List.count_nil, Nat.add_zero] at hcount
      simp only [List.map_append, List.map_cons, List.map_nil, List.count_append]
      omega
    · have htext : s.text b = call.cut := h.clients _ (List.mem_of_getElem? hi)
      have htexts := h.texts
      calc s.written ++ (unwritten ++ (s.inuse ++ [b])).map s.text
          = (s.written ++ (unwritten ++ s.inuse).map s.text) ++ [s.text b] := by simp
        _ = (s.pushed ++ [call]).map LogCall.cut := by rw [htexts, htext, List.map_append]; rfl
    · refine forall_clients_set (fun q hq => ?_) (List.mem_append_right _ (List.mem_singleton_self call))
      have hok := h.clients q hq
      cases q with
      | notify call' => exact List.mem_append_left _ hok
      | _ => exact hok
  · refine ⟨h.places_set hi rfl, h.held, h.tickets_set hi rfl, h.texts,
      forall_clients_set h.clients trivial, List.append_subset.mpr ⟨h.returned, ?_⟩⟩
    have hpushed : call ∈ s.pushed := h.clients _ (List.mem_of_getElem? hi)
    exact List.cons_subset.mpr ⟨hpushed, List.nil_subset _⟩

/-- What no step of `write_logs` changes, `s` before and `s'` after it. -/
structure WriteFrame (s s' : LogState) : Prop where
  memory : s'.memory = s.memory
  running : s'.running = s.running
  clients : s'.clients = s.clients
  writer : s'.writer = s.writer
  owner : s'.owner = s.owner
  deleted : s'.deleted = s.deleted
  errors : s'.errors = s.errors
  pushed : s'.pushed = s.pushed
  returned : s'.returned = s.returned
  returnedBefore : s'.returnedBefore = s.returnedBefore
  written : s.written <+: s'.written

theorem WriteFrame.refl (s : LogState) : WriteFrame s s :=
  ⟨rfl, rfl, rfl, rfl, rfl, rfl, rfl, rfl, rfl, rfl, List.prefix_rfl⟩

/-- A step in `write_logs` of a thread while the other of the two holds `rest`. -/
theorem Flow.writeLogs (pc : WriteLogs) (rest : List Nat) (h : Flow s (pc.hand ++ rest) pc.unwritten)
    (hn : s.memory.length ≤ n) (count : Nat) :
    ∃ s' next, writeLogsStep n s count pc = (s', next) ∧ WriteFrame s s' ∧
      (next = some .flush → s'.inuse = []) ∧ (next = none → pc = .flush) ∧
      Flow s' ((next.elim [] WriteLogs.hand) ++ rest) (next.elim [] WriteLogs.unwritten) := by
  cases pc with
  | pop =>
    cases hinuse : s.inuse with
    | nil =>
      exact ⟨s, some .flush, by simp only [writeLogsStep, hinuse], .refl s, fun _ => hinuse, nofun, h⟩
    | cons b inuse =>
      refine ⟨{ s with inuse }, some (.write b), by simp only [writeLogsStep, hinuse], { WriteFrame.refl s with },
        nofun, nofun, fun b' => ?_, List.subset_append_left _ _, h.tickets, ?_, h.clients, h.returned⟩
      · have hold := h.places b'
        simp only [hinuse, Option.elim_some, WriteLogs.hand, List.nil_append, List.cons_append,
          List.count_cons, LogState.clientHands] at hold ⊢
        omega
      · have htexts := h.texts
        rw [hinuse] at htexts
        exact htexts
  | write b =>
    refine ⟨_, some (.push b), rfl, { WriteFrame.refl s with written := List.prefix_append _ _ }, nofun, nofun,
      h.places, List.nil_subset _, h.tickets, ?_, h.clients, h.returned⟩
    rw [← h.texts]
    exact List.append_assoc _ _ _
  | push b =>
    have hlength := h.length_eq
    simp only [WriteLogs.hand, List.cons_append, List.length_cons] at hlength
    have hroom : s.free.length ≠ n := by omega
    refine ⟨{ s with free := s.free ++ [b] }, some .pop, by simp only [writeLogsStep, if_neg hroom],
      { WriteFrame.refl s with }, nofun, nofun, fun b' => ?_, List.nil_subset _, h.tickets, h.texts, h.clients, h.returned⟩
    have hold := h.places b'
    simp only [Option.elim_some, WriteLogs.hand, List.nil_append, List.cons_append, List.count_cons,
      List.count_append, List.count_nil, LogState.clientHands] at hold ⊢
    omega
  | flush => exact ⟨s, none, rfl, .refl s, nofun, fun _ => rfl, h⟩

/-- What a step of a client leaves as it is, or only takes from or adds to. -/
structure ClientFrame (s s' : LogState) : Prop where
  length_memory : s'.memory.length = s.memory.length
  running : s'.running = s.running
  clients : s'.clients = s.clients
  writer : s'.writer = s.writer
  owner : s'.owner = s.owner
  deleted : s'.deleted = s.deleted
  errors : s'.errors = s.errors
  returnedBefore : s'.returnedBefore = s.returnedBefore
  written : s'.written = s.written
  free : s'.free <:+ s.free
  pushed : s.pushed <+: s'.pushed
  returned : s.returned <+: s'.returned

theorem ClientFrame.refl (s : LogState) : ClientFrame s s :=
  ⟨rfl, rfl, rfl, rfl, rfl, rfl, rfl, rfl, rfl, List.suffix_rfl, List.prefix_rfl, List.prefix_rfl⟩

theorem Flow.clientFrame (h : Flow s hand unwritten) (hi : s.clients[i]? = some pc) (hn : s.memory.length ≤ n)
    (hstep : clientStep n s pc = some (s', pc')) : ClientFrame s s' := by
  obtain ⟨mutex, waiting, rfl, -, -, -⟩ | ⟨call, b, free, hfree, -, rfl, -⟩ | ⟨call, b, -, -, rfl⟩ |
    ⟨call, b, rfl, hfull⟩ | ⟨call, b, -, -, -, rfl⟩ | ⟨call, time, -, -, rfl⟩ := clientStep_cases hstep
  · exact { ClientFrame.refl s with }
  · exact { ClientFrame.refl s with free := hfree ▸ List.suffix_cons b free }
  · exact { ClientFrame.refl s with length_memory := List.length_set }
  · exact absurd hfull (h.inuse_ne hi (List.mem_singleton_self b) hn)
  · exact { ClientFrame.refl s with pushed := List.prefix_append _ _ }
  · exact { ClientFrame.refl s with returned := List.prefix_append _ _ }

theorem Flow.of_mem_inuse (h : Flow s hand unwritten) {b : Nat} (hb : b ∈ unwritten ++ s.inuse) :
    b < s.memory.length := by
  have hold := h.places b
  have hpos : 0 < hand.count b ∨ 0 < s.inuse.count b := by
    obtain hb | hb := List.mem_append.mp hb
    · exact .inl (List.count_pos_iff.mpr (h.held hb))
    · exact .inr (List.count_pos_iff.mpr hb)
  split_ifs at hold with hlt
  · exact hlt
  · omega

/-- A new buffer, in the hands of the owner. -/
theorem Flow.create (h : Flow s hand unwritten) (w : Bytes) :
    Flow { s with memory := s.memory ++ [w] } (hand ++ [s.memory.length]) unwritten := by
  have htext : ∀ b, b < s.memory.length → LogState.text { s with memory := s.memory ++ [w] } b = s.text b := by
    intro b hb
    simp only [LogState.text, List.getElem?_append_left hb]
  refine ⟨fun b => ?_, List.subset_append_of_subset_left _ h.held, h.tickets, ?_, fun q hq => ?_, h.returned⟩
  · have hold := h.places b
    simp only [List.count_append, List.count_singleton, beq_iff_eq, List.length_append, List.length_singleton,
      LogState.clientHands] at hold ⊢
    split_ifs at hold ⊢ <;> omega
  · rw [← h.texts]
    congr 1
    exact List.map_congr_left fun b hb => htext b (h.of_mem_inuse hb)
  · have hold := h.clients q hq
    cases q with
    | push call b =>
      have hb : b < s.memory.length :=
        h.lt_length (List.mem_flatMap.mpr ⟨_, hq, List.mem_singleton_self b⟩)
      exact (htext b hb).trans hold
    | _ => exact hold

end Flow

end Latypus.Log
