import Latypus.Queue.Mpmc

/-! One producer and one consumer. Each side compares with an offset of the other side that it has
read at the start of its operation; that offset can only be behind, so a push that goes on has room
and a pop that goes on has an element. The versions are those of the counters whatever their
number of bits: they may wrap any number of times. -/

namespace Latypus.Queue
open Lib

namespace Params
variable (P : Params)

/-- The version after `k` operations of a side. -/
def version (k : Nat) : Nat := k % 2 ^ P.versionBits

theorem version_lt (k : Nat) : P.version k < 2 ^ P.versionBits := Nat.mod_lt _ (Nat.two_pow_pos _)

theorem nextVersion_version (k : Nat) : P.nextVersion (P.version k) = P.version (k + 1) := by
  rw [nextVersion, Nat.and_two_pow_sub_one_eq_mod, version, version, Nat.mod_add_mod]

theorem nextPack_version {k o : Nat} (ho : o + 1 < 2 ^ P.offsetBits) :
    P.nextPack (P.version k) o = P.packOffset (P.version (k + 1)) (o + 1) := by
  rw [nextPack, nextVersion_version, Nat.and_two_pow_sub_one_eq_mod, Nat.mod_eq_of_lt ho]

theorem unpackOffsets_version {k o : Nat} (ho : o < 2 ^ P.offsetBits) :
    P.unpackOffsets (P.version k) (P.packOffset (P.version k) o) = some o := by
  rw [unpackOffsets_packOffset P (P.version_lt k) ho (P.version_lt k), if_pos rfl]

end Params

variable {T : Type}

/-- The queue with what its two users have done: how many operations each side has called, and how
many elements the queue held when the push under way read `version_front`, and when the pop under
way read `version_back`. -/
structure SpscState (T : Type) where
  queue : QueueState T
  pushes : Nat
  pops : Nat
  pushHeld : Nat
  popHeld : Nat
deriving DecidableEq, Repr

/-- The producer is the first thread and the consumer the second. -/
inductive SpscAct (T : Type) where
  | callPush (elem : T)
  | produce (spurious : Bool)
  | callPop
  | consume (spurious : Bool)
deriving DecidableEq, Repr

/-- How often the loop of an operation has gone round. -/
def Pc.spin : Pc T → Nat
  | pushCounter _ _ spin | pushVersion _ _ spin _ | pushExchange _ _ spin _ _ => spin
  | popCounter _ spin | popVersion _ spin _ | popExchange _ spin _ _ => spin
  | _ => 0

def QueueState.held (s : QueueState T) : Nat := s.pushed.length - s.popped.length

variable (P : Params)

/-- The queue with one producer and one consumer. -/
def spscMachine (null : T) : Machine (SpscState T) (SpscAct T) where
  init S := S = {
    queue := {
      vec := List.replicate P.sizeLimit null
      counterBack := 0
      versionBack := P.packOffset 0 0
      counterFront := 0
      versionFront := P.packOffset 0 P.sizeLimit
      threads := [.idle, .idle]
      pushed := []
      popped := []
      calls := 0 }
    pushes := 0
    pops := 0
    pushHeld := 0
    popHeld := 0 }
  step S
    | .callPush elem =>
      ((machine P null).step S.queue (.callPush 0 elem)).map fun queue =>
        { S with queue, pushes := S.pushes + 1 }
    | .produce spurious =>
      ((machine P null).step S.queue (.step 0 spurious)).map fun queue =>
        match S.queue.threads[0]? with
        | some (Pc.pushFront _) => { S with queue, pushHeld := S.queue.held }
        | _ => { S with queue }
    | .callPop =>
      ((machine P null).step S.queue (.callPop 1)).map fun queue =>
        { S with queue, pops := S.pops + 1 }
    | .consume spurious =>
      ((machine P null).step S.queue (.step 1 spurious)).map fun queue =>
        match S.queue.threads[1]? with
        | some Pc.popBack => { S with queue, popHeld := S.queue.held }
        | _ => { S with queue }

/-- The offset of the front that the producer has read, and what it says of the queue then and
now. -/
def FrontRead (S : SpscState T) (front : Nat) : Prop :=
  ∃ f, front = P.sizeLimit + f ∧ f ≤ S.queue.popped.length ∧
    S.pushHeld + f = S.queue.pushed.length ∧ S.queue.pushed.length ≤ front

/-- The offset of the back that the consumer has read. -/
def BackRead (S : SpscState T) (back : Nat) : Prop :=
  back ≤ S.queue.pushed.length ∧ S.popHeld + S.queue.popped.length = back

def ProducerOk (S : SpscState T) : Pc T → Prop
  | .idle | .pushFront _ => True
  | .pushCounter _ front _ => FrontRead P S front
  | .pushVersion _ front _ counter => FrontRead P S front ∧ counter = P.version S.queue.pushed.length
  | .pushExchange _ front _ counter back =>
    FrontRead P S front ∧ counter = P.version S.queue.pushed.length ∧ back = S.queue.pushed.length ∧ front ≠ back
  | .pushStore _ counter back => counter = P.version S.queue.pushed.length ∧ back = S.queue.pushed.length
  | .pushPublish elem counter back =>
    counter = P.version S.queue.pushed.length ∧ back = S.queue.pushed.length ∧
      S.queue.vec[P.position back]? = some elem
  | _ => False

def ConsumerOk (S : SpscState T) : Pc T → Prop
  | .idle | .popBack => True
  | .popCounter back _ => BackRead S back
  | .popVersion back _ counter => BackRead S back ∧ counter = P.version S.queue.popped.length
  | .popExchange back _ counter front =>
    BackRead S back ∧ counter = P.version S.queue.popped.length ∧
      front = P.sizeLimit + S.queue.popped.length ∧ S.popHeld ≠ 0
  | .popLoad counter front =>
    counter = P.version S.queue.popped.length ∧ front = P.sizeLimit + S.queue.popped.length
  | .popPublish counter front val =>
    counter = P.version S.queue.popped.length ∧ front = P.sizeLimit + S.queue.popped.length ∧
      S.queue.pushed[S.queue.popped.length]? = some val
  | _ => False

/-- The invariant, with the producer at `p` and the consumer at `c`. -/
structure SpscInv (S : SpscState T) (p c : Pc T) : Prop where
  threads : S.queue.threads = [p, c]
  length_vec : S.queue.vec.length = P.sizeLimit
  back_eq : S.queue.counterBack = P.version (S.queue.pushed.length + p.pushing.toNat)
  front_eq : S.queue.counterFront = P.version (S.queue.popped.length + c.popping.toNat)
  versionBack_eq : S.queue.versionBack =
    P.packOffset (P.version S.queue.pushed.length) S.queue.pushed.length
  versionFront_eq : S.queue.versionFront =
    P.packOffset (P.version S.queue.popped.length) (P.sizeLimit + S.queue.popped.length)
  room : S.queue.pushed.length + p.pushing.toNat ≤ P.sizeLimit + S.queue.popped.length
  avail : S.queue.popped.length + c.popping.toNat ≤ S.queue.pushed.length
  window : Window S.queue.pushed S.queue.vec P.sizeLimit S.queue.popped.length S.queue.pushed.length
  popped_prefix : S.queue.popped <+: S.queue.pushed
  producer : ProducerOk P S p
  consumer : ConsumerOk P S c
  pushes_le : S.queue.pushed.length + p.active.toNat ≤ S.pushes
  pops_le : S.queue.popped.length + c.active.toNat ≤ S.pops
  pushes_lt : S.pushes + P.sizeLimit < 2 ^ P.offsetBits
  pops_lt : S.pops + P.sizeLimit < 2 ^ P.offsetBits

section Steps
variable {P} {S S' : SpscState T} {p p' c c' : Pc T}

/-- The producer loses nothing when the consumer moves. -/
theorem ProducerOk.mono (h : ProducerOk P S p) (hpushed : S'.queue.pushed = S.queue.pushed)
    (hvec : S'.queue.vec = S.queue.vec) (hheld : S'.pushHeld = S.pushHeld)
    (hpopped : S.queue.popped.length ≤ S'.queue.popped.length) : ProducerOk P S' p := by
  have hread {front : Nat} (h : FrontRead P S front) : FrontRead P S' front := by
    obtain ⟨f, hf, hle, hsum, hroom⟩ := h
    exact ⟨f, hf, hle.trans hpopped, by rw [hheld, hpushed, hsum], by rw [hpushed]; exact hroom⟩
  cases p with
  | idle | pushFront _ => trivial
  | pushCounter _ front _ => exact hread h
  | pushVersion _ front _ counter => exact ⟨hread h.1, by rw [hpushed]; exact h.2⟩
  | pushExchange _ front _ counter back => exact ⟨hread h.1, by rw [hpushed]; exact h.2⟩
  | pushStore _ counter back =>
    rw [ProducerOk, hpushed]
    exact h
  | pushPublish elem counter back =>
    rw [ProducerOk, hpushed, hvec]
    exact h
  | popBack | popCounter | popVersion | popExchange | popLoad | popPublish => exact h

/-- The consumer loses nothing when the producer moves. -/
theorem ConsumerOk.mono (h : ConsumerOk P S c) (hpopped : S'.queue.popped = S.queue.popped)
    (hheld : S'.popHeld = S.popHeld) (hpushed : S.queue.pushed <+: S'.queue.pushed) : ConsumerOk P S' c := by
  have hread {back : Nat} (h : BackRead S back) : BackRead S' back :=
    ⟨h.1.trans hpushed.length_le, by rw [hheld, hpopped]; exact h.2⟩
  cases c with
  | idle | popBack => trivial
  | popCounter back _ => exact hread h
  | popVersion back _ counter => exact ⟨hread h.1, by rw [hpopped]; exact h.2⟩
  | popExchange back _ counter front => exact ⟨hread h.1, by rw [hpopped, hheld]; exact h.2⟩
  | popLoad counter front =>
    rw [ConsumerOk, hpopped]
    exact h
  | popPublish counter front val =>
    rw [ConsumerOk, hpopped]
    refine ⟨h.1, h.2.1, ?_⟩
    obtain ⟨tail, htail⟩ := hpushed
    rw [← htail, List.getElem?_append_left (List.getElem?_eq_some_iff.mp h.2.2).1]
    exact h.2.2
  | pushFront | pushCounter | pushVersion | pushExchange | pushStore | pushPublish => exact h

/-- The producer goes on without touching the shared words. -/
theorem SpscInv.producer_goes (h : SpscInv P S p c) {pushHeld : Nat} (hpush : p'.pushing = p.pushing)
    (hactive : p.active = true) (hok : ProducerOk P { S with queue := S.queue.set 0 p', pushHeld } p') :
    SpscInv P { S with queue := S.queue.set 0 p', pushHeld } p' c :=
  { h with
    threads := by simp [QueueState.set, h.threads]
    back_eq := by rw [hpush]; exact h.back_eq
    room := by rw [hpush]; exact h.room
    producer := hok
    consumer := h.consumer.mono rfl rfl List.prefix_rfl
    pushes_le := by
      have hle := h.pushes_le
      rw [hactive] at hle
      exact (Nat.add_le_add_left (Bool.toNat_le _) _).trans hle }

/-- The consumer goes on without touching the shared words. -/
theorem SpscInv.consumer_goes (h : SpscInv P S p c) {popHeld : Nat} (hpop : c'.popping = c.popping)
    (hactive : c.active = true) (hok : ConsumerOk P { S with queue := S.queue.set 1 c', popHeld } c') :
    SpscInv P { S with queue := S.queue.set 1 c', popHeld } p c' :=
  { h with
    threads := by simp [QueueState.set, h.threads]
    front_eq := by rw [hpop]; exact h.front_eq
    avail := by rw [hpop]; exact h.avail
    producer := h.producer.mono rfl rfl rfl le_rfl
    consumer := hok
    pops_le := by
      have hle := h.pops_le
      rw [hactive] at hle
      exact (Nat.add_le_add_left (Bool.toNat_le _) _).trans hle }

section Producer
variable {elem : T} {front spin counter back : Nat}

/-- The exchange of `push_back` succeeds: the front that was read is not ahead, so there is room. -/
theorem SpscInv.pushEnter (h : SpscInv P S (.pushExchange elem front spin counter back) c) :
    SpscInv P { S with queue := { S.queue.set 0 (.pushStore elem counter back) with
      counterBack := P.nextVersion counter } } (.pushStore elem counter back) c := by
  obtain ⟨⟨f, rfl, hf, -, hroom⟩, rfl, rfl, hne⟩ := h.producer
  exact { h with
    threads := by simp [QueueState.set, h.threads]
    back_eq := P.nextVersion_version _
    room := by
      simp only [QueueState.set, Pc.pushing, Bool.toNat_true]
      omega
    producer := ⟨rfl, rfl⟩
    consumer := h.consumer.mono rfl rfl List.prefix_rfl
    pushes_le := h.pushes_le }

/-- The producer writes its cell, which holds no element that is still to be popped. -/
theorem SpscInv.pushStore (h : SpscInv P S (.pushStore elem counter back) c) {vec : List T}
    (hvec : store S.queue.vec (P.position back) [elem] = some vec) :
    SpscInv P { S with queue := { S.queue.set 0 (.pushPublish elem counter back) with vec } }
      (.pushPublish elem counter back) c := by
  obtain ⟨rfl, rfl⟩ := h.producer
  have hroom := h.room
  simp only [Pc.pushing, Bool.toNat_true] at hroom
  have hget := getElem?_of_store hvec
  rw [P.position_eq] at hget
  have hwindow : Window S.queue.pushed vec P.sizeLimit S.queue.popped.length S.queue.pushed.length := by
    intro k hk hk'
    have hne := mod_ne_of_lt (N := P.sizeLimit) hk' (by omega)
    rw [hget, if_neg (by simp only [List.length_singleton]; omega)]
    exact h.window k hk hk'
  exact { h with
    threads := by simp [QueueState.set, h.threads]
    length_vec := (length_of_store hvec).trans h.length_vec
    window := hwindow
    producer := by
      refine ⟨rfl, rfl, ?_⟩
      rw [P.position_eq, hget, if_pos (by simp)]
      simp
    consumer := h.consumer.mono rfl rfl List.prefix_rfl
    pushes_le := h.pushes_le }

/-- The producer publishes its element. -/
theorem SpscInv.pushPublish (h : SpscInv P S (.pushPublish elem counter back) c) :
    SpscInv P { S with queue := { S.queue.set 0 .idle with
      versionBack := P.nextPack counter back, pushed := S.queue.pushed ++ [elem] } } .idle c := by
  obtain ⟨rfl, rfl, hcell⟩ := h.producer
  have hroom := h.room
  have hle := h.pushes_le
  have hlt := h.pushes_lt
  simp only [Pc.pushing, Pc.active, Bool.toNat_true] at hroom hle
  exact { h with
    threads := by simp [QueueState.set, h.threads]
    back_eq := by
      have hback := h.back_eq
      simp only [Pc.pushing, Bool.toNat_true] at hback
      simpa [QueueState.set, Pc.pushing] using hback
    versionBack_eq := by
      simp only [List.length_append, List.length_singleton]
      exact P.nextPack_version (by omega)
    room := by
      simp only [QueueState.set, List.length_append, List.length_singleton, Pc.pushing, Bool.toNat_false]
      omega
    avail := by
      have havail := h.avail
      simp only [QueueState.set, List.length_append, List.length_singleton]
      omega
    window := by
      intro k hk hk'
      simp only [QueueState.set, List.length_append, List.length_singleton] at hk hk' ⊢
      by_cases hlast : k < S.queue.pushed.length
      · rw [List.getElem?_append_left hlast]
        exact h.window k hk hlast
      · obtain rfl : k = S.queue.pushed.length := by omega
        rw [P.position_eq] at hcell
        rw [hcell, List.getElem?_concat_length]
    popped_prefix := h.popped_prefix.trans (List.prefix_append _ _)
    producer := trivial
    consumer := h.consumer.mono rfl rfl (List.prefix_append _ _)
    pushes_le := by
      simp only [List.length_append, List.length_singleton, Pc.active, Bool.toNat_false]
      omega }

theorem pushRetry_active (hspin : spin + 1 < spinLimit) : pushRetry elem front spin ≠ .idle := by
  rw [pushRetry, if_pos hspin]
  simp

theorem SpscInv.pushRetry (h : SpscInv P S p c) (hpush : p.pushing = false) (hactive : p.active = true)
    (hread : FrontRead P S front) :
    SpscInv P { S with queue := S.queue.set 0 (pushRetry elem front spin) } (pushRetry elem front spin) c := by
  rw [Queue.pushRetry]
  split_ifs
  · exact h.producer_goes hpush.symm hactive hread
  · exact h.producer_goes hpush.symm hactive trivial

/-- A step of the producer. When it ends a push that has not pushed, the spin limit is reached or
the queue was full when the push read the front. -/
theorem SpscInv.produce (h : SpscInv P S p c) {null : T} {spurious : Bool}
    (hstep : (spscMachine P null).step S (.produce spurious) = some S') :
    ∃ p', SpscInv P S' p' c ∧ (p' = .idle → S'.queue.pushed = S.queue.pushed →
      p.spin + 1 < spinLimit → S.pushHeld = P.sizeLimit) := by
  have hthread : S.queue.threads[0]? = some p := by simp [h.threads]
  simp only [spscMachine, machine, hthread, Option.bind_some] at hstep
  obtain ⟨queue, hqueue, rfl⟩ := Option.map_eq_some_iff.mp hstep
  have hle := h.pushes_le
  have hlt := h.pushes_lt
  have hplt := h.pops_lt
  have hpops := h.pops_le
  have hroom := h.room
  have havail := h.avail
  cases p with
  | idle => cases hqueue
  | pushFront elem =>
    obtain rfl := Option.some.inj hqueue
    refine ⟨_, h.producer_goes rfl rfl ⟨S.queue.popped.length, ?_, le_rfl, ?_, ?_⟩, by simp⟩
    · rw [h.versionFront_eq, P.offsetOf_packOffset (by omega)]
    · exact Nat.sub_add_cancel (by omega)
    · rw [h.versionFront_eq, P.offsetOf_packOffset (by omega)]
      exact (Nat.le_add_right _ _).trans hroom
  | pushCounter elem front spin =>
    obtain rfl := Option.some.inj hqueue
    refine ⟨_, h.producer_goes rfl rfl ⟨h.producer, h.back_eq⟩, by simp⟩
  | pushVersion elem front spin counter =>
    obtain ⟨hread, rfl⟩ := h.producer
    simp only [Pc.active, Bool.toNat_true] at hle
    have hunpack : P.unpackOffsets (P.version S.queue.pushed.length) S.queue.versionBack =
        some S.queue.pushed.length := by
      rw [h.versionBack_eq, P.unpackOffsets_version (by omega)]
    simp only [stepThread, hunpack] at hqueue
    split_ifs at hqueue with hfull
    · obtain rfl := Option.some.inj hqueue
      refine ⟨_, h.producer_goes rfl rfl trivial, fun _ _ _ => ?_⟩
      obtain ⟨f, hf, -, hsum, -⟩ := hread
      omega
    · obtain rfl := Option.some.inj hqueue
      exact ⟨_, h.producer_goes rfl rfl ⟨hread, rfl, rfl, hfull⟩, by simp⟩
  | pushExchange elem front spin counter back =>
    rw [stepThread] at hqueue
    split_ifs at hqueue
    · obtain rfl := Option.some.inj hqueue
      exact ⟨_, h.pushEnter, by simp⟩
    · obtain rfl := Option.some.inj hqueue
      exact ⟨_, h.pushRetry rfl rfl h.producer.1, fun hidle _ hspin => absurd hidle (pushRetry_active hspin)⟩
  | pushStore elem counter back =>
    obtain ⟨vec, hvec, rfl⟩ := Option.map_eq_some_iff.mp hqueue
    exact ⟨_, h.pushStore hvec, by simp⟩
  | pushPublish elem counter back =>
    obtain rfl := Option.some.inj hqueue
    exact ⟨_, h.pushPublish, by simp⟩
  | popBack | popCounter | popVersion | popExchange | popLoad | popPublish => exact h.producer.elim

end Producer

section Consumer
variable {val : T} {front spin counter back : Nat}

/-- The exchange of `pop_front` succeeds: the back that was read is not ahead, so there is an
element. -/
theorem SpscInv.popEnter (h : SpscInv P S p (.popExchange back spin counter front)) :
    SpscInv P { S with queue := { S.queue.set 1 (.popLoad counter front) with
      counterFront := P.nextVersion counter } } p (.popLoad counter front) := by
  obtain ⟨⟨hback, hheld⟩, rfl, rfl, hne⟩ := h.consumer
  exact { h with
    threads := by simp [QueueState.set, h.threads]
    front_eq := P.nextVersion_version _
    avail := by
      simp only [QueueState.set, Pc.popping, Bool.toNat_true]
      omega
    producer := h.producer.mono rfl rfl rfl le_rfl
    consumer := ⟨rfl, rfl⟩
    pops_le := h.pops_le }

/-- The consumer finds the oldest element that is still to be popped. -/
theorem SpscInv.popLoad (h : SpscInv P S p (.popLoad counter front))
    (hval : S.queue.vec[P.position front]? = some val) :
    SpscInv P { S with queue := S.queue.set 1 (.popPublish counter front val) } p (.popPublish counter front val) := by
  obtain ⟨rfl, rfl⟩ := h.consumer
  have havail := h.avail
  simp only [Pc.popping, Bool.toNat_true] at havail
  refine h.consumer_goes rfl rfl ⟨rfl, rfl, ?_⟩
  rw [P.position_eq, Nat.add_mod_left] at hval
  exact (h.window S.queue.popped.length le_rfl (by omega)).symm.trans hval

/-- The consumer publishes that the cell is free. -/
theorem SpscInv.popPublish (h : SpscInv P S p (.popPublish counter front val)) :
    SpscInv P { S with queue := { S.queue.set 1 .idle with
      versionFront := P.nextPack counter front, popped := S.queue.popped ++ [val] } } p .idle := by
  obtain ⟨rfl, rfl, hval⟩ := h.consumer
  have havail := h.avail
  have hroom := h.room
  have hle := h.pops_le
  have hlt := h.pops_lt
  simp only [Pc.popping, Pc.active, Bool.toNat_true] at havail hle
  exact { h with
    threads := by simp [QueueState.set, h.threads]
    front_eq := by
      have hfront := h.front_eq
      simp only [Pc.popping, Bool.toNat_true] at hfront
      simpa [QueueState.set, Pc.popping] using hfront
    versionFront_eq := by
      simp only [List.length_append, List.length_singleton, ← Nat.add_assoc]
      exact P.nextPack_version (by omega)
    room := by
      simp only [QueueState.set, List.length_append, List.length_singleton]
      omega
    avail := by
      simp only [QueueState.set, List.length_append, List.length_singleton, Pc.popping, Bool.toNat_false]
      omega
    window := h.window.mono (by simp)
    popped_prefix := prefix_concat h.popped_prefix hval
    producer := h.producer.mono rfl rfl rfl (by simp)
    consumer := trivial
    pops_le := by
      simp only [List.length_append, List.length_singleton, Pc.active, Bool.toNat_false]
      omega }

theorem popRetry_active (hspin : spin + 1 < spinLimit) : popRetry (T := T) back spin ≠ .idle := by
  rw [popRetry, if_pos hspin]
  simp

theorem SpscInv.popRetry (h : SpscInv P S p c) (hpop : c.popping = false) (hactive : c.active = true)
    (hread : BackRead S back) :
    SpscInv P { S with queue := S.queue.set 1 (popRetry back spin) } p (popRetry back spin) := by
  rw [Queue.popRetry]
  split_ifs
  · exact h.consumer_goes hpop.symm hactive hread
  · exact h.consumer_goes hpop.symm hactive trivial

/-- A step of the consumer. When it ends a pop that has not popped, the spin limit is reached or
the queue was empty when the pop read the back. -/
theorem SpscInv.consume (h : SpscInv P S p c) {null : T} {spurious : Bool}
    (hstep : (spscMachine P null).step S (.consume spurious) = some S') :
    ∃ c', SpscInv P S' p c' ∧ (c' = .idle → S'.queue.popped = S.queue.popped →
      c.spin + 1 < spinLimit → S.popHeld = 0) := by
  have hthread : S.queue.threads[1]? = some c := by simp [h.threads]
  simp only [spscMachine, machine, hthread, Option.bind_some] at hstep
  obtain ⟨queue, hqueue, rfl⟩ := Option.map_eq_some_iff.mp hstep
  have hle := h.pops_le
  have hlt := h.pops_lt
  have hplt := h.pushes_lt
  have hpushes := h.pushes_le
  have hroom := h.room
  have havail := h.avail
  cases c with
  | idle => cases hqueue
  | popBack =>
    obtain rfl := Option.some.inj hqueue
    refine ⟨_, h.consumer_goes rfl rfl ⟨?_, ?_⟩, by simp⟩
    · rw [h.versionBack_eq, P.offsetOf_packOffset (by omega)]
      exact le_rfl
    · rw [h.versionBack_eq, P.offsetOf_packOffset (by omega)]
      exact Nat.sub_add_cancel (by omega)
  | popCounter back spin =>
    obtain rfl := Option.some.inj hqueue
    refine ⟨_, h.consumer_goes rfl rfl ⟨h.consumer, h.front_eq⟩, by simp⟩
  | popVersion back spin counter =>
    obtain ⟨hread, rfl⟩ := h.consumer
    simp only [Pc.active, Bool.toNat_true] at hle
    have hunpack : P.unpackOffsets (P.version S.queue.popped.length) S.queue.versionFront =
        some (P.sizeLimit + S.queue.popped.length) := by
      rw [h.versionFront_eq, P.unpackOffsets_version (by omega)]
    obtain ⟨hback, hheld⟩ := hread
    have hsub : P.sub (P.sizeLimit + S.queue.popped.length) back = P.sizeLimit + S.queue.popped.length - back :=
      P.sub_eq (by omega) (by omega)
    simp only [stepThread, hunpack, hsub] at hqueue
    split_ifs at hqueue with hempty
    · obtain rfl := Option.some.inj hqueue
      refine ⟨_, h.consumer_goes rfl rfl trivial, fun _ _ _ => ?_⟩
      have hpos : 0 < P.sizeLimit := Nat.two_pow_pos _
      omega
    · obtain rfl := Option.some.inj hqueue
      exact ⟨_, h.consumer_goes rfl rfl ⟨⟨hback, hheld⟩, rfl, rfl, by dsimp only; omega⟩, by simp⟩
  | popExchange back spin counter front =>
    rw [stepThread] at hqueue
    split_ifs at hqueue
    · obtain rfl := Option.some.inj hqueue
      exact ⟨_, h.popEnter, by simp⟩
    · obtain rfl := Option.some.inj hqueue
      exact ⟨_, h.popRetry rfl rfl h.consumer.1, fun hidle _ hspin => absurd hidle (popRetry_active hspin)⟩
  | popLoad counter front =>
    obtain ⟨val, hval, rfl⟩ := Option.map_eq_some_iff.mp hqueue
    exact ⟨_, h.popLoad hval, by simp⟩
  | popPublish counter front val =>
    obtain rfl := Option.some.inj hqueue
    exact ⟨_, h.popPublish, by simp⟩
  | pushFront | pushCounter | pushVersion | pushExchange | pushStore | pushPublish => exact h.consumer.elim

end Consumer

/-- Each side stays below the number of operations at which the offsets wrap. -/
def FewOperations (P : Params) (S : SpscState T) : SpscAct T → Prop
  | .callPush _ => S.pushes + 1 < 2 ^ P.offsetBits - P.sizeLimit
  | .callPop => S.pops + 1 < 2 ^ P.offsetBits - P.sizeLimit
  | _ => True

theorem SpscInv.callPush (h : SpscInv P S p c) {null elem : T}
    (hfew : FewOperations P S (.callPush elem))
    (hstep : (spscMachine P null).step S (.callPush elem) = some S') : SpscInv P S' (.pushFront elem) c := by
  have hthread : S.queue.threads[0]? = some p := by simp [h.threads]
  have hlt : S.pushes + 1 < 2 ^ P.offsetBits - P.sizeLimit := hfew
  simp only [spscMachine, machine, hthread] at hstep
  obtain ⟨queue, hqueue, rfl⟩ := Option.map_eq_some_iff.mp hstep
  cases p with
  | idle =>
    obtain rfl := Option.some.inj hqueue
    exact { h with
      threads := by simp [QueueState.set, h.threads]
      producer := trivial
      consumer := h.consumer.mono rfl rfl List.prefix_rfl
      pushes_le := Nat.add_le_add_right h.pushes_le 1
      pushes_lt := by dsimp only; omega }
  | _ => cases hqueue

theorem SpscInv.callPop (h : SpscInv P S p c) {null : T} (hfew : FewOperations P S .callPop)
    (hstep : (spscMachine P null).step S .callPop = some S') : SpscInv P S' p .popBack := by
  have hthread : S.queue.threads[1]? = some c := by simp [h.threads]
  have hlt : S.pops + 1 < 2 ^ P.offsetBits - P.sizeLimit := hfew
  simp only [spscMachine, machine, hthread] at hstep
  obtain ⟨queue, hqueue, rfl⟩ := Option.map_eq_some_iff.mp hstep
  cases c with
  | idle =>
    obtain rfl := Option.some.inj hqueue
    exact { h with
      threads := by simp [QueueState.set, h.threads]
      producer := h.producer.mono rfl rfl rfl le_rfl
      consumer := trivial
      pops_le := Nat.add_le_add_right h.pops_le 1
      pops_lt := by dsimp only; omega }
  | _ => cases hqueue

theorem spscInv_of_reaches {null : T} (h : (spscMachine P null).Reaches (FewOperations P) S) :
    ∃ p c, SpscInv P S p c := by
  refine Machine.Reaches.invariant (P := fun S => ∃ p c, SpscInv P S p c) ?_ ?_ h
  · rintro S rfl
    have hsize : P.sizeLimit < 2 ^ P.offsetBits := Nat.pow_lt_pow_right (by decide) P.size_lt
    have hzero : P.version 0 = 0 := Nat.zero_mod _
    exact ⟨.idle, .idle,
      { threads := rfl, length_vec := List.length_replicate, back_eq := hzero.symm, front_eq := hzero.symm
        versionBack_eq := by simp [hzero], versionFront_eq := by simp [hzero]
        room := Nat.zero_le _, avail := le_rfl, window := Window.nil _ _ _ _
        popped_prefix := List.prefix_rfl, producer := trivial, consumer := trivial
        pushes_le := le_rfl, pops_le := le_rfl, pushes_lt := by simpa using hsize
        pops_lt := by simpa using hsize }⟩
  · rintro S a S' ⟨p, c, hinv⟩ hfew hstep
    cases a with
    | callPush elem => exact ⟨_, _, hinv.callPush hfew hstep⟩
    | produce spurious =>
      obtain ⟨p', hinv', -⟩ := hinv.produce hstep
      exact ⟨p', c, hinv'⟩
    | callPop => exact ⟨_, _, hinv.callPop hfew hstep⟩
    | consume spurious =>
      obtain ⟨c', hinv', -⟩ := hinv.consume hstep
      exact ⟨p, c', hinv'⟩

end Steps

/-- The queue as its producer and its consumer see it. -/
structure SpscFifo (P : Params) (null : T) (S : SpscState T) : Prop where
  popped_once : S.queue.popped <+: S.queue.pushed
  bounded : S.queue.pushed.length ≤ S.queue.popped.length + P.sizeLimit
  /-- From its push to its pop an element stands in its cell. -/
  intact : S.queue.vec.length = P.sizeLimit ∧ ∀ k, S.queue.popped.length ≤ k → k < S.queue.pushed.length →
    S.queue.vec[P.position k]? = S.queue.pushed[k]?
  /-- A push that ends without having pushed, and without having reached the spin limit, has read the
  front of a full queue. -/
  full : ∀ spurious S' pc, S.queue.threads[0]? = some pc →
    (spscMachine P null).step S (.produce spurious) = some S' → S'.queue.threads[0]? = some .idle →
    S'.queue.pushed = S.queue.pushed → pc.spin + 1 < spinLimit → S.pushHeld = P.sizeLimit
  /-- A pop that ends without having popped, and without having reached the spin limit, has read the
  back of an empty queue. -/
  empty : ∀ spurious S' pc, S.queue.threads[1]? = some pc →
    (spscMachine P null).step S (.consume spurious) = some S' → S'.queue.threads[1]? = some .idle →
    S'.queue.popped = S.queue.popped → pc.spin + 1 < spinLimit → S.popHeld = 0

/-- With one producer and one consumer the queue is a bounded queue in every run whose operations
are fewer than the offsets can count. -/
theorem spscFifo_of_reaches {P : Params} {null : T} {S : SpscState T}
    (h : (spscMachine P null).Reaches (FewOperations P) S) : SpscFifo P null S := by
  obtain ⟨p, c, hinv⟩ := spscInv_of_reaches h
  have hroom := hinv.room
  refine ⟨hinv.popped_prefix, by omega, ⟨hinv.length_vec, fun k hk hk' => ?_⟩, ?_, ?_⟩
  · rw [P.position_eq, hinv.window k hk hk']
  · intro spurious S' pc hpc hstep hidle hpushed hspin
    obtain ⟨p', hinv', hfull⟩ := hinv.produce hstep
    obtain rfl : p = pc := by simpa [hinv.threads] using hpc
    obtain rfl : p' = .idle := by simpa [hinv'.threads] using hidle
    exact hfull rfl hpushed hspin
  · intro spurious S' pc hpc hstep hidle hpopped hspin
    obtain ⟨c', hinv', hempty⟩ := hinv.consume hstep
    obtain rfl : c = pc := by simpa [hinv.threads] using hpc
    obtain rfl : c' = .idle := by simpa [hinv'.threads] using hidle
    exact hempty rfl hpopped hspin

instance (P : Params) (S : SpscState T) : (a : SpscAct T) → Decidable (FewOperations P S a)
  | .callPush _ => inferInstanceAs (Decidable (S.pushes + 1 < 2 ^ P.offsetBits - P.sizeLimit))
  | .callPop => inferInstanceAs (Decidable (S.pops + 1 < 2 ^ P.offsetBits - P.sizeLimit))
  | .produce _ => .isTrue trivial
  | .consume _ => .isTrue trivial

/-- A queue of one cell whose versions have one bit. -/
def tiny : Params := ⟨4, 1, 8, 0, by decide, by decide⟩

/-- A push and a pop with one spurious failure, up to their returns. -/
def pushPop (elem : Nat) : List (SpscAct Nat) :=
  .callPush elem :: .callPop :: List.replicate 6 (.produce false) ++ .consume false ::
    List.replicate 3 (.consume true) ++ List.replicate 5 (.consume false)

/-- Three rounds, in which the versions wrap. -/
theorem spscFifo_three_rounds :
    ∃ S, (spscMachine tiny 0).Reaches (FewOperations tiny) S ∧ S.queue.pushed = [10, 20, 30] ∧
      S.queue.popped = [10, 20, 30] ∧ S.queue.versionBack = 19 ∧ SpscFifo tiny 0 S := by
  have hstart : (spscMachine tiny 0).Reaches (FewOperations tiny)
      ⟨⟨[0], 0, 0, 0, 1, [.idle, .idle], [], [], 0⟩, 0, 0, 0, 0⟩ := .start rfl
  obtain ⟨S, hrun, hpushed, hpopped, hversion⟩ : ∃ S, ((spscMachine tiny 0).guard (FewOperations tiny)).run
      ⟨⟨[0], 0, 0, 0, 1, [.idle, .idle], [], [], 0⟩, 0, 0, 0, 0⟩ (pushPop 10 ++ pushPop 20 ++ pushPop 30) = some S ∧
      S.queue.pushed = [10, 20, 30] ∧ S.queue.popped = [10, 20, 30] ∧ S.queue.versionBack = 19 :=
    ⟨_, rfl, rfl, rfl, rfl⟩
  have hreach := hstart.of_guard_run hrun
  exact ⟨S, hreach, hpushed, hpopped, hversion, spscFifo_of_reaches hreach⟩

end Latypus.Queue
