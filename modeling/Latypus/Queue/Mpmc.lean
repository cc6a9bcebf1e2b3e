import Latypus.Queue.Atomic
import Mathlib.Data.Nat.Bitwise

/-! Many producers and many consumers. The versions keep each critical section to one thread, so
the elements go through the ring in order as long as no thread enters its section when the queue
has meanwhile become full, or empty: the offset that `push_back` and `pop_front` compare with is
read once and may be old. -/

namespace Latypus.Queue
open Lib

namespace Params
variable (P : Params) {v o k : Nat}

theorem packOffset_eq (ho : o < 2 ^ P.offsetBits) : P.packOffset v o = v * 2 ^ P.offsetBits + o := by
  rw [packOffset, ← Nat.shiftLeft_add_eq_or_of_lt ho, Nat.shiftLeft_eq]

theorem versionOf_packOffset (hv : v < 2 ^ P.versionBits) (ho : o < 2 ^ P.offsetBits) :
    P.versionOf (P.packOffset v o) = v := by
  rw [versionOf, packOffset_eq P ho, Nat.shiftRight_eq_div_pow, Nat.mul_comm,
    Nat.mul_add_div (Nat.two_pow_pos _), Nat.div_eq_of_lt ho, Nat.add_zero,
    Nat.and_two_pow_sub_one_eq_mod, Nat.mod_eq_of_lt hv]

theorem offsetOf_packOffset (ho : o < 2 ^ P.offsetBits) : P.offsetOf (P.packOffset v o) = o := by
  rw [offsetOf, packOffset_eq P ho, Nat.and_two_pow_sub_one_eq_mod,
    Nat.mul_add_mod_of_lt ho]

theorem unpackOffsets_packOffset {c : Nat} (hv : v < 2 ^ P.versionBits)
    (ho : o < 2 ^ P.offsetBits) (hc : c < 2 ^ P.versionBits) :
    P.unpackOffsets c (P.packOffset v o) = if v = c then some o else none := by
  rw [unpackOffsets, versionOf_packOffset P hv ho, offsetOf_packOffset P ho,
    Nat.and_two_pow_sub_one_eq_mod, Nat.mod_eq_of_lt hc]

theorem nextVersion_eq (hk : k + 1 < 2 ^ P.versionBits) : P.nextVersion k = k + 1 := by
  rw [nextVersion, Nat.and_two_pow_sub_one_eq_mod, Nat.mod_eq_of_lt hk]

theorem nextPack_eq (hk : k + 1 < 2 ^ P.versionBits) (ho : o + 1 < 2 ^ P.offsetBits) :
    P.nextPack k o = P.packOffset (k + 1) (o + 1) := by
  rw [nextPack, nextVersion_eq P hk, Nat.and_two_pow_sub_one_eq_mod, Nat.mod_eq_of_lt ho]

theorem position_eq (k : Nat) : P.position k = k % P.sizeLimit :=
  Nat.and_two_pow_sub_one_eq_mod k P.sizeBits

theorem sub_eq {a b : Nat} (hb : b ≤ a) (ha : a < 2 ^ P.offsetBits) : P.sub a b = a - b := by
  have hle : 2 ^ P.offsetBits ≤ 2 ^ P.atomicBits :=
    Nat.pow_le_pow_right (by decide) (by have := P.bits_le; omega)
  rw [sub, show a + 2 ^ P.atomicBits - b = a - b + 2 ^ P.atomicBits by omega, Nat.add_mod_right,
    Nat.mod_eq_of_lt (by omega)]

end Params

section Invariant
variable {T : Type}

namespace Pc

/-- The thread has an operation under way. -/
def active : Pc T → Bool
  | idle => false
  | _ => true

/-- The thread is in the critical section of `push_back`. -/
def pushing : Pc T → Bool
  | pushStore .. | pushPublish .. => true
  | _ => false

def popping : Pc T → Bool
  | popLoad .. | popPublish .. => true
  | _ => false

end Pc

variable (P : Params)

/-- What the local variables of a thread say of the shared state. -/
def LocalOk (s : QueueState T) : Pc T → Prop
  | .pushVersion _ _ _ counter => counter ≤ s.counterBack
  | .pushExchange _ _ _ counter back => back = counter ∧ counter ≤ s.pushed.length
  | .pushStore _ counter back => counter = s.pushed.length ∧ back = counter
  | .pushPublish elem counter back =>
    counter = s.pushed.length ∧ back = counter ∧ s.vec[P.position back]? = some elem
  | .popVersion _ _ counter => counter ≤ s.counterFront
  | .popExchange _ _ counter front => front = P.sizeLimit + counter ∧ counter ≤ s.popped.length
  | .popLoad counter front => counter = s.popped.length ∧ front = P.sizeLimit + counter
  | .popPublish counter front val =>
    counter = s.popped.length ∧ front = P.sizeLimit + counter ∧ s.pushed[counter]? = some val
  | _ => True

structure Inv (s : QueueState T) : Prop where
  length_vec : s.vec.length = P.sizeLimit
  back_eq : s.counterBack = s.pushed.length + s.threads.countP Pc.pushing
  front_eq : s.counterFront = s.popped.length + s.threads.countP Pc.popping
  pushing_le : s.threads.countP Pc.pushing ≤ 1
  popping_le : s.threads.countP Pc.popping ≤ 1
  versionBack_eq : s.versionBack = P.packOffset s.pushed.length s.pushed.length
  versionFront_eq : s.versionFront = P.packOffset s.popped.length (P.sizeLimit + s.popped.length)
  room : s.counterBack ≤ P.sizeLimit + s.popped.length
  avail : s.counterFront ≤ s.pushed.length
  window : Window s.pushed s.vec P.sizeLimit s.popped.length s.pushed.length
  popped_prefix : s.popped <+: s.pushed
  local_ok : ∀ (i : Nat) (pc : Pc T), s.threads[i]? = some pc → LocalOk P s pc
  calls_le : s.pushed.length + s.popped.length + s.threads.countP Pc.active ≤ s.calls
  calls_lt : s.calls < 2 ^ P.versionBits

/-- A thread goes on without touching the shared words. -/
theorem Inv.set {s : QueueState T} (h : Inv P s) {t : Nat} {pc pc' : Pc T}
    (ht : s.threads[t]? = some pc) (hpush : pc'.pushing = pc.pushing)
    (hpop : pc'.popping = pc.popping) (hactive : pc.active = true) (hok : LocalOk P s pc') :
    Inv P (s.set t pc') := by
  have hp := countP_set_add (p := Pc.pushing) (y := pc') ht
  have hq := countP_set_add (p := Pc.popping) (y := pc') ht
  have ha := countP_set_add (p := Pc.active) (y := pc') ht
  rw [hpush] at hp
  rw [hpop] at hq
  rw [hactive] at ha
  have hle : (pc'.active).toNat ≤ 1 := Bool.toNat_le _
  simp only [Bool.toNat_true] at ha
  have hp' : (s.threads.set t pc').countP Pc.pushing = s.threads.countP Pc.pushing := by omega
  have hq' : (s.threads.set t pc').countP Pc.popping = s.threads.countP Pc.popping := by omega
  exact { h with
    back_eq := by simpa only [QueueState.set, hp'] using h.back_eq
    front_eq := by simpa only [QueueState.set, hq'] using h.front_eq
    pushing_le := by simpa only [QueueState.set, hp'] using h.pushing_le
    popping_le := by simpa only [QueueState.set, hq'] using h.popping_le
    local_ok := by
      intro i pc hi
      rcases getElem?_set_cases hi with ⟨-, rfl⟩ | ⟨-, hi⟩
      · exact hok
      · exact h.local_ok i pc hi
    calls_le := by
      have := h.calls_le
      simp only [QueueState.set]
      omega }

variable {P} {s s' : QueueState T} {t : Nat} {pc : Pc T}

/-- A thread that is not in a critical section loses nothing when the counters and the histories
grow, and one that is in a section loses nothing when that side stands still. -/
theorem LocalOk.mono (h : LocalOk P s pc) (hback : s.counterBack ≤ s'.counterBack)
    (hfront : s.counterFront ≤ s'.counterFront) (hpushed : s.pushed <+: s'.pushed)
    (hpopped : s.popped.length ≤ s'.popped.length)
    (hpushing : pc.pushing = true → s'.pushed = s.pushed ∧ s'.vec = s.vec)
    (hpopping : pc.popping = true → s'.popped = s.popped) : LocalOk P s' pc := by
  have hlen := hpushed.length_le
  cases pc with
  | pushVersion _ _ _ counter => exact le_trans h hback
  | pushExchange _ _ _ counter back => exact ⟨h.1, h.2.trans hlen⟩
  | pushStore _ counter back =>
    obtain ⟨heq, -⟩ := hpushing rfl
    exact ⟨by rw [heq]; exact h.1, h.2⟩
  | pushPublish _ counter back =>
    obtain ⟨heq, hvec⟩ := hpushing rfl
    exact ⟨by rw [heq]; exact h.1, h.2.1, by rw [hvec]; exact h.2.2⟩
  | popVersion _ _ counter => exact le_trans h hfront
  | popExchange _ _ counter front => exact ⟨h.1, h.2.trans hpopped⟩
  | popLoad counter front =>
    have heq := hpopping rfl
    exact ⟨by rw [heq]; exact h.1, h.2⟩
  | popPublish counter front val =>
    have heq := hpopping rfl
    refine ⟨by rw [heq]; exact h.1, h.2.1, ?_⟩
    obtain ⟨tail, htail⟩ := hpushed
    have hlt := (List.getElem?_eq_some_iff.mp h.2.2).1
    rw [← htail, List.getElem?_append_left hlt]
    exact h.2.2
  | _ => trivial

theorem Inv.active_pos (h : Inv P s) (ht : s.threads[t]? = some pc) (hpc : pc.active = true) :
    s.pushed.length + s.popped.length + 1 < 2 ^ P.versionBits := by
  have hpos := countP_pos_of_getElem? (p := Pc.active) ht hpc
  have := h.calls_le
  have := h.calls_lt
  omega

theorem Inv.unpack_back (h : Inv P s) (hwrap : P.sizeLimit + 2 ^ P.versionBits ≤ 2 ^ P.offsetBits)
    {counter back : Nat} (hcounter : counter ≤ s.counterBack) (ht : s.threads[t]? = some pc)
    (hpc : pc.active = true) (hback : P.unpackOffsets counter s.versionBack = some back) :
    back = counter ∧ counter = s.pushed.length := by
  have hlt := h.active_pos ht hpc
  have hcount := h.pushing_le
  rw [h.back_eq] at hcounter
  rw [h.versionBack_eq, P.unpackOffsets_packOffset (by omega) (by omega) (by omega)] at hback
  split_ifs at hback with hv
  obtain rfl := Option.some.inj hback
  exact ⟨hv, hv.symm⟩

theorem Inv.unpack_front (h : Inv P s) (hwrap : P.sizeLimit + 2 ^ P.versionBits ≤ 2 ^ P.offsetBits)
    {counter front : Nat} (hcounter : counter ≤ s.counterFront) (ht : s.threads[t]? = some pc)
    (hpc : pc.active = true) (hfront : P.unpackOffsets counter s.versionFront = some front) :
    front = P.sizeLimit + counter ∧ counter = s.popped.length := by
  have hlt := h.active_pos ht hpc
  have hcount := h.popping_le
  rw [h.front_eq] at hcounter
  rw [h.versionFront_eq, P.unpackOffsets_packOffset (by omega) (by omega) (by omega)] at hfront
  split_ifs at hfront with hv
  obtain rfl := Option.some.inj hfront
  exact ⟨by rw [hv], hv.symm⟩

section Producer
variable {elem : T} {front spin counter back : Nat}

/-- The exchange of `push_back` succeeds, and the queue is not full at that moment. -/
theorem Inv.pushEnter (h : Inv P s) (hwrap : P.sizeLimit + 2 ^ P.versionBits ≤ 2 ^ P.offsetBits)
    (ht : s.threads[t]? = some (.pushExchange elem front spin counter back))
    (hcounter : s.counterBack = counter) (hfresh : P.offsetOf s.versionFront ≠ back) :
    Inv P { s.set t (.pushStore elem counter back) with counterBack := P.nextVersion counter } := by
  obtain ⟨rfl, hle⟩ := h.local_ok t _ ht
  have hlt := h.active_pos ht rfl
  have hback := h.back_eq
  have hroom := h.room
  have hnone : s.threads.countP Pc.pushing = 0 := by omega
  have hp := countP_set_add (p := Pc.pushing) (y := .pushStore elem back back) ht
  have hq := countP_set_add (p := Pc.popping) (y := .pushStore elem back back) ht
  have ha := countP_set_add (p := Pc.active) (y := .pushStore elem back back) ht
  simp only [Pc.pushing, Pc.popping, Pc.active, Bool.toNat_false, Bool.toNat_true, Nat.add_zero]
    at hp hq ha
  rw [h.versionFront_eq, P.offsetOf_packOffset (by omega)] at hfresh
  have hnext := P.nextVersion_eq (k := back) (by omega)
  exact { h with
    back_eq := by simp only [QueueState.set, hnext]; omega
    front_eq := by simpa only [QueueState.set, hq] using h.front_eq
    pushing_le := by simp only [QueueState.set]; omega
    popping_le := by simpa only [QueueState.set, hq] using h.popping_le
    room := by simp only [QueueState.set, hnext]; omega
    local_ok := by
      intro i pc hi
      rcases getElem?_set_cases hi with ⟨-, rfl⟩ | ⟨-, hi⟩
      · exact ⟨by simp only [QueueState.set]; omega, rfl⟩
      · exact (h.local_ok i pc hi).mono (by simp only [hnext]; omega) le_rfl List.prefix_rfl le_rfl
          (fun _ => ⟨rfl, rfl⟩) fun _ => rfl
    calls_le := by
      have := h.calls_le
      simp only [QueueState.set]
      omega }

/-- The producer in the section writes its cell, which holds no element that is still to be
popped. -/
theorem Inv.pushStore (h : Inv P s) (ht : s.threads[t]? = some (.pushStore elem counter back))
    {vec : List T} (hvec : store s.vec (P.position back) [elem] = some vec) :
    Inv P { s.set t (.pushPublish elem counter back) with vec } := by
  obtain ⟨hcounter, rfl⟩ := h.local_ok t _ ht
  have hpos := countP_pos_of_getElem? (p := Pc.pushing) ht rfl
  have hback := h.back_eq
  have hroom := h.room
  have hp := countP_set_add (p := Pc.pushing) (y := .pushPublish elem back back) ht
  have hq := countP_set_add (p := Pc.popping) (y := .pushPublish elem back back) ht
  have ha := countP_set_add (p := Pc.active) (y := .pushPublish elem back back) ht
  simp only [Pc.pushing, Pc.popping, Pc.active, Bool.toNat_false, Bool.toNat_true, Nat.add_zero,
    Nat.add_right_cancel_iff] at hp hq ha
  have hget := getElem?_of_store hvec
  rw [P.position_eq, hcounter] at hget
  have hwindow : Window s.pushed vec P.sizeLimit s.popped.length s.pushed.length := by
    intro k hk hk'
    have hne := mod_ne_of_lt (N := P.sizeLimit) hk' (by omega)
    rw [hget, if_neg (by simp only [List.length_singleton]; omega)]
    exact h.window k hk hk'
  exact { h with
    length_vec := (length_of_store hvec).trans h.length_vec
    back_eq := by simpa only [QueueState.set, hp] using h.back_eq
    front_eq := by simpa only [QueueState.set, hq] using h.front_eq
    pushing_le := by simpa only [QueueState.set, hp] using h.pushing_le
    popping_le := by simpa only [QueueState.set, hq] using h.popping_le
    window := hwindow
    local_ok := by
      intro i pc hi
      rcases getElem?_set_cases hi with ⟨-, rfl⟩ | ⟨hne, hi⟩
      · refine ⟨hcounter, rfl, ?_⟩
        rw [P.position_eq, hcounter, hget, if_pos (by simp)]
        simp
      · refine (h.local_ok i pc hi).mono le_rfl le_rfl List.prefix_rfl le_rfl (fun hpc => ?_)
          fun _ => rfl
        exact absurd (eq_of_countP_le_one h.pushing_le hi hpc ht rfl) hne
    calls_le := by
      have := h.calls_le
      simp only [QueueState.set]
      omega }

/-- The producer leaves the section: its element is pushed. -/
theorem Inv.pushPublish (h : Inv P s)
    (hwrap : P.sizeLimit + 2 ^ P.versionBits ≤ 2 ^ P.offsetBits)
    (ht : s.threads[t]? = some (.pushPublish elem counter back)) :
    Inv P { s.set t .idle with
      versionBack := P.nextPack counter back, pushed := s.pushed ++ [elem] } := by
  obtain ⟨hcounter, rfl, hcell⟩ := h.local_ok t _ ht
  have hlt := h.active_pos ht rfl
  have hback := h.back_eq
  have hone := h.pushing_le
  have hpos := countP_pos_of_getElem? (p := Pc.pushing) ht rfl
  have hp := countP_set_add (p := Pc.pushing) (y := .idle) ht
  have hq := countP_set_add (p := Pc.popping) (y := .idle) ht
  have ha := countP_set_add (p := Pc.active) (y := .idle) ht
  simp only [Pc.pushing, Pc.popping, Pc.active, Bool.toNat_false, Bool.toNat_true, Nat.add_zero]
    at hp hq ha
  exact { h with
    back_eq := by simp only [QueueState.set, List.length_append, List.length_singleton]; omega
    front_eq := by simpa only [QueueState.set, hq] using h.front_eq
    pushing_le := by simp only [QueueState.set]; omega
    popping_le := by simpa only [QueueState.set, hq] using h.popping_le
    versionBack_eq := by
      simp only [List.length_append, List.length_singleton]
      rw [P.nextPack_eq (by omega) (by omega), hcounter]
    avail := by
      have := h.avail
      simp only [QueueState.set, List.length_append]
      omega
    window := by
      intro k hk hk'
      simp only [QueueState.set, List.length_append, List.length_singleton] at hk hk' ⊢
      by_cases hlast : k < s.pushed.length
      · rw [List.getElem?_append_left hlast]
        exact h.window k hk hlast
      · obtain rfl : k = s.pushed.length := by omega
        rw [P.position_eq, hcounter] at hcell
        rw [hcell, List.getElem?_concat_length]
    popped_prefix := h.popped_prefix.trans (List.prefix_append _ _)
    local_ok := by
      intro i pc hi
      rcases getElem?_set_cases hi with ⟨-, rfl⟩ | ⟨hne, hi⟩
      · trivial
      · refine (h.local_ok i pc hi).mono le_rfl le_rfl (List.prefix_append _ _) le_rfl
          (fun hpc => ?_) fun _ => rfl
        exact absurd (eq_of_countP_le_one h.pushing_le hi hpc ht rfl) hne
    calls_le := by
      have := h.calls_le
      simp only [QueueState.set, List.length_append, List.length_singleton]
      omega }

end Producer

section Consumer
variable {back spin counter front : Nat} {val : T}

/-- The exchange of `pop_front` succeeds, and the queue is not empty at that moment. -/
theorem Inv.popEnter (h : Inv P s) (hwrap : P.sizeLimit + 2 ^ P.versionBits ≤ 2 ^ P.offsetBits)
    (ht : s.threads[t]? = some (.popExchange back spin counter front))
    (hcounter : s.counterFront = counter)
    (hfresh : P.sub front (P.offsetOf s.versionBack) ≠ P.sizeLimit) :
    Inv P { s.set t (.popLoad counter front) with counterFront := P.nextVersion counter } := by
  obtain ⟨rfl, hle⟩ := h.local_ok t _ ht
  have hlt := h.active_pos ht rfl
  have hfront := h.front_eq
  have havail := h.avail
  have hroom := h.room
  have hback := h.back_eq
  have hnone : s.threads.countP Pc.popping = 0 := by omega
  have hp := countP_set_add (p := Pc.pushing) (y := .popLoad counter (P.sizeLimit + counter)) ht
  have hq := countP_set_add (p := Pc.popping) (y := .popLoad counter (P.sizeLimit + counter)) ht
  have ha := countP_set_add (p := Pc.active) (y := .popLoad counter (P.sizeLimit + counter)) ht
  simp only [Pc.pushing, Pc.popping, Pc.active, Bool.toNat_false, Bool.toNat_true, Nat.add_zero]
    at hp hq ha
  rw [h.versionBack_eq, P.offsetOf_packOffset (by omega), P.sub_eq (by omega) (by omega)] at hfresh
  have hnext := P.nextVersion_eq (k := counter) (by omega)
  exact { h with
    back_eq := by simpa only [QueueState.set, hp] using h.back_eq
    front_eq := by simp only [QueueState.set, hnext]; omega
    pushing_le := by simpa only [QueueState.set, hp] using h.pushing_le
    popping_le := by simp only [QueueState.set]; omega
    avail := by simp only [QueueState.set, hnext]; omega
    local_ok := by
      intro i pc hi
      rcases getElem?_set_cases hi with ⟨-, rfl⟩ | ⟨-, hi⟩
      · exact ⟨by simp only [QueueState.set]; omega, rfl⟩
      · exact (h.local_ok i pc hi).mono le_rfl (by simp only [hnext]; omega) List.prefix_rfl le_rfl
          (fun _ => ⟨rfl, rfl⟩) fun _ => rfl
    calls_le := by
      have := h.calls_le
      simp only [QueueState.set]
      omega }

/-- The consumer in the section finds the oldest element that is still to be popped. -/
theorem Inv.popLoad (h : Inv P s) (ht : s.threads[t]? = some (.popLoad counter front))
    (hval : s.vec[P.position front]? = some val) : Inv P (s.set t (.popPublish counter front val)) := by
  obtain ⟨hcounter, rfl⟩ := h.local_ok t _ ht
  refine h.set P ht rfl rfl rfl ⟨hcounter, rfl, ?_⟩
  have hpos := countP_pos_of_getElem? (p := Pc.popping) ht rfl
  have hfront := h.front_eq
  have havail := h.avail
  rw [P.position_eq, Nat.add_mod_left] at hval
  rw [← h.window counter (by omega) (by omega), hval]

/-- The consumer leaves the section with its element. -/
theorem Inv.popPublish (h : Inv P s)
    (hwrap : P.sizeLimit + 2 ^ P.versionBits ≤ 2 ^ P.offsetBits)
    (ht : s.threads[t]? = some (.popPublish counter front val)) :
    Inv P { s.set t .idle with
      versionFront := P.nextPack counter front, popped := s.popped ++ [val] } := by
  obtain ⟨hcounter, rfl, hval⟩ := h.local_ok t _ ht
  have hlt := h.active_pos ht rfl
  have hfront := h.front_eq
  have hone := h.popping_le
  have hpos := countP_pos_of_getElem? (p := Pc.popping) ht rfl
  have hp := countP_set_add (p := Pc.pushing) (y := .idle) ht
  have hq := countP_set_add (p := Pc.popping) (y := .idle) ht
  have ha := countP_set_add (p := Pc.active) (y := .idle) ht
  simp only [Pc.pushing, Pc.popping, Pc.active, Bool.toNat_false, Bool.toNat_true, Nat.add_zero]
    at hp hq ha
  exact { h with
    back_eq := by simpa only [QueueState.set, hp] using h.back_eq
    front_eq := by simp only [QueueState.set, List.length_append, List.length_singleton]; omega
    pushing_le := by simpa only [QueueState.set, hp] using h.pushing_le
    popping_le := by simp only [QueueState.set]; omega
    versionFront_eq := by
      simp only [List.length_append, List.length_singleton]
      rw [P.nextPack_eq (by omega) (by omega), hcounter, Nat.add_assoc]
    room := by
      have := h.room
      simp only [QueueState.set, List.length_append]
      omega
    window := h.window.mono (by simp)
    popped_prefix := prefix_concat h.popped_prefix (hcounter ▸ hval)
    local_ok := by
      intro i pc hi
      rcases getElem?_set_cases hi with ⟨-, rfl⟩ | ⟨hne, hi⟩
      · trivial
      · refine (h.local_ok i pc hi).mono le_rfl le_rfl List.prefix_rfl (by simp)
          (fun _ => ⟨rfl, rfl⟩) fun hpc => ?_
        exact absurd (eq_of_countP_le_one h.popping_le hi hpc ht rfl) hne
    calls_le := by
      have := h.calls_le
      simp only [QueueState.set, List.length_append, List.length_singleton]
      omega }

end Consumer

/-- An operation is called. -/
theorem Inv.call (h : Inv P s) (ht : s.threads[t]? = some .idle)
    (hpush : pc.pushing = false) (hpop : pc.popping = false) (hok : LocalOk P s pc)
    (hcalls : s.calls + 1 < 2 ^ P.versionBits) :
    Inv P { s.set t pc with calls := s.calls + 1 } := by
  have hp := countP_set_add (p := Pc.pushing) (y := pc) ht
  have hq := countP_set_add (p := Pc.popping) (y := pc) ht
  have ha := countP_set_add (p := Pc.active) (y := pc) ht
  have hle : pc.active.toNat ≤ 1 := Bool.toNat_le _
  rw [hpush] at hp
  rw [hpop] at hq
  rw [show (Pc.idle : Pc T).active = false from rfl] at ha
  simp only [Pc.pushing, Pc.popping, Bool.toNat_false, Nat.add_zero] at hp hq ha
  exact { h with
    back_eq := by simpa only [QueueState.set, hp] using h.back_eq
    front_eq := by simpa only [QueueState.set, hq] using h.front_eq
    pushing_le := by simpa only [QueueState.set, hp] using h.pushing_le
    popping_le := by simpa only [QueueState.set, hq] using h.popping_le
    local_ok := by
      intro i pc hi
      rcases getElem?_set_cases hi with ⟨-, rfl⟩ | ⟨-, hi⟩
      · exact hok
      · exact h.local_ok i pc hi
    calls_le := by
      have := h.calls_le
      simp only [QueueState.set]
      omega
    calls_lt := hcalls }

variable (P)

/-- A compare-exchange does not succeed on a queue that is full, or empty, at that moment. -/
def Fresh (s : QueueState T) : Act T → Prop
  | .step t false =>
    match s.threads[t]? with
    | some (.pushExchange _ _ _ counter back) =>
      s.counterBack = counter → P.offsetOf s.versionFront ≠ back
    | some (.popExchange _ _ counter front) =>
      s.counterFront = counter → P.sub front (P.offsetOf s.versionBack) ≠ P.sizeLimit
    | _ => True
  | _ => True

/-- Fewer than `2 ^ versionBits` operations are called. -/
def FewCalls (s : QueueState T) : Act T → Prop
  | .step .. => True
  | _ => s.calls + 1 < 2 ^ P.versionBits

variable {P}

theorem Inv.stepThread (h : Inv P s) (hwrap : P.sizeLimit + 2 ^ P.versionBits ≤ 2 ^ P.offsetBits)
    {spurious : Bool} (ht : s.threads[t]? = some pc) (hfresh : Fresh P s (.step t spurious))
    (hstep : stepThread P s t spurious pc = some s') : Inv P s' := by
  have hretry {elem : T} {front spin : Nat} :
      (pushRetry elem front spin).pushing = false ∧ (pushRetry elem front spin).popping = false ∧
        LocalOk P s (pushRetry elem front spin) := by
    rw [pushRetry]
    split_ifs <;> exact ⟨rfl, rfl, trivial⟩
  have hretry' {back spin : Nat} :
      (popRetry (T := T) back spin).pushing = false ∧ (popRetry (T := T) back spin).popping = false ∧
        LocalOk P s (popRetry back spin) := by
    rw [popRetry]
    split_ifs <;> exact ⟨rfl, rfl, trivial⟩
  cases pc with
  | idle => simp [Queue.stepThread] at hstep
  | pushFront elem =>
    obtain rfl := Option.some.inj hstep
    exact h.set P ht rfl rfl rfl trivial
  | pushCounter elem front spin =>
    obtain rfl := Option.some.inj hstep
    exact h.set P ht rfl rfl rfl le_rfl
  | pushVersion elem front spin counter =>
    simp only [Queue.stepThread] at hstep
    split at hstep
    · rename_i back hback
      split_ifs at hstep
      · obtain rfl := Option.some.inj hstep
        exact h.set P ht rfl rfl rfl trivial
      · obtain rfl := Option.some.inj hstep
        obtain ⟨hb, hc⟩ := h.unpack_back hwrap (h.local_ok t _ ht) ht rfl hback
        exact h.set P ht rfl rfl rfl ⟨hb, hc.le⟩
    · obtain rfl := Option.some.inj hstep
      exact h.set P ht hretry.1 hretry.2.1 rfl hretry.2.2
  | pushExchange elem front spin counter back =>
    simp only [Queue.stepThread] at hstep
    split_ifs at hstep with hsucc
    · obtain rfl := Option.some.inj hstep
      obtain ⟨rfl, hcounter⟩ := hsucc
      simp only [Fresh, ht] at hfresh
      exact h.pushEnter hwrap ht hcounter (hfresh hcounter)
    · obtain rfl := Option.some.inj hstep
      exact h.set P ht hretry.1 hretry.2.1 rfl hretry.2.2
  | pushStore elem counter back =>
    obtain ⟨vec, hvec, rfl⟩ := Option.map_eq_some_iff.mp hstep
    exact h.pushStore ht hvec
  | pushPublish elem counter back =>
    obtain rfl := Option.some.inj hstep
    exact h.pushPublish hwrap ht
  | popBack =>
    obtain rfl := Option.some.inj hstep
    exact h.set P ht rfl rfl rfl trivial
  | popCounter back spin =>
    obtain rfl := Option.some.inj hstep
    exact h.set P ht rfl rfl rfl le_rfl
  | popVersion back spin counter =>
    simp only [Queue.stepThread] at hstep
    split at hstep
    · rename_i front hfront
      split_ifs at hstep
      · obtain rfl := Option.some.inj hstep
        exact h.set P ht rfl rfl rfl trivial
      · obtain rfl := Option.some.inj hstep
        obtain ⟨hf, hc⟩ := h.unpack_front hwrap (h.local_ok t _ ht) ht rfl hfront
        exact h.set P ht rfl rfl rfl ⟨hf, hc.le⟩
    · obtain rfl := Option.some.inj hstep
      exact h.set P ht hretry'.1 hretry'.2.1 rfl hretry'.2.2
  | popExchange back spin counter front =>
    simp only [Queue.stepThread] at hstep
    split_ifs at hstep with hsucc
    · obtain rfl := Option.some.inj hstep
      obtain ⟨rfl, hcounter⟩ := hsucc
      simp only [Fresh, ht] at hfresh
      exact h.popEnter hwrap ht hcounter (hfresh hcounter)
    · obtain rfl := Option.some.inj hstep
      exact h.set P ht hretry'.1 hretry'.2.1 rfl hretry'.2.2
  | popLoad counter front =>
    obtain ⟨val, hval, rfl⟩ := Option.map_eq_some_iff.mp hstep
    exact h.popLoad ht hval
  | popPublish counter front val =>
    obtain rfl := Option.some.inj hstep
    exact h.popPublish hwrap ht

theorem Inv.of_reaches {null : T} (hwrap : P.sizeLimit + 2 ^ P.versionBits ≤ 2 ^ P.offsetBits)
    (h : (machine P null).Reaches (fun s a => Fresh P s a ∧ FewCalls P s a) s) : Inv P s := by
  refine h.invariant ?_ ?_
  · rintro s ⟨n, rfl⟩
    exact {
      length_vec := List.length_replicate
      back_eq := by simp [List.countP_replicate, Pc.pushing]
      front_eq := by simp [List.countP_replicate, Pc.popping]
      pushing_le := by simp [List.countP_replicate, Pc.pushing]
      popping_le := by simp [List.countP_replicate, Pc.popping]
      versionBack_eq := rfl
      versionFront_eq := rfl
      room := Nat.zero_le _
      avail := le_rfl
      window := .nil _ _ _ _
      popped_prefix := List.prefix_rfl
      local_ok := by
        intro i pc hi
        obtain rfl := List.eq_of_mem_replicate (List.mem_of_getElem? hi)
        trivial
      calls_le := by simp [List.countP_replicate, Pc.active]
      calls_lt := Nat.two_pow_pos _ }
  · rintro s a s' hinv ⟨hfresh, hcalls⟩ hstep
    cases a with
    | callPush t elem =>
      simp only [machine] at hstep
      split at hstep
      · rename_i ht
        obtain rfl := Option.some.inj hstep
        exact hinv.call ht rfl rfl trivial hcalls
      · cases hstep
    | callPop t =>
      simp only [machine] at hstep
      split at hstep
      · rename_i ht
        obtain rfl := Option.some.inj hstep
        exact hinv.call ht rfl rfl trivial hcalls
      · cases hstep
    | step t spurious =>
      obtain ⟨pc, ht, hstep⟩ := Option.bind_eq_some_iff.mp hstep
      exact hinv.stepThread hwrap ht hfresh hstep

section Alone

/-- A pop by one thread with no other thread moving, on a queue that is not empty. -/
def popAlone (t : Nat) : List (Act T) := .callPop t :: List.replicate 6 (.step t false)

/-- The same on an empty queue: the call returns after it has read the three words. -/
def popEmpty (t : Nat) : List (Act T) := .callPop t :: List.replicate 3 (.step t false)

def Quiescent (s : QueueState T) : Prop := ∀ pc ∈ s.threads, pc = .idle

/-- The words as a thread reads them when no operation is under way. -/
theorem Inv.quiescent_words (h : Inv P s)
    (hwrap : P.sizeLimit + 2 ^ P.versionBits ≤ 2 ^ P.offsetBits) (hq : Quiescent s)
    (hcalls : s.calls + 1 < 2 ^ P.versionBits) :
    P.offsetOf s.versionBack = s.pushed.length ∧ s.counterFront = s.popped.length ∧
      P.unpackOffsets s.counterFront s.versionFront = some (P.sizeLimit + s.popped.length) ∧
      P.sub (P.sizeLimit + s.popped.length) s.pushed.length =
        P.sizeLimit + s.popped.length - s.pushed.length := by
  have hpop : s.threads.countP Pc.popping = 0 := by
    rw [List.countP_eq_zero]
    intro pc hpc
    simp [hq pc hpc, Pc.popping]
  have hfront := h.front_eq
  have hback := h.back_eq
  have hroom := h.room
  have hle := h.calls_le
  have hf : s.counterFront = s.popped.length := by omega
  refine ⟨?_, hf, ?_, P.sub_eq (by omega) (by omega)⟩
  · rw [h.versionBack_eq, P.offsetOf_packOffset (by omega)]
  · rw [h.versionFront_eq, P.unpackOffsets_packOffset (by omega) (by omega) (by omega), hf, if_pos rfl]

/-- The state while the lone thread `t` is at `pc`, before it has entered its section. -/
def aloneAt (s : QueueState T) (t : Nat) (pc : Pc T) : QueueState T :=
  { s.set t pc with calls := s.calls + 1 }

theorem step_aloneAt (null : T) (pc pc' : Pc T) (ht : t < s.threads.length)
    (hstep : stepThread P (aloneAt s t pc) t false pc = some ((aloneAt s t pc).set t pc')) :
    (machine P null).step (aloneAt s t pc) (.step t false) = some (aloneAt s t pc') := by
  have hget : (aloneAt s t pc).threads[t]? = some pc := List.getElem?_set_self ht
  have hset : (aloneAt s t pc).set t pc' = aloneAt s t pc' := by
    simp [aloneAt, QueueState.set, List.set_set]
  simp only [machine, hget, Option.bind_some, hstep, hset]

/-- The first three accesses of a lone pop. -/
theorem Inv.run_popRead (h : Inv P s) (null : T)
    (hwrap : P.sizeLimit + 2 ^ P.versionBits ≤ 2 ^ P.offsetBits) (hq : Quiescent s)
    (ht : t < s.threads.length) (hcalls : s.calls + 1 < 2 ^ P.versionBits) (as : List (Act T)) :
    (machine P null).run s (popEmpty t ++ as) =
      (machine P null).run (aloneAt s t (if s.popped.length = s.pushed.length then .idle
        else .popExchange s.pushed.length 0 s.counterFront (P.sizeLimit + s.popped.length))) as := by
  obtain ⟨hb, hf, hunpack, hsub⟩ := h.quiescent_words hwrap hq hcalls
  have hroom := h.room
  have hback := h.back_eq
  have hle := h.popped_prefix.length_le
  have hidle : s.threads[t]? = some .idle := by
    rw [List.getElem?_eq_getElem ht, hq _ (List.getElem_mem ht)]
  have h0 : (machine P null).step s (.callPop t) = some (aloneAt s t .popBack) := by
    simp only [machine, hidle, aloneAt]
  have h1 := step_aloneAt (P := P) null .popBack (.popCounter s.pushed.length 0) ht
    (by rw [← hb]; rfl)
  have h2 := step_aloneAt (P := P) null (.popCounter s.pushed.length 0)
    (.popVersion s.pushed.length 0 s.counterFront) ht rfl
  have h3 := step_aloneAt (P := P) null (.popVersion s.pushed.length 0 s.counterFront)
    (if s.popped.length = s.pushed.length then .idle
      else .popExchange s.pushed.length 0 s.counterFront (P.sizeLimit + s.popped.length)) ht (by
      have hunpack' : P.unpackOffsets s.counterFront
          (aloneAt s t (.popVersion s.pushed.length 0 s.counterFront)).versionFront =
          some (P.sizeLimit + s.popped.length) := hunpack
      simp only [Queue.stepThread, hunpack', hsub]
      by_cases heq : s.popped.length = s.pushed.length
      · rw [if_pos heq, if_pos (by omega)]
      · rw [if_neg heq, if_neg (by omega)])
  simp only [popEmpty, List.replicate, List.cons_append, List.nil_append, Machine.run, h0, h1, h2, h3,
    Option.bind_some]

theorem Inv.run_popEmpty (h : Inv P s) (null : T)
    (hwrap : P.sizeLimit + 2 ^ P.versionBits ≤ 2 ^ P.offsetBits) (hq : Quiescent s)
    (ht : t < s.threads.length) (hcalls : s.calls + 1 < 2 ^ P.versionBits)
    (hempty : s.popped.length = s.pushed.length) :
    (machine P null).run s (popEmpty t) = some (aloneAt s t .idle) := by
  rw [← List.append_nil (popEmpty t), h.run_popRead null hwrap hq ht hcalls, if_pos hempty]
  rfl

/-- A lone pop takes out the oldest element. -/
theorem Inv.run_popAlone (h : Inv P s) (null : T)
    (hwrap : P.sizeLimit + 2 ^ P.versionBits ≤ 2 ^ P.offsetBits) (hq : Quiescent s)
    (ht : t < s.threads.length) (hcalls : s.calls + 1 < 2 ^ P.versionBits)
    (hne : s.popped.length < s.pushed.length) :
    ∃ s', (machine P null).run s (popAlone t) = some s' ∧ s'.pushed = s.pushed ∧
      s'.popped = s.popped ++ [s.pushed[s.popped.length]] ∧ s'.threads = s.threads ∧
      s'.calls = s.calls + 1 ∧ Inv P s' := by
  obtain ⟨-, hf, -, hsub⟩ := h.quiescent_words hwrap hq hcalls
  have hroom := h.room
  have hback := h.back_eq
  have hidle : s.threads[t]? = some .idle := by
    rw [List.getElem?_eq_getElem ht, hq _ (List.getElem_mem ht)]
  have hcell : s.vec[P.position (P.sizeLimit + s.popped.length)]? =
      some s.pushed[s.popped.length] := by
    rw [P.position_eq, Nat.add_mod_left, h.window _ le_rfl hne, List.getElem?_eq_getElem hne]
  have hthreads : s.threads.set t .idle = s.threads := by
    have hget : s.threads[t] = .idle := hq _ (List.getElem_mem ht)
    rw [← hget, List.set_getElem_self]
  -- the words at the end of the section
  have hnone (p : Pc T → Bool) (hp : p .idle = false) : s.threads.countP p = 0 := by
    rw [List.countP_eq_zero]
    intro pc hpc
    simp [hq pc hpc, hp]
  have hle := h.calls_le
  have hpack := P.nextPack_eq (k := s.popped.length) (o := P.sizeLimit + s.popped.length)
    (by omega) (by omega)
  have hver := P.nextVersion_eq (k := s.popped.length) (by omega)
  refine ⟨{ s with
    counterFront := s.popped.length + 1
    versionFront := P.packOffset (s.popped.length + 1) (P.sizeLimit + s.popped.length + 1)
    popped := s.popped ++ [s.pushed[s.popped.length]]
    calls := s.calls + 1 }, ?_, rfl, rfl, rfl, rfl, ?_⟩
  · have hsplit : popAlone (T := T) t = popEmpty t ++ List.replicate 3 (.step t false) := rfl
    rw [hsplit, h.run_popRead null hwrap hq ht hcalls, if_neg (by omega)]
    simp [Machine.run, machine, aloneAt, QueueState.set, Queue.stepThread, ht, hf, hcell, hpack, hver,
      hthreads]
  · exact { h with
      front_eq := by rw [hnone Pc.popping rfl]; simp
      versionFront_eq := by simp [Nat.add_assoc]
      room := by simp only [List.length_append]; omega
      avail := hne
      window := h.window.mono (by simp)
      popped_prefix := prefix_concat h.popped_prefix (List.getElem?_eq_getElem hne)
      local_ok := fun i pc hi => by
        obtain rfl := hq pc (List.mem_of_getElem? hi)
        trivial
      calls_le := by simp only [List.length_append, List.length_singleton]; omega
      calls_lt := hcalls }

/-- Lone pops take out the elements that are left, in order. -/
theorem Inv.run_pops (h : Inv P s) (null : T)
    (hwrap : P.sizeLimit + 2 ^ P.versionBits ≤ 2 ^ P.offsetBits) (hq : Quiescent s)
    (ht : t < s.threads.length) {n : Nat} (hcalls : s.calls + n < 2 ^ P.versionBits)
    (hn : s.popped.length + n = s.pushed.length) :
    ∃ s', (machine P null).run s (List.replicate n (popAlone t)).flatten = some s' ∧
      s'.pushed = s.pushed ∧ s'.popped = s.pushed ∧ s'.threads = s.threads ∧
      s'.calls = s.calls + n ∧ Inv P s' := by
  induction n generalizing s with
  | zero => exact ⟨s, rfl, rfl, h.popped_prefix.eq_of_length (by omega), rfl, rfl, h⟩
  | succ n ih =>
    obtain ⟨s₁, hrun, hpushed, hpopped, hthreads, hcalls₁, hinv⟩ :=
      h.run_popAlone null hwrap hq ht (by omega) (by omega)
    have hlen : s₁.popped.length = s.popped.length + 1 := by simp [hpopped]
    obtain ⟨s₂, hrun₂, hpushed₂, hpopped₂, hthreads₂, hcalls₂, hinv₂⟩ := ih hinv
      (by rw [Quiescent, hthreads]; exact hq) (by rw [hthreads]; exact ht) (by omega)
      (by rw [hpushed]; omega)
    refine ⟨s₂, ?_, hpushed₂.trans hpushed, hpopped₂.trans hpushed, hthreads₂.trans hthreads,
      by omega, hinv₂⟩
    rw [List.replicate_succ, List.flatten_cons, Machine.run_append, hrun]
    exact hrun₂

end Alone

/-- The queue as its users see it. -/
structure Fifo (P : Params) (null : T) (s : QueueState T) : Prop where
  /-- The pops have returned the elements of the first pushes, each once and in order. -/
  popped_once : s.popped <+: s.pushed
  /-- An element that is not popped yet stands in its cell. -/
  intact : ∀ k, s.popped.length ≤ k → k < s.pushed.length → s.vec[P.position k]? = s.pushed[k]?
  bounded : s.pushed.length ≤ s.popped.length + P.sizeLimit
  /-- When no operation is under way, as many pops as there are elements left return these
  elements, and one more finds the queue empty. -/
  retrievable : Quiescent s → ∀ t < s.threads.length, ∀ n, s.popped.length + n = s.pushed.length →
    s.calls + n + 1 < 2 ^ P.versionBits →
    ∃ s', (machine P null).run s ((List.replicate n (popAlone t)).flatten ++ popEmpty t) = some s' ∧
      s'.pushed = s.pushed ∧ s'.popped = s.pushed ∧ Quiescent s'

/-- Every run in which no exchange succeeds on a queue that is full or empty at that moment keeps
the queue a bounded queue of the pushed elements. -/
theorem fifo_of_reaches {null : T} (hwrap : P.sizeLimit + 2 ^ P.versionBits ≤ 2 ^ P.offsetBits)
    (h : (machine P null).Reaches (fun s a => Fresh P s a ∧ FewCalls P s a) s) : Fifo P null s := by
  have hinv := Inv.of_reaches hwrap h
  have hroom := hinv.room
  have hback := hinv.back_eq
  refine ⟨hinv.popped_prefix, fun k hk hk' => ?_, by omega, fun hq t ht n hn hcalls => ?_⟩
  · rw [P.position_eq, hinv.window k hk hk']
  · obtain ⟨s₁, hrun, hpushed, hpopped, hthreads, hcalls₁, hinv₁⟩ :=
      hinv.run_pops null hwrap hq ht (by omega) hn
    have hq₁ : Quiescent s₁ := by
      rw [Quiescent, hthreads]
      exact hq
    have hempty := hinv₁.run_popEmpty null hwrap hq₁ (by rw [hthreads]; exact ht) (by omega)
      (by rw [hpopped, hpushed])
    refine ⟨aloneAt s₁ t .idle, ?_, hpushed, hpopped, ?_⟩
    · rw [Machine.run_append, hrun]
      exact hempty
    · intro pc hpc
      rcases List.mem_or_eq_of_mem_set hpc with hpc | rfl
      · exact hq₁ pc hpc
      · rfl

/-- The next access of the thread is an exchange that succeeds on a queue that is full, or empty. -/
def stale (P : Params) (s : QueueState T) (t : Nat) : Bool :=
  match s.threads[t]? with
  | some (.pushExchange _ _ _ counter back) => s.counterBack = counter && P.offsetOf s.versionFront = back
  | some (.popExchange _ _ counter front) =>
    s.counterFront = counter && P.sub front (P.offsetOf s.versionBack) = P.sizeLimit
  | _ => false

theorem fresh_step_iff {t : Nat} : stale P s t = false ↔ Fresh P s (.step t false) := by
  cases hpc : s.threads[t]? with
  | none => simp [stale, Fresh, hpc]
  | some pc => cases pc <;> simp [stale, Fresh, hpc]

instance (P : Params) (s : QueueState T) : (a : Act T) → Decidable (Fresh P s a)
  | .step _ false => decidable_of_iff _ fresh_step_iff
  | .step _ true | .callPush .. | .callPop _ => .isTrue trivial

instance (P : Params) (s : QueueState T) : (a : Act T) → Decidable (FewCalls P s a)
  | .step .. => .isTrue trivial
  | .callPush .. | .callPop _ => inferInstanceAs (Decidable (s.calls + 1 < 2 ^ P.versionBits))

end Invariant

/-- The default template arguments, with room for two elements. -/
def pair : Params := ⟨48, 16, 64, 1, by decide, by decide⟩

/-- Two producers, of which the second finds the first in its section, tries again and fills the queue; a push
that finds it full while the third thread pops; and a push behind that pop. -/
def interleaved : List (Act Nat) :=
  [.callPush 0 10, .callPush 1 20, .step 0 false, .step 1 false, .step 0 false, .step 1 false, .step 0 false,
    .step 1 false, .step 0 false, .step 1 false, .step 0 false, .step 1 false, .step 0 false, .step 1 false,
    .step 1 false, .step 1 false, .step 1 false,
    .callPop 2, .callPush 0 30, .step 2 false, .step 0 false, .step 2 false, .step 0 false, .step 2 false,
    .step 0 false, .step 2 false, .step 2 false, .step 2 false] ++
  .callPush 0 40 :: List.replicate 6 (.step 0 false)

theorem fifo_of_interleaved : ∃ s, (machine pair 0).Reaches (fun s a => Fresh pair s a ∧ FewCalls pair s a) s ∧
    s.pushed = [10, 20, 40] ∧ s.popped = [10] ∧ s.calls = 5 ∧ Fifo pair 0 s := by
  have hend : (((machine pair 0).guard fun s a => Fresh pair s a ∧ FewCalls pair s a).run
      ⟨[0, 0], 0, pair.packOffset 0 0, 0, pair.packOffset 0 2, [.idle, .idle, .idle], [], [], 0⟩ interleaved).map
        (fun s => (s.pushed, s.popped, s.calls)) = some ([10, 20, 40], [10], 5) := by decide +kernel
  have hstart : (machine pair 0).Reaches (fun s a => Fresh pair s a ∧ FewCalls pair s a)
      ⟨[0, 0], 0, pair.packOffset 0 0, 0, pair.packOffset 0 2, [.idle, .idle, .idle], [], [], 0⟩ := .start ⟨3, rfl⟩
  obtain ⟨s, hreach, hstate⟩ := hstart.exists_of_guard_run hend
  simp only [Prod.mk.injEq] at hstate
  obtain ⟨hpushed, hpopped, hcalls⟩ := hstate
  exact ⟨s, hreach, hpushed, hpopped, hcalls, fifo_of_reaches (by decide) hreach⟩

/-- The default template arguments, with room for one element. -/
def single : Params := ⟨48, 16, 64, 0, by decide, by decide⟩

/-- A fresh queue of one cell and three threads. -/
def singleInit : QueueState Nat where
  vec := [0]
  counterBack := 0
  versionBack := single.packOffset 0 0
  counterFront := 0
  versionFront := single.packOffset 0 1
  threads := [.idle, .idle, .idle]
  pushed := []
  popped := []
  calls := 0

/-- The first thread reads the front and stalls while the others push 10, pop it and push 20; its
own push then passes the test for a full queue and overwrites 20. -/
theorem fifo_fails_stalled_push : (machine single 0).init singleInit ∧
    ∃ s, (machine single 0).run singleInit
      ([Act.callPush 0 30, Act.step 0 false] ++
        (Act.callPush 1 10 :: List.replicate 6 (Act.step 1 false)) ++ popAlone 2 ++
        (Act.callPush 1 20 :: List.replicate 6 (Act.step 1 false)) ++
        List.replicate 5 (Act.step 0 false)) = some s ∧
      s.calls < 2 ^ single.versionBits ∧ s.pushed = [10, 20, 30] ∧ s.popped = [10] ∧
      s.vec = [30] ∧ ¬ Fifo single 0 s := by
  refine ⟨⟨3, rfl⟩, _, rfl, by decide, rfl, rfl, rfl, fun h => ?_⟩
  exact absurd h.bounded (by decide)

end Latypus.Queue
