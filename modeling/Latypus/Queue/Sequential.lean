import Latypus.Queue.Spsc
import Latypus.Lib.Mealy

/-! The queue used by one thread at a time. Both offsets wrap at `2 ^ OFFSET_BITS`, the front
`size_limit` elements before the back; while only the front has wrapped, the differences that
`empty`, `pop_front` and `size` take are those of another position. `full` and `push_back` compare
for equality and are right everywhere. -/

namespace Latypus.Queue
open Lib

/-- The storage and the shared words. -/
structure Words (T : Type) where
  vec : List T
  counterBack : Nat
  versionBack : Nat
  counterFront : Nat
  versionFront : Nat
deriving DecidableEq, Repr

/-- The calls. The weak exchange of a push or a pop fails `fails` times although the word has the
expected value, before it does not. -/
inductive Call (T : Type) where
  | pushBack (elem : T) (fails : Nat)
  | popFront (fails : Nat)
  | empty
  | full
  | size
deriving DecidableEq, Repr

inductive Reply (T : Type) where
  | flag (b : Bool)
  | elem (val : T)
  | count (n : Nat)
deriving DecidableEq, Repr

/-- `offset_limit`, which is stored in an atomic word. -/
def Params.offsetLimit (P : Params) : Nat := 2 ^ P.offsetBits % 2 ^ P.atomicBits

section Code
variable {T : Type} (P : Params)

/-- The constructor; the second `pack_offset` asserts that the offset is below `offset_limit`. -/
def construct (null : T) : Option (Words T) :=
  if P.sizeLimit < P.offsetLimit then some {
    vec := List.replicate P.sizeLimit null
    counterBack := 0
    versionBack := P.packOffset 0 0
    counterFront := 0
    versionFront := P.packOffset 0 P.sizeLimit }
  else none

namespace Words

/-- The loop of `push_back` with `spins` passes left. -/
def pushLoop (w : Words T) (elem : T) (front : Nat) : (spins fails : Nat) → Option (Bool × Words T)
  | 0, _ => some (false, w)
  | spins + 1, fails =>
    match P.unpackOffsets w.counterBack w.versionBack with
    | none => w.pushLoop elem front spins fails
    | some back =>
      if front = back then some (false, w)
      else if fails = 0 then
        (store w.vec (P.position back) [elem]).map fun vec =>
          (true, { w with
            vec, counterBack := P.nextVersion w.counterBack, versionBack := P.nextPack w.counterBack back })
      else w.pushLoop elem front spins (fails - 1)

def pushBack (w : Words T) (elem : T) (fails : Nat) : Option (Bool × Words T) :=
  w.pushLoop P elem (P.offsetOf w.versionFront) spinLimit fails

/-- The loop of `pop_front` with `spins` passes left. -/
def popLoop (w : Words T) (null : T) (back : Nat) : (spins fails : Nat) → Option (T × Words T)
  | 0, _ => some (null, w)
  | spins + 1, fails =>
    match P.unpackOffsets w.counterFront w.versionFront with
    | none => w.popLoop null back spins fails
    | some front =>
      if P.sub front back = P.sizeLimit then some (null, w)
      else if fails = 0 then
        (w.vec[P.position front]?).map fun val =>
          (val, { w with
            counterFront := P.nextVersion w.counterFront, versionFront := P.nextPack w.counterFront front })
      else w.popLoop null back spins (fails - 1)

def popFront (w : Words T) (null : T) (fails : Nat) : Option (T × Words T) :=
  w.popLoop P null (P.offsetOf w.versionBack) spinLimit fails

/-- A type narrower than `int` gives a negative difference in place of the wrapped one, and neither
is `size_limit`. -/
def empty (w : Words T) : Bool := P.sub (P.offsetOf w.versionFront) (P.offsetOf w.versionBack) = P.sizeLimit

def full (w : Words T) : Bool := P.offsetOf w.versionFront = P.offsetOf w.versionBack

def size (w : Words T) : Nat :=
  let back := P.offsetOf w.versionBack
  let front := P.offsetOf w.versionFront
  if front < back then P.sub back front else (P.sub P.sizeLimit front + back) % 2 ^ P.atomicBits

def call (null : T) (w : Words T) : Call T → Option (Reply T × Words T)
  | .pushBack elem fails => (w.pushBack P elem fails).map fun r => (.flag r.1, r.2)
  | .popFront fails => (w.popFront P null fails).map fun r => (.elem r.1, r.2)
  | .empty => some (.flag (w.empty P), w)
  | .full => some (.flag (w.full P), w)
  | .size => some (.count (w.size P), w)

end Words
end Code

/-- A FIFO of bounded capacity, with the number of elements that were taken out of it. -/
structure Contents (T : Type) where
  elems : List T
  taken : Nat
deriving DecidableEq, Repr

namespace Contents
variable {T : Type}

/-- What the calls of a FIFO of the given capacity reply. -/
def call (capacity : Nat) (null : T) (t : Contents T) : Call T → Reply T × Contents T
  | .pushBack elem _ =>
    if t.elems.length < capacity then (.flag true, ⟨t.elems ++ [elem], t.taken⟩) else (.flag false, t)
  | .popFront _ =>
    match t.elems with
    | [] => (.elem null, t)
    | val :: elems => (.elem val, ⟨elems, t.taken + 1⟩)
  | .empty => (.flag t.elems.isEmpty, t)
  | .full => (.flag (t.elems.length = capacity), t)
  | .size => (.count t.elems.length, t)

/-- The number of elements that were put in. -/
def given (t : Contents T) : Nat := t.taken + t.elems.length

/-- The front offset has wrapped and the back offset has not. -/
def FrontWrapped (P : Params) (t : Contents T) : Prop :=
  t.taken % 2 ^ P.offsetBits + t.elems.length < 2 ^ P.offsetBits ∧
    2 ^ P.offsetBits ≤ t.taken % 2 ^ P.offsetBits + P.sizeLimit

/-- Where the queue replies as the FIFO does: no exchange fails up to the spin limit, and while only
the front has wrapped there is no `size`, and no `empty` or `pop_front` on an empty queue. -/
def Agrees (P : Params) (t : Contents T) : Call T → Prop
  | .pushBack _ fails => t.elems.length < P.sizeLimit → fails < spinLimit
  | .popFront fails => if t.elems = [] then t.FrontWrapped P → spinLimit ≤ fails else fails < spinLimit
  | .empty => t.elems = [] → ¬ t.FrontWrapped P
  | .full => True
  | .size => ¬ t.FrontWrapped P

end Contents

/-- A push gives an element that is not the null element. -/
def Call.NonNull {T : Type} (null : T) : Call T → Prop
  | .pushBack elem _ => elem ≠ null
  | _ => True

/-! ### The offsets -/

namespace Params
variable (P : Params)

theorem two_mul_sizeLimit_le : 2 * P.sizeLimit ≤ 2 ^ P.offsetBits := by
  have hlt := P.size_lt
  rw [sizeLimit, ← Nat.pow_succ']
  exact Nat.pow_le_pow_right (by decide) hlt

theorem sizeLimit_pos : 0 < P.sizeLimit := Nat.two_pow_pos _

theorem position_mod (k : Nat) : P.position (k % 2 ^ P.offsetBits) = k % P.sizeLimit := by
  rw [position_eq, sizeLimit, Nat.mod_mod_of_dvd _ (Nat.pow_dvd_pow 2 P.size_lt.le)]

theorem nextPack_mod (k o : Nat) :
    P.nextPack (P.version k) (o % 2 ^ P.offsetBits) =
      P.packOffset (P.version (k + 1)) ((o + 1) % 2 ^ P.offsetBits) := by
  rw [nextPack, nextVersion_version, Nat.and_two_pow_sub_one_eq_mod, Nat.mod_add_mod]

/-- The constructor's assertion leaves no room for offsets as wide as the atomic word. -/
theorem two_mul_offsetLimit_le (h : P.sizeLimit < P.offsetLimit) : 2 * 2 ^ P.offsetBits ≤ 2 ^ P.atomicBits := by
  rw [← Nat.pow_succ']
  apply Nat.pow_le_pow_right (by decide)
  by_contra hle
  have hzero : P.offsetLimit = 0 := by
    apply Nat.mod_eq_zero_of_dvd
    exact Nat.pow_dvd_pow 2 (by omega)
  rw [hzero] at h
  exact absurd h (Nat.not_lt_zero _)

end Params

theorem add_mod_eq {k r m : Nat} (hk : k < m) (hr : r < m) : (k + r) % m = if k + r < m then k + r else k + r - m := by
  split_ifs with h
  · exact Nat.mod_eq_of_lt h
  · rw [Nat.mod_eq_sub_mod (by omega), Nat.mod_eq_of_lt (by omega)]

namespace Contents
variable {T : Type} {P : Params} {t : Contents T}

/-- The offset that is stored in `version_back`, and in `version_front`. -/
def back (P : Params) (t : Contents T) : Nat := t.given % 2 ^ P.offsetBits

def front (P : Params) (t : Contents T) : Nat := (P.sizeLimit + t.taken) % 2 ^ P.offsetBits

theorem back_lt : t.back P < 2 ^ P.offsetBits := Nat.mod_lt _ (Nat.two_pow_pos _)

theorem front_lt : t.front P < 2 ^ P.offsetBits := Nat.mod_lt _ (Nat.two_pow_pos _)

/-- The front is the free room ahead of the back, or it has wrapped and is that much less the limit
of the offsets. -/
theorem front_eq (hroom : t.elems.length ≤ P.sizeLimit) :
    ¬ t.FrontWrapped P ∧ t.front P + t.elems.length = t.back P + P.sizeLimit ∨
      t.FrontWrapped P ∧ t.front P + 2 ^ P.offsetBits + t.elems.length = t.back P + P.sizeLimit := by
  have hsize := P.two_mul_sizeLimit_le
  have hpos := P.sizeLimit_pos
  have hr : t.taken % 2 ^ P.offsetBits < 2 ^ P.offsetBits := Nat.mod_lt _ (Nat.two_pow_pos _)
  unfold FrontWrapped front back given
  rw [Nat.add_comm P.sizeLimit, ← Nat.mod_add_mod, add_mod_eq hr (by omega), ← Nat.mod_add_mod t.taken,
    add_mod_eq hr (by omega)]
  split_ifs <;> omega

theorem frontWrapped_iff (hroom : t.elems.length ≤ P.sizeLimit) : t.FrontWrapped P ↔ t.front P < t.back P := by
  have hsize := P.two_mul_sizeLimit_le
  have hpos := P.sizeLimit_pos
  rcases front_eq hroom with ⟨hw, hf⟩ | ⟨hw, hf⟩
  · exact iff_of_false hw (by omega)
  · exact iff_of_true hw (by omega)

theorem front_eq_back_iff (hroom : t.elems.length ≤ P.sizeLimit) :
    t.front P = t.back P ↔ t.elems.length = P.sizeLimit := by
  have hsize := P.two_mul_sizeLimit_le
  have hpos := P.sizeLimit_pos
  have hback := t.back_lt (P := P)
  rcases front_eq hroom with ⟨-, hf⟩ | ⟨-, hf⟩ <;> omega

theorem sub_eq_sizeLimit_iff (hlimit : P.sizeLimit < P.offsetLimit) (hroom : t.elems.length ≤ P.sizeLimit) :
    P.sub (t.front P) (t.back P) = P.sizeLimit ↔ t.elems = [] ∧ ¬ t.FrontWrapped P := by
  have hwide := P.two_mul_offsetLimit_le hlimit
  have hsize := P.two_mul_sizeLimit_le
  have hpos := P.sizeLimit_pos
  rw [← List.length_eq_zero_iff]
  rcases front_eq hroom with ⟨hw, hf⟩ | ⟨hw, hf⟩
  · rw [P.sub_eq (by omega) front_lt]
    simp only [hw, not_false_eq_true, and_true]
    omega
  · have hback := t.back_lt (P := P)
    rw [Params.sub, Nat.mod_eq_of_lt (by omega)]
    simp only [hw, not_true, and_false, iff_false]
    omega

end Contents

/-! ### The loops -/

section Loops
variable {T : Type} {P : Params} {w : Words T}

/-- A push on its own: the versions agree, so only the exchange can send it round. -/
theorem Words.pushLoop_eq {elem : T} {front back spins fails : Nat}
    (hback : P.unpackOffsets w.counterBack w.versionBack = some back) (hspins : 0 < spins) :
    w.pushLoop P elem front spins fails =
      if front ≠ back ∧ fails < spins then
        (store w.vec (P.position back) [elem]).map fun vec =>
          (true, { w with
            vec, counterBack := P.nextVersion w.counterBack, versionBack := P.nextPack w.counterBack back })
      else some (false, w) := by
  induction spins generalizing fails with
  | zero => exact absurd hspins (Nat.lt_irrefl 0)
  | succ spins ih =>
    rw [pushLoop]
    simp only [hback]
    by_cases heq : front = back
    · rw [if_pos heq, if_neg fun h => h.1 heq]
    · rw [if_neg heq]
      cases fails with
      | zero => rw [if_pos rfl, if_pos ⟨heq, Nat.succ_pos _⟩]
      | succ fails =>
        rw [if_neg (Nat.succ_ne_zero _), Nat.add_sub_cancel]
        cases spins with
        | zero =>
          rw [if_neg (by omega)]
          rfl
        | succ spins =>
          rw [ih (Nat.succ_pos _)]
          simp only [Nat.add_lt_add_iff_right]

theorem Words.popLoop_eq {null : T} {front back spins fails : Nat}
    (hfront : P.unpackOffsets w.counterFront w.versionFront = some front) (hspins : 0 < spins) :
    w.popLoop P null back spins fails =
      if P.sub front back ≠ P.sizeLimit ∧ fails < spins then
        (w.vec[P.position front]?).map fun val =>
          (val, { w with
            counterFront := P.nextVersion w.counterFront, versionFront := P.nextPack w.counterFront front })
      else some (null, w) := by
  induction spins generalizing fails with
  | zero => exact absurd hspins (Nat.lt_irrefl 0)
  | succ spins ih =>
    rw [popLoop]
    simp only [hfront]
    by_cases heq : P.sub front back = P.sizeLimit
    · rw [if_pos heq, if_neg fun h => h.1 heq]
    · rw [if_neg heq]
      cases fails with
      | zero => rw [if_pos rfl, if_pos ⟨heq, Nat.succ_pos _⟩]
      | succ fails =>
        rw [if_neg (Nat.succ_ne_zero _), Nat.add_sub_cancel]
        cases spins with
        | zero =>
          rw [if_neg (by omega)]
          rfl
        | succ spins =>
          rw [ih (Nat.succ_pos _)]
          simp only [Nat.add_lt_add_iff_right]

end Loops

/-! ### The words of a queue with given contents -/

/-- The words and the storage stand for the contents. `filled` says that the cells of elements that
were taken out are never null again. -/
structure Stands {T : Type} (P : Params) (null : T) (w : Words T) (t : Contents T) : Prop where
  vec_length : w.vec.length = P.sizeLimit
  room : t.elems.length ≤ P.sizeLimit
  counterBack_eq : w.counterBack = P.version t.given
  versionBack_eq : w.versionBack = P.packOffset (P.version t.given) (t.back P)
  counterFront_eq : w.counterFront = P.version t.taken
  versionFront_eq : w.versionFront = P.packOffset (P.version t.taken) (t.front P)
  cells : ∀ i, i < t.elems.length → w.vec[(t.taken + i) % P.sizeLimit]? = t.elems[i]?
  filled : ∀ i, i < P.sizeLimit → i < t.given → ∃ val, val ≠ null ∧ w.vec[i]? = some val

section Calls
variable {T : Type} {P : Params} {null : T} {w : Words T} {t : Contents T}

theorem stands_construct (h : construct P null = some w) : Stands P null w ⟨[], 0⟩ := by
  unfold construct at h
  split_ifs at h
  obtain rfl := Option.some.inj h
  have hsize := P.two_mul_sizeLimit_le
  have hpos := P.sizeLimit_pos
  have hmod : P.sizeLimit % 2 ^ P.offsetBits = P.sizeLimit := Nat.mod_eq_of_lt (by omega)
  exact {
    vec_length := List.length_replicate
    room := Nat.zero_le _
    counterBack_eq := (Nat.zero_mod _).symm
    versionBack_eq := by simp [Params.version, Contents.given, Contents.back]
    counterFront_eq := (Nat.zero_mod _).symm
    versionFront_eq := by simp [Params.version, Contents.front, hmod]
    cells := fun i hi => absurd hi (Nat.not_lt_zero i)
    filled := fun i _ hi => absurd hi (Nat.not_lt_zero i) }

namespace Stands

theorem offsetOf_back (h : Stands P null w t) : P.offsetOf w.versionBack = t.back P := by
  rw [h.versionBack_eq, P.offsetOf_packOffset Contents.back_lt]

theorem offsetOf_front (h : Stands P null w t) : P.offsetOf w.versionFront = t.front P := by
  rw [h.versionFront_eq, P.offsetOf_packOffset Contents.front_lt]

theorem unpack_back (h : Stands P null w t) : P.unpackOffsets w.counterBack w.versionBack = some (t.back P) := by
  rw [h.counterBack_eq, h.versionBack_eq, P.unpackOffsets_version Contents.back_lt]

theorem unpack_front (h : Stands P null w t) : P.unpackOffsets w.counterFront w.versionFront = some (t.front P) := by
  rw [h.counterFront_eq, h.versionFront_eq, P.unpackOffsets_version Contents.front_lt]

theorem position_back (P : Params) (t : Contents T) : P.position (t.back P) = t.given % P.sizeLimit :=
  P.position_mod _

theorem position_front (P : Params) (t : Contents T) : P.position (t.front P) = t.taken % P.sizeLimit := by
  rw [Contents.front, P.position_mod, Nat.add_mod_left]

/-- The words behind a push that stores. -/
theorem push (h : Stands P null w t) {elem : T} (helem : elem ≠ null) (hroom : t.elems.length < P.sizeLimit)
    {vec : List T} (hstore : store w.vec (t.given % P.sizeLimit) [elem] = some vec) :
    Stands P null { w with
        vec, counterBack := P.nextVersion w.counterBack, versionBack := P.nextPack w.counterBack (t.back P) }
      ⟨t.elems ++ [elem], t.taken⟩ := by
  have hcell := getElem?_of_store hstore
  have hgiven : Contents.given ⟨t.elems ++ [elem], t.taken⟩ = t.given + 1 := by
    simp [Contents.given, Nat.add_assoc]
  refine {
    vec_length := (length_of_store hstore).trans h.vec_length
    room := by
      rw [List.length_append, List.length_singleton]
      exact hroom
    counterBack_eq := ?_
    versionBack_eq := ?_
    counterFront_eq := h.counterFront_eq
    versionFront_eq := h.versionFront_eq
    cells := ?_
    filled := ?_ }
  · change P.nextVersion w.counterBack = _
    rw [hgiven, h.counterBack_eq, P.nextVersion_version]
  · change P.nextPack w.counterBack (t.back P) = _
    unfold Contents.back
    rw [hgiven, h.counterBack_eq, P.nextPack_mod]
  · intro i hi
    rw [List.length_append, List.length_singleton] at hi
    change vec[(t.taken + i) % P.sizeLimit]? = _
    rw [hcell]
    by_cases hlast : i < t.elems.length
    · -- the cells of the elements that are there are not the one that is written
      have hne := mod_ne_of_lt (N := P.sizeLimit) (i := t.taken + i) (j := t.given)
        (by unfold Contents.given; omega) (by unfold Contents.given; omega)
      rw [List.length_singleton, if_neg (by omega), h.cells i hlast, List.getElem?_append_left hlast]
    · obtain rfl : i = t.elems.length := by omega
      rw [List.getElem?_concat_length, if_pos ⟨le_rfl, Nat.lt_succ_self _⟩]
      unfold Contents.given
      rw [Nat.sub_self]
      rfl
  · intro i hi hlt
    rw [hgiven] at hlt
    change ∃ val, val ≠ null ∧ vec[i]? = some val
    rw [hcell, List.length_singleton]
    split_ifs with hif
    · rw [show i - t.given % P.sizeLimit = 0 by omega]
      exact ⟨elem, helem, rfl⟩
    · apply h.filled i hi
      by_contra hge
      have hmod : t.given % P.sizeLimit = t.given := Nat.mod_eq_of_lt (by omega)
      omega

/-- The words behind a pop that takes an element out. -/
theorem pop {val : T} {elems : List T} {taken : Nat} (h : Stands P null w ⟨val :: elems, taken⟩) :
    Stands P null { w with
        counterFront := P.nextVersion w.counterFront,
        versionFront := P.nextPack w.counterFront (Contents.front P ⟨val :: elems, taken⟩) }
      ⟨elems, taken + 1⟩ := by
  have hgiven : Contents.given ⟨elems, taken + 1⟩ = Contents.given ⟨val :: elems, taken⟩ := by
    simp only [Contents.given, List.length_cons]
    omega
  refine {
    vec_length := h.vec_length
    room := (Nat.le_succ _).trans h.room
    counterBack_eq := ?_
    versionBack_eq := ?_
    counterFront_eq := ?_
    versionFront_eq := ?_
    cells := ?_
    filled := ?_ }
  · rw [hgiven]
    exact h.counterBack_eq
  · unfold Contents.back
    rw [hgiven]
    exact h.versionBack_eq
  · change P.nextVersion w.counterFront = _
    rw [h.counterFront_eq, P.nextVersion_version]
  · change P.nextPack w.counterFront _ = _
    rw [h.counterFront_eq, Contents.front, P.nextPack_mod]
    rfl
  · intro i hi
    have hcell := h.cells (i + 1) (Nat.succ_lt_succ hi)
    rw [show taken + (i + 1) = taken + 1 + i by omega] at hcell
    exact hcell
  · rw [hgiven]
    exact h.filled

theorem pushBack_stores (h : Stands P null w t) {elem : T} {fails : Nat} {vec : List T}
    (hroom : t.elems.length < P.sizeLimit) (hfails : fails < spinLimit)
    (hstore : store w.vec (t.given % P.sizeLimit) [elem] = some vec) :
    w.pushBack P elem fails = some (true, { w with
      vec, counterBack := P.nextVersion w.counterBack, versionBack := P.nextPack w.counterBack (t.back P) }) := by
  have hne : t.front P ≠ t.back P := fun heq => hroom.ne ((Contents.front_eq_back_iff h.room).mp heq)
  rw [Words.pushBack, h.offsetOf_front, Words.pushLoop_eq h.unpack_back (by decide), if_pos ⟨hne, hfails⟩,
    position_back, hstore]
  rfl

theorem pushBack_refuses (h : Stands P null w t) {elem : T} {fails : Nat}
    (hfull : t.elems.length = P.sizeLimit ∨ spinLimit ≤ fails) : w.pushBack P elem fails = some (false, w) := by
  rw [Words.pushBack, h.offsetOf_front, Words.pushLoop_eq h.unpack_back (by decide), if_neg]
  rintro ⟨hne, hfails⟩
  rcases hfull with hfull | hspins
  · exact hne ((Contents.front_eq_back_iff h.room).mpr hfull)
  · exact absurd hfails (Nat.not_lt.mpr hspins)

theorem popFront_takes (h : Stands P null w t) (hlimit : P.sizeLimit < P.offsetLimit) {fails : Nat} {val : T}
    (hsome : t.elems = [] → t.FrontWrapped P) (hfails : fails < spinLimit)
    (hcell : w.vec[t.taken % P.sizeLimit]? = some val) :
    w.popFront P null fails = some (val, { w with
      counterFront := P.nextVersion w.counterFront, versionFront := P.nextPack w.counterFront (t.front P) }) := by
  have hne : P.sub (t.front P) (t.back P) ≠ P.sizeLimit := by
    rw [ne_eq, Contents.sub_eq_sizeLimit_iff hlimit h.room]
    exact fun hempty => hempty.2 (hsome hempty.1)
  rw [Words.popFront, h.offsetOf_back, Words.popLoop_eq h.unpack_front (by decide), if_pos ⟨hne, hfails⟩,
    position_front, hcell]
  rfl

theorem popFront_null (h : Stands P null w t) (hlimit : P.sizeLimit < P.offsetLimit) {fails : Nat}
    (hempty : t.elems = [] ∧ ¬ t.FrontWrapped P ∨ spinLimit ≤ fails) : w.popFront P null fails = some (null, w) := by
  rw [Words.popFront, h.offsetOf_back, Words.popLoop_eq h.unpack_front (by decide), if_neg]
  rintro ⟨hne, hfails⟩
  rcases hempty with hempty | hspins
  · exact hne ((Contents.sub_eq_sizeLimit_iff hlimit h.room).mpr hempty)
  · exact absurd hfails (Nat.not_lt.mpr hspins)

/-- `empty` is right unless the queue is empty and only the front has wrapped. -/
theorem empty_iff (h : Stands P null w t) (hlimit : P.sizeLimit < P.offsetLimit) :
    w.empty P = true ↔ t.elems = [] ∧ ¬ t.FrontWrapped P := by
  rw [Words.empty, h.offsetOf_front, h.offsetOf_back, decide_eq_true_iff, Contents.sub_eq_sizeLimit_iff hlimit h.room]

theorem full_eq (h : Stands P null w t) : w.full P = decide (t.elems.length = P.sizeLimit) := by
  rw [Words.full, h.offsetOf_front, h.offsetOf_back]
  simp only [Contents.front_eq_back_iff h.room]

/-- `size` is right exactly where the front is not behind the back. -/
theorem size_eq_iff (h : Stands P null w t) (hlimit : P.sizeLimit < P.offsetLimit) :
    w.size P = t.elems.length ↔ ¬ t.FrontWrapped P := by
  have hwide := P.two_mul_offsetLimit_le hlimit
  have hsize := P.two_mul_sizeLimit_le
  have hpos := P.sizeLimit_pos
  have hroom := h.room
  have hlt := t.front_lt (P := P)
  rw [Words.size, h.offsetOf_front, h.offsetOf_back, Contents.frontWrapped_iff hroom]
  rcases Contents.front_eq hroom with ⟨-, hf⟩ | ⟨-, hf⟩
  · refine iff_of_true ?_ (by omega)
    simp only [if_neg (show ¬ t.front P < t.back P by omega)]
    rw [Params.sub, Nat.mod_add_mod,
      show P.sizeLimit + 2 ^ P.atomicBits - t.front P + t.back P = t.elems.length + 2 ^ P.atomicBits by omega,
      Nat.add_mod_right, Nat.mod_eq_of_lt (by omega)]
  · have hlt : t.front P < t.back P := by omega
    simp only [if_pos hlt]
    rw [P.sub_eq hlt.le Contents.back_lt]
    omega

theorem exists_store (h : Stands P null w t) (elem : T) :
    ∃ vec, store w.vec (t.given % P.sizeLimit) [elem] = some vec := by
  have hlt : t.given % P.sizeLimit < P.sizeLimit := Nat.mod_lt _ P.sizeLimit_pos
  rw [← h.vec_length] at hlt ⊢
  exact ⟨_, if_pos hlt⟩

/-- While only the front has wrapped, the storage has been filled once. -/
theorem sizeLimit_le_taken (hw : t.FrontWrapped P) : P.sizeLimit ≤ t.taken := by
  have hsize := P.two_mul_sizeLimit_le
  have hmod : t.taken % 2 ^ P.offsetBits ≤ t.taken := Nat.mod_le _ _
  obtain ⟨-, hle⟩ := hw
  omega

/-- Where the call agrees, the queue replies as the FIFO and still stands for it. -/
theorem call_agrees (h : Stands P null w t) (hlimit : P.sizeLimit < P.offsetLimit) {c : Call T}
    (hnull : c.NonNull null) (hc : t.Agrees P c) :
    ∃ w', w.call P null c = some ((t.call P.sizeLimit null c).1, w') ∧
      Stands P null w' (t.call P.sizeLimit null c).2 := by
  cases c with
  | pushBack elem fails =>
    by_cases hroom : t.elems.length < P.sizeLimit
    · obtain ⟨vec, hstore⟩ := h.exists_store elem
      rw [Words.call, h.pushBack_stores hroom (hc hroom) hstore, Contents.call, if_pos hroom]
      exact ⟨_, rfl, h.push hnull hroom hstore⟩
    · have hfull : t.elems.length = P.sizeLimit := Nat.le_antisymm h.room (Nat.not_lt.mp hroom)
      rw [Words.call, h.pushBack_refuses (.inl hfull), Contents.call, if_neg hroom]
      exact ⟨w, rfl, h⟩
  | popFront fails =>
    obtain ⟨elems, taken⟩ := t
    cases elems with
    | nil =>
      rw [Words.call, h.popFront_null hlimit]
      · exact ⟨w, rfl, h⟩
      by_cases hw : Contents.FrontWrapped P ⟨([] : List T), taken⟩
      · exact .inr (hc hw)
      · exact .inl ⟨rfl, hw⟩
    | cons val elems =>
      have hcell : w.vec[taken % P.sizeLimit]? = some val := h.cells 0 (Nat.succ_pos _)
      rw [Words.call, h.popFront_takes hlimit (fun hnil => absurd hnil (List.cons_ne_nil _ _)) hc hcell]
      exact ⟨_, rfl, h.pop⟩
  | empty =>
    have hempty : w.empty P = t.elems.isEmpty := by
      rw [Bool.eq_iff_iff, h.empty_iff hlimit, List.isEmpty_iff]
      exact ⟨fun hif => hif.1, fun hnil => ⟨hnil, hc hnil⟩⟩
    rw [Words.call, hempty]
    exact ⟨w, rfl, h⟩
  | full =>
    rw [Words.call, h.full_eq]
    exact ⟨w, rfl, h⟩
  | size =>
    rw [Words.call, (h.size_eq_iff hlimit).mpr hc]
    exact ⟨w, rfl, h⟩

/-- Where it does not, the reply is another one. -/
theorem call_differs (h : Stands P null w t) (hlimit : P.sizeLimit < P.offsetLimit) {c : Call T}
    (hc : ¬ t.Agrees P c) :
    ∃ r w', w.call P null c = some (r, w') ∧ r ≠ (t.call P.sizeLimit null c).1 := by
  cases c with
  | pushBack elem fails =>
    obtain ⟨hroom, hspins⟩ := Classical.not_imp.mp hc
    rw [Words.call, h.pushBack_refuses (.inr (Nat.not_lt.mp hspins)), Contents.call, if_pos hroom]
    exact ⟨_, w, rfl, by simp⟩
  | popFront fails =>
    obtain ⟨elems, taken⟩ := t
    cases elems with
    | nil =>
      obtain ⟨hw, hspins⟩ := Classical.not_imp.mp hc
      -- the pop takes the element that was in the cell the last time round
      have hlt : taken % P.sizeLimit < P.sizeLimit := Nat.mod_lt _ P.sizeLimit_pos
      have hle : P.sizeLimit ≤ taken := sizeLimit_le_taken hw
      obtain ⟨val, hval, hcell⟩ := h.filled _ hlt (hlt.trans_le hle)
      rw [Words.call, h.popFront_takes hlimit (fun _ => hw) (Nat.not_le.mp hspins) hcell]
      exact ⟨_, _, rfl, fun heq => hval (Reply.elem.inj heq)⟩
    | cons val elems =>
      have hcell : w.vec[taken % P.sizeLimit]? = some val := h.cells 0 (Nat.succ_pos _)
      have hlt : taken % P.sizeLimit < Contents.given ⟨val :: elems, taken⟩ :=
        (Nat.mod_le _ _).trans_lt (Nat.lt_add_of_pos_right (Nat.succ_pos _))
      obtain ⟨val', hval, hcell'⟩ := h.filled _ (Nat.mod_lt _ P.sizeLimit_pos) hlt
      obtain rfl := Option.some.inj (hcell.symm.trans hcell')
      rw [Words.call, h.popFront_null hlimit (.inr (Nat.not_lt.mp hc))]
      exact ⟨_, w, rfl, fun heq => hval (Reply.elem.inj heq).symm⟩
  | empty =>
    obtain ⟨hempty, hw⟩ := Classical.not_imp.mp hc
    refine ⟨_, w, rfl, fun heq => ?_⟩
    have hreply : w.empty P = true := by
      rw [Reply.flag.inj heq, hempty]
      rfl
    exact hw ((h.empty_iff hlimit).mp hreply).2
  | full => exact absurd trivial hc
  | size =>
    refine ⟨_, w, rfl, fun heq => hc ((h.size_eq_iff hlimit).mp (Reply.count.inj heq))⟩

end Stands
end Calls

/-- For calls of any number the queue replies as a FIFO of its capacity exactly when every call
comes where it agrees. -/
theorem replies_eq_fifo_iff {T : Type} {P : Params} {null : T} {w : Words T} {calls : List (Call T)}
    (hw : construct P null = some w) (hnull : ∀ c ∈ calls, c.NonNull null) :
    replies (Words.call P null) w calls = some (Spec.replies (Contents.call P.sizeLimit null) ⟨[], 0⟩ calls) ↔
      ∀ (i : Nat) (c : Call T), calls[i]? = some c →
        (Spec.after (Contents.call P.sizeLimit null) ⟨[], 0⟩ (calls.take i)).Agrees P c := by
  have hlimit : P.sizeLimit < P.offsetLimit := by
    by_contra hle
    unfold construct at hw
    rw [if_neg hle] at hw
    cases hw
  apply replies_eq_iff (Stands P null) fun c => c.NonNull null
  · intro w t c h hc hagrees
    exact h.call_agrees hlimit hc hagrees
  · intro w t c h _ hagrees
    exact h.call_differs hlimit hagrees
  · exact stands_construct hw
  · exact hnull

/-- Two bits for the offsets, and two cells. -/
def narrow : Params := ⟨2, 6, 8, 1, by decide, by decide⟩

instance (t : Contents Nat) : Decidable (t.FrontWrapped narrow) := inferInstanceAs (Decidable (_ ∧ _))

instance (t : Contents Nat) : (c : Call Nat) → Decidable (t.Agrees narrow c)
  | .pushBack _ fails => inferInstanceAs (Decidable (t.elems.length < narrow.sizeLimit → fails < spinLimit))
  | .popFront fails => inferInstanceAs
      (Decidable (if t.elems = [] then t.FrontWrapped narrow → spinLimit ≤ fails else fails < spinLimit))
  | .empty => inferInstanceAs (Decidable (t.elems = [] → ¬ t.FrontWrapped narrow))
  | .full => inferInstanceAs (Decidable True)
  | .size => inferInstanceAs (Decidable (¬ t.FrontWrapped narrow))

/-- Calls behind which both offsets have wrapped. The queue is emptied while only the front has, and filled
before it is asked for its size. -/
def pastWrap : List (Call Nat) :=
  [.pushBack 1 0, .pushBack 2 3, .full, .popFront 1, .popFront 0, .pushBack 3 0, .pushBack 4 0, .size, .pushBack 5 0,
    .popFront 0, .popFront 2, .empty, .popFront 0, .size, .pushBack 6 0, .empty, .size]

theorem replies_eq_fifo_past_wrap : replies (Words.call narrow 0) ⟨[0, 0], 0, 0, 0, 2⟩ pastWrap =
    some [.flag true, .flag true, .flag true, .elem 1, .elem 2, .flag true, .flag true, .count 2, .flag false,
      .elem 3, .elem 4, .flag true, .elem 0, .count 0, .flag true, .flag false, .count 1] := by
  have hconstruct : construct narrow 0 = some ⟨[0, 0], 0, 0, 0, 2⟩ := by decide
  have hnull : ∀ c ∈ pastWrap, c.NonNull 0 := by simp [pastWrap, Call.NonNull]
  have hagrees : ∀ i (h : i < pastWrap.length),
      (Spec.after (Contents.call narrow.sizeLimit 0) ⟨[], 0⟩ (pastWrap.take i)).Agrees narrow pastWrap[i] := by
    decide +kernel
  have hreplies := (replies_eq_fifo_iff hconstruct hnull).mpr fun i c hc => by
    obtain ⟨hlt, rfl⟩ := List.getElem?_eq_some_iff.mp hc
    exact hagrees i hlt
  rw [hreplies]
  decide +kernel

/-- Behind two pushes and two pops the queue is not empty, has two elements and gives the first one
again. -/
theorem replies_ne_fifo :
    construct narrow 0 = some ⟨[0, 0], 0, 0, 0, 2⟩ ∧
      replies (Words.call narrow 0) ⟨[0, 0], 0, 0, 0, 2⟩
          [.pushBack 1 0, .pushBack 2 0, .popFront 0, .popFront 0, .empty, .size, .popFront 0] =
        some [.flag true, .flag true, .elem 1, .elem 2, .flag false, .count 2, .elem 1] ∧
      Spec.replies (Contents.call narrow.sizeLimit 0) ⟨[], 0⟩
          [.pushBack 1 0, .pushBack 2 0, .popFront 0, .popFront 0, .empty, .size, .popFront 0] =
        [.flag true, .flag true, .elem 1, .elem 2, .flag true, .count 0, .elem 0] := by
  decide +kernel

end Latypus.Queue
