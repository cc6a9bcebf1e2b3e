import Mathlib.Order.Interval.Set.Defs
import Latypus.Io.Buffer

/-! bits.h, whose `roundpow2` gives the sizes of both kinds of buffer. Its shift is one of the literal
`1`, an `int`, by the number of bits of a `size_t`. -/

namespace Latypus.Io
open Lib

namespace Bits
variable {w : Nat}

/-- The rounds of the loop of `clz` for the bits below `n`. -/
def clzLoop (val : BitVec w) : Nat → BitVec 32 → BitVec 32 → BitVec 32
  | 0, count, _ => count
  | i + 1, count, found =>
    let found := found ||| if val &&& (1#w <<< i) ≠ 0 then 1 else 0
    clzLoop val i (count + if found = 0 then 1 else 0) found

def clz (val : BitVec w) : BitVec 32 := clzLoop val w 0 0

/-- `__builtin_clzll`, whose result for zero is not used. -/
def builtinClzll (val : BitVec 64) : BitVec 32 := val.clz.setWidth 32

/-- `clz<uint64_t>` -/
def clz64 (val : BitVec 64) : BitVec 32 :=
  let count := builtinClzll val
  if val = 0 then 64 else count

def ispow2 (val : BitVec w) : Bool := val ≠ 0 && val &&& (val - 1) = 0

/-- `a << n` for an `int`, with the sign bit as the last one that a value may be shifted to. Without a
result the behaviour is undefined. -/
def shiftLeftInt (a : BitVec 32) (n : BitVec 64) : Option (BitVec 32) :=
  if n.toNat < 32 ∧ a.msb = false ∧ a.toNat * 2 ^ n.toNat < 2 ^ 32 then some (a <<< n) else none

/-- `roundpow2` of a `size_t`, to which the `int` of the second branch is converted. -/
def roundpow2 (val : BitVec 64) : Option (BitVec 64) :=
  if ispow2 val then some val
  else (shiftLeftInt 1 ((8#64 <<< 3) - (clz64 val).setWidth 64)).map fun r => r.signExtend 64

end Bits

/-- `vector<char>::resize`, which throws for a size that the difference of two pointers cannot be. -/
def resizeVector (contents : List UInt8) (n : Nat) : Option (List UInt8) :=
  if n < 2 ^ 63 then some (contents.takeD n 0) else none

/-- `resize` of a `size_t`; without a result it has thrown or is undefined. -/
def IoBuffer.resizeTo (b : IoBuffer) (size : BitVec 64) : Option IoBuffer := do
  let bufferSize ← Bits.roundpow2 size
  some (b.resize (← resizeVector b.buffer bufferSize.toNat))

/-- `resize` of a `size_t`; without a result it has thrown or is undefined. -/
def IoRingBuffer.resizeTo (b : IoRingBuffer) (size : BitVec 64) : Option IoRingBuffer := do
  let bufferSize ← Bits.roundpow2 size
  some (.resize (← resizeVector b.buffer bufferSize.toNat))

namespace Bits

/-- The power of two that a size is to be rounded to. -/
structure RoundsUp (v r : BitVec 64) : Prop where
  pow2 : ∃ k, r.toNat = 2 ^ k
  le : v.toNat ≤ r.toNat
  lt : r.toNat < 2 * v.toNat

/-- `roundpow2` rounds up, both kinds of buffer get that size, and the mask of the ring selects its
positions. -/
def Rounds (v : BitVec 64) : Prop :=
  ∃ r, roundpow2 v = some r ∧ RoundsUp v r ∧
    (∀ b : IoBuffer, ∃ b', b.resizeTo v = some b' ∧ b'.size = r.toNat ∧ v.toNat ≤ b'.size) ∧
      ∀ b : IoRingBuffer, ∃ b', b.resizeTo v = some b' ∧ b'.size = r.toNat ∧ v.toNat ≤ b'.size ∧
        b'.mask = r.toNat - 1 ∧ (Set.range fun x => IoRingBuffer.readOffset { b' with front := x }) = Set.Iio r.toNat ∧
        (Set.range fun x => IoRingBuffer.writeOffset { b' with back := x }) = Set.Iio r.toNat

/-! ### Counting leading zeros -/

theorem and_bit_ne_zero {val : BitVec w} {i : Nat} (hi : i < w) : val &&& (1#w <<< i) ≠ 0 ↔ val.toNat.testBit i = true := by
  have hbit : val &&& (1#w <<< i) = if val.getLsbD i then BitVec.twoPow w i else 0 := BitVec.and_twoPow val i
  rw [hbit, BitVec.testBit_toNat]
  split_ifs with h
  · exact iff_of_true (fun h0 => by simpa [hi] using congrArg (BitVec.getLsbD · i) h0) h
  · exact iff_of_false (fun h0 => h0 rfl) h

/-- Behind the first one bit nothing is counted. -/
theorem clzLoop_found (val : BitVec w) (n : Nat) (count : BitVec 32) : clzLoop val n count 1 = count := by
  induction n with
  | zero => rfl
  | succ n ih =>
    have hfound (b : Prop) [Decidable b] : (1 : BitVec 32) ||| (if b then 1 else 0) = 1 := by split_ifs <;> rfl
    rw [clzLoop, hfound, if_neg (by decide), BitVec.ofNat_eq_ofNat, BitVec.add_zero]
    exact ih

/-- What is counted is how far the highest one bit is from the top. -/
theorem clzLoop_spec {val : BitVec w} {n : Nat} (hn : n ≤ w) (hlt : val.toNat < 2 ^ n) (h0 : val ≠ 0)
    (count : BitVec 32) : ∃ i < n, clzLoop val n count 0 = count + BitVec.ofNat 32 (n - 1 - i) ∧
      2 ^ i ≤ val.toNat ∧ val.toNat < 2 ^ (i + 1) := by
  induction n generalizing count with
  | zero => exact absurd (BitVec.eq_of_toNat_eq (Nat.lt_one_iff.mp hlt)) h0
  | succ n ih =>
    by_cases hbit : val.toNat.testBit n
    · refine ⟨n, Nat.lt_succ_self n, ?_, Nat.ge_two_pow_of_testBit hbit, hlt⟩
      have hfound := (and_bit_ne_zero (Nat.lt_of_succ_le hn)).mpr hbit
      rw [clzLoop, if_pos hfound]
      simpa using clzLoop_found val n count
    · have hnone : ¬ val &&& (1#w <<< n) ≠ 0 := (and_bit_ne_zero (Nat.lt_of_succ_le hn)).not.mpr hbit
      have hlow : val.toNat < 2 ^ n := by
        refine Nat.lt_pow_two_of_testBit _ fun j hj => ?_
        obtain rfl | hj := hj.eq_or_lt
        · exact Bool.eq_false_iff.mpr hbit
        · exact Nat.testBit_lt_two_pow (hlt.trans_le (Nat.pow_le_pow_right (by decide) hj))
      obtain ⟨i, hi, hloop, hspec⟩ := ih (Nat.le_of_succ_le hn) hlow (count + 1)
      refine ⟨i, Nat.lt_succ_of_lt hi, ?_, hspec⟩
      have hsucc : n + 1 - 1 - i = 1 + (n - 1 - i) := by omega
      rw [clzLoop, if_neg hnone, show (0 : BitVec 32) ||| 0 = 0 from rfl, if_pos rfl, hloop, hsucc, BitVec.add_assoc,
        BitVec.ofNat_add]
      rfl

theorem clz_spec {val : BitVec w} (h0 : val ≠ 0) :
    ∃ i < w, clz val = BitVec.ofNat 32 (w - 1 - i) ∧ 2 ^ i ≤ val.toNat ∧ val.toNat < 2 ^ (i + 1) := by
  obtain ⟨i, hi, hloop, hspec⟩ := clzLoop_spec le_rfl val.isLt h0 0
  exact ⟨i, hi, by rw [clz, hloop, BitVec.ofNat_eq_ofNat, BitVec.zero_add], hspec⟩

theorem clz64_spec {val : BitVec 64} (h0 : val ≠ 0) :
    ∃ i < 64, clz64 val = BitVec.ofNat 32 (63 - i) ∧ 2 ^ i ≤ val.toNat ∧ val.toNat < 2 ^ (i + 1) := by
  have hle := BitVec.two_pow_sub_clz_le_toNat_of_ne_zero (by decide) h0
  have hlt := BitVec.toNat_lt_two_pow_sub_clz (x := val)
  have hclz : val.clz.toNat < 64 := BitVec.lt_def.mp (BitVec.clz_lt_iff_ne_zero.mpr h0)
  refine ⟨63 - val.clz.toNat, by omega, ?_, hle, ?_⟩
  · have hsub : 63 - (63 - val.clz.toNat) = val.clz.toNat := by omega
    rw [clz64, if_neg h0, builtinClzll, hsub, BitVec.ofNat_toNat]
  · rwa [show 63 - val.clz.toNat + 1 = 64 - val.clz.toNat by omega]

theorem eq_of_bounds {i j n : Nat} (hi : 2 ^ i ≤ n ∧ n < 2 ^ (i + 1)) (hj : 2 ^ j ≤ n ∧ n < 2 ^ (j + 1)) : i = j := by
  have hij : i < j + 1 := (Nat.pow_lt_pow_iff_right (by decide)).mp (hi.1.trans_lt hj.2)
  have hji : j < i + 1 := (Nat.pow_lt_pow_iff_right (by decide)).mp (hj.1.trans_lt hi.2)
  omega

/-- The specialization counts what the loop does. -/
theorem clz64_eq (val : BitVec 64) : clz64 val = clz val := by
  by_cases h0 : val = 0
  · subst h0
    decide +kernel
  · obtain ⟨i, -, hi, hspec⟩ := clz64_spec h0
    obtain ⟨j, -, hj, hspec'⟩ := clz_spec h0
    rw [hi, hj, eq_of_bounds hspec hspec']

/-! ### Rounding -/

theorem ispow2_iff {val : BitVec w} : ispow2 val = true ↔ ∃ k, val.toNat = 2 ^ k := by
  have hpow : (∃ k, val.toNat = 2 ^ k) ↔ val.toNat ≠ 0 ∧ val.toNat &&& (val.toNat - 1) = 0 :=
    Nat.ne_zero_and_sub_one_eq_zero_iff_isPowerOfTwo.symm
  have hzero : (0 : BitVec w).toNat = 0 := BitVec.toNat_zero
  rw [hpow, ispow2, Bool.and_eq_true, decide_eq_true_iff, decide_eq_true_iff, ← BitVec.toNat_inj.ne, hzero]
  refine and_congr_right fun h0 => ?_
  have hpos : 0 < w := by
    rcases Nat.eq_zero_or_pos w with rfl | hw
    · exact absurd (BitVec.toNat_of_zero_length rfl val) h0
    · exact hw
  have hone : (1 : BitVec w).toNat = 1 := Nat.mod_eq_of_lt (Nat.one_lt_two_pow hpos.ne')
  have hsub : (val - 1).toNat = val.toNat - 1 := by
    rw [BitVec.toNat_sub_of_le (by rw [BitVec.le_def, hone]; omega), hone]
  rw [← BitVec.toNat_inj, BitVec.toNat_and, hsub, hzero]

theorem roundpow2_of_ispow2 {v : BitVec 64} (h : ispow2 v = true) : roundpow2 v = some v := by
  rw [roundpow2, if_pos h]

/-- The shift is by the length of the number. -/
theorem roundpow2_eq {v : BitVec 64} {i : Nat} (hpow : ispow2 v = false) (hi : 2 ^ i ≤ v.toNat ∧ v.toNat < 2 ^ (i + 1)) :
    roundpow2 v = (shiftLeftInt 1 (BitVec.ofNat 64 (i + 1))).map fun r => r.signExtend 64 := by
  have h0 : v ≠ 0 := by
    rintro rfl
    exact absurd hi.1 (by simp)
  obtain ⟨j, hj, hclz, hspec⟩ := clz64_spec h0
  obtain rfl := eq_of_bounds hi hspec
  have hshift : (8#64 <<< 3) - (clz64 v).setWidth 64 = BitVec.ofNat 64 (i + 1) := by
    rw [hclz]
    apply BitVec.eq_of_toNat_eq
    simp
    omega
  rw [roundpow2, hpow, if_neg Bool.false_ne_true, hshift]

theorem shiftLeftInt_one {n : Nat} (h : n < 32) : shiftLeftInt 1 (BitVec.ofNat 64 n) = some (BitVec.twoPow 32 n) := by
  have hn : (BitVec.ofNat 64 n).toNat = n := Nat.mod_eq_of_lt (by omega)
  have hfits : (BitVec.ofNat 64 n).toNat < 32 ∧ (1 : BitVec 32).msb = false ∧
      (1 : BitVec 32).toNat * 2 ^ (BitVec.ofNat 64 n).toNat < 2 ^ 32 := by
    rw [hn, show (1 : BitVec 32).toNat = 1 from rfl, Nat.one_mul]
    exact ⟨h, rfl, Nat.pow_lt_pow_right (by decide) h⟩
  rw [shiftLeftInt, if_pos hfits, BitVec.shiftLeft_eq', hn]
  rfl

/-- Up to the sign bit the conversion to a `size_t` keeps the value. -/
theorem signExtend_twoPow {n : Nat} (h : n < 31) : (BitVec.twoPow 32 n).signExtend 64 = BitVec.ofNat 64 (2 ^ n) := by
  have hpow : 2 ^ n < 2 ^ 31 := Nat.pow_lt_pow_right (by decide) h
  have htwo : (BitVec.twoPow 32 n).toNat = 2 ^ n := BitVec.toNat_twoPow_of_lt (by omega)
  have hmsb : (BitVec.twoPow 32 n).msb = false := by
    rw [BitVec.msb_eq_false_iff_two_mul_lt, htwo]
    omega
  rw [BitVec.signExtend_eq_setWidth_of_msb_false hmsb, ← BitVec.ofNat_toNat, htwo]

theorem shiftLeftInt_wide {n : Nat} (h : 32 ≤ n) (h' : n < 2 ^ 64) (a : BitVec 32) : shiftLeftInt a (BitVec.ofNat 64 n) = none := by
  rw [shiftLeftInt, BitVec.toNat_ofNat, Nat.mod_eq_of_lt h', if_neg fun h => absurd h.1 (by omega)]

variable {v r : BitVec 64}

/-- A number is a power of two or strictly between two of them. -/
theorem exists_between (hpow : ispow2 v = false) (h0 : 1 ≤ v.toNat) :
    ∃ i < 64, 2 ^ i < v.toNat ∧ v.toNat < 2 ^ (i + 1) := by
  have hne : v ≠ 0 := by
    rintro rfl
    exact absurd h0 (by decide)
  obtain ⟨i, hi, -, hle, hlt⟩ := clz64_spec hne
  refine ⟨i, hi, lt_of_le_of_ne hle fun heq => ?_, hlt⟩
  rw [ispow2_iff.mpr ⟨i, heq.symm⟩] at hpow
  cases hpow

theorem roundsUp_of_lt (hpow : ispow2 v = false) (h0 : 1 ≤ v.toNat) (hlt : v.toNat ≤ 2 ^ 30) :
    ∃ r, roundpow2 v = some r ∧ RoundsUp v r := by
  obtain ⟨i, -, hlow, hhigh⟩ := exists_between hpow h0
  have hi : i < 30 := (Nat.pow_lt_pow_iff_right (by decide)).mp (hlow.trans_le hlt)
  have hr : (BitVec.ofNat 64 (2 ^ (i + 1))).toNat = 2 ^ (i + 1) :=
    Nat.mod_eq_of_lt (Nat.pow_lt_pow_right (by decide) (by omega))
  refine ⟨BitVec.ofNat 64 (2 ^ (i + 1)), ?_, ⟨i + 1, hr⟩, ?_, ?_⟩
  · rw [roundpow2_eq hpow ⟨hlow.le, hhigh⟩, shiftLeftInt_one (by omega), Option.map_some, signExtend_twoPow (by omega)]
  · rw [hr]
    exact hhigh.le
  · rw [hr, Nat.pow_succ']
    omega

/-- Above `2 ^ 30` the shift reaches the sign bit or leaves the `int`. -/
theorem roundpow2_of_gt (hpow : ispow2 v = false) (hgt : 2 ^ 30 < v.toNat) :
    roundpow2 v = some 18446744071562067968 ∨ roundpow2 v = none := by
  obtain ⟨i, hi, hlow, hhigh⟩ := exists_between hpow (by omega)
  have hle : 30 < i + 1 := (Nat.pow_lt_pow_iff_right (by decide)).mp (hgt.trans hhigh)
  rw [roundpow2_eq hpow ⟨hlow.le, hhigh⟩]
  obtain rfl | hwide := (Nat.le_of_lt_succ hle).eq_or_lt
  · exact .inl (by decide +kernel)
  · rw [shiftLeftInt_wide (by omega) (by omega)]
    exact .inr rfl

theorem not_roundsUp : ¬ RoundsUp v 18446744071562067968 := by
  rintro ⟨⟨k, hk⟩, -, -⟩
  have hpow : ispow2 (18446744071562067968 : BitVec 64) = true := ispow2_iff.mpr ⟨k, hk⟩
  exact absurd hpow (by decide +kernel)

theorem exists_roundsUp_iff (h0 : 1 ≤ v.toNat) :
    (∃ r, roundpow2 v = some r ∧ RoundsUp v r) ↔ (∃ k, v.toNat = 2 ^ k) ∨ v.toNat ≤ 2 ^ 30 := by
  cases hpow : ispow2 v with
  | true =>
    refine iff_of_true ⟨v, roundpow2_of_ispow2 hpow, ispow2_iff.mp hpow, le_rfl, by omega⟩ (.inl (ispow2_iff.mp hpow))
  | false =>
    have hnot : ¬ ∃ k, v.toNat = 2 ^ k := fun h => Bool.false_ne_true (hpow.symm.trans (ispow2_iff.mpr h))
    rw [or_iff_right hnot]
    constructor
    · rintro ⟨r, hr, hround⟩
      by_contra hgt
      rcases roundpow2_of_gt hpow (not_le.mp hgt) with h | h
      · obtain rfl := Option.some.inj (h.symm.trans hr)
        exact not_roundsUp hround
      · rw [h] at hr
        cases hr
    · exact roundsUp_of_lt hpow h0

/-! ### The buffers -/

theorem resizeVector_eq (contents : List UInt8) {n : Nat} (h : n < 2 ^ 63) :
    ∃ contents', resizeVector contents n = some contents' ∧ contents'.length = n := by
  rw [resizeVector, if_pos h]
  exact ⟨_, rfl, List.takeD_length n contents 0⟩

/-- A mask of ones selects the positions below its successor. -/
theorem range_mask {n k : Nat} (hn : n = 2 ^ k) (hlt : n < 2 ^ 63) :
    (Set.range fun x : Int => sizeT x &&& sizeT ((n : Int) - 1)) = Set.Iio n := by
  have hpos : 0 < n := hn ▸ Nat.two_pow_pos k
  have hmask : sizeT ((n : Int) - 1) = 2 ^ k - 1 := by
    rw [sizeT_of_lt (by omega) (by omega), ← hn]
    omega
  have hmod : ∀ x, x &&& sizeT ((n : Int) - 1) = x % n := fun x => by
    rw [hmask, Nat.and_two_pow_sub_one_eq_mod, hn]
  simp only [hmod]
  ext p
  constructor
  · rintro ⟨x, rfl⟩
    exact Nat.mod_lt _ hpos
  · intro hp
    have hp : p < n := hp
    refine ⟨(p : Int), ?_⟩
    dsimp only
    rw [sizeT_natCast (by omega), Nat.mod_eq_of_lt hp]

/-- A size that `roundpow2` keeps and that no vector can have makes `resize` throw. -/
theorem resizeTo_throws (b : IoRingBuffer) (hpow : ispow2 v = true) (h : 2 ^ 63 ≤ v.toNat) : b.resizeTo v = none := by
  rw [IoRingBuffer.resizeTo, roundpow2_of_ispow2 hpow, Option.bind_eq_bind, Option.bind_some, resizeVector,
    if_neg h.not_gt]
  rfl

theorem rounds_of_roundsUp (hr : roundpow2 v = some r) (h : RoundsUp v r) (hlt : r.toNat < 2 ^ 63) : Rounds v := by
  refine ⟨r, hr, h, fun b => ?_, fun b => ?_⟩
  · obtain ⟨contents, hresize, hlength⟩ := resizeVector_eq b.buffer hlt
    refine ⟨b.resize contents, ?_, hlength, h.le.trans_eq hlength.symm⟩
    rw [IoBuffer.resizeTo, hr, Option.bind_eq_bind, Option.bind_some, hresize]
    rfl
  · obtain ⟨contents, hresize, hlength⟩ := resizeVector_eq b.buffer hlt
    obtain ⟨k, hk⟩ := h.pow2
    have hmask : (IoRingBuffer.resize contents).mask = r.toNat - 1 := by rw [IoRingBuffer.resize, hlength]
    refine ⟨.resize contents, ?_, hlength, h.le.trans_eq hlength.symm, hmask, ?_, ?_⟩
    · rw [IoRingBuffer.resizeTo, hr, Option.bind_eq_bind, Option.bind_some, hresize]
      rfl
    · simp only [IoRingBuffer.readOffset, hmask]
      exact range_mask hk hlt
    · simp only [IoRingBuffer.writeOffset, hmask]
      exact range_mask hk hlt

/-- Sizes are rounded up to a power of two, and the buffers get it, where they are one that a vector
can have or need no more than 30 bits. -/
theorem roundpow2_rounds_iff {v : BitVec 64} (h0 : 1 ≤ v.toNat) :
    Rounds v ↔ ((∃ k, v.toNat = 2 ^ k) ∧ v.toNat < 2 ^ 63) ∨ v.toNat ≤ 2 ^ 30 := by
  constructor
  · rintro ⟨r, hr, hround, -, hring⟩
    refine ((exists_roundsUp_iff h0).mp ⟨r, hr, hround⟩).imp_left fun hpow => ⟨hpow, ?_⟩
    by_contra hlarge
    obtain ⟨b, hresize, -⟩ := hring (.resize [])
    rw [resizeTo_throws _ (ispow2_iff.mpr hpow) (not_lt.mp hlarge)] at hresize
    cases hresize
  · intro h
    obtain ⟨r, hr, hround⟩ := (exists_roundsUp_iff h0).mpr (h.imp_left And.left)
    refine rounds_of_roundsUp hr hround ?_
    obtain ⟨hpow, hlt⟩ | hlow := h
    · obtain rfl := Option.some.inj ((roundpow2_of_ispow2 (ispow2_iff.mpr hpow)).symm.trans hr)
      exact hlt
    · have hlt := hround.lt
      omega

/-- One more than a gigabyte. -/
theorem roundpow2_not_rounds : ¬ ∀ v : BitVec 64, 1 ≤ v.toNat → v.toNat ≤ 2 ^ 63 → Rounds v := by
  intro h
  obtain ⟨r, hr, hround, -⟩ := h 1073741825 (by decide) (by decide)
  have hvalue : roundpow2 1073741825 = some 18446744071562067968 := by decide +kernel
  obtain rfl := Option.some.inj (hvalue.symm.trans hr)
  exact not_roundsUp hround

theorem roundpow2_rounds_ring : Rounds 5000 := (roundpow2_rounds_iff (by decide)).mpr (.inr (by decide))

end Bits
end Latypus.Io
