import Mathlib.Data.Nat.Bitwise
import Latypus.Config.Directives

/-! base64.cc. The encoder takes bytes into a register of 32 bits and gives six of them out at a time, the decoder the
other way. The register is never emptied; what has been given out is shifted out at its upper end. The counters are
numbers without a bound: the lengths are below 2^31, as that which is returned is an `int`. -/

namespace Latypus.Io.Base64
open Http Config

def base64encTab : Bytes := ascii "ABCDEFGHIJKLMNOPQRSTUVWXYZabcdefghijklmnopqrstuvwxyz0123456789+/"

/-- `base64dec_tab`: the digits, 0 for the padding, and 255 for all others. -/
def base64decTab : List Nat := [
  255,255,255,255,255,255,255,255,255,255,255,255,255,255,255,255,
  255,255,255,255,255,255,255,255,255,255,255,255,255,255,255,255,
  255,255,255,255,255,255,255,255,255,255,255, 62,255,255,255, 63,
   52, 53, 54, 55, 56, 57, 58, 59, 60, 61,255,255,255,  0,255,255,
  255,  0,  1,  2,  3,  4,  5,  6,  7,  8,  9, 10, 11, 12, 13, 14,
   15, 16, 17, 18, 19, 20, 21, 22, 23, 24, 25,255,255,255,255,255,
  255, 26, 27, 28, 29, 30, 31, 32, 33, 34, 35, 36, 37, 38, 39, 40,
   41, 42, 43, 44, 45, 46, 47, 48, 49, 50, 51,255,255,255,255,255] ++ List.replicate 128 255

/-- What ends a call other than its return of a length. -/
inductive Failure
  /-- -1 -/
  | truncated
  /-- a character with its upper bit set, whose index is past the end of the table -/
  | outOfBounds
deriving DecidableEq, Repr

/-- `uint_least32_t` -/
def u32 (x : Nat) : Nat := x % 2 ^ 32

/-- `out[io++] = c` -/
def put (outLen : Nat) (out : Bytes) (c : UInt8) : Except Failure Bytes :=
  if out.length ≥ outLen then .error .truncated else .ok (out ++ [c])

def digit (x : Nat) : UInt8 := base64encTab.getD (x % 64) 0

/-! ### Encoding -/

/-- The loop that gives out digits. -/
def digitLoop (outLen v : Nat) : Nat → Bytes → Except Failure (Nat × Bytes)
  | rem + 6, out => do digitLoop outLen v rem (← put outLen out (digit (v >>> rem)))
  | rem, out => .ok (rem, out)

def encodeLoop (outLen : Nat) : Bytes → Nat → Nat → Bytes → Except Failure (Nat × Nat × Bytes)
  | [], v, rem, out => .ok (v, rem, out)
  | ch :: rest, v, rem, out => do
    let v := u32 (v <<< 8 ||| ch.toNat)
    let (rem, out) ← digitLoop outLen v (rem + 8) out
    encodeLoop outLen rest v rem out

/-- The padding, of at most as many characters. -/
def padLoop (outLen : Nat) : Nat → Bytes → Except Failure Bytes
  | 0, out => .ok out
  | n + 1, out => if out.length % 4 ≠ 0 then do padLoop outLen n (← put outLen out 61) else .ok out

/-- What follows the loop. -/
def encodeRest (outLen v rem : Nat) (out : Bytes) : Except Failure Bytes := do
  let out ← if rem ≠ 0 then put outLen out (digit (u32 (v <<< (6 - rem)))) else .ok out
  let out ← padLoop outLen 3 out
  if out.length ≥ outLen then .error .truncated else .ok out

def encode (input : Bytes) (outLen : Nat) : Except Failure Bytes := do
  let (v, rem, out) ← encodeLoop outLen input 0 0 []
  encodeRest outLen v rem out

/-! ### Decoding -/

def decodeLoop (outLen : Nat) : Bytes → Nat → Nat → Bytes → Except Failure (Nat × Nat × Bytes)
  | [], v, rem, out => .ok (v, rem, out)
  | c :: rest, v, rem, out =>
    if c ≥ 128 then .error .outOfBounds
    else if isSpace c then decodeLoop outLen rest v rem out
    else if c = 61 then .ok (v, rem, out)
    else
      let ch := base64decTab.getD c.toNat 255
      if ch = 255 then .ok (v, rem, out)
      else
        let v := u32 (v <<< 6 ||| ch)
        let rem := rem + 6
        if rem ≥ 8 then do
          let rem := rem - 8
          decodeLoop outLen rest v rem (← put outLen out (UInt8.ofNat (v >>> rem)))
        else decodeLoop outLen rest v rem out

def decode (text : Bytes) (outLen : Nat) : Except Failure Bytes := do
  let (v, rem, out) ← decodeLoop outLen text 0 0 []
  if rem ≥ 8 then put outLen out (UInt8.ofNat (v >>> (rem - 8))) else .ok out

/-! ### Groups of three bytes -/

/-- Four digits for three bytes, and the padding. -/
def text : Bytes → Bytes
  | a :: b :: c :: rest =>
    [digit (a.toNat / 4), digit (a.toNat % 4 * 16 + b.toNat / 16), digit (b.toNat % 16 * 4 + c.toNat / 64),
      digit (c.toNat % 64)] ++ text rest
  | [a, b] => [digit (a.toNat / 4), digit (a.toNat % 4 * 16 + b.toNat / 16), digit (b.toNat % 16 * 4), 61]
  | [a] => [digit (a.toNat / 4), digit (a.toNat % 4 * 16), 61, 61]
  | [] => []

/-- Some characters, one after another. -/
def puts (outLen : Nat) (out cs : Bytes) : Except Failure Bytes :=
  if cs = [] ∨ out.length + cs.length ≤ outLen then .ok (out ++ cs) else .error .truncated

theorem puts_cons (outLen : Nat) (out : Bytes) (c : UInt8) (cs : Bytes) :
    puts outLen out (c :: cs) = put outLen out c >>= fun out => puts outLen out cs := by
  unfold puts put
  rw [List.length_cons]
  by_cases hput : out.length ≥ outLen
  · rw [if_pos hput, if_neg (by simp; omega)]
    rfl
  · rw [if_neg hput]
    change _ = if cs = [] ∨ (out ++ [c]).length + cs.length ≤ outLen then _ else _
    rw [List.length_append, List.length_singleton, List.append_assoc]
    by_cases hcs : cs = []
    · refine Eq.trans (if_pos ?_) (if_pos (.inl hcs)).symm
      · right
        simp only [hcs, List.length_nil]
        omega
    · refine if_congr ?_ rfl rfl
      simp only [hcs, List.cons_ne_nil, false_or]
      omega

theorem u32_push (v x k : Nat) (hx : x < 2 ^ k) : u32 (v <<< k ||| x) = (v * 2 ^ k + x) % 2 ^ 32 := by
  rw [u32, ← Nat.shiftLeft_add_eq_or_of_lt hx, Nat.shiftLeft_eq]

theorem puts_nil (outLen : Nat) (out : Bytes) : puts outLen out [] = .ok out := by
  rw [puts, if_pos (.inl rfl), List.append_nil]

theorem put_bind_congr {α : Type} {outLen : Nat} {out : Bytes} {c : UInt8} {f g : Bytes → Except Failure α}
    (h : ∀ out', out'.length = out.length + 1 → f out' = g out') : put outLen out c >>= f = put outLen out c >>= g := by
  unfold put
  split_ifs
  · rfl
  · exact h _ (by simp)

theorem digit_congr {x y : Nat} (h : x % 64 = y % 64) : digit x = digit y := by
  rw [digit, digit, h]

/-! ### The loop of the encoder -/

variable {outLen v : Nat} {ch a b c : UInt8} {rest out : Bytes}

theorem encodeLoop_zero : encodeLoop outLen (ch :: rest) v 0 out =
    put outLen out (digit (u32 (v <<< 8 ||| ch.toNat) >>> 2)) >>= fun out =>
      encodeLoop outLen rest (u32 (v <<< 8 ||| ch.toNat)) 2 out := by
  rw [encodeLoop]
  dsimp only
  rw [show 0 + 8 = 2 + 6 from rfl, digitLoop, bind_assoc]
  rfl

theorem encodeLoop_two : encodeLoop outLen (ch :: rest) v 2 out =
    put outLen out (digit (u32 (v <<< 8 ||| ch.toNat) >>> 4)) >>= fun out =>
      encodeLoop outLen rest (u32 (v <<< 8 ||| ch.toNat)) 4 out := by
  rw [encodeLoop]
  dsimp only
  rw [show 2 + 8 = 4 + 6 from rfl, digitLoop, bind_assoc]
  rfl

theorem encodeLoop_four : encodeLoop outLen (ch :: rest) v 4 out =
    put outLen out (digit (u32 (v <<< 8 ||| ch.toNat) >>> 6)) >>= fun out =>
      put outLen out (digit (u32 (v <<< 8 ||| ch.toNat))) >>= fun out =>
        encodeLoop outLen rest (u32 (v <<< 8 ||| ch.toNat)) 0 out := by
  rw [encodeLoop]
  dsimp only
  rw [show 4 + 8 = 6 + 6 from rfl, digitLoop, bind_assoc]
  refine put_bind_congr fun out' _ => ?_
  rw [show 6 = 0 + 6 from rfl, digitLoop, bind_assoc]
  rfl

/-- Three bytes leave nothing to give out. -/
theorem encodeLoop_three (outLen : Nat) (a b c : UInt8) (rest : Bytes) (v : Nat) (out : Bytes) :
    ∃ v', encodeLoop outLen (a :: b :: c :: rest) v 0 out =
      puts outLen out [digit (a.toNat / 4), digit (a.toNat % 4 * 16 + b.toNat / 16),
        digit (b.toNat % 16 * 4 + c.toNat / 64), digit (c.toNat % 64)] >>= fun out =>
          encodeLoop outLen rest v' 0 out := by
  have ha := a.toNat_lt
  have hb := b.toNat_lt
  have hc := c.toNat_lt
  refine ⟨(((v * 2 ^ 8 + a.toNat) % 2 ^ 32 * 2 ^ 8 + b.toNat) % 2 ^ 32 * 2 ^ 8 + c.toNat) % 2 ^ 32, ?_⟩
  rw [encodeLoop_zero, puts_cons, bind_assoc]
  simp only [encodeLoop_two, encodeLoop_four, puts_cons, puts_nil, bind_assoc, u32_push _ _ 8 ha, u32_push _ _ 8 hb,
    u32_push _ _ 8 hc, Nat.shiftRight_eq_div_pow]
  rw [digit_congr (y := a.toNat / 4) (by omega)]
  refine put_bind_congr fun out' _ => ?_
  rw [digit_congr (y := a.toNat % 4 * 16 + b.toNat / 16) (by omega)]
  refine put_bind_congr fun out' _ => ?_
  rw [digit_congr (y := b.toNat % 16 * 4 + c.toNat / 64) (by omega)]
  refine put_bind_congr fun out' _ => ?_
  rw [digit_congr (y := c.toNat % 64) (by omega)]
  rfl

/-! ### The loop of the decoder -/

/-- The decoder knows each digit. -/
theorem digit_table : ∀ x < 64, digit x < 128 ∧ isSpace (digit x) = false ∧ digit x ≠ 61 ∧
    base64decTab.getD (digit x).toNat 255 = x := by decide +kernel

theorem decodeLoop_digit {x : Nat} (hx : x < 64) (v rem : Nat) : decodeLoop outLen (digit x :: rest) v rem out =
    if rem + 6 ≥ 8 then put outLen out (UInt8.ofNat (u32 (v <<< 6 ||| x) >>> (rem + 6 - 8))) >>= fun out =>
      decodeLoop outLen rest (u32 (v <<< 6 ||| x)) (rem + 6 - 8) out
    else decodeLoop outLen rest (u32 (v <<< 6 ||| x)) (rem + 6) out := by
  obtain ⟨hlt, hspace, hpad, htable⟩ := digit_table x hx
  rw [decodeLoop, if_neg (UInt8.not_le.mpr hlt), hspace, if_neg Bool.false_ne_true, if_neg hpad]
  simp only [htable]
  rw [if_neg (by omega)]

/-- The padding ends the loop. -/
theorem decodeLoop_pad (v rem : Nat) : decodeLoop outLen (61 :: rest) v rem out = .ok (v, rem, out) := by
  rw [decodeLoop, if_neg (by decide), if_neg (by decide), if_pos rfl]

theorem ofNat_eq {x : Nat} (h : x % 256 = a.toNat) : UInt8.ofNat x = a := by
  rw [← UInt8.toNat_inj, UInt8.toNat_ofNat']
  exact h

theorem decodeLoop_two (v : Nat) {x y : Nat} (hx : x < 64) (hy : y < 64) (ha : x * 4 + y / 16 = a.toNat) :
    decodeLoop outLen (digit x :: digit y :: rest) v 0 out = put outLen out a >>= fun out =>
      decodeLoop outLen rest (((v * 2 ^ 6 + x) % 2 ^ 32 * 2 ^ 6 + y) % 2 ^ 32) 4 out := by
  rw [decodeLoop_digit hx, if_neg (by decide), decodeLoop_digit hy, if_pos (by decide), u32_push _ _ 6 hx,
    u32_push _ _ 6 hy, Nat.shiftRight_eq_div_pow, ofNat_eq (a := a)]
  omega

theorem decodeLoop_third (v : Nat) {z : Nat} (hz : z < 64) (hb : v % 16 * 16 + z / 4 = b.toNat) :
    decodeLoop outLen (digit z :: rest) v 4 out = put outLen out b >>= fun out =>
      decodeLoop outLen rest ((v * 2 ^ 6 + z) % 2 ^ 32) 2 out := by
  rw [decodeLoop_digit hz, if_pos (by decide), u32_push _ _ 6 hz, Nat.shiftRight_eq_div_pow, ofNat_eq (a := b)]
  omega

theorem decodeLoop_fourth (v : Nat) {w : Nat} (hw : w < 64) (hc : v % 4 * 64 + w = c.toNat) :
    decodeLoop outLen (digit w :: rest) v 2 out = put outLen out c >>= fun out =>
      decodeLoop outLen rest ((v * 2 ^ 6 + w) % 2 ^ 32) 0 out := by
  rw [decodeLoop_digit hw, if_pos (by decide), u32_push _ _ 6 hw, Nat.shiftRight_eq_div_pow, ofNat_eq (a := c)]
  omega

/-! ### Both ways -/

theorem finish (outLen : Nat) (out cs : Bytes) :
    (puts outLen out cs >>= fun out => if out.length ≥ outLen then .error .truncated else .ok out) =
      if out.length + cs.length < outLen then .ok (out ++ cs) else .error .truncated := by
  unfold puts
  by_cases hlt : out.length + cs.length < outLen
  · rw [if_pos (.inr hlt.le), if_pos hlt]
    refine if_neg ?_
    rw [List.length_append]
    omega
  · rw [if_neg hlt]
    split_ifs with hle
    · refine if_pos ?_
      rw [List.length_append]
      omega
    · rfl

theorem padLoop_aligned (out : Bytes) (n : Nat) (h : out.length % 4 = 0) : padLoop outLen n out = .ok out := by
  cases n with
  | zero => rfl
  | succ n => rw [padLoop, if_neg (by omega)]

theorem padLoop_put (out : Bytes) (n : Nat) (h : out.length % 4 ≠ 0) :
    padLoop outLen (n + 1) out = put outLen out 61 >>= fun out => padLoop outLen n out := by
  rw [padLoop, if_pos h]

/-- The loop and what follows it write the text, when there is room for it and for one character more. -/
theorem encodeLoop_eq (input : Bytes) (v : Nat) {out : Bytes} (hout : out.length % 4 = 0) :
    (encodeLoop outLen input v 0 out >>= fun r => encodeRest outLen r.1 r.2.1 r.2.2) =
      if out.length + (text input).length < outLen then .ok (out ++ text input) else .error .truncated := by
  induction input using text.induct generalizing v out with
  | case1 a b c rest ih =>
    obtain ⟨v', hv'⟩ := encodeLoop_three outLen a b c rest v out
    rw [hv', bind_assoc, text, puts]
    by_cases hle : out.length + 4 ≤ outLen
    · rw [if_pos (.inr hle)]
      refine (ih v' (by rw [List.length_append]; simp only [List.length_cons, List.length_nil]; omega)).trans ?_
      rw [List.length_append, List.length_append, Nat.add_assoc, List.append_assoc]
    · rw [if_neg, if_neg]
      · rfl
      · simp only [List.length_append, List.length_cons, List.length_nil]
        omega
      · simp only [List.cons_ne_nil, false_or, List.length_cons, List.length_nil]
        exact hle
  | case2 a b =>
    have ha := a.toNat_lt
    have hb := b.toNat_lt
    rw [encodeLoop_zero, bind_assoc, text, ← finish]
    simp only [encodeLoop_two, puts_cons, puts_nil, bind_assoc, u32_push _ _ 8 ha, u32_push _ _ 8 hb,
      Nat.shiftRight_eq_div_pow]
    rw [digit_congr (y := a.toNat / 4) (by omega)]
    refine put_bind_congr fun out₁ h₁ => ?_
    rw [digit_congr (y := a.toNat % 4 * 16 + b.toNat / 16) (by omega)]
    refine put_bind_congr fun out₂ h₂ => ?_
    rw [encodeLoop]
    change encodeRest outLen _ 4 out₂ = _
    rw [encodeRest, if_pos (by decide), u32, Nat.shiftLeft_eq, digit_congr (y := b.toNat % 16 * 4) (by omega)]
    refine put_bind_congr fun out₃ h₃ => ?_
    dsimp only
    rw [padLoop_put out₃ 2 (by omega), bind_assoc]
    refine put_bind_congr fun out₄ h₄ => ?_
    rw [padLoop_aligned out₄ 2 (by omega)]
  | case3 a =>
    have ha := a.toNat_lt
    rw [encodeLoop_zero, bind_assoc, text, ← finish]
    simp only [puts_cons, puts_nil, bind_assoc, u32_push _ _ 8 ha, Nat.shiftRight_eq_div_pow]
    rw [digit_congr (y := a.toNat / 4) (by omega)]
    refine put_bind_congr fun out₁ h₁ => ?_
    rw [encodeLoop]
    change encodeRest outLen _ 2 out₁ = _
    rw [encodeRest, if_pos (by decide), u32, Nat.shiftLeft_eq, digit_congr (y := a.toNat % 4 * 16) (by omega)]
    refine put_bind_congr fun out₂ h₂ => ?_
    dsimp only
    rw [padLoop_put out₂ 2 (by omega), bind_assoc]
    refine put_bind_congr fun out₃ h₃ => ?_
    rw [padLoop_put out₃ 1 (by omega), bind_assoc]
    refine put_bind_congr fun out₄ h₄ => ?_
    rw [padLoop_aligned out₄ 1 (by omega)]
  | case4 =>
    rw [encodeLoop]
    change encodeRest outLen v 0 out = _
    rw [encodeRest, if_neg (by decide)]
    change (padLoop outLen 3 out >>= _) = _
    rw [padLoop_aligned out 3 hout, ← puts_nil outLen out]
    exact finish outLen out []

theorem length_text (input : Bytes) : (text input).length = 4 * ((input.length + 2) / 3) := by
  induction input using text.induct with
  | case1 a b c rest ih =>
    rw [text, List.length_append, ih]
    simp only [List.length_cons, List.length_nil]
    omega
  | case2 a b => simp [text]
  | case3 a => simp [text]
  | case4 => simp [text]

theorem puts_of_le (cs : Bytes) (h : out.length + cs.length ≤ outLen) : puts outLen out cs = .ok (out ++ cs) :=
  if_pos (.inr h)

/-- Four digits make three bytes, whatever the register had before. -/
theorem decodeLoop_group (outLen : Nat) (a b c : UInt8) (rest : Bytes) (v : Nat) (out : Bytes) :
    ∃ v', decodeLoop outLen (digit (a.toNat / 4) :: digit (a.toNat % 4 * 16 + b.toNat / 16) ::
        digit (b.toNat % 16 * 4 + c.toNat / 64) :: digit (c.toNat % 64) :: rest) v 0 out =
      puts outLen out [a, b, c] >>= fun out => decodeLoop outLen rest v' 0 out := by
  have ha := a.toNat_lt
  have hb := b.toNat_lt
  have hc := c.toNat_lt
  refine ⟨((((v * 2 ^ 6 + a.toNat / 4) % 2 ^ 32 * 2 ^ 6 + (a.toNat % 4 * 16 + b.toNat / 16)) % 2 ^ 32 * 2 ^ 6 +
    (b.toNat % 16 * 4 + c.toNat / 64)) % 2 ^ 32 * 2 ^ 6 + c.toNat % 64) % 2 ^ 32, ?_⟩
  rw [decodeLoop_two v (a := a) (by omega) (by omega) (by omega)]
  simp only [puts_cons, puts_nil, bind_assoc]
  refine put_bind_congr fun out₁ _ => ?_
  rw [decodeLoop_third _ (b := b) (by omega) (by omega)]
  refine put_bind_congr fun out₂ _ => ?_
  rw [decodeLoop_fourth _ (c := c) (by omega) (by omega)]
  rfl

theorem decodeLoop_pair (outLen : Nat) (a b : UInt8) (v : Nat) (out : Bytes) :
    ∃ v', decodeLoop outLen [digit (a.toNat / 4), digit (a.toNat % 4 * 16 + b.toNat / 16), digit (b.toNat % 16 * 4), 61]
      v 0 out = puts outLen out [a, b] >>= fun out => .ok (v', 2, out) := by
  have ha := a.toNat_lt
  have hb := b.toNat_lt
  refine ⟨(((v * 2 ^ 6 + a.toNat / 4) % 2 ^ 32 * 2 ^ 6 + (a.toNat % 4 * 16 + b.toNat / 16)) % 2 ^ 32 * 2 ^ 6 +
    b.toNat % 16 * 4) % 2 ^ 32, ?_⟩
  rw [decodeLoop_two v (a := a) (by omega) (by omega) (by omega)]
  simp only [puts_cons, puts_nil, bind_assoc]
  refine put_bind_congr fun out₁ _ => ?_
  rw [decodeLoop_third _ (b := b) (by omega) (by omega)]
  exact put_bind_congr fun out₂ _ => decodeLoop_pad _ _

theorem decodeLoop_single (outLen : Nat) (a : UInt8) (v : Nat) (out : Bytes) :
    ∃ v', decodeLoop outLen [digit (a.toNat / 4), digit (a.toNat % 4 * 16), 61, 61] v 0 out =
      puts outLen out [a] >>= fun out => .ok (v', 4, out) := by
  have ha := a.toNat_lt
  refine ⟨((v * 2 ^ 6 + a.toNat / 4) % 2 ^ 32 * 2 ^ 6 + a.toNat % 4 * 16) % 2 ^ 32, ?_⟩
  rw [decodeLoop_two v (a := a) (by omega) (by omega) (by omega)]
  simp only [puts_cons, puts_nil, bind_assoc]
  exact put_bind_congr fun out₁ _ => decodeLoop_pad _ _

/-- What is left in the register at the end is not given out. -/
theorem decodeLoop_eq (input : Bytes) (v : Nat) (out : Bytes) (hroom : out.length + input.length ≤ outLen) :
    ∃ v', ∃ rem < 8, decodeLoop outLen (text input) v 0 out = .ok (v', rem, out ++ input) := by
  induction input using text.induct generalizing v out with
  | case1 a b c rest ih =>
    simp only [List.length_cons] at hroom
    obtain ⟨v', hgroup⟩ := decodeLoop_group outLen a b c (text rest) v out
    obtain ⟨v'', rem, hrem, hloop⟩ := ih v' (out ++ [a, b, c]) (by
      rw [List.length_append]
      simp only [List.length_cons, List.length_nil]
      omega)
    refine ⟨v'', rem, hrem, ?_⟩
    have hputs : puts outLen out [a, b, c] = .ok (out ++ [a, b, c]) := by
      refine puts_of_le _ ?_
      simp only [List.length_cons, List.length_nil]
      omega
    rw [text, List.cons_append, List.cons_append, List.cons_append, List.cons_append, List.nil_append, hgroup, hputs]
    refine hloop.trans ?_
    rw [List.append_assoc]
    rfl
  | case2 a b =>
    obtain ⟨v', hpair⟩ := decodeLoop_pair outLen a b v out
    exact ⟨v', 2, by decide, by rw [text, hpair, puts_of_le _ hroom]; rfl⟩
  | case3 a =>
    obtain ⟨v', hsingle⟩ := decodeLoop_single outLen a v out
    exact ⟨v', 4, by decide, by rw [text, hsingle, puts_of_le _ hroom]; rfl⟩
  | case4 => exact ⟨v, 0, by decide, by rw [text, decodeLoop, List.append_nil]⟩

/-- Bytes are encoded when there is room for four characters for each three of them and for the end of the string, and
what is written is decoded to them again. -/
theorem base64_roundTrip (input : Bytes) (outLen : Nat) :
    encode input outLen = (if 4 * ((input.length + 2) / 3) < outLen then .ok (text input) else .error .truncated) ∧
    ∀ decodedLen, input.length ≤ decodedLen → decode (text input) decodedLen = .ok input := by
  constructor
  · refine (encodeLoop_eq input 0 rfl).trans ?_
    rw [length_text]
    simp
  · intro decodedLen hroom
    obtain ⟨v, rem, hrem, hloop⟩ := decodeLoop_eq input 0 [] (by simpa using hroom)
    rw [decode, hloop]
    exact if_neg (by omega)

theorem base64_roundTrip_light : encode (ascii "light") 9 = .ok (ascii "bGlnaHQ=") ∧
    decode (ascii "bGlnaHQ=") 5 = .ok (ascii "light") := by
  have htext : text (ascii "light") = ascii "bGlnaHQ=" := by decide
  have hboth := base64_roundTrip (ascii "light") 9
  rw [htext] at hboth
  exact ⟨hboth.1.trans (if_pos (by decide)), hboth.2 5 (by decide)⟩

end Latypus.Io.Base64
