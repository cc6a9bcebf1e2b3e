import Latypus.Lib.Memory

/-! `io_ring_buffer` of io.cc: free-running signed counters over a byte vector. An access
outside the vector or outside the caller's buffer is undefined behaviour in the source, and
`none` here. -/

namespace Latypus.Io
open Lib

structure IoResult where
  size : Int
  errcode : Nat
deriving DecidableEq, Repr

def IoResult.ofSize (size : Int) : IoResult := ⟨size, 0⟩

def IoResult.ofError (errcode : Nat) : IoResult := ⟨0, errcode⟩

def IoResult.hasError (r : IoResult) : Bool := r.errcode != 0

/-- What an `io_reader` does when asked for some bytes: it delivers the front part of `data`
that fits, or fails with an error code. -/
inductive ReaderOutcome where
  | data (bytes : List UInt8)
  | fail (errcode : Nat)
deriving DecidableEq, Repr

/-- What an `io_writer` does when offered some bytes: it accepts the first `count` of them
at most, or fails. -/
inductive WriterOutcome where
  | accept (count : Nat)
  | fail (errcode : Nat)
deriving DecidableEq, Repr

/-- The bytes a reader puts at the pointer it was given. -/
def ReaderOutcome.delivered : ReaderOutcome → Nat → List UInt8
  | data bytes, len => bytes.take len
  | fail _, _ => []

def ReaderOutcome.result : ReaderOutcome → Nat → IoResult
  | data bytes, len => .ofSize (min bytes.length len : Nat)
  | fail e, _ => .ofError e

/-- The bytes a writer takes from the ones it was offered. -/
def WriterOutcome.taken : WriterOutcome → List UInt8 → List UInt8
  | accept count, offered => offered.take count
  | fail _, _ => []

def WriterOutcome.result : WriterOutcome → Nat → IoResult
  | accept count, len => .ofSize (min count len : Nat)
  | fail e, _ => .ofError e

@[simp] theorem ReaderOutcome.size_result (r : ReaderOutcome) (len : Nat) :
    (r.result len).size = (r.delivered len).length := by
  cases r with
  | data bytes => simp [result, delivered, IoResult.ofSize, min_comm]
  | fail e => rfl

@[simp] theorem WriterOutcome.size_result (w : WriterOutcome) (offered : List UInt8) :
    (w.result offered.length).size = (w.taken offered).length := by
  cases w with
  | accept count => simp [result, taken, IoResult.ofSize]
  | fail e => rfl

theorem ReaderOutcome.length_delivered_le (r : ReaderOutcome) (len : Nat) :
    (r.delivered len).length ≤ len := by
  cases r <;> simp [delivered]

theorem WriterOutcome.taken_prefix (w : WriterOutcome) (offered : List UInt8) :
    w.taken offered <+: offered := by
  cases w with
  | accept count => exact List.take_prefix count offered
  | fail e => exact List.nil_prefix

structure IoRingBuffer where
  buffer : List UInt8
  back : Int
  front : Int
  mask : Int
deriving DecidableEq, Repr

namespace IoRingBuffer

def size (b : IoRingBuffer) : Nat := b.buffer.length

def bytesReadable (b : IoRingBuffer) : Nat :=
  sizeT (if b.front < b.back then b.back - b.front else b.size - b.front + b.back)

def bytesWritable (b : IoRingBuffer) : Nat :=
  sizeT (if b.front < b.back then b.size - b.back - b.front else b.front + b.back)

def readOffset (b : IoRingBuffer) : Nat := sizeT b.front &&& sizeT b.mask

def writeOffset (b : IoRingBuffer) : Nat := sizeT b.back &&& sizeT b.mask

/-- `resize` once `roundpow2` has given the size, which is then the length of `contents`. -/
def resize (contents : List UInt8) : IoRingBuffer :=
  { buffer := contents, back := 0, front := contents.length, mask := (contents.length : Int) - 1 }

def reset (b : IoRingBuffer) : IoRingBuffer := { b with back := 0, front := b.size }

/-- `set`, whose `memmove` or `memcpy` copies `src` to the start of the vector; the `assert`
on its length is the bound of the store. -/
def set (b : IoRingBuffer) (src : List UInt8) : Option IoRingBuffer := do
  let buffer ← store b.buffer 0 src
  some { b with buffer, back := src.length, front := b.size }

/-- `read` into the caller's buffer `buf`, whose length is the given `len`. -/
def read (b : IoRingBuffer) (buf : List UInt8) : Option (IoRingBuffer × List UInt8 × IoResult) := do
  let bytesToRead := min buf.length b.bytesReadable
  if bytesToRead = 0 then return (b, buf, .ofSize 0)
  let len1 := ssizeT ((b.size : Int) - b.readOffset)
  let buf ← if 0 < len1 then do store buf 0 (← load b.buffer b.readOffset len1.toNat) else some buf
  let len2 := ssizeT (bytesToRead - len1)
  let buf ← if 0 < len2 then do store buf len1.toNat (← load b.buffer 0 len2.toNat) else some buf
  some ({ b with front := b.front + bytesToRead }, buf, .ofSize bytesToRead)

/-- `write` from the caller's buffer `buf`, whose length is the given `len`. -/
def write (b : IoRingBuffer) (buf : List UInt8) : Option (IoRingBuffer × IoResult) := do
  let bytesToWrite := min buf.length b.bytesWritable
  if bytesToWrite = 0 then return (b, .ofSize 0)
  let len1 := ssizeT ((b.size : Int) - b.writeOffset)
  let buffer ← if 0 < len1 then do store b.buffer b.writeOffset (← load buf 0 len1.toNat)
    else some b.buffer
  let len2 := ssizeT (bytesToWrite - len1)
  let buffer ← if 0 < len2 then do store buffer 0 (← load buf len1.toNat len2.toNat)
    else some buffer
  some ({ b with buffer, back := b.back + bytesToWrite }, .ofSize bytesToWrite)

/-- The number of bytes `buffer_read` asks its reader for. -/
def bytesToRead (b : IoRingBuffer) : Nat :=
  min (sizeT ((b.size : Int) - b.writeOffset)) b.bytesWritable

/-- The number of bytes `buffer_write` offers to its writer. -/
def bytesToWrite (b : IoRingBuffer) : Nat :=
  min (sizeT ((b.size : Int) - b.readOffset)) b.bytesReadable

def bufferRead (b : IoRingBuffer) (r : ReaderOutcome) : Option (IoRingBuffer × IoResult) := do
  if b.bytesToRead = 0 then return (b, .ofSize 0)
  let buffer ← store b.buffer b.writeOffset (r.delivered b.bytesToRead)
  let result := r.result b.bytesToRead
  some ({ b with buffer, back := b.back + result.size }, result)

/-- `buffer_write`, with the bytes the writer took. -/
def bufferWrite (b : IoRingBuffer) (w : WriterOutcome) :
    Option (IoRingBuffer × List UInt8 × IoResult) := do
  if b.bytesToWrite = 0 then return (b, [], .ofSize 0)
  let offered ← load b.buffer b.readOffset b.bytesToWrite
  let result := w.result b.bytesToWrite
  some ({ b with front := b.front + result.size }, w.taken offered, result)

/-- The bytes between the two counters, oldest first. -/
def contents (b : IoRingBuffer) : List UInt8 :=
  (List.range b.bytesReadable).map fun i => b.buffer.getD (sizeT (b.front + i) &&& sizeT b.mask) 0

end IoRingBuffer

/-- A buffer of a power-of-two size that a vector can have. -/
structure Sized (N : Nat) (b : IoRingBuffer) : Prop where
  pow2 : ∃ k, N = 2 ^ k
  lt : N < 2 ^ 63
  size_eq : b.buffer.length = N
  mask_eq : b.mask = (N : Int) - 1

/-- A buffer as `resize` or `reset` leaves it. -/
structure Fresh (N : Nat) (b : IoRingBuffer) : Prop extends Sized N b where
  back_eq : b.back = 0
  front_eq : b.front = N

/-- A buffer that has taken `put` bytes since it was fresh and given `got` of them. -/
structure Filled (N got put : Nat) (b : IoRingBuffer) : Prop extends Sized N b where
  back_eq : b.back = put
  front_eq : b.front = (N + got : Nat)
  le : got ≤ put
  fits : put ≤ got + N
  small : N + 2 * put < 2 ^ 64

theorem Sized.pos {N : Nat} {b : IoRingBuffer} (h : Sized N b) : 0 < N := by
  obtain ⟨k, rfl⟩ := h.pow2
  exact Nat.two_pow_pos k

theorem Sized.le_two_pow {N : Nat} {b : IoRingBuffer} (h : Sized N b) : N ≤ 2 ^ 62 := by
  have hlt := h.lt
  obtain ⟨k, rfl⟩ := h.pow2
  exact Nat.pow_le_pow_right (by decide) (Nat.lt_succ_iff.mp ((Nat.pow_lt_pow_iff_right (by decide)).mp hlt))

theorem Sized.and_mask {N : Nat} {b : IoRingBuffer} (h : Sized N b) {x : Nat} (hx : x < 2 ^ 64) :
    sizeT x &&& sizeT b.mask = x % N := by
  have hpos := h.pos
  have hlt := h.lt
  obtain ⟨k, hk⟩ := h.pow2
  rw [h.mask_eq, sizeT_natCast hx, show ((N : Int) - 1) = ((N - 1 : Nat) : Int) by omega,
    sizeT_natCast (by omega), hk, Nat.and_two_pow_sub_one_eq_mod]

theorem Fresh.resize {N : Nat} {contents : List UInt8} (hpow : ∃ k, N = 2 ^ k) (hlt : N < 2 ^ 63)
    (hlen : contents.length = N) : Fresh N (.resize contents) :=
  ⟨⟨hpow, hlt, hlen, by simp [IoRingBuffer.resize, hlen]⟩, rfl,
    by simp [IoRingBuffer.resize, hlen]⟩

theorem Fresh.reset {N : Nat} {b : IoRingBuffer} (h : Sized N b) : Fresh N b.reset :=
  ⟨⟨h.pow2, h.lt, h.size_eq, h.mask_eq⟩, rfl,
    by simp [IoRingBuffer.reset, IoRingBuffer.size, h.size_eq]⟩

namespace Filled
variable {N got put : Nat} {b : IoRingBuffer}

theorem writeOffset (h : Filled N got put b) : b.writeOffset = put % N := by
  have hsmall := h.small
  rw [IoRingBuffer.writeOffset, h.back_eq, h.and_mask (by omega)]

theorem readOffset (h : Filled N got put b) : b.readOffset = got % N := by
  have hsmall := h.small
  have hle := h.le
  rw [IoRingBuffer.readOffset, h.front_eq, h.and_mask (by omega), Nat.add_mod_left]

theorem bytesReadable (h : Filled N got put b) : b.bytesReadable = put - got := by
  have hsmall := h.small
  have hle := h.le
  have hfits := h.fits
  rw [IoRingBuffer.bytesReadable, IoRingBuffer.size, h.size_eq, h.back_eq, h.front_eq,
    if_neg (by omega), show (N : Int) - (N + got : Nat) + put = (put - got : Nat) by omega,
    sizeT_natCast (by omega)]

theorem bytesWritable (h : Filled N got put b) : b.bytesWritable = N + got + put := by
  have hsmall := h.small
  have hle := h.le
  have hfits := h.fits
  rw [IoRingBuffer.bytesWritable, h.back_eq, h.front_eq, if_neg (by omega), ← Nat.cast_add,
    sizeT_natCast (by omega)]

/-- The free space is never the bound: a read goes up to the end of the storage whatever is
still stored there. -/
theorem bytesToRead (h : Filled N got put b) : b.bytesToRead = N - put % N := by
  have hlt := h.lt
  have hmod := Nat.mod_lt put h.pos
  rw [IoRingBuffer.bytesToRead, IoRingBuffer.size, h.size_eq, h.writeOffset, h.bytesWritable,
    ← Nat.cast_sub hmod.le, sizeT_natCast (by omega)]
  omega

theorem bytesToWrite (h : Filled N got put b) :
    b.bytesToWrite = min (N - got % N) (put - got) := by
  have hlt := h.lt
  have hmod := Nat.mod_lt got h.pos
  rw [IoRingBuffer.bytesToWrite, IoRingBuffer.size, h.size_eq, h.readOffset, h.bytesReadable,
    ← Nat.cast_sub hmod.le, sizeT_natCast (by omega)]

theorem bufferRead (h : Filled N got put b) (r : ReaderOutcome) :
    ∃ buffer, store b.buffer (put % N) (r.delivered (N - put % N)) = some buffer ∧
      b.bufferRead r = some ({ b with
        buffer, back := (put + (r.delivered (N - put % N)).length : Nat) },
        r.result (N - put % N)) := by
  have hmod := Nat.mod_lt put h.pos
  have hlen := r.length_delivered_le (N - put % N)
  refine ⟨_, store_eq_some.mpr ⟨by rw [h.size_eq]; omega, rfl⟩, ?_⟩
  rw [IoRingBuffer.bufferRead, h.bytesToRead, h.writeOffset, if_neg (by omega)]
  simp [store, h.size_eq, h.back_eq, show put % N + (r.delivered (N - put % N)).length ≤ N by omega]

theorem bufferRead_filled {buffer : List UInt8} {n : Nat} (h : Filled N got put b)
    (hlen : buffer.length = N) (hfits : put + n ≤ got + N) (hsmall : N + 2 * (put + n) < 2 ^ 64) :
    Filled N got (put + n) { b with buffer, back := (put + n : Nat) } :=
  ⟨⟨h.pow2, h.lt, hlen, h.mask_eq⟩, rfl, h.front_eq, h.le.trans (Nat.le_add_right _ _), hfits, hsmall⟩

theorem bufferWrite (h : Filled N got put b) (w : WriterOutcome) (hlt : got < put) :
    ∃ offered, load b.buffer (got % N) (min (N - got % N) (put - got)) = some offered ∧
      b.bufferWrite w = some ({ b with front := (N + (got + (w.taken offered).length) : Nat) },
        w.taken offered, w.result offered.length) := by
  have hmod := Nat.mod_lt got h.pos
  have hload : load b.buffer (got % N) (min (N - got % N) (put - got)) =
      some ((b.buffer.drop (got % N)).take (min (N - got % N) (put - got))) :=
    load_eq_some.mpr ⟨by rw [h.size_eq]; omega, rfl⟩
  have hlen : ((b.buffer.drop (got % N)).take (min (N - got % N) (put - got))).length =
      min (N - got % N) (put - got) := by
    simp [h.size_eq]
  refine ⟨_, hload, ?_⟩
  have hsize := w.size_result ((b.buffer.drop (got % N)).take (min (N - got % N) (put - got)))
  rw [hlen] at hsize ⊢
  rw [IoRingBuffer.bufferWrite, h.bytesToWrite, h.readOffset, if_neg (by omega), hload]
  simp [hsize, h.front_eq, add_assoc]

theorem bufferWrite_filled {n : Nat} (h : Filled N got put b) (hle : got + n ≤ put) :
    Filled N (got + n) put { b with front := (N + (got + n) : Nat) } :=
  ⟨⟨h.pow2, h.lt, h.size_eq, h.mask_eq⟩, h.back_eq, rfl, hle, by have := h.fits; omega, h.small⟩

end Filled

theorem Fresh.filled {N : Nat} {b : IoRingBuffer} (h : Fresh N b) : Filled N 0 0 b :=
  ⟨h.toSized, by simp [h.back_eq], by simp [h.front_eq], le_rfl, by omega, by have := h.lt; omega⟩

end Latypus.Io
