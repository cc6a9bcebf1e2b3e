import Latypus.Io.RingBuffer

/-! Runs of `io_ring_buffer` against a bounded FIFO of bytes. The free-space formula of the
source adds the two counters where it should subtract them, so the two size formulas stop
adding up to the capacity with the first byte that enters the buffer. -/

namespace Latypus.Io
open Lib

/-- One call on the buffer, with the caller's buffer or what the underlying reader or
writer does. -/
inductive RingOp where
  | read (buf : List UInt8)
  | write (buf : List UInt8)
  | bufferRead (reader : ReaderOutcome)
  | bufferWrite (writer : WriterOutcome)

/-- The buffer with the bytes it has accepted and handed out so far. -/
structure RingRun where
  ring : IoRingBuffer
  accepted : List UInt8
  handedOut : List UInt8

namespace RingRun

def step (s : RingRun) : RingOp → Option RingRun
  | .read buf => do
    let (ring, buf, result) ← s.ring.read buf
    some { s with ring, handedOut := s.handedOut ++ buf.take result.size.toNat }
  | .write buf => do
    let (ring, result) ← s.ring.write buf
    some { s with ring, accepted := s.accepted ++ buf.take result.size.toNat }
  | .bufferRead reader => do
    let (ring, result) ← s.ring.bufferRead reader
    some { s with
      ring, accepted := s.accepted ++ (reader.delivered s.ring.bytesToRead).take result.size.toNat }
  | .bufferWrite writer => do
    let (ring, taken, _) ← s.ring.bufferWrite writer
    some { s with ring, handedOut := s.handedOut ++ taken }

/-- The state is one of a FIFO of capacity `N`. -/
def IsFifo (N : Nat) (s : RingRun) : Prop :=
  s.ring.bytesReadable + s.ring.bytesWritable = N ∧
    s.accepted = s.handedOut ++ s.ring.contents

/-- Every call stays inside the storage and the caller's buffer, and every state reached,
the one at the start included, is one of a FIFO of capacity `N`. -/
def BoundedFifo (N : Nat) : RingRun → List RingOp → Prop
  | s, [] => IsFifo N s
  | s, op :: ops => IsFifo N s ∧ ∃ s', s.step op = some s' ∧ BoundedFifo N s' ops

def start (ring : IoRingBuffer) : RingRun := ⟨ring, [], []⟩

end RingRun

/-- The call brings a byte: a `write` of a non-empty buffer, or a `buffer_read` whose
reader has something to deliver. -/
def RingOp.Offers : RingOp → Prop
  | .write buf => buf ≠ []
  | .bufferRead (.data bytes) => bytes ≠ []
  | _ => False

namespace Fresh
variable {N : Nat} {b : IoRingBuffer}

theorem writeOffset (h : Fresh N b) : b.writeOffset = 0 := by
  rw [h.filled.writeOffset, Nat.zero_mod]

theorem bytesReadable (h : Fresh N b) : b.bytesReadable = 0 := h.filled.bytesReadable

theorem bytesWritable (h : Fresh N b) : b.bytesWritable = N := h.filled.bytesWritable

theorem bytesToRead (h : Fresh N b) : b.bytesToRead = N := by
  rw [h.filled.bytesToRead, Nat.zero_mod, Nat.sub_zero]

theorem isFifo_start (h : Fresh N b) : (RingRun.start b).IsFifo N := by
  refine ⟨?_, ?_⟩
  · simp [RingRun.start, h.bytesReadable, h.bytesWritable]
  · simp [RingRun.start, IoRingBuffer.contents, h.bytesReadable]

theorem store_nil (h : Fresh N b) : store b.buffer b.writeOffset [] = some b.buffer := by
  simp [store, h.writeOffset]

/-- A call that brings nothing leaves a fresh buffer as it is. -/
theorem step_idle (h : Fresh N b) {op : RingOp} (hop : ¬op.Offers) :
    (RingRun.start b).step op = some (RingRun.start b) := by
  have hpos := h.pos
  cases op with
  | read buf =>
    simp [RingRun.step, RingRun.start, IoRingBuffer.read, h.bytesReadable, IoResult.ofSize]
  | write buf =>
    obtain rfl : buf = [] := by simpa [RingOp.Offers] using hop
    simp [RingRun.step, RingRun.start, IoRingBuffer.write, IoResult.ofSize]
  | bufferRead reader =>
    have hstore := h.store_nil
    cases reader with
    | data bytes =>
      obtain rfl : bytes = [] := by simpa [RingOp.Offers] using hop
      simp [RingRun.step, RingRun.start, IoRingBuffer.bufferRead, h.bytesToRead, hpos.ne',
        ReaderOutcome.delivered, ReaderOutcome.result, hstore, IoResult.ofSize]
    | fail e =>
      simp [RingRun.step, RingRun.start, IoRingBuffer.bufferRead, h.bytesToRead, hpos.ne',
        ReaderOutcome.delivered, ReaderOutcome.result, hstore, IoResult.ofError]
  | bufferWrite writer =>
    simp [RingRun.step, RingRun.start, IoRingBuffer.bufferWrite, IoRingBuffer.bytesToWrite,
      h.bytesReadable]

/-- Once `n` bytes stand in the buffer and none has left it, the two size formulas give
`n` and `N + n`. -/
theorem sizes_after (h : Fresh N b) {n : Nat} (hn : n ≤ N) (b' : IoRingBuffer)
    (hlen : b'.buffer.length = N) (hback : b'.back = n) (hfront : b'.front = N) :
    b'.bytesReadable = n ∧ b'.bytesWritable = N + n := by
  have hlt := h.lt
  simp only [IoRingBuffer.bytesReadable, IoRingBuffer.bytesWritable, IoRingBuffer.size, hlen, hback,
    hfront]
  rw [if_neg (by omega), if_neg (by omega)]
  constructor
  · rw [sub_self, zero_add, sizeT_natCast (by omega)]
  · rw [← Nat.cast_add, sizeT_natCast (by omega)]

/-- A `write` of fewer bytes than the buffer holds copies a whole buffer's worth from the
caller; a longer one fills the buffer and leaves the free space at twice its size. -/
theorem write_not_fifo (h : Fresh N b) {buf : List UInt8} (hbuf : buf ≠ []) {s' : RingRun}
    (hs : (RingRun.start b).step (.write buf) = some s') : ¬s'.IsFifo N := by
  have hpos := h.pos
  have hlt := h.lt
  have hlen : 0 < buf.length := List.length_pos_iff.mpr hbuf
  have hwrite : (b.size : Int) - b.writeOffset = N := by
    simp [IoRingBuffer.size, h.size_eq, h.writeOffset]
  simp only [RingRun.step, RingRun.start, IoRingBuffer.write, hwrite, h.bytesWritable,
    ssizeT_of_lt (x := (N : Int)) (by omega) (by omega), Option.bind_eq_bind,
    Option.pure_def] at hs
  rw [if_neg (by omega), if_pos (by omega)] at hs
  obtain ⟨⟨ring, result⟩, hring, hs⟩ := Option.bind_eq_some_iff.mp hs
  obtain ⟨src, hsrc, hring⟩ := Option.bind_eq_some_iff.mp hring
  obtain ⟨buffer1, hstore, hring⟩ := Option.bind_eq_some_iff.mp hring
  obtain ⟨hle, -⟩ := load_eq_some.mp hsrc
  have hmin : min buf.length N = N := by omega
  rw [hmin, sub_self, ssizeT_of_lt (by omega) (by omega), if_neg (by omega)] at hring
  obtain rfl : _ = ring := congrArg Prod.fst (Option.some.inj hring)
  obtain rfl := Option.some.inj hs
  rintro ⟨hsum, -⟩
  obtain ⟨hr, hw⟩ := h.sizes_after le_rfl
    { b with buffer := buffer1, back := b.back + (N : Int) }
    (by simp [length_of_store hstore, h.size_eq]) (by simp [h.back_eq]) h.front_eq
  simp only [hr, hw] at hsum
  omega

theorem bufferRead_not_fifo (h : Fresh N b) {bytes : List UInt8} (hbytes : bytes ≠ [])
    {s' : RingRun} (hs : (RingRun.start b).step (.bufferRead (.data bytes)) = some s') :
    ¬s'.IsFifo N := by
  have hpos := h.pos
  have hlen : 0 < bytes.length := List.length_pos_iff.mpr hbytes
  simp only [RingRun.step, RingRun.start, IoRingBuffer.bufferRead, h.bytesToRead,
    Option.bind_eq_bind, Option.pure_def] at hs
  rw [if_neg hpos.ne'] at hs
  obtain ⟨⟨ring, result⟩, hring, hs⟩ := Option.bind_eq_some_iff.mp hs
  obtain ⟨buffer1, hstore, hring⟩ := Option.bind_eq_some_iff.mp hring
  obtain rfl : _ = ring := congrArg Prod.fst (Option.some.inj hring)
  obtain rfl := Option.some.inj hs
  rintro ⟨hsum, -⟩
  have hn : 0 < min bytes.length N := by omega
  obtain ⟨hr, hw⟩ := h.sizes_after (Nat.min_le_right bytes.length N)
    { b with buffer := buffer1, back := b.back + ((min bytes.length N : Nat) : Int) }
    (by simp [length_of_store hstore, h.size_eq]) (by simp [h.back_eq]) h.front_eq
  simp only [ReaderOutcome.result, IoResult.ofSize, hr, hw] at hsum
  omega

/-- A run of calls on a fresh buffer is one of a bounded FIFO exactly when no call brings
a byte. -/
theorem boundedFifo_iff (h : Fresh N b) (ops : List RingOp) :
    (RingRun.start b).BoundedFifo N ops ↔ ∀ op ∈ ops, ¬op.Offers := by
  induction ops with
  | nil => simpa [RingRun.BoundedFifo] using h.isFifo_start
  | cons op ops ih =>
    by_cases hop : op.Offers
    · refine iff_of_false ?_ fun hall => hall op List.mem_cons_self hop
      rintro ⟨-, s', hs, hrest⟩
      have hs' : s'.IsFifo N := by cases ops <;> [exact hrest; exact hrest.1]
      match op, hop with
      | .write buf, hop => exact h.write_not_fifo hop hs hs'
      | .bufferRead (.data bytes), hop => exact h.bufferRead_not_fifo hop hs hs'
    · simp only [RingRun.BoundedFifo, h.step_idle hop, Option.some.injEq, exists_eq_left', ih,
        h.isFifo_start, true_and, List.forall_mem_cons, hop, not_false_eq_true]

theorem boundedFifo_idle_two :
    Fresh 2 (.resize [0, 0]) ∧
      (RingRun.start (.resize [0, 0])).BoundedFifo 2 [.read [5], .bufferWrite (.accept 1)] := by
  have h : Fresh 2 (.resize [0, 0]) := .resize ⟨1, rfl⟩ (by decide) rfl
  refine ⟨h, (boundedFifo_iff h _).mpr ?_⟩
  simp [RingOp.Offers]

/-- One byte read into an empty buffer of two: one byte is readable and three are
writable. -/
theorem boundedFifo_fails_one_byte :
    ¬∀ ops : List RingOp, (RingRun.start (.resize [0, 0])).BoundedFifo 2 ops := by
  intro h
  obtain ⟨-, s', hs, hsum, -⟩ := h [.bufferRead (.data [7])]
  obtain rfl : (⟨⟨[7, 0], 1, 2, 1⟩, [7], []⟩ : RingRun) = s' := Option.some.inj hs
  exact absurd hsum (by decide)

end Fresh

end Latypus.Io
