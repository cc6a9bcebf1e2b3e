import Latypus.Io.RingBufferFifo
import Latypus.Lib.Machine

/-! `io_buffer` of io.cc: a byte vector of which the part between an offset and a length is readable.
Bytes are taken from the offset, and they are also put at the offset and not at the length, over the
bytes that are still to be read. -/

namespace Latypus.Io
open Lib

structure IoBuffer where
  buffer : List UInt8
  bufferLength : Nat
  bufferOffset : Nat
deriving DecidableEq, Repr

namespace IoBuffer

/-- The default constructor. -/
def new : IoBuffer := ⟨[], 0, 0⟩

def size (b : IoBuffer) : Nat := b.buffer.length

def bytesReadable (b : IoBuffer) : Nat := sizeT ((b.bufferLength : Int) - b.bufferOffset)

def bytesWritable (b : IoBuffer) : Nat := sizeT ((b.size : Int) - b.bufferLength)

/-- `resize` once `roundpow2` has given the size, which is then the length of `contents`. -/
def resize (b : IoBuffer) (contents : List UInt8) : IoBuffer := { b with buffer := contents }

def reset (b : IoBuffer) : IoBuffer := { b with bufferLength := 0, bufferOffset := 0 }

/-- `read` into the caller's buffer `buf`, whose length is the given `len`. -/
def read (b : IoBuffer) (buf : List UInt8) : Option (IoBuffer × List UInt8 × IoResult) := do
  let readMax := ssizeT b.bytesReadable
  let bytesToRead := min buf.length (sizeT readMax)
  if readMax < 0 ∨ buf = [] then return (b, buf, .ofSize 0)
  let buf ← store buf 0 (← load b.buffer b.bufferOffset bytesToRead)
  some ({ b with bufferOffset := sizeT (b.bufferOffset + bytesToRead) }, buf, .ofSize bytesToRead)

/-- `write` from the caller's buffer `buf`, whose length is the given `len`. -/
def write (b : IoBuffer) (buf : List UInt8) : Option (IoBuffer × IoResult) := do
  let writeMax := ssizeT b.bytesWritable
  let bytesToWrite := min buf.length (sizeT writeMax)
  if writeMax < 0 ∨ buf = [] then return (b, .ofSize 0)
  let buffer ← store b.buffer b.bufferOffset (← load buf 0 bytesToWrite)
  some ({ b with buffer, bufferLength := sizeT (b.bufferLength + bytesToWrite) }, .ofSize bytesToWrite)

/-- The number of bytes `buffer_read` asks its reader for. -/
def bytesToRead (b : IoBuffer) : Nat := (ssizeT b.bytesWritable).toNat

/-- The number of bytes `buffer_write` offers to its writer. -/
def bytesToWrite (b : IoBuffer) : Nat := (ssizeT b.bytesReadable).toNat

def bufferRead (b : IoBuffer) (r : ReaderOutcome) : Option (IoBuffer × IoResult) := do
  if b.bytesToRead = 0 then return (b, .ofSize 0)
  let buffer ← store b.buffer b.bufferOffset (r.delivered b.bytesToRead)
  let result := r.result b.bytesToRead
  some ({ b with buffer, bufferLength := sizeT (b.bufferLength + result.size) }, result)

/-- `buffer_write`, with the bytes the writer took. -/
def bufferWrite (b : IoBuffer) (w : WriterOutcome) : Option (IoBuffer × List UInt8 × IoResult) := do
  if b.bytesToWrite = 0 then return (b, [], .ofSize 0)
  let offered ← load b.buffer b.bufferOffset b.bytesToWrite
  let result := w.result b.bytesToWrite
  some ({ b with bufferOffset := sizeT (b.bufferOffset + result.size) }, w.taken offered, result)

/-- The bytes between the offset and the length. -/
def contents (b : IoBuffer) : List UInt8 :=
  (b.buffer.drop b.bufferOffset).take (b.bufferLength - b.bufferOffset)

/-- A buffer of a power-of-two size as `resize` leaves a new one and `reset` one of that size. -/
structure Fresh (N : Nat) (b : IoBuffer) : Prop where
  pow2 : ∃ k, N = 2 ^ k
  lt : N < 2 ^ 63
  size_eq : b.size = N
  eq : (∃ contents, b = new.resize contents) ∨ ∃ b' : IoBuffer, b = b'.reset

/-- Offset, length and size in this order, the size one that a vector can have. -/
structure Bounded (N : Nat) (b : IoBuffer) : Prop where
  lt : N < 2 ^ 63
  size_eq : b.buffer.length = N
  offset_le : b.bufferOffset ≤ b.bufferLength
  length_le : b.bufferLength ≤ N

theorem Fresh.bounds {N : Nat} {b : IoBuffer} (h : Fresh N b) : b.bufferLength = 0 ∧ b.bufferOffset = 0 := by
  rcases h.eq with ⟨contents, rfl⟩ | ⟨b', rfl⟩
  · exact ⟨rfl, rfl⟩
  · exact ⟨rfl, rfl⟩

theorem Fresh.bounded {N : Nat} {b : IoBuffer} (h : Fresh N b) : Bounded N b := by
  obtain ⟨hlength, hoffset⟩ := h.bounds
  exact ⟨h.lt, h.size_eq, by rw [hlength, hoffset], by rw [hlength]; exact Nat.zero_le N⟩

theorem Fresh.contents {N : Nat} {b : IoBuffer} (h : Fresh N b) : b.contents = [] := by
  rw [IoBuffer.contents, h.bounds.1, Nat.zero_sub, List.take_zero]

namespace Bounded
variable {N : Nat} {b : IoBuffer}

theorem bytesReadable (h : Bounded N b) : b.bytesReadable = b.bufferLength - b.bufferOffset := by
  have hlt := h.lt
  have hle := h.length_le
  rw [IoBuffer.bytesReadable, ← Nat.cast_sub h.offset_le, sizeT_natCast (by omega)]

theorem bytesWritable (h : Bounded N b) : b.bytesWritable = N - b.bufferLength := by
  have hlt := h.lt
  rw [IoBuffer.bytesWritable, size, h.size_eq, ← Nat.cast_sub h.length_le, sizeT_natCast (by omega)]

theorem readMax (h : Bounded N b) : ssizeT b.bytesReadable = (b.bufferLength - b.bufferOffset : Nat) := by
  have hlt := h.lt
  have hle := h.length_le
  rw [h.bytesReadable, ssizeT_of_lt (by omega) (by omega)]

theorem writeMax (h : Bounded N b) : ssizeT b.bytesWritable = (N - b.bufferLength : Nat) := by
  have hlt := h.lt
  rw [h.bytesWritable, ssizeT_of_lt (by omega) (by omega)]

theorem bytesToRead (h : Bounded N b) : b.bytesToRead = N - b.bufferLength := by
  rw [IoBuffer.bytesToRead, h.writeMax, Int.toNat_natCast]

theorem bytesToWrite (h : Bounded N b) : b.bytesToWrite = b.bufferLength - b.bufferOffset := by
  rw [IoBuffer.bytesToWrite, h.readMax, Int.toNat_natCast]

theorem length_contents (h : Bounded N b) : b.contents.length = b.bytesReadable := by
  have hle := h.length_le
  rw [h.bytesReadable, contents, List.length_take, List.length_drop, h.size_eq]
  omega

/-- `n` bytes are taken off the front. -/
theorem advance {n : Nat} (h : Bounded N b) (hn : n ≤ b.bufferLength - b.bufferOffset) :
    Bounded N { b with bufferOffset := b.bufferOffset + n } :=
  ⟨h.lt, h.size_eq, by have := h.offset_le; dsimp only; omega, h.length_le⟩

theorem contents_advance (b : IoBuffer) (n : Nat) :
    b.contents = b.contents.take n ++ ({ b with bufferOffset := b.bufferOffset + n } : IoBuffer).contents := by
  have hdrop : ({ b with bufferOffset := b.bufferOffset + n } : IoBuffer).contents = b.contents.drop n := by
    simp only [contents]
    rw [List.drop_take, List.drop_drop, Nat.sub_sub]
  rw [hdrop, List.take_append_drop]

/-- Bytes are put at the offset, and the length counts them. -/
theorem extend {bytes buffer : List UInt8} (h : Bounded N b) (hstore : store b.buffer b.bufferOffset bytes = some buffer)
    (hn : bytes.length ≤ N - b.bufferLength) :
    Bounded N { b with buffer, bufferLength := b.bufferLength + bytes.length } := by
  refine ⟨h.lt, (length_of_store hstore).trans h.size_eq, ?_, ?_⟩
  · exact h.offset_le.trans (Nat.le_add_right _ _)
  · have hle := h.length_le
    dsimp only
    omega

theorem exists_store {bytes : List UInt8} (h : Bounded N b) (hn : bytes.length ≤ N - b.bufferLength) :
    ∃ buffer, store b.buffer b.bufferOffset bytes = some buffer := by
  have hoffset := h.offset_le
  have hle := h.length_le
  exact ⟨_, store_eq_some.mpr ⟨by rw [h.size_eq]; omega, rfl⟩⟩

/-- What is put into a buffer with nothing to read is what is then read. -/
theorem contents_extend {bytes buffer : List UInt8} (h : Bounded N b) (hempty : b.bytesReadable = 0)
    (hstore : store b.buffer b.bufferOffset bytes = some buffer) :
    ({ b with buffer, bufferLength := b.bufferLength + bytes.length } : IoBuffer).contents = bytes := by
  have hoffset := h.offset_le
  rw [h.bytesReadable] at hempty
  obtain ⟨hle, rfl⟩ := store_eq_some.mp hstore
  have hlen : (b.buffer.take b.bufferOffset).length = b.bufferOffset := by
    rw [List.length_take]
    omega
  simp only [contents]
  rw [List.append_assoc, List.drop_left' hlen,
    show b.bufferLength + bytes.length - b.bufferOffset = bytes.length by omega, List.take_left]

theorem load_eq {n : Nat} (h : Bounded N b) (hn : n ≤ b.bufferLength - b.bufferOffset) :
    load b.buffer b.bufferOffset n = some (b.contents.take n) := by
  have hoffset := h.offset_le
  have hle := h.length_le
  refine load_eq_some.mpr ⟨by rw [h.size_eq]; omega, ?_⟩
  rw [contents, List.take_take, Nat.min_eq_left hn]

theorem read_eq (h : Bounded N b) (buf : List UInt8) {n : Nat}
    (hn : n = min buf.length (b.bufferLength - b.bufferOffset)) :
    b.read buf =
      some ({ b with bufferOffset := b.bufferOffset + n }, b.contents.take n ++ buf.drop n, .ofSize n) := by
  have hlt := h.lt
  have hlength := h.length_le
  have hsize : sizeT ((b.bufferLength - b.bufferOffset : Nat) : Int) = b.bufferLength - b.bufferOffset :=
    sizeT_natCast (by omega)
  have hlen : (b.contents.take n).length = n := by
    rw [List.length_take, h.length_contents, h.bytesReadable]
    omega
  have hstore : store buf 0 (b.contents.take n) = some (b.contents.take n ++ buf.drop n) :=
    store_eq_some.mpr ⟨by omega, by rw [hlen, List.take_zero, List.nil_append, Nat.zero_add]⟩
  unfold IoBuffer.read
  rw [h.readMax]
  by_cases hbuf : buf = []
  · subst hbuf
    obtain rfl : n = 0 := by rw [hn, List.length_nil, Nat.zero_min]
    rw [if_pos (.inr rfl)]
    rfl
  · rw [if_neg (by simp [hbuf]), hsize, ← hn, h.load_eq (by omega), Option.bind_eq_bind, Option.bind_some, hstore, Option.bind_some,
      ← Nat.cast_add, sizeT_natCast (by have := h.offset_le; omega)]

theorem write_eq (h : Bounded N b) (buf : List UInt8) {n : Nat} (hn : n = min buf.length (N - b.bufferLength)) :
    ∃ buffer, store b.buffer b.bufferOffset (buf.take n) = some buffer ∧
      b.write buf = some ({ b with buffer, bufferLength := b.bufferLength + n }, .ofSize n) := by
  have hlt := h.lt
  have hlength := h.length_le
  have hsize : sizeT ((N - b.bufferLength : Nat) : Int) = N - b.bufferLength := sizeT_natCast (by omega)
  have hlen : (buf.take n).length = n := by
    rw [List.length_take]
    omega
  have hroom : (buf.take n).length ≤ N - b.bufferLength := by omega
  obtain ⟨buffer, hstore⟩ := h.exists_store hroom
  refine ⟨buffer, hstore, ?_⟩
  unfold IoBuffer.write
  rw [h.writeMax]
  by_cases hbuf : buf = []
  · subst hbuf
    obtain rfl : n = 0 := by rw [hn, List.length_nil, Nat.zero_min]
    obtain ⟨-, rfl⟩ := store_eq_some.mp hstore
    rw [if_pos (.inr rfl)]
    simp
  · have hload : load buf 0 n = some (buf.take n) := load_eq_some.mpr ⟨by omega, rfl⟩
    rw [if_neg (by simp [hbuf]), hsize, ← hn, hload, Option.bind_eq_bind, Option.bind_some, hstore, Option.bind_some,
      ← Nat.cast_add, sizeT_natCast (by omega)]

theorem bufferRead_eq (h : Bounded N b) (r : ReaderOutcome) :
    ∃ buffer, store b.buffer b.bufferOffset (r.delivered (N - b.bufferLength)) = some buffer ∧
      b.bufferRead r =
        some ({ b with buffer, bufferLength := b.bufferLength + (r.delivered (N - b.bufferLength)).length },
          if N = b.bufferLength then .ofSize 0 else r.result (N - b.bufferLength)) := by
  have hlt := h.lt
  have hlength := h.length_le
  have hle := r.length_delivered_le (N - b.bufferLength)
  obtain ⟨buffer, hstore⟩ := h.exists_store hle
  refine ⟨buffer, hstore, ?_⟩
  unfold IoBuffer.bufferRead
  rw [h.bytesToRead]
  by_cases hfull : N = b.bufferLength
  · rw [← hfull, Nat.sub_self] at hstore hle ⊢
    rw [List.eq_nil_of_length_eq_zero (Nat.le_zero.mp hle)] at hstore ⊢
    obtain ⟨-, rfl⟩ := store_eq_some.mp hstore
    rw [if_pos rfl, if_pos rfl]
    simp [hfull]
  · rw [if_neg (by omega), hstore, Option.bind_eq_bind, Option.bind_some, if_neg hfull]
    dsimp only
    rw [r.size_result, ← Nat.cast_add, sizeT_natCast (by omega)]

theorem bufferWrite_eq (h : Bounded N b) (w : WriterOutcome) :
    b.bufferWrite w =
      some ({ b with bufferOffset := b.bufferOffset + (w.taken b.contents).length }, w.taken b.contents,
        if b.bytesReadable = 0 then .ofSize 0 else w.result b.contents.length) := by
  have hlt := h.lt
  have hlength := h.length_le
  have hoffset := h.offset_le
  have hcontents := h.length_contents
  have hprefix := (w.taken_prefix b.contents).length_le
  unfold IoBuffer.bufferWrite
  rw [h.bytesToWrite, ← h.bytesReadable]
  by_cases hempty : b.bytesReadable = 0
  · rw [hempty] at hcontents
    rw [if_pos hempty, if_pos hempty, List.eq_nil_of_length_eq_zero hcontents] at *
    rw [List.eq_nil_of_length_eq_zero (Nat.le_zero.mp hprefix)]
    rfl
  · rw [if_neg hempty, if_neg hempty, h.load_eq (by rw [h.bytesReadable]), ← hcontents, List.take_length,
      Option.bind_eq_bind, Option.bind_some]
    dsimp only
    rw [w.size_result, ← Nat.cast_add, sizeT_natCast (by rw [hcontents, h.bytesReadable] at hprefix; omega)]

end Bounded
end IoBuffer

/-- The buffer with the bytes it has accepted and handed out so far. -/
structure BufferRun where
  buf : IoBuffer
  accepted : List UInt8
  handedOut : List UInt8
deriving DecidableEq, Repr

namespace BufferRun

def step (s : BufferRun) : RingOp → Option BufferRun
  | .read out => do
    let (buf, out, result) ← s.buf.read out
    some { s with buf, handedOut := s.handedOut ++ out.take result.size.toNat }
  | .write src => do
    let (buf, result) ← s.buf.write src
    some { s with buf, accepted := s.accepted ++ src.take result.size.toNat }
  | .bufferRead reader => do
    let (buf, result) ← s.buf.bufferRead reader
    some { s with
      buf, accepted := s.accepted ++ (reader.delivered s.buf.bytesToRead).take result.size.toNat }
  | .bufferWrite writer => do
    let (buf, taken, _) ← s.buf.bufferWrite writer
    some { s with buf, handedOut := s.handedOut ++ taken }

/-- Runs over a buffer that starts as `resize` or `reset` leave it. -/
def machine (N : Nat) : Machine BufferRun RingOp where
  init s := s.buf.Fresh N ∧ s.accepted = [] ∧ s.handedOut = []
  step := step

/-- A byte that finds a place is brought only when no byte is left to be read. -/
def WhenEmpty (s : BufferRun) (op : RingOp) : Prop :=
  op.Offers → 0 < s.buf.bytesWritable → s.buf.bytesReadable = 0

/-- What is handed out is a prefix of what is accepted, and the rest is stored in order. -/
def Fifo (s : BufferRun) : Prop :=
  s.accepted = s.handedOut ++ s.buf.contents ∧ s.buf.contents.length = s.buf.bytesReadable

variable {N : Nat} {s s' : BufferRun} {op : RingOp}

/-- What a call does: bytes go out at the front or come in at the offset. -/
theorem exists_step (h : s.buf.Bounded N) (op : RingOp) :
    (∃ n, n ≤ s.buf.bufferLength - s.buf.bufferOffset ∧ s.step op =
      some { s with
        buf := { s.buf with bufferOffset := s.buf.bufferOffset + n }
        handedOut := s.handedOut ++ s.buf.contents.take n }) ∨
    ∃ bytes buffer, bytes.length ≤ N - s.buf.bufferLength ∧ (bytes ≠ [] → op.Offers) ∧
      store s.buf.buffer s.buf.bufferOffset bytes = some buffer ∧ s.step op =
        some { s with
          buf := { s.buf with buffer, bufferLength := s.buf.bufferLength + bytes.length }
          accepted := s.accepted ++ bytes } := by
  have hcontents := h.length_contents
  rw [h.bytesReadable] at hcontents
  cases op with
  | read out =>
    obtain ⟨n, hn⟩ : ∃ n, n = min out.length (s.buf.bufferLength - s.buf.bufferOffset) := ⟨_, rfl⟩
    refine .inl ⟨n, by omega, ?_⟩
    have hlen : (s.buf.contents.take n).length = n := by
      rw [List.length_take, hcontents]
      omega
    unfold step
    simp [h.read_eq out hn, IoResult.ofSize, List.take_left' hlen]
  | write src =>
    obtain ⟨n, hn⟩ : ∃ n, n = min src.length (N - s.buf.bufferLength) := ⟨_, rfl⟩
    obtain ⟨buffer, hstore, hwrite⟩ := h.write_eq src hn
    have hlen : (src.take n).length = n := by
      rw [List.length_take]
      omega
    refine .inr ⟨src.take n, buffer, by omega, ?_, hstore, ?_⟩
    · rintro hne rfl
      exact hne List.take_nil
    · unfold step
      simp [hwrite, IoResult.ofSize, hlen]
  | bufferRead reader =>
    obtain ⟨buffer, hstore, hread⟩ := h.bufferRead_eq reader
    have hle := reader.length_delivered_le (N - s.buf.bufferLength)
    refine .inr ⟨reader.delivered (N - s.buf.bufferLength), buffer, hle, ?_, hstore, ?_⟩
    · intro hne
      cases reader with
      | data bytes =>
        rintro rfl
        exact hne List.take_nil
      | fail e => exact hne rfl
    · dsimp only [step]
      rw [hread, h.bytesToRead]
      by_cases hfull : N = s.buf.bufferLength
      · rw [← hfull, Nat.sub_self] at hle ⊢
        simp [List.eq_nil_of_length_eq_zero (Nat.le_zero.mp hle), IoResult.ofSize]
      · simp [hfull]
  | bufferWrite writer =>
    have hprefix := writer.taken_prefix s.buf.contents
    refine .inl ⟨(writer.taken s.buf.contents).length, hcontents ▸ hprefix.length_le, ?_⟩
    dsimp only [step]
    rw [h.bufferWrite_eq writer, ← List.prefix_iff_eq_take.mp hprefix]
    rfl

theorem bounded_step (h : s.buf.Bounded N) (hstep : s.step op = some s') : s'.buf.Bounded N := by
  rcases exists_step h op with ⟨n, hn, heq⟩ | ⟨bytes, buffer, hlen, -, hstore, heq⟩
  · obtain rfl := Option.some.inj (heq.symm.trans hstep)
    exact h.advance hn
  · obtain rfl := Option.some.inj (heq.symm.trans hstep)
    exact h.extend hstore hlen

theorem fifo_step (h : s.buf.Bounded N) (hfifo : s.accepted = s.handedOut ++ s.buf.contents)
    (hop : s.WhenEmpty op) (hstep : s.step op = some s') : s'.accepted = s'.handedOut ++ s'.buf.contents := by
  rcases exists_step h op with ⟨n, -, heq⟩ | ⟨bytes, buffer, hlen, hoffers, hstore, heq⟩
  · obtain rfl := Option.some.inj (heq.symm.trans hstep)
    dsimp only
    rw [List.append_assoc, ← IoBuffer.Bounded.contents_advance, hfifo]
  · obtain rfl := Option.some.inj (heq.symm.trans hstep)
    dsimp only
    by_cases hbytes : bytes = []
    · subst hbytes
      obtain ⟨-, rfl⟩ := store_eq_some.mp hstore
      simpa using hfifo
    · have hpos := List.length_pos_iff.mpr hbytes
      have hempty := hop (hoffers hbytes) (by rw [h.bytesWritable]; omega)
      have hnil : s.buf.contents = [] := List.eq_nil_of_length_eq_zero (h.length_contents.trans hempty)
      rw [h.contents_extend hempty hstore, hfifo, hnil, List.append_nil]

theorem bounded_of_reaches {ok : BufferRun → RingOp → Prop} (h : (machine N).Reaches ok s) : s.buf.Bounded N := by
  refine Machine.Reaches.invariant (P := fun s => s.buf.Bounded N) ?_ ?_ h
  · rintro s ⟨hfresh, -⟩
    exact hfresh.bounded
  · intro s op s' hs _ hstep
    exact bounded_step hs hstep

/-- Every call stays inside the storage and keeps the indices in order. The bytes come out as they
went in when bytes are only brought to a buffer with nothing to read. -/
theorem bufferRun_fifo (N : Nat) :
    (∀ s, (machine N).Reaches (fun _ _ => True) s →
      (s.buf.bufferOffset ≤ s.buf.bufferLength ∧ s.buf.bufferLength ≤ N) ∧ ∀ op, (s.step op).isSome = true) ∧
    ∀ s, (machine N).Reaches WhenEmpty s → s.Fifo := by
  constructor
  · intro s hs
    have h := bounded_of_reaches hs
    refine ⟨⟨h.offset_le, h.length_le⟩, fun op => ?_⟩
    rcases exists_step h op with ⟨n, -, heq⟩ | ⟨bytes, buffer, -, -, -, heq⟩
    · rw [heq]
      rfl
    · rw [heq]
      rfl
  · intro s hs
    have h : s.buf.Bounded N ∧ s.accepted = s.handedOut ++ s.buf.contents := by
      refine Machine.Reaches.invariant
        (P := fun s => s.buf.Bounded N ∧ s.accepted = s.handedOut ++ s.buf.contents) ?_ ?_ hs
      · rintro s ⟨hfresh, haccepted, hhandedOut⟩
        refine ⟨hfresh.bounded, ?_⟩
        rw [haccepted, hhandedOut, hfresh.contents]
        rfl
      · rintro s op s' ⟨h, hfifo⟩ hop hstep
        exact ⟨bounded_step h hstep, fifo_step h hfifo hop hstep⟩
    exact ⟨h.2, h.1.length_contents⟩

instance : (op : RingOp) → Decidable op.Offers
  | .write _ | .bufferRead (.data _) => inferInstanceAs (Decidable (_ ≠ _))
  | .read _ | .bufferRead (.fail _) | .bufferWrite _ => .isFalse id

instance (s : BufferRun) (op : RingOp) : Decidable (s.WhenEmpty op) :=
  inferInstanceAs (Decidable (op.Offers → 0 < s.buf.bytesWritable → s.buf.bytesReadable = 0))

/-- Bytes are brought by a reader and by a write, each to an empty buffer, and go out in parts. -/
theorem bufferRun_fifo_turns : ∃ s, (machine 8).Reaches WhenEmpty s ∧ s.accepted = [1, 2, 3, 4, 5] ∧
    s.handedOut = [1, 2, 3, 4] ∧ (s.buf.bufferOffset ≤ s.buf.bufferLength ∧ s.buf.bufferLength ≤ 8) ∧ s.Fifo := by
  have hinit : (machine 8).init ⟨IoBuffer.new.resize (List.replicate 8 0), [], []⟩ :=
    ⟨⟨⟨3, rfl⟩, by decide, rfl, .inl ⟨_, rfl⟩⟩, rfl, rfl⟩
  have hend : (((machine 8).guard WhenEmpty).run ⟨IoBuffer.new.resize (List.replicate 8 0), [], []⟩
      [.bufferRead (.data [1, 2, 3]), .read [0], .bufferWrite (.fail 11), .bufferWrite (.accept 2), .bufferRead (.fail 5),
        .write [4, 5], .read [0]]).map (fun s => (s.accepted, s.handedOut)) = some ([1, 2, 3, 4, 5], [1, 2, 3, 4]) := by
    decide +kernel
  obtain ⟨s, hreach, hbytes⟩ := Machine.Reaches.exists_of_guard_run (.start hinit) hend
  obtain ⟨haccepted, hhandedOut⟩ := Prod.mk.inj hbytes
  have hany : (machine 8).Reaches (fun _ _ => True) s := hreach.mono fun _ _ _ => trivial
  exact ⟨s, hreach, haccepted, hhandedOut, ((bufferRun_fifo 8).1 s hany).1, (bufferRun_fifo 8).2 s hreach⟩

/-- A new buffer of two bytes. -/
def start : BufferRun := ⟨IoBuffer.new.resize [0, 0], [], []⟩

/-- Two bytes are written one after the other: the second takes the place of the first. -/
theorem bufferRun_not_fifo :
    ¬ ∀ N s, (machine N).Reaches (fun _ _ => True) s → s.Fifo := by
  intro h
  have hrun : (machine 2).run start [.write [97], .write [98]] =
      some ⟨⟨[98, 0], 2, 0⟩, [97, 98], []⟩ := by decide
  have hinit : (machine 2).init start := ⟨⟨⟨1, rfl⟩, by decide, rfl, .inl ⟨_, rfl⟩⟩, rfl, rfl⟩
  have hreach := (Machine.Reaches.start hinit).of_run (fun _ _ _ => trivial) hrun
  exact absurd (h 2 _ hreach).1 (by decide)

end BufferRun
end Latypus.Io
