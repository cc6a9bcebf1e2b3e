import Latypus.Io.Buffer

/-! `io_buffered_reader` and `io_buffered_writer` of io.cc over an `io_buffer`. Neither ever compacts its
buffer: once as many bytes as it has went through, a reader has no room to refill it and a writer none to
take more. -/

namespace Latypus.Io
open Lib

namespace IoBuffer

/-- `io_buffered_reader::read`, with what the underlying reader does if it is called. -/
def bufferedRead (b : IoBuffer) (buf : List UInt8) (r : ReaderOutcome) :
    Option (IoBuffer × List UInt8 × IoResult) := do
  if b.bytesReadable = 0 then
    let (b, res) ← b.bufferRead r
    if res.hasError then return (b, buf, res)
    b.read buf
  else b.read buf

/-- `io_buffered_writer::write`, with the bytes that the underlying writer has taken. -/
def bufferedWrite (b : IoBuffer) (buf : List UInt8) (w : WriterOutcome) :
    Option (IoBuffer × List UInt8 × IoResult) := do
  let (b, res) ← b.write buf
  if res.hasError then return (b, [], res)
  if b.bytesReadable = b.size then
    let (b, taken, res') ← b.bufferWrite w
    if res'.hasError then return (b, taken, res')
    return (b, taken, res)
  else return (b, [], res)

def flush (b : IoBuffer) (w : WriterOutcome) : Option (IoBuffer × List UInt8 × IoResult) := do
  if 0 < b.bytesReadable then
    let (b, taken, res) ← b.bufferWrite w
    if res.hasError then return (b, taken, res)
    return (b, taken, .ofSize 0)
  else return (b, [], .ofSize 0)

end IoBuffer

/-! ### Reading -/

/-- A call of `read` with a length that is not zero, and the number of bytes that the underlying reader
delivers at most if it is called. -/
structure ReadCall where
  buf : List UInt8
  ne_nil : buf ≠ []
  chunk : Nat

/-- The buffer, the part of the stream that is not yet delivered and what all calls have returned. It is
marked whether the underlying reader has returned 0, and whether a call did before it. -/
structure ReadRun where
  buf : IoBuffer
  rest : List UInt8
  returned : List UInt8
  ended : Bool
  early : Bool
deriving DecidableEq, Repr

namespace ReadRun

/-- The number of bytes that a call asks the underlying reader for. -/
def asked (s : ReadRun) : Nat := if s.buf.bytesReadable = 0 then s.buf.bytesToRead else 0

def delivered (s : ReadRun) (c : ReadCall) : List UInt8 :=
  (ReaderOutcome.data (s.rest.take c.chunk)).delivered s.asked

/-- The underlying reader has returned 0 when the call is over. -/
def endedBehind (s : ReadRun) (c : ReadCall) : Bool :=
  s.ended || (decide (0 < s.asked) && (s.delivered c).isEmpty)

def step (s : ReadRun) (c : ReadCall) : Option ReadRun := do
  let (buf, out, result) ← s.buf.bufferedRead c.buf (.data (s.rest.take c.chunk))
  some {
    buf
    rest := s.rest.drop (s.delivered c).length
    returned := s.returned ++ out.take result.size.toNat
    ended := s.endedBehind c
    early := s.early || (result.size == 0 && !s.endedBehind c) }

/-- Reads from a stream through a buffer that starts as `resize` or `reset` leave it. -/
def machine (N : Nat) (stream : List UInt8) : Machine ReadRun ReadCall where
  init s := s.buf.Fresh N ∧ s.rest = stream ∧ s.returned = [] ∧ s.ended = false ∧ s.early = false
  step := step

/-- What is returned is a prefix of the stream, and 0 is returned only behind the underlying reader. -/
def Transparent (stream : List UInt8) (s : ReadRun) : Prop := s.returned <+: stream ∧ s.early = false

/-- The buffer has bytes to read or room for some, unless the stream has ended. -/
def Refillable (s : ReadRun) (_ : ReadCall) : Prop :=
  0 < s.buf.bytesReadable ∨ 0 < s.buf.bytesWritable ∨ s.ended = true

variable {N : Nat} {s s' : ReadRun} {stream : List UInt8}

/-- The buffer once it is refilled, if it has to be. -/
theorem exists_refill (h : s.buf.Bounded N) (c : ReadCall) : ∃ b : IoBuffer, b.Bounded N ∧
    b.contents = s.buf.contents ++ s.delivered c ∧
      s.buf.bufferedRead c.buf (.data (s.rest.take c.chunk)) = b.read c.buf := by
  unfold IoBuffer.bufferedRead delivered asked
  by_cases hempty : s.buf.bytesReadable = 0
  · rw [if_pos hempty, if_pos hempty, h.bytesToRead]
    obtain ⟨buffer, hstore, hread⟩ := h.bufferRead_eq (.data (s.rest.take c.chunk))
    have hle := ReaderOutcome.length_delivered_le (.data (s.rest.take c.chunk)) (N - s.buf.bufferLength)
    refine ⟨_, h.extend hstore hle, ?_, ?_⟩
    · have hnil : s.buf.contents = [] := List.eq_nil_of_length_eq_zero (h.length_contents.trans hempty)
      rw [h.contents_extend hempty hstore, hnil, List.nil_append]
    · have hok : (if N = s.buf.bufferLength then IoResult.ofSize 0
          else (ReaderOutcome.data (s.rest.take c.chunk)).result (N - s.buf.bufferLength)).hasError = false := by
        split_ifs
        · rfl
        · rfl
      rw [hread, Option.bind_eq_bind, Option.bind_some]
      dsimp only
      rw [if_neg (by rw [hok]; exact Bool.false_ne_true)]
  · rw [if_neg hempty, if_neg hempty]
    refine ⟨s.buf, h, ?_, rfl⟩
    simp [ReaderOutcome.delivered]

/-- What a call does: it returns a front part of what is stored and delivered, and nothing only when there
is nothing. -/
theorem exists_step (h : s.buf.Bounded N) (c : ReadCall) : ∃ s' taken, s.step c = some s' ∧
    s'.buf.Bounded N ∧ s'.rest = s.rest.drop (s.delivered c).length ∧ s'.returned = s.returned ++ taken ∧
    s.buf.contents ++ s.delivered c = taken ++ s'.buf.contents ∧ s'.ended = s.endedBehind c ∧
    (taken = [] ↔ s.buf.contents ++ s.delivered c = []) ∧
    (s'.early = true ↔ s.early = true ∨ taken = [] ∧ s.endedBehind c = false) := by
  obtain ⟨b, hb, hcontents, heq⟩ := exists_refill h c
  obtain ⟨n, hn⟩ : ∃ n, n = min c.buf.length (b.bufferLength - b.bufferOffset) := ⟨_, rfl⟩
  have hlen := hb.length_contents
  rw [hb.bytesReadable] at hlen
  have htaken : (b.contents.take n).length = n := by
    rw [List.length_take]
    omega
  have hzero : b.contents.take n = [] ↔ n = 0 := by
    rw [← List.length_eq_zero_iff, htaken]
  have hpos := List.length_pos_iff.mpr c.ne_nil
  refine ⟨⟨{ b with bufferOffset := b.bufferOffset + n }, s.rest.drop (s.delivered c).length,
    s.returned ++ b.contents.take n, s.endedBehind c, s.early || (decide (n = 0) && !s.endedBehind c)⟩,
    b.contents.take n, ?_, hb.advance (by omega), rfl, rfl, ?_, rfl, ?_, ?_⟩
  · unfold step
    rw [heq, hb.read_eq c.buf hn, Option.bind_eq_bind, Option.bind_some]
    simp [IoResult.ofSize, List.take_left' htaken, beq_eq_decide]
  · rw [← hcontents, ← IoBuffer.Bounded.contents_advance]
  · rw [← hcontents, hzero, ← List.length_eq_zero_iff]
    omega
  · rw [hzero]
    simp

theorem delivered_append_drop (s : ReadRun) (c : ReadCall) :
    s.delivered c ++ s.rest.drop (s.delivered c).length = s.rest :=
  List.prefix_iff_eq_append.mp ((List.take_prefix _ _).trans (List.take_prefix _ _))

/-- A call that can refill the buffer returns nothing only when the underlying reader has returned 0. -/
theorem ended_of_refillable (h : s.buf.Bounded N) {c : ReadCall} (hop : s.Refillable c)
    (hnil : s.buf.contents ++ s.delivered c = []) : s.endedBehind c = true := by
  obtain ⟨hcontents, hdelivered⟩ := List.append_eq_nil_iff.mp hnil
  have hempty : s.buf.bytesReadable = 0 := h.length_contents.symm.trans (List.length_eq_zero_iff.mpr hcontents)
  unfold endedBehind
  rcases hop with hreadable | hwritable | hended
  · omega
  · have hasked : 0 < s.asked := by
      rw [asked, if_pos hempty, h.bytesToRead, ← h.bytesWritable]
      exact hwritable
    simp [hasked, hdelivered]
  · simp [hended]

/-- What holds of every run of reads. -/
structure Inv (N : Nat) (stream : List UInt8) (s : ReadRun) : Prop where
  bounded : s.buf.Bounded N
  split : stream = s.returned ++ s.buf.contents ++ s.rest

theorem inv_init (h : (machine N stream).init s) : Inv N stream s ∧ s.early = false := by
  obtain ⟨hfresh, hrest, hreturned, -, hearly⟩ := h
  refine ⟨⟨hfresh.bounded, ?_⟩, hearly⟩
  rw [hreturned, hfresh.contents, hrest]
  rfl

theorem inv_step {c : ReadCall} (h : Inv N stream s) (hstep : s.step c = some s') : Inv N stream s' := by
  obtain ⟨s'', taken, heq, hb, hrest, hreturned, hsplit, -⟩ := exists_step h.bounded c
  obtain rfl := Option.some.inj (heq.symm.trans hstep)
  refine ⟨hb, ?_⟩
  calc stream = s.returned ++ s.buf.contents ++ (s.delivered c ++ s.rest.drop (s.delivered c).length) := by
        rw [delivered_append_drop]
        exact h.split
    _ = s.returned ++ (s.buf.contents ++ s.delivered c) ++ s.rest.drop (s.delivered c).length := by
        simp only [List.append_assoc]
    _ = s''.returned ++ s''.buf.contents ++ s''.rest := by
        rw [hsplit, hreturned, hrest]
        simp only [List.append_assoc]

theorem early_step {c : ReadCall} (h : Inv N stream s) (hop : s.Refillable c) (hearly : s.early = false)
    (hstep : s.step c = some s') : s'.early = false := by
  obtain ⟨s'', taken, heq, -, -, -, -, -, hnil, hiff⟩ := exists_step h.bounded c
  obtain rfl := Option.some.inj (heq.symm.trans hstep)
  rw [← Bool.not_eq_true, hiff]
  rintro (habs | ⟨htaken, hended⟩)
  · rw [hearly] at habs
    cases habs
  · rw [ended_of_refillable h.bounded hop (hnil.mp htaken)] at hended
    cases hended

/-- A call on a buffer that is used up returns 0 whatever is left of the stream. -/
theorem early_of_not_refillable {c : ReadCall} (h : Inv N stream s) (hop : ¬s.Refillable c)
    (hstep : s.step c = some s') : s'.early = true := by
  obtain ⟨hreadable, hwritable, hended⟩ := not_or.mp hop |>.imp Nat.eq_zero_of_not_pos fun hop =>
    not_or.mp hop |>.imp Nat.eq_zero_of_not_pos id
  have hasked : s.asked = 0 := by
    rw [asked, if_pos hreadable, h.bounded.bytesToRead, ← h.bounded.bytesWritable, hwritable]
  have hdelivered : s.delivered c = [] := by
    rw [delivered, hasked]
    rfl
  have hcontents : s.buf.contents = [] := List.eq_nil_of_length_eq_zero (h.bounded.length_contents.trans hreadable)
  obtain ⟨s'', taken, heq, -, -, -, -, -, hnil, hiff⟩ := exists_step h.bounded c
  obtain rfl := Option.some.inj (heq.symm.trans hstep)
  refine hiff.mpr (.inr ⟨hnil.mpr ?_, ?_⟩)
  · rw [hcontents, hdelivered]
    rfl
  · simp [endedBehind, hasked, hended]

theorem inv_of_reaches (h : (machine N stream).Reaches Refillable s) : Inv N stream s ∧ s.early = false := by
  refine Machine.Reaches.invariant (P := fun s => Inv N stream s ∧ s.early = false) ?_ ?_ h
  · intro s hs
    exact inv_init hs
  · rintro s c s' ⟨hinv, hearly⟩ hop hstep
    exact ⟨inv_step hinv hstep, early_step hinv hop hearly hstep⟩

theorem transparent_of_reaches (h : (machine N stream).Reaches Refillable s) : s.Transparent stream := by
  obtain ⟨hinv, hearly⟩ := inv_of_reaches h
  refine ⟨⟨s.buf.contents ++ s.rest, ?_⟩, hearly⟩
  rw [← List.append_assoc]
  exact hinv.split.symm

end ReadRun

/-! ### Writing -/

inductive WriteCall where
  | write (buf : List UInt8)
  | flush
deriving DecidableEq, Repr

/-- The buffer with the bytes that the calls have reported as accepted, and those that the underlying
writer has received. -/
structure WriteRun where
  buf : IoBuffer
  accepted : List UInt8
  received : List UInt8
deriving DecidableEq, Repr

namespace WriteRun

/-- The underlying writer accepts all that it is offered, which is never more than the buffer holds. -/
def step (s : WriteRun) : WriteCall → Option WriteRun
  | .write src => do
    let (buf, taken, result) ← s.buf.bufferedWrite src (.accept s.buf.size)
    some {
      buf
      accepted := s.accepted ++ src.take result.size.toNat
      received := s.received ++ taken }
  | .flush => do
    let (buf, taken, _) ← s.buf.flush (.accept s.buf.size)
    some { s with buf, received := s.received ++ taken }

/-- Writes through a buffer that starts as `resize` or `reset` leave it. -/
def machine (N : Nat) : Machine WriteRun WriteCall where
  init s := s.buf.Fresh N ∧ s.accepted = [] ∧ s.received = []
  step := step

/-- Behind a last flush the underlying writer has received what was accepted. -/
def Transparent (s : WriteRun) : Prop := ∃ s', s.step .flush = some s' ∧ s'.received = s'.accepted

/-- A byte that finds a place is brought only when all earlier ones have been given to the writer. -/
def WhenEmpty (s : WriteRun) (c : WriteCall) : Prop :=
  (∃ src, c = .write src ∧ src ≠ []) → 0 < s.buf.bytesWritable → s.buf.bytesReadable = 0

variable {N : Nat} {s s' : WriteRun} {b : IoBuffer}

/-- A writer that accepts everything takes all that is stored. -/
theorem exists_bufferWrite_all (h : b.Bounded N) : ∃ (b' : IoBuffer) (result : IoResult), b'.Bounded N ∧
    b'.contents = [] ∧ result.hasError = false ∧
      b.bufferWrite (.accept N) = some (b', b.contents, result) := by
  have hlen := h.length_contents
  have hbound := h.length_le
  rw [h.bytesReadable] at hlen
  have htaken : (WriterOutcome.accept N).taken b.contents = b.contents :=
    List.take_of_length_le (by omega)
  have hwrite := h.bufferWrite_eq (.accept N)
  rw [htaken] at hwrite
  refine ⟨_, _, h.advance (n := b.contents.length) hlen.le, ?_, ?_, hwrite⟩
  · have hsplit := IoBuffer.Bounded.contents_advance b b.contents.length
    rw [List.take_length] at hsplit
    exact List.self_eq_append_right.mp hsplit
  · split_ifs
    · rfl
    · rfl

theorem flush_all (h : b.Bounded N) : ∃ (b' : IoBuffer) (result : IoResult), b'.Bounded N ∧ b'.contents = [] ∧
    b.flush (.accept N) = some (b', b.contents, result) := by
  unfold IoBuffer.flush
  by_cases hreadable : 0 < b.bytesReadable
  · obtain ⟨b', result, hb, hcontents, hok, hwrite⟩ := exists_bufferWrite_all h
    refine ⟨b', .ofSize 0, hb, hcontents, ?_⟩
    rw [if_pos hreadable, hwrite, Option.bind_eq_bind, Option.bind_some]
    dsimp only
    rw [if_neg (by rw [hok]; exact Bool.false_ne_true)]
    rfl
  · have hnil : b.contents = [] :=
      List.eq_nil_of_length_eq_zero (h.length_contents.trans (Nat.eq_zero_of_not_pos hreadable))
    refine ⟨b, .ofSize 0, h, hnil, ?_⟩
    rw [if_neg hreadable, hnil]
    rfl

/-- A write puts a front part of its bytes at the offset, and then gives everything to the writer or
nothing. -/
theorem bufferedWrite_all (h : b.Bounded N) (src : List UInt8) {n : Nat}
    (hn : n = min src.length (N - b.bufferLength)) : ∃ (buffer given : List UInt8) (b' : IoBuffer),
    store b.buffer b.bufferOffset (src.take n) = some buffer ∧ b'.Bounded N ∧
      ({ b with buffer, bufferLength := b.bufferLength + n } : IoBuffer).contents = given ++ b'.contents ∧
        b.bufferedWrite src (.accept N) = some (b', given, .ofSize n) := by
  obtain ⟨buffer, hstore, hwrite⟩ := h.write_eq src hn
  have hlen : (src.take n).length = n := by
    rw [List.length_take]
    omega
  have hb := h.extend hstore (by omega)
  rw [hlen] at hb
  unfold IoBuffer.bufferedWrite
  rw [hwrite, Option.bind_eq_bind, Option.bind_some]
  dsimp only
  rw [if_neg (by exact Bool.false_ne_true)]
  split_ifs with hfull
  · obtain ⟨b', result, hb', hcontents, hok, hall⟩ := exists_bufferWrite_all hb
    refine ⟨buffer, _, b', hstore, hb', by rw [hcontents, List.append_nil], ?_⟩
    rw [hall, Option.bind_eq_bind, Option.bind_some]
    dsimp only
    rw [if_neg (by rw [hok]; exact Bool.false_ne_true)]
    rfl
  · exact ⟨buffer, [], _, hstore, hb, rfl, rfl⟩

theorem exists_flush (h : s.buf.Bounded N) : ∃ b : IoBuffer, b.Bounded N ∧ b.contents = [] ∧
    s.step .flush = some ⟨b, s.accepted, s.received ++ s.buf.contents⟩ := by
  obtain ⟨b, result, hb, hcontents, heq⟩ := flush_all h
  refine ⟨b, hb, hcontents, ?_⟩
  dsimp only [step]
  rw [IoBuffer.size, h.size_eq, heq]
  rfl

theorem exists_write (h : s.buf.Bounded N) (src : List UInt8) : ∃ bytes buffer given s', bytes <+: src ∧
    bytes.length ≤ N - s.buf.bufferLength ∧ store s.buf.buffer s.buf.bufferOffset bytes = some buffer ∧
      s.step (.write src) = some s' ∧ s'.buf.Bounded N ∧ s'.accepted = s.accepted ++ bytes ∧
      s'.received = s.received ++ given ∧ ({ s.buf with
        buffer, bufferLength := s.buf.bufferLength + bytes.length } : IoBuffer).contents =
          given ++ s'.buf.contents := by
  obtain ⟨n, hn⟩ : ∃ n, n = min src.length (N - s.buf.bufferLength) := ⟨_, rfl⟩
  obtain ⟨buffer, given, b, hstore, hb, hcontents, heq⟩ := bufferedWrite_all h src hn
  have hlen : (src.take n).length = n := by
    rw [List.length_take]
    omega
  refine ⟨src.take n, buffer, given, ⟨b, s.accepted ++ src.take n, s.received ++ given⟩, List.take_prefix _ _,
    by omega, hstore, ?_, hb, rfl, rfl, by rw [hlen]; exact hcontents⟩
  dsimp only [step]
  rw [IoBuffer.size, h.size_eq, heq]
  rfl

/-- What holds of every run of writes that bring bytes only to an empty buffer. -/
structure Inv (N : Nat) (s : WriteRun) : Prop where
  bounded : s.buf.Bounded N
  split : s.accepted = s.received ++ s.buf.contents

theorem inv_step {c : WriteCall} (h : Inv N s) (hop : s.WhenEmpty c) (hstep : s.step c = some s') : Inv N s' := by
  cases c with
  | flush =>
    obtain ⟨b, hb, hnil, heq⟩ := exists_flush h.bounded
    obtain rfl := Option.some.inj (heq.symm.trans hstep)
    refine ⟨hb, ?_⟩
    rw [hnil, List.append_nil]
    exact h.split
  | write src =>
    obtain ⟨bytes, buffer, given, s'', hprefix, hlen, hstore, heq, hb, haccepted, hreceived, hcontents⟩ :=
      exists_write h.bounded src
    obtain rfl := Option.some.inj (heq.symm.trans hstep)
    refine ⟨hb, ?_⟩
    rw [haccepted, hreceived, List.append_assoc, ← hcontents]
    by_cases hbytes : bytes = []
    · subst hbytes
      obtain ⟨-, rfl⟩ := store_eq_some.mp hstore
      simpa using h.split
    · have hpos := List.length_pos_iff.mpr hbytes
      have hsrc : src ≠ [] := by
        rintro rfl
        exact hbytes (List.prefix_nil.mp hprefix)
      have hempty := hop ⟨src, rfl, hsrc⟩ (by rw [h.bounded.bytesWritable]; omega)
      have hnil : s.buf.contents = [] := List.eq_nil_of_length_eq_zero (h.bounded.length_contents.trans hempty)
      rw [h.bounded.contents_extend hempty hstore, h.split, hnil, List.append_nil]

theorem transparent_of_reaches (h : (machine N).Reaches WhenEmpty s) : s.Transparent := by
  have hinv : Inv N s := by
    refine Machine.Reaches.invariant (P := Inv N) ?_ ?_ h
    · rintro s ⟨hfresh, haccepted, hreceived⟩
      refine ⟨hfresh.bounded, ?_⟩
      rw [haccepted, hreceived, hfresh.contents]
      rfl
    · intro s c s' hs hop hstep
      exact inv_step hs hop hstep
  obtain ⟨b, -, -, heq⟩ := exists_flush hinv.bounded
  exact ⟨_, heq, hinv.split.symm⟩

end WriteRun

/-- Buffered readers and writers are transparent as long as a reader has room to refill its buffer and a
writer writes only to an empty one. -/
theorem buffered_transparent (N : Nat) :
    (∀ stream s, (ReadRun.machine N stream).Reaches ReadRun.Refillable s → s.Transparent stream) ∧
      ∀ s, (WriteRun.machine N).Reaches WriteRun.WhenEmpty s → s.Transparent :=
  ⟨fun _ _ h => ReadRun.transparent_of_reaches h, fun _ h => WriteRun.transparent_of_reaches h⟩

instance (s : ReadRun) (c : ReadCall) : Decidable (s.Refillable c) := inferInstanceAs (Decidable (_ ∨ _ ∨ _))

theorem WriteRun.whenEmpty_write {s : WriteRun} {src : List UInt8} :
    (src ≠ [] → 0 < s.buf.bytesWritable → s.buf.bytesReadable = 0) ↔ s.WhenEmpty (.write src) := by
  simp [WhenEmpty]

theorem WriteRun.whenEmpty_flush {s : WriteRun} : s.WhenEmpty .flush := by
  simp [WhenEmpty]

instance (s : WriteRun) : (c : WriteCall) → Decidable (s.WhenEmpty c)
  | .write _ => decidable_of_iff _ WriteRun.whenEmpty_write
  | .flush => .isTrue WriteRun.whenEmpty_flush

/-- A read of at most `n + 1` bytes, with at most `chunk` from the underlying reader. -/
def readUpTo (n chunk : Nat) : ReadCall := ⟨List.replicate (n + 1) 0, List.cons_ne_nil _ _, chunk⟩

/-- A stream is read to its end and once more behind it, with two refills; two writes are flushed each. -/
theorem buffered_transparent_runs :
    (∃ s, (ReadRun.machine 4 [97, 98, 99]).Reaches ReadRun.Refillable s ∧ s.returned = [97, 98, 99] ∧
      s.ended = true ∧ s.Transparent [97, 98, 99]) ∧
    ∃ s, (WriteRun.machine 4).Reaches WriteRun.WhenEmpty s ∧ s.accepted = [97, 98, 99] ∧ s.received = [97, 98] ∧
      s.Transparent := by
  have hfresh : (IoBuffer.new.resize [0, 0, 0, 0]).Fresh 4 := ⟨⟨2, rfl⟩, by decide, rfl, .inl ⟨_, rfl⟩⟩
  have hread : (((ReadRun.machine 4 [97, 98, 99]).guard ReadRun.Refillable).run
      ⟨IoBuffer.new.resize [0, 0, 0, 0], [97, 98, 99], [], false, false⟩
      [readUpTo 0 2, readUpTo 3 2, readUpTo 3 8, readUpTo 3 8, readUpTo 0 1]).map (fun s => (s.returned, s.ended)) =
        some ([97, 98, 99], true) := by decide +kernel
  have hwrite : (((WriteRun.machine 4).guard WriteRun.WhenEmpty).run ⟨IoBuffer.new.resize [0, 0, 0, 0], [], []⟩
      [.write [97, 98], .flush, .write [99], .write []]).map (fun s => (s.accepted, s.received)) =
        some ([97, 98, 99], [97, 98]) := by decide +kernel
  have hstart : (ReadRun.machine 4 [97, 98, 99]).Reaches ReadRun.Refillable
      ⟨IoBuffer.new.resize [0, 0, 0, 0], [97, 98, 99], [], false, false⟩ := .start ⟨hfresh, rfl, rfl, rfl, rfl⟩
  have hstart' : (WriteRun.machine 4).Reaches WriteRun.WhenEmpty ⟨IoBuffer.new.resize [0, 0, 0, 0], [], []⟩ :=
    .start ⟨hfresh, rfl, rfl⟩
  obtain ⟨s, hreach, hs⟩ := hstart.exists_of_guard_run hread
  obtain ⟨s', hreach', hs'⟩ := hstart'.exists_of_guard_run hwrite
  obtain ⟨hreturned, hended⟩ := Prod.mk.inj hs
  obtain ⟨haccepted, hreceived⟩ := Prod.mk.inj hs'
  exact ⟨⟨s, hreach, hreturned, hended, (buffered_transparent 4).1 _ s hreach⟩,
    s', hreach', haccepted, hreceived, (buffered_transparent 4).2 s' hreach'⟩

/-- A read of one byte with an underlying reader that delivers no more than one. -/
def readByte : ReadCall := ⟨[0], List.cons_ne_nil _ _, 1⟩

/-- With a buffer of one byte the second read of a stream of two bytes returns 0; with one of four bytes the
second of two bytes that are written takes the place of the first. -/
theorem buffered_not_transparent :
    (¬ ∀ N stream s, (ReadRun.machine N stream).Reaches (fun _ _ => True) s → s.Transparent stream) ∧
      ¬ ∀ N s, (WriteRun.machine N).Reaches (fun _ _ => True) s → s.Transparent := by
  constructor
  · intro h
    have hrun : (ReadRun.machine 1 [97, 98]).run ⟨IoBuffer.new.resize [0], [97, 98], [], false, false⟩
        [readByte, readByte] = some ⟨⟨[97], 1, 1⟩, [98], [97], false, true⟩ := by decide
    have hinit : (ReadRun.machine 1 [97, 98]).init ⟨IoBuffer.new.resize [0], [97, 98], [], false, false⟩ :=
      ⟨⟨⟨0, rfl⟩, by decide, rfl, .inl ⟨_, rfl⟩⟩, rfl, rfl, rfl, rfl⟩
    have hreach := (Machine.Reaches.start hinit).of_run (fun _ _ _ => trivial) hrun
    exact absurd (h 1 _ _ hreach).2 (by decide)
  · intro h
    have hrun : (WriteRun.machine 4).run ⟨IoBuffer.new.resize [0, 0, 0, 0], [], []⟩
        [.write [97], .write [98]] = some ⟨⟨[98, 0, 0, 0], 2, 0⟩, [97, 98], []⟩ := by decide
    have hinit : (WriteRun.machine 4).init ⟨IoBuffer.new.resize [0, 0, 0, 0], [], []⟩ :=
      ⟨⟨⟨2, rfl⟩, by decide, rfl, .inl ⟨_, rfl⟩⟩, rfl, rfl⟩
    have hreach := (Machine.Reaches.start hinit).of_run (fun _ _ _ => trivial) hrun
    obtain ⟨s', hstep, hreceived⟩ := h 4 _ hreach
    have hflush : WriteRun.step ⟨⟨[98, 0, 0, 0], 2, 0⟩, [97, 98], []⟩ .flush =
        some ⟨⟨[98, 0, 0, 0], 2, 2⟩, [97, 98], [98, 0]⟩ := by decide
    obtain rfl := Option.some.inj (hflush.symm.trans hstep)
    exact absurd hreceived (by decide)

end Latypus.Io
