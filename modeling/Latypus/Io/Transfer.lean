import Latypus.Io.RingBuffer

/-! Files and sockets as the readers and writers of an `io_ring_buffer`, down to their system
calls: which constructor of `io_result` a failing call comes out of, and what the buffer makes of
it. A failing call of a file goes through the constructor that takes a size. -/

namespace Latypus.Io
open Lib

/-- `io_result` of an `int`: the conversion to `ssize_t` is preferred to the one to `io_error`. -/
def IoResult.ofInt (n : Int) : IoResult := .ofSize n

def eagain : Nat := 11

/-- An `io_reader` with what its system calls do in one `read`. A TCP socket calls again as long as
the call fails with `EAGAIN`; a TLS socket reports the code of `SSL_get_error`. -/
inductive Reader where
  | file (call : ReaderOutcome)
  | tcp (calls : List ReaderOutcome)
  | tls (call : ReaderOutcome) (sslError : Nat)
deriving DecidableEq, Repr

inductive Writer where
  | file (call : WriterOutcome)
  | tcp (calls : List WriterOutcome)
  | tls (call : WriterOutcome) (sslError : Nat)
deriving DecidableEq, Repr

namespace Reader

/-- The system call that a `read` returns behind. -/
def call : Reader → Option ReaderOutcome
  | file call | tls call _ => some call
  | tcp calls => calls.find? (· ≠ .fail eagain)

/-- What `read` returns for `len` bytes behind its last system call. -/
def result (r : Reader) (call : ReaderOutcome) (len : Nat) : IoResult :=
  match call, r with
  | .fail errno, file _ => .ofInt errno
  | .fail errno, tcp _ => .ofError errno
  | .fail _, tls _ sslError => .ofError sslError
  | .data bytes, _ => .ofSize (min bytes.length len : Nat)

/-- `errno` behind a `read` that has failed, 0 where `SSL_read` fails without a system call. -/
def errno (r : Reader) : Nat :=
  match r.call with
  | some (.fail errno) => errno
  | _ => 0

/-- Error codes of system calls are positive, as are those of `SSL_get_error`, and a TCP socket does
not fail with `EAGAIN` for ever. -/
def Legal : Reader → Prop
  | file call => call ≠ .fail 0
  | tcp calls => .fail 0 ∉ calls ∧ ∃ call ∈ calls, call ≠ .fail eagain
  | tls _ sslError => 0 < sslError

def IsFile : Reader → Prop
  | file _ => True
  | _ => False

end Reader

namespace Writer

def call : Writer → Option WriterOutcome
  | file call | tls call _ => some call
  | tcp calls => calls.find? (· ≠ .fail eagain)

def result (w : Writer) (call : WriterOutcome) (len : Nat) : IoResult :=
  match call, w with
  | .fail errno, file _ => .ofInt errno
  | .fail errno, tcp _ => .ofError errno
  | .fail _, tls _ sslError => .ofError sslError
  | .accept count, _ => .ofSize (min count len : Nat)

def Legal : Writer → Prop
  | file call => call ≠ .fail 0
  | tcp calls => .fail 0 ∉ calls ∧ ∃ call ∈ calls, call ≠ .fail eagain
  | tls _ sslError => 0 < sslError

def IsFile : Writer → Prop
  | file _ => True
  | _ => False

end Writer

/-- A transfer between a buffer and its reader or writer: the last system call, the buffer before
and after, and the result. A write also has the bytes that it offered. A failing read that its caller
gives another result is a transfer once more, a `report`. -/
inductive Transfer where
  | read (reader : Reader) (call : ReaderOutcome) (before after : IoRingBuffer) (result : IoResult)
  | report (reader : Reader) (call : ReaderOutcome) (before after : IoRingBuffer) (result : IoResult)
  | write (writer : Writer) (call : WriterOutcome) (offered : List UInt8) (before after : IoRingBuffer)
      (result : IoResult)
deriving DecidableEq, Repr

namespace IoRingBuffer

/-- `buffer_read`, with the transfer that it makes. -/
def bufferReadFrom (b : IoRingBuffer) (reader : Reader) : Option (IoRingBuffer × IoResult × List Transfer) := do
  if b.bytesToRead = 0 then return (b, .ofSize 0, [])
  let call ← reader.call
  let buffer ← store b.buffer b.writeOffset (call.delivered b.bytesToRead)
  let result := reader.result call b.bytesToRead
  let after := { b with buffer, back := b.back + result.size }
  some (after, result, [.read reader call b after result])

/-- `buffer_write`, with the transfer that it makes. -/
def bufferWriteTo (b : IoRingBuffer) (writer : Writer) : Option (IoRingBuffer × IoResult × List Transfer) := do
  if b.bytesToWrite = 0 then return (b, .ofSize 0, [])
  let offered ← load b.buffer b.readOffset b.bytesToWrite
  let call ← writer.call
  let result := writer.result call b.bytesToWrite
  let after := { b with front := b.front + result.size }
  some (after, result, [.write writer call offered b after result])

end IoRingBuffer

/-- A failing call gives an error, no size and the counters as they were. -/
def FailsClean (before after : IoRingBuffer) (result : IoResult) : Prop :=
  result.hasError = true ∧ result.size = 0 ∧ after.back = before.back ∧ after.front = before.front

/-- A transfer fails clean, and stores or takes off exactly the bytes that its system call has
transferred. -/
def Transfer.Proper : Transfer → Prop
  | read _ call before after result | report _ call before after result =>
    ((∃ errno, call = .fail errno) → FailsClean before after result) ∧
      store before.buffer before.writeOffset (call.delivered before.bytesToRead) = some after.buffer ∧
      after.back = before.back + (call.delivered before.bytesToRead).length ∧ after.front = before.front
  | write _ call offered before after result =>
    ((∃ errno, call = .fail errno) → FailsClean before after result) ∧ after.buffer = before.buffer ∧
      after.back = before.back ∧ after.front = before.front + (call.taken offered).length

/-- A system call on a file has failed. -/
def Transfer.FileFailed : Transfer → Prop
  | read reader call _ _ _ | report reader call _ _ _ => reader.IsFile ∧ ∃ errno, call = .fail errno
  | write writer call _ _ _ _ => writer.IsFile ∧ ∃ errno, call = .fail errno

/-- A failure is reported behind which `errno` is 0. -/
def Transfer.ErrnoClear : Transfer → Prop
  | report reader _ _ _ _ => reader.errno = 0
  | _ => False

/-- Exactly the transfers with a file that fails, and the reports without an `errno`, are not proper. -/
def ProperBut (transfers : List Transfer) : Prop :=
  ∀ t ∈ transfers, (t.Proper ↔ ¬ t.FileFailed ∧ ¬ t.ErrnoClear)

theorem ProperBut.append {transfers rest : List Transfer} (h : ProperBut transfers) (h' : ProperBut rest) :
    ProperBut (transfers ++ rest) := by
  intro t ht
  rcases List.mem_append.mp ht with ht | ht
  · exact h t ht
  · exact h' t ht

/-! ### What a call returns -/

section Results
variable {reader : Reader} {writer : Writer}

theorem find?_again {α : Type} [DecidableEq α] {calls : List α} {again : α} (h : ∃ call ∈ calls, call ≠ again) :
    ∃ call ∈ calls, calls.find? (· ≠ again) = some call := by
  have hsome : (calls.find? (· ≠ again)).isSome := by
    rw [List.find?_isSome]
    obtain ⟨call, hmem, hne⟩ := h
    exact ⟨call, hmem, decide_eq_true hne⟩
  obtain ⟨call, hcall⟩ := Option.isSome_iff_exists.mp hsome
  exact ⟨call, List.mem_of_find?_eq_some hcall, hcall⟩

/-- A read comes to an end. -/
theorem Reader.Legal.exists_call (h : reader.Legal) : ∃ call, reader.call = some call := by
  cases reader with
  | file call => exact ⟨call, rfl⟩
  | tcp calls =>
    obtain ⟨call, -, hcall⟩ := find?_again h.2
    exact ⟨call, hcall⟩
  | tls call sslError => exact ⟨call, rfl⟩

theorem Writer.Legal.exists_call (h : writer.Legal) : ∃ call, writer.call = some call := by
  cases writer with
  | file call => exact ⟨call, rfl⟩
  | tcp calls =>
    obtain ⟨call, -, hcall⟩ := find?_again h.2
    exact ⟨call, hcall⟩
  | tls call sslError => exact ⟨call, rfl⟩

theorem Reader.size_result_data (reader : Reader) (bytes : List UInt8) (len : Nat) :
    (reader.result (.data bytes) len).size = ((ReaderOutcome.data bytes).delivered len).length :=
  ReaderOutcome.size_result (.data bytes) len

theorem Writer.size_result_accept (writer : Writer) (count : Nat) (offered : List UInt8) :
    (writer.result (.accept count) offered.length).size = ((WriterOutcome.accept count).taken offered).length :=
  WriterOutcome.size_result (.accept count) offered

/-- A socket reports its failure as an error. -/
theorem Reader.result_fail {errno : Nat} (len : Nat) (h : reader.Legal) (hcall : reader.call = some (.fail errno))
    (hfile : ¬ reader.IsFile) :
    (reader.result (.fail errno) len).hasError = true ∧ (reader.result (.fail errno) len).size = 0 := by
  cases reader with
  | file call => exact absurd trivial hfile
  | tcp calls =>
    have hpos : errno ≠ 0 := fun hzero => h.1 (hzero ▸ List.mem_of_find?_eq_some hcall)
    exact ⟨bne_iff_ne.mpr hpos, rfl⟩
  | tls call sslError =>
    have hpos : 0 < sslError := h
    exact ⟨bne_iff_ne.mpr hpos.ne', rfl⟩

theorem Writer.result_fail {errno : Nat} (len : Nat) (h : writer.Legal) (hcall : writer.call = some (.fail errno))
    (hfile : ¬ writer.IsFile) :
    (writer.result (.fail errno) len).hasError = true ∧ (writer.result (.fail errno) len).size = 0 := by
  cases writer with
  | file call => exact absurd trivial hfile
  | tcp calls =>
    have hpos : errno ≠ 0 := fun hzero => h.1 (hzero ▸ List.mem_of_find?_eq_some hcall)
    exact ⟨bne_iff_ne.mpr hpos, rfl⟩
  | tls call sslError =>
    have hpos : 0 < sslError := h
    exact ⟨bne_iff_ne.mpr hpos.ne', rfl⟩

/-- A file reports its failure as a size. -/
theorem Reader.hasError_file {errno len : Nat} (hfile : reader.IsFile) :
    (reader.result (.fail errno) len).hasError = false := by
  cases reader with
  | file call => rfl
  | tcp calls => cases hfile
  | tls call sslError => cases hfile

theorem Writer.hasError_file {errno len : Nat} (hfile : writer.IsFile) :
    (writer.result (.fail errno) len).hasError = false := by
  cases writer with
  | file call => rfl
  | tcp calls => cases hfile
  | tls call sslError => cases hfile

end Results

/-! ### What it makes of the buffer -/

namespace Sized
variable {N : Nat} {b : IoRingBuffer}

/-- Wherever a counter stands, its offset is in the storage. -/
theorem offset_lt (h : Sized N b) (counter : Nat) : counter &&& sizeT b.mask < N := by
  have hpos := h.pos
  have hlt := h.lt
  have hmask : sizeT b.mask = N - 1 := by
    rw [h.mask_eq, show ((N : Int) - 1) = ((N - 1 : Nat) : Int) by omega, sizeT_natCast (by omega)]
  have hle : counter &&& sizeT b.mask ≤ sizeT b.mask := Nat.and_le_right
  omega

theorem bytesToRead_le (h : Sized N b) : b.writeOffset + b.bytesToRead ≤ N := by
  have hlt := h.lt
  have hoffset : b.writeOffset < N := h.offset_lt _
  have hle : b.bytesToRead ≤ sizeT ((b.size : Int) - b.writeOffset) := min_le_left _ _
  rw [IoRingBuffer.size, h.size_eq, ← Nat.cast_sub hoffset.le, sizeT_natCast (by omega)] at hle
  omega

theorem bytesToWrite_le (h : Sized N b) : b.readOffset + b.bytesToWrite ≤ N := by
  have hlt := h.lt
  have hoffset : b.readOffset < N := h.offset_lt _
  have hle : b.bytesToWrite ≤ sizeT ((b.size : Int) - b.readOffset) := min_le_left _ _
  rw [IoRingBuffer.size, h.size_eq, ← Nat.cast_sub hoffset.le, sizeT_natCast (by omega)] at hle
  omega

end Sized

/-- The transfer of a read is proper unless it is the one of a file that fails. -/
theorem Transfer.read_proper_iff {b : IoRingBuffer} {reader : Reader} {call : ReaderOutcome} {buffer : List UInt8}
    (hlegal : reader.Legal) (hcall : reader.call = some call)
    (hstore : store b.buffer b.writeOffset (call.delivered b.bytesToRead) = some buffer) :
    (read reader call b { b with buffer, back := b.back + (reader.result call b.bytesToRead).size }
      (reader.result call b.bytesToRead)).Proper ↔ ¬ (reader.IsFile ∧ ∃ errno, call = .fail errno) := by
  cases call with
  | data bytes =>
    refine iff_of_true ⟨?_, hstore, ?_, rfl⟩ ?_
    · rintro ⟨errno, herr⟩
      cases herr
    · exact congrArg (b.back + ·) (reader.size_result_data bytes _)
    · rintro ⟨-, errno, herr⟩
      cases herr
  | fail errno =>
    by_cases hfile : reader.IsFile
    · refine iff_of_false ?_ fun hnot => hnot ⟨hfile, errno, rfl⟩
      rintro ⟨hclean, -⟩
      obtain ⟨herr, -⟩ := hclean ⟨errno, rfl⟩
      rw [Reader.hasError_file hfile] at herr
      cases herr
    · obtain ⟨herr, hsize⟩ := Reader.result_fail b.bytesToRead hlegal hcall hfile
      have hback : b.back + (reader.result (.fail errno) b.bytesToRead).size = b.back := by rw [hsize, add_zero]
      refine iff_of_true ⟨fun _ => ⟨herr, hsize, hback, rfl⟩, hstore, ?_, rfl⟩ fun hnot => hfile hnot.1
      exact hback.trans (add_zero b.back).symm

theorem Transfer.write_proper_iff {b : IoRingBuffer} {writer : Writer} {call : WriterOutcome} {offered : List UInt8}
    (hlegal : writer.Legal) (hcall : writer.call = some call) :
    (write writer call offered b { b with front := b.front + (writer.result call offered.length).size }
      (writer.result call offered.length)).Proper ↔ ¬ (writer.IsFile ∧ ∃ errno, call = .fail errno) := by
  cases call with
  | accept count =>
    refine iff_of_true ⟨?_, rfl, rfl, ?_⟩ ?_
    · rintro ⟨errno, herr⟩
      cases herr
    · exact congrArg (b.front + ·) (writer.size_result_accept count offered)
    · rintro ⟨-, errno, herr⟩
      cases herr
  | fail errno =>
    by_cases hfile : writer.IsFile
    · refine iff_of_false ?_ fun hnot => hnot ⟨hfile, errno, rfl⟩
      rintro ⟨hclean, -⟩
      obtain ⟨herr, -⟩ := hclean ⟨errno, rfl⟩
      rw [Writer.hasError_file hfile] at herr
      cases herr
    · obtain ⟨herr, hsize⟩ := Writer.result_fail offered.length hlegal hcall hfile
      have hfront : b.front + (writer.result (.fail errno) offered.length).size = b.front := by rw [hsize, add_zero]
      refine iff_of_true ⟨fun _ => ⟨herr, hsize, rfl, hfront⟩, rfl, rfl, ?_⟩ fun hnot => hfile hnot.1
      exact hfront.trans (add_zero b.front).symm

namespace Sized
variable {N : Nat} {b : IoRingBuffer}

/-- A read returns, and leaves a buffer of the same size. -/
theorem bufferReadFrom (h : Sized N b) {reader : Reader} (hlegal : reader.Legal) :
    ∃ after result transfers, b.bufferReadFrom reader = some (after, result, transfers) ∧ Sized N after ∧
      ProperBut transfers := by
  unfold IoRingBuffer.bufferReadFrom
  by_cases hnone : b.bytesToRead = 0
  · rw [if_pos hnone]
    exact ⟨b, _, [], rfl, h, by simp [ProperBut]⟩
  rw [if_neg hnone]
  obtain ⟨call, hcall⟩ := hlegal.exists_call
  have hfits := h.bytesToRead_le
  have hlen := call.length_delivered_le b.bytesToRead
  obtain ⟨buffer, hstore⟩ : ∃ buffer, store b.buffer b.writeOffset (call.delivered b.bytesToRead) = some buffer :=
    ⟨_, if_pos (by rw [h.size_eq]; omega)⟩
  rw [hcall]
  simp only [Option.bind_eq_bind, Option.bind_some, hstore]
  refine ⟨_, _, _, rfl, ⟨h.pow2, h.lt, (length_of_store hstore).trans h.size_eq, h.mask_eq⟩, fun t ht => ?_⟩
  obtain rfl := List.mem_singleton.mp ht
  exact (Transfer.read_proper_iff hlegal hcall hstore).trans (and_iff_left id).symm

theorem bufferWriteTo (h : Sized N b) {writer : Writer} (hlegal : writer.Legal) :
    ∃ after result transfers, b.bufferWriteTo writer = some (after, result, transfers) ∧ Sized N after ∧
      ProperBut transfers := by
  unfold IoRingBuffer.bufferWriteTo
  by_cases hnone : b.bytesToWrite = 0
  · rw [if_pos hnone]
    exact ⟨b, _, [], rfl, h, by simp [ProperBut]⟩
  rw [if_neg hnone]
  obtain ⟨call, hcall⟩ := hlegal.exists_call
  have hfits := h.bytesToWrite_le
  obtain ⟨offered, hload⟩ : ∃ offered, load b.buffer b.readOffset b.bytesToWrite = some offered :=
    ⟨_, if_pos (by rw [h.size_eq]; omega)⟩
  have hlen : b.bytesToWrite = offered.length := by
    rw [(load_eq_some.mp hload).2, List.length_take, List.length_drop, h.size_eq]
    omega
  rw [hcall, hload, hlen]
  simp only [Option.bind_eq_bind, Option.bind_some]
  refine ⟨_, _, _, rfl, ⟨h.pow2, h.lt, h.size_eq, h.mask_eq⟩, fun t ht => ?_⟩
  obtain rfl := List.mem_singleton.mp ht
  exact (Transfer.write_proper_iff hlegal hcall).trans (and_iff_left id).symm

end Sized

/-! ### Calls that return what the outcome says -/

namespace IoRingBuffer
variable {b after : IoRingBuffer} {result : IoResult} {transfers : List Transfer}

theorem bufferReadFrom_eq {reader : Reader} {call : ReaderOutcome} (hcall : reader.call = some call)
    (hresult : ∀ len, reader.result call len = call.result len) :
    (b.bufferReadFrom reader).map (fun r => (r.1, r.2.1)) = b.bufferRead call := by
  unfold bufferReadFrom bufferRead
  rw [hcall]
  simp only [Option.pure_def, Option.bind_eq_bind, Option.bind_some, hresult]
  split_ifs
  · rfl
  · cases store b.buffer b.writeOffset (call.delivered b.bytesToRead) <;> rfl

/-- The bytes that a writer takes do not depend on what it returns. -/
theorem bufferWriteTo_isSome {writer : Writer} {call : WriterOutcome} (hcall : writer.call = some call) :
    (b.bufferWriteTo writer).isSome = (b.bufferWrite call).isSome := by
  unfold bufferWriteTo bufferWrite
  rw [hcall]
  simp only [Option.pure_def, Option.bind_eq_bind, Option.bind_some]
  split_ifs
  · rfl
  · cases load b.buffer b.readOffset b.bytesToWrite <;> rfl

/-- A read that returns an error has made one transfer, whose call has failed. -/
theorem bufferReadFrom_error {reader : Reader} (h : b.bufferReadFrom reader = some (after, result, transfers))
    (herr : result.hasError = true) :
    reader.call = some (.fail reader.errno) ∧ ¬ reader.IsFile ∧
      result = reader.result (.fail reader.errno) b.bytesToRead ∧
      transfers = [.read reader (.fail reader.errno) b after result] := by
  unfold bufferReadFrom at h
  split_ifs at h
  · cases h
    cases herr
  obtain ⟨call, hcall, h⟩ := Option.bind_eq_some_iff.mp h
  obtain ⟨buffer, -, h⟩ := Option.bind_eq_some_iff.mp h
  cases h
  cases call with
  | data bytes => cases herr
  | fail errno =>
    have herrno : reader.errno = errno := by rw [Reader.errno, hcall]
    rw [herrno]
    refine ⟨hcall, fun hfile => ?_, rfl, rfl⟩
    rw [Reader.hasError_file hfile] at herr
    cases herr

end IoRingBuffer
end Latypus.Io
