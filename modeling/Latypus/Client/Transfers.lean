import Latypus.Io.Transfer
import Latypus.Client.ResponseBody

/-! Failing system calls under `write_response_body` and `read_response_body`: a run of transfers is
proper as long as no system call on a file fails and `read_response_body` finds no `errno` of 0 behind a
read that has failed. -/

namespace Latypus.Client
open Lib Io

/-- The buffer of a connection with the two numbers that `read_response_body` looks at. -/
structure BodyState where
  buffer : IoRingBuffer
  contentLength : Int
  totalRead : Int
deriving DecidableEq, Repr

/-- The calls on the buffer of a connection, with what the system calls under them do; the file of
`readResponseBody` may not be open. -/
inductive BodyCall where
  | bufferRead (reader : Reader)
  | bufferWrite (writer : Writer)
  | writeResponseBody (reader : Option Reader)
  | readResponseBody (conn : Reader) (file : Option WriterOutcome)
deriving DecidableEq, Repr

namespace BodyState

def bytesAvailable (s : BodyState) : IoResult :=
  if 0 ≤ s.contentLength then .ofSize (s.contentLength - s.totalRead) else .ofSize (-1)

/-- Whatever the file took, the buffer counts as read. -/
def saved (s : BodyState) : BodyState :=
  { s with buffer := s.buffer.reset, totalRead := s.totalRead + ssizeT s.buffer.bytesReadable }

/-- The buffer goes to the file; what the write returns is only logged. -/
def saveBuffer (s : BodyState) : Option WriterOutcome → Option (BodyState × List Transfer)
  | none => some (s.saved, [])
  | some call => (s.buffer.bufferWriteTo (.file call)).map fun r => (s.saved, r.2.2)

/-- `read_response_body`. A read of the socket that fails is reported with the error made from `errno`. -/
def readResponseBody (s : BodyState) (conn : Reader) (file : Option WriterOutcome) :
    Option (BodyState × IoResult × List Transfer) := do
  if 0 < s.buffer.bytesReadable then
    let (s, writes) ← s.saveBuffer file
    return (s, s.bytesAvailable, writes)
  if s.totalRead = s.contentLength then return (s, .ofSize 0, [])
  let (buffer, result, reads) ← s.buffer.bufferReadFrom conn
  if result.hasError then
    let result := .ofError conn.errno
    return ({ s with buffer }, result, reads ++ [.report conn (.fail conn.errno) s.buffer buffer result])
  if 0 < buffer.bytesReadable then
    let (s, writes) ← { s with buffer }.saveBuffer file
    return (s, s.bytesAvailable, reads ++ writes)
  return ({ s with buffer }, { s with buffer }.bytesAvailable, reads)

def writeResponseBody (s : BodyState) (reader : Option Reader) : Option (BodyState × IoResult × List Transfer) :=
  match reader with
  | none => some (s, .ofSize 0, [])
  | some reader => (s.buffer.bufferReadFrom reader).map fun r => ({ s with buffer := r.1 }, r.2)

def step (s : BodyState) : BodyCall → Option (BodyState × IoResult × List Transfer)
  | .bufferRead reader => (s.buffer.bufferReadFrom reader).map fun r => ({ s with buffer := r.1 }, r.2)
  | .bufferWrite writer => (s.buffer.bufferWriteTo writer).map fun r => ({ s with buffer := r.1 }, r.2)
  | .writeResponseBody reader => s.writeResponseBody reader
  | .readResponseBody conn file => s.readResponseBody conn file

/-- A sequence of calls, with all transfers that they make. -/
def run : BodyState → List BodyCall → Option (BodyState × List Transfer)
  | s, [] => some (s, [])
  | s, call :: calls => do
    let (s, _, transfers) ← s.step call
    let (s, rest) ← s.run calls
    some (s, transfers ++ rest)

end BodyState

/-- Every system call that fails has a positive error code. -/
def BodyCall.Legal : BodyCall → Prop
  | .bufferRead reader => reader.Legal
  | .bufferWrite writer => writer.Legal
  | .writeResponseBody reader => ∀ r ∈ reader, r.Legal
  | .readResponseBody conn file => conn.Legal ∧ ∀ call ∈ file, call ≠ .fail 0

section Steps
variable {N : Nat} {s : BodyState}

/-- The report of a read that has failed clean is an error unless `errno` is 0. -/
theorem report_proper_iff {reader : Reader} {errno : Nat} {b after : IoRingBuffer} {result : IoResult}
    (h : (Transfer.read reader (.fail errno) b after result).Proper) :
    (Transfer.report reader (.fail errno) b after (.ofError errno)).Proper ↔ errno ≠ 0 := by
  obtain ⟨hclean, hstore, hback, hfront⟩ := h
  obtain ⟨-, -, hcounters⟩ := hclean ⟨errno, rfl⟩
  constructor
  · rintro ⟨hreport, -⟩
    exact bne_iff_ne.mp (hreport ⟨errno, rfl⟩).1
  · intro hpos
    exact ⟨fun _ => ⟨bne_iff_ne.mpr hpos, rfl, hcounters⟩, hstore, hback, hfront⟩

theorem saveBuffer_sized (h : Sized N s.buffer) {file : Option WriterOutcome} (hfile : ∀ call ∈ file, call ≠ .fail 0) :
    ∃ s' transfers, s.saveBuffer file = some (s', transfers) ∧ Sized N s'.buffer ∧ ProperBut transfers := by
  have hreset := (Fresh.reset h).toSized
  cases file with
  | none => exact ⟨s.saved, [], rfl, hreset, by simp [ProperBut]⟩
  | some call =>
    have hlegal : Writer.Legal (.file call) := hfile call rfl
    obtain ⟨after, result, writes, hwrite, -, hproper⟩ := h.bufferWriteTo hlegal
    refine ⟨s.saved, writes, ?_, hreset, hproper⟩
    rw [BodyState.saveBuffer, hwrite]
    rfl

theorem readResponseBody_sized (h : Sized N s.buffer) {conn : Reader} {file : Option WriterOutcome}
    (hconn : conn.Legal) (hfile : ∀ call ∈ file, call ≠ .fail 0) :
    ∃ s' result transfers, s.readResponseBody conn file = some (s', result, transfers) ∧ Sized N s'.buffer ∧
      ProperBut transfers := by
  unfold BodyState.readResponseBody
  by_cases hfragment : 0 < s.buffer.bytesReadable
  · obtain ⟨s', writes, hsave, hsized, hproper⟩ := saveBuffer_sized h hfile
    rw [if_pos hfragment, hsave]
    exact ⟨s', _, writes, rfl, hsized, hproper⟩
  rw [if_neg hfragment]
  by_cases hall : s.totalRead = s.contentLength
  · rw [if_pos hall]
    exact ⟨s, _, [], rfl, h, by simp [ProperBut]⟩
  rw [if_neg hall]
  obtain ⟨after, result, reads, hread, hsized, hproper⟩ := h.bufferReadFrom hconn
  rw [hread]
  simp only [Option.pure_def, Option.bind_eq_bind, Option.bind_some]
  by_cases herr : result.hasError = true
  · rw [if_pos herr]
    refine ⟨_, _, _, rfl, hsized, ProperBut.append hproper fun t ht => ?_⟩
    obtain rfl := List.mem_singleton.mp ht
    obtain ⟨-, hnot, -, rfl⟩ := IoRingBuffer.bufferReadFrom_error hread herr
    have hread := (hproper _ List.mem_cons_self).mpr ⟨fun hfile => hnot hfile.1, id⟩
    have hfile : ¬ (Transfer.report conn (.fail conn.errno) s.buffer after (.ofError conn.errno)).FileFailed :=
      fun hfile => hnot hfile.1
    exact (report_proper_iff hread).trans (and_iff_right hfile).symm
  rw [if_neg herr]
  by_cases hgot : 0 < after.bytesReadable
  · obtain ⟨s', writes, hsave, hsized', hproper'⟩ := saveBuffer_sized (s := { s with buffer := after }) hsized hfile
    rw [if_pos hgot, hsave]
    exact ⟨s', _, _, rfl, hsized', hproper.append hproper'⟩
  · rw [if_neg hgot]
    exact ⟨_, _, reads, rfl, hsized, hproper⟩

theorem step_sized (h : Sized N s.buffer) {call : BodyCall} (hcall : call.Legal) :
    ∃ s' result transfers, s.step call = some (s', result, transfers) ∧ Sized N s'.buffer ∧
      ProperBut transfers := by
  have hread {reader : Reader} (hreader : reader.Legal) :
      ∃ s' result transfers, (s.buffer.bufferReadFrom reader).map (fun r => ({ s with buffer := r.1 }, r.2)) =
        some (s', result, transfers) ∧ Sized N s'.buffer ∧ ProperBut transfers := by
    obtain ⟨after, result, reads, hread, hsized, hproper⟩ := h.bufferReadFrom hreader
    rw [hread]
    exact ⟨_, _, reads, rfl, hsized, hproper⟩
  cases call with
  | bufferRead reader => exact hread hcall
  | bufferWrite writer =>
    have hlegal : writer.Legal := hcall
    obtain ⟨after, result, writes, hwrite, hsized, hproper⟩ := h.bufferWriteTo hlegal
    refine ⟨{ s with buffer := after }, result, writes, ?_, hsized, hproper⟩
    rw [BodyState.step, hwrite]
    rfl
  | writeResponseBody reader =>
    cases reader with
    | none => exact ⟨s, _, [], rfl, h, by simp [ProperBut]⟩
    | some reader => exact hread (hcall reader rfl)
  | readResponseBody conn file => exact readResponseBody_sized h hcall.1 hcall.2

theorem run_sized (h : Sized N s.buffer) {calls : List BodyCall} (hcalls : ∀ call ∈ calls, call.Legal) :
    ∃ s' transfers, s.run calls = some (s', transfers) ∧ Sized N s'.buffer ∧ ProperBut transfers := by
  induction calls generalizing s with
  | nil => exact ⟨s, [], rfl, h, by simp [ProperBut]⟩
  | cons call calls ih =>
    obtain ⟨s₁, result, transfers, hstep, hsized, hproper⟩ := step_sized h (hcalls call List.mem_cons_self)
    obtain ⟨s', rest, hrun, hsized', hproper'⟩ := ih hsized fun c hc => hcalls c (List.mem_cons_of_mem call hc)
    refine ⟨s', transfers ++ rest, ?_, hsized', hproper.append hproper'⟩
    rw [BodyState.run, hstep]
    simp only [Option.bind_eq_bind, Option.bind_some, hrun]

end Steps

/-- The calls of a run return, and its transfers are all proper exactly when no system call on a file
has failed and no failure is reported behind which `errno` is 0. -/
theorem transfers_proper_iff {N : Nat} {s : BodyState} {calls : List BodyCall} (h : Sized N s.buffer)
    (hcalls : ∀ call ∈ calls, call.Legal) :
    ∃ s' transfers, s.run calls = some (s', transfers) ∧
      ((∀ t ∈ transfers, t.Proper) ↔ ∀ t ∈ transfers, ¬ t.FileFailed ∧ ¬ t.ErrnoClear) := by
  obtain ⟨s', transfers, hrun, -, hproper⟩ := run_sized h hcalls
  exact ⟨s', transfers, hrun, forall₂_congr hproper⟩

/-- A buffer of eight bytes that nothing has been read into. -/
def readyBody : BodyState := ⟨.resize (List.replicate 8 0), 100, 0⟩

theorem sized_readyBody : Sized 8 readyBody.buffer := (Fresh.resize ⟨3, rfl⟩ (by decide) rfl).toSized

/-- A TCP read behind an `EAGAIN`, a TLS write that fails, a TLS read that fails without a system call,
and bodies whose sockets fail with an `errno`. -/
theorem transfers_proper_sockets :
    ∃ s transfers,
      readyBody.run [.bufferRead (.tcp [.fail eagain, .data [1, 2, 3]]), .bufferWrite (.tls (.fail 32) 5),
        .bufferRead (.tls (.fail 0) 1), .bufferWrite (.tcp [.accept 3]), .readResponseBody (.tls (.fail eagain) 2) none,
        .readResponseBody (.tcp [.fail 104]) (some (.accept 8))] = some (s, transfers) ∧
      ((∀ t ∈ transfers, t.Proper) ↔ ∀ t ∈ transfers, ¬ t.FileFailed ∧ ¬ t.ErrnoClear) :=
  transfers_proper_iff sized_readyBody (by simp [BodyCall.Legal, Reader.Legal, Writer.Legal, eagain])

/-- A TLS read that fails with `SSL_ERROR_SSL` and no `errno` is reported as a result without an error. -/
example : readyBody.run [.readResponseBody (.tls (.fail 0) 1) none] =
    some (readyBody, [.read (.tls (.fail 0) 1) (.fail 0) readyBody.buffer readyBody.buffer ⟨0, 1⟩,
      .report (.tls (.fail 0) 1) (.fail 0) readyBody.buffer readyBody.buffer ⟨0, 0⟩]) := by decide +kernel

/-- A read of a file that fails with `EIO` returns five bytes, which the buffer then holds. -/
theorem transfer_not_proper_file :
    ∃ after, readyBody.run [.writeResponseBody (some (.file (.fail 5)))] =
        some ({ readyBody with buffer := after },
          [.read (.file (.fail 5)) (.fail 5) readyBody.buffer after ⟨5, 0⟩]) ∧
      after.contents = [0, 0, 0, 0, 0] ∧
      ¬ (Transfer.read (.file (.fail 5)) (.fail 5) readyBody.buffer after ⟨5, 0⟩).Proper := by
  refine ⟨{ readyBody.buffer with back := 5 }, by decide +kernel, by decide +kernel, fun hproper => ?_⟩
  obtain ⟨herr, -⟩ := hproper.1 ⟨5, rfl⟩
  cases herr

/-! ### The connection of a client -/

namespace ClientConn

/-- What the calls above look at. -/
def bodyState (c : ClientConn) : BodyState := ⟨c.buffer, c.contentLength, c.totalRead⟩

theorem saveBuffer_bodyState (c : ClientConn) (write : WriterOutcome) :
    (c.bodyState.saveBuffer (c.file.map fun _ => write)).map Prod.fst = (c.saveBuffer write).map bodyState := by
  unfold saveBuffer
  cases hfile : c.file with
  | none => rfl
  | some written =>
    have hsome : (c.buffer.bufferWriteTo (.file write)).isSome = (c.buffer.bufferWrite write).isSome :=
      IoRingBuffer.bufferWriteTo_isSome rfl
    simp only [Option.map_some, BodyState.saveBuffer, Option.map_map]
    change Option.map _ (c.buffer.bufferWriteTo _) = _
    cases hto : c.buffer.bufferWriteTo (.file write) with
    | none =>
      rw [hto, Option.isSome_none, eq_comm, Option.isSome_eq_false_iff, Option.isNone_iff_eq_none] at hsome
      rw [hsome]
      rfl
    | some r =>
      rw [hto, Option.isSome_some, eq_comm] at hsome
      obtain ⟨r', hwrite⟩ := Option.isSome_iff_exists.mp hsome
      rw [hwrite]
      rfl

/-- The calls of a connection over TCP are the ones whose reads do not fail with `EAGAIN`, whatever a
failing write makes of the buffer before it is reset. -/
theorem readResponseBody_bodyState (c : ClientConn) {socket : ReaderOutcome} (write : WriterOutcome)
    (hagain : socket ≠ .fail eagain) :
    (c.bodyState.readResponseBody (.tcp [socket]) (c.file.map fun _ => write)).map (fun r => (r.1, r.2.1)) =
      (c.readResponseBody socket write).map fun r => (r.1.bodyState, r.2.2) := by
  have hcall : (Reader.tcp [socket]).call = some socket := by
    simp [Reader.call, hagain]
  have hresult (len : Nat) : (Reader.tcp [socket]).result socket len = socket.result len := by
    cases socket <;> rfl
  have hread := IoRingBuffer.bufferReadFrom_eq (b := c.buffer) hcall hresult
  have hsave (c : ClientConn) (reads : List Transfer) :
      ((c.bodyState.saveBuffer (c.file.map fun _ => write)).bind fun p =>
        some (p.1, p.1.bytesAvailable, reads ++ p.2)).map (fun r => (r.1, r.2.1)) =
      (c.saveBuffer write).map fun c => (c.bodyState, c.bytesAvailable) := by
    have heq := congrArg (Option.map fun s => (s, s.bytesAvailable)) (saveBuffer_bodyState c write)
    rw [Option.map_map, Option.map_map] at heq
    refine Eq.trans ?_ heq
    cases c.bodyState.saveBuffer (c.file.map fun _ => write) <;> rfl
  unfold readResponseBody BodyState.readResponseBody
  change (if 0 < c.buffer.bytesReadable then _ else _ : Option _).map _ = _
  by_cases hfragment : 0 < c.buffer.bytesReadable
  · rw [if_pos hfragment, if_pos hfragment]
    refine (hsave c []).trans ?_
    cases c.saveBuffer write <;> rfl
  rw [if_neg hfragment, if_neg hfragment]
  change (if c.totalRead = c.contentLength then _ else _ : Option _).map _ = _
  by_cases hall : c.totalRead = c.contentLength
  · rw [if_pos hall, if_pos hall]
    rfl
  rw [if_neg hall, if_neg hall, ← hread]
  change (Option.bind (c.buffer.bufferReadFrom (.tcp [socket])) _).map _ = _
  cases hfrom : c.buffer.bufferReadFrom (.tcp [socket]) with
  | none => rfl
  | some r =>
    obtain ⟨after, result, reads⟩ := r
    simp only [Option.bind_some, Option.map_some, Option.pure_def, Option.bind_eq_bind]
    by_cases herr : result.hasError = true
    · obtain ⟨-, -, hfail, -⟩ := IoRingBuffer.bufferReadFrom_error hfrom herr
      have herrno : (Reader.tcp [socket]).errno = result.errcode := (congrArg IoResult.errcode hfail).symm
      rw [if_pos herr, if_pos herr, herrno]
      rfl
    rw [if_neg herr, if_neg herr]
    by_cases hgot : 0 < after.bytesReadable
    · rw [if_pos hgot, if_pos hgot]
      refine (hsave { c with buffer := after } reads).trans ?_
      cases { c with buffer := after }.saveBuffer write <;> rfl
    · rw [if_neg hgot, if_neg hgot]
      rfl

end ClientConn
end Latypus.Client
