import Latypus.Io.RingBuffer
import Latypus.Lib.Machine
import Latypus.Lib.Ring

/-! Sending a response: `populate_response_headers` puts the serialised head in the ring
buffer, and `handle_state_server_body` refills the buffer from the handler's reader and
drains it to the socket on every poll event. The refill does not look at what is still
unsent, so the bytes on the wire are the response as long as every refill happens to fit. -/

namespace Latypus.Server
open Lib Io

/-- What a state handler of `http_server` does with the connection at its end. -/
inductive Next where
  | stay
  | abort
  | close
  | work
  | keepalive
deriving DecidableEq, Repr

/-- The read of the handler's reader that one `write_response_body` makes. A read that fails reports an
error, which the one of a file does not. -/
inductive BodyRead where
  | chunk (size : Nat)
  | fail (errcode : Nat)
deriving DecidableEq, Repr

structure BodyEvent where
  read : BodyRead
  write : WriterOutcome
  endRequest : Bool
deriving DecidableEq, Repr

structure BodyConn where
  buffer : IoRingBuffer
  reader : Option (List UInt8)
  sent : List UInt8
  connectionClose : Bool
  ended : Bool
  next : Next
deriving DecidableEq, Repr

/-- The part of `populate_response_headers` that fills the buffer, with the bytes
`to_buffer` has written. -/
def populateBuffer (b : IoRingBuffer) (header : List UInt8) : Option IoRingBuffer := do
  let buffer ← store b.reset.buffer 0 header
  some { b.reset with buffer, back := header.length }

namespace BodyConn

def readerOutcome (body : List UInt8) : BodyRead → ReaderOutcome
  | .chunk size => .data (body.take size)
  | .fail e => .fail e

/-- The bytes `write_response_body` brings into the buffer. -/
def refill (s : BodyConn) (e : BodyEvent) : List UInt8 :=
  match s.reader with
  | none => []
  | some body => (readerOutcome body e.read).delivered s.buffer.bytesToRead

def writeResponseBody (s : BodyConn) (e : BodyEvent) : Option (BodyConn × IoResult) :=
  match s.reader with
  | none => some (s, .ofSize 0)
  | some body => do
    let (buffer, result) ← s.buffer.bufferRead (readerOutcome body e.read)
    some ({ s with buffer, reader := some (body.drop (s.refill e).length) }, result)

def endRequest (s : BodyConn) (ok : Bool) : BodyConn :=
  { s with
    ended := true
    next := if !ok then .abort else if s.connectionClose then .close else .keepalive }

def handleStateServerBody (s : BodyConn) (e : BodyEvent) : Option BodyConn := do
  let (s, bodyResult) ← s.writeResponseBody e
  if bodyResult.hasError then return { s with next := .abort }
  if 0 < s.buffer.bytesReadable then
    let (buffer, taken, result) ← s.buffer.bufferWrite e.write
    let s := { s with buffer, sent := s.sent ++ taken }
    if result.hasError then return { s with next := .abort }
    if result.size ≠ 0 then return s
    return s.endRequest e.endRequest
  return s.endRequest e.endRequest

end BodyConn

/-- The reader makes progress until it has no more, and so does the socket; an error code
is not zero. -/
def BodyEvent.Legal (e : BodyEvent) : Prop :=
  e.read ≠ .chunk 0 ∧ e.read ≠ .fail 0 ∧ e.write ≠ .accept 0 ∧ e.write ≠ .fail 0

instance (e : BodyEvent) : Decidable e.Legal := inferInstanceAs (Decidable (_ ∧ _))

/-- The refill and the bytes still unsent fit in the buffer together. -/
def RefillFits (s : BodyConn) (e : BodyEvent) : Prop :=
  s.buffer.back - (s.buffer.front - s.buffer.size) + (s.refill e).length ≤ s.buffer.size

instance (s : BodyConn) (e : BodyEvent) : Decidable (RefillFits s e) := inferInstanceAs (Decidable (_ ≤ _))

/-- Serving `header` and then `body` through a buffer of size `N`. -/
def bodyMachine (N : Nat) (header body : List UInt8) : Machine BodyConn BodyEvent where
  init s := ∃ b, Fresh N b ∧ populateBuffer b header = some s.buffer ∧ s.reader.getD [] = body ∧
    s.sent = [] ∧ s.ended = false ∧ s.next = .stay
  step s e := if s.next = .stay then s.handleStateServerBody e else none

/-- The bytes on the wire are at all times a prefix of the response, and all of it once
`end_request` has been called. -/
def StreamIntact (header body : List UInt8) (s : BodyConn) : Prop :=
  s.sent <+: header ++ body ∧ (s.ended = true → s.sent = header ++ body)

/-- `put` bytes of the stream `S` have entered the buffer and `got` have left it for the
socket; the ones between stand in the buffer, the ones behind are still with the reader. -/
structure Serving (N : Nat) (S : List UInt8) (got put : Nat) (s : BodyConn) : Prop where
  filled : Filled N got put s.buffer
  window : Window S s.buffer.buffer N got put
  sent_eq : s.sent = S.take got
  reader_eq : s.reader.getD [] = S.drop put
  put_le : put ≤ S.length
  ended : s.ended = true → got = S.length

namespace Serving
variable {N got put : Nat} {S : List UInt8} {s : BodyConn} {e : BodyEvent}

theorem refill_fits (h : Serving N S got put s) (hfit : RefillFits s e) :
    put + (s.refill e).length ≤ got + N := by
  rw [RefillFits, IoRingBuffer.size, h.filled.size_eq, h.filled.back_eq, h.filled.front_eq] at hfit
  omega

/-- A reader that still has something brings something. -/
theorem delivered_eq_nil {body : List UInt8} {read : BodyRead} {n : Nat} (hn : 0 < n)
    (hlegal : read ≠ .chunk 0) (herr : ((BodyConn.readerOutcome body read).result n).hasError = false)
    (hfail : read ≠ .fail 0)
    (hnil : (BodyConn.readerOutcome body read).delivered n = []) : body = [] := by
  cases read with
  | chunk size =>
    have hsize : size ≠ 0 := fun h => hlegal (by rw [h])
    simp only [BodyConn.readerOutcome, ReaderOutcome.delivered, List.take_eq_nil_iff] at hnil
    rcases hnil with h | h | h
    · omega
    · exact absurd h hsize
    · exact h
  | fail e =>
    have he : e ≠ 0 := fun h => hfail (by rw [h])
    simp [BodyConn.readerOutcome, ReaderOutcome.result, IoResult.ofError, IoResult.hasError, he]
      at herr

theorem delivered_prefix (body : List UInt8) (read : BodyRead) (n : Nat) :
    (BodyConn.readerOutcome body read).delivered n <+: body := by
  cases read with
  | chunk size => exact (List.take_prefix _ _).trans (List.take_prefix _ _)
  | fail e => exact List.nil_prefix

theorem writeResponseBody (h : Serving N S got put s) (hS : N + 2 * S.length < 2 ^ 63)
    (hlegal : e.Legal) (hfit : RefillFits s e) :
    ∃ s1 result n, s.writeResponseBody e = some (s1, result) ∧ Serving N S got (put + n) s1 ∧
      s1.next = s.next ∧ (result.hasError = false → n = 0 → put = S.length) := by
  have hfit' := h.refill_fits hfit
  cases hr : s.reader with
  | none =>
    have hdrop : S.length ≤ put := by
      have := h.reader_eq
      simpa [hr, eq_comm] using this
    refine ⟨s, .ofSize 0, 0, by simp [BodyConn.writeResponseBody, hr], h, rfl, ?_⟩
    intro _ _
    have := h.put_le
    omega
  | some body =>
    obtain rfl : body = S.drop put := by simpa [hr] using h.reader_eq
    have hmod := Nat.mod_lt put h.filled.pos
    set r := BodyConn.readerOutcome (S.drop put) e.read with hrdef
    set d := r.delivered (N - put % N) with hd
    have hpre : d <+: S.drop put := delivered_prefix _ _ _
    have hdlen : put + d.length ≤ S.length := by
      have := hpre.length_le
      rw [List.length_drop] at this
      have := h.put_le
      omega
    have hrefill : s.refill e = d := by
      simp only [BodyConn.refill, hr, h.filled.bytesToRead, hd, hrdef]
    rw [hrefill] at hfit'
    obtain ⟨buffer, hstore, hread⟩ := h.filled.bufferRead r
    have hbuf : buffer.length = N := by rw [length_of_store hstore, h.filled.size_eq]
    refine ⟨{ s with
        buffer := { s.buffer with buffer, back := (put + d.length : Nat) }
        reader := some (S.drop (put + d.length)) },
      r.result (N - put % N), d.length, ?_, ?_, rfl, ?_⟩
    · simp only [BodyConn.writeResponseBody, hr, hrefill, ← hrdef, hread, ← hd, List.drop_drop]
      rfl
    · refine ⟨h.filled.bufferRead_filled hbuf hfit' (by omega), ?_, h.sent_eq, ?_, hdlen, h.ended⟩
      · exact h.window.store h.filled.size_eq hstore hpre hfit'
      · rfl
    · intro herr hn
      have hnil : S.drop put = [] := by
        refine delivered_eq_nil (n := N - put % N) (by omega) hlegal.1 herr hlegal.2.1 ?_
        exact List.length_eq_zero_iff.mp hn
      have := h.put_le
      have := List.drop_eq_nil_iff.mp hnil
      omega

/-- Nothing to write and nothing more to read: the response is out. -/
theorem endRequest (h : Serving N S got put s) (hgot : got = put) (hput : put = S.length)
    (ok : Bool) : Serving N S got put (s.endRequest ok) :=
  ⟨h.filled, h.window, h.sent_eq, h.reader_eq, h.put_le, fun _ => hgot.trans hput⟩

theorem write (h : Serving N S got put s) (w : WriterOutcome) (hlt : got < put)
    (hended : s.ended = false) :
    ∃ buffer taken result, s.buffer.bufferWrite w = some (buffer, taken, result) ∧
      result.size = taken.length ∧
      (result.hasError = false → w ≠ .accept 0 → w ≠ .fail 0 → taken ≠ []) ∧
      Serving N S (got + taken.length) put { s with buffer, sent := s.sent ++ taken } := by
  obtain ⟨offered, hload, hwrite⟩ := h.filled.bufferWrite w hlt
  have hoff := h.window.load hload h.filled.size_eq (by omega)
  have hmod := Nat.mod_lt got h.filled.pos
  have hput := h.put_le
  have hlen : offered.length = min (N - got % N) (put - got) := by
    rw [hoff, List.length_take, List.length_drop]
    omega
  have htlen : (w.taken offered).length ≤ offered.length := (w.taken_prefix offered).length_le
  refine ⟨_, _, _, hwrite, w.size_result offered, ?_, ?_⟩
  · intro herr hacc hfail
    cases w with
    | accept count =>
      have hc : count ≠ 0 := fun h => hacc (by rw [h])
      have hne : offered ≠ [] := List.ne_nil_of_length_pos (by omega)
      simp [WriterOutcome.taken, hc, hne]
    | fail e =>
      have he : e ≠ 0 := fun h => hfail (by rw [h])
      simp [WriterOutcome.result, IoResult.ofError, IoResult.hasError, he] at herr
  · refine ⟨h.filled.bufferWrite_filled (by omega), h.window.mono (by omega), ?_, h.reader_eq,
      h.put_le, by simp [hended]⟩
    have htake : w.taken offered = (S.drop got).take (w.taken offered).length :=
      List.prefix_iff_eq_take.mp ((w.taken_prefix offered).trans (hoff ▸ List.take_prefix _ _))
    change s.sent ++ w.taken offered = S.take (got + (w.taken offered).length)
    rw [List.take_add, ← htake, h.sent_eq]

theorem step (h : Serving N S got put s) (hS : N + 2 * S.length < 2 ^ 63)
    (hended : s.ended = false) (hlegal : e.Legal) (hfit : RefillFits s e) :
    ∃ s', s.handleStateServerBody e = some s' ∧ (∃ got' put', Serving N S got' put' s') ∧
      (s'.next = .stay → s'.ended = false) := by
  obtain ⟨s1, result, n, hbody, h1, hnext, hrest⟩ := h.writeResponseBody hS hlegal hfit
  have hended1 : s1.ended = false := by
    have hle := h1.filled.le
    simp only [BodyConn.writeResponseBody] at hbody
    split at hbody
    · obtain rfl : s = s1 := congrArg Prod.fst (Option.some.inj hbody)
      exact hended
    · obtain ⟨⟨_, _⟩, _, hbody⟩ := Option.bind_eq_some_iff.mp hbody
      obtain rfl := congrArg Prod.fst (Option.some.inj hbody)
      exact hended
  have habort (t : BodyConn) {g p : Nat} (ht : Serving N S g p t) :
      Serving N S g p { t with next := .abort } :=
    ⟨ht.filled, ht.window, ht.sent_eq, ht.reader_eq, ht.put_le, ht.ended⟩
  have hout (ok : Bool) (t : BodyConn) : (t.endRequest ok).next ≠ .stay := by
    simp only [BodyConn.endRequest]
    split_ifs <;> simp
  simp only [BodyConn.handleStateServerBody, hbody, Option.bind_eq_bind, Option.bind_some,
    Option.pure_def]
  cases herr : result.hasError with
  | true =>
    exact ⟨_, rfl, ⟨got, put + n, habort _ h1⟩, by simp⟩
  | false =>
    simp only [Bool.false_eq_true, if_false]
    rw [h1.filled.bytesReadable]
    by_cases hlt : got < put + n
    · rw [if_pos (by omega)]
      obtain ⟨buffer, taken, wresult, hwrite, hsize, htaken, h2⟩ := h1.write e.write hlt hended1
      simp only [hwrite, Option.bind_some]
      cases hwerr : wresult.hasError with
      | true => exact ⟨_, rfl, ⟨_, _, habort _ h2⟩, by simp⟩
      | false =>
        have hne := htaken hwerr hlegal.2.2.1 hlegal.2.2.2
        have hsz : wresult.size ≠ 0 := by
          rw [hsize]
          simpa using hne
        simp only [Bool.false_eq_true, if_false, if_pos hsz]
        exact ⟨_, rfl, ⟨_, _, h2⟩, fun _ => hended1⟩
    · rw [if_neg (by omega)]
      have hle := h1.filled.le
      have hput := h1.put_le
      have hfull := hrest herr (by have := h.filled.le; omega)
      exact ⟨_, rfl, ⟨_, _, h1.endRequest (by omega) (by omega) e.endRequest⟩,
        fun h => absurd h (hout _ _)⟩

theorem init {header body : List UInt8} {b : IoRingBuffer} (hb : Fresh N b)
    (hlen : header.length < N) (hS : N + 2 * (header ++ body).length < 2 ^ 63)
    (hbuf : populateBuffer b header = some s.buffer) (hreader : s.reader.getD [] = body)
    (hsent : s.sent = []) (hended : s.ended = false) :
    Serving N (header ++ body) 0 header.length s := by
  obtain ⟨buffer, hstore, hbuf⟩ := Option.bind_eq_some_iff.mp hbuf
  have hb' := Fresh.reset hb.toSized
  have hbuf' := (Option.some.inj hbuf).symm
  have hlenS : header.length ≤ (header ++ body).length := by simp
  refine ⟨?_, ?_, by simpa using hsent, by simpa using hreader, hlenS, by simp [hended]⟩
  · rw [hbuf']
    have := hb'.filled.bufferRead_filled (n := header.length)
      ((length_of_store hstore).trans hb'.size_eq) (by omega) (by omega)
    simpa using this
  · rw [hbuf']
    have := (Window.nil (header ++ body) b.reset.buffer N 0).store hb'.size_eq
      (by simpa using hstore) (by simp) (by omega)
    simpa using this

end Serving

theorem bodyMachine_step {N : Nat} {header body : List UInt8} {s : BodyConn}
    (hnext : s.next = .stay) (e : BodyEvent) :
    (bodyMachine N header body).step s e = s.handleStateServerBody e := if_pos hnext

/-- What every reachable state of the run keeps. -/
def BodyInv (N : Nat) (S : List UInt8) (s : BodyConn) : Prop :=
  (∃ got put, Serving N S got put s) ∧ (s.next = .stay → s.ended = false)

theorem bodyInv_of_reaches {N : Nat} {header body : List UInt8} (hlen : header.length < N)
    (hS : N + 2 * (header ++ body).length < 2 ^ 63) {s : BodyConn}
    (h : (bodyMachine N header body).Reaches (fun s e => e.Legal ∧ RefillFits s e) s) :
    BodyInv N (header ++ body) s := by
  refine h.invariant (P := BodyInv N (header ++ body)) ?_ ?_
  · rintro s ⟨b, hb, hbuf, hreader, hsent, hended, -⟩
    exact ⟨⟨0, _, .init hb hlen hS hbuf hreader hsent hended⟩, fun _ => hended⟩
  · rintro s e s' ⟨⟨got, put, hs⟩, hstay⟩ ⟨hlegal, hfit⟩ hstep
    by_cases hnext : s.next = .stay
    · obtain ⟨s'', hs'', hserving, hstay'⟩ := hs.step hS (hstay hnext) hlegal hfit
      rw [bodyMachine_step hnext, hs''] at hstep
      obtain rfl := Option.some.inj hstep
      exact ⟨hserving, hstay'⟩
    · simp [bodyMachine, hnext] at hstep

/-- In every run in which each refill leaves room for what is unsent, the bytes on the wire
are the response, and no event is refused. The last bound keeps the counters of the buffer
inside `ssize_t`. -/
theorem stream_intact {N : Nat} {header body : List UInt8} (hlen : header.length < N)
    (hS : N + 2 * (header ++ body).length < 2 ^ 63) {s : BodyConn}
    (h : (bodyMachine N header body).Reaches (fun s e => e.Legal ∧ RefillFits s e) s) :
    StreamIntact header body s ∧
      (s.next = .stay → ∀ e, e.Legal → RefillFits s e →
        ∃ s', (bodyMachine N header body).step s e = some s') := by
  obtain ⟨⟨got, put, hs⟩, hstay⟩ := bodyInv_of_reaches hlen hS h
  refine ⟨⟨hs.sent_eq ▸ List.take_prefix _ _, fun he => ?_⟩, fun hnext e hlegal hfit => ?_⟩
  · rw [hs.sent_eq, hs.ended he, List.take_length]
  · obtain ⟨s', hs', -⟩ := hs.step hS (hstay hnext) hlegal hfit
    exact ⟨s', (bodyMachine_step hnext e).trans hs'⟩

/-- The buffer of size two with the one-byte head `104` in it. -/
def headOfOne (body : List UInt8) : BodyConn :=
  ⟨⟨[104, 0], 1, 2, 1⟩, some body, [], true, false, .stay⟩

theorem headOfOne_init (body : List UInt8) : (bodyMachine 2 [104] body).init (headOfOne body) :=
  ⟨.resize [0, 0], .resize ⟨1, rfl⟩ (by decide) rfl, rfl, rfl, rfl, rfl, rfl⟩

/-- A buffer of four bytes with a head of two, and a body of seven bytes behind it. -/
def headOfTwo : BodyConn := ⟨⟨[104, 105, 0, 0], 2, 4, 3⟩, some [1, 2, 3, 4, 5, 6, 7], [], false, false, .stay⟩

theorem headOfTwo_init : (bodyMachine 4 [104, 105] [1, 2, 3, 4, 5, 6, 7]).init headOfTwo :=
  ⟨.resize [0, 0, 0, 0], .resize ⟨2, rfl⟩ (by decide) rfl, rfl, rfl, rfl, rfl, rfl⟩

/-- Short reads and writes, each refill in what is free, around the end of the buffer and to the end of the body. -/
def shortWrites : List BodyEvent :=
  [⟨.chunk 2, .accept 1, true⟩, ⟨.chunk 1, .accept 2, true⟩, ⟨.chunk 1, .accept 1, true⟩, ⟨.chunk 2, .accept 3, true⟩,
    ⟨.chunk 4, .accept 2, true⟩, ⟨.chunk 4, .accept 4, true⟩, ⟨.chunk 4, .accept 4, true⟩]

theorem stream_intact_short_writes : ∃ s,
    (bodyMachine 4 [104, 105] [1, 2, 3, 4, 5, 6, 7]).Reaches (fun s e => e.Legal ∧ RefillFits s e) s ∧
      s.ended = true ∧ s.next = .keepalive ∧ StreamIntact [104, 105] [1, 2, 3, 4, 5, 6, 7] s := by
  have hend : (((bodyMachine 4 [104, 105] [1, 2, 3, 4, 5, 6, 7]).guard fun s e => e.Legal ∧ RefillFits s e).run
      headOfTwo shortWrites).map (fun s => (s.ended, s.next)) = some (true, .keepalive) := by decide +kernel
  obtain ⟨s, hreach, hstate⟩ := Machine.Reaches.exists_of_guard_run (.start headOfTwo_init) hend
  obtain ⟨hended, hnext⟩ := Prod.mk.inj hstate
  exact ⟨s, hreach, hended, hnext, (stream_intact (by decide) (by decide) hreach).1⟩

/-- A socket that takes one byte of the two offered: the next refill overwrites the unsent
one, and the third byte of the body goes out in the place of the first. -/
theorem stream_fails_short_write :
    ¬∀ s, (bodyMachine 2 [104] [1, 2, 3]).Reaches (fun _ e => e.Legal) s →
      StreamIntact [104] [1, 2, 3] s := by
  intro h
  let e : BodyEvent := ⟨.chunk 2, .accept 1, true⟩
  have hlegal : e.Legal := by simp [BodyEvent.Legal, e]
  have hstart : (bodyMachine 2 [104] [1, 2, 3]).Reaches (fun _ e => e.Legal)
      (headOfOne [1, 2, 3]) := .start (headOfOne_init [1, 2, 3])
  have hrun : (bodyMachine 2 [104] [1, 2, 3]).run (headOfOne [1, 2, 3]) [e, e] =
      some ⟨⟨[2, 3], 4, 4, 1⟩, some [], [104, 3], true, false, .stay⟩ := by decide
  exact absurd (h _ (hstart.of_run (by simpa using fun _ => hlegal) hrun)).1 (by decide)

end Latypus.Server
