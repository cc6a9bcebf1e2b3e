import Latypus.Http.DateRoundTrip
import Latypus.Lib.Machine
import Latypus.Server.ReadRequest
import Latypus.Server.Session

/-! The access log. Requests are counted as processed in two states, and only the one that sends
a body writes a line for them; the line is cut to a fixed length twice, and a peer address that
does not fit its buffer leaves there what the stack held. -/

namespace Latypus.Server
open Lib Io Http

/-! ### The text of a line -/

/-- A time with a year of four digits. -/
structure Printable (tm : Tm) : Prop where
  inRange : HttpDate.InRange tm
  year : 0 ≤ tm.year + 1900 ∧ tm.year + 1900 ≤ 9999

/-- What `gmtime_r` yields at the end of a request. -/
abbrev LogTime := { tm : Tm // Printable tm }

open HttpDate (digit) in
/-- `to_log_string` -/
def toLogString (tm : Tm) : Bytes :=
  let mon := HttpDate.monthNames.getD (tm.mon.tmod 12).toNat []
  let year := tm.year + 1900
  [91, digit (tm.mday.tdiv 10), digit (tm.mday.tmod 10), 47, mon.getD 0 0, mon.getD 1 0, mon.getD 2 0, 47,
    digit (year.tdiv 1000), digit ((year.tdiv 100).tmod 10), digit ((year.tdiv 10).tmod 10), digit (year.tmod 10), 58,
    digit (tm.hour.tdiv 10), digit (tm.hour.tmod 10), 58, digit (tm.min.tdiv 10), digit (tm.min.tmod 10), 58,
    digit (tm.sec.tdiv 10), digit (tm.sec.tmod 10), 32, 43, 48, 48, 48, 48, 93]

inductive PeerAddr where
  | inet (a b c d : UInt8)
  | inet6 (words : Fin 8 → UInt16)

/-- `sprintf` with `%x`. -/
def hex (n : Nat) : Bytes := (Nat.toDigits 16 n).map fun c => UInt8.ofNat c.toNat

def inetNtop4 (a b c d : UInt8) : Bytes :=
  decimal a.toNat ++ [46] ++ decimal b.toNat ++ [46] ++ decimal c.toNat ++ [46] ++ decimal d.toNat

/-- The first of the longest runs of zero words, if it has two or more. -/
def zeroRun (ws : List UInt16) : Option (Nat × Nat) :=
  let len (i : Nat) := ((ws.drop i).takeWhile (· == 0)).length
  let best := (List.range ws.length).foldl (fun best i => if best.2 < len i then (i, len i) else best) (0, 0)
  if best.2 < 2 then none else some best

/-- The text of one word, with the colon before it; a run of zeros is one more colon. -/
def wordText (run : Option (Nat × Nat)) (ws : List UInt16) (i : Nat) : Bytes :=
  if run.any (fun r => r.1 ≤ i && i < r.1 + r.2) then
    if run.any (fun r => i == r.1) then [58] else []
  else (if i = 0 then [] else [58]) ++ hex (ws.getD i 0).toNat

def inetNtop6 (ws : List UInt16) : Bytes :=
  let run := zeroRun ws
  let byte (n : Nat) := UInt8.ofNat n
  if run = some (0, 6) ∨ (run = some (0, 5) ∧ ws.getD 5 0 = 0xffff) then
    let hi := (ws.getD 6 0).toNat
    let lo := (ws.getD 7 0).toNat
    (List.range 6).flatMap (wordText run ws) ++ [58] ++
      inetNtop4 (byte (hi / 256)) (byte (hi % 256)) (byte (lo / 256)) (byte (lo % 256))
  else
    (List.range 8).flatMap (wordText run ws) ++ if run.any (fun r => r.1 + r.2 == 8) then [58] else []

/-- The text that `inet_ntop` gives if there is room for it. -/
def inetNtop : PeerAddr → Bytes
  | .inet a b c d => inetNtop4 a b c d
  | .inet6 words => inetNtop6 (List.ofFn words)

/-- The string in `addr_buf`: an address that does not fit leaves the buffer as it was. -/
def addrBuf (peer : PeerAddr) (stack : Bytes) : Bytes :=
  if (inetNtop peer).length < 32 then inetNtop peer else cString (stack.take 32)

/-- What stands in a line behind the address, up to its end. -/
def logRest (tm : Tm) (r : HttpRequest) (statusCode : Int) : Bytes :=
  [32, 45, 32, 45, 32] ++ toLogString tm ++ [32, 34] ++ cString (r.requestMethod.getD []) ++ [32] ++
    cString (r.requestPath.getD []) ++ [32] ++ cString (r.httpVersion.getD []) ++ [34, 32] ++
    decimal statusCode ++ [32, 48]

/-- The format of `finished_request`, "%s - %s %s \"%s %s %s\" %d %lu\n"; the user is "-" and the
number of bytes 0. -/
def logLine (addr : Bytes) (tm : Tm) (r : HttpRequest) (statusCode : Int) : Bytes :=
  addr ++ logRest tm r statusCode ++ [10]

def logBufferSize : Nat := 1024

/-- What `snprintf` leaves of a text in a buffer. -/
def snprintf (size : Nat) (text : Bytes) : Bytes := text.take (size - 1)

/-- The text that `log_thread::log` stores for a message. -/
def storedText (message : Bytes) : Bytes := message.take (logBufferSize - 1)

/-! ### Runs -/

/-- A request counted as processed, with what its line is made of and the texts stored for it. -/
structure Processed where
  request : HttpRequest
  statusCode : Int
  peer : PeerAddr
  tm : LogTime
  stack : Bytes
  logged : List Bytes

def Processed.line (p : Processed) : Bytes :=
  logLine (addrBuf p.peer p.stack) p.tm p.request p.statusCode

/-- The end of a request in a session: `finished_request` in `server_body`, and in
`server_response` the count alone. -/
def Session.finishedRequest (s : Session) (peer : PeerAddr) (tm : LogTime) (stack : Bytes) : Processed :=
  { request := s.request, statusCode := s.response.statusCode, peer, tm, stack
    logged :=
      if s.state = .serverBody then
        [storedText (snprintf (logBufferSize - 1)
          (logLine (addrBuf peer stack) tm s.request s.response.statusCode))]
      else [] }

inductive LogEvent where
  /-- A connection is accepted into a slot, whose buffer holds what it held. -/
  | accept (slot : Nat) (peer : PeerAddr) (contents : Bytes)
  /-- A step of a connection, at a time, with what the stack holds. -/
  | step (slot : Nat) (e : SessionEvent) (tm : LogTime) (stack : Bytes)

structure LogState where
  sessions : Nat → Option (Session × PeerAddr)
  processed : List Processed

/-- The connections of a server whose virtual hosts have an access log. -/
def logMachine (cfg : ServerConfig) : Machine LogState LogEvent where
  init s := s.processed = [] ∧ ∀ i, s.sessions i = none
  step s
    | .accept i peer contents =>
      if contents.length = cfg.ioBufferSize ∧ (∀ c ∈ s.sessions i, c.1.state = .closed) then
        some { s with sessions := Function.update s.sessions i (some (cfg.newSession contents, peer)) }
      else none
    | .step i e tm stack => do
      let (c, peer) ← s.sessions i
      let (c', counted) ← c.step e
      some {
        sessions := Function.update s.sessions i (some (c', peer))
        processed := if counted then s.processed ++ [c.finishedRequest peer tm stack] else s.processed }

/-- A text with one newline, at its end. -/
def OneLine (text : Bytes) : Prop := ∃ w, text = w ++ [10] ∧ 10 ∉ w

/-- Exactly one text is stored for the request, and it is a line. -/
def Processed.HasLine (p : Processed) : Prop := ∃ text, p.logged = [text] ∧ OneLine text

/-- The response has a body, the address fits its buffer or finds no newline there, and the line
is not cut. -/
def Processed.Fits (p : Processed) : Prop :=
  responseHasBody (p.request.requestMethod.getD []) p.statusCode = true ∧
    ((inetNtop p.peer).length < 32 ∨ 10 ∉ cString (p.stack.take 32)) ∧
    p.line.length ≤ logBufferSize - 2

/-! ### Newlines -/

theorem ten_notMem_map {cs : List Char} (h : ∀ c ∈ cs, c.toNat % 256 ≠ 10) :
    (10 : UInt8) ∉ cs.map fun c => UInt8.ofNat c.toNat := by
  intro hmem
  obtain ⟨c, hc, heq⟩ := List.mem_map.mp hmem
  refine h c hc ?_
  have := congrArg UInt8.toNat heq
  simpa using this

theorem ten_notMem_decimal (n : Int) : (10 : UInt8) ∉ decimal n := by
  have hdigits : (10 : UInt8) ∉ (Nat.toDigits 10 n.natAbs).map fun c => UInt8.ofNat c.toNat := by
    refine ten_notMem_map fun c hc => ?_
    have hdigit := Nat.isDigit_of_mem_toDigits (by decide) (by decide) hc
    simp only [Char.isDigit, Bool.and_eq_true, decide_eq_true_eq, ge_iff_le, UInt32.le_iff_toNat_le] at hdigit
    have hle : 48 ≤ c.toNat ∧ c.toNat ≤ 57 := hdigit
    omega
  unfold decimal
  simp only
  split_ifs
  · simpa using hdigits
  · exact hdigits

theorem ten_notMem_hex (n : Nat) : (10 : UInt8) ∉ hex n := by
  have hdigit : ∀ d < 16, (Nat.digitChar d).toNat % 256 ≠ 10 := by decide
  refine ten_notMem_map ?_
  induction n using Nat.strong_induction_on with
  | _ n ih =>
    intro c hc
    rw [Nat.toDigits_eq_if (by decide)] at hc
    split_ifs at hc with hlt
    · obtain rfl := List.mem_singleton.mp hc
      exact hdigit n hlt
    · rcases List.mem_append.mp hc with hc | hc
      · exact ih (n / 16) (by omega) c hc
      · obtain rfl := List.mem_singleton.mp hc
        exact hdigit _ (Nat.mod_lt _ (by decide))

theorem ten_notMem_inetNtop (peer : PeerAddr) : (10 : UInt8) ∉ inetNtop peer := by
  have h4 : ∀ a b c d, (10 : UInt8) ∉ inetNtop4 a b c d := by
    intro a b c d
    simp [inetNtop4, ten_notMem_decimal]
  have hword : ∀ run ws i, (10 : UInt8) ∉ wordText run ws i := by
    intro run ws i
    unfold wordText
    split_ifs <;> simp [ten_notMem_hex]
  have hwords : ∀ run ws n, (10 : UInt8) ∉ (List.range n).flatMap (wordText run ws) := by
    intro run ws n hmem
    obtain ⟨i, -, hi⟩ := List.mem_flatMap.mp hmem
    exact hword run ws i hi
  cases peer with
  | inet a b c d => exact h4 a b c d
  | inet6 words =>
    unfold inetNtop inetNtop6
    simp only
    split_ifs <;> simp [h4, hwords]

theorem toLogString_eq {tm : Tm} (h : Printable tm) : toLogString tm = [91] ++ HttpDate.twoDigits tm.mday ++ [47] ++
    HttpDate.monthName tm ++ [47] ++ HttpDate.fourDigits (tm.year + 1900) ++ [58] ++ HttpDate.timeOfDay tm ++
      [32, 43, 48, 48, 48, 48, 93] := by
  obtain ⟨-, -, -, -, hmon, -⟩ := h.inRange
  have hmonth := HttpDate.getD_three (HttpDate.names_length.2 tm.mon.toNat (by omega))
  have hm : tm.mon.tmod 12 = tm.mon := Int.tmod_eq_of_lt (by omega) (by omega)
  simp only [toLogString, hm]
  rw [HttpDate.monthName, ← hmonth]
  rfl

theorem ten_notMem_toLogString {tm : Tm} (h : Printable tm) : (10 : UInt8) ∉ toLogString tm := by
  obtain ⟨hsec, hmin, hhour, hmday, hmon, -⟩ := h.inRange
  have hmonths : ∀ i < 12, (10 : UInt8) ∉ HttpDate.monthNames.getD i [] := by decide
  have hmonth : 10 ∉ HttpDate.monthName tm := hmonths _ (by omega)
  have hdigits {ds : Bytes} {n : Int} (hds : HttpDate.Digits ds n) : 10 ∉ ds :=
    fun hmem => absurd (hds.isDigit 10 hmem) (by decide)
  have hyear := hdigits (HttpDate.digits_four h.year.1 (by have := h.year.2; omega))
  rw [toLogString_eq h]
  simp [HttpDate.timeOfDay, hmonth, hyear, hdigits (HttpDate.digits_two (n := tm.mday) (by omega) (by omega)),
    hdigits (HttpDate.digits_two (n := tm.hour) (by omega) (by omega)),
    hdigits (HttpDate.digits_two (n := tm.min) (by omega) (by omega)),
    hdigits (HttpDate.digits_two (n := tm.sec) (by omega) (by omega))]

theorem ten_notMem_logRest {r : HttpRequest} (h : r.LineStored) (tm : LogTime) (statusCode : Int) :
    (10 : UInt8) ∉ logRest tm r statusCode := by
  have hstr : ∀ {str : Option Bytes}, (∀ w, str = some w → 10 ∉ cString w) →
      (10 : UInt8) ∉ cString (str.getD []) := by
    intro str hw
    cases str with
    | none => exact List.not_mem_nil
    | some w => exact hw w rfl
  simp [logRest, ten_notMem_toLogString tm.2, ten_notMem_decimal, hstr h.method, hstr h.path, hstr h.version]

/-- A line that is cut is no line, and neither is one with a newline in front. -/
theorem oneLine_take_iff {addr rest : Bytes} {n : Nat} (hrest : 10 ∉ rest) (hne : rest ≠ [])
    (hn : addr.length < n) :
    OneLine ((addr ++ rest ++ [10]).take n) ↔ 10 ∉ addr ∧ (addr ++ rest ++ [10]).length ≤ n := by
  constructor
  · rintro ⟨w, htake, hw⟩
    have haddr : addr <+: w := by
      have hpre : addr <+: w ++ [10] := by
        rw [← htake]
        exact List.prefix_take_iff.mpr ⟨by simp [List.append_assoc], hn.le⟩
      have hlen := congrArg List.length htake
      have hpos := List.length_pos_iff.mpr hne
      simp only [List.length_take, List.length_append, List.length_singleton] at hlen
      exact List.prefix_of_prefix_length_le hpre (List.prefix_append w [10]) (by omega)
    have hnot : 10 ∉ addr := fun hmem => hw (haddr.subset hmem)
    refine ⟨hnot, ?_⟩
    by_contra hlong
    have hcut : (addr ++ rest ++ [10]).take n = (addr ++ rest).take n :=
      List.take_append_of_le_length (by simp at hlong ⊢; omega)
    have hmem : (10 : UInt8) ∈ (addr ++ rest).take n := by
      rw [← hcut, htake]
      exact List.mem_append_right w (List.mem_singleton_self 10)
    rcases List.mem_append.mp (List.mem_of_mem_take hmem) with h | h
    · exact hnot h
    · exact hrest h
  · rintro ⟨hnot, hlen⟩
    refine ⟨addr ++ rest, List.take_of_length_le hlen, ?_⟩
    simp [hnot, hrest]

theorem length_addrBuf_le (peer : PeerAddr) (stack : Bytes) : (addrBuf peer stack).length ≤ 32 := by
  unfold addrBuf
  split_ifs with h
  · exact h.le
  · exact ((List.takeWhile_sublist _).length_le).trans (List.length_take_le 32 stack)

theorem ten_notMem_addrBuf (peer : PeerAddr) (stack : Bytes) :
    10 ∉ addrBuf peer stack ↔ (inetNtop peer).length < 32 ∨ 10 ∉ cString (stack.take 32) := by
  unfold addrBuf
  split_ifs with h
  · exact iff_of_true (ten_notMem_inetNtop peer) (.inl h)
  · simp [h]

/-- The line of a request with nothing but parts of a line in it. -/
theorem oneLine_stored_iff {r : HttpRequest} (h : r.LineStored) (peer : PeerAddr) (tm : LogTime) (stack : Bytes)
    (statusCode : Int) :
    OneLine (storedText (snprintf (logBufferSize - 1) (logLine (addrBuf peer stack) tm r statusCode))) ↔
      ((inetNtop peer).length < 32 ∨ 10 ∉ cString (stack.take 32)) ∧
        (logLine (addrBuf peer stack) tm r statusCode).length ≤ logBufferSize - 2 := by
  have hlen := length_addrBuf_le peer stack
  have hcut : storedText (snprintf (logBufferSize - 1) (logLine (addrBuf peer stack) tm r statusCode)) =
      (addrBuf peer stack ++ logRest tm r statusCode ++ [10]).take (logBufferSize - 2) := by
    simp [storedText, snprintf, logLine, logBufferSize, List.take_take]
  rw [hcut, oneLine_take_iff (ten_notMem_logRest h tm statusCode) (by simp [logRest])
    (by simp only [logBufferSize]; omega), ten_notMem_addrBuf, logLine]

/-! ### The invariant of a session -/

section Invariant
variable (cfg : ServerConfig)

/-- The request of a session, from the time its head is complete. -/
structure Session.Holds (s : Session) : Prop where
  lineStored : s.request.LineStored
  reset_eq : s.request.reset = .resize cfg.headerBufferSize cfg.maxHeaders
  sized : Sized cfg.ioBufferSize s.buffer

def Session.Lined (s : Session) : Prop :=
  match s.state with
  | .clientRequest => ∃ text, Received cfg.ioBufferSize cfg.headerBufferSize cfg.maxHeaders text
      ⟨s.buffer, s.request⟩
  | .working => s.Holds cfg
  | .serverResponse | .serverBody => s.Holds cfg ∧ ∃ method, s.request.requestMethod = some method ∧
      (s.state = .serverBody ↔ responseHasBody method s.response.statusCode = true)
  | .waiting => s.request.reset = .resize cfg.headerBufferSize cfg.maxHeaders ∧
      Fresh cfg.ioBufferSize s.buffer
  | .closed => True

variable {cfg} {s s' : Session}

theorem Session.lined_closed (h : s.state = .closed) : s.Lined cfg := by
  rw [Session.Lined, h]
  trivial

theorem Session.lined_newSession {contents : Bytes} (h : contents.length = cfg.ioBufferSize) :
    (cfg.newSession contents).Lined cfg :=
  ⟨[], received_nil (.resize cfg.pow2 cfg.lt h)⟩

theorem Session.Lined.readRequest {socket : ReaderOutcome} (hs : s.Lined cfg)
    (hstate : s.state = .clientRequest) (h : s.readRequest socket = some s') : s'.Lined cfg := by
  rw [Session.Lined, hstate] at hs
  obtain ⟨text, htext⟩ := hs
  obtain ⟨⟨c, next⟩, hevent, h⟩ := Option.bind_eq_some_iff.mp h
  obtain rfl := Option.some.inj h
  obtain ⟨hsized, ⟨-, rfl | rfl⟩ | ⟨-, -, hcases⟩⟩ := htext.event hevent
  · exact Session.lined_closed rfl
  · exact Session.lined_closed rfl
  obtain ⟨-, ok, hproc, rfl⟩ | ⟨-, -, rfl⟩ | ⟨rfl, hreceived⟩ := hcases
  · cases ok with
    | false => exact Session.lined_closed rfl
    | true =>
      have hpath : RequestMemory.PathStored (.ofText cfg.headerBufferSize cfg.maxHeaders
          (withDelivered cfg.ioBufferSize text socket)) := HttpRequest.pathStored_ofText _
      have hline := lineStored_processRequestHeaders hpath (HttpRequest.lineStored_ofText _) hproc
      obtain ⟨path, mem, -, -, hr⟩ := processRequestHeaders_cases hpath hproc
      refine ⟨hline, ?_, hsized⟩
      change c.head.reset = _
      rw [hr]
      exact HttpRequest.reset_ofText _
  · exact Session.lined_closed rfl
  · exact ⟨_, hreceived⟩

theorem Session.Lined.workerProcessRequest {reply : Reply} (hs : s.Lined cfg)
    (hstate : s.state = .working) (h : s.workerProcessRequest reply = some s') : s'.Lined cfg := by
  rw [Session.Lined, hstate] at hs
  obtain ⟨hreq, hsized, hstatus, version, method, -, hmethod, -, hnext⟩ :=
    workerProcessRequest_cases hs.sized h
  have hholds : s'.Holds cfg := ⟨hreq ▸ hs.lineStored, hreq ▸ hs.reset_eq, hsized⟩
  have hmethod' : s'.request.requestMethod = some method := hreq ▸ hmethod
  rcases hnext with hclosed | hnext
  · exact Session.lined_closed hclosed
  rw [← hstatus] at hnext
  cases hbody : responseHasBody method s'.response.statusCode with
  | true =>
    rw [hbody, if_pos rfl] at hnext
    rw [Session.Lined, hnext]
    exact ⟨hholds, method, hmethod', iff_of_true rfl hbody⟩
  | false =>
    rw [hbody, if_neg (by decide)] at hnext
    rw [Session.Lined, hnext]
    exact ⟨hholds, method, hmethod', iff_of_false (by decide) (by simp [hbody])⟩

/-- A session that sends a response. -/
theorem Session.Lined.sending (hs : s.Lined cfg) (hstate : s.state = .serverResponse ∨ s.state = .serverBody) :
    s.Holds cfg ∧ ∃ method, s.request.requestMethod = some method ∧
      (s.state = .serverBody ↔ responseHasBody method s.response.statusCode = true) := by
  unfold Session.Lined at hs
  rcases hstate with hstate | hstate <;> simp only [hstate] at hs ⊢ <;> exact hs

theorem Session.Lined.writeResponse {e : BodyEvent} {counted : Bool} (hs : s.Lined cfg)
    (hstate : s.state = .serverResponse ∨ s.state = .serverBody)
    (h : s.writeResponse e = some (s', counted)) : s'.Lined cfg := by
  obtain ⟨hholds, method, hmethod, hiff⟩ := hs.sending hstate
  obtain ⟨hreq, hresp, -, hcases⟩ := writeResponse_cases hholds.sized h
  obtain ⟨hsame, hsized, -⟩ | hclosed | ⟨hwaiting, hfresh⟩ := hcases
  · have hholds' : s'.Holds cfg := ⟨hreq ▸ hholds.lineStored, hreq ▸ hholds.reset_eq, hsized⟩
    rw [← hreq] at hmethod
    rw [← hresp, ← hsame] at hiff
    rw [← hsame] at hstate
    unfold Session.Lined
    rcases hstate with hstate | hstate <;> rw [hstate] at hiff ⊢ <;> exact ⟨hholds', method, hmethod, hiff⟩
  · exact Session.lined_closed hclosed
  · rw [Session.Lined, hwaiting]
    exact ⟨hreq ▸ hholds.reset_eq, hfresh⟩

theorem Session.Lined.step {e : SessionEvent} {counted : Bool} (hs : s.Lined cfg)
    (h : s.step e = some (s', counted)) :
    s'.Lined cfg ∧ (counted = true → s.state = .serverResponse ∨ s.state = .serverBody) := by
  unfold Session.step at h
  split at h
  case h_1 hstate =>
    obtain ⟨t, ht, hpair⟩ := Option.map_eq_some_iff.mp h
    obtain ⟨rfl, rfl⟩ := Prod.mk.inj hpair
    exact ⟨hs.readRequest hstate ht, fun h => by cases h⟩
  case h_2 hstate =>
    obtain ⟨t, ht, hpair⟩ := Option.map_eq_some_iff.mp h
    obtain ⟨rfl, rfl⟩ := Prod.mk.inj hpair
    exact ⟨hs.workerProcessRequest hstate ht, fun h => by cases h⟩
  case h_3 hstate => exact ⟨hs.writeResponse (.inl hstate) h, fun _ => .inl hstate⟩
  case h_4 hstate => exact ⟨hs.writeResponse (.inr hstate) h, fun _ => .inr hstate⟩
  case h_5 hstate =>
    obtain ⟨rfl, rfl⟩ := Prod.mk.inj (Option.some.inj h)
    rw [Session.Lined, hstate] at hs
    refine ⟨⟨[], ?_⟩, fun h => by cases h⟩
    change Received _ _ _ [] ⟨s.buffer, s.request.reset⟩
    rw [hs.1]
    exact received_nil hs.2
  case h_10 => cases h
  all_goals
    obtain ⟨rfl, rfl⟩ := Prod.mk.inj (Option.some.inj h)
    exact ⟨Session.lined_closed rfl, fun h => by cases h⟩

/-- A request that a session ends has its line exactly when the line fits. -/
theorem Session.Lined.hasLine_iff (hs : s.Lined cfg)
    (hstate : s.state = .serverResponse ∨ s.state = .serverBody) (peer : PeerAddr) (tm : LogTime) (stack : Bytes) :
    (s.finishedRequest peer tm stack).HasLine ↔ (s.finishedRequest peer tm stack).Fits := by
  obtain ⟨hholds, method, hmethod, hiff⟩ := hs.sending hstate
  have hline := oneLine_stored_iff hholds.lineStored peer tm stack s.response.statusCode
  have hbody : responseHasBody (s.request.requestMethod.getD []) s.response.statusCode = true ↔
      s.state = .serverBody := by
    rw [hmethod, Option.getD_some, hiff]
  rw [Processed.HasLine, Processed.Fits, Session.finishedRequest]
  simp only [hbody, Processed.line]
  by_cases hserver : s.state = .serverBody
  · simp only [hserver, if_true, true_and]
    rw [← hline]
    simp
  · simp [hserver]

end Invariant

structure LogState.Inv (cfg : ServerConfig) (s : LogState) : Prop where
  sessions : ∀ i c peer, s.sessions i = some (c, peer) → c.Lined cfg
  processed : ∀ p ∈ s.processed, p.HasLine ↔ p.Fits

theorem LogState.Inv.step {cfg : ServerConfig} {s s' : LogState} {e : LogEvent} (hs : s.Inv cfg)
    (h : (logMachine cfg).step s e = some s') : s'.Inv cfg := by
  have hupdate : ∀ {i : Nat} {c : Session} {peer : PeerAddr}, c.Lined cfg → ∀ j d peer',
      Function.update s.sessions i (some (c, peer)) j = some (d, peer') → d.Lined cfg := by
    intro i c peer hc j d peer' hj
    by_cases hij : j = i
    · subst hij
      rw [Function.update_self] at hj
      obtain ⟨rfl, -⟩ := Prod.mk.inj (Option.some.inj hj)
      exact hc
    · rw [Function.update_of_ne hij] at hj
      exact hs.sessions j d peer' hj
  cases e with
  | accept i peer contents =>
    simp only [logMachine] at h
    split_ifs at h with hguard
    obtain rfl := Option.some.inj h
    exact ⟨hupdate (Session.lined_newSession hguard.1), hs.processed⟩
  | step i e tm stack =>
    obtain ⟨⟨c, peer⟩, hc, h⟩ := Option.bind_eq_some_iff.mp h
    obtain ⟨⟨c', counted⟩, hstep, h⟩ := Option.bind_eq_some_iff.mp h
    obtain rfl := Option.some.inj h
    have hlined := hs.sessions i c peer hc
    obtain ⟨hlined', hcount⟩ := hlined.step hstep
    refine ⟨hupdate hlined', fun p hp => ?_⟩
    cases counted with
    | false => exact hs.processed p hp
    | true =>
      rcases List.mem_append.mp hp with hp | hp
      · exact hs.processed p hp
      · obtain rfl := List.mem_singleton.mp hp
        exact hlined.hasLine_iff (hcount rfl) peer tm stack

def logStart : LogState := ⟨fun _ => none, []⟩

end Latypus.Server
