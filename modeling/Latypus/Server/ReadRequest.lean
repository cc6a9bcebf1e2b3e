import Latypus.Http.RequestSegments
import Latypus.Server.HeaderOverflow

/-! What the reads of a request head have stored is a function of the bytes received: the
request is the one that parses all of them at once. -/

namespace Latypus.Server
open Lib Io Http

/-- The bytes `text` of a head have been received, and more are needed. -/
structure Received (N capacity maxHeaders : Nat) (text : Bytes) (c : HeadConn HttpRequest) : Prop where
  awaiting : Awaiting N text.length c
  mem : c.buffer.buffer.take text.length = text
  head : c.head = .ofText capacity maxHeaders text

section
variable {N capacity maxHeaders : Nat} {text : Bytes} {c c' : HeadConn HttpRequest}
  {socket : ReaderOutcome} {next : Next}

theorem received_nil {b : IoRingBuffer} (hb : Fresh N b) :
    Received N capacity maxHeaders [] ⟨b, .resize capacity maxHeaders⟩ :=
  ⟨⟨hb.filled, Nat.zero_le N, rfl, rfl⟩, by simp, rfl⟩

/-- The text with the bytes that the socket brings behind it. -/
def withDelivered (N : Nat) (text : Bytes) (socket : ReaderOutcome) : Bytes :=
  text ++ socket.delivered (N - text.length % N)

theorem Received.live (h : Received N capacity maxHeaders text c) :
    HttpParser.scanner.stops (HttpRequest.ofText capacity maxHeaders text).parser = false := by
  have hfin : c.head.parser.isFinished = false := h.awaiting.notFinished
  have herr : c.head.hasError = false := h.awaiting.noError
  rw [← h.head]
  have hparser : c.head.parser.hasError = false := by
    simp only [HttpRequest.hasError, Bool.or_eq_false_iff] at herr
    exact herr.1.1
  simp [HttpParser.scanner, hfin, hparser]

/-- Where the bytes fit behind the text, they stand behind it in the buffer. -/
theorem Received.mem_read (h : Received N capacity maxHeaders text c) {mem : Bytes}
    (hstore : store c.buffer.buffer (text.length % N) (socket.delivered (N - text.length % N)) = some mem)
    (hfit : (withDelivered N text socket).length ≤ N) :
    mem.take (withDelivered N text socket).length = withDelivered N text socket := by
  have hsize := h.awaiting.filled.size_eq
  have hle := h.awaiting.le
  obtain ⟨-, rfl⟩ := store_eq_some.mp hstore
  have hmem := h.mem
  unfold withDelivered at hfit ⊢
  set d := socket.delivered (N - text.length % N) with hd
  rw [List.length_append] at hfit
  by_cases hlt : text.length < N
  · rw [Nat.mod_eq_of_lt hlt, hmem, List.take_left]
  · have hnil : d = [] := List.length_eq_zero_iff.mp (by omega)
    have hall : text.length = N := by omega
    rw [hnil, List.append_nil, List.append_nil, hall, Nat.mod_self, List.take_zero, List.nil_append,
      List.length_nil, Nat.add_zero, List.drop_zero, ← hall]
    exact hmem

/-- What an event can do: nothing comes and the connection is left, or the request is that of
the bytes received. -/
theorem Received.event (h : Received N capacity maxHeaders text c)
    (hevent : clientRequestEvent c socket = some (c', next)) :
    Sized N c'.buffer ∧
    ((socket.delivered (N - text.length % N) = [] ∧ (next = .abort ∨ next = .close)) ∨
    (withDelivered N text socket).length ≤ N ∧
      c'.buffer.buffer.take (withDelivered N text socket).length = withDelivered N text socket ∧
      let r := HttpRequest.ofText capacity maxHeaders (withDelivered N text socket)
      ((r.isFinished = true ∧ ∃ ok, processRequestHeaders r = some (c'.head, ok) ∧
        next = if ok then .work else .abort) ∨
      (r.isFinished = false ∧ r.hasError = true ∧ next = .abort) ∨
      (next = .stay ∧ Received N capacity maxHeaders (withDelivered N text socket) c'))) := by
  obtain ⟨⟨c₁, call, headNext⟩, hread, hnext⟩ := Option.bind_eq_some_iff.mp hevent
  have hsized : Sized N c₁.buffer := h.awaiting.sized hread
  have hbuffer : c'.buffer = c₁.buffer := by
    cases headNext with
    | finished =>
      obtain ⟨⟨request, ok⟩, -, hnext⟩ := Option.bind_eq_some_iff.mp hnext
      obtain ⟨rfl, -⟩ := Prod.mk.inj (Option.some.inj hnext)
      rfl
    | stay | bufferFull | readException | eof | parseError =>
      obtain ⟨rfl, -⟩ := Prod.mk.inj (Option.some.inj hnext)
      rfl
  refine ⟨hbuffer ▸ hsized, ?_⟩
  obtain ⟨hfull, -, -⟩ | ⟨-, buffer, result, hbuf, hcases⟩ := readHead_cases hread
  · have hpos := h.awaiting.filled.pos
    rw [h.awaiting.filled.bytesWritable] at hfull
    omega
  obtain ⟨hsized', hfront, hres, hback⟩ := h.awaiting.sized_of_read hbuf
  have hsize : result.size = (socket.delivered (N - text.length % N)).length := by
    rw [hres, socket.size_result]
  obtain ⟨herr, rfl, rfl⟩ | ⟨-, -, hzero, -, rfl, rfl⟩ | ⟨-, -, hle, hle', hb, hhead, hheadNext⟩ := hcases
  · obtain ⟨-, rfl⟩ := Prod.mk.inj (Option.some.inj hnext)
    refine .inl ⟨?_, .inl rfl⟩
    cases socket with
    | data bytes =>
      rw [hres] at herr
      cases herr
    | fail e => rfl
  · obtain ⟨-, rfl⟩ := Prod.mk.inj (Option.some.inj hnext)
    rw [hsize] at hzero
    exact .inl ⟨List.length_eq_zero_iff.mp (by omega), .inr rfl⟩
  have hfit : (withDelivered N text socket).length ≤ N := by
    rw [IoRingBuffer.size, hsized'.size_eq, hback] at hle'
    rw [withDelivered, List.length_append]
    omega
  obtain ⟨mem, hstore, hread'⟩ := h.awaiting.filled.bufferRead socket
  have hmem := h.mem_read hstore hfit
  rw [hread'] at hbuf
  obtain ⟨rfl, -⟩ := Prod.mk.inj (Option.some.inj hbuf)
  refine .inr ⟨hfit, by rw [hbuffer, hb]; exact hmem, ?_⟩
  have hreq : c₁.head = .ofText capacity maxHeaders (withDelivered N text socket) := by
    rw [hhead, h.head, hsize, hback]
    have hoff : ((text.length + (socket.delivered (N - text.length % N)).length : Nat) -
        ((socket.delivered (N - text.length % N)).length : Int)).toNat = text.length := by omega
    rw [hoff, Int.toNat_natCast]
    exact HttpRequest.parse_ofText h.live hmem
  have hfin : Head.isFinished c₁.head = c₁.head.isFinished := rfl
  have herror : Head.hasError c₁.head = c₁.head.hasError := rfl
  rw [hfin, herror, hreq] at hheadNext
  simp only
  cases hdone : (HttpRequest.ofText capacity maxHeaders (withDelivered N text socket)).isFinished with
  | true =>
    simp only [hdone, if_true] at hheadNext
    subst hheadNext
    obtain ⟨⟨request, ok⟩, hproc, hnext⟩ := Option.bind_eq_some_iff.mp hnext
    obtain ⟨rfl, rfl⟩ := Prod.mk.inj (Option.some.inj hnext)
    rw [hreq] at hproc
    exact .inl ⟨rfl, ok, hproc, rfl⟩
  | false =>
    cases herr : (HttpRequest.ofText capacity maxHeaders (withDelivered N text socket)).hasError with
    | true =>
      simp only [hdone, herr, Bool.false_eq_true, if_false, if_true] at hheadNext
      subst hheadNext
      obtain ⟨-, rfl⟩ := Prod.mk.inj (Option.some.inj hnext)
      exact .inr (.inl ⟨rfl, rfl, rfl⟩)
    | false =>
      simp only [hdone, herr, Bool.false_eq_true, if_false] at hheadNext
      subst hheadNext
      obtain ⟨rfl, rfl⟩ := Prod.mk.inj (Option.some.inj hnext)
      refine .inr (.inr ⟨rfl, ⟨?_, hfit, ?_, ?_⟩, ?_, hreq⟩)
      · have hle2 := hsized.le_two_pow
        refine ⟨hsized, ?_, ?_, le_rfl, by omega, by omega⟩
        · rw [hb, hback, withDelivered, List.length_append]
        · rw [hb]
          change _ + result.size = _
          rw [hfront, h.awaiting.filled.front_eq, hsize, withDelivered, List.length_append]
          omega
      · rw [hreq]
        exact hdone
      · rw [hreq]
        exact herr
      · rw [hb]
        exact hmem

/-- What `process_request_headers` changes of a request that it accepts is its path. -/
theorem processRequestHeaders_cases {r r' : HttpRequest} (hpath : RequestMemory.PathStored r)
    (h : processRequestHeaders r = some (r', true)) :
    ∃ path mem, r.requestPath = some path ∧ normalise [] path = some (cString mem) ∧
      r' = { r with requestPath := some (mem.take path.length) } := by
  unfold processRequestHeaders at h
  split at h
  · simp at h
  · rename_i path hsome
    obtain ⟨⟨ret, mem⟩, hsan, hr'⟩ := Option.map_eq_some_iff.mp h
    obtain ⟨rfl, hret⟩ := Prod.mk.inj hr'
    have hp := hpath path hsome
    have hnul : 0 ∉ path := fun h0 => absurd (hp.bytes 0 h0) (by decide)
    have hagrees := sanitizePath_agrees hp.slash hnul
    have hzero : ret = 0 := by
      rw [hsan] at hagrees
      cases hnorm : normalise [] path with
      | none =>
        rw [hnorm] at hagrees
        obtain ⟨mem', hmem⟩ := hagrees
        simp_all
      | some path' =>
        rw [hnorm] at hagrees
        obtain ⟨tail, hmem⟩ := hagrees
        simp_all
    subst hzero
    exact ⟨path, mem, hsome, (sanitizePath_accepts hp.slash hnul hsan).1, rfl⟩

theorem lineStored_processRequestHeaders {r r' : HttpRequest} (hpath : RequestMemory.PathStored r)
    (hline : r.LineStored) (h : processRequestHeaders r = some (r', true)) : r'.LineStored := by
  obtain ⟨path, mem, hsome, hnorm, rfl⟩ := processRequestHeaders_cases hpath h
  have hp := hpath path hsome
  refine ⟨hline.method, ?_, hline.version⟩
  intro w hw
  obtain rfl := Option.some.inj hw
  have hnot : 10 ∉ cString mem := by
    refine notMem_normalise (by simp) ?_ hnorm
    exact fun hmem => absurd (hp.bytes 10 hmem) (by decide)
  have hsubset : cString (mem.take path.length) ⊆ cString mem := by
    have hmem : (mem.take path.length ++ mem.drop path.length).takeWhile (· ≠ 0) = _ :=
      List.takeWhile_append
    rw [List.take_append_drop] at hmem
    rw [cString, cString, hmem]
    split_ifs
    · exact List.subset_append_of_subset_left _ (List.takeWhile_sublist _).subset
    · exact List.Subset.refl _
  exact fun hmem => hnot (hsubset hmem)

end
end Latypus.Server
