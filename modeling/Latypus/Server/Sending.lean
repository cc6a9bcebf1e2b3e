import Latypus.Http.ToBuffer
import Latypus.Server.Framing

/-! A response under way: what each event of the connection puts on the wire, as long as the reader
and the socket make progress and every refill fits. -/

namespace Latypus.Http

theorem HeaderStore.sizes_setHeaderField (s : HeaderStore) (name value : Bytes) :
    (s.setHeaderField name value).1.capacity = s.capacity ∧
      (s.setHeaderField name value).1.maxHeaders = s.maxHeaders := by
  unfold setHeaderField
  cases s.headerMap.lookup name <;> simp only <;> split_ifs <;> exact ⟨rfl, rfl⟩

/-- No call changes the sizes of the storage. -/
theorem HttpResponse.reset_calls (r : HttpResponse) (calls : List ResponseCall) :
    (calls.foldl HttpResponse.call r).reset = r.reset := by
  have hfield := HeaderStore.sizes_setHeaderField
  induction calls generalizing r with
  | nil => rfl
  | cons call calls ih =>
    rw [List.foldl_cons, ih]
    cases call with
    | setStatusCode code => rfl
    | setHttpVersion str | setReasonPhrase str =>
      simp only [call, reset, HeaderStore.allocString]
      split_ifs <;> rfl
    | setHeaderField name value =>
      obtain ⟨hcapacity, hmax⟩ := hfield r.store name value
      simp only [call, reset, hcapacity, hmax]

end Latypus.Http

namespace Latypus.Server
open Lib Io Http

namespace BodyConn

/-- What has been sent before is no part of what an event does. -/
theorem handleStateServerBody_sent (s : BodyConn) (e : BodyEvent) (t : Bytes) :
    ({ s with sent := t ++ s.sent } : BodyConn).handleStateServerBody e =
      (s.handleStateServerBody e).map fun s' => { s' with sent := t ++ s'.sent } := by
  have hbody : ({ s with sent := t ++ s.sent } : BodyConn).writeResponseBody e =
      (s.writeResponseBody e).map fun p => ({ p.1 with sent := t ++ p.1.sent }, p.2) := by
    cases hreader : s.reader with
    | none => simp only [writeResponseBody, hreader, Option.map_some]
    | some body =>
      simp only [writeResponseBody, hreader, refill, Option.bind_eq_bind]
      cases s.buffer.bufferRead (readerOutcome body e.read) <;> rfl
  simp only [handleStateServerBody, hbody, Option.bind_eq_bind]
  cases s.writeResponseBody e with
  | none => rfl
  | some p =>
    obtain ⟨s₁, result⟩ := p
    simp only [Option.map_some, Option.bind_some, Option.pure_def]
    split_ifs with herr hpos
    · rfl
    · cases s₁.buffer.bufferWrite e.write with
      | none => rfl
      | some w =>
        simp only [Option.bind_some]
        split_ifs <;> simp [endRequest, List.append_assoc]
    · rfl

theorem reader_of_none {s s' : BodyConn} {e : BodyEvent} (hnone : s.reader = none)
    (h : s.handleStateServerBody e = some s') : s'.reader = none := by
  simp only [handleStateServerBody, writeResponseBody, hnone, Option.bind_eq_bind, Option.bind_some,
    Option.pure_def] at h
  split_ifs at h
  · obtain rfl := Option.some.inj h
    rfl
  · obtain ⟨⟨b, taken, r⟩, -, h⟩ := Option.bind_eq_some_iff.mp h
    simp only at h
    split_ifs at h <;> obtain rfl := Option.some.inj h <;> rfl
  · obtain rfl := Option.some.inj h
    exact hnone

end BodyConn

/-- An event in which nothing fails. -/
def BodyEvent.progress (chunk count : Nat) : BodyEvent := ⟨.chunk chunk, .accept count, true⟩

namespace Serving
variable {N got put chunk count : Nat} {S : List UInt8} {s : BodyConn}

/-- An event with progress takes the stream on, or finds that all of it is out. -/
theorem step_progress (h : Serving N S got put s) (hS : N + 2 * S.length < 2 ^ 63) (hended : s.ended = false)
    (hstay : s.next = .stay) (hclose : s.connectionClose = false) (hchunk : 0 < chunk) (hcount : 0 < count)
    (hfit : RefillFits s (.progress chunk count)) :
    ∃ s', s.handleStateServerBody (.progress chunk count) = some s' ∧
      ((∃ got' put', got < got' ∧ put' ≤ got + N ∧ Serving N S got' put' s' ∧ s'.next = .stay ∧
          s'.connectionClose = false ∧ s'.ended = false) ∨
        (got = S.length ∧ s'.next = .keepalive ∧ Sized N s'.buffer ∧ s'.sent = s.sent)) := by
  have hlegal : (BodyEvent.progress chunk count).Legal :=
    ⟨by simpa [BodyEvent.progress] using hchunk.ne', by simp [BodyEvent.progress],
      by simpa [BodyEvent.progress] using hcount.ne', by simp [BodyEvent.progress]⟩
  obtain ⟨s₁, result, n, hbody, h₁, hnext₁, hrest⟩ := h.writeResponseBody hS hlegal hfit
  -- the refill touches the buffer and the reader only
  obtain ⟨herr, hclose₁, hended₁, hsent₁⟩ : result.hasError = false ∧ s₁.connectionClose = false ∧
      s₁.ended = false ∧ s₁.sent = s.sent := by
    unfold BodyConn.writeResponseBody at hbody
    split at hbody
    · obtain ⟨rfl, rfl⟩ := Prod.mk.inj (Option.some.inj hbody)
      exact ⟨rfl, hclose, hended, rfl⟩
    · obtain ⟨⟨b, r⟩, hread, hbody⟩ := Option.bind_eq_some_iff.mp hbody
      obtain ⟨rfl, rfl⟩ := Prod.mk.inj (Option.some.inj hbody)
      exact ⟨hasError_bufferRead hread, hclose, hended, rfl⟩
  rw [hstay] at hnext₁
  simp only [BodyConn.handleStateServerBody, hbody, Option.bind_eq_bind, Option.bind_some, Option.pure_def, herr,
    Bool.false_eq_true, if_false, h₁.filled.bytesReadable]
  by_cases hlt : got < put + n
  · obtain ⟨buffer, taken, written, hwrite, hsize, htaken, h₂⟩ :=
      h₁.write (BodyEvent.progress chunk count).write hlt hended₁
    have hwerr : written.hasError = false := hasError_bufferWrite hwrite
    have hne := htaken hwerr hlegal.2.2.1 hlegal.2.2.2
    have hpos := List.length_pos_of_ne_nil hne
    rw [if_pos (by omega)]
    simp only [hwrite, Option.bind_some, hwerr, Bool.false_eq_true, if_false]
    rw [if_pos (by omega)]
    exact ⟨_, rfl, .inl ⟨got + taken.length, put + n, by omega, h₁.filled.fits, h₂, hnext₁, hclose₁, hended₁⟩⟩
  · rw [if_neg (by omega)]
    have hle := h₁.filled.le
    have hput := h₁.put_le
    have hle' := h.filled.le
    have hfull := hrest herr (by omega)
    refine ⟨_, rfl, .inr ⟨by omega, ?_, h₁.filled.toSized, hsent₁⟩⟩
    simp [BodyConn.endRequest, BodyEvent.progress, hclose₁]

end Serving

namespace Session

/-- The connection as the body handler sees it. -/
def bodyConn (s : Session) (sent : Bytes) : BodyConn :=
  ⟨s.buffer, if s.state = .serverBody then s.reader else none, sent, s.connectionClose, false, .stay⟩

/-- What an event puts on the wire. -/
def sent (s : Session) (e : BodyEvent) : Bytes :=
  (((s.bodyConn []).handleStateServerBody e).map BodyConn.sent).getD []

/-- `got` bytes of the response `S` are on the wire, and `put` of them have entered the buffer. -/
structure Sends (N : Nat) (S : Bytes) (got put : Nat) (s : Session) : Prop where
  state : s.state = .serverResponse ∨ s.state = .serverBody
  keeps : s.connectionClose = false
  serving : Serving N S got put (s.bodyConn (S.take got))
  room : put < got + N

theorem writeResponse_eq (s : Session) (e : BodyEvent) :
    s.writeResponse e = ((s.bodyConn []).handleStateServerBody e).bind fun b =>
      let s := { s with buffer := b.buffer, reader := if s.state = .serverBody then b.reader else s.reader }
      match b.next with
      | .stay => some (s, false)
      | .close => some ({ s with state := .closed }, true)
      | .keepalive => some ({ s with state := .waiting, buffer := s.buffer.reset }, true)
      | .abort | .work => some ({ s with state := .closed }, false) := rfl

variable {N got put chunk count : Nat} {S : Bytes} {s : Session}

theorem Sends.step (h : s.Sends N S got put) (hS : N + 2 * S.length < 2 ^ 63) (hchunk : 0 < chunk)
    (hcount : 0 < count) (hfit : RefillFits (s.bodyConn []) (.progress chunk count)) :
    ∃ s' counted, s.writeResponse (.progress chunk count) = some (s', counted) ∧ s'.request = s.request ∧
      ((∃ got' put', got < got' ∧ s'.Sends N S got' put' ∧
          S.take got ++ s.sent (.progress chunk count) = S.take got') ∨
        (got = S.length ∧ s'.state = .waiting ∧ Fresh N s'.buffer ∧ s.sent (.progress chunk count) = [])) := by
  have hfit' : RefillFits (s.bodyConn (S.take got)) (.progress chunk count) := hfit
  obtain ⟨b, hbody, hcases⟩ := h.serving.step_progress hS rfl rfl h.keeps hchunk hcount hfit'
  have hprefix := (s.bodyConn []).handleStateServerBody_sent (.progress chunk count) (S.take got)
  have hsame : ({ s.bodyConn [] with sent := S.take got ++ (s.bodyConn []).sent } : BodyConn) =
      s.bodyConn (S.take got) := by simp [bodyConn]
  rw [hsame, hbody] at hprefix
  obtain ⟨b₀, hbody₀, rfl⟩ := Option.map_eq_some_iff.mp hprefix.symm
  have hsent : s.sent (.progress chunk count) = b₀.sent := by rw [Session.sent, hbody₀]; rfl
  have hwrite := s.writeResponse_eq (.progress chunk count)
  rw [hbody₀, Option.bind_some] at hwrite
  obtain ⟨got', put', hlt, hle, hserving, hnext, hclose, hended⟩ | ⟨hall, hnext, hsized, hnone⟩ := hcases
  · dsimp only at hnext hclose hended
    simp only [hnext] at hwrite
    have hreader : (if s.state = .serverBody then if s.state = .serverBody then b₀.reader else s.reader else none) =
        b₀.reader := by
      split_ifs with hstate
      · rfl
      · exact (BodyConn.reader_of_none (by simp [bodyConn, hstate]) hbody₀).symm
    have htake := hserving.sent_eq
    refine ⟨_, _, hwrite, rfl, .inl ⟨got', put', hlt, ⟨h.state, h.keeps, ?_, by omega⟩, by rw [hsent]; exact htake⟩⟩
    have hconn : ({ b₀ with sent := S.take got ++ b₀.sent } : BodyConn) =
        ⟨b₀.buffer, b₀.reader, S.take got', s.connectionClose, false, .stay⟩ := by
      dsimp only at htake
      rw [htake, h.keeps]
      cases b₀
      simp_all
    rw [hconn] at hserving
    simpa only [bodyConn, hreader] using hserving
  · dsimp only at hnext hnone
    rw [hnext] at hwrite
    refine ⟨_, _, hwrite, rfl, .inr ⟨hall, rfl, Fresh.reset hsized, ?_⟩⟩
    rw [hsent]
    simpa [bodyConn] using hnone

/-- The response on the wire: its head, and the body that the reader holds. -/
def responseText (method : Bytes) (reply : Reply) (header : Bytes) : Bytes :=
  header ++ if responseHasBody method reply.statusCode then reply.reader.getD [] else []

/-- The worker puts the head in the buffer, and the response can be sent. -/
theorem workerProcessRequest_sends {reply : Reply} {version method header : Bytes} (hb : Sized N s.buffer)
    (hversion : s.request.httpVersion = some version) (hmethod : s.request.requestMethod = some method)
    (hkeeps : closesConnection version (s.request.store.getHeaderString headerConnection) = false)
    (hheader : (reply.calls.foldl HttpResponse.call s.response.reset).toBuffer N = some header) (hne : header ≠ [])
    (hS : N + 2 * (responseText method reply header).length < 2 ^ 63) :
    ∃ s', s.workerProcessRequest reply = some s' ∧ s'.Sends N (responseText method reply header) 0 header.length ∧
      s'.request = s.request ∧ s'.response.reset = s.response.reset := by
  have hlen : header.length < N := by
    rw [HttpResponse.toBuffer_eq, Option.filter_eq_some_iff] at hheader
    simpa using hheader.2
  have hpos := List.length_pos_of_ne_nil hne
  have hfresh := Fresh.reset hb
  obtain ⟨b, hpop⟩ : ∃ b, populateBuffer s.buffer header = some b := by
    have hstore : store s.buffer.reset.buffer 0 header = some _ :=
      store_eq_some.mpr ⟨by rw [hfresh.size_eq]; omega, rfl⟩
    exact ⟨_, by rw [populateBuffer, hstore]; rfl⟩
  have hpopulated : populateResponseHeaders s.buffer s.response.reset reply.calls true =
      some ⟨b, reply.calls.foldl HttpResponse.call s.response.reset, some header.length, 0⟩ := by
    simp only [populateResponseHeaders, IoRingBuffer.size, hb.size_eq, hheader, hpop]
    rfl
  have hwork : s.workerProcessRequest reply = some { s with
      buffer := b, response := reply.calls.foldl HttpResponse.call s.response.reset, reader := reply.reader
      connectionClose := false
      state := if responseHasBody method reply.statusCode then .serverBody else .serverResponse } := by
    simp only [workerProcessRequest, hversion, hmethod, hpopulated, Option.bind_eq_bind, Option.bind_some, hkeeps,
      Option.getD_some, if_pos hpos]
  refine ⟨_, hwork, ⟨?_, rfl, ?_, by omega⟩, rfl, HttpResponse.reset_calls _ _⟩
  · dsimp only
    split_ifs
    · exact .inr rfl
    · exact .inl rfl
  · refine Serving.init hfresh hlen hS hpop ?_ rfl rfl
    cases responseHasBody method reply.statusCode <;> simp [bodyConn]

/-! ### Between two responses -/

/-- `t` of the next request has been read; a response that is out may not have been ended yet. -/
inductive Listens (cfg : ServerConfig) (t : Bytes) (s : Session) : Prop
  | reading (state : s.state = .clientRequest)
    (received : Received cfg.ioBufferSize cfg.headerBufferSize cfg.maxHeaders t ⟨s.buffer, s.request⟩)
  | waiting (state : s.state = .waiting) (nil : t = []) (fresh : Fresh cfg.ioBufferSize s.buffer)
    (reset_eq : s.request.reset = .resize cfg.headerBufferSize cfg.maxHeaders)
  | sending {S : Bytes} {put : Nat} (nil : t = []) (sends : s.Sends cfg.ioBufferSize S S.length put)
    (small : cfg.ioBufferSize + 2 * S.length < 2 ^ 63)
    (reset_eq : s.request.reset = .resize cfg.headerBufferSize cfg.maxHeaders)

/-- The head of `q` has been read, and nothing is left of what came with it. -/
structure Works (cfg : ServerConfig) (q : RequestText) (s : Session) : Prop where
  state : s.state = .working
  sized : Sized cfg.ioBufferSize s.buffer
  processed : q.processed cfg = some (s.request, true)
  reset_eq : s.request.reset = .resize cfg.headerBufferSize cfg.maxHeaders
  keeps : ∃ version, s.request.httpVersion = some version ∧
    closesConnection version (s.request.store.getHeaderString headerConnection) = false

theorem Works.fields {cfg : ServerConfig} {q : RequestText} {s : Session} (h : s.Works cfg q) :
    headFields s.request = (q.work cfg).1 := by
  rw [RequestText.work, h.processed]
  rfl

/-- The response is filled by a worker only. -/
theorem response_step {s s' : Session} {e : SessionEvent} {counted : Bool} (h : s.step e = some (s', counted))
    (he : ∀ reply, e ≠ .work reply) : s'.response = s.response := by
  match e with
  | .work reply => exact absurd rfl (he reply)
  | .read socket =>
    obtain ⟨-, hread⟩ := step_read h
    obtain ⟨⟨c, next⟩, -, hread⟩ := Option.bind_eq_some_iff.mp hread
    obtain rfl := Option.some.inj hread
    rfl
  | .write e =>
    obtain ⟨-, hwrite⟩ := step_write h
    obtain ⟨b, -, hwrite⟩ := Option.bind_eq_some_iff.mp hwrite
    simp only at hwrite
    split at hwrite <;> obtain ⟨rfl, -⟩ := Prod.mk.inj (Option.some.inj hwrite) <;> rfl
  | .wake =>
    obtain ⟨-, rfl⟩ := step_wake h
    rfl
  | .drop =>
    cases hstate : s.state <;> simp only [step, hstate] at h <;> cases h <;> rfl

end Session

/-- The read that ends a request without a body leaves what the head is processed to. -/
theorem RequestText.WellFormed.event_processed {cfg : ServerConfig} {q : RequestText} {text : Bytes}
    {c c' : HeadConn HttpRequest} {socket : ReaderOutcome} {next : Next} (h : q.WellFormed cfg)
    (hpath : q.PathAccepted cfg) (htext : Received cfg.ioBufferSize cfg.headerBufferSize cfg.maxHeaders text c)
    (hevent : clientRequestEvent c socket = some (c', next))
    (hne : socket.delivered (cfg.ioBufferSize - text.length % cfg.ioBufferSize) ≠ [])
    (hall : withDelivered cfg.ioBufferSize text socket = q.head) : q.processed cfg = some (c'.head, true) := by
  have hfin : (HttpRequest.ofText cfg.headerBufferSize cfg.maxHeaders q.head).isFinished = true := h.finished
  obtain ⟨-, ⟨hnil, -⟩ | ⟨-, -, hcases⟩⟩ := htext.event hevent
  · exact absurd hnil hne
  rw [hall] at hcases
  obtain ⟨-, ok, hproc, -⟩ | ⟨hfalse, -⟩ | ⟨-, hreceived⟩ := hcases
  · obtain ⟨r, hr⟩ := hpath
    have hproc : q.processed cfg = some (c'.head, ok) := hproc
    obtain ⟨-, rfl⟩ := Prod.mk.inj (Option.some.inj (hr.symm.trans hproc))
    exact hproc
  · simp [hfin] at hfalse
  · have hnot : c'.head.isFinished = false := hreceived.awaiting.notFinished
    rw [hreceived.head, hfin] at hnot
    cases hnot

namespace Session

section Listens
variable {cfg : ServerConfig} {t : Bytes} {s s' : Session} {counted : Bool}

theorem Listens.not_working (h : s.Listens cfg t) : s.state ≠ .working := by
  cases h with
  | reading state | waiting state => simp [state]
  | sending nil sends => obtain hstate | hstate := sends.state <;> simp [hstate]

theorem Listens.write (h : s.Listens cfg t) (hchunk : 0 < chunk) (hcount : 0 < count)
    (hfit : RefillFits (s.bodyConn []) (.progress chunk count))
    (hstep : s.step (.write (.progress chunk count)) = some (s', counted)) :
    s'.Listens cfg t ∧ s.sent (.progress chunk count) = [] := by
  obtain ⟨hstate, hwrite⟩ := step_write hstep
  cases h with
  | reading state => rw [state] at hstate; simp at hstate
  | waiting state => rw [state] at hstate; simp at hstate
  | sending nil sends small reset_eq =>
    obtain ⟨s'', counted', hwrite', hreq, hcases⟩ := sends.step small hchunk hcount hfit
    obtain ⟨rfl, -⟩ := Prod.mk.inj (Option.some.inj (hwrite'.symm.trans hwrite))
    rw [← hreq] at reset_eq
    obtain ⟨got', put', hlt, hsends, -⟩ | ⟨-, hwaiting, hfresh, hnone⟩ := hcases
    · have hle := hsends.serving.filled.le
      have hput := hsends.serving.put_le
      omega
    · exact ⟨.waiting hwaiting nil hfresh reset_eq, hnone⟩

theorem Listens.wake (h : s.Listens cfg t) (hstep : s.step .wake = some (s', counted)) :
    s'.Listens cfg t := by
  obtain ⟨hstate, rfl⟩ := step_wake hstep
  cases h with
  | reading state => cases state.symm.trans hstate
  | sending nil sends =>
    obtain hother | hother := sends.state <;> cases hother.symm.trans hstate
  | waiting state nil fresh reset_eq =>
    subst nil
    refine .reading rfl ?_
    change Received _ _ _ [] ⟨s.buffer, s.request.reset⟩
    rw [reset_eq]
    exact received_nil fresh

/-- The response is on the wire up to `got`, or it is out and the connection listens again. -/
def Replies (cfg : ServerConfig) (response : Bytes) (got : Nat) (s : Session) : Prop :=
  (∃ put, s.Sends cfg.ioBufferSize response got put ∧ s.request.reset = .resize cfg.headerBufferSize cfg.maxHeaders) ∨
    (got = response.length ∧ s.Listens cfg [])

theorem Replies.not_working {response : Bytes} {got : Nat} (h : s.Replies cfg response got) : s.state ≠ .working := by
  obtain ⟨put, hsends, -⟩ | ⟨-, hlistens⟩ := h
  · obtain hstate | hstate := hsends.state <;> simp [hstate]
  · exact hlistens.not_working

theorem Replies.write {response : Bytes} {got : Nat} (h : s.Replies cfg response got)
    (hsmall : cfg.ioBufferSize + 2 * response.length < 2 ^ 63) (hchunk : 0 < chunk) (hcount : 0 < count)
    (hfit : RefillFits (s.bodyConn []) (.progress chunk count))
    (hstep : s.step (.write (.progress chunk count)) = some (s', counted)) :
    ∃ got', s'.Replies cfg response got' ∧
      response.take got ++ s.sent (.progress chunk count) = response.take got' := by
  obtain ⟨put, hsends, hreset⟩ | ⟨hgot, hlistens⟩ := h
  · obtain ⟨-, hwrite⟩ := step_write hstep
    obtain ⟨s'', counted', hwrite', hreq, hcases⟩ := hsends.step hsmall hchunk hcount hfit
    obtain ⟨rfl, -⟩ := Prod.mk.inj (Option.some.inj (hwrite'.symm.trans hwrite))
    rw [← hreq] at hreset
    obtain ⟨got', put', -, hsends', hsent⟩ | ⟨hgot, hwaiting, hfresh, hnone⟩ := hcases
    · exact ⟨got', .inl ⟨put', hsends', hreset⟩, hsent⟩
    · exact ⟨got, .inr ⟨hgot, .waiting hwaiting rfl hfresh hreset⟩, by rw [hnone, List.append_nil]⟩
  · obtain ⟨hlistens', hnone⟩ := hlistens.write hchunk hcount hfit hstep
    exact ⟨got, .inr ⟨hgot, hlistens'⟩, by rw [hnone, List.append_nil]⟩

theorem Replies.wake {response : Bytes} {got : Nat} (h : s.Replies cfg response got)
    (hstep : s.step .wake = some (s', counted)) : s'.Replies cfg response got := by
  obtain ⟨hstate, -⟩ := step_wake hstep
  obtain ⟨put, hsends, -⟩ | ⟨hgot, hlistens⟩ := h
  · obtain hother | hother := hsends.state <;> cases hother.symm.trans hstate
  · exact .inr ⟨hgot, hlistens.wake hstep⟩

/-- A response that is out. -/
theorem Replies.listens {response : Bytes} {got : Nat} (h : s.Replies cfg response got)
    (hsmall : cfg.ioBufferSize + 2 * response.length < 2 ^ 63) (hall : response.length ≤ got) : s.Listens cfg [] := by
  obtain ⟨put, hsends, hreset⟩ | ⟨-, hlistens⟩ := h
  · have hle := hsends.serving.filled.le
    have hput := hsends.serving.put_le
    obtain rfl : got = response.length := by omega
    exact .sending rfl hsends hsmall hreset
  · exact hlistens

/-- A read on a connection that listens takes the head on, or to its end. -/
theorem Listens.read {q : RequestText} {up : Bytes} {n : Nat} (h : s.Listens cfg t) (hwf : q.WellFormed cfg)
    (hpath : q.PathAccepted cfg) (hbody : q.body = []) (hpre : t ++ up <+: q.head)
    (hn : 0 < n) (hup : up ≠ []) (hstep : s.step (.read (.data (up.take n))) = some (s', counted)) :
    let d := (up.take n).take s.buffer.bytesToRead
    d <+: up ∧ d ≠ [] ∧
      (((t ++ d).length < q.head.length ∧ s'.Listens cfg (t ++ d)) ∨ (t ++ d = q.head ∧ s'.Works cfg q)) := by
  intro d
  obtain ⟨hstate, hread⟩ := step_read hstep
  obtain ⟨⟨c, next⟩, hevent, hread⟩ := Option.bind_eq_some_iff.mp hread
  obtain rfl := Option.some.inj hread
  cases h with
  | waiting state => cases state.symm.trans hstate
  | sending nil sends =>
    obtain hother | hother := sends.state <;> cases hother.symm.trans hstate
  | reading state received =>
    have hfit := hwf.fits
    have hroom : s.buffer.bytesToRead = cfg.ioBufferSize - t.length % cfg.ioBufferSize :=
      received.awaiting.filled.bytesToRead
    have hddown : d <+: up := (List.take_prefix _ _).trans (List.take_prefix _ _)
    have hdelivered : (ReaderOutcome.data (up.take n)).delivered (cfg.ioBufferSize - t.length % cfg.ioBufferSize) =
        d := by
      rw [← hroom]
      rfl
    have hne : d ≠ [] := by
      have hpos : 0 < cfg.ioBufferSize - t.length % cfg.ioBufferSize := by
        have := Nat.mod_lt t.length received.awaiting.filled.pos
        omega
      change (up.take n).take s.buffer.bytesToRead ≠ []
      rw [hroom, Ne, List.take_eq_nil_iff, List.take_eq_nil_iff]
      rintro (h0 | h0 | h0)
      · omega
      · omega
      · exact hup h0
    have hwith : withDelivered cfg.ioBufferSize t (.data (up.take n)) = t ++ d := by rw [withDelivered, hdelivered]
    have hall : t ++ d <+: q.head := ((List.prefix_append_right_inj t).mpr hddown).trans hpre
    refine ⟨hddown, hne, ?_⟩
    rw [← hdelivered] at hne
    rcases hall.length_le.lt_or_eq with hinside | hends
    · rw [← hwith] at hall hinside
      obtain ⟨rfl, hreceived⟩ := hwf.event_inside received hevent hne hall hinside
      rw [hwith] at hinside hreceived
      exact .inl ⟨hinside, .reading rfl hreceived⟩
    · have hwhole : t ++ d = q.head := hall.eq_of_length hends
      have hbytes : withDelivered cfg.ioBufferSize t (.data (up.take n)) = q.bytes := by
        rw [hwith, hwhole, RequestText.bytes, hbody, List.append_nil]
      obtain ⟨rfl, hsized, -, hreset, hversion⟩ := hwf.event_ends hpath received hevent hne hbytes
      exact .inr ⟨hwhole, rfl, hsized, hwf.event_processed hpath received hevent hne (hwith.trans hwhole),
        hreset, hversion⟩

end Listens
end Session
end Latypus.Server
