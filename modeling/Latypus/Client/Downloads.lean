import Latypus.Client.Progress
import Latypus.Server.FileReply

/-! Exchanges with a server that answers from its files. What a client stores is the file that the path of the
URL leads to by the virtual hosts and the locations of the server, or the page that tells why there is none. -/

namespace Latypus.Client
open Lib Io Http Net Server
open Config (ascii)

/-- There is room for a head of 256 bytes beside a type of length `n`, in the buffers of both sides. -/
structure HasRoom (client server : ServerConfig) (n : Nat) : Prop where
  serverFits : 256 + n < server.ioBufferSize
  serverCapacity : 256 + n ≤ server.headerBufferSize
  serverMax : 6 ≤ server.maxHeaders
  clientFits : 256 + n ≤ client.ioBufferSize
  clientCapacity : 2 * (256 + n) ≤ client.headerBufferSize
  clientMax : 6 ≤ client.maxHeaders
  small : server.ioBufferSize ≤ 2 ^ 61

/-- What a client is to get for `q`: the path in its normal form is translated, and the site has a body for it. -/
structure Expects (site : FileSite) (vhostMap : List (Bytes × Vhost)) (q : ClientRequest) (w : Bytes) : Prop where
  body : ∃ path query clean t, q.Asks path query ∧ normalise [] path = some clean ∧
    translatePath vhostMap (some q.url.host) clean = some t ∧
    w = if q.responseHasBody then
      site.body (some (site.locationIndex t.location)) t.pathTranslated (getMethodText q.method) else []

/-- The events of an exchange in which the workers answer from the files. -/
def FileSmooth (client server : ServerConfig) (site : FileSite) (vhostMap : List (Bytes × Vhost)) (s : Exchange) :
    ExchangeEvent → Prop
  | .work reply => ∃ now, Printable (site.gmtimeR now) ∧ site.reply vhostMap now s.session.request = some reply
  | e => Smooth client server s e

theorem strtoll_decimal {n : Nat} (h : n < 2 ^ 63) : strtoll (decimal n) = n := by
  obtain ⟨-, hdigits, hvalue⟩ := decimal_spec (n := (n : Int)) (Int.natCast_nonneg _)
  have hzero : 0 ∉ decimal (n : Int) := fun hmem => absurd (hdigits 0 hmem) (by decide)
  rw [strtoll, cString_of_notMem hzero, hvalue]
  omega

section Reply
variable {client server : ServerConfig} {site : FileSite} {vhostMap : List (Bytes × Vhost)} {n : Nat}
  {q : ClientRequest} {r : HttpRequest} {reply : Reply}

/-- The reply of the file handler answers the request, with the body that is expected. -/
theorem answers_of_reply (hsite : site.Servable n) (hroom : HasRoom client server n) (hq : Sendable client server q)
    (hr : q.requestText.processed server = some (r, true)) {now : Int} (hnow : Printable (site.gmtimeR now))
    (hreply : site.reply vhostMap now r = some reply) :
    (∃ head, Answers client server q reply head) ∧ Expects site vhostMap q (q.body reply) := by
  obtain ⟨path, query, stored, t, offset, body, hasks, hnorm, rfl⟩ := hq.request hr
  have hhost : q.fields.lookup headerHost = some q.url.host := by
    rw [ClientRequest.fields, List.lookup_cons_self]
  have hconnection : q.fields.lookup headerConnection = none := lookup_fields (by decide) (by decide)
  have hsince : q.fields.lookup headerIfModifiedSince = none := lookup_fields (by decide) (by decide)
  simp only [FileSite.reply, HeaderStore.getHeaderString, hhost, hconnection, Option.bind_eq_bind,
    Option.bind_some] at hreply
  obtain ⟨translated, htranslated, hreply⟩ := Option.bind_eq_some_iff.mp hreply
  split_ifs at hreply with hhandler
  have hstore : HeaderStore.getHeaderString
      ⟨server.headerBufferSize, offset, server.maxHeaders, q.fields, q.fields, false⟩ headerIfModifiedSince = none :=
    hsince
  obtain ⟨a, ha, hcarries⟩ := FileSite.handleRequest_carries hsite (some (site.locationIndex translated.location))
    translated.pathTranslated (getMethodText q.method) hstore
  rw [ha, Option.bind_some] at hreply
  obtain rfl : site.replyOf now a = reply := Option.some.inj hreply
  have hbody : q.body (site.replyOf now a) = if q.responseHasBody then
      site.body (some (site.locationIndex translated.location)) translated.pathTranslated (getMethodText q.method)
      else [] := by
    rw [ClientRequest.body]
    simp only [FileSite.replyOf, hcarries.reader, Option.getD_some]
  refine ⟨?_, ⟨path, _, cString stored, translated, hasks, hnorm, htranslated, hbody⟩⟩
  obtain ⟨hproper, hlength, hcount, hcontentLength, hkeepalive⟩ := hcarries.proper hnow
  have hsmall := hcarries.small
  have hlen : (q.body (site.replyOf now a)).length ≤ a.contentLength := by
    rw [hbody, hcarries.contentLength]
    split_ifs <;> simp
  have hmodified : a.statusCode ≠ statusNotModified := by
    rcases hcarries.statusCode_mem with hok | herr
    · rw [hok]
      decide
    · exact (errorStatuses_spec _ herr).2.2
  have hserver := hroom.serverFits
  have hcapacity := hroom.serverCapacity
  have hclient := hroom.clientCapacity
  refine ⟨hproper.head, hproper.serialised (hlength.trans hcapacity) (hcount.trans hroom.serverMax)
    (hlength.trans_lt hserver), ?_, ?_, fun hget => ?_, hlength.trans hroom.clientFits, ?_,
    hcount.trans hroom.clientMax, ?_⟩
  · have h304 : ((a.statusCode : Nat) : Int) ≠ 304 := by
      have hne : a.statusCode ≠ 304 := hmodified
      omega
    rw [Server.responseHasBody, getMethodType_text, ClientRequest.responseHasBody]
    by_cases hget : q.method = .get
    · rw [if_pos hget, hget]
      exact decide_eq_true h304
    rw [if_neg hget]
    by_cases hhead : q.method = .head
    · rw [if_pos hhead, hhead]
      rfl
    · rw [if_neg hhead]
      exact (decide_eq_true hhead).symm
  · rw [hkeepalive]
    exact show closesConnection version11 (some tokenKeepalive) = false by decide
  · rw [hcontentLength, Option.map_some, strtoll_decimal (by omega), hbody, if_pos hget, hcarries.contentLength]
  · omega
  · have hsize := hroom.small
    rw [List.length_append]
    omega

end Reply

/-! ### Runs -/

section Runs
variable {client server : ServerConfig} {site : FileSite} {vhostMap : List (Bytes × Vhost)} {n : Nat}
  {q : ClientRequest} {s s' : Exchange} {e : ExchangeEvent}

/-- Every reply has brought what is expected for its request. -/
def Fetched (site : FileSite) (vhostMap : List (Bytes × Vhost)) (s : Exchange) : Prop :=
  List.Forall₂ (fun q p => Expects site vhostMap q (q.body p.2)) (s.asked.take s.served.length) s.served

/-- A step serves nothing, or a worker serves a reply while nothing is submitted; without a new request the queue
gets no longer. -/
theorem served_of_step (hstep : (exchangeMachine client server q).step s e = some s') :
    ((s'.served = s.served ∧ ∃ more, s'.asked = s.asked ++ more) ∨
      ∃ reply f, e = .work reply ∧ s.session.state = .working ∧ s'.served = s.served ++ [(f, reply)] ∧
        s'.asked = s.asked) ∧ ((∀ q', e ≠ .submit q') → s'.queue <:+ s.queue) := by
  have hsame : s.asked = s.asked ++ [] := (List.append_nil _).symm
  have hqueue : (∀ q', e ≠ .submit q') → s.queue <:+ s.queue := fun _ => List.suffix_rfl
  match e with
  | .submit q =>
    simp only [exchangeMachine] at hstep
    split_ifs at hstep
    obtain rfl := Option.some.inj hstep
    exact ⟨.inl ⟨rfl, _, rfl⟩, fun h => absurd rfl (h q)⟩
  | .process =>
    simp only [exchangeMachine, Exchange.process] at hstep
    split at hstep
    · obtain ⟨p, -, hstep⟩ := Option.bind_eq_some_iff.mp hstep
      obtain rfl := Option.some.inj hstep
      exact ⟨.inl ⟨rfl, _, hsame⟩, hqueue⟩
    · cases hstep
  | .clientWrite count =>
    simp only [exchangeMachine, Exchange.clientWrite] at hstep
    split_ifs at hstep
    obtain ⟨p, -, hstep⟩ := Option.bind_eq_some_iff.mp hstep
    split_ifs at hstep <;> obtain rfl := Option.some.inj hstep <;> exact ⟨.inl ⟨rfl, _, hsame⟩, hqueue⟩
  | .serverRead n =>
    obtain ⟨p, -, hstep⟩ := Option.bind_eq_some_iff.mp hstep
    obtain rfl := Option.some.inj hstep
    exact ⟨.inl ⟨rfl, _, hsame⟩, hqueue⟩
  | .work reply =>
    obtain ⟨⟨session, counted⟩, hsession, hstep⟩ := Option.bind_eq_some_iff.mp hstep
    obtain rfl := Option.some.inj hstep
    exact ⟨.inr ⟨reply, _, rfl, (Session.step_work hsession).1, rfl, rfl⟩, hqueue⟩
  | .serverWrite chunk count =>
    obtain ⟨p, -, hstep⟩ := Option.bind_eq_some_iff.mp hstep
    obtain rfl := Option.some.inj hstep
    exact ⟨.inl ⟨rfl, _, hsame⟩, hqueue⟩
  | .wake =>
    obtain ⟨p, -, hstep⟩ := Option.bind_eq_some_iff.mp hstep
    obtain rfl := Option.some.inj hstep
    exact ⟨.inl ⟨rfl, _, hsame⟩, hqueue⟩
  | .clientRead n m k =>
    simp only [exchangeMachine, Exchange.clientRead] at hstep
    split_ifs at hstep
    obtain ⟨⟨conn, reads, next⟩, -, hstep⟩ := Option.bind_eq_some_iff.mp hstep
    cases next with
    | stay | abort =>
      obtain rfl := Option.some.inj hstep
      exact ⟨.inl ⟨rfl, _, hsame⟩, hqueue⟩
    | close | process =>
      obtain rfl := Option.some.inj hstep
      exact ⟨.inl ⟨rfl, _, hsame⟩, fun _ => List.drop_suffix _ _⟩

theorem Fetched.step (hfetched : Fetched site vhostMap s) (h : Synchronised client server s) (hsite : site.Servable n)
    (hroom : HasRoom client server n) (hok : FileSmooth client server site vhostMap s e)
    (hstep : (exchangeMachine client server q).step s e = some s') : Fetched site vhostMap s' := by
  have hle : s.served.length ≤ s.asked.length := by
    have hlen := h.understood.length_eq
    simp only [List.length_take, List.length_map] at hlen
    omega
  unfold Fetched at hfetched ⊢
  -- only the step in which a worker replies adds to what has been served
  obtain ⟨⟨hserved, more, hasked⟩ | ⟨reply, f, rfl, hstate, hserved, hasked⟩, -⟩ := served_of_step hstep
  · rw [hserved, hasked, List.take_append_of_le_length hle]
    exact hfetched
  · obtain ⟨p, hp, works, hlen⟩ := h.working hstate
    obtain ⟨now, hnow, hreply⟩ := hok
    have hsendable := h.sendable p (List.mem_of_mem_head? hp)
    have hexpects := (answers_of_reply hsite hroom hsendable works.processed hnow hreply).2
    have hnext : s.asked.take (s.served.length + 1) = s.asked.take s.served.length ++ [p] := h.take_asked hp hlen
    rw [hserved, hasked, List.length_append, List.length_singleton, hnext]
    exact List.rel_append hfetched (.cons hexpects .nil)

/-- The path of the URL leads to a location with the file handler. -/
def Routed (vhostMap : List (Bytes × Vhost)) (q : ClientRequest) : Prop :=
  ∀ path query clean, q.Asks path query → normalise [] path = some clean →
    ∃ t, translatePath vhostMap (some q.url.host) clean = some t ∧ t.handler = ascii "http_server_handler_file"

end Runs

/-! ### A file of two bytes -/

end Latypus.Client
