import Latypus.Client.ReadResponse
import Latypus.Io.Transfer

/-! The events of a client that reads a response from a socket on which its bytes arrive, piece by
piece. A read with no piece at hand is an `EAGAIN`, which the client takes for an error. -/

namespace Latypus.Client
open Lib Io Http Server

/-- What a read of at most `n` bytes finds in the pieces at hand. Where there are none, a TCP socket
does not return the `EAGAIN` but reads again, until there is one. -/
def arrived (down : Bytes) (n : Nat) : ReaderOutcome :=
  if down.take n = [] then .fail eagain else .data (down.take n)

theorem arrived_of_ne_nil {down : Bytes} {n : Nat} (hn : 0 < n) (hdown : down ≠ []) :
    arrived down n = .data (down.take n) ∧ down.take n ≠ [] := by
  have hne : down.take n ≠ [] := by simp [hn.ne', hdown]
  exact ⟨if_neg hne, hne⟩

namespace ClientConn

/-- An event of a connection on which `down` has arrived: the reads find at most `n` and `m` bytes, and the
file takes at most `k`. -/
def readEvent (c : ClientConn) (down : Bytes) (n m k : Nat) : Option (ClientConn × List IoResult × ClientNext) :=
  match c.state with
  | .serverResponse =>
    let d := (arrived down n).delivered c.buffer.bytesToRead
    c.handleStateServerResponse (arrived down n) (arrived (down.drop d.length) m) (.accept k)
  | .serverBody => c.handleStateServerBody (arrived down n) (.accept k)

/-- The bytes `r` of a response with the given head and body have been read, and what of them is body
stands in the file. -/
inductive Reads (N : Nat) (response : HttpResponse) (head : ResponseHead) (body : Bytes) : Bytes → ClientConn → Prop
  | head {r : Bytes} {c : ClientConn} (state : c.state = .serverResponse) (lt : r.length < head.bytes.length)
    (pre : r <+: head.bytes) (received : ReceivedHead N response r ⟨c.buffer, c.response⟩) (file : c.file = some [])
    (noBody : c.responseHasBody = false → body = []) (announces : c.responseHasBody = true → Announces head body) :
    Reads N response head body r c
  | body {total : Nat} {c : ClientConn} (state : c.state = .serverBody) (lt : total < body.length)
    (fresh : Fresh N c.buffer) (sizes : SameSizes response c.response) (file : c.file = some (body.take total))
    (totalRead : c.totalRead = total) (contentLength : c.contentLength = body.length)
    (keeps : c.connectionClose = false) : Reads N response head body (head.bytes ++ body.take total) c

theorem Reads.withRequests {N : Nat} {response : HttpResponse} {head : ResponseHead} {body r : Bytes} {c : ClientConn}
    (h : Reads N response head body r c) (urlRequests : Nat) : Reads N response head body r { c with urlRequests } := by
  cases h with
  | head state lt pre received file noBody announces => exact .head state lt pre received file noBody announces
  | body state lt fresh sizes file totalRead contentLength keeps =>
    exact .body state lt fresh sizes file totalRead contentLength keeps

theorem Reads.length_lt {N : Nat} {response : HttpResponse} {head : ResponseHead} {body r : Bytes} {c : ClientConn}
    (h : Reads N response head body r c) : r.length < (head.bytes ++ body).length := by
  cases h with
  | head state lt =>
    rw [List.length_append]
    omega
  | body state lt =>
    simp only [List.length_append, List.length_take]
    omega

/-- All of the response has been read. -/
structure ReadAll (N : Nat) (response : HttpResponse) (body : Bytes) (c : ClientConn) : Prop where
  sized : Sized N c.buffer
  sizes : SameSizes response c.response
  file : c.file = some body
  keeps : c.connectionClose = false

section Step
variable {N n m k total : Nat} {response : HttpResponse} {head : ResponseHead} {body r down d : Bytes}
  {c c' : ClientConn}
  {reads : List IoResult} {next : ClientNext}

/-- How an event that has read `δ` bytes goes on. -/
inductive ReadStep (N : Nat) (response : HttpResponse) (head : ResponseHead) (body r : Bytes) (urlRequests : Nat) :
    ClientConn → ClientNext → Prop
  | more {c : ClientConn} (reads : Reads N response head body r c) : ReadStep N response head body r urlRequests c .stay
  | ends {c : ClientConn} (all : r = head.bytes ++ body) (done : ReadAll N response body c)
    (requests : c.urlRequests = urlRequests) : ReadStep N response head body r urlRequests c.endRequest.1 c.endRequest.2

/-- A piece of the body, taken into the file. -/
theorem readStep_afterPiece {c : ClientConn} {b : IoRingBuffer} (state : c.state = .serverBody) (hb : Fresh N b)
    (hsizes : SameSizes response c.response) (hlen : c.contentLength = body.length) (hkeeps : c.connectionClose = false)
    (htotal : total ≤ body.length) :
    ReadStep N response head body (head.bytes ++ body.take total) c.urlRequests (c.holding b body total).afterPiece.1
      (c.holding b body total).afterPiece.2 := by
  unfold afterPiece
  split_ifs with hall
  · have heq : total = body.length := by
      simp only [holding, hlen] at hall
      omega
    refine .ends ?_ ⟨hb.toSized, hsizes, ?_, hkeeps⟩ rfl
    · rw [heq, List.take_length]
    · simp [holding, heq]
  · have hne : total ≠ body.length := by
      simp only [holding, hlen] at hall
      omega
    exact .more (.body state (by omega) hb hsizes rfl rfl hlen hkeeps)

/-- A body that has not begun, and a socket on which nothing has arrived. -/
theorem handleStateServerBody_again (hb : Filled N 0 0 c.buffer) (hmore : c.totalRead ≠ c.contentLength)
    (write : WriterOutcome) :
    (c.handleStateServerBody (.fail eagain) write).map Prod.snd = some ([.ofError eagain], .abort) := by
  obtain ⟨mem, hstore, hread⟩ := hb.bufferRead (.fail eagain)
  rw [handleStateServerBody, readResponseBody, hb.bytesReadable, if_neg (by simp), if_neg hmore, hread]
  rfl

/-- The event that ends the head fails where the body is to come and has not arrived. -/
theorem handleStateServerResponse_again {bytes : Bytes} (hc : ReceivedHead N response r ⟨c.buffer, c.response⟩)
    (hfits : HeadFits N response head) (hlt : r.length < head.bytes.length) (hpre : r <+: head.bytes)
    (hhead : r ++ d = head.bytes) (hne : bytes ≠ []) (hd : bytes.take (N - r.length) = d)
    (hbody : c.responseHasBody = true)
    (hannounces : Announces head body) (hsome : body ≠ []) (write : WriterOutcome) :
    ∃ c' reads next, c.handleStateServerResponse (.data bytes) (.fail eagain) write = some (c', reads, next) ∧
      .ofError eagain ∈ reads := by
  have hends : r ++ d = head.bytes ++ [] := by rw [hhead, List.append_nil]
  obtain ⟨b, response', hb, hevent⟩ :=
    handleStateServerResponse_ends hc hfits hlt hpre hends hne hd hannounces.keeps (.fail eagain) write
  obtain ⟨b', hset, hfill, -⟩ := set_fragment hb.filled.toSized hb.mem
  set c₁ : ClientConn := { { c with state := .serverBody }.begun response' body.length with buffer := b' } with hc₁
  have hmore : c₁.totalRead ≠ c₁.contentLength := by
    have hpos := List.length_pos_of_ne_nil hsome
    simp only [hc₁, begun]
    omega
  obtain ⟨⟨c', reads, next⟩, hagain, hpair⟩ :=
    Option.map_eq_some_iff.mp (handleStateServerBody_again (c := c₁) hfill hmore write)
  obtain ⟨rfl, rfl⟩ := Prod.mk.inj hpair
  refine ⟨c', [.ofSize d.length, .ofError eagain], .abort, ?_, by simp⟩
  rw [hevent, if_pos hbody, hset, hannounces.length]
  change (c₁.handleStateServerBody (.fail eagain) write).bind _ = _
  rw [hagain]
  rfl

/-- What the event of a connection does when it has read `δ` bytes. -/
def Steps (N : Nat) (response : HttpResponse) (head : ResponseHead) (body r down : Bytes) (c : ClientConn)
    (event : Option (ClientConn × List IoResult × ClientNext)) : Prop :=
  ∃ c' reads next, ∃ δ : Nat, event = some (c', reads, next) ∧ (reads.map IoResult.size).sum = (δ : Int) ∧
    (∀ x ∈ reads, x.hasError = false) ∧ 0 < δ ∧ δ ≤ down.length ∧
      ReadStep N response head body (r ++ down.take δ) c.urlRequests c' next

/-- A read of the body. -/
theorem steps_body (h : Reads N response head body r c) (hstate : c.state = .serverBody)
    (hpre : r ++ down <+: head.bytes ++ body) (hdown : down ≠ []) (hn : 0 < n) (hk : N ≤ k) :
    Steps N response head body r down c (c.handleStateServerBody (arrived down n) (.accept k)) := by
  cases h with
  | head state => cases state.symm.trans hstate
  | body state lt fresh sizes file totalRead contentLength keeps =>
    next total =>
    obtain ⟨harrived, hne⟩ := arrived_of_ne_nil hn hdown
    have hN := fresh.filled.pos
    have hdown' : down <+: body.drop total := by
      nth_rewrite 2 [← List.take_append_drop total body] at hpre
      rwa [← List.append_assoc, List.prefix_append_right_inj] at hpre
    set d := (down.take n).take N with hd
    have hdpre : d <+: down := (List.take_prefix _ _).trans (List.take_prefix _ _)
    have hdlen := (hdpre.trans hdown').length_le
    rw [List.length_drop] at hdlen
    obtain ⟨b, hb, hevent⟩ := handleStateServerBody_data (c := c) fresh.filled hne hd.symm (hdpre.trans hdown') file
      totalRead contentLength hk
    have htake : down.take d.length = d := (List.prefix_iff_eq_take.mp hdpre).symm
    have hpos : 0 < d.length := by
      have hlen := List.length_pos_of_ne_nil hne
      rw [hd, List.length_take]
      omega
    refine ⟨_, _, _, d.length, harrived ▸ hevent, by simp [IoResult.ofSize],
      by simp [IoResult.ofSize, IoResult.hasError], hpos, hdpre.length_le, ?_⟩
    have hread : head.bytes ++ body.take total ++ down.take d.length = head.bytes ++ body.take (total + d.length) := by
      rw [htake, List.append_assoc, List.take_add, ← List.prefix_iff_eq_take.mp (hdpre.trans hdown')]
    rw [hread]
    exact readStep_afterPiece (c := c) state hb sizes contentLength keeps (by omega)

/-- A read that stays in the head. -/
theorem steps_inside {bytes : Bytes} (hstate : c.state = .serverResponse) (hpre : r ++ d <+: head.bytes)
    (hlt : (r ++ d).length < head.bytes.length) (hc : ReceivedHead N response r ⟨c.buffer, c.response⟩)
    (hfile : c.file = some []) (hnone : c.responseHasBody = false → body = [])
    (hannounces : c.responseHasBody = true → Announces head body) (hfits : HeadFits N response head) (hne : bytes ≠ [])
    (hd : bytes.take (N - r.length) = d) (hddown : d <+: down) (hpos : d ≠ []) (again : ReaderOutcome)
    (write : WriterOutcome) :
    Steps N response head body r down c (c.handleStateServerResponse (.data bytes) again write) := by
  obtain ⟨rest, hrest⟩ := hpre
  have hrest' : rest ≠ [] := by
    rintro rfl
    rw [← hrest, List.append_nil] at hlt
    omega
  obtain ⟨b, response', hc', hevent⟩ := handleStateServerResponse_inside (c := c) hc hfits hrest.symm hrest'
    hne hd again write
  have htake : down.take d.length = d := (List.prefix_iff_eq_take.mp hddown).symm
  refine ⟨_, _, _, d.length, hevent, by simp [IoResult.ofSize], by simp [IoResult.ofSize, IoResult.hasError],
    List.length_pos_of_ne_nil hpos, hddown.length_le, ?_⟩
  rw [htake]
  exact .more (.head hstate hlt ⟨rest, hrest⟩ hc' hfile hnone hannounces)

/-- The read that ends the head of a response without a body. -/
theorem steps_noBody {bytes : Bytes} (hpre : r <+: head.bytes) (hlt : r.length < head.bytes.length)
    (hhead : r ++ d = head.bytes) (hc : ReceivedHead N response r ⟨c.buffer, c.response⟩) (hfile : c.file = some [])
    (hbody : c.responseHasBody = false) (hfits : HeadFits N response head)
    (hkeeps : closesConnection head.version (head.fields.lookup headerConnection) = false)
    (hne : bytes ≠ []) (hd : bytes.take (N - r.length) = d) (hddown : d <+: down) (hpos : d ≠ [])
    (again : ReaderOutcome) (write : WriterOutcome) :
    Steps N response head [] r down c (c.handleStateServerResponse (.data bytes) again write) := by
  have hhead' : r ++ d = head.bytes ++ [] := by rw [hhead, List.append_nil]
  obtain ⟨b, response', hc', hevent⟩ := handleStateServerResponse_ends (c := c) hc hfits hlt hpre hhead' hne hd hkeeps
    again write
  simp only [hbody, Bool.false_eq_true, if_false] at hevent
  have htake : down.take d.length = d := (List.prefix_iff_eq_take.mp hddown).symm
  refine ⟨_, _, _, d.length, hevent, by simp [IoResult.ofSize], by simp [IoResult.ofSize, IoResult.hasError],
    List.length_pos_of_ne_nil hpos, hddown.length_le, ?_⟩
  rw [htake]
  exact .ends hhead' ⟨hc'.filled.toSized, hc'.sameSizes hfits, hfile, rfl⟩ rfl

/-- The read that ends the head of a response with a body, and the read of the body behind it. -/
theorem steps_withBody {bytes fragment d' : Bytes} {again : ReaderOutcome} (hpre : r <+: head.bytes)
    (hlt : r.length < head.bytes.length) (hhead : r ++ d = head.bytes ++ fragment)
    (hc : ReceivedHead N response r ⟨c.buffer, c.response⟩) (hfile : c.file = some [])
    (hbody : c.responseHasBody = true)
    (hfits : HeadFits N response head) (hannounces : Announces head body) (hne : bytes ≠ [])
    (hd : bytes.take (N - r.length) = d) (hpos : d ≠ []) (hddown : d ++ d' <+: down)
    (hdbody : fragment ++ d' <+: body) (hagain : Again N body fragment again d') (hk : N ≤ k) :
    Steps N response head body r down c (c.handleStateServerResponse (.data bytes) again (.accept k)) := by
  obtain ⟨b, response', reads, hb, hsizes, hsum, hgood, hevent⟩ :=
    handleStateServerResponse_body (c := c) hc hfits hlt hpre hhead
    hne hd hbody hannounces hfile ((List.prefix_append _ _).trans hdbody) hk hagain
  have htake : down.take (d.length + d'.length) = d ++ d' := by
    rw [← List.length_append, ← List.prefix_iff_eq_take.mp hddown]
  have hlen := hddown.length_le
  rw [List.length_append] at hlen
  have hdpos := List.length_pos_of_ne_nil hpos
  refine ⟨_, reads, _, d.length + d'.length, hevent, hsum, hgood, by omega, hlen, ?_⟩
  have hread : r ++ down.take (d.length + d'.length) = head.bytes ++ body.take (fragment ++ d').length := by
    rw [htake, ← List.append_assoc, hhead, List.append_assoc, ← List.prefix_iff_eq_take.mp hdbody]
  rw [hread]
  exact readStep_afterPiece (c := { c with state := .serverBody }.begun response' body.length) rfl hb hsizes rfl rfl
    hdbody.length_le

/-- The bytes that the event finds first. -/
def firstPiece (N : Nat) (r down : Bytes) (n : Nat) : Bytes := (down.take n).take (N - r.length)

/-- The event reads the body where it has to: if the first read ends with the head, more has arrived. -/
def FindsBody (N : Nat) (head : ResponseHead) (body r down : Bytes) (n : Nat) : Prop :=
  r ++ firstPiece N r down n = head.bytes → body ≠ [] → down.drop (firstPiece N r down n).length ≠ []

theorem readEvent_head (hstate : c.state = .serverResponse) (hc : ReceivedHead N response r ⟨c.buffer, c.response⟩)
    (hlt : r.length < N) (hdown : down ≠ []) (hn : 0 < n) :
    c.readEvent down n m k = c.handleStateServerResponse (.data (down.take n))
      (arrived (down.drop (firstPiece N r down n).length) m) (.accept k) := by
  have hroom : c.buffer.bytesToRead = N - r.length := by
    rw [hc.filled.bytesToRead, Nat.mod_eq_of_lt hlt]
  simp only [readEvent, hstate, (arrived_of_ne_nil hn hdown).1, hroom, ReaderOutcome.delivered, firstPiece]

/-- An event in which no read finds an empty socket. -/
theorem Reads.findsBody (h : Reads N response head body r c) (hfits : HeadFits N response head) (hdown : down ≠ [])
    (hn : 0 < n)
    (hcalm : ∀ c' reads next, c.readEvent down n m k = some (c', reads, next) → .ofError eagain ∉ reads) :
    FindsBody N head body r down n := by
  intro hhead hsome hempty
  cases h with
  | @body total =>
    -- nothing can end with the head any more
    have hlen := congrArg List.length hhead
    simp only [List.length_append] at hlen
    have hnone : (firstPiece N (head.bytes ++ body.take total) down n).length = 0 := by omega
    rw [hnone, List.drop_zero] at hempty
    exact hdown hempty
  | head state lt pre received file noBody announces =>
    obtain ⟨-, hne⟩ := arrived_of_ne_nil hn hdown
    have hbody : c.responseHasBody = true := by
      cases hbody : c.responseHasBody with
      | true => rfl
      | false => exact absurd (noBody hbody) hsome
    have hevent := readEvent_head (m := m) (k := k) state received (by have := hfits.buffer; omega) hdown hn
    have hagain : arrived (down.drop (firstPiece N r down n).length) m = .fail eagain := by simp [arrived, hempty]
    obtain ⟨c', reads, next, hfails, hmem⟩ := handleStateServerResponse_again (c := c) received hfits lt pre hhead
      hne rfl hbody (announces hbody) hsome (.accept k)
    rw [hevent, hagain] at hcalm
    exact hcalm c' reads next hfails hmem

/-- The event reads on in the response, or to its end. -/
theorem Reads.step (h : Reads N response head body r c) (hfits : HeadFits N response head)
    (hkeeps : closesConnection head.version (head.fields.lookup headerConnection) = false)
    (hpre : r ++ down <+: head.bytes ++ body) (hdown : down ≠ []) (hn : 0 < n) (hm : 0 < m) (hk : N ≤ k)
    (hfinds : FindsBody N head body r down n) :
    Steps N response head body r down c (c.readEvent down n m k) := by
  cases hstate : c.state with
  | serverBody =>
    rw [readEvent, hstate]
    exact steps_body h hstate hpre hdown hn hk
  | serverResponse =>
  cases h with
  | body state => cases state.symm.trans hstate
  | head _ lt pre received file noBody announces =>
  obtain ⟨-, hne⟩ := arrived_of_ne_nil hn hdown
  rw [readEvent_head hstate received (by have := hfits.buffer; omega) hdown hn]
  unfold FindsBody at hfinds
  set d := firstPiece N r down n with hd
  have hddown : d <+: down := (List.take_prefix _ _).trans (List.take_prefix _ _)
  have hpos : d ≠ [] := by
    have hlen := List.length_pos_of_ne_nil hne
    have hbuffer := hfits.buffer
    refine List.ne_nil_of_length_pos ?_
    rw [hd, firstPiece, List.length_take]
    omega
  have hall : r ++ d <+: head.bytes ++ body := ((List.prefix_append_right_inj r).mpr hddown).trans hpre
  by_cases hlt : (r ++ d).length < head.bytes.length
  · have hinside := List.prefix_of_prefix_length_le hall (List.prefix_append _ _) hlt.le
    exact steps_inside hstate hinside hlt received file noBody announces hfits hne hd.symm hddown hpos _ _
  -- the read ends the head
  obtain ⟨fragment, hhead⟩ : head.bytes <+: r ++ d :=
    List.prefix_of_prefix_length_le (List.prefix_append _ _) hall (by omega)
  have hfragment : fragment <+: body := by
    rwa [← hhead, List.prefix_append_right_inj] at hall
  cases hbody : c.responseHasBody with
  | false =>
    obtain rfl := noBody hbody
    obtain rfl := List.prefix_nil.mp hfragment
    rw [List.append_nil] at hhead
    exact steps_noBody pre lt hhead.symm received file hbody hfits hkeeps hne hd.symm hddown hpos _ _
  | true =>
    by_cases hmade : fragment = [] ∧ body ≠ []
    · obtain ⟨rfl, hsome⟩ := hmade
      rw [List.append_nil] at hhead
      obtain ⟨harrived, hne'⟩ := arrived_of_ne_nil hm (hfinds hhead.symm hsome)
      set d' := ((down.drop d.length).take m).take N with hd'
      have hdpre' : d' <+: down.drop d.length := (List.take_prefix _ _).trans (List.take_prefix _ _)
      have hboth : d ++ d' <+: down := by
        nth_rewrite 1 [← List.take_append_drop d.length down]
        rwa [← List.prefix_iff_eq_take.mp hddown, List.prefix_append_right_inj]
      have hdbody : d' <+: body := by
        have hwhole := ((List.prefix_append_right_inj r).mpr hboth).trans hpre
        rwa [← List.append_assoc, ← hhead, List.prefix_append_right_inj] at hwhole
      exact steps_withBody pre lt (by rw [hhead, List.append_nil]) received file hbody hfits (announces hbody)
        hne hd.symm hpos hboth hdbody
        ⟨fun _ _ => ⟨_, harrived, hne', hd'.symm, hdbody⟩, fun h => absurd (h.resolve_left (· rfl)) hsome⟩ hk
    · have hnone : d ++ [] <+: down := by rwa [List.append_nil]
      exact steps_withBody pre lt hhead.symm received file hbody hfits (announces hbody) hne hd.symm
        hpos hnone (by rwa [List.append_nil]) ⟨fun h h' => absurd ⟨h, h'⟩ hmade, fun _ => rfl⟩ hk

end Step
end ClientConn
end Latypus.Client
