import Latypus.Http.Fields
import Latypus.Http.PackedTables
import Mathlib.Data.List.TakeWhile

/-! A request head that is parsed and serialised again. The parser stores the request URI with
its query and the query on its own, and the serialiser writes both, so the round trip holds
exactly for heads without a query. -/

namespace Latypus.Http
open Lib

def isMethodChar (c : UInt8) : Bool :=
  (65 ≤ c && c ≤ 90) || isDigit c || c = 36 || c = 45 || c = 95 || c = 46

/-- A character of a query that is not part of an escape. -/
def isQueryChar (c : UInt8) : Bool := 32 < c && c ≠ 127 && c ≠ 35 && c ≠ 37

/-- A character of a path that is not part of an escape: a parameter or a query ends the path. -/
def isPathChar (c : UInt8) : Bool := isQueryChar c && c ≠ 59 && c ≠ 63

/-- Characters of a class mixed with escapes of the form `%XX`. -/
def escaped (ok : UInt8 → Bool) : Bytes → Bool
  | [] => true
  | c :: rest =>
    if c = 37 then
      match rest with
      | a :: b :: rest => isXdigit a && isXdigit b && escaped ok rest
      | _ => false
    else ok c && escaped ok rest

namespace HttpParser

/-- The states after `k` characters of the method; the words that begin like a response have
states of their own. -/
def methodStates (k : Nat) : List Nat :=
  (if k = 1 then 2 else k + 35) :: if k ≤ 4 then [k + 55] else []

def MethodStep (k : Nat) (c : UInt8) : Prop :=
  ∀ cs ∈ methodStates k, (next cs c).1 ∈ methodStates (k + 1) ∧ (next cs c).2 = []

instance (k : Nat) (c : UInt8) : Decidable (MethodStep k c) :=
  inferInstanceAs (Decidable (∀ cs ∈ methodStates k, _))

theorem methodStep (c : UInt8) (hc : isMethodChar c) : ∀ k < 20, 1 ≤ k → MethodStep k c := by
  have htable : ∀ r ∈ bounds.map UInt8.ofNat, isMethodChar r → ∀ k < 20, 1 ≤ k → MethodStep k r := by
    simp only [List.forall_mem_map, MethodStep, next, trans_eq_lookup, transTarg_eq_entry, transActs_eq_entry]
    decide +kernel
  have hclass : ∀ c, isMethodChar c = isMethodChar (classOf bounds c) := forall_byte (by decide +kernel)
  intro k hk hone cs hcs
  rw [next, trans_classOf]
  exact htable _ (classOf_mem (by decide) c) (hclass c ▸ hc) k hk hone cs hcs

theorem methodStates_space : ∀ k < 21, 1 ≤ k → ∀ cs ∈ methodStates k,
    Live cs ∧ next cs 32 = (3, [6]) := by
  decide +kernel

theorem passes_methodRest {w : Bytes} {k cs : Nat} (hw : w.all isMethodChar) (hk : 1 ≤ k)
    (hlen : k + w.length ≤ 20) (hcs : cs ∈ methodStates k) (p n : Nat) (m qs fs : Option Nat)
    (fl : Nat) :
    ∃ cs' ∈ methodStates (k + w.length),
      scanner.Passes w p ⟨cs, n, m, qs, fs, fl⟩ ⟨cs', n, m, qs, fs, fl⟩ [] := by
  induction w generalizing k cs p with
  | nil =>
    exact ⟨cs, hcs, .nil (stops_eq_false (methodStates_space k (by simp at hlen; omega) hk cs hcs).1)⟩
  | cons c w ih =>
    rw [List.all_cons, Bool.and_eq_true] at hw
    rw [List.length_cons] at hlen
    obtain ⟨hmem, hacts⟩ := methodStep c hw.1 k (by omega) hk cs hcs
    have hnext : next cs c = ((next cs c).1, []) := Prod.ext rfl hacts
    obtain ⟨cs', hcs', hrest⟩ := ih hw.2 (by omega) (by omega) hmem (p + 1)
    have hone := passes_next hnext (methodStates_space k (by omega) hk cs hcs).1
      (methodStates_space (k + 1) (by omega) (by omega) _ hmem).1.1 p n m qs fs fl
    refine ⟨cs', ?_, hone.cons hrest⟩
    rwa [List.length_cons, Nat.add_comm w.length 1, ← Nat.add_assoc]

/-- The method and the space behind it. -/
theorem passes_method {method : Bytes} (hne : method ≠ []) (hmethod : method.all isMethodChar)
    (hlen : method.length ≤ 20) (p n : Nat) (m qs fs : Option Nat) (fl : Nat) :
    scanner.Passes (method ++ [32]) p ⟨1, n, m, qs, fs, fl⟩ ⟨3, n, some p, qs, fs, fl⟩
      [.setRequestMethod ⟨some p, method.length⟩] := by
  have h1 : ∀ c, isMethodChar c → (next 1 c).1 ∈ methodStates 1 ∧ (next 1 c).2 = [0] :=
    forall_byte (by decide +kernel)
  cases method with
  | nil => exact absurd rfl hne
  | cons c w =>
    rw [List.all_cons, Bool.and_eq_true] at hmethod
    rw [List.length_cons] at hlen
    obtain ⟨hmem, hacts⟩ := h1 c hmethod.1
    have hnext : next 1 c = ((next 1 c).1, [0]) := Prod.ext rfl hacts
    obtain ⟨cs, hcs, hrest⟩ := passes_methodRest hmethod.2 le_rfl (by omega) hmem (p + 1) n (some p)
      qs fs fl
    obtain ⟨hlive, hsp⟩ := methodStates_space (1 + w.length) (by omega) (by omega) cs hcs
    have hone := passes_next hnext (by decide) (methodStates_space 1 (by omega) le_rfl _ hmem).1.1
      p n m qs fs fl
    have hend := passes_next hsp hlive (by decide) (p + 1 + w.length) n (some p) qs fs fl
    have hsub : p + 1 + w.length - p = w.length + 1 := by omega
    simpa [actionLoop, action, slice, hsub] using hone.cons (hrest.append hend)

/-- Escapes go through two states of their own and come back. -/
theorem passes_escaped {ok : UInt8 → Bool} {q q1 q2 : Nat} (hok : ∀ c, ok c → next q c = (q, []))
    (hpercent : next q 37 = (q1, [])) (hfirst : ∀ c, isXdigit c → next q1 c = (q2, []))
    (hsecond : ∀ c, isXdigit c → next q2 c = (q, [])) (hq : Live q) (hq1 : Live q1) (hq2 : Live q2)
    {w : Bytes} (hw : escaped ok w) (p n : Nat) (m qs fs : Option Nat) (fl : Nat) :
    scanner.Passes w p ⟨q, n, m, qs, fs, fl⟩ ⟨q, n, m, qs, fs, fl⟩ [] := by
  fun_induction escaped ok w generalizing p with
  | case1 => exact .nil (stops_eq_false hq)
  | case2 a b rest ih =>
    simp only [Bool.and_eq_true] at hw
    have h1 := passes_next hpercent hq hq1.1 p n m qs fs fl
    have h2 := passes_next (hfirst a hw.1.1) hq1 hq2.1 (p + 1) n m qs fs fl
    have h3 := passes_next (hsecond b hw.1.2) hq2 hq.1 (p + 1 + 1) n m qs fs fl
    exact h1.cons (h2.cons (h3.cons (ih hw.2 (p + 1 + 1 + 1))))
  | case3 => simp at hw
  | case4 c rest hc ih =>
    rw [Bool.and_eq_true] at hw
    exact (passes_next (hok c hw.1) hq hq.1 p n m qs fs fl).cons (ih hw.2 (p + 1))

/-- The query behind a question mark. -/
def queryPart : Option Bytes → Bytes
  | none => []
  | some query => 63 :: query

/-- The callbacks of a request URI at position `p`: the URI is reported with the query in it. -/
def uriCallbacks (p : Nat) (path : Bytes) : Option Bytes → List Callback
  | none => [.setRequestPath ⟨some p, path.length⟩, .setRequestUri ⟨some p, path.length⟩]
  | some query =>
    [.setRequestPath ⟨some p, path.length⟩,
      .setQueryString ⟨some (p + (path.length + 1)), query.length⟩,
      .setRequestUri ⟨some p, path.length + (query.length + 1)⟩]

theorem passes_query {query : Bytes} (hquery : escaped isQueryChar query) (p n u : Nat)
    (qs fs : Option Nat) (fl : Nat) :
    scanner.Passes (query ++ [32]) p ⟨33, n, some u, qs, fs, fl⟩ ⟨5, n, some u, some p, fs, fl⟩
      [.setQueryString ⟨some p, query.length⟩, .setRequestUri ⟨some u, p + query.length - u⟩] := by
  have h34 : ∀ c, isQueryChar c → next 34 c = (34, []) := forall_byte (by decide +kernel)
  have h33 : ∀ c, isQueryChar c → next 33 c = (34, [4]) := forall_byte (by decide +kernel)
  have h35 : ∀ c, isXdigit c → next 35 c = (36, []) := forall_byte (by decide +kernel)
  have h36 : ∀ c, isXdigit c → next 36 c = (34, []) := forall_byte (by decide +kernel)
  have hpercent : next 34 37 = (35, []) := by decide +kernel
  have hpercent' : next 33 37 = (35, [4]) := by decide +kernel
  have hsp : next 34 32 = (5, [9, 7]) := by decide +kernel
  have hsp' : next 33 32 = (5, [4, 9, 7]) := by decide +kernel
  have hrest {w : Bytes} (hw : escaped isQueryChar w) (q : Nat) :
      scanner.Passes (w ++ [32]) q ⟨34, n, some u, some p, fs, fl⟩ ⟨5, n, some u, some p, fs, fl⟩
        [.setQueryString ⟨some p, q + w.length - p⟩, .setRequestUri ⟨some u, q + w.length - u⟩] :=
    (passes_escaped h34 hpercent h35 h36 (by decide) (by decide) (by decide) hw q n (some u)
      (some p) fs fl).append (passes_next hsp (by decide) (by decide) (q + w.length) n (some u)
      (some p) fs fl)
  -- the first character of the query, and an escape in its place, mark where the query starts
  unfold escaped at hquery
  split at hquery
  · simpa [actionLoop, action, slice] using
      passes_next hsp' (by decide) (by decide) p n (some u) qs fs fl
  · rename_i c rest
    split_ifs at hquery with hc
    · split at hquery
      · rename_i a b rest
        simp only [Bool.and_eq_true] at hquery
        have h1 := passes_next hpercent' (by decide) (by decide) p n (some u) qs fs fl
        have h2 := passes_next (h35 a hquery.1.1) (by decide) (by decide) (p + 1) n (some u)
          (some p) fs fl
        have h3 := passes_next (h36 b hquery.1.2) (by decide) (by decide) (p + 1 + 1) n (some u)
          (some p) fs fl
        have hlen : p + 1 + 1 + 1 + rest.length = p + (rest.length + 1 + 1 + 1) := by omega
        have h4 := hrest hquery.2 (p + 1 + 1 + 1)
        rw [hlen, Nat.add_sub_cancel_left] at h4
        rw [hc]
        exact h1.cons (h2.cons (h3.cons h4))
      · simp at hquery
    · rw [Bool.and_eq_true] at hquery
      have h1 := passes_next (h33 c hquery.1) (by decide) (by decide) p n (some u) qs fs fl
      have hlen : p + 1 + rest.length = p + (rest.length + 1) := by omega
      have h2 := hrest hquery.2 (p + 1)
      rw [hlen, Nat.add_sub_cancel_left] at h2
      exact h1.cons h2

/-- The request URI and the space behind it. -/
theorem passes_uri {rest : Bytes} {query : Option Bytes} (hpath : escaped isPathChar rest)
    (hquery : ∀ q ∈ query, escaped isQueryChar q) (p n : Nat) (m qs fs : Option Nat) (fl : Nat) :
    ∃ qs', scanner.Passes (47 :: rest ++ queryPart query ++ [32]) p ⟨3, n, m, qs, fs, fl⟩
      ⟨5, n, some p, qs', fs, fl⟩ (uriCallbacks p (47 :: rest) query) := by
  have h30 : ∀ c, isPathChar c → next 30 c = (30, []) := forall_byte (by decide +kernel)
  have h31 : ∀ c, isXdigit c → next 31 c = (32, []) := forall_byte (by decide +kernel)
  have h32 : ∀ c, isXdigit c → next 32 c = (30, []) := forall_byte (by decide +kernel)
  have hpercent : next 30 37 = (31, []) := by decide +kernel
  have hslash : next 3 47 = (30, [0]) := by decide +kernel
  have h1 := passes_next hslash (by decide) (by decide) p n m qs fs fl
  have h2 := passes_escaped h30 hpercent h31 h32 (by decide) (by decide) (by decide) hpath (p + 1)
    n (some p) qs fs fl
  have hlen : p + 1 + rest.length - p = rest.length + 1 := by omega
  cases query with
  | none =>
    have hsp : next 30 32 = (5, [11, 7]) := by decide +kernel
    have h3 := passes_next hsp (by decide) (by decide) (p + 1 + rest.length) n (some p) qs fs fl
    refine ⟨qs, ?_⟩
    simpa [queryPart, uriCallbacks, actionLoop, action, slice, hlen] using h1.cons (h2.append h3)
  | some query =>
    have hmark : next 30 63 = (33, [11]) := by decide +kernel
    have h3 := passes_next hmark (by decide) (by decide) (p + 1 + rest.length) n (some p) qs fs fl
    have h4 := passes_query (hquery query rfl) (p + 1 + rest.length + 1) n p qs fs fl
    refine ⟨some (p + 1 + rest.length + 1), ?_⟩
    have hpos : p + 1 + rest.length + 1 = p + (rest.length + 1 + 1) := by omega
    have hsub : p + (rest.length + 1 + 1) + query.length - p =
        rest.length + 1 + (query.length + 1) := by omega
    simpa [queryPart, uriCallbacks, actionLoop, action, slice, hlen, hpos, hsub] using
      h1.cons (h2.append (h3.cons h4))

end HttpParser

/-- A request head in canonical form: a method, an absolute path with an optional query, a
version and header fields with distinct names. -/
structure RequestHead where
  method : Bytes
  path : Bytes
  query : Option Bytes
  version : Bytes
  fields : List (Bytes × Bytes)
  method_ne_nil : method ≠ []
  method_chars : method.all isMethodChar
  method_length : method.length ≤ 20
  path_slash : path.head? = some 47
  path_chars : escaped isPathChar path
  query_chars : ∀ q ∈ query, escaped isQueryChar q
  isVersion : IsVersion version
  isField : ∀ f ∈ fields, IsField f
  names : (fields.map Prod.fst).Nodup

namespace RequestHead
open HttpParser

variable (h : RequestHead)

def uri : Bytes := h.path ++ queryPart h.query

def line : Bytes := h.method ++ [32] ++ h.uri ++ [32] ++ h.version ++ [13, 10]

def bytes : Bytes := h.line ++ fieldLines h.fields

/-- The callbacks of the request line at the start of the memory. -/
def lineCallbacks : List Callback :=
  .setRequestMethod ⟨some 0, h.method.length⟩ ::
    (uriCallbacks (h.method.length + 1) h.path h.query ++
      [.setHttpVersion ⟨some (h.method.length + 1 + h.uri.length + 1), h.version.length⟩])

theorem passes_line : ∃ m qs, scanner.Passes h.line 0 reset ⟨14, 0, m, qs, none, 0⟩ h.lineCallbacks := by
  obtain ⟨rest, hrest⟩ : ∃ rest, h.path = 47 :: rest := by
    have hslash := h.path_slash
    cases hpath : h.path with
    | nil => simp [hpath] at hslash
    | cons c rest =>
      rw [hpath, List.head?_cons, Option.some.injEq] at hslash
      exact ⟨rest, by rw [hslash]⟩
  have hchars : escaped isPathChar rest := by
    have hall := h.path_chars
    rw [hrest] at hall
    unfold escaped at hall
    rw [if_neg (by decide), Bool.and_eq_true] at hall
    exact hall.2
  have hcr : next 13 13 = (21, [10]) := by decide +kernel
  have hlf : next 21 10 = (14, []) := by decide +kernel
  set u := h.method.length + 1 with hu
  set v := u + h.uri.length + 1 with hv
  have h1 := passes_method h.method_ne_nil h.method_chars h.method_length 0 0 none none none 0
  obtain ⟨qs, h2⟩ := passes_uri hchars h.query_chars u 0 (some 0) none none 0
  have h3 := passes_version h.isVersion (.inl ⟨rfl, rfl⟩) v 0 (some u) qs none 0
  have h4 := passes_next hcr (by decide) (by decide) (v + h.version.length) 0 (some v) qs none 0
  have h5 := passes_next hlf (by decide) (by decide) (v + h.version.length + 1) 0 (some v) qs none 0
  rw [← hrest] at h2
  have hpass := h1.append_at (by simp [hu])
    (h2.append_at (by simp [hv, uri, Nat.add_assoc]) (h3.append (h4.cons h5)))
  refine ⟨some v, qs, ?_⟩
  simp only [line, lineCallbacks, ← hu, ← hv]
  simpa [uri, actionLoop, action, slice, reset, start] using hpass

/-- The parser on a whole request head. -/
theorem parse_bytes : ∃ t body, t.cs = firstFinal ∧ t.nread = h.bytes.length ∧
    reset.parse 0 h.bytes = (t, h.lineCallbacks ++ Callback.setParseType .request ::
      (fieldCallbacks h.line.length h.fields ++ [Callback.setBodyStart body])) := by
  obtain ⟨m, qs, hline⟩ := h.passes_line
  obtain ⟨t, ht, hlines⟩ := passes_fieldLines (s := ⟨14, 0, m, qs, none, 0⟩) h.isField (.inl rfl)
    (0 + h.line.length)
  have hparse := parse_of_passes (m := h.bytes) (hline.append hlines)
  have hmap (f : Nat → Nat) : h.lineCallbacks.map (Callback.endAt f) = h.lineCallbacks := by
    unfold lineCallbacks
    cases h.query <;> rfl
  simp only [List.map_append, List.map_cons, List.map_nil, map_endAt_fieldCallbacks,
    Callback.endAt, Nat.zero_add, hmap] at hparse
  exact ⟨{ t with nread := h.bytes.length }, _, ht, rfl, hparse⟩

/-- The space that the request line takes in the storage. -/
def lineSpace : Nat :=
  h.method.length + 1 + (h.path.length + 1) + (h.query.elim 0 fun q => q.length + 1) +
    (h.uri.length + 1) + (h.version.length + 1)

end RequestHead

namespace HttpRequest

variable (h : RequestHead) {capacity maxHeaders : Nat}

/-- What the callbacks of the request line leave in a fresh request. -/
theorem foldl_lineCallbacks (t : HttpParser) (hspace : h.lineSpace ≤ capacity) :
    h.lineCallbacks.foldl (callback h.bytes)
      ⟨t, ⟨capacity, 0, maxHeaders, [], [], false⟩, .none, none, none, none, none, none, ⟨none, 0⟩,
        none⟩ =
    ⟨t, ⟨capacity, h.lineSpace, maxHeaders, [], [], false⟩, .none, some h.method, some h.uri, none,
      some h.path, h.query, ⟨none, 0⟩, some h.version⟩ := by
  -- where the pieces of the line stand
  have hmethod : h.bytes.drop 0 = h.method ++
      ([32] ++ h.uri ++ [32] ++ h.version ++ [13, 10] ++ fieldLines h.fields) := by
    simp [RequestHead.bytes, RequestHead.line]
  have huri : h.bytes.drop (h.method.length + 1) = h.uri ++
      ([32] ++ h.version ++ [13, 10] ++ fieldLines h.fields) := by
    have hline : h.bytes.drop 0 = (h.method ++ [32]) ++
        (h.uri ++ ([32] ++ h.version ++ [13, 10] ++ fieldLines h.fields)) := by
      simp [RequestHead.bytes, RequestHead.line]
    have := drop_of_drop hline
    simpa using this
  have hversion : h.bytes.drop (h.method.length + 1 + h.uri.length + 1) = h.version ++
      ([13, 10] ++ fieldLines h.fields) := by
    have := drop_of_drop (w := h.uri ++ [32]) (by simpa using huri)
    simpa [Nat.add_assoc] using this
  have hpath : h.bytes.drop (h.method.length + 1) = h.path ++
      (HttpParser.queryPart h.query ++ [32] ++ h.version ++ [13, 10] ++ fieldLines h.fields) := by
    simpa [RequestHead.uri] using huri
  simp only [RequestHead.lineSpace] at hspace
  simp only [RequestHead.lineCallbacks, RequestHead.lineSpace, List.foldl_cons, List.foldl_append,
    List.foldl_nil, callback, bytesAt_of_drop hmethod, bytesAt_of_drop hversion]
  rw [HeaderStore.allocString_of_le h.method (by dsimp only; omega)]
  cases hquery : h.query with
  | none =>
    have huri' : h.uri = h.path := by simp [RequestHead.uri, hquery, HttpParser.queryPart]
    simp only [hquery, Option.elim_none, huri'] at hspace ⊢
    simp only [HttpParser.uriCallbacks, List.foldl_cons, List.foldl_nil, callback,
      bytesAt_of_drop hpath]
    rw [HeaderStore.allocString_of_le (s := ⟨capacity, 0 + (h.method.length + 1), _, _, _, _⟩)
      h.path (by dsimp only; omega)]
    rw [HeaderStore.allocString_of_le h.path (by dsimp only; omega)]
    rw [HeaderStore.allocString_of_le h.version (by dsimp only; omega)]
    simp [Nat.add_assoc]
  | some query =>
    have huri' : h.uri = h.path ++ 63 :: query := by
      simp [RequestHead.uri, hquery, HttpParser.queryPart]
    have hquery' : h.bytes.drop (h.method.length + 1 + (h.path.length + 1)) = query ++
        ([32] ++ h.version ++ [13, 10] ++ fieldLines h.fields) := by
      have := drop_of_drop (w := h.path ++ [63])
        (by simpa [hquery, HttpParser.queryPart] using hpath)
      simpa using this
    have hbytes : bytesAt h.bytes ⟨some (h.method.length + 1), h.path.length + (query.length + 1)⟩ =
        h.uri := by
      have := bytesAt_of_drop huri
      rwa [huri', List.length_append, List.length_cons, ← huri'] at this
    simp only [hquery, Option.elim_some] at hspace ⊢
    simp only [HttpParser.uriCallbacks, List.foldl_cons, List.foldl_nil, callback,
      bytesAt_of_drop hpath, bytesAt_of_drop hquery', hbytes]
    rw [HeaderStore.allocString_of_le h.path (by dsimp only; omega)]
    rw [HeaderStore.allocString_of_le query (by dsimp only; omega)]
    rw [HeaderStore.allocString_of_le h.uri (by dsimp only; omega)]
    rw [HeaderStore.allocString_of_le h.version (by dsimp only; omega)]
    simp [Nat.add_assoc]

/-- The request that a fresh object holds after it has parsed the head. -/
theorem parse_bytes (hcapacity : 2 * h.bytes.length ≤ capacity)
    (hmax : h.fields.length ≤ maxHeaders) :
    ∃ t body, t.cs = HttpParser.firstFinal ∧
      (resize capacity maxHeaders).parse h.bytes 0 h.bytes.length =
        ⟨t, ⟨capacity, h.lineSpace + HeaderStore.space h.fields, maxHeaders, h.fields, h.fields,
          false⟩, .request, some h.method, some h.uri, none, some h.path, h.query, body,
          some h.version⟩ := by
  obtain ⟨t, body, ht, -, hparse⟩ := h.parse_bytes
  have hspace : h.lineSpace + HeaderStore.space h.fields ≤ capacity := by
    have hle := space_le_length h.fields
    have huri : h.uri.length = h.path.length + (h.query.elim 0 fun q => q.length + 1) := by
      rw [RequestHead.uri, List.length_append]
      cases h.query <;> rfl
    simp only [RequestHead.bytes, RequestHead.line, RequestHead.lineSpace, List.length_append,
      List.length_cons, List.length_nil] at hcapacity ⊢
    omega
  have hstore := HeaderStore.setFields_of_le h.fields
    (s := ⟨capacity, h.lineSpace, maxHeaders, [], [], false⟩)
    (by simpa using hmax) (by simpa using h.names) hspace
  have hdrop : h.bytes.drop h.line.length = fieldLines h.fields := List.drop_left
  refine ⟨t, body, ht, ?_⟩
  simp only [parse, List.drop_zero, List.take_length, resize, HeaderStore.resize, hparse]
  rw [List.foldl_append, foldl_lineCallbacks h t (by omega), List.foldl_cons, List.foldl_append,
    foldl_fieldCallbacks _ hdrop]
  simp only [callback, hstore, List.nil_append, List.foldl_cons, List.foldl_nil]

/-- Parsing a head finishes without error, and both serialisers give the head back. -/
def RoundTrips (m : Bytes) (capacity maxHeaders : Nat) : Prop :=
  let r := (resize capacity maxHeaders).parse m 0 m.length
  r.isFinished = true ∧ r.hasError = false ∧
    (∀ bufferSize > m.length, r.toBuffer bufferSize = some m) ∧ r.toString = m

theorem notMem_of_all {w : Bytes} {ok : UInt8 → Bool} (hok : ok 0 = false) (hw : w.all ok) :
    0 ∉ w := by
  intro hmem
  have := List.all_eq_true.mp hw 0 hmem
  simp [hok] at this

theorem notMem_of_escaped {w : Bytes} {ok : UInt8 → Bool} (hok : ok 0 = false)
    (hw : escaped ok w) : 0 ∉ w := by
  have hne {c : UInt8} {ok : UInt8 → Bool} (hok : ok 0 = false) (hc : ok c) : 0 ≠ c := by
    rintro rfl
    simp [hok] at hc
  fun_induction escaped ok w with
  | case1 => simp
  | case2 a b rest ih =>
    simp only [Bool.and_eq_true] at hw
    simp [hne (by decide) hw.1.1, hne (by decide) hw.1.2, ih hw.2]
  | case3 => simp at hw
  | case4 c rest hc ih =>
    rw [Bool.and_eq_true] at hw
    simp [hne hok hw.1, ih hw.2]

theorem cString_method : cString h.method = h.method :=
  cString_of_notMem (notMem_of_all (by decide) h.method_chars)

theorem cString_query {q : Bytes} (hq : h.query = some q) : cString q = q :=
  cString_of_notMem (notMem_of_escaped (by decide) (h.query_chars q hq))

theorem cString_uri : cString h.uri = h.uri := by
  refine cString_of_notMem ?_
  have hpath : 0 ∉ h.path := notMem_of_escaped (by decide) h.path_chars
  cases hquery : h.query with
  | none => simp [RequestHead.uri, hquery, HttpParser.queryPart, hpath]
  | some q =>
    have hq : 0 ∉ q := notMem_of_escaped (by decide) (h.query_chars q hquery)
    simp [RequestHead.uri, hquery, HttpParser.queryPart, hpath, hq]

theorem cString_version : cString h.version = h.version := by
  refine cString_of_notMem ?_
  obtain ⟨major, minor, -, hmajor, -, hminor, hversion⟩ := h.isVersion
  rw [hversion]
  simp [notMem_of_all (by decide) hmajor, notMem_of_all (by decide) hminor]

theorem flatMap_fieldLine (fields : List (Bytes × Bytes)) :
    fields.flatMap (fun f => f.1 ++ [58, 32] ++ f.2 ++ [13, 10]) ++ [13, 10] = fieldLines fields := by
  induction fields with
  | nil => rfl
  | cons f fields ih => simp [fieldLines, fieldLine, ← ih]

/-- The serialised head: the query stands in it a second time. -/
def serialised : Bytes :=
  h.method ++ [32] ++ h.uri ++ HttpParser.queryPart h.query ++ [32] ++ h.version ++ [13, 10] ++
    fieldLines h.fields

theorem serialised_eq_bytes_iff : serialised h = h.bytes ↔ h.query = none := by
  constructor
  · intro heq
    have hlen := congrArg List.length heq
    cases hquery : h.query with
    | none => rfl
    | some q =>
      simp [serialised, RequestHead.bytes, RequestHead.line, hquery, HttpParser.queryPart] at hlen
      omega
  · intro hquery
    simp [serialised, RequestHead.bytes, RequestHead.line, hquery, HttpParser.queryPart]

/-- The round trip holds exactly for the heads without a query. -/
theorem roundTrips_iff (h : RequestHead) {capacity maxHeaders : Nat}
    (hcapacity : 2 * h.bytes.length ≤ capacity) (hmax : h.fields.length ≤ maxHeaders) :
    RoundTrips h.bytes capacity maxHeaders ↔ h.query = none := by
  obtain ⟨t, body, ht, hparse⟩ := parse_bytes h hcapacity hmax
  have hstring : ((resize capacity maxHeaders).parse h.bytes 0 h.bytes.length).toString =
      serialised h := by
    rw [hparse]
    simp only [toString, cString_method, cString_uri, cString_version, List.append_nil]
    rw [List.append_assoc, flatMap_fieldLine]
    cases hquery : h.query with
    | none => simp [serialised, hquery, HttpParser.queryPart]
    | some q => simp [serialised, hquery, HttpParser.queryPart, cString_query h hquery]
  constructor
  · rintro ⟨-, -, -, htrip⟩
    exact (serialised_eq_bytes_iff h).mp (hstring.symm.trans htrip)
  · intro hquery
    refine ⟨?_, ?_, ?_, hstring.trans ((serialised_eq_bytes_iff h).mpr hquery)⟩
    · rw [hparse]
      simp [isFinished, HttpParser.isFinished, ht]
    · rw [hparse]
      simp [hasError, hasOverflow, HttpParser.hasError, HttpParser.isFinished, ht,
        HttpParser.firstFinal, HttpParser.error]
    · intro bufferSize hsize
      have hline : h.line = h.method ++ [32] ++ h.uri ++ [] ++ [32] ++ h.version ++ [13, 10] := by
        simp [RequestHead.line]
      have hlen : h.bytes.length = h.line.length + (fieldLines h.fields).length := by
        rw [RequestHead.bytes, List.length_append]
      rw [hparse]
      simp only [toBuffer, hquery, headerLines_eq, ← hline]
      rw [if_pos, if_pos]
      · rfl
      · exact hsize
      · simp only [RequestHead.line, List.length_append, List.length_cons, List.length_nil] at hlen ⊢
        omega

/-- "GET /a HTTP/1.1" with the given query and no header fields. -/
def getA (query : Option Bytes) (hquery : ∀ q ∈ query, escaped isQueryChar q) : RequestHead where
  method := [71, 69, 84]
  path := [47, 97]
  query := query
  version := [72, 84, 84, 80, 47, 49, 46, 49]
  fields := []
  method_ne_nil := by decide
  method_chars := by decide
  method_length := by decide
  path_slash := by decide
  path_chars := by decide
  query_chars := hquery
  isVersion := ⟨[49], [49], by decide⟩
  isField := by simp
  names := by decide

theorem roundTrips_getA : RoundTrips (getA none (by simp)).bytes 64 4 ∧
    ¬ RoundTrips (getA (some [98]) (by simp; decide)).bytes 64 4 :=
  ⟨(roundTrips_iff (getA none (by simp)) (by decide) (by decide)).mpr rfl,
    fun htrip => absurd ((roundTrips_iff (getA (some [98]) (by simp; decide)) (by decide)
      (by decide)).mp htrip) (by decide)⟩

/-- "GET /a?b HTTP/1.1" is written back as "GET /a?b?b HTTP/1.1". -/
theorem roundTrips_fails_query :
    ¬ RoundTrips (getA (some [98]) (by simp; decide)).bytes 64 4 := by
  rintro ⟨-, -, -, hstring⟩
  revert hstring
  decide +kernel

end HttpRequest
end Latypus.Http
