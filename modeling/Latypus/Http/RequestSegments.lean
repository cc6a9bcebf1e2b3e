import Latypus.Http.RequestMemory

/-! A request that is fed a text in chunks, from a memory that grows, is the request that is fed
the text at once. -/

namespace Latypus.Http

namespace HttpParser

/-- The start of the body is reported with the end of the head only. -/
theorem endAt_of_not_stops {bytes : Bytes} {p : Nat} {s : HttpParser}
    (h : scanner.stops (scanner.scan bytes p s).1 = false) (f g : Nat → Nat) :
    (scanner.scan bytes p s).2.2.map (Callback.endAt f) =
      (scanner.scan bytes p s).2.2.map (Callback.endAt g) := by
  have hout : ∀ cb ∈ (scanner.scan bytes p s).2.2, ∀ str, cb ≠ .setBodyStart str := by
    refine scanner.forall_output_of_not_stops (fun s p c hlive cb hcb str hstr => ?_) h
    obtain ⟨before, a, behind, hacts, -, hmem⟩ := mem_actionLoop hcb
    obtain rfl : a = 16 := by
      subst hstr
      unfold action at hmem
      split at hmem <;> simp_all
    have hdone : 16 ∈ transActs (trans s.cs c) := by simp [hacts]
    have hcs : (scanner.step s p c).1.cs = firstFinal :=
      (actionLoop_cs ..).trans ((done_mem_transActs _).mp hdone)
    simp [scanner, isFinished] at hlive hcs
    exact hlive.1 hcs
  refine List.map_congr_left fun cb hcb => ?_
  cases cb with
  | setBodyStart str => exact absurd rfl (hout _ hcb str)
  | setParseType _ | setHeaderField _ _ | setRequestMethod _ | setRequestUri _ | setFragment _
  | setRequestPath _ | setQueryString _ | setHttpVersion _ | setReasonPhrase _ | setStatusCode _ => rfl

/-! ### Lines -/

/-- What stands behind the mark, in the states that use it, is inside a line. -/
def LineFree (base : Nat) (text : Bytes) (s : HttpParser) : Prop :=
  s.cs < 72 ∧ (marked s.cs = true → ∃ w, Since base text s.mark w ∧ 10 ∉ w)

/-- No state that uses the mark is entered on the end of a line. -/
theorem not_marked_newline : ∀ q < 72, q ≠ error → marked (transTarg (trans q 10)) = false := by decide +kernel

theorem LineFree.step {base : Nat} {text : Bytes} {s : HttpParser} (h : LineFree base text s)
    (hs : s.cs ≠ error) (pe : Nat) (c : UInt8) : LineFree base (text ++ [c]) (actionLoop pe (base + text.length)
      { s with cs := transTarg (trans s.cs c) } (transActs (trans s.cs c))).1 := by
  set t := trans s.cs c with ht
  have hcs : (actionLoop pe (base + text.length) { s with cs := transTarg t } (transActs t)).1.cs =
    transTarg t := actionLoop_cs ..
  obtain ⟨hlt, -, hmarked, -⟩ := uses_row s.cs h.1 t (trans_mem_row h.1 c)
  refine ⟨by rw [hcs]; exact hlt, ?_⟩
  rw [hcs]
  intro hm
  have hc : 10 ≠ c := by
    rintro rfl
    rw [ht, not_marked_newline s.cs h.1 hs] at hm
    cases hm
  have hdone : 16 ∉ transActs t := by
    rw [done_mem_transActs]
    intro hfinal
    rw [hfinal] at hm
    revert hm
    decide
  rw [actionLoop_mark hdone]
  cases hset : (transActs t).any setsMark with
  | true => exact ⟨[c], Since.start base text c, by simpa using hc⟩
  | false =>
    obtain ⟨w, hsince, hw⟩ := h.2 (by simpa [hset] using hmarked hm)
    exact ⟨w ++ [c], hsince.concat c, by simp [hw, hc]⟩

end HttpParser

/-- The strings of the request line are parts of a line. -/
def Callback.LineFree (base : Nat) (text : Bytes) : Callback → Prop
  | .setRequestMethod str | .setRequestPath str | .setHttpVersion str =>
    ∃ w, str.Holds base text w ∧ 10 ∉ w
  | .setParseType _ | .setHeaderField _ _ | .setRequestUri _ | .setFragment _ | .setQueryString _
  | .setBodyStart _ | .setReasonPhrase _ | .setStatusCode _ => True

namespace HttpParser

theorem LineFree.sound {base : Nat} {text : Bytes} {s : HttpParser} (h : LineFree base text s)
    (c : UInt8) (rest : Bytes) :
    ∀ cb ∈ (actionLoop (base + (text ++ c :: rest).length) (base + text.length)
      { s with cs := transTarg (trans s.cs c) } (transActs (trans s.cs c))).2.1,
      cb.LineFree base (text ++ c :: rest) := by
  intro cb hcb
  obtain ⟨-, huses, -, -⟩ := uses_row s.cs h.1 _ (trans_mem_row h.1 c)
  obtain ⟨before, a, behind, hacts, hdone, hcb⟩ := mem_actionLoop hcb
  obtain ⟨hmark, -⟩ := usesSet_append (hacts ▸ huses)
  have hslice : usesMark a = true → ∃ w, (slice (actionLoop (base + (text ++ c :: rest).length)
      (base + text.length) { s with cs := transTarg (trans s.cs c) } before).1.mark
      (base + text.length)).Holds base (text ++ c :: rest) w ∧ 10 ∉ w := by
    intro ha
    rw [actionLoop_mark hdone]
    cases hset : before.any setsMark with
    | true => exact ⟨[], (Since.nil base text).holds (c :: rest), List.not_mem_nil⟩
    | false =>
      obtain ⟨w, hsince, hw⟩ := h.2 (by simpa [hset] using hmark ha)
      exact ⟨w, hsince.holds (c :: rest), hw⟩
  unfold action at hcb
  split at hcb <;> simp only [List.mem_singleton, List.not_mem_nil] at hcb
  all_goals subst hcb
  all_goals first | trivial | exact hslice rfl

theorem parse_lineFree (bytes : Bytes) : ∀ cb ∈ (reset.parse 0 bytes).2, cb.LineFree 0 bytes := by
  have hend : ∀ (text : Bytes) (s : HttpParser), s.cs = firstFinal ∨ s.cs = error →
      LineFree 0 text s := by
    intro text s hcs
    obtain ⟨hlt, hmark⟩ : s.cs < 72 ∧ ¬marked s.cs = true := by
      rcases hcs with hcs | hcs <;> rw [hcs] <;> decide
    exact ⟨hlt, fun hm => absurd hm hmark⟩
  have hstart : LineFree 0 [] reset := ⟨by decide, fun hm => absurd hm (by decide)⟩
  have h := parse_invariant (I := LineFree 0) (P := Callback.LineFree 0) hend (fun _ _ pe c hs h => h.step hs pe c)
    (fun _ _ c rest _ h => h.sound c rest) (fun _ _ _ h => h) hstart bytes
  exact h.2

/-! ### Chunks -/

theorem parse_append (text chunk : Bytes) (h : scanner.stops (reset.parse 0 text).1 = false) :
    reset.parse 0 (text ++ chunk) =
      (((reset.parse 0 text).1.parse text.length chunk).1,
        (reset.parse 0 text).2 ++ ((reset.parse 0 text).1.parse text.length chunk).2) := by
  have hreset : scanner.stops reset = false := rfl
  rw [parse_eq_scan h, parse_eq_scan hreset, parse_eq_scan hreset, Lib.Scanner.scan_append]
  rw [parse_eq_scan hreset] at h
  set r := scanner.scan text 0 reset with hr
  replace h : scanner.stops r.1 = false := h
  have hpos : r.2.1 = text.length := (scanner.pos_of_not_stops h).trans (Nat.zero_add _)
  have hle := scanner.le_pos chunk text.length r.1
  simp only [hpos, scan_nread, List.map_append, Prod.mk.injEq, Nat.sub_zero, Nat.zero_add,
    List.length_append]
  refine ⟨?_, by rw [endAt_of_not_stops h]⟩
  simp only [HttpParser.mk.injEq, true_and, and_true]
  omega

/-- Bytes behind the end of a head change nothing but the length of the body that was found
there. -/
theorem parse_append_of_stops (text rest : Bytes) (h : scanner.stops (reset.parse 0 text).1 = true) :
    reset.parse 0 (text ++ rest) = ((reset.parse 0 text).1,
      (reset.parse 0 text).2.map (Callback.endAt fun _ => (text ++ rest).length)) := by
  have hreset : scanner.stops reset = false := rfl
  rw [parse_eq_scan hreset] at h
  replace h : scanner.stops (scanner.scan text 0 reset).1 = true := h
  rw [parse_eq_scan hreset, parse_eq_scan hreset, Lib.Scanner.scan_append]
  simp [scanner.scan_of_stops h, Function.comp_def, endAt_endAt]

/-- A parser that needs more has read everything. -/
theorem nread_of_not_stops (text : Bytes) (h : scanner.stops (reset.parse 0 text).1 = false) :
    (reset.parse 0 text).1.nread = text.length := by
  have hreset : scanner.stops reset = false := rfl
  rw [parse_eq_scan hreset] at h ⊢
  replace h : scanner.stops (scanner.scan text 0 reset).1 = false := h
  have hpos := scanner.pos_of_not_stops h
  change 0 + ((scanner.scan text 0 reset).2.1 - 0) = _
  omega

theorem nread_le (text : Bytes) : (reset.parse 0 text).1.nread ≤ text.length := by
  have hreset : scanner.stops reset = false := rfl
  rw [parse_eq_scan hreset]
  have hle := scanner.pos_le text 0 reset
  change 0 + ((scanner.scan text 0 reset).2.1 - 0) ≤ _
  omega

end HttpParser

namespace HttpRequest

theorem callback_withParser (mem : Bytes) (r : HttpRequest) (p : HttpParser) (cb : Callback) :
    callback mem { r with parser := p } cb = { callback mem r cb with parser := p } := by
  cases cb <;> rfl

theorem foldl_callback_withParser (mem : Bytes) (r : HttpRequest) (p : HttpParser) (cbs : List Callback) :
    cbs.foldl (callback mem) { r with parser := p } =
      { cbs.foldl (callback mem) r with parser := p } := by
  induction cbs generalizing r with
  | nil => rfl
  | cons cb cbs ih => rw [List.foldl_cons, callback_withParser, ih, List.foldl_cons]

/-- A callback reads nothing but the bytes fed so far. -/
theorem callback_congr {mem mem' text : Bytes} {cb : Callback} (hmem : mem.take text.length = text)
    (hmem' : mem'.take text.length = text) (hsound : cb.Sound 0 text) (r : HttpRequest) :
    callback mem r cb = callback mem' r cb := by
  have heq : ∀ str w, str.Holds 0 text w → bytesAt mem str = bytesAt mem' str := by
    intro str w hholds
    rw [RequestMemory.bytesAt_of_holds (by simpa using hmem) hholds,
      RequestMemory.bytesAt_of_holds (by simpa using hmem') hholds]
  cases cb with
  | setHeaderField name value =>
    obtain ⟨⟨w, hname, -⟩, w', hvalue, -⟩ := hsound
    simp only [callback, heq name w hname, heq value w' hvalue]
  | setRequestPath str =>
    obtain ⟨w, hholds, -⟩ := hsound
    simp only [callback, heq str w hholds]
  | setRequestMethod str | setRequestUri str | setFragment str | setQueryString str
  | setHttpVersion str =>
    obtain ⟨w, hholds⟩ := hsound
    simp only [callback, heq str w hholds]
  | setParseType _ | setBodyStart _ | setReasonPhrase _ | setStatusCode _ => rfl

theorem foldl_callback_congr {mem mem' text : Bytes} {cbs : List Callback}
    (hmem : mem.take text.length = text) (hmem' : mem'.take text.length = text)
    (hsound : ∀ cb ∈ cbs, cb.Sound 0 text) (r : HttpRequest) :
    cbs.foldl (callback mem) r = cbs.foldl (callback mem') r := by
  induction cbs generalizing r with
  | nil => rfl
  | cons cb cbs ih =>
    rw [List.foldl_cons, List.foldl_cons, callback_congr hmem hmem' (hsound cb List.mem_cons_self),
      ih fun cb' hcb' => hsound cb' (List.mem_cons_of_mem cb hcb')]

/-- The request of a text that is fed at once. -/
def ofText (capacity maxHeaders : Nat) (text : Bytes) : HttpRequest :=
  (resize capacity maxHeaders).parse text 0 text.length

variable {capacity maxHeaders : Nat}

theorem ofText_eq (text : Bytes) : ofText capacity maxHeaders text =
    (HttpParser.reset.parse 0 text).2.foldl (callback text)
      { resize capacity maxHeaders with parser := (HttpParser.reset.parse 0 text).1 } := by
  simp only [ofText, parse, List.drop_zero, List.take_length]
  rfl

theorem parser_ofText (text : Bytes) :
    (ofText capacity maxHeaders text).parser = (HttpParser.reset.parse 0 text).1 := by
  rw [ofText_eq, HttpRequest.parser_callbacks]

theorem sound_ofText (text : Bytes) :
    ∀ cb ∈ (HttpParser.reset.parse 0 text).2, cb.Sound 0 text := by
  have h : HttpParser.Captured 0 [] HttpParser.reset := HttpParser.captured_of_cs (.inl rfl)
  exact (HttpParser.parse_captured h text).2

/-- One more chunk of the text. -/
theorem parse_ofText {mem text chunk : Bytes}
    (hlive : HttpParser.scanner.stops (ofText capacity maxHeaders text).parser = false)
    (hmem : mem.take (text ++ chunk).length = text ++ chunk) :
    (ofText capacity maxHeaders text).parse mem text.length chunk.length =
      ofText capacity maxHeaders (text ++ chunk) := by
  rw [parser_ofText] at hlive
  have happend := HttpParser.parse_append text chunk hlive
  have hchunk : (mem.drop text.length).take chunk.length = chunk := by
    have hdrop := congrArg (List.drop text.length) hmem
    rwa [List.drop_take, List.length_append, Nat.add_sub_cancel_left, List.drop_left] at hdrop
  have hsound := sound_ofText (text ++ chunk)
  rw [happend] at hsound
  have htext : (text ++ chunk).take text.length = text := List.take_left
  rw [parse, parser_ofText, hchunk]
  simp only
  rw [ofText_eq, ofText_eq, happend, List.foldl_append, ← foldl_callback_withParser,
    foldl_callback_congr List.take_length htext (sound_ofText text)]
  exact foldl_callback_congr hmem List.take_length
    (fun cb hcb => hsound cb (List.mem_append_right _ hcb)) _

/-- A request without the place of the body behind it. -/
def dropBody (r : HttpRequest) : HttpRequest := { r with bodyStart := ⟨none, 0⟩ }

theorem dropBody_callback (mem : Bytes) (r : HttpRequest) (cb : Callback) :
    (callback mem r cb).dropBody = (callback mem r.dropBody cb).dropBody := by
  cases cb <;> rfl

theorem dropBody_foldl_endAt {r r' : HttpRequest} (h : r.dropBody = r'.dropBody) (mem : Bytes) (f : Nat → Nat)
    (cbs : List Callback) : ((cbs.map (Callback.endAt f)).foldl (callback mem) r).dropBody =
      (cbs.foldl (callback mem) r').dropBody := by
  induction cbs generalizing r r' with
  | nil => exact h
  | cons cb cbs ih =>
    rw [List.map_cons, List.foldl_cons, List.foldl_cons]
    refine ih ?_
    match cb with
    | .setBodyStart ⟨some q, l⟩ => exact h
    | .setBodyStart ⟨none, _⟩ => exact h
    | .setParseType _ | .setHeaderField _ _ | .setRequestMethod _ | .setRequestUri _ | .setFragment _
    | .setRequestPath _ | .setQueryString _ | .setHttpVersion _ | .setReasonPhrase _
    | .setStatusCode _ =>
      refine (dropBody_callback mem r _).trans ?_
      rw [h]
      exact (dropBody_callback mem r' _).symm

/-- Bytes behind the end of a head do not change the request. -/
theorem dropBody_ofText_append (text rest : Bytes)
    (h : HttpParser.scanner.stops (ofText capacity maxHeaders text).parser = true) :
    (ofText capacity maxHeaders (text ++ rest)).dropBody = (ofText capacity maxHeaders text).dropBody := by
  rw [parser_ofText] at h
  have htext : (text ++ rest).take text.length = text := List.take_left
  rw [ofText_eq, ofText_eq, HttpParser.parse_append_of_stops text rest h,
    foldl_callback_congr List.take_length htext (sound_ofText text)]
  exact dropBody_foldl_endAt rfl _ _ _

theorem reset_callbacks (mem : Bytes) (r : HttpRequest) (cbs : List Callback) :
    (cbs.foldl (callback mem) r).reset = r.reset := by
  have hstore : ∀ {s s' : HeaderStore} {r r' : HttpRequest}, r.store = s → r'.store = s' →
      s'.capacity = s.capacity ∧ s'.maxHeaders = s.maxHeaders → r'.reset = r.reset := by
    rintro s s' r r' rfl rfl ⟨hcap, hmax⟩
    rw [reset, reset, hcap, hmax]
  have halloc : ∀ (s : HeaderStore) (w : Bytes), (s.allocString w).1.capacity = s.capacity ∧
      (s.allocString w).1.maxHeaders = s.maxHeaders := by
    intro s w
    unfold HeaderStore.allocString
    split_ifs <;> exact ⟨rfl, rfl⟩
  have hfield : ∀ (s : HeaderStore) (name value : Bytes),
      (s.setHeaderField name value).1.capacity = s.capacity ∧
        (s.setHeaderField name value).1.maxHeaders = s.maxHeaders := by
    intro s name value
    unfold HeaderStore.setHeaderField
    by_cases hmax : s.headerMap.length = s.maxHeaders
    · simp [hmax]
    rw [if_neg hmax]
    cases s.headerMap.lookup name with
    | none =>
      simp only
      split_ifs <;> exact ⟨rfl, rfl⟩
    | some orig =>
      simp only
      split_ifs <;> exact ⟨rfl, rfl⟩
  induction cbs generalizing r with
  | nil => rfl
  | cons cb cbs ih =>
    rw [List.foldl_cons, ih]
    cases cb with
    | setHeaderField name value => exact hstore rfl rfl (hfield _ _ _)
    | setRequestMethod _ | setRequestUri _ | setFragment _ | setRequestPath _ | setQueryString _
    | setHttpVersion _ => exact hstore rfl rfl (halloc _ _)
    | setParseType _ | setBodyStart _ | setReasonPhrase _ | setStatusCode _ => rfl

theorem reset_ofText (text : Bytes) :
    (ofText capacity maxHeaders text).reset = resize capacity maxHeaders := by
  rw [ofText_eq, reset_callbacks]
  rfl

/-- The strings of the request line, as a reader of C strings sees them, are parts of a line. -/
structure LineStored (r : HttpRequest) : Prop where
  method : ∀ w, r.requestMethod = some w → 10 ∉ cString w
  path : ∀ w, r.requestPath = some w → 10 ∉ cString w
  version : ∀ w, r.httpVersion = some w → 10 ∉ cString w

theorem lineStored_callbacks {mem text : Bytes} {r : HttpRequest} {cbs : List Callback}
    (hmem : mem.take text.length = text) (h : LineStored r) (hfree : ∀ cb ∈ cbs, cb.LineFree 0 text) :
    LineStored (cbs.foldl (callback mem) r) := by
  have hstored : ∀ {s : HeaderStore} {str : HeaderString} {w v : Bytes}, str.Holds 0 text w → 10 ∉ w →
      (s.allocString (bytesAt mem str)).2 = some v → 10 ∉ cString v := by
    intro s str w v hholds hw hv
    rw [RequestMemory.bytesAt_of_holds (by simpa using hmem) hholds, HeaderStore.allocString] at hv
    split_ifs at hv
    obtain rfl := Option.some.inj hv
    exact fun hmem => hw ((List.takeWhile_sublist _).subset hmem)
  induction cbs generalizing r with
  | nil => exact h
  | cons cb cbs ih =>
    refine ih ?_ fun cb' hcb' => hfree cb' (List.mem_cons_of_mem cb hcb')
    have hcb := hfree cb List.mem_cons_self
    cases cb with
    | setRequestMethod str =>
      obtain ⟨w, hholds, hw⟩ := hcb
      exact ⟨fun _ hv => hstored hholds hw hv, h.path, h.version⟩
    | setRequestPath str =>
      obtain ⟨w, hholds, hw⟩ := hcb
      exact ⟨h.method, fun _ hv => hstored hholds hw hv, h.version⟩
    | setHttpVersion str =>
      obtain ⟨w, hholds, hw⟩ := hcb
      exact ⟨h.method, h.path, fun _ hv => hstored hholds hw hv⟩
    | setParseType _ | setHeaderField _ _ | setRequestUri _ | setFragment _ | setQueryString _
    | setBodyStart _ | setReasonPhrase _ | setStatusCode _ => exact ⟨h.method, h.path, h.version⟩

theorem lineStored_ofText (text : Bytes) : LineStored (ofText capacity maxHeaders text) := by
  rw [ofText_eq]
  refine lineStored_callbacks List.take_length ⟨?_, ?_, ?_⟩ (HttpParser.parse_lineFree text) <;>
    exact fun w hw => (Option.some_ne_none w hw.symm).elim

theorem pathStored_ofText (text : Bytes) :
    RequestMemory.PathStored (ofText capacity maxHeaders text) := by
  rw [ofText_eq]
  exact RequestMemory.pathStored_callbacks (by simp)
    (fun w hw => (Option.some_ne_none w hw.symm).elim) (sound_ofText text)

end HttpRequest
end Latypus.Http
