import Latypus.Http.Grammar

/-! What the callbacks of a head leave in the storage of a message, and what a serialiser makes
of the stored fields: the space both take, and the bytes written when there is room. -/

namespace Latypus.Http

variable {mem w rest : Bytes} {p : Nat}

theorem bytesAt_of_drop (h : mem.drop p = w ++ rest) : bytesAt mem ⟨some p, w.length⟩ = w := by
  simp [bytesAt, h]

theorem drop_of_drop (h : mem.drop p = w ++ rest) : mem.drop (p + w.length) = rest := by
  rw [← List.drop_drop, h, List.drop_left]

namespace HeaderStore

variable {s : HeaderStore} {name value : Bytes}

theorem allocString_of_le (str : Bytes) (h : s.bufferOffset + (str.length + 1) ≤ s.capacity) :
    s.allocString str = ({ s with bufferOffset := s.bufferOffset + (str.length + 1) }, some str) := by
  rw [allocString, if_neg (by rw [bytesWritable]; omega)]

/-- The space that header fields take in the storage. -/
def space (fields : List (Bytes × Bytes)) : Nat :=
  (fields.map fun f => f.1.length + 1 + (f.2.length + 1)).sum

def setFields (s : HeaderStore) (fields : List (Bytes × Bytes)) : HeaderStore :=
  fields.foldl (fun s f => (s.setHeaderField f.1 f.2).1) s

theorem setHeaderField_of_le (hmap : s.headerMap.length < s.maxHeaders)
    (hname : name ∉ s.headerMap.map Prod.fst)
    (hspace : s.bufferOffset + (name.length + 1 + (value.length + 1)) ≤ s.capacity) :
    s.setHeaderField name value =
      ({ s with
        bufferOffset := s.bufferOffset + (name.length + 1 + (value.length + 1))
        headerList := s.headerList ++ [(name, value)]
        headerMap := s.headerMap ++ [(name, value)] }, true) := by
  have hlookup : s.headerMap.lookup name = none := by
    rw [List.lookup_eq_none_iff]
    intro e he
    simp only [bne_iff_ne, ne_eq]
    rintro rfl
    exact hname (List.mem_map_of_mem he)
  have hroom : ¬ s.bytesWritable < name.length + value.length + 2 := by
    rw [bytesWritable]
    omega
  simp only [setHeaderField, if_neg (Nat.ne_of_lt hmap), hlookup, if_neg hroom]
  rw [Nat.add_assoc]

/-- Fields with new names are stored in order, when the storage has room for them. -/
theorem setFields_of_le (fields : List (Bytes × Bytes))
    (hmap : s.headerMap.length + fields.length ≤ s.maxHeaders)
    (hnames : ((s.headerMap ++ fields).map Prod.fst).Nodup)
    (hspace : s.bufferOffset + space fields ≤ s.capacity) :
    s.setFields fields =
      { s with
        bufferOffset := s.bufferOffset + space fields
        headerList := s.headerList ++ fields
        headerMap := s.headerMap ++ fields } := by
  induction fields generalizing s with
  | nil => simp [setFields, space]
  | cons f fields ih =>
    obtain ⟨name, value⟩ := f
    simp only [List.length_cons] at hmap
    simp only [space, List.map_cons, List.sum_cons] at hspace
    have hname : name ∉ s.headerMap.map Prod.fst := by
      rw [List.map_append, List.map_cons] at hnames
      intro hmem
      exact (List.nodup_append.mp hnames).2.2 name hmem name List.mem_cons_self rfl
    have hstep : s.setHeaderField name value = _ :=
      setHeaderField_of_le (by omega) hname (by omega)
    have hrest := ih (s := (s.setHeaderField name value).1)
      (by rw [hstep]; simp; omega) (by rw [hstep]; simpa using hnames)
      (by rw [hstep]; simp only [space]; omega)
    rw [hstep] at hrest
    rw [setFields, List.foldl_cons, hstep]
    refine hrest.trans ?_
    simp [space, Nat.add_assoc]

end HeaderStore

theorem space_le_length (fields : List (Bytes × Bytes)) :
    HeaderStore.space fields ≤ (fieldLines fields).length := by
  induction fields with
  | nil => simp [HeaderStore.space]
  | cons f fields ih =>
    simp only [HeaderStore.space, List.map_cons, List.sum_cons, fieldLines, fieldLine,
      List.length_append, List.length_cons, List.length_nil] at ih ⊢
    omega

/-- The header lines are written whole if they leave at least one byte of the buffer. -/
theorem headerLines_eq (bufferSize : Nat) (out : Bytes) (fields : List (Bytes × Bytes)) :
    headerLines bufferSize out fields =
      if (out ++ fieldLines fields).length < bufferSize then some (out ++ fieldLines fields)
      else none := by
  induction fields generalizing out with
  | nil =>
    simp only [headerLines, fieldLines, List.length_append, List.length_cons, List.length_nil]
    split_ifs with h h' h'
    · rfl
    · omega
    · omega
    · rfl
  | cons f fields ih =>
    obtain ⟨name, value⟩ := f
    have hline : out ++ fieldLines ((name, value) :: fields) =
        out ++ name ++ [58, 32] ++ value ++ [13, 10] ++ fieldLines fields := by
      simp [fieldLines, fieldLine]
    rw [headerLines, ih, hline]
    by_cases h : name.length + value.length + 4 < bufferSize - out.length
    · rw [if_pos h]
    · rw [if_neg h, if_neg]
      simp only [List.length_append, List.length_cons, List.length_nil]
      omega

/-- The callbacks of header lines hand over the fields that stand there. -/
theorem foldl_fieldCallbacks {β : Type*} {f : β → Callback → β} (set : β → Bytes × Bytes → β)
    (hf : ∀ r name value, f r (.setHeaderField name value) =
      set r (bytesAt mem name, bytesAt mem value))
    {fields : List (Bytes × Bytes)} (h : mem.drop p = fieldLines fields) (r : β) :
    (HttpParser.fieldCallbacks p fields).foldl f r = fields.foldl set r := by
  induction fields generalizing r p with
  | nil => rfl
  | cons field fields ih =>
    obtain ⟨name, value⟩ := field
    have hname : mem.drop p = name ++ ([58, 32] ++ value ++ [13, 10] ++ fieldLines fields) := by
      simpa [fieldLines, fieldLine] using h
    have hvalue : mem.drop (p + (name.length + 2)) = value ++ ([13, 10] ++ fieldLines fields) := by
      have := drop_of_drop (w := name ++ [58, 32]) (by simpa using hname)
      simpa using this
    rw [HttpParser.fieldCallbacks, List.foldl_cons, List.foldl_cons, hf, bytesAt_of_drop hname,
      bytesAt_of_drop hvalue]
    exact ih (drop_of_drop (w := fieldLine (name, value)) h) _

theorem HttpRequest.foldl_fieldCallbacks (r : HttpRequest) {fields : List (Bytes × Bytes)}
    (h : mem.drop p = fieldLines fields) :
    (HttpParser.fieldCallbacks p fields).foldl (callback mem) r =
      { r with store := r.store.setFields fields } := by
  rw [Http.foldl_fieldCallbacks
    (fun r f => { r with store := (r.store.setHeaderField f.1 f.2).1 }) (fun _ _ _ => rfl) h]
  induction fields generalizing r p with
  | nil => rfl
  | cons field fields ih => exact ih _ (drop_of_drop h)

theorem HttpResponse.foldl_fieldCallbacks (r : HttpResponse) {fields : List (Bytes × Bytes)}
    (h : mem.drop p = fieldLines fields) :
    (HttpParser.fieldCallbacks p fields).foldl (callback mem) r =
      { r with store := r.store.setFields fields } := by
  rw [Http.foldl_fieldCallbacks
    (fun r f => { r with store := (r.store.setHeaderField f.1 f.2).1 }) (fun _ _ _ => rfl) h]
  induction fields generalizing r p with
  | nil => rfl
  | cons field fields ih => exact ih _ (drop_of_drop h)

end Latypus.Http
