import Latypus.Http.HeaderMemory

/-! Sequences of calls on the header storage that `http_request` and `http_response` have in the
same words. The specification is an ordered association list: a new name is put behind the others,
a repeated one keeps its place and gets the new value joined to its old one. -/

namespace Latypus.Http

/-- What a successful `set_header_field` does to the fields. -/
def joinField (fields : List (Bytes × Bytes)) (name value : Bytes) : List (Bytes × Bytes) :=
  if name ∈ fields.map Prod.fst then
    fields.map fun f => if f.1 = name then (f.1, f.2 ++ [44, 32] ++ value) else f
  else fields ++ [(name, value)]

section Fields
variable {fields : List (Bytes × Bytes)} {name value orig : Bytes}

theorem names_joinField (fields : List (Bytes × Bytes)) (name value : Bytes) :
    (joinField fields name value).map Prod.fst =
      if name ∈ fields.map Prod.fst then fields.map Prod.fst else fields.map Prod.fst ++ [name] := by
  rw [joinField]
  split_ifs
  · rw [List.map_map]
    refine List.map_congr_left fun f _ => ?_
    simp only [Function.comp_apply]
    split_ifs <;> rfl
  · simp

theorem nodup_joinField (h : (fields.map Prod.fst).Nodup) (name value : Bytes) :
    ((joinField fields name value).map Prod.fst).Nodup := by
  rw [names_joinField]
  split_ifs with hmem
  · exact h
  · exact List.nodup_append.mpr ⟨h, by simp, by rintro a ha b hb rfl; simp_all⟩

theorem joinField_of_lookup_none (h : fields.lookup name = none) :
    joinField fields name value = fields ++ [(name, value)] := by
  rw [joinField, if_neg]
  intro hmem
  obtain ⟨f, hf, rfl⟩ := List.mem_map.mp hmem
  simp [List.lookup_eq_none_iff] at h
  exact h f.1 f.2 hf rfl

/-- The entry that the code replaces is the one under the name. -/
theorem joinField_of_lookup_some (hnodup : (fields.map Prod.fst).Nodup) (h : fields.lookup name = some orig) :
    joinField fields name value = HeaderStore.replaceFirst (name, orig) (orig ++ [44, 32] ++ value) fields := by
  have hmem : name ∈ fields.map Prod.fst := by
    obtain ⟨l₁, l₂, rfl, -⟩ := List.lookup_eq_some_iff.mp h
    simp
  rw [joinField, if_pos hmem]
  clear hmem
  induction fields with
  | nil => rfl
  | cons f fields ih =>
    rw [List.map_cons, List.nodup_cons] at hnodup
    rw [List.map_cons, HeaderStore.replaceFirst]
    by_cases hname : f.1 = name
    · subst hname
      rw [HeaderMemory.lookup_field, if_pos rfl, Option.some.injEq] at h
      have hrest : ∀ f' ∈ fields, f'.1 ≠ f.1 := by
        rintro f' hf' heq
        exact hnodup.1 (heq ▸ List.mem_map_of_mem hf')
      rw [if_pos rfl, if_pos (by rw [← h]), h]
      congr 1
      nth_rewrite 2 [← List.map_id fields]
      exact List.map_congr_left fun f' hf' => if_neg (hrest f' hf')
    · rw [HeaderMemory.lookup_field, if_neg hname] at h
      rw [if_neg hname, if_neg (fun hf => hname (by rw [hf])), ih hnodup.2 h]

end Fields

/-- The storage holds the fields: in both containers, under distinct names, and not more than
allowed. -/
structure HeaderStore.Holds (s : HeaderStore) (fields : List (Bytes × Bytes)) : Prop where
  headerList : s.headerList = fields
  headerMap : s.headerMap = fields
  nodup : (fields.map Prod.fst).Nodup
  count : fields.length ≤ s.maxHeaders

namespace HeaderStore
variable {s : HeaderStore} {fields : List (Bytes × Bytes)}

theorem Holds.allocString (h : s.Holds fields) (w : Bytes) : (s.allocString w).1.Holds fields := by
  rw [HeaderStore.allocString]
  split_ifs <;> exact ⟨h.headerList, h.headerMap, h.nodup, h.count⟩

/-- `set_header_field` fails, appends a new field or joins a value to an old one. -/
theorem setHeaderField_cases (s : HeaderStore) (name value : Bytes) :
    s.setHeaderField name value = ({ s with overflow := true }, false) ∨
    (s.headerMap.length ≠ s.maxHeaders ∧ s.headerMap.lookup name = none ∧
      s.setHeaderField name value = ({ s with
        bufferOffset := s.bufferOffset + (name.length + 1) + (value.length + 1)
        headerList := s.headerList ++ [(name, value)]
        headerMap := s.headerMap ++ [(name, value)] }, true)) ∨
    ∃ orig, s.headerMap.lookup name = some orig ∧
      s.setHeaderField name value = ({ s with
        bufferOffset := s.bufferOffset + ((orig ++ [44, 32] ++ value).length + 1)
        headerList := replaceFirst (name, orig) (orig ++ [44, 32] ++ value) s.headerList
        headerMap := replaceFirst (name, orig) (orig ++ [44, 32] ++ value) s.headerMap }, true) := by
  rw [HeaderStore.setHeaderField]
  by_cases hmax : s.headerMap.length = s.maxHeaders
  · exact .inl (if_pos hmax)
  rw [if_neg hmax]
  cases hlookup : s.headerMap.lookup name with
  | none =>
    by_cases hroom : s.bytesWritable < name.length + value.length + 2
    · exact .inl (if_pos hroom)
    · exact .inr (.inl ⟨hmax, rfl, if_neg hroom⟩)
  | some orig =>
    by_cases hroom : s.bytesWritable < (orig ++ [44, 32] ++ value).length + 1
    · exact .inl (if_pos hroom)
    · exact .inr (.inr ⟨orig, rfl, if_neg hroom⟩)

theorem Holds.setHeaderField (h : s.Holds fields) (name value : Bytes) :
    (s.setHeaderField name value).1.Holds
      (if (s.setHeaderField name value).2 then joinField fields name value else fields) := by
  have hcount := h.count
  have hmap := h.headerMap
  obtain hcall | ⟨hmax, hlookup, hcall⟩ | ⟨orig, hlookup, hcall⟩ := s.setHeaderField_cases name value
  · rw [hcall]
    exact ⟨h.headerList, h.headerMap, h.nodup, h.count⟩
  · rw [hmap] at hmax hlookup
    have hjoin : joinField fields name value = fields ++ [(name, value)] := joinField_of_lookup_none hlookup
    rw [hcall]
    refine ⟨by simp [hjoin, h.headerList], by simp [hjoin, hmap], nodup_joinField h.nodup name value, ?_⟩
    simp only [if_true, hjoin, List.length_append, List.length_singleton]
    omega
  · rw [hmap] at hlookup
    have hjoin : joinField fields name value = replaceFirst (name, orig) (orig ++ [44, 32] ++ value) fields :=
      joinField_of_lookup_some h.nodup hlookup
    rw [hcall]
    refine ⟨by simp only [if_true, hjoin, h.headerList], by simp only [if_true, hjoin, hmap],
      nodup_joinField h.nodup name value, ?_⟩
    have hlen := congrArg List.length (names_joinField fields name value)
    obtain ⟨l₁, l₂, hfields, -⟩ := List.lookup_eq_some_iff.mp hlookup
    rw [if_pos (by simp [hfields]), List.length_map, List.length_map] at hlen
    exact hlen.trans_le hcount

theorem setHeaderField_limits (s : HeaderStore) (name value : Bytes) :
    (s.setHeaderField name value).1.capacity = s.capacity ∧
      (s.setHeaderField name value).1.maxHeaders = s.maxHeaders := by
  obtain hcall | ⟨-, -, hcall⟩ | ⟨orig, -, hcall⟩ := s.setHeaderField_cases name value <;> rw [hcall] <;>
    exact ⟨rfl, rfl⟩

end HeaderStore

/-! ### Runs -/

inductive HeaderCall where
  | allocString (str : Bytes)
  | setHeaderField (name value : Bytes)

def HeaderCall.Short : HeaderCall → Prop
  | allocString str => str.length < 2 ^ 62
  | setHeaderField name value => name.length < 2 ^ 62 ∧ value.length < 2 ^ 62

namespace HeaderMemory

/-- `get_header_string`: the pointer to the value under a C string. -/
def getHeaderString (m : HeaderMemory) (name : Bytes) : Option Nat :=
  (m.headerMap.find? fun e => bytesAt m.buffer e.1 = cString name).bind (·.2.data)

/-- The sums of lengths that a call computes. -/
def sums (m : HeaderMemory) : HeaderCall → List Nat
  | .allocString str => [str.length + 1]
  | .setHeaderField name value =>
    match m.headerMap.find? fun e => bytesAt m.buffer e.1 = name with
    | none => [name.length + value.length + 2]
    | some (_, orig) => [orig.length + value.length + 2, orig.length + value.length + 2 + 1]

variable {m m' : HeaderMemory}

theorem eq_of_allocString_fails {str : Bytes} {s : HeaderString} (h : m.allocString str = some (m', s))
    (hfails : s.data = none) : m' = { m with overflow := true } := by
  rw [HeaderMemory.allocString] at h
  split_ifs at h
  · exact (Prod.mk.inj (Option.some.inj h)).1.symm
  · obtain ⟨buffer, -, hpush⟩ := Option.map_eq_some_iff.mp h
    obtain ⟨-, rfl⟩ := Prod.mk.inj hpush
    cases hfails

theorem eq_of_setHeaderField_fails {name value : Bytes} (h : m.setHeaderField name value = some (m', false)) :
    m' = { m with overflow := true } := by
  have hfailed (h : some ({ m with overflow := true }, false) = some (m', false)) :
      m' = { m with overflow := true } := (Prod.mk.inj (Option.some.inj h)).1.symm
  rw [HeaderMemory.setHeaderField] at h
  by_cases hmax : m.headerMap.length = m.maxHeaders
  · rw [if_pos hmax] at h
    exact hfailed h
  rw [if_neg hmax] at h
  cases hfind : m.headerMap.find? fun e => bytesAt m.buffer e.1 = name with
  | none =>
    simp only [hfind] at h
    split_ifs at h
    · exact hfailed h
    · simp [Option.bind_eq_some_iff] at h
  | some e =>
    simp only [hfind] at h
    split_ifs at h
    · exact hfailed h
    · simp [Option.bind_eq_some_iff] at h

end HeaderMemory

/-- The storage with a record of what the calls so far stand for: the fields, and the strings that
`alloc_string` has returned. -/
structure HeaderHistory where
  memory : HeaderMemory
  fields : List (Bytes × Bytes)
  strings : List (HeaderString × Bytes)

namespace HeaderHistory
open HeaderMemory

def reset (buffer : Bytes) (maxHeaders : Nat) : HeaderHistory := ⟨.reset buffer maxHeaders, [], []⟩

def call (t : HeaderHistory) : HeaderCall → Option HeaderHistory
  | .allocString str => do
    let (memory, s) ← t.memory.allocString str
    some { t with memory, strings := if s.data = none then t.strings else t.strings ++ [(s, str)] }
  | .setHeaderField name value => do
    let (memory, ok) ← t.memory.setHeaderField name value
    some { t with memory, fields := if ok then joinField t.fields name value else t.fields }

/-- What the storage holds after any calls. -/
structure Sound (bufferSize maxHeaders : Nat) (t : HeaderHistory) : Prop where
  headerList : List.Forall₂ (Entry t.memory.buffer t.memory.bufferOffset) t.memory.headerList t.fields
  headerMap : List.Forall₂ (Entry t.memory.buffer t.memory.bufferOffset) t.memory.headerMap t.fields
  names : (t.fields.map Prod.fst).Nodup
  strings : ∀ x ∈ t.strings, x.1.Stored t.memory.buffer t.memory.bufferOffset x.2
  size : t.memory.buffer.length = bufferSize
  offset : t.memory.bufferOffset ≤ bufferSize
  count : t.fields.length ≤ maxHeaders
  found : ∀ name v, 0 ∉ name → t.fields.lookup name = some v →
    ∃ q, t.memory.getHeaderString name = some q ∧ (t.memory.buffer.drop q).take (v.length + 1) = v ++ [0]
  missing : ∀ name, 0 ∉ name → t.fields.lookup name = none → t.memory.getHeaderString name = none

/-- The invariant of the runs. -/
structure Inv (size maxHeaders : Nat) (t : HeaderHistory) (s : HeaderStore) : Prop where
  represents : t.memory.Represents s
  holds : s.Holds t.fields
  capacity : s.capacity = size
  maxHeaders : s.maxHeaders = maxHeaders
  strings : ∀ x ∈ t.strings, x.1.Stored t.memory.buffer t.memory.bufferOffset x.2

variable {size maxHeaders : Nat} {t : HeaderHistory} {s : HeaderStore}

theorem Inv.sound (h : t.Inv size maxHeaders s) : t.Sound size maxHeaders := by
  have hmap : List.Forall₂ (Entry t.memory.buffer t.memory.bufferOffset) t.memory.headerMap t.fields := by
    have := h.represents.headerMap
    rwa [h.holds.headerMap] at this
  refine ⟨?_, hmap, h.holds.nodup, h.strings, ?_, ?_, ?_, ?_, ?_⟩
  · have := h.represents.headerList
    rwa [h.holds.headerList] at this
  · exact h.represents.capacity.trans h.capacity
  · exact h.represents.offset_le.trans_eq (h.represents.capacity.trans h.capacity)
  · exact h.maxHeaders ▸ h.holds.count
  · intro name v hname hlookup
    obtain ⟨-, hnone⟩ | ⟨e, orig, hfind, hsome, -, q, hq, -, hbytes⟩ := find_spec hmap name
    · simp [hlookup] at hnone
    · obtain rfl : v = orig := Option.some.inj (hlookup.symm.trans hsome)
      exact ⟨q, by rw [getHeaderString, cString_of_notMem hname, hfind, Option.bind_some, hq], hbytes⟩
  · intro name hname hlookup
    obtain ⟨hfind, -⟩ | ⟨e, orig, -, hsome, -⟩ := find_spec hmap name
    · rw [getHeaderString, cString_of_notMem hname, hfind, Option.bind_none]
    · simp [hlookup] at hsome

theorem inv_reset (buffer : Bytes) (maxHeaders : Nat) :
    (reset buffer maxHeaders).Inv buffer.length maxHeaders (.resize buffer.length maxHeaders) where
  represents := ⟨rfl, rfl, Nat.zero_le _, rfl, rfl, .nil, .nil⟩
  holds := ⟨rfl, rfl, by simp [reset], Nat.zero_le _⟩
  capacity := rfl
  maxHeaders := rfl
  strings := by simp [reset]

/-- A call keeps the invariant. -/
theorem Inv.call (h : t.Inv size maxHeaders s) (c : HeaderCall) :
    ∃ t' s', t.call c = some t' ∧ t'.Inv size maxHeaders s' := by
  cases c with
  | allocString str =>
    obtain ⟨m', w, hcall, hrep, hkeep, hstr⟩ := allocString_spec h.represents str
    have hcall' : t.call (.allocString str) = some { t with
        memory := m', strings := if w.data = none then t.strings else t.strings ++ [(w, str)] } := by
      rw [HeaderHistory.call, hcall]
      rfl
    refine ⟨_, _, hcall', hrep, h.holds.allocString str, ?_, ?_, fun x hx => ?_⟩
    · rw [HeaderStore.allocString]
      split_ifs <;> exact h.capacity
    · rw [HeaderStore.allocString]
      split_ifs <;> exact h.maxHeaders
    · simp only at hx
      split_ifs at hx with hnull
      · exact hkeep _ _ (h.strings x hx)
      · rcases List.mem_append.mp hx with hx | hx
        · exact hkeep _ _ (h.strings x hx)
        · rw [List.mem_singleton.mp hx]
          rcases hstr with ⟨-, rfl⟩ | ⟨-, hstored⟩
          · exact absurd rfl hnull
          · exact hstored
  | setHeaderField name value =>
    obtain ⟨m', hcall, hrep, hkeep⟩ := setHeaderField_spec h.represents name value
    have hcall' : t.call (.setHeaderField name value) = some { t with
        memory := m'
        fields := if (s.setHeaderField name value).2 then joinField t.fields name value else t.fields } := by
      rw [HeaderHistory.call, hcall]
      rfl
    refine ⟨_, _, hcall', hrep, h.holds.setHeaderField name value, ?_, ?_,
      fun x hx => hkeep _ _ (h.strings x hx)⟩
    · rw [(s.setHeaderField_limits name value).1, h.capacity]
    · rw [(s.setHeaderField_limits name value).2, h.maxHeaders]

theorem Inv.calls (h : t.Inv size maxHeaders s) (calls : List HeaderCall) :
    ∃ t' s', calls.foldlM HeaderHistory.call t = some t' ∧ t'.Inv size maxHeaders s' := by
  induction calls generalizing t s with
  | nil => exact ⟨t, s, rfl, h⟩
  | cons c calls ih =>
    obtain ⟨t₁, s₁, hcall, hinv⟩ := h.call c
    obtain ⟨t', s', hcalls, hinv'⟩ := ih hinv
    exact ⟨t', s', by rw [List.foldlM_cons, hcall]; exact hcalls, hinv'⟩

/-- No sum of lengths wraps. -/
theorem Inv.sums_lt (h : t.Inv size maxHeaders s) (hsize : size < 2 ^ 63) {c : HeaderCall} (hc : c.Short) :
    ∀ n ∈ t.memory.sums c, n < 2 ^ 64 := by
  cases c with
  | allocString str =>
    intro n hn
    obtain rfl := List.mem_singleton.mp hn
    have : str.length < 2 ^ 62 := hc
    omega
  | setHeaderField name value =>
    obtain ⟨hname, hvalue⟩ := hc
    rw [HeaderMemory.sums]
    obtain ⟨hfind, -⟩ | ⟨e, orig, hfind, -, -, q, hq, hle, -⟩ := find_spec h.represents.headerMap name
    · simp only [hfind, List.mem_singleton, forall_eq]
      omega
    · have horig : e.2.length = orig.length := by rw [hq]
      have hoffset := h.sound.offset
      have hlen : orig.length < 2 ^ 63 := by
        simp only at hle
        omega
      simp only [hfind, horig, List.forall_mem_cons]
      refine ⟨by omega, by omega, by simp⟩

end HeaderHistory

/-- The header storage refines an ordered association list, for every buffer, every limit on the
headers and every sequence of calls. The next call computes no sum that wraps, and one that fails
sets the overflow flag and changes nothing else. -/
theorem headerCalls_refine (buffer : Bytes) (hbuffer : buffer.length < 2 ^ 63) (maxHeaders : Nat)
    (calls : List HeaderCall) :
    ∃ t, calls.foldlM HeaderHistory.call (.reset buffer maxHeaders) = some t ∧
      t.Sound buffer.length maxHeaders ∧
      (∀ c : HeaderCall, c.Short → ∀ n ∈ t.memory.sums c, n < 2 ^ 64) ∧
      (∀ str m s, t.memory.allocString str = some (m, s) → s.data = none →
        m = { t.memory with overflow := true }) ∧
      (∀ name value m, t.memory.setHeaderField name value = some (m, false) →
        m = { t.memory with overflow := true }) := by
  obtain ⟨t, s, hrun, hinv⟩ := (HeaderHistory.inv_reset buffer maxHeaders).calls calls
  exact ⟨t, hrun, hinv.sound, fun c hc => hinv.sums_lt hbuffer hc,
    fun str m s h => HeaderMemory.eq_of_allocString_fails h,
    fun name value m h => HeaderMemory.eq_of_setHeaderField_fails h⟩

/-- Two values under one name in a buffer of 16 bytes, and a string behind them. -/
theorem headerCalls_refine_twice :
    ∃ t, [HeaderCall.setHeaderField [97] [98], .setHeaderField [97] [99], .allocString [100]].foldlM
        HeaderHistory.call (.reset (List.replicate 16 0) 2) = some t ∧ t.Sound 16 2 ∧
      t.fields = [([97], [98, 44, 32, 99])] ∧ t.memory.bufferOffset = 11 := by
  obtain ⟨t, ht, hsound, -⟩ := headerCalls_refine (List.replicate 16 0) (by decide) 2
    [.setHeaderField [97] [98], .setHeaderField [97] [99], .allocString [100]]
  refine ⟨t, ht, hsound, ?_⟩
  have heval : ([HeaderCall.setHeaderField [97] [98], .setHeaderField [97] [99], .allocString [100]].foldlM
      HeaderHistory.call (.reset (List.replicate 16 0) 2)).map (fun t => (t.fields, t.memory.bufferOffset)) =
      some ([([97], [98, 44, 32, 99])], 11) := by decide
  rw [ht] at heval
  simpa using heval

end Latypus.Http
