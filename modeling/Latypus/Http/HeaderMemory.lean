import Mathlib.Data.List.Forall2
import Latypus.Http.Message
import Latypus.Lib.Memory

/-! The header buffer of `http_request` and `http_response` as memory: strings are copied behind
one another, each with a terminator, and the header lists hold pointers. What the pointers lead
to is the header storage of the message model; no copy is overwritten. -/

namespace Latypus.Http
open Lib

/-- The string points to a copy of `w` with its terminator, below the position `limit`. -/
def HeaderString.Stored (buffer : Bytes) (limit : Nat) (str : HeaderString) (w : Bytes) : Prop :=
  ∃ q, str = ⟨some q, w.length⟩ ∧ q + (w.length + 1) ≤ limit ∧
    (buffer.drop q).take (w.length + 1) = w ++ [0]

structure HeaderMemory where
  buffer : Bytes
  bufferOffset : Nat
  maxHeaders : Nat
  headerList : List (HeaderString × HeaderString)
  headerMap : List (HeaderString × HeaderString)
  overflow : Bool
deriving DecidableEq, Repr

namespace HeaderMemory

/-- `reset` of a storage with the given buffer. -/
def reset (buffer : Bytes) (maxHeaders : Nat) : HeaderMemory := ⟨buffer, 0, maxHeaders, [], [], false⟩

def bytesWritable (m : HeaderMemory) : Nat := m.buffer.length - m.bufferOffset

/-- Copy a string and its terminator behind the others; `none` for a write outside the buffer. -/
def push (m : HeaderMemory) (str : Bytes) : Option (HeaderMemory × HeaderString) :=
  (store m.buffer m.bufferOffset (str ++ [0])).map fun buffer =>
    ({ m with buffer, bufferOffset := m.bufferOffset + (str.length + 1) },
      ⟨some m.bufferOffset, str.length⟩)

def allocString (m : HeaderMemory) (str : Bytes) : Option (HeaderMemory × HeaderString) :=
  if m.bytesWritable < str.length + 1 then some ({ m with overflow := true }, ⟨none, 0⟩)
  else m.push str

/-- Give the first entry that satisfies `p` a new value. -/
def assign (p : HeaderString × HeaderString → Bool) (value : HeaderString) :
    List (HeaderString × HeaderString) → List (HeaderString × HeaderString)
  | [] => []
  | e :: es => if p e then (e.1, value) :: es else e :: assign p value es

def setHeaderField (m : HeaderMemory) (name value : Bytes) : Option (HeaderMemory × Bool) :=
  if m.headerMap.length = m.maxHeaders then some ({ m with overflow := true }, false)
  else
    match m.headerMap.find? fun e => bytesAt m.buffer e.1 = name with
    | none =>
      if m.bytesWritable < name.length + value.length + 2 then
        some ({ m with overflow := true }, false)
      else do
        let (m, n) ← m.push name
        let (m, v) ← m.push value
        some ({ m with headerList := m.headerList ++ [(n, v)], headerMap := m.headerMap ++ [(n, v)] },
          true)
    | some (key, orig) =>
      let joined := bytesAt m.buffer orig ++ [44, 32] ++ value
      if m.bytesWritable < joined.length + 1 then some ({ m with overflow := true }, false)
      else do
        let (m', v) ← m.push joined
        some ({ m' with
          headerList := assign (fun e => bytesAt m.buffer e.1 = bytesAt m.buffer key &&
            bytesAt m.buffer e.2 = bytesAt m.buffer orig) v m'.headerList
          headerMap := assign (fun e => bytesAt m.buffer e.1 = name) v m'.headerMap }, true)

/-- The entries point to what the storage of the message model has. -/
def Entry (buffer : Bytes) (limit : Nat) (e : HeaderString × HeaderString) (f : Bytes × Bytes) : Prop :=
  e.1.Stored buffer limit f.1 ∧ e.2.Stored buffer limit f.2

structure Represents (m : HeaderMemory) (s : HeaderStore) : Prop where
  capacity : m.buffer.length = s.capacity
  offset : m.bufferOffset = s.bufferOffset
  offset_le : m.bufferOffset ≤ m.buffer.length
  maxHeaders : m.maxHeaders = s.maxHeaders
  overflow : m.overflow = s.overflow
  headerList : List.Forall₂ (Entry m.buffer m.bufferOffset) m.headerList s.headerList
  headerMap : List.Forall₂ (Entry m.buffer m.bufferOffset) m.headerMap s.headerMap

/-- Every string stored before is still there. -/
def Keeps (m m' : HeaderMemory) : Prop :=
  ∀ str w, HeaderString.Stored m.buffer m.bufferOffset str w → str.Stored m'.buffer m'.bufferOffset w

section Push
variable {m : HeaderMemory} {s : HeaderStore} {buffer buffer' src w : Bytes} {str : HeaderString}
variable {limit limit' : Nat}

theorem Stored.of_store (h : str.Stored buffer limit w) (hs : store buffer limit src = some buffer')
    (hle : limit ≤ limit') : str.Stored buffer' limit' w := by
  obtain ⟨q, rfl, hq, hw⟩ := h
  obtain ⟨hlen, rfl⟩ := store_eq_some.mp hs
  have htake : (buffer.take limit).length = limit := by
    rw [List.length_take]
    omega
  refine ⟨q, rfl, hq.trans hle, ?_⟩
  rw [List.append_assoc, List.drop_append_of_le_length (by omega),
    List.take_append_of_le_length (by rw [List.length_drop]; omega), List.drop_take, List.take_take,
    min_eq_left (by omega), hw]

theorem bytesAt_of_stored (h : str.Stored buffer limit w) : bytesAt buffer str = w := by
  obtain ⟨q, rfl, -, hw⟩ := h
  have htake := congrArg (List.take w.length) hw
  rwa [List.take_take, min_eq_left (Nat.le_succ _), List.take_left] at htake

theorem push_spec (hw : m.bufferOffset + (w.length + 1) ≤ m.buffer.length) :
    ∃ buffer', m.push w = some ({ m with
        buffer := buffer', bufferOffset := m.bufferOffset + (w.length + 1) },
        ⟨some m.bufferOffset, w.length⟩) ∧
      buffer'.length = m.buffer.length ∧
      HeaderString.Stored buffer' (m.bufferOffset + (w.length + 1)) ⟨some m.bufferOffset, w.length⟩ w ∧
      ∀ str w', HeaderString.Stored m.buffer m.bufferOffset str w' →
        str.Stored buffer' (m.bufferOffset + (w.length + 1)) w' := by
  have hlen : (w ++ [0]).length = w.length + 1 := by simp
  have hstore : store m.buffer m.bufferOffset (w ++ [0]) = some (m.buffer.take m.bufferOffset ++
      (w ++ [0]) ++ m.buffer.drop (m.bufferOffset + (w.length + 1))) :=
    store_eq_some.mpr ⟨by rw [hlen]; exact hw, by rw [hlen]⟩
  refine ⟨_, by rw [push, hstore]; rfl, length_of_store hstore, ?_, ?_⟩
  · refine ⟨m.bufferOffset, rfl, le_rfl, ?_⟩
    have htake : (m.buffer.take m.bufferOffset).length = m.bufferOffset := by
      rw [List.length_take]
      omega
    rw [List.append_assoc, List.drop_left' htake, List.take_left' hlen]
  · exact fun str w' h => Stored.of_store h hstore (by omega)

theorem Entry.mono {limit' : Nat} {buffer' : Bytes} {e : HeaderString × HeaderString}
    {f : Bytes × Bytes} (hkeep : ∀ str w, HeaderString.Stored buffer limit str w →
      str.Stored buffer' limit' w) (h : Entry buffer limit e f) : Entry buffer' limit' e f :=
  ⟨hkeep _ _ h.1, hkeep _ _ h.2⟩

theorem lookup_field (name : Bytes) (f : Bytes × Bytes) (fields : List (Bytes × Bytes)) :
    (f :: fields).lookup name = if f.1 = name then some f.2 else fields.lookup name := by
  obtain ⟨name', value⟩ := f
  rw [List.lookup_cons]
  by_cases h : name' = name
  · simp [h]
  · simp [h, beq_eq_false_iff_ne.mpr (Ne.symm h)]

/-- `find` in the map, by what the keys point to. -/
theorem find_spec {l : List (HeaderString × HeaderString)} {l' : List (Bytes × Bytes)}
    (h : List.Forall₂ (Entry buffer limit) l l') (name : Bytes) :
    (l.find? fun e => bytesAt buffer e.1 = name) = none ∧ l'.lookup name = none ∨
      ∃ e orig, (l.find? fun e => bytesAt buffer e.1 = name) = some e ∧ l'.lookup name = some orig ∧
        Entry buffer limit e (name, orig) := by
  induction h with
  | nil => exact .inl ⟨rfl, rfl⟩
  | @cons e f l l' he _ ih =>
    have hkey := bytesAt_of_stored he.1
    by_cases hname : f.1 = name
    · refine .inr ⟨e, f.2, ?_, ?_, hname ▸ he⟩
      · rw [List.find?_cons_of_pos (by simp [hkey, hname])]
      · rw [lookup_field, if_pos hname]
    · rw [List.find?_cons_of_neg (by simp [hkey, hname])]
      rw [lookup_field, if_neg hname]
      exact ih

section Assign
variable {p : HeaderString × HeaderString → Bool} {v : HeaderString} {value : Bytes}
variable {l : List (HeaderString × HeaderString)} {l' : List (Bytes × Bytes)}
variable (h : List.Forall₂ (Entry buffer limit) l l') (hv : v.Stored buffer' limit' value)
variable (hkeep : ∀ str w, HeaderString.Stored buffer limit str w → str.Stored buffer' limit' w)
include h hv hkeep

/-- Giving an entry of the list a new value, by what the entries point to. -/
theorem assign_spec {entry : Bytes × Bytes}
    (hp : ∀ e f, Entry buffer limit e f → (p e = true ↔ f = entry)) :
    List.Forall₂ (Entry buffer' limit') (assign p v l) (HeaderStore.replaceFirst entry value l') := by
  induction h with
  | nil => exact .nil
  | @cons e f l l' he htail ih =>
    have hpe := hp e f he
    rw [assign, HeaderStore.replaceFirst]
    by_cases hf : f = entry
    · rw [if_pos (hpe.mpr hf), if_pos hf]
      exact .cons ⟨hkeep _ _ he.1, hv⟩ (htail.imp fun _ _ => Entry.mono hkeep)
    · rw [if_neg (fun h => hf (hpe.mp h)), if_neg hf]
      exact .cons (he.mono hkeep) ih

/-- The same for the map, where the entry is found by its key. -/
theorem assign_key_spec {name orig : Bytes} (hlookup : l'.lookup name = some orig) :
    List.Forall₂ (Entry buffer' limit') (assign (fun e => bytesAt buffer e.1 = name) v l)
      (HeaderStore.replaceFirst (name, orig) value l') := by
  induction h with
  | nil => exact .nil
  | @cons e f l l' he htail ih =>
    have hkey := bytesAt_of_stored he.1
    rw [assign, HeaderStore.replaceFirst]
    by_cases hname : f.1 = name
    · have hf : f = (name, orig) := by
        rw [lookup_field, if_pos hname, Option.some.injEq] at hlookup
        rw [← hname, ← hlookup]
      rw [if_pos (by simp [hkey, hname]), if_pos hf]
      exact .cons ⟨hkeep _ _ he.1, hv⟩ (htail.imp fun _ _ => Entry.mono hkeep)
    · rw [if_neg (by simp [hkey, hname]), if_neg fun hf => hname (by rw [hf])]
      rw [lookup_field, if_neg hname] at hlookup
      exact .cons (he.mono hkeep) (ih hlookup)

end Assign
end Push

section Calls
variable {m : HeaderMemory} {s : HeaderStore} (h : m.Represents s)
include h

theorem Represents.overflowed :
    Represents { m with overflow := true } { s with overflow := true } :=
  { h with overflow := rfl }

theorem Represents.bytesWritable : m.bytesWritable = s.bytesWritable := by
  rw [HeaderMemory.bytesWritable, h.capacity, h.offset]
  rfl

/-- `alloc_string` does what the message model says, and the string that it returns is the copy. -/
theorem allocString_spec (w : Bytes) :
    ∃ m' str, m.allocString w = some (m', str) ∧ m'.Represents (s.allocString w).1 ∧ m.Keeps m' ∧
      ((s.allocString w).2 = none ∧ str = ⟨none, 0⟩ ∨
        (s.allocString w).2 = some w ∧ str.Stored m'.buffer m'.bufferOffset w) := by
  rw [allocString, HeaderStore.allocString, h.bytesWritable]
  split_ifs with hroom
  · exact ⟨_, _, rfl, h.overflowed, fun _ _ hstr => hstr, .inl ⟨rfl, rfl⟩⟩
  · have hle : m.bufferOffset + (w.length + 1) ≤ m.buffer.length := by
      have := h.offset_le
      rw [← h.bytesWritable, HeaderMemory.bytesWritable] at hroom
      omega
    obtain ⟨buffer', hpush, hlen, hstored, hkeep⟩ := push_spec hle
    refine ⟨_, _, hpush, ?_, hkeep, .inr ⟨rfl, hstored⟩⟩
    exact ⟨hlen.trans h.capacity, by simp only [h.offset], hle.trans hlen.ge, h.maxHeaders, h.overflow,
      h.headerList.imp fun _ _ => Entry.mono hkeep, h.headerMap.imp fun _ _ => Entry.mono hkeep⟩

theorem setHeaderField_spec (name value : Bytes) :
    ∃ m', m.setHeaderField name value = some (m', (s.setHeaderField name value).2) ∧
      m'.Represents (s.setHeaderField name value).1 ∧ m.Keeps m' := by
  have hle := h.offset_le
  have hfull : m.headerMap.length = m.maxHeaders ↔ s.headerMap.length = s.maxHeaders := by
    rw [h.headerMap.length_eq, h.maxHeaders]
  rw [setHeaderField, HeaderStore.setHeaderField, h.bytesWritable]
  by_cases hmax : s.headerMap.length = s.maxHeaders
  · rw [if_pos (hfull.mpr hmax), if_pos hmax]
    exact ⟨_, rfl, h.overflowed, fun _ _ hstr => hstr⟩
  rw [if_neg (fun hm => hmax (hfull.mp hm)), if_neg hmax]
  obtain ⟨hfind, hlookup⟩ | ⟨⟨key, orig⟩, origBytes, hfind, hlookup, hentry⟩ := find_spec h.headerMap name
  · simp only [hfind, hlookup]
    split_ifs with hroom
    · exact ⟨_, rfl, h.overflowed, fun _ _ hstr => hstr⟩
    · rw [← h.bytesWritable, HeaderMemory.bytesWritable] at hroom
      obtain ⟨buffer₁, hpush₁, hlen₁, hstored₁, hkeep₁⟩ := push_spec (m := m) (w := name) (by omega)
      obtain ⟨buffer₂, hpush₂, hlen₂, hstored₂, hkeep₂⟩ :=
        push_spec (m := { m with
          buffer := buffer₁, bufferOffset := m.bufferOffset + (name.length + 1) }) (w := value)
          (by simp only; omega)
      simp only at hlen₂ hkeep₂ hstored₂
      have hkeep : ∀ str w, HeaderString.Stored m.buffer m.bufferOffset str w →
          str.Stored buffer₂ (m.bufferOffset + (name.length + 1) + (value.length + 1)) w :=
        fun str w hstr => hkeep₂ str w (hkeep₁ str w hstr)
      simp only [hpush₁, hpush₂, Option.bind_eq_bind, Option.bind_some]
      refine ⟨_, rfl, ?_, hkeep⟩
      have hnew : List.Forall₂ (Entry buffer₂
          (m.bufferOffset + (name.length + 1) + (value.length + 1)))
          [(⟨some m.bufferOffset, name.length⟩,
            ⟨some (m.bufferOffset + (name.length + 1)), value.length⟩)] [(name, value)] :=
        .cons ⟨hkeep₂ _ _ hstored₁, hstored₂⟩ .nil
      refine ⟨hlen₂.trans (hlen₁.trans h.capacity), by simp only [h.offset], by simp only; omega,
        h.maxHeaders, h.overflow, ?_, ?_⟩
      · exact List.rel_append (h.headerList.imp fun _ _ => Entry.mono hkeep) hnew
      · exact List.rel_append (h.headerMap.imp fun _ _ => Entry.mono hkeep) hnew
  · have horig := bytesAt_of_stored hentry.2
    have hkey := bytesAt_of_stored hentry.1
    simp only at horig hkey
    simp only [hfind, hlookup, horig, hkey]
    split_ifs with hroom
    · exact ⟨_, rfl, h.overflowed, fun _ _ hstr => hstr⟩
    · rw [← h.bytesWritable, HeaderMemory.bytesWritable] at hroom
      obtain ⟨buffer', hpush, hlen', hstored, hkeep⟩ :=
        push_spec (m := m) (w := origBytes ++ [44, 32] ++ value) (by omega)
      simp only [hpush, Option.bind_eq_bind, Option.bind_some]
      refine ⟨_, rfl, ?_, hkeep⟩
      refine ⟨hlen'.trans h.capacity, by simp only [h.offset], by simp only; omega, h.maxHeaders,
        h.overflow, ?_, ?_⟩
      · refine assign_spec h.headerList hstored hkeep fun e f hef => ?_
        rw [bytesAt_of_stored hef.1, bytesAt_of_stored hef.2, Prod.ext_iff]
        simp
      · exact assign_key_spec h.headerMap hstored hkeep hlookup

end Calls

end HeaderMemory
end Latypus.Http
