import Latypus.Lib.Packed
import Latypus.Http.Parser

/-! The transitions of a generated parser, looked up in packed tables. All parsers of the repository
search their tables in the same way. -/

namespace Latypus.Http.HttpParser
open Lib

/-- The tables behind the transitions of a parser. -/
structure Tables where
  keyOffsets : List Nat
  transKeys : List Nat
  singleLengths : List Nat
  rangeLengths : List Nat
  indexOffsets : List Nat
  indicies : List Nat

namespace Tables
variable (T : Tables)

/-- What the parsers compute, from their own tables. -/
def trans (cs : Nat) (c : UInt8) : Nat :=
  let keys := T.transKeys.drop (T.keyOffsets.getD cs 0)
  let singles := T.singleLengths.getD cs 0
  let ranges := T.rangeLengths.getD cs 0
  let index := T.indexOffsets.getD cs 0
  let offset :=
    match searchSingle (keys.take singles) (charOf c) singles 0 singles with
    | some i => i
    | none =>
      match searchRange ((keys.drop singles).take (2 * ranges)) (charOf c) ranges 0 ranges with
      | some i => singles + i
      | none => singles + ranges
  T.indicies.getD (index + offset) 0

/-- The same, with the tables packed. -/
def lookup (cs : Nat) (c : UInt8) : Nat :=
  let keys := pack T.transKeys
  let start := entry (pack T.keyOffsets) cs
  let singles := entry (pack T.singleLengths) cs
  let ranges := entry (pack T.rangeLengths) cs
  let index := entry (pack T.indexOffsets) cs
  let offset :=
    match searchSingle (entries keys start singles) (charOf c) singles 0 singles with
    | some i => i
    | none =>
      match searchRange (entries keys (start + singles) (2 * ranges)) (charOf c) ranges 0 ranges with
      | some i => singles + i
      | none => singles + ranges
  entry (pack T.indicies) (index + offset)

/-- The bytes that a state has a key for. -/
def keyed (cs : Nat) : List UInt8 :=
  let keys := pack T.transKeys
  let start := entry (pack T.keyOffsets) cs
  let singles := entry (pack T.singleLengths) cs
  (entries keys start singles).map UInt8.ofNat ++
    (List.range (entry (pack T.rangeLengths) cs)).flatMap fun i =>
      let low := entry keys (start + singles + 2 * i)
      (List.range' low (entry keys (start + singles + (2 * i + 1)) + 1 - low)).map UInt8.ofNat

/-- The transition of the other bytes. -/
def other (cs : Nat) : Nat :=
  entry (pack T.indicies)
    (entry (pack T.indexOffsets) cs + (entry (pack T.singleLengths) cs + entry (pack T.rangeLengths) cs))

/-- The entries can be packed. -/
def small : Bool :=
  [T.keyOffsets, T.transKeys, T.singleLengths, T.rangeLengths, T.indexOffsets, T.indicies].all fun l => l.all (· < 65536)

end Tables

section Lemmas
variable {keys keys' : List Nat} {c : Int}

theorem searchSingle_ext (h : ∀ i, keys.getD i 0 = keys'.getD i 0) (fuel lo n : Nat) :
    searchSingle keys c fuel lo n = searchSingle keys' c fuel lo n := by
  induction fuel generalizing lo n with
  | zero => rfl
  | succ fuel ih => simp only [searchSingle, h, ih]

theorem searchRange_ext (h : ∀ i, keys.getD i 0 = keys'.getD i 0) (fuel lo n : Nat) :
    searchRange keys c fuel lo n = searchRange keys' c fuel lo n := by
  induction fuel generalizing lo n with
  | zero => rfl
  | succ fuel ih => simp only [searchRange, h, ih]

theorem searchSingle_lt {keys : List Nat} {c : Int} {fuel lo n i : Nat}
    (h : searchSingle keys c fuel lo n = some i) : i < lo + n := by
  induction fuel generalizing lo n with
  | zero => cases h
  | succ fuel ih =>
    simp only [searchSingle] at h
    split_ifs at h
    · have := ih h
      omega
    · have := ih h
      omega
    · obtain rfl := Option.some.inj h
      omega

theorem searchRange_lt {keys : List Nat} {c : Int} {fuel lo n i : Nat}
    (h : searchRange keys c fuel lo n = some i) : i < lo + n := by
  induction fuel generalizing lo n with
  | zero => cases h
  | succ fuel ih =>
    simp only [searchRange] at h
    split_ifs at h
    · have := ih h
      omega
    · have := ih h
      omega
    · obtain rfl := Option.some.inj h
      omega

theorem searchSingle_eq {fuel lo n i : Nat} (h : searchSingle keys c fuel lo n = some i) : (keys.getD i 0 : Int) = c := by
  induction fuel generalizing lo n with
  | zero => cases h
  | succ fuel ih =>
    simp only [searchSingle] at h
    split_ifs at h with _ hlow hhigh
    · exact ih h
    · exact ih h
    · obtain rfl := Option.some.inj h
      exact Int.le_antisymm (Int.not_lt.mp hlow) (Int.not_lt.mp hhigh)

theorem searchRange_le {fuel lo n i : Nat} (h : searchRange keys c fuel lo n = some i) :
    (keys.getD (2 * i) 0 : Int) ≤ c ∧ c ≤ (keys.getD (2 * i + 1) 0 : Int) := by
  induction fuel generalizing lo n with
  | zero => cases h
  | succ fuel ih =>
    simp only [searchRange] at h
    split_ifs at h with _ hlow hhigh
    · exact ih h
    · exact ih h
    · obtain rfl := Option.some.inj h
      exact ⟨Int.not_lt.mp hlow, Int.not_lt.mp hhigh⟩

theorem eq_ofNat_of_charOf {b : UInt8} {k : Nat} (h : charOf b = k) : b = UInt8.ofNat k := by
  have hlt := b.toNat_lt
  unfold charOf at h
  split_ifs at h
  · rw [← Int.ofNat_inj.mp h, UInt8.ofNat_toNat]
  · omega

theorem Tables.lookup_eq {T : Tables} (h : T.small = true) (cs : Nat) (c : UInt8) : T.lookup cs c = T.trans cs c := by
  simp only [small, List.all_cons, List.all_nil, Bool.and_true, Bool.and_eq_true] at h
  obtain ⟨hoffsets, hkeys, hsingles, hranges, hindex, hindicies⟩ := h
  simp only [lookup, trans, entry_pack hoffsets, entry_pack hsingles, entry_pack hranges, entry_pack hindex,
    entry_pack hindicies, searchSingle_ext (getD_entries hkeys _ _), searchRange_ext (getD_entries hkeys _ _),
    List.drop_drop]

theorem Tables.lookup_of_notMem {T : Tables} {cs : Nat} {b : UInt8} (h : b ∉ T.keyed cs) : T.lookup cs b = T.other cs := by
  simp only [keyed, List.mem_append, not_or] at h
  obtain ⟨hsingle, hrange⟩ := h
  have hsingles : searchSingle (entries (pack T.transKeys) (entry (pack T.keyOffsets) cs) (entry (pack T.singleLengths) cs))
      (charOf b) (entry (pack T.singleLengths) cs) 0 (entry (pack T.singleLengths) cs) = none := by
    refine Option.eq_none_iff_forall_ne_some.mpr fun i hi => hsingle ?_
    have hlt := searchSingle_lt hi
    rw [Nat.zero_add] at hlt
    have hkey := searchSingle_eq hi
    rw [getD_entries_of_lt hlt] at hkey
    exact List.mem_map.mpr ⟨_, List.mem_map.mpr ⟨i, List.mem_range.mpr hlt, rfl⟩, (eq_ofNat_of_charOf hkey.symm).symm⟩
  have hranges : searchRange (entries (pack T.transKeys) (entry (pack T.keyOffsets) cs + entry (pack T.singleLengths) cs)
      (2 * entry (pack T.rangeLengths) cs)) (charOf b) (entry (pack T.rangeLengths) cs) 0
      (entry (pack T.rangeLengths) cs) = none := by
    refine Option.eq_none_iff_forall_ne_some.mpr fun i hi => hrange ?_
    have hlt := searchRange_lt hi
    rw [Nat.zero_add] at hlt
    have hkey := searchRange_le hi
    rw [getD_entries_of_lt (by omega), getD_entries_of_lt (by omega)] at hkey
    obtain ⟨k, hk⟩ := Int.eq_ofNat_of_zero_le (Int.le_trans (Int.natCast_nonneg _) hkey.1)
    rw [hk] at hkey
    refine List.mem_flatMap.mpr ⟨i, List.mem_range.mpr hlt, List.mem_map.mpr ⟨k, ?_, (eq_ofNat_of_charOf hk).symm⟩⟩
    rw [List.mem_range'_1]
    omega
  simp only [lookup, hsingles, hranges, other]

end Lemmas

/-- The tables of http_parser.cc. -/
def tables : Tables :=
  ⟨Table.keyOffsets, Table.transKeys, Table.singleLengths, Table.rangeLengths, Table.indexOffsets, Table.indicies⟩

theorem trans_eq_lookup (cs : Nat) (c : UInt8) : trans cs c = tables.lookup cs c :=
  (Tables.lookup_eq (by decide +kernel : tables.small = true) cs c).symm

theorem transTarg_eq_entry (t : Nat) : transTarg t = entry (pack Table.transTargs) t :=
  (entry_pack (by decide +kernel) t).symm

/-- `transActs`, with the entries packed. -/
def actsEntry (t : Nat) : List Nat :=
  let a := entry (pack Table.transActions) t
  if a = 0 then [] else (Table.actions.drop (a + 1)).take (Table.actions.getD a 0)

theorem transActs_eq_entry (t : Nat) : transActs t = actsEntry t := by
  rw [actsEntry, entry_pack (by decide +kernel)]
  rfl

/-- The transitions out of a state. -/
def rowEntries (cs : Nat) : List Nat :=
  entries (pack Table.indicies) (entry (pack Table.indexOffsets) cs)
    (entry (pack Table.singleLengths) cs + entry (pack Table.rangeLengths) cs + 1)

end Latypus.Http.HttpParser
