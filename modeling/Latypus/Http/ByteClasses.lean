import Latypus.Http.Parser

/-! Bytes that the generated parsers do not tell apart. A transition is found by comparing the
byte with the keys of the table, so bytes that no key separates take the same transitions, and
what is true of the first byte of each class is true of all. -/

namespace Latypus.Http
open HttpParser

/-- The byte `n` is the byte `b` or behind it with no key from the one to the other; the bytes
from 128 on are negative as characters and lie below every key. -/
def sameClass (keys : List Nat) (b n : Nat) : Bool :=
  b.beq n || (b.ble n && (Nat.ble 128 b || (n.blt 128 && keys.all fun k => k.blt b || n.blt k)))

theorem lt_iff_of_sameClass {c c' : UInt8} {keys : List Nat} {k : Nat}
    (h : sameClass keys c'.toNat c.toNat = true) (hk : k ∈ keys) :
    (charOf c < k ↔ charOf c' < k) ∧ (k < charOf c ↔ k < charOf c') := by
  have hlt := c.toNat_lt
  have hlt' := c'.toNat_lt
  simp only [sameClass, Bool.or_eq_true, Bool.and_eq_true, Nat.beq_eq, Nat.ble_eq, Nat.blt_eq,
    List.all_eq_true] at h
  rcases h with heq | ⟨hle, hge | ⟨hn, hkeys⟩⟩
  · rw [UInt8.toNat_inj.mp heq]
    exact ⟨Iff.rfl, Iff.rfl⟩
  · rw [charOf, charOf, if_neg (by omega), if_neg (by omega)]
    omega
  · have := hkeys k hk
    rw [charOf, charOf, if_pos (by omega), if_pos (by omega)]
    omega

theorem getD_mem {keys : List Nat} (hzero : 0 ∈ keys) {l : List Nat} (hl : l ⊆ keys) (i : Nat) :
    l.getD i 0 ∈ keys := by
  by_cases hi : i < l.length
  · rw [List.getD_eq_getElem _ _ hi]
    exact hl (List.getElem_mem hi)
  · rwa [List.getD_eq_default _ _ (Nat.le_of_not_lt hi)]

section Search
variable {c c' : UInt8} {keys l : List Nat} (hclass : sameClass keys c'.toNat c.toNat = true)
variable (hzero : 0 ∈ keys) (hl : l ⊆ keys)
include hclass hzero hl

theorem searchSingle_congr (fuel lo n : Nat) :
    searchSingle l (charOf c) fuel lo n = searchSingle l (charOf c') fuel lo n := by
  induction fuel generalizing lo n with
  | zero => rw [searchSingle, searchSingle]
  | succ fuel ih =>
    obtain ⟨hlt, hgt⟩ := lt_iff_of_sameClass hclass (getD_mem hzero hl (lo + (n - 1) / 2))
    exact if_congr Iff.rfl rfl (if_congr hlt (ih _ _) (if_congr hgt (ih _ _) rfl))

theorem searchRange_congr (fuel lo n : Nat) :
    searchRange l (charOf c) fuel lo n = searchRange l (charOf c') fuel lo n := by
  induction fuel generalizing lo n with
  | zero => rw [searchRange, searchRange]
  | succ fuel ih =>
    obtain ⟨hlt, -⟩ := lt_iff_of_sameClass hclass (getD_mem hzero hl (2 * (lo + (n - 1) / 2)))
    obtain ⟨-, hgt⟩ := lt_iff_of_sameClass hclass (getD_mem hzero hl (2 * (lo + (n - 1) / 2) + 1))
    exact if_congr Iff.rfl rfl (if_congr hlt (ih _ _) (if_congr hgt (ih _ _) rfl))

/-- The two searches among the keys of a state. -/
theorem search_congr (off singles ranges : Nat) :
    searchSingle ((l.drop off).take singles) (charOf c) =
        searchSingle ((l.drop off).take singles) (charOf c') ∧
      searchRange (((l.drop off).drop singles).take ranges) (charOf c) =
        searchRange (((l.drop off).drop singles).take ranges) (charOf c') := by
  have hdrop : l.drop off ⊆ keys := fun k hk => hl (List.mem_of_mem_drop hk)
  constructor
  · funext fuel lo n
    exact searchSingle_congr hclass hzero (fun k hk => hdrop (List.mem_of_mem_take hk)) fuel lo n
  · funext fuel lo n
    exact searchRange_congr hclass hzero
      (fun k hk => hdrop (List.mem_of_mem_drop (List.mem_of_mem_take hk))) fuel lo n

end Search

/-- The last bound up to a byte, the first byte of its class. -/
def classOf (bounds : List Nat) (c : UInt8) : UInt8 :=
  UInt8.ofNat (bounds.foldl (fun a b => bif b.ble c.toNat then b else a) 0)

theorem forall_byte {P : UInt8 → Prop} (h : ∀ n < 256, P (UInt8.ofNat n)) (c : UInt8) : P c := by
  simpa using h c.toNat c.toNat_lt

theorem classOf_mem {bounds : List Nat} (h : 0 ∈ bounds) (c : UInt8) :
    classOf bounds c ∈ bounds.map UInt8.ofNat := by
  refine List.mem_map_of_mem ?_
  suffices ∀ a ∈ bounds, ∀ l ⊆ bounds, l.foldl (fun a b => bif b.ble c.toNat then b else a) a ∈ bounds from
    this 0 h bounds (List.Subset.refl bounds)
  intro a ha l hl
  induction l generalizing a with
  | nil => exact ha
  | cons b l ih =>
    rw [List.foldl_cons]
    refine ih _ ?_ (List.subset_of_cons_subset hl)
    cases b.ble c.toNat
    · exact ha
    · exact hl List.mem_cons_self

namespace HttpParser

/-- The keys of the table, each once. -/
def keys : List Nat := [
  0, 10, 13, 31, 32, 33, 35, 36, 37, 39, 42, 43, 45, 46, 47, 48, 57, 58, 59, 63, 65, 70, 72, 80, 84,
  90, 94, 95, 97, 102, 122, 124, 126, 127]

/-- The first byte of each class; the bytes from 128 on are negative as characters. -/
def bounds : List Nat := [
  0, 1, 10, 11, 13, 14, 31, 32, 33, 34, 35, 36, 37, 38, 39, 40, 42, 43, 44, 45, 46, 47, 48, 49, 57,
  58, 59, 60, 63, 64, 65, 66, 70, 71, 72, 73, 80, 81, 84, 85, 90, 91, 94, 95, 96, 97, 98, 102, 103,
  122, 123, 124, 125, 126, 127, 128]

theorem trans_classOf (cs : Nat) (c : UInt8) : trans cs c = trans cs (classOf bounds c) := by
  have hkeys : Table.transKeys ⊆ keys := fun k => (by decide +kernel : ∀ k ∈ Table.transKeys, k ∈ keys) k
  have hclass : ∀ c, sameClass keys (classOf bounds c).toNat c.toNat = true :=
    forall_byte (by decide +kernel)
  obtain ⟨hsingle, hrange⟩ := search_congr (hclass c) (by decide) hkeys (Table.keyOffsets.getD cs 0)
    (Table.singleLengths.getD cs 0) (2 * Table.rangeLengths.getD cs 0)
  simp only [trans, hsingle, hrange]

end HttpParser
end Latypus.Http
