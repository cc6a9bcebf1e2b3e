import Mathlib.Data.List.Basic
import Mathlib.Data.List.Infix

/-! The first place of a word in a list, and the first and the last place of a symbol, each told by
what the list is cut into there. -/

namespace Latypus.Lib
variable {α : Type} [DecidableEq α]

/-- The first position at which a word begins. -/
def find (word : List α) : List α → Option Nat
  | [] => if word = [] then some 0 else none
  | a :: s => if word.isPrefixOf (a :: s) then some 0 else (find word s).map (· + 1)

/-- The last position of a symbol. -/
def findLast (a : α) : List α → Option Nat
  | [] => none
  | b :: s =>
    match findLast a s with
    | some i => some (i + 1)
    | none => if b = a then some 0 else none

section Lemmas
variable {word l r s t : List α} {a : α} {i : Nat}

theorem find_eq_some_iff :
    find word s = some i ↔ i ≤ s.length ∧ word <+: s.drop i ∧ ∀ j < i, ¬word <+: s.drop j := by
  induction s generalizing i with
  | nil =>
    unfold find
    split_ifs with h
    · simp only [h, Option.some.injEq, List.drop_nil, List.nil_prefix, List.length_nil]
      refine ⟨?_, fun h' => (Nat.le_zero.mp h'.1).symm⟩
      rintro rfl
      simp
    · simpa using fun _ h' => absurd h' h
  | cons b s ih =>
    unfold find
    split_ifs with h
    · rw [List.isPrefixOf_iff_prefix] at h
      constructor
      · intro heq
        obtain rfl := Option.some.inj heq
        exact ⟨Nat.zero_le _, h, fun j hj => absurd hj (Nat.not_lt_zero j)⟩
      · rintro ⟨-, -, hfirst⟩
        cases i with
        | zero => rfl
        | succ i => exact absurd h (hfirst 0 (Nat.succ_pos i))
    · rw [List.isPrefixOf_iff_prefix] at h
      rw [Option.map_eq_some_iff]
      constructor
      · rintro ⟨i, hi, rfl⟩
        obtain ⟨hle, hword, hfirst⟩ := ih.mp hi
        refine ⟨Nat.succ_le_succ hle, hword, fun j hj => ?_⟩
        cases j with
        | zero => exact h
        | succ j => exact hfirst j (Nat.lt_of_succ_lt_succ hj)
      · rintro ⟨hle, hword, hfirst⟩
        cases i with
        | zero => exact absurd hword h
        | succ i =>
          refine ⟨i, ih.mpr ⟨Nat.le_of_succ_le_succ hle, hword, fun j hj => ?_⟩, rfl⟩
          exact hfirst (j + 1) (Nat.succ_lt_succ hj)

omit [DecidableEq α] in
/-- Whether a word begins in the first of two parts and goes no further than into a word between them
does not depend on the second. -/
theorem prefix_drop_append_iff (hi : i ≤ l.length) :
    word <+: (l ++ word ++ r).drop i ↔ word <+: (l ++ word).drop i := by
  have hle : i ≤ (l ++ word).length := hi.trans (by simp)
  rw [List.drop_append_of_le_length hle]
  refine ⟨fun h => ?_, fun h => h.trans (List.prefix_append _ _)⟩
  refine List.prefix_of_prefix_length_le h (List.prefix_append _ _) ?_
  rw [List.length_drop, List.length_append]
  omega

/-- The parts before and behind the first place of a word. -/
theorem find_eq_some_iff_append : find word s = some i ↔
    ∃ l r, s = l ++ word ++ r ∧ l.length = i ∧ ∀ j < i, ¬word <+: (l ++ word).drop j := by
  rw [find_eq_some_iff]
  constructor
  · rintro ⟨hle, ⟨r, hr⟩, hfirst⟩
    have hs : s = s.take i ++ word ++ r := by
      rw [List.append_assoc, hr, List.take_append_drop]
    have hlen : (s.take i).length = i := List.length_take_of_le hle
    refine ⟨s.take i, r, hs, hlen, fun j hj hword => hfirst j hj ?_⟩
    rw [hs, prefix_drop_append_iff (hlen.symm ▸ Nat.le_of_lt hj)]
    exact hword
  · rintro ⟨l, r, rfl, rfl, hfirst⟩
    refine ⟨by simp, ?_, fun j hj hword => hfirst j hj ?_⟩
    · rw [List.append_assoc, List.drop_left]
      exact List.prefix_append _ _
    · exact (prefix_drop_append_iff (Nat.le_of_lt hj)).mp hword

theorem idxOf?_eq_some_iff_append : s.idxOf? a = some i ↔ ∃ l r, s = l ++ a :: r ∧ a ∉ l ∧ l.length = i := by
  induction s generalizing i with
  | nil => simp
  | cons b s ih =>
    rw [List.idxOf?_cons]
    by_cases h : b = a
    · subst h
      rw [if_pos (beq_self_eq_true b), Option.some.injEq]
      constructor
      · rintro rfl
        exact ⟨[], s, rfl, List.not_mem_nil, rfl⟩
      · rintro ⟨l, r, hs, hl, rfl⟩
        cases l with
        | nil => rfl
        | cons c l => exact absurd (List.mem_cons.mpr (.inl (List.cons.inj hs).1)) hl
    · rw [if_neg (by simpa using h), Option.map_eq_some_iff]
      constructor
      · rintro ⟨i, hi, rfl⟩
        obtain ⟨l, r, rfl, hl, rfl⟩ := ih.mp hi
        exact ⟨b :: l, r, rfl, by simp [hl, Ne.symm h], rfl⟩
      · rintro ⟨l, r, hs, hl, rfl⟩
        cases l with
        | nil => exact absurd (List.cons.inj hs).1 h
        | cons c l =>
          obtain ⟨rfl, rfl⟩ := List.cons.inj hs
          exact ⟨l.length, ih.mpr ⟨l, r, rfl, fun hmem => hl (List.mem_cons_of_mem b hmem), rfl⟩, rfl⟩

theorem findLast_eq_none_iff : findLast a s = none ↔ a ∉ s := by
  induction s with
  | nil => simp [findLast]
  | cons b s ih =>
    unfold findLast
    cases h : findLast a s with
    | none =>
      have hmem := ih.mp h
      by_cases hb : b = a
      · simp [hb]
      · simp [hb, hmem, Ne.symm hb]
    | some i =>
      have hmem : a ∈ s := by
        by_contra hnot
        rw [ih.mpr hnot] at h
        cases h
      simp [hmem]

theorem findLast_append_cons (hr : a ∉ r) (l : List α) : findLast a (l ++ a :: r) = some l.length := by
  induction l with
  | nil =>
    rw [List.nil_append, findLast, findLast_eq_none_iff.mpr hr]
    exact if_pos rfl
  | cons b l ih =>
    rw [List.cons_append, findLast, ih]
    rfl

omit [DecidableEq α] in
/-- A list that has a symbol is cut at its last place. -/
theorem exists_eq_append_cons_of_mem (h : a ∈ s) : ∃ l r, s = l ++ a :: r ∧ a ∉ r := by
  obtain ⟨r, l, hs, hr⟩ := List.eq_append_cons_of_mem (List.mem_reverse.mpr h)
  refine ⟨l.reverse, r.reverse, ?_, fun hmem => hr (List.mem_reverse.mp hmem)⟩
  rw [← List.reverse_reverse s, hs, List.reverse_append, List.reverse_cons, List.append_assoc]
  rfl

theorem findLast_eq_some_iff : findLast a s = some i ↔ ∃ l r, s = l ++ a :: r ∧ a ∉ r ∧ l.length = i := by
  constructor
  · intro h
    have hmem : a ∈ s := by
      by_contra hnot
      rw [findLast_eq_none_iff.mpr hnot] at h
      cases h
    obtain ⟨l, r, rfl, hr⟩ := exists_eq_append_cons_of_mem hmem
    rw [findLast_append_cons hr] at h
    exact ⟨l, r, rfl, hr, Option.some.inj h⟩
  · rintro ⟨l, r, rfl, hr, rfl⟩
    exact findLast_append_cons hr l

theorem append_cons_inj {l' r' : List α} (hr : a ∉ r) (hr' : a ∉ r') (h : l ++ a :: r = l' ++ a :: r') :
    l = l' ∧ r = r' := by
  have hlen : some l.length = some l'.length := by
    rw [← findLast_append_cons hr, h, findLast_append_cons hr']
  obtain ⟨hl, hcons⟩ := List.append_inj h (Option.some.inj hlen)
  exact ⟨hl, (List.cons.inj hcons).2⟩

end Lemmas

/-- The entry that is found under a key. -/
theorem mem_of_lookup_eq_some {κ β : Type} [BEq κ] [LawfulBEq κ] {l : List (κ × β)} {key : κ} {value : β}
    (h : l.lookup key = some value) : (key, value) ∈ l := by
  obtain ⟨l₁, l₂, rfl, -⟩ := List.lookup_eq_some_iff.mp h
  exact List.mem_append_right _ List.mem_cons_self

end Latypus.Lib
