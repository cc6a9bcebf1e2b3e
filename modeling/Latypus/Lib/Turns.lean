import Mathlib.Data.List.Nodup

/-! Turns. The members of a list are taken one after another, and the first again after the last, while others join
at its end. In any part of a run two members have been taken equally often, but for one time. -/

namespace Latypus.Lib

structure Turns (α : Type*) where
  members : List α
  next : Nat

namespace Turns
variable {α : Type*}

def advance (t : Turns α) : Turns α := { t with next := if t.next + 1 = t.members.length then 0 else t.next + 1 }

def join (t : Turns α) (a : α) : Turns α := { t with members := t.members ++ [a] }

/-- The members that are taken on the way to another state. -/
inductive Took (t : Turns α) : List α → Turns α → Prop
  | nil : Took t [] t
  | take {taken t'} (a : α) : Took t taken t' → t'.members[t'.next]? = some a → Took t (taken ++ [a]) t'.advance
  | join {taken t'} (a : α) : Took t taken t' → a ∉ t'.members → Took t taken (t'.join a)

variable {t t' : Turns α} {a b : α} {taken : List α} {i j : Nat}

/-- The next member is one of the members, which are there once. -/
structure Proper (t : Turns α) : Prop where
  nodup : t.members.Nodup
  next_lt : t.next < t.members.length

theorem Proper.advance (h : t.Proper) : t.advance.Proper := by
  refine ⟨h.nodup, ?_⟩
  have hlt := h.next_lt
  simp only [Turns.advance]
  split_ifs <;> omega

theorem Proper.join (h : t.Proper) (ha : a ∉ t.members) : (t.join a).Proper := by
  refine ⟨by simpa [Turns.join] using h.nodup.concat ha, ?_⟩
  simp only [Turns.join, List.length_append]
  exact Nat.lt_add_right _ h.next_lt

theorem Took.proper (h : t.Took taken t') (ht : t.Proper) : t'.Proper ∧ t.members <+: t'.members := by
  induction h with
  | nil => exact ⟨ht, List.prefix_rfl⟩
  | take a _ _ ih => exact ⟨ih.1.advance, ih.2⟩
  | join a _ ha ih => exact ⟨ih.1.join ha, ih.2.trans (List.prefix_append _ _)⟩

/-- Whether the member at `i` has been taken since the beginning of the list, and that at `j` not yet. -/
def between (n i j : Nat) : Int := if i < n ∧ n ≤ j then 1 else 0

theorem between_bounds (n i j : Nat) : 0 ≤ between n i j ∧ between n i j ≤ 1 := by
  unfold between
  split_ifs <;> exact ⟨by decide, by decide⟩

/-- One turn: the two members alternate. -/
theorem between_advance (ht : t.Proper) (hij : i < j) (hj : j < t.members.length) :
    between t.advance.next i j =
      between t.next i j + (if t.next = i then 1 else 0) - (if t.next = j then 1 else 0) := by
  have hlt := ht.next_lt
  simp only [advance, between]
  split_ifs <;> omega

variable [DecidableEq α]

theorem Took.count_sub (h : t.Took taken t') (ht : t.Proper) (hij : i < j) (ha : t.members[i]? = some a)
    (hb : t.members[j]? = some b) :
    (taken.count a : Int) - taken.count b = between t'.next i j - between t.next i j := by
  induction h with
  | nil => simp
  | @take taken t' c htook hc ih =>
    obtain ⟨hproper, hprefix⟩ := htook.proper ht
    -- the members of `t` keep their places, so that the one taken is told by its place
    have hat {k : Nat} {d : α} (hd : t.members[k]? = some d) : k < t'.members.length ∧ (c = d ↔ t'.next = k) := by
      obtain ⟨hk, -⟩ := List.getElem?_eq_some_iff.mp hd
      have hd' : t'.members[k]? = some d := by
        obtain ⟨rest, hrest⟩ := hprefix
        rw [← hrest, List.getElem?_append_left hk, hd]
      rw [← List.getElem?_inj hproper.next_lt hproper.nodup, hc, hd', Option.some.injEq]
      exact ⟨Nat.lt_of_lt_of_le hk hprefix.length_le, Iff.rfl⟩
    have hcount {k : Nat} {d : α} (hd : t.members[k]? = some d) :
        ((taken ++ [c]).count d : Int) = taken.count d + if t'.next = k then 1 else 0 := by
      rw [List.count_append, List.count_singleton, Int.natCast_add]
      simp only [beq_iff_eq, (hat hd).2]
      split_ifs <;> rfl
    rw [hcount ha, hcount hb, between_advance hproper hij (hat hb).1]
    omega
  | join _ _ _ ih => exact ih

/-- Members of the whole run are taken equally often, but for one time. -/
theorem Took.count_le (h : t.Took taken t') (ht : t.Proper) (ha : a ∈ t.members) (hb : b ∈ t.members) :
    taken.count a ≤ taken.count b + 1 := by
  obtain ⟨i, hi⟩ := List.getElem?_of_mem ha
  obtain ⟨j, hj⟩ := List.getElem?_of_mem hb
  obtain hij | rfl | hij := Nat.lt_trichotomy i j
  · have hsub := h.count_sub ht hij hi hj
    have hn := between_bounds t.next i j
    have hn' := between_bounds t'.next i j
    omega
  · obtain rfl : a = b := Option.some.inj (hi.symm.trans hj)
    exact Nat.le_succ _
  · have hsub := h.count_sub ht hij hj hi
    have hn := between_bounds t.next j i
    have hn' := between_bounds t'.next j i
    omega

end Turns
end Latypus.Lib
