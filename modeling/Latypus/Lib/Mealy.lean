import Mathlib.Data.List.Basic

/-! Objects that answer calls: a call changes the state and gives a reply. An implementation may
fault; a specification answers every call. An implementation that follows its specification at the
calls that are good, and gives another reply at the first one that is not, gives the replies of the
specification on those lists of calls only whose calls are all good. -/

namespace Latypus.Lib
variable {σ τ α β : Type*}

/-- The replies to a list of calls, unless a call faults. -/
def replies (f : σ → α → Option (β × σ)) : σ → List α → Option (List β)
  | _, [] => some []
  | s, a :: as => (f s a).bind fun r => (replies f r.2 as).map (r.1 :: ·)

namespace Spec

def replies (g : τ → α → β × τ) : τ → List α → List β
  | _, [] => []
  | t, a :: as => (g t a).1 :: replies g (g t a).2 as

/-- The state behind a list of calls. -/
def after (g : τ → α → β × τ) (t : τ) (as : List α) : τ :=
  as.foldl (fun t a => (g t a).2) t

end Spec

variable {f : σ → α → Option (β × σ)} {g : τ → α → β × τ} {s : σ} {t : τ} {a : α} {as : List α}

theorem replies_cons_eq {b : β} {s' : σ} (h : f s a = some (b, s')) :
    replies f s (a :: as) = (replies f s' as).map (b :: ·) := by
  rw [replies, h, Option.bind_some]

/-- The replies up to and with the first call that is not good tell whether there is one. -/
theorem replies_eq_iff (R : σ → τ → Prop) (ok : α → Prop) {Good : τ → α → Prop}
    (hgood : ∀ s t a, R s t → ok a → Good t a → ∃ s', f s a = some ((g t a).1, s') ∧ R s' (g t a).2)
    (hbad : ∀ s t a, R s t → ok a → ¬ Good t a → ∃ b s', f s a = some (b, s') ∧ b ≠ (g t a).1)
    (h : R s t) (hok : ∀ a ∈ as, ok a) :
    replies f s as = some (Spec.replies g t as) ↔
      ∀ (i : Nat) (a : α), as[i]? = some a → Good (Spec.after g t (as.take i)) a := by
  induction as generalizing s t with
  | nil => simp [replies, Spec.replies]
  | cons a as ih =>
    have hoka := hok a List.mem_cons_self
    by_cases hga : Good t a
    · obtain ⟨s', hf, hR⟩ := hgood s t a h hoka hga
      rw [replies_cons_eq hf, Spec.replies, Option.map_eq_some_iff]
      have htail := ih hR fun b hb => hok b (List.mem_cons_of_mem a hb)
      constructor
      · rintro ⟨bs, hbs, hcons⟩ i b hi
        obtain rfl := (List.cons.inj hcons).2
        cases i with
        | zero =>
          obtain rfl := Option.some.inj hi
          exact hga
        | succ i => exact htail.mp hbs i b hi
      · intro hall
        exact ⟨_, htail.mpr fun i b hi => hall (i + 1) b hi, rfl⟩
    · obtain ⟨b, s', hf, hne⟩ := hbad s t a h hoka hga
      rw [replies_cons_eq hf, Spec.replies, Option.map_eq_some_iff]
      constructor
      · rintro ⟨bs, -, hcons⟩
        exact absurd (List.cons.inj hcons).1 hne
      · intro hall
        exact absurd (hall 0 a rfl) hga

end Latypus.Lib
