import Mathlib.Data.List.Basic
import Mathlib.Data.List.Forall2
import Mathlib.Computability.Language

/-! Formats that are sequences of pieces: a word out of a list, or so many symbols of a class. When
what may begin a piece cannot go on with the piece before it, a text is read from left to right with
a finite memory, and the reader knows at every symbol which pieces are complete. -/

namespace Latypus.Lib
open List

/-- One of some words, or at least `lo` and at most `hi` symbols of a class. -/
inductive Piece (α : Type) where
  | words (ws : List (List α))
  | many (cs : List α) (lo : Nat) (hi : Option Nat)

/-- What is kept of the part of a piece that has been read; an unbounded piece counts up to `lo`. -/
inductive Progress (α : Type) where
  | word (read : List α)
  | count (n : Nat)
deriving DecidableEq, Repr

namespace Piece
variable {α : Type} [DecidableEq α]

def start : Piece α → Progress α
  | words _ => .word []
  | many .. => .count 0

/-- How far the symbols of a class are counted. -/
def counted (lo : Nat) (hi : Option Nat) (n : Nat) : Nat := if hi = none then min n lo else n

/-- The progress with one more symbol, if the piece can go on with it. -/
def more : Piece α → Progress α → α → Option (Progress α)
  | words ws, .word u, a => if ws.any fun w => (u ++ [a]).isPrefixOf w then some (.word (u ++ [a])) else none
  | many cs lo hi, .count n, a =>
    if cs.contains a && hi.all (n < ·) then some (.count (counted lo hi (n + 1))) else none
  | _, _, _ => none

def done : Piece α → Progress α → Bool
  | words ws, .word u => ws.contains u
  | many _ lo _, .count n => lo ≤ n
  | _, _ => false

/-- The progress behind a text. -/
def read (p : Piece α) (t : List α) : Option (Progress α) := t.foldlM p.more p.start

/-- The texts of a piece. -/
def lang : Piece α → Language α
  | words ws => {t | t ∈ ws}
  | many cs lo hi => {t | (∀ a ∈ t, a ∈ cs) ∧ lo ≤ t.length ∧ ∀ n ∈ hi, t.length ≤ n}

/-- What a text of the piece can begin with. -/
def begins (p : Piece α) : Language α := {t | ∃ u, t ++ u ∈ p.lang}

/-- The symbols of the texts of a piece. -/
def symbols : Piece α → List α
  | words ws => ws.flatten
  | many cs _ _ => cs

/-- No symbol is used by both pieces. -/
def apart (p p' : Piece α) : Bool := p.symbols.all fun a => !p'.symbols.contains a

/-- The symbols with which a piece can go on. -/
def nexts : Piece α → Progress α → List α
  | words ws, .word u => ws.filterMap fun w => if u.isPrefixOf w then w[u.length]? else none
  | many cs _ hi, .count n => if hi.all (n < ·) then cs else []
  | _, _ => []

/-- A piece has texts, and all are nonempty. -/
def proper : Piece α → Bool
  | words ws => !ws.isEmpty && !ws.contains []
  | many cs lo hi => !cs.isEmpty && 0 < lo && hi.all (lo ≤ ·)

end Piece

section Read
variable {α : Type} [DecidableEq α] {p : Piece α} {pr pr' : Progress α} {t u : List α} {a : α}

theorem Piece.read_append : p.read (t ++ u) = (p.read t).bind fun pr => u.foldlM p.more pr := by
  unfold read
  rw [List.foldlM_append]
  rfl

theorem Piece.read_concat : p.read (t ++ [a]) = (p.read t).bind fun pr => p.more pr a := by
  rw [read_append]
  cases p.read t with
  | none => rfl
  | some pr => simp

theorem Piece.read_words {ws : List (List α)} (hne : t ≠ []) :
    (words ws).read t = some pr ↔ (∃ w ∈ ws, t <+: w) ∧ pr = .word t := by
  induction t using List.reverseRecOn generalizing pr with
  | nil => exact absurd rfl hne
  | append_singleton t a ih =>
    have hread : (words ws).read t = some (.word t) ∨ (words ws).read t = none ∧ ¬ ∃ w ∈ ws, t <+: w := by
      by_cases ht : t = []
      · subst ht
        exact .inl rfl
      · by_cases hw : ∃ w ∈ ws, t <+: w
        · exact .inl ((ih ht).mpr ⟨hw, rfl⟩)
        · refine .inr ⟨Option.eq_none_iff_forall_ne_some.mpr fun pr h => hw ((ih ht).mp h).1, hw⟩
    rw [read_concat]
    rcases hread with hread | ⟨hread, hnot⟩
    · rw [hread, Option.bind_some, more]
      simp only [List.any_eq_true, List.isPrefixOf_iff_prefix]
      split_ifs with hw
      · exact ⟨fun h => ⟨hw, (Option.some.inj h).symm⟩, fun h => congrArg _ h.2.symm⟩
      · exact iff_of_false (by simp) fun h => hw h.1
    · rw [hread, Option.bind_none]
      refine iff_of_false (by simp) ?_
      rintro ⟨⟨w, hw, hpre⟩, -⟩
      exact hnot ⟨w, hw, (List.prefix_append t [a]).trans hpre⟩

theorem Piece.counted_succ (lo : Nat) (hi : Option Nat) (n : Nat) :
    counted lo hi (counted lo hi n + 1) = counted lo hi (n + 1) := by
  unfold counted
  split_ifs <;> omega

theorem Piece.all_lt_counted (lo : Nat) (hi : Option Nat) (n : Nat) :
    hi.all (counted lo hi n < ·) = true ↔ ∀ m ∈ hi, n + 1 ≤ m := by
  cases hi with
  | none => simp
  | some m =>
    rw [Option.all_some, decide_eq_true_iff, counted, if_neg (Option.some_ne_none m)]
    simp only [Option.mem_some_iff, forall_eq', Nat.succ_le_iff]

theorem Piece.read_many {cs : List α} {lo : Nat} {hi : Option Nat} :
    (many cs lo hi).read t = some pr ↔
      (∀ a ∈ t, a ∈ cs) ∧ (∀ n ∈ hi, t.length ≤ n) ∧ pr = .count (counted lo hi t.length) := by
  induction t using List.reverseRecOn generalizing pr with
  | nil => cases hi <;> simp [read, start, counted, eq_comm]
  | append_singleton t a ih =>
    have hmore : (many cs lo hi).more (.count (counted lo hi t.length)) a = some pr ↔
        (a ∈ cs ∧ ∀ m ∈ hi, (t ++ [a]).length ≤ m) ∧ pr = .count (counted lo hi (t ++ [a]).length) := by
      rw [more, counted_succ, List.length_append, List.length_singleton, ← all_lt_counted lo,
        ← List.contains_iff_mem, ← Bool.and_eq_true]
      split_ifs with h
      · exact ⟨fun he => ⟨h, (Option.some.inj he).symm⟩, fun he => congrArg some he.2.symm⟩
      · exact iff_of_false (by simp) fun he => h he.1
    rw [read_concat, Option.bind_eq_some_iff]
    constructor
    · rintro ⟨pr', hread, h⟩
      obtain ⟨hall, -, rfl⟩ := ih.mp hread
      obtain ⟨⟨hcs, hhi⟩, rfl⟩ := hmore.mp h
      refine ⟨fun b hb => ?_, hhi, rfl⟩
      rcases List.mem_append.mp hb with hb | hb
      · exact hall b hb
      · rw [List.mem_singleton.mp hb]
        exact hcs
    · rintro ⟨hall, hhi, rfl⟩
      refine ⟨_, ih.mpr ⟨fun b hb => hall b (List.mem_append_left _ hb), fun m hm => ?_, rfl⟩, ?_⟩
      · refine le_trans ?_ (hhi m hm)
        simp
      · exact hmore.mpr ⟨⟨hall a (by simp), hhi⟩, rfl⟩

/-- The texts of a piece are the ones that a reader finds complete. -/
theorem Piece.mem_lang_iff : t ∈ p.lang ↔ ∃ pr, p.read t = some pr ∧ p.done pr = true := by
  cases p with
  | words ws =>
    change t ∈ ws ↔ _
    by_cases ht : t = []
    · subst ht
      simp [read, start, done]
    · simp only [read_words ht]
      constructor
      · intro h
        exact ⟨_, ⟨⟨t, h, List.prefix_rfl⟩, rfl⟩, List.contains_iff_mem.mpr h⟩
      · rintro ⟨pr, ⟨-, rfl⟩, hdone⟩
        exact List.contains_iff_mem.mp hdone
  | many cs lo hi =>
    simp only [read_many]
    have hcounted : lo ≤ counted lo hi t.length ↔ lo ≤ t.length := by
      unfold counted
      split_ifs <;> omega
    constructor
    · rintro ⟨hall, hlo, hhi⟩
      exact ⟨_, ⟨hall, hhi, rfl⟩, decide_eq_true (hcounted.mpr hlo)⟩
    · rintro ⟨pr, ⟨hall, hhi, rfl⟩, hdone⟩
      exact ⟨hall, hcounted.mp (of_decide_eq_true hdone), hhi⟩

/-- A reader goes on as long as a text of the piece may come of it. -/
theorem Piece.mem_begins_iff (hp : p.proper = true) : t ∈ p.begins ↔ ∃ pr, p.read t = some pr := by
  constructor
  · rintro ⟨u, hu⟩
    obtain ⟨pr, hread, -⟩ := mem_lang_iff.mp hu
    rw [read_append] at hread
    obtain ⟨pr', hread, -⟩ := Option.bind_eq_some_iff.mp hread
    exact ⟨pr', hread⟩
  · rintro ⟨pr, hread⟩
    cases p with
    | words ws =>
      by_cases ht : t = []
      · subst ht
        cases ws with
        | nil => cases hp
        | cons w ws => exact ⟨w, List.mem_cons_self⟩
      · obtain ⟨⟨w, hw, u, rfl⟩, -⟩ := (read_words ht).mp hread
        exact ⟨u, hw⟩
    | many cs lo hi =>
      obtain ⟨hall, hhi, -⟩ := read_many.mp hread
      cases cs with
      | nil => cases hp
      | cons c cs =>
        -- as many symbols more as the piece needs
        refine ⟨List.replicate (lo - t.length) c, fun a ha => ?_, ?_, fun n hn => ?_⟩
        · rcases List.mem_append.mp ha with ha | ha
          · exact hall a ha
          · rw [List.eq_of_mem_replicate ha]
            exact List.mem_cons_self
        · rw [List.length_append, List.length_replicate]
          omega
        · have hlo : lo ≤ n := by
            obtain rfl := hn
            simp only [proper, Option.all_some, Bool.and_eq_true, decide_eq_true_eq] at hp
            exact hp.2
          have hlen := hhi n hn
          rw [List.length_append, List.length_replicate]
          omega

theorem Piece.mem_nexts (h : p.more pr a = some pr') : a ∈ p.nexts pr := by
  cases p with
  | words ws =>
    cases pr with
    | word u =>
      rw [more] at h
      split_ifs at h with hw
      obtain ⟨w, hw, hpre⟩ := List.any_eq_true.mp hw
      obtain ⟨v, rfl⟩ := List.isPrefixOf_iff_prefix.mp hpre
      refine List.mem_filterMap.mpr ⟨_, hw, ?_⟩
      rw [if_pos (List.isPrefixOf_iff_prefix.mpr ⟨[a] ++ v, (List.append_assoc u [a] v).symm⟩)]
      simp
    | count n => cases h
  | many cs lo hi =>
    cases pr with
    | word u => cases h
    | count n =>
      rw [more] at h
      split_ifs at h with hcs
      obtain ⟨hcs, hhi⟩ := Bool.and_eq_true_iff.mp hcs
      rw [nexts, if_pos hhi]
      exact List.contains_iff_mem.mp hcs

theorem Piece.nexts_subset : p.nexts pr ⊆ p.symbols := by
  intro a ha
  cases p with
  | words ws =>
    cases pr with
    | word u =>
      obtain ⟨w, hw, hget⟩ := List.mem_filterMap.mp ha
      split_ifs at hget
      exact List.mem_flatten.mpr ⟨w, hw, List.mem_of_getElem? hget⟩
    | count n => cases ha
  | many cs lo hi =>
    cases pr with
    | word u => cases ha
    | count n =>
      rw [nexts] at ha
      split_ifs at ha
      · exact ha
      · cases ha

theorem Piece.notMem_of_apart {p' : Piece α} (h : p.apart p' = true) (ha : a ∈ p.symbols) : a ∉ p'.symbols := by
  intro ha'
  have hnot := List.all_eq_true.mp h a ha
  rw [List.contains_iff_mem.mpr ha'] at hnot
  cases hnot

theorem Piece.ne_nil_of_mem (hp : p.proper = true) (h : t ∈ p.lang) : t ≠ [] := by
  rintro rfl
  cases p with
  | words ws =>
    have hmem : ([] : List α) ∈ ws := h
    simp [proper, hmem] at hp
  | many cs lo hi =>
    have hlo : lo ≤ 0 := h.2.1
    simp [proper] at hp
    omega

end Read

/-! ### Formats -/

namespace Format
variable {α : Type} [DecidableEq α]

/-- The texts of a sequence of pieces. -/
def lang (F : List (Piece α)) : Language α := (F.map Piece.lang).prod

/-- The reader of a format, in a piece with what has been read of it: one more symbol goes on with the
piece, or begins the next one behind a complete piece. -/
def step (F : List (Piece α)) (s : Nat × Progress α) (a : α) : Option (Nat × Progress α) :=
  F[s.1]?.bind fun p =>
    match p.more s.2 a with
    | some pr => some (s.1, pr)
    | none =>
      if p.done s.2 then F[s.1 + 1]?.bind fun p' => (p'.more p'.start a).map fun pr => (s.1 + 1, pr) else none

def run (F : List (Piece α)) (w : List α) : Option (Nat × Progress α) :=
  F.head?.bind fun p => w.foldlM (step F) (0, p.start)

/-- The symbols with which the reader can go on. -/
def nexts (F : List (Piece α)) (s : Nat × Progress α) : List α :=
  F[s.1]?.elim [] fun p =>
    p.nexts s.2 ++ if p.done s.2 then F[s.1 + 1]?.elim [] fun p => p.nexts p.start else []

/-- The reader is behind the last piece. -/
def finished (F : List (Piece α)) (s : Nat × Progress α) : Bool :=
  s.1 + 1 == F.length && F[s.1]?.any fun p => p.done s.2

/-- No symbol is used by two pieces in a row, and every piece is proper. -/
structure Separated (F : List (Piece α)) : Prop where
  apart : F.IsChain fun p p' => p.apart p' = true
  proper : ∀ p ∈ F, p.proper = true

/-- A text cut into complete pieces `ts` and a part `t` of the next one. -/
structure Cut (F : List (Piece α)) (w : List α) (ts : List (List α)) (t : List α) : Prop where
  text : w = ts.flatten ++ t
  complete : Forall₂ (fun t p => t ∈ Piece.lang p) ts (F.take ts.length)
  begun : t = [] → ts = []

/-- A text that can begin one of the format. -/
structure Begun (F : List (Piece α)) (w : List α) (ts : List (List α)) (t : List α) : Prop extends Cut F w ts t where
  part : ∃ p, F[ts.length]? = some p ∧ t ∈ p.begins

/-- A cut with where the reader is behind it. -/
structure Reaches (F : List (Piece α)) (w : List α) (ts : List (List α)) (t : List α) (s : Nat × Progress α) : Prop
    extends Cut F w ts t where
  index : s.1 = ts.length
  part : ∃ p, F[ts.length]? = some p ∧ p.read t = some s.2

section Lemmas
variable {F : List (Piece α)} {w t u : List α} {ts : List (List α)} {p p' : Piece α} {s s' : Nat × Progress α} {a : α}
variable {pr : Progress α}

theorem forall₂_concat {α β : Type} {R : α → β → Prop} {l : List α} {m : List β} {a : α} {b : β} :
    Forall₂ R (l ++ [a]) (m ++ [b]) ↔ Forall₂ R l m ∧ R a b := by
  rw [← forall₂_reverse_iff]
  simp only [List.reverse_append, List.reverse_singleton, List.singleton_append, forall₂_cons, forall₂_reverse_iff]
  exact and_comm

omit [DecidableEq α] in
theorem mem_lang_iff : w ∈ lang F ↔ ∃ ts, w = ts.flatten ∧ Forall₂ (fun t p => t ∈ Piece.lang p) ts F := by
  induction F generalizing w with
  | nil =>
    constructor
    · rintro rfl
      exact ⟨[], rfl, .nil⟩
    · rintro ⟨ts, rfl, h⟩
      cases h
      rfl
  | cons p F ih =>
    change w ∈ p.lang * lang F ↔ _
    rw [Language.mem_mul]
    constructor
    · rintro ⟨t, ht, u, hu, rfl⟩
      obtain ⟨ts, rfl, hts⟩ := ih.mp hu
      exact ⟨t :: ts, rfl, .cons ht hts⟩
    · rintro ⟨ts, rfl, h⟩
      cases h with
      | cons ht hts => exact ⟨_, ht, _, ih.mpr ⟨_, rfl, hts⟩, rfl⟩

theorem run_append : run F (w ++ u) = (run F w).bind fun s => u.foldlM (step F) s := by
  unfold run
  cases F.head? with
  | none => rfl
  | some p =>
    simp only [Option.bind_some, List.foldlM_append]
    rfl

theorem run_concat : run F (w ++ [a]) = (run F w).bind fun s => step F s a := by
  rw [run_append]
  cases run F w with
  | none => rfl
  | some s => simp

/-- What can be read can be read up to any place of it. -/
theorem isSome_run_of_prefix (h : w <+: u) (hu : (run F u).isSome) : (run F w).isSome := by
  obtain ⟨v, rfl⟩ := h
  rw [run_append] at hu
  exact Option.isSome_of_isSome_bind hu

theorem mem_nexts_of_step (h : step F s a = some s') : a ∈ nexts F s := by
  obtain ⟨p, hp, h⟩ := Option.bind_eq_some_iff.mp h
  unfold nexts
  rw [hp, Option.elim_some]
  cases hmore : p.more s.2 a with
  | some pr => exact List.mem_append_left _ (Piece.mem_nexts hmore)
  | none =>
    rw [hmore] at h
    dsimp only at h
    split_ifs at h with hdone
    obtain ⟨p', hp', h⟩ := Option.bind_eq_some_iff.mp h
    obtain ⟨pr, hmore', -⟩ := Option.map_eq_some_iff.mp h
    rw [if_pos hdone, hp']
    exact List.mem_append_right _ (Piece.mem_nexts hmore')

theorem step_stay (hp : F[s.1]? = some p) (hmore : p.more s.2 a = some pr) : step F s a = some (s.1, pr) := by
  unfold step
  rw [hp, Option.bind_some, hmore]

theorem step_move (hp : F[s.1]? = some p) (hnone : p.more s.2 a = none) (hdone : p.done s.2 = true)
    (hp' : F[s.1 + 1]? = some p') (hmore : p'.more p'.start a = some pr) : step F s a = some (s.1 + 1, pr) := by
  unfold step
  rw [hp, Option.bind_some, hnone]
  dsimp only
  rw [if_pos hdone, hp', Option.bind_some, hmore, Option.map_some]

/-- The piece before a step to the next one is complete. -/
theorem done_of_step (h : step F s a = some s') (hs : s'.1 = s.1 + 1) :
    ∃ p, F[s.1]? = some p ∧ p.done s.2 = true ∧ s.1 + 1 < F.length := by
  obtain ⟨p, hp, h⟩ := Option.bind_eq_some_iff.mp h
  cases hmore : p.more s.2 a with
  | some pr =>
    rw [hmore] at h
    obtain rfl := Option.some.inj h
    simp at hs
  | none =>
    rw [hmore] at h
    dsimp only at h
    split_ifs at h with hdone
    obtain ⟨p', hp', -⟩ := Option.bind_eq_some_iff.mp h
    exact ⟨p, hp, hdone, (List.getElem?_eq_some_iff.mp hp').1⟩

/-- Another symbol of the piece that has been begun. -/
theorem Reaches.stay (h : Reaches F w ts t s) (hp : F[ts.length]? = some p) (hmore : p.more s.2 a = some pr) :
    Reaches F (w ++ [a]) ts (t ++ [a]) (s.1, pr) := by
  obtain ⟨p', hp', hread⟩ := h.part
  obtain rfl := Option.some.inj (hp.symm.trans hp')
  refine ⟨⟨?_, h.complete, by simp⟩, h.index, p, hp, ?_⟩
  · rw [h.text, List.append_assoc]
  · rw [Piece.read_concat, hread, Option.bind_some, hmore]

/-- The first symbol of the next piece. -/
theorem Reaches.move (h : Reaches F w ts t s) (hp : F[ts.length]? = some p) (hdone : p.done s.2 = true)
    (hp' : F[ts.length + 1]? = some p') (hmore : p'.more p'.start a = some pr) :
    Reaches F (w ++ [a]) (ts ++ [t]) [a] (s.1 + 1, pr) := by
  obtain ⟨p₁, hp₁, hread⟩ := h.part
  obtain rfl := Option.some.inj (hp.symm.trans hp₁)
  refine ⟨⟨?_, ?_, by simp⟩, by simp [h.index], p', by simpa using hp', ?_⟩
  · rw [h.text, List.flatten_append, List.flatten_singleton, List.append_assoc]
  · obtain ⟨hlt, hget⟩ := List.getElem?_eq_some_iff.mp hp
    rw [List.length_append, List.length_singleton, List.take_succ_eq_append_getElem hlt, hget]
    exact forall₂_concat.mpr ⟨h.complete, Piece.mem_lang_iff.mpr ⟨s.2, hread, hdone⟩⟩
  · rw [← List.nil_append [a], Piece.read_concat]
    exact hmore

/-- One more symbol either way. -/
theorem Reaches.step (h : Reaches F w ts t s) (hstep : Format.step F s a = some s') :
    s'.1 = s.1 ∧ Reaches F (w ++ [a]) ts (t ++ [a]) s' ∨
      s'.1 = s.1 + 1 ∧ Reaches F (w ++ [a]) (ts ++ [t]) [a] s' := by
  obtain ⟨p, hp, hstep⟩ := Option.bind_eq_some_iff.mp hstep
  rw [h.index] at hp
  cases hmore : p.more s.2 a with
  | some pr =>
    rw [hmore] at hstep
    obtain rfl := Option.some.inj hstep
    exact .inl ⟨rfl, h.stay hp hmore⟩
  | none =>
    rw [hmore] at hstep
    dsimp only at hstep
    split_ifs at hstep with hdone
    obtain ⟨p', hp', hstep⟩ := Option.bind_eq_some_iff.mp hstep
    obtain ⟨pr, hmore', rfl⟩ := Option.map_eq_some_iff.mp hstep
    rw [h.index] at hp'
    exact .inr ⟨rfl, h.move hp hdone hp' hmore'⟩

theorem Reaches.nil (hp : F.head? = some p) : Reaches F [] [] [] (0, p.start) :=
  ⟨⟨rfl, .nil, fun _ => rfl⟩, rfl, p, by rw [← hp, List.head?_eq_getElem?]; rfl, rfl⟩

/-- What the reader has read is cut as it says. -/
theorem exists_reaches (h : run F w = some s) : ∃ ts t, Reaches F w ts t s := by
  induction w using List.reverseRecOn generalizing s with
  | nil =>
    obtain ⟨p, hp, h⟩ := Option.bind_eq_some_iff.mp h
    obtain rfl := Option.some.inj h
    exact ⟨[], [], .nil hp⟩
  | append_singleton w a ih =>
    rw [run_concat] at h
    obtain ⟨s₁, hrun, hstep⟩ := Option.bind_eq_some_iff.mp h
    obtain ⟨ts, t, hreaches⟩ := ih hrun
    rcases hreaches.step hstep with ⟨-, h⟩ | ⟨-, h⟩
    · exact ⟨_, _, h⟩
    · exact ⟨_, _, h⟩

/-- The complete piece before the one that has been begun. -/
theorem Reaches.unmove (hF : Separated F) (h : Reaches F w (ts ++ [u]) [a] s) :
    ∃ p p' pr, F[ts.length]? = some p ∧ F[ts.length + 1]? = some p' ∧ p.done pr = true ∧ p.more pr a = none ∧
      p'.more p'.start a = some s.2 ∧ Reaches F (ts.flatten ++ u) ts u (ts.length, pr) := by
  obtain ⟨p', hp', hread'⟩ := h.part
  rw [List.length_append, List.length_singleton] at hp'
  have hlt : ts.length + 1 < F.length := (List.getElem?_eq_some_iff.mp hp').1
  have hp : F[ts.length]? = some F[ts.length] := List.getElem?_eq_getElem (Nat.lt_of_succ_lt hlt)
  have hcomplete := h.complete
  rw [List.length_append, List.length_singleton, List.take_succ_eq_append_getElem (Nat.lt_of_succ_lt hlt)] at hcomplete
  obtain ⟨hts, hu⟩ := forall₂_concat.mp hcomplete
  obtain ⟨pr, hread, hdone⟩ := Piece.mem_lang_iff.mp hu
  have hmore : p'.more p'.start a = some s.2 := by
    rw [← List.nil_append [a], Piece.read_concat] at hread'
    exact hread'
  have hne : u ≠ [] := Piece.ne_nil_of_mem (hF.proper _ (List.getElem_mem _)) hu
  refine ⟨_, p', pr, hp, hp', hdone, ?_, hmore, ⟨⟨rfl, hts, fun h => absurd h hne⟩, rfl, _, hp, hread⟩⟩
  -- the symbol is one of the next piece
  have hapart := List.isChain_iff_getElem.mp hF.apart ts.length hlt
  rw [(List.getElem?_eq_some_iff.mp hp').2] at hapart
  refine Option.eq_none_iff_forall_ne_some.mpr fun pr' h' => ?_
  exact Piece.notMem_of_apart hapart (Piece.nexts_subset (Piece.mem_nexts h')) (Piece.nexts_subset (Piece.mem_nexts hmore))

/-- A cut without its last symbol, and whether that one begins its piece. -/
theorem Reaches.unstep (hF : Separated F) (h : Reaches F (w ++ [a]) ts t s) :
    ∃ ts' t' s', Reaches F w ts' t' s' ∧ Format.step F s' a = some s ∧
      (s.1 = s'.1 ∧ ts = ts' ∧ t = t' ++ [a] ∨ s.1 = s'.1 + 1 ∧ ts = ts' ++ [t'] ∧ t = [a]) := by
  obtain ⟨k, pr₁⟩ := s
  obtain rfl : k = ts.length := h.index
  have htext := h.text
  obtain rfl | ⟨t, b, rfl⟩ := t.eq_nil_or_concat
  · rw [h.begun rfl] at htext
    simp at htext
  rw [List.concat_eq_append, ← List.append_assoc] at htext
  obtain ⟨rfl, hab⟩ := List.append_inj' htext rfl
  obtain rfl := List.singleton_inj.mp hab
  rw [List.concat_eq_append] at h ⊢
  obtain ⟨p, hp, hread⟩ := h.part
  rw [Piece.read_concat] at hread
  obtain ⟨pr, hread, hmore⟩ := Option.bind_eq_some_iff.mp hread
  by_cases hstart : t = [] → ts = []
  · exact ⟨ts, t, (ts.length, pr), ⟨⟨rfl, h.complete, hstart⟩, rfl, p, hp, hread⟩, step_stay hp hmore, .inl ⟨rfl, rfl, rfl⟩⟩
  · obtain ⟨rfl, hne⟩ := Classical.not_imp.mp hstart
    obtain ⟨ts, u, rfl⟩ := (List.eq_nil_or_concat ts).resolve_left hne
    rw [List.concat_eq_append] at h ⊢
    obtain ⟨p, p', pr, hp, hp', hdone, hnone, hmore, hreaches⟩ := h.unmove hF
    refine ⟨ts, u, (ts.length, pr), ?_, ?_, .inr ⟨?_, rfl, rfl⟩⟩
    · simpa using hreaches
    · rw [List.length_append]
      exact step_move hp hnone hdone hp' hmore
    · rw [List.length_append, List.length_singleton]

/-- A text that is cut into pieces is read so. -/
theorem run_of_reaches (hF : Separated F) (h : Reaches F w ts t s) : run F w = some s := by
  induction w using List.reverseRecOn generalizing ts t s with
  | nil =>
    obtain ⟨-, rfl⟩ := List.append_eq_nil_iff.mp h.text.symm
    obtain rfl := h.begun rfl
    obtain ⟨p, hp, hread⟩ := h.part
    obtain ⟨k, pr⟩ := s
    obtain rfl : k = 0 := h.index
    obtain rfl : p.start = pr := Option.some.inj hread
    unfold run
    rw [List.head?_eq_getElem?, show F[0]? = some p from hp]
    rfl
  | append_singleton w a ih =>
    obtain ⟨ts', t', s', hreaches, hstep, -⟩ := h.unstep hF
    rw [run_concat, ih hreaches, Option.bind_some, hstep]

/-- What can begin a text of the format is what the reader can read. -/
theorem begun_iff (hF : Separated F) : Begun F w ts t ↔ ∃ s, Reaches F w ts t s := by
  constructor
  · rintro ⟨hcut, p, hp, ht⟩
    obtain ⟨pr, hread⟩ := (Piece.mem_begins_iff (hF.proper p (List.mem_of_getElem? hp))).mp ht
    exact ⟨(ts.length, pr), hcut, rfl, p, hp, hread⟩
  · rintro ⟨s, hcut, -, p, hp, hread⟩
    exact ⟨hcut, p, hp, (Piece.mem_begins_iff (hF.proper p (List.mem_of_getElem? hp))).mpr ⟨_, hread⟩⟩

/-- Behind all pieces the reader has finished, and the last of them is the one it is in. -/
theorem reaches_of_complete (hF : Separated F) (hne : F ≠ []) (h : Forall₂ (fun t p => t ∈ Piece.lang p) ts F) :
    ∃ us t s, ts = us ++ [t] ∧ Reaches F ts.flatten us t s ∧ finished F s = true := by
  obtain ⟨F, p, rfl⟩ := (List.eq_nil_or_concat F).resolve_left hne
  rw [List.concat_eq_append] at hF h ⊢
  have hlast : (F ++ [p])[F.length]? = some p := by simp
  obtain rfl | ⟨us, t, rfl⟩ := ts.eq_nil_or_concat
  · have hlen := h.length_eq
    simp at hlen
  rw [List.concat_eq_append] at h ⊢
  obtain ⟨hus, ht⟩ := forall₂_concat.mp h
  obtain ⟨pr, hread, hdone⟩ := Piece.mem_lang_iff.mp ht
  have hnil : t ≠ [] := Piece.ne_nil_of_mem (hF.proper p (by simp)) ht
  refine ⟨us, t, (F.length, pr), rfl, ⟨⟨by simp, ?_, fun h => absurd h hnil⟩, hus.length_eq.symm, p, ?_, hread⟩, ?_⟩
  · rw [hus.length_eq, List.take_left]
    exact hus
  · rw [hus.length_eq, hlast]
  · unfold finished
    simp [hdone]

/-- The texts of a format are those behind which the reader has finished. -/
theorem mem_lang_iff_finished (hF : Separated F) (hne : F ≠ []) :
    w ∈ lang F ↔ ∃ s, run F w = some s ∧ finished F s = true := by
  rw [mem_lang_iff]
  constructor
  · rintro ⟨ts, rfl, hts⟩
    obtain ⟨us, t, s, -, hreaches, hfin⟩ := reaches_of_complete hF hne hts
    exact ⟨s, run_of_reaches hF hreaches, hfin⟩
  · rintro ⟨s, hrun, hfin⟩
    obtain ⟨F, p, rfl⟩ := (List.eq_nil_or_concat F).resolve_left hne
    rw [List.concat_eq_append] at hfin hrun ⊢
    have hlast : (F ++ [p])[F.length]? = some p := by simp
    obtain ⟨ts, t, h⟩ := exists_reaches hrun
    unfold finished at hfin
    rw [Bool.and_eq_true, beq_iff_eq, List.length_append, List.length_singleton] at hfin
    have hlen : ts.length = F.length := by
      have := h.index
      omega
    obtain ⟨p', hp', hread⟩ := h.part
    rw [hlen, hlast] at hp'
    obtain rfl := Option.some.inj hp'
    have hdone : p.done s.2 = true := by
      have hany := hfin.2
      rwa [h.index, hlen, hlast] at hany
    have hcomplete := h.complete
    rw [hlen, List.take_left] at hcomplete
    refine ⟨ts ++ [t], ?_, forall₂_concat.mpr ⟨hcomplete, Piece.mem_lang_iff.mpr ⟨_, hread, hdone⟩⟩⟩
    rw [h.text, List.flatten_append, List.flatten_singleton]

end Lemmas
end Format
end Latypus.Lib
