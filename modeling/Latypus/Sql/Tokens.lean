import Latypus.Sql.Reader

/-! The tokens of a statement, read in any context that can go on behind them: names, of which another
reading may take the first letters for those of a keyword, numbers and quoted values. -/

namespace Latypus.Sql
open Http (Bytes isAlpha isDigit)
open Lib Lib.Pattern

/-- `Identifier` without quotes, reserved or not. -/
def isIdentifier : Bytes → Bool
  | [] => false
  | c :: w => isAlpha c && w.all isWord

namespace Reader

/-- A reader in the middle of a statement. -/
def reading (ts : List (List Pat)) (token : Bytes) (d : TableDefinition) : Reader :=
  ⟨ts, token, ⟨[], some d⟩⟩

/-- The error state, with no statement read before it. -/
def Dead (r : Reader) : Prop := r.readings = [] ∧ r.impl.statements = []

theorem Dead.run {r : Reader} (h : r.Dead) (w : Bytes) : (r.run w).Dead := by
  obtain ⟨hreadings, himpl⟩ := run_of_readings_eq_nil h.1 w
  exact ⟨hreadings, by rw [himpl, h.2]⟩

theorem read_eq {ts us : List (List Pat)} {c : UInt8} {as : List Action} {t t' : Bytes}
    {d d' : TableDefinition} (hafter : after ByteClass.has Grammar.reserved ts c = us)
    (hfired : inOrder (fired ByteClass.has Grammar.reserved ts c) = as)
    (hact : as.foldl act (reading us t d) = reading us t' d') :
    (reading ts t d).read c = reading us (t' ++ [c]) d' := by
  simp only [reading] at hact
  simp only [read, reading, hafter, hfired, hact]

/-- A byte without actions. -/
theorem read_silent {ts us : List (List Pat)} {c : UInt8}
    (h : moves ByteClass.has Grammar.reserved ts c = us.map fun k => ([], k)) (t : Bytes)
    (d : TableDefinition) : (reading ts t d).read c = reading us (t ++ [c]) d := by
  have hafter : after ByteClass.has Grammar.reserved ts c = us := by
    simp [after, h, List.map_map, Function.comp_def]
  have hfired : fired ByteClass.has Grammar.reserved ts c = [] := by
    simp [fired, h, List.flatMap_map]
  exact read_eq hafter (congrArg inOrder hfired) rfl

/-- What a byte does is decided by the moves of the readings. -/
theorem read_congr {ts us : List (List Pat)} {c : UInt8}
    (h : moves ByteClass.has Grammar.reserved ts c = moves ByteClass.has Grammar.reserved us c) (t : Bytes)
    (d : TableDefinition) : (reading ts t d).read c = (reading us t d).read c := by
  simp only [read, reading, after, fired, h]

/-- A name that has been read so far, in front of each of the ways on. -/
def nameReadings (ks : List (List Pat)) (seen : Bytes) : List (List Pat) :=
  ks.map (avoid (star (sym .word)) seen :: ·)

def separators : List ByteClass := [.ws, .byte 40, .byte 41, .byte 44, .byte 46]

/-- None of the ways on begins with a byte of a name. -/
def Quiet (ks : List (List Pat)) : Prop := ∀ k ∈ ks, ∀ x ∈ begins k, x ∈ separators

instance (ks : List (List Pat)) : Decidable (Quiet ks) :=
  inferInstanceAs (Decidable (∀ k ∈ ks, ∀ x ∈ begins k, x ∈ separators))

theorem separators_not_word {x : ByteClass} {c : UInt8} (hx : x ∈ separators) (hc : isWord c) :
    x.has c = false := by
  have hne : ∀ b : UInt8, isWord b = false → (c == b) = false := by
    intro b hb
    rw [beq_eq_false_iff_ne]
    rintro rfl
    simp [hb] at hc
  simp only [separators, List.mem_cons, List.not_mem_nil, or_false] at hx
  rcases hx with rfl | rfl | rfl | rfl | rfl
  · simp [ByteClass.has, hne 32 rfl, hne 9 rfl, hne 10 rfl]
  · exact hne 40 rfl
  · exact hne 41 rfl
  · exact hne 44 rfl
  · exact hne 46 rfl

variable {ks us : List (List Pat)} {seen w t : Bytes} {c x : UInt8} {d : TableDefinition}

theorem Quiet.moves (h : Quiet ks) (hc : isWord c) : moves ByteClass.has Grammar.reserved ks c = [] := by
  rw [Pattern.moves, List.flatMap_eq_nil_iff]
  intro k hk
  exact step_eq_nil fun x hx => separators_not_word (h k hk x hx) hc

theorem moves_nameReadings (h : Quiet ks) (hc : isWord c) (seen : Bytes) :
    moves ByteClass.has Grammar.reserved (nameReadings ks seen) c =
      if endsForbidden ByteClass.has Grammar.reserved (seen ++ [c]) then []
      else (nameReadings ks (seen ++ [c])).map fun k => ([], k) := by
  induction ks with
  | nil => simp [nameReadings, Pattern.moves]
  | cons k ks ih =>
    have hk : step ByteClass.has Grammar.reserved c k = [] :=
      step_eq_nil fun x hx => separators_not_word (h k (by simp) x hx) hc
    have hword : ByteClass.has .word c = true := hc
    have ih := ih fun k hk => h k (by simp [hk])
    simp only [nameReadings, Pattern.moves, List.map_cons, List.flatMap_cons] at ih ⊢
    rw [ih, step_avoid hword, hk]
    split <;> simp

/-- Behind a name only the ways on are left. -/
theorem moves_nameReadings_of_not (hc : isWord c = false) :
    moves ByteClass.has Grammar.reserved (nameReadings ks seen) c =
      moves ByteClass.has Grammar.reserved ks c := by
  have hword : ByteClass.has .word c = false := hc
  simp only [nameReadings, Pattern.moves, List.flatMap_map, step_avoid_of_not hword]

/-- Readings that a name leaves: none, or the rest of a keyword that the name does not spell. -/
inductive Fading : List (List Pat) → Bytes → Prop
  | none (w : Bytes) : Fading [] w
  | keyword {u w : Bytes} {k : List Pat} (hquiet : Quiet [k]) (hletters : ∀ x ∈ u, isAlpha x ∧ isAlpha (x + 32))
      (hspells : spells ByteClass.has (Grammar.letters u) w = false) :
      Fading [(Grammar.letters u).map sym ++ k] w

theorem Fading.step (h : Fading us (c :: w)) (hc : isWord c) :
    ∃ us', moves ByteClass.has Grammar.reserved us c = us'.map (fun k => ([], k)) ∧ Fading us' w := by
  cases h with
  | none => exact ⟨[], rfl, .none w⟩
  | @keyword u _ k hquiet hletters hspells =>
    cases u with
    | nil => exact ⟨[], hquiet.moves hc, .none w⟩
    | cons x u =>
      cases hx : ByteClass.has (.letter x) c
      · refine ⟨[], ?_, .none w⟩
        simp [Pattern.moves, Grammar.letters, Pattern.step, Pattern.deriv, leaving, hx]
      · refine ⟨[(Grammar.letters u).map sym ++ k], ?_, .keyword hquiet (fun y hy => hletters y (by simp [hy])) ?_⟩
        · simp [Pattern.moves, Grammar.letters, Pattern.step, Pattern.deriv, leaving, hx]
        · simpa [Grammar.letters, spells, hx] using hspells

theorem Fading.moves (h : Fading us []) (hc : isWord c = false) :
    moves ByteClass.has Grammar.reserved us c = [] := by
  cases h with
  | none => rfl
  | @keyword u _ k hquiet hletters hspells =>
    cases u with
    | nil => simp [Grammar.letters, spells] at hspells
    | cons x u =>
      have hx : ByteClass.has (.letter x) c = false := by
        obtain ⟨hupper, hlower⟩ := hletters x (by simp)
        simp only [ByteClass.has, Bool.or_eq_false_iff, beq_eq_false_iff_ne]
        constructor <;> rintro rfl <;> simp_all [isWord]
      simp [Pattern.moves, Grammar.letters, Pattern.step, Pattern.deriv, leaving, hx]

/-- A reserved word ends in what follows of a name. -/
def tainted (seen : Bytes) : Bytes → Bool
  | [] => false
  | c :: w => endsForbidden ByteClass.has Grammar.reserved (seen ++ [c]) || tainted (seen ++ [c]) w

/-- A token with the byte behind it: the reader goes on as `r'` does, or is in its error state. -/
def Takes (good : Prop) (r : Reader) (w : Bytes) (r' : Reader) : Prop :=
  ∀ x rest, isWord x = false →
    (good → r.run (w ++ x :: rest) = r'.run (x :: rest)) ∧ (¬good → (r.run (w ++ x :: rest)).Dead)

/-- Readings without a name die with the name. -/
theorem Fading.dead (h : Fading us w) (hw : ∀ c ∈ w, isWord c) (hx : isWord x = false) (rest t : Bytes)
    (d : TableDefinition) : ((reading us t d).run (w ++ x :: rest)).Dead := by
  induction w generalizing us t with
  | nil =>
    have hread : (reading us t d).read x = reading [] (t ++ [x]) d := read_silent (h.moves hx) t d
    rw [List.nil_append, run_cons, hread]
    exact Dead.run ⟨rfl, rfl⟩ rest
  | cons c w ih =>
    obtain ⟨us', hmoves, hfading⟩ := h.step (hw c (by simp))
    rw [List.cons_append, run_cons, read_silent hmoves]
    exact ih hfading (fun c hc => hw c (by simp [hc])) _

/-- The rest of a name. -/
theorem takes_nameReadings (hquiet : Quiet ks) (hfading : Fading us w) (hw : ∀ c ∈ w, isWord c)
    (seen t : Bytes) (d : TableDefinition) :
    Takes (tainted seen w = false) (reading (nameReadings ks seen ++ us) t d) w (reading ks (t ++ w) d) := by
  intro x rest hx
  induction w generalizing us seen t with
  | nil =>
    refine ⟨fun _ => ?_, fun h => absurd rfl h⟩
    have hmoves : moves ByteClass.has Grammar.reserved (nameReadings ks seen ++ us) x =
        moves ByteClass.has Grammar.reserved ks x := by
      rw [moves_append, moves_nameReadings_of_not hx, hfading.moves hx, List.append_nil]
    simp only [List.nil_append, List.append_nil, run_cons]
    rw [read_congr hmoves]
  | cons c w ih =>
    have hc := hw c (by simp)
    have hwtail : ∀ c ∈ w, isWord c := fun c hc => hw c (by simp [hc])
    obtain ⟨us', hus, hfading⟩ := hfading.step hc
    have hmoves := moves_nameReadings hquiet hc seen
    rw [List.cons_append, run_cons]
    cases hends : endsForbidden ByteClass.has Grammar.reserved (seen ++ [c])
    · have hread : (reading (nameReadings ks seen ++ us) t d).read c =
          reading (nameReadings ks (seen ++ [c]) ++ us') (t ++ [c]) d := by
        refine read_silent ?_ t d
        simp [moves_append, hmoves, hends, hus]
      have hrest := ih hfading hwtail (seen ++ [c]) (t ++ [c])
      rw [hread]
      simpa [tainted, hends] using hrest
    · -- the name is given up here, whatever else can still be read of it
      have hread : (reading (nameReadings ks seen ++ us) t d).read c = reading us' (t ++ [c]) d := by
        refine read_silent ?_ t d
        simp [moves_append, hmoves, hends, hus]
      rw [hread]
      exact ⟨fun h => by simp [tainted, hends] at h, fun _ => hfading.dead hwtail hx rest _ d⟩

theorem endsForbidden_singleton (c : UInt8) :
    endsForbidden ByteClass.has Grammar.reserved [c] = false := by
  have hreserved : ∀ u ∈ Grammar.reserved, 2 ≤ u.length := by decide
  simp only [endsForbidden, List.any_eq_false]
  intro u hu hspells
  have hlength := length_eq_of_spells hspells
  have := hreserved u hu
  simp at hlength
  omega

/-- A name, in a context that leaves it to the ways on or to the rest of a keyword. -/
theorem takes_name {ts : List (List Pat)} {d' : TableDefinition} (hquiet : Quiet ks) (hfading : Fading us w)
    (hname : isIdentifier (c :: w))
    (hread : (reading ts t d).read c = reading (nameReadings ks [c] ++ us) [c] d') :
    Takes (tainted [] (c :: w) = false) (reading ts t d) (c :: w) (reading ks (c :: w) d') := by
  simp only [isIdentifier, Bool.and_eq_true, List.all_eq_true] at hname
  have hrest := takes_nameReadings hquiet hfading hname.2 [c] [c] d'
  intro x rest hx
  rw [List.cons_append, run_cons, hread]
  simpa [tainted, endsForbidden_singleton] using hrest x rest hx

/-- The rest of a number. -/
theorem takes_digits {k : List Pat} (hquiet : Quiet [k]) (hw : ∀ c ∈ w, isDigit c) (t : Bytes)
    (d : TableDefinition) :
    Takes True (reading [star (sym .digit) :: k] t d) w (reading [k] (t ++ w) d) := by
  intro x rest hx
  refine ⟨fun _ => ?_, fun h => absurd trivial h⟩
  have hxdigit : ByteClass.has .digit x = false := by
    cases hdigit : isDigit x <;> simp_all [isWord, ByteClass.has]
  induction w generalizing t with
  | nil =>
    have hmoves : moves ByteClass.has Grammar.reserved [star (sym .digit) :: k] x =
        moves ByteClass.has Grammar.reserved [k] x := by
      simp only [moves, List.flatMap_cons, List.flatMap_nil, step_star_of_not hxdigit]
    rw [List.nil_append, List.append_nil, run_cons, read_congr hmoves, run_cons]
  | cons c w ih =>
    have hc : ByteClass.has .digit c = true := hw c (by simp)
    have hquiet : step ByteClass.has Grammar.reserved c k = [] := by
      have := hquiet.moves (show isWord c by simp_all [isWord, ByteClass.has])
      simpa [moves] using this
    have hread : (reading [star (sym .digit) :: k] t d).read c =
        reading [star (sym .digit) :: k] (t ++ [c]) d := by
      refine read_silent ?_ t d
      simp only [moves, List.flatMap_cons, List.flatMap_nil, step_star hc, hquiet, List.append_nil]
      rfl
    rw [List.cons_append, run_cons, hread]
    simpa using ih (fun c hc => hw c (by simp [hc])) (t ++ [c])

/-- The inside of a quoted value and the quote behind it. -/
theorem run_quoted {k : List Pat} (hw : 39 ∉ w) (t : Bytes) (d : TableDefinition) :
    (reading [star (sym (.notByte 39)) :: Grammar.byte 39 :: k] t d).run (w ++ [39]) =
      reading [k] (t ++ w ++ [39]) d := by
  induction w generalizing t with
  | nil =>
    have hread : (reading [star (sym (.notByte 39)) :: Grammar.byte 39 :: k] t d).read 39 =
        reading [k] (t ++ [39]) d := read_silent rfl t d
    rw [List.nil_append, run_cons, hread, run_nil, List.append_nil]
  | cons c w ih =>
    obtain ⟨hc, hw⟩ := not_or.mp (fun h => hw (List.mem_cons.mpr h))
    have hinside : ByteClass.has (.notByte 39) c = true := bne_iff_ne.mpr fun h => hc h.symm
    have hquote : step ByteClass.has Grammar.reserved c (Grammar.byte 39 :: k) = [] := by
      have hne : ByteClass.has (.byte 39) c = false := beq_eq_false_iff_ne.mpr fun h => hc h.symm
      simp [step, Pattern.deriv, leaving, Grammar.byte, hne]
    have hread : (reading [star (sym (.notByte 39)) :: Grammar.byte 39 :: k] t d).read c =
        reading [star (sym (.notByte 39)) :: Grammar.byte 39 :: k] (t ++ [c]) d := by
      refine read_silent ?_ t d
      simp only [moves, List.flatMap_cons, List.flatMap_nil, step_star hinside, hquote, List.append_nil]
      rfl
    rw [List.cons_append, run_cons, hread, ih hw]
    simp

/-- The actions on each byte of a text, and the readings behind it. -/
def walk (ts : List (List Pat)) : Bytes → List (List Action) × List (List Pat)
  | [] => ([], ts)
  | c :: w =>
    let rest := walk (after ByteClass.has Grammar.reserved ts c) w
    (inOrder (fired ByteClass.has Grammar.reserved ts c) :: rest.1, rest.2)

theorem run_silent {ts : List (List Pat)} (h : walk ts w = (List.replicate w.length [], us)) (t : Bytes)
    (d : TableDefinition) : (reading ts t d).run w = reading us (t ++ w) d := by
  induction w generalizing ts t with
  | nil =>
    obtain rfl : ts = us := congrArg Prod.snd h
    simp
  | cons c w ih =>
    simp only [walk, List.length_cons, List.replicate_succ, Prod.mk.injEq, List.cons.injEq] at h
    rw [run_cons, read_eq rfl h.1.1 rfl, ih (Prod.ext h.1.2 h.2)]
    simp

/-- A fixed text whose actions are executed on its first byte. -/
theorem run_of_walk {ts : List (List Pat)} {as : List Action} {t' : Bytes} {d' : TableDefinition}
    (h : walk ts (c :: w) = (as :: List.replicate w.length [], us))
    (hact : as.foldl act (reading (after ByteClass.has Grammar.reserved ts c) t d) =
      reading (after ByteClass.has Grammar.reserved ts c) t' d') :
    (reading ts t d).run (c :: w) = reading us (t' ++ c :: w) d' := by
  simp only [walk, Prod.mk.injEq, List.cons.injEq] at h
  rw [run_cons, read_eq rfl h.1.1 hact, run_silent (Prod.ext h.1.2 h.2)]
  simp

end Reader
end Latypus.Sql
