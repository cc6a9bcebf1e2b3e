import Latypus.Http.DateGrammar

/-! What `parse` makes of any text: the run of the table beside the readers of the formats, the fields
of the complete parts, and which dates are reported. -/

namespace Latypus.Http.HttpDate.Grammar
open Lib

section Acts
variable {str t : Bytes} {p : Nat} {s : Parser} {part : Part} {pr : Progress UInt8}

theorem effect_wday {i : Nat} (hi : i < 7) (v : Int) (tm : Tm) : effect v tm (i + 2) = { tm with wday := i } := by
  unfold effect
  rw [if_pos (by omega)]
  congr 1
  omega

theorem effect_mon {i : Nat} (hi : i < 12) (v : Int) (tm : Tm) : effect v tm (i + 9) = { tm with mon := i } := by
  unfold effect
  rw [if_neg (by omega), if_pos (by omega)]
  congr 1
  omega

/-- The actions behind a complete part. -/
theorem foldl_leave (hread : part.piece.read t = some pr) (ht : t ∈ part.piece.lang)
    (hnumber : part.number = true → number str s.mark p = atoi t) :
    (leave part pr).foldl (action str p) s = { s with tm := part.set t s.tm } := by
  have hone {a : Nat} (ha : 2 ≤ a) (ha' : a ≤ 26) :
      [a].foldl (action str p) s = { s with tm := effect (number str s.mark p) s.tm a } := action_eq ha ha' str p s
  cases part with
  | dayName =>
    have hne : t ≠ [] := Piece.ne_nil_of_mem (p := Part.dayName.piece) (by decide +kernel) ht
    obtain ⟨-, rfl⟩ := (Piece.read_words hne).mp hread
    have hlt : (dayNames ++ longDayNames).idxOf t % 7 < 7 := Nat.mod_lt _ (by decide)
    rw [leave, hone (by omega) (by omega), effect_wday hlt]
    rfl
  | monthName =>
    have hne : t ≠ [] := Piece.ne_nil_of_mem (p := Part.monthName.piece) (by decide +kernel) ht
    obtain ⟨-, rfl⟩ := (Piece.read_words hne).mp hread
    have hlt : monthNames.idxOf t < 12 := List.idxOf_lt_length_of_mem ht
    rw [leave, hone (by omega) (by omega), effect_mon hlt]
    rfl
  | space | comma | colon | dash | gmt => rfl
  | day | hour | minute | second | year4 | year2 =>
    rw [leave, hone (by decide) (by decide), hnumber rfl]
    rfl

theorem foldl_enter (part : Part) (s : Parser) : (enter part).foldl (action str p) s =
    { s with mark := if part.number then some p else s.mark } := by
  unfold enter
  split_ifs
  · rfl
  · rfl

variable {f : Form} {u rest : Bytes} {ts : List Bytes} {c : UInt8} {q q' : Nat × Progress UInt8}

theorem foldl_stay (h : q'.1 = q.1) : (f.acts q q').foldl (action str p) s = s := by
  unfold Form.acts
  rw [if_pos h]
  rfl

/-- A step of the readers to the next part. -/
theorem foldl_move (h : Format.Reaches f.pieces u ts t q) (hstep : Format.step f.pieces q c = some q')
    (hq : q'.1 = q.1 + 1) (hstr : str = u ++ rest)
    (hmark : ∀ part, f.parts[ts.length]? = some part → part.number = true → s.mark = some ts.flatten.length) :
    ∃ part part', f.parts[ts.length]? = some part ∧ f.parts[ts.length + 1]? = some part' ∧
      (f.acts q q').foldl (action str u.length) s =
        { s with tm := part.set t s.tm, mark := if part'.number then some u.length else s.mark } := by
  obtain ⟨piece, hpiece, hdone, hlt⟩ := Format.done_of_step hstep hq
  obtain ⟨piece', hpiece', hread⟩ := h.part
  rw [h.index, hpiece'] at hpiece
  obtain rfl := Option.some.inj hpiece
  rw [Form.pieces, List.getElem?_map] at hpiece'
  obtain ⟨part, hpart, rfl⟩ := Option.map_eq_some_iff.mp hpiece'
  rw [h.index, Form.pieces, List.length_map] at hlt
  have hpart' : f.parts[ts.length + 1]? = some f.parts[ts.length + 1] := List.getElem?_eq_getElem hlt
  have hnumber (hn : part.number = true) : number str s.mark u.length = atoi t := by
    rw [hmark part hpart hn, h.text, List.length_append]
    refine number_eq (w := rest) ?_
    rw [hstr, h.text, List.append_assoc, List.drop_left]
  refine ⟨part, _, hpart, hpart', ?_⟩
  unfold Form.acts
  rw [if_neg (by omega), hq, h.index, hpart, hpart', Option.elim_some, Option.elim_some, List.foldl_append,
    foldl_leave hread (Piece.mem_lang_iff.mpr ⟨_, hread, hdone⟩) hnumber, foldl_enter]

theorem foldl_action_cs (str : Bytes) (p : Nat) (as : List Nat) (s : Parser) : (as.foldl (action str p) s).cs = s.cs := by
  induction as generalizing s with
  | nil => rfl
  | cons a as ih =>
    rw [List.foldl_cons, ih]
    unfold action
    split <;> rfl

end Acts

/-! ### The run -/

/-- The parser behind a part `u` of the text: the formats `A` are the ones that `u` begins, all of them
are where the state says, and the fields are those of the complete parts. -/
structure Tracks (u : Bytes) (A : List Form) (s : Parser) : Prop where
  mem_forms : A ∈ forms s.cs
  run : ∀ f : Form, Format.run f.pieces u = if f ∈ A then some (place s.cs) else none
  fields : ∀ f ∈ A, ∀ ts t, Format.Reaches f.pieces u ts t (place s.cs) → s.tm = fields f.parts ts .zero
  mark : ∀ f ∈ A, ∀ ts t, Format.Reaches f.pieces u ts t (place s.cs) →
    ∀ part, f.parts[ts.length]? = some part → part.number = true → s.mark = some ts.flatten.length

theorem tracks_nil : Tracks [] [.imfFixdate, .rfc850Date, .asctimeDate] ⟨start, none, .zero⟩ := by
  have hcut {F : List (Piece UInt8)} {ts : List Bytes} {t : Bytes} {s : Nat × Progress UInt8}
      (h : Format.Reaches F [] ts t s) : ts = [] :=
    h.begun (List.append_eq_nil_iff.mp h.text.symm).2
  refine ⟨List.mem_singleton.mpr rfl, fun f => ?_, fun f _ ts t h => ?_, fun f _ ts t h part hpart hnumber => ?_⟩
  · cases f <;> rfl
  · rw [hcut h]
    cases f <;> rfl
  · rw [hcut h] at hpart
    obtain rfl : Part.dayName = part := by cases f <;> exact Option.some.inj hpart
    cases hnumber

section Run
variable {str u rest : Bytes} {A : List Form} {s : Parser} {f : Form} {c : UInt8}

theorem Tracks.run_of_mem (h : Tracks u A s) (hf : f ∈ A) : Format.run f.pieces u = some (place s.cs) := by
  rw [h.run, if_pos hf]

theorem Tracks.goOn_run (h : Tracks u A s) (c : UInt8) (f : Form) :
    Format.run f.pieces (u ++ [c]) = if f ∈ goOn s.cs A c then Format.step f.pieces (place s.cs) c else none := by
  rw [Format.run_concat, h.run]
  by_cases hf : f ∈ A
  · rw [if_pos hf, Option.bind_some]
    split_ifs with hgo
    · rfl
    · refine Option.not_isSome_iff_eq_none.mp fun hsome => hgo (List.mem_filter.mpr ⟨hf, hsome⟩)
  · rw [if_neg hf, Option.bind_none, if_neg]
    exact fun hgo => hf (List.mem_of_mem_filter hgo)

/-- A byte that some format goes on with. -/
theorem Tracks.step (h : Tracks u A s) (hstr : str = u ++ c :: rest)
    (hforms : goOn s.cs A c ∈ forms (next s.cs c).1)
    (hgo : ∀ f ∈ goOn s.cs A c, Format.step f.pieces (place s.cs) c = some (place (next s.cs c).1) ∧
      (next s.cs c).2 = f.acts (place s.cs) (place (next s.cs c).1)) :
    Tracks (u ++ [c]) (goOn s.cs A c)
      ((next s.cs c).2.foldl (action str u.length) { s with cs := (next s.cs c).1 }) := by
  have hcs := foldl_action_cs str u.length (next s.cs c).2 { s with cs := (next s.cs c).1 }
  have hboth : ∀ f ∈ goOn s.cs A c, ∀ ts t, Format.Reaches f.pieces (u ++ [c]) ts t (place (next s.cs c).1) →
      ((next s.cs c).2.foldl (action str u.length) { s with cs := (next s.cs c).1 }).tm =
          Grammar.fields f.parts ts .zero ∧
        ∀ part, f.parts[ts.length]? = some part → part.number = true →
          ((next s.cs c).2.foldl (action str u.length) { s with cs := (next s.cs c).1 }).mark =
            some ts.flatten.length := by
    intro f hf ts t hreaches
    have hmem : f ∈ A := List.mem_of_mem_filter hf
    obtain ⟨ts', t', q, hbefore, hstep, hcase⟩ := hreaches.unstep (separated f)
    obtain rfl : q = place s.cs :=
      Option.some.inj ((Format.run_of_reaches (separated f) hbefore).symm.trans (h.run_of_mem hmem))
    rw [(hgo f hf).2]
    rcases hcase with ⟨hq, rfl, rfl⟩ | ⟨hq, rfl, rfl⟩
    · rw [foldl_stay hq]
      exact ⟨h.fields f hmem _ _ hbefore, h.mark f hmem _ _ hbefore⟩
    · obtain ⟨part, part', hpart, hpart', heq⟩ :=
        foldl_move (s := { s with cs := (next s.cs c).1 }) hbefore hstep hq hstr (h.mark f hmem _ _ hbefore)
      rw [heq, fields_concat hpart, ← h.fields f hmem _ _ hbefore]
      refine ⟨rfl, fun part₁ hpart₁ hnumber => ?_⟩
      rw [List.length_append, List.length_singleton, hpart'] at hpart₁
      obtain rfl := Option.some.inj hpart₁
      dsimp only
      rw [if_pos hnumber, hbefore.text, List.flatten_append, List.flatten_singleton]
  refine ⟨?_, fun f => ?_, fun f hf ts t hreaches => ?_, fun f hf ts t hreaches => ?_⟩
  · rw [hcs]
    exact hforms
  · rw [h.goOn_run, hcs]
    split_ifs with hf
    · exact (hgo f hf).1
    · rfl
  · rw [hcs] at hreaches
    exact (hboth f hf ts t hreaches).1
  · rw [hcs] at hreaches
    exact (hboth f hf ts t hreaches).2

/-- The run stops at the first byte that no format goes on with, or at the end of the text. -/
theorem Tracks.exec (h : Tracks u A s) (hstr : str = u ++ rest) :
    (∃ v c w B s', str = v ++ c :: w ∧ Tracks v B s' ∧ (∀ f : Form, Format.run f.pieces (v ++ [c]) = none) ∧
      exec str rest u.length s = { s' with cs := error }) ∨
    ∃ B s', Tracks str B s' ∧
      exec str rest u.length s = eofActionLoop str str.length s' (acts (Table.eofActions.getD s'.cs 0)) := by
  induction rest generalizing u A s with
  | nil =>
    rw [List.append_nil] at hstr
    subst hstr
    exact .inr ⟨A, s, h, rfl⟩
  | cons c rest ih =>
    rcases next_spec h.mem_forms c with ⟨hempty, hnext⟩ | ⟨hforms, hgo⟩
    · refine .inl ⟨u, c, rest, A, s, hstr, h, fun f => ?_, ?_⟩
      · rw [h.goOn_run, if_neg]
        rw [hempty]
        exact List.not_mem_nil
      · simp only [HttpDate.exec, hnext, List.foldl_nil, if_true]
    · have htracks := h.step hstr hforms hgo
      have hlive := (lt_of_mem_forms htracks.mem_forms).2
      have hstr' : str = (u ++ [c]) ++ rest := by rw [hstr, List.append_assoc, List.singleton_append]
      have hexec := ih htracks hstr'
      rw [List.length_append, List.length_singleton] at hexec
      simp only [HttpDate.exec]
      rwa [if_neg hlive]

theorem exec_cases (w : Bytes) :
    (∃ v c rest B s, w = v ++ c :: rest ∧ Tracks v B s ∧ (∀ f : Form, Format.run f.pieces (v ++ [c]) = none) ∧
      HttpDate.exec w w 0 ⟨start, none, .zero⟩ = { s with cs := error }) ∨
    ∃ B s, Tracks w B s ∧ HttpDate.exec w w 0 ⟨start, none, .zero⟩ =
      eofActionLoop w w.length s (acts (Table.eofActions.getD s.cs 0)) :=
  tracks_nil.exec (show w = [] ++ w from rfl)

/-- The complete dates. -/
theorem Tracks.mem_dates_iff (h : Tracks u A s) (f : Form) :
    u ∈ f.dates ↔ f ∈ A ∧ s.cs = if f = .asctimeDate then 183 else 184 := by
  have hlt := (lt_of_mem_forms h.mem_forms).1
  rw [Form.dates, Format.mem_lang_iff_finished (separated f) f.pieces_ne_nil]
  constructor
  · rintro ⟨q, hrun, hfin⟩
    rw [h.run] at hrun
    split_ifs at hrun with hf
    obtain rfl := Option.some.inj hrun
    rw [finished_table s.cs hlt A h.mem_forms f hf, beq_iff_eq] at hfin
    exact ⟨hf, hfin⟩
  · rintro ⟨hf, hcs⟩
    refine ⟨place s.cs, h.run_of_mem hf, ?_⟩
    rw [finished_table s.cs hlt A h.mem_forms f hf, hcs, beq_self_eq_true]

/-- The last state of the form of `asctime` is the end of no other date. -/
theorem Tracks.eq_firstFinal_iff (h : Tracks u A s) : s.cs = firstFinal ↔ u ∈ Form.asctimeDate.dates := by
  rw [h.mem_dates_iff, if_pos rfl]
  refine ⟨fun hcs => ⟨?_, hcs⟩, fun hdate => hdate.2⟩
  have hforms := h.mem_forms
  rw [hcs] at hforms
  obtain rfl : A = [.asctimeDate] := List.mem_singleton.mp hforms
  exact List.mem_singleton_self _

theorem notMem_dates (hstr : str = u ++ c :: rest) (hnone : Format.run f.pieces (u ++ [c]) = none) :
    str ∉ f.dates := by
  intro hdate
  obtain ⟨q, hrun, -⟩ := (Format.mem_lang_iff_finished (separated f) f.pieces_ne_nil).mp hdate
  have hprefix : u ++ [c] <+: str := ⟨rest, by rw [hstr, List.append_assoc, List.singleton_append]⟩
  have hsome := Format.isSome_run_of_prefix hprefix (Option.isSome_iff_exists.mpr ⟨q, hrun⟩)
  rw [hnone] at hsome
  cases hsome

theorem eofActionLoop_cs (p : Nat) (s : Parser) (as : List Nat) : (eofActionLoop str p s as).cs = s.cs := by
  fun_induction eofActionLoop str p s as with
  | case1 => rfl
  | case2 => rfl
  | case3 _ _ ih => exact ih
  | case4 _ _ _ _ _ ih => exact ih

end Run

/-- Among the dates, `parse` reports those in the form of `asctime`. -/
theorem parse_eq_true_iff (timegm : Tm → Int) (str : Bytes) :
    (parse timegm str).1 = true ↔ cString str ∈ Form.asctimeDate.dates := by
  have hreport : (parse timegm str).1 = true ↔
      (exec (cString str) (cString str) 0 ⟨start, none, .zero⟩).cs = firstFinal := by
    simp only [parse, Bool.and_eq_true, decide_eq_true_eq, and_iff_right_iff_imp]
    intro hcs
    rw [hcs]
    decide
  rw [hreport]
  rcases exec_cases (cString str) with ⟨v, c, w, B, s, hstr, -, hnone, hexec⟩ | ⟨B, s, htracks, hexec⟩
  · rw [hexec]
    exact iff_of_false (show error ≠ firstFinal by decide) (notMem_dates hstr (hnone _))
  · rw [hexec, eofActionLoop_cs]
    exact htracks.eq_firstFinal_iff

/-- No date in the form of `asctime` is in one of the other forms. -/
theorem disjoint_dates {w : Bytes} {f : Form} (h : w ∈ Form.asctimeDate.dates) (hf : f ≠ .asctimeDate) :
    w ∉ f.dates := by
  intro hother
  rcases exec_cases w with ⟨v, c, rest, B, s, hstr, -, hnone, -⟩ | ⟨B, s, htracks, -⟩
  · exact notMem_dates hstr (hnone _) h
  · obtain ⟨-, hcs⟩ := (htracks.mem_dates_iff _).mp h
    obtain ⟨-, hcs'⟩ := (htracks.mem_dates_iff f).mp hother
    rw [if_pos rfl] at hcs
    rw [if_neg hf, hcs] at hcs'
    cases hcs'

/-- `parse` tells whether a text is a date unless the date ends in the zone. -/
theorem parse_reports_iff (timegm : Tm → Int) (str : Bytes) :
    ((parse timegm str).1 = true ↔ cString str ∈ httpDate) ↔
      cString str ∉ Form.imfFixdate.dates ∧ cString str ∉ Form.rfc850Date.dates := by
  rw [parse_eq_true_iff, mem_httpDate]
  constructor
  · intro h
    exact ⟨fun himf => disjoint_dates (h.mpr ⟨_, himf⟩) (by decide) himf,
      fun hrfc => disjoint_dates (h.mpr ⟨_, hrfc⟩) (by decide) hrfc⟩
  · rintro ⟨himf, hrfc⟩
    refine ⟨fun h => ⟨_, h⟩, ?_⟩
    rintro ⟨f, hf⟩
    cases f with
    | imfFixdate => exact absurd hf himf
    | rfc850Date => exact absurd hf hrfc
    | asctimeDate => exact hf

/-- "Sun, 06 Nov 1994 08:49:37 GMT" -/
def november : Bytes := [83, 117, 110, 44, 32, 48, 54, 32, 78, 111, 118, 32, 49, 57, 57, 52, 32, 48, 56, 58, 52, 57,
  58, 51, 55, 32, 71, 77, 84]

theorem parse_not_reports : cString november ∈ httpDate ∧ (parse gregorianTimegm november).1 = false := by
  refine ⟨mem_httpDate.mpr ⟨.imfFixdate, ?_⟩, by decide +kernel⟩
  exact (Format.mem_lang_iff_finished (separated _) (Form.pieces_ne_nil _)).mpr
    ⟨place 184, by decide +kernel, by decide +kernel⟩

/-! ### The time -/

/-- The fields of a date. -/
def Dated (w : Bytes) (tm : Tm) : Prop :=
  ∃ (f : Form) (ts : List Bytes), w = ts.flatten ∧ List.Forall₂ (fun t p => t ∈ Piece.lang p) ts f.pieces ∧
    tm = fields f.parts ts .zero

/-- The fields of the complete parts, where a text leaves the formats: behind the longest part of it that
begins a date. -/
def Behind (w : Bytes) (tm : Tm) : Prop :=
  ∃ (f : Form) (v : Bytes) (ts : List Bytes) (t : Bytes), v <+: w ∧ Format.Begun f.pieces v ts t ∧
    tm = fields f.parts ts .zero ∧
      ∀ (g : Form) v' ts' t', v' <+: w → Format.Begun g.pieces v' ts' t' → v'.length ≤ v.length

theorem exists_dated_iff {w : Bytes} : (∃ tm, Dated w tm) ↔ w ∈ httpDate := by
  rw [mem_httpDate]
  constructor
  · rintro ⟨-, f, ts, hw, hts, -⟩
    exact ⟨f, Format.mem_lang_iff.mpr ⟨ts, hw, hts⟩⟩
  · rintro ⟨f, hf⟩
    obtain ⟨ts, hw, hts⟩ := Format.mem_lang_iff.mp hf
    exact ⟨_, f, ts, hw, hts, rfl⟩

section Time
variable {v w : Bytes} {A : List Form} {s : Parser} {f : Form} {tm : Tm}

theorem forms_ne_nil : ∀ cs < 185, ∀ A ∈ forms cs, A ≠ [] := by
  decide +kernel

theorem begun_run_iff : (∃ ts t, Format.Begun f.pieces v ts t) ↔ (Format.run f.pieces v).isSome := by
  simp only [Format.begun_iff (separated f)]
  constructor
  · rintro ⟨ts, t, q, h⟩
    rw [Format.run_of_reaches (separated f) h]
    rfl
  · intro h
    obtain ⟨q, hq⟩ := Option.isSome_iff_exists.mp h
    obtain ⟨ts, t, hreaches⟩ := Format.exists_reaches hq
    exact ⟨ts, t, q, hreaches⟩

/-- The parser has the fields of the longest part that begins a date. -/
theorem Tracks.behind_iff (h : Tracks v A s) (hv : v <+: w)
    (hmax : ∀ (g : Form) v', v' <+: w → (Format.run g.pieces v').isSome → v'.length ≤ v.length) :
    Behind w tm ↔ tm = s.tm := by
  have hlt := (lt_of_mem_forms h.mem_forms).1
  obtain ⟨f₀, hf₀⟩ := List.exists_mem_of_ne_nil _ (forms_ne_nil s.cs hlt A h.mem_forms)
  have hsome (f : Form) : (Format.run f.pieces v).isSome → f ∈ A := by
    intro hrun
    rw [h.run] at hrun
    by_contra hf
    rw [if_neg hf] at hrun
    cases hrun
  constructor
  · rintro ⟨f, v', ts, t, hv', hbegun, rfl, hlongest⟩
    obtain ⟨ts₀, t₀, hbegun₀⟩ := begun_run_iff.mpr (Option.isSome_iff_exists.mpr ⟨_, h.run_of_mem hf₀⟩)
    have hle := hmax f v' hv' (begun_run_iff.mp ⟨ts, t, hbegun⟩)
    have hge := hlongest f₀ v ts₀ t₀ hv hbegun₀
    obtain rfl : v' = v := (List.prefix_of_prefix_length_le hv' hv hle).eq_of_length (Nat.le_antisymm hle hge)
    have hf := hsome f (begun_run_iff.mp ⟨ts, t, hbegun⟩)
    obtain ⟨q, hreaches⟩ := (Format.begun_iff (separated f)).mp hbegun
    obtain rfl : q = place s.cs :=
      Option.some.inj ((Format.run_of_reaches (separated f) hreaches).symm.trans (h.run_of_mem hf))
    exact (h.fields f hf ts t hreaches).symm
  · rintro rfl
    obtain ⟨ts, t, hreaches⟩ := Format.exists_reaches (h.run_of_mem hf₀)
    have hbegun := (Format.begun_iff (separated f₀)).mpr ⟨_, hreaches⟩
    refine ⟨f₀, v, ts, t, hv, hbegun, h.fields f₀ hf₀ ts t hreaches, ?_⟩
    exact fun g v' ts' t' hv' hbegun => hmax g v' hv' (begun_run_iff.mp ⟨ts', t', hbegun⟩)

/-- At the end of a date the fields are complete; the year of a date in the form of `asctime` is read there. -/
theorem Tracks.eof_of_dated (h : Tracks w A s) (hw : Dated w tm) :
    (eofActionLoop w w.length s (acts (Table.eofActions.getD s.cs 0))).tm = tm := by
  obtain ⟨f, ts, rfl, hts, rfl⟩ := hw
  obtain ⟨hf, hcs⟩ := (h.mem_dates_iff f).mp (Format.mem_lang_iff.mpr ⟨ts, rfl, hts⟩)
  obtain ⟨us, t, q, rfl, hreaches, -⟩ := Format.reaches_of_complete (separated f) f.pieces_ne_nil hts
  obtain rfl : q = place s.cs :=
    Option.some.inj ((Format.run_of_reaches (separated f) hreaches).symm.trans (h.run_of_mem hf))
  have hfields := h.fields f hf us t hreaches
  have hlen := hts.length_eq
  rw [List.length_append, List.length_singleton] at hlen
  cases f with
  | imfFixdate =>
    obtain hlen : us.length = 15 := Nat.succ.inj hlen
    have hpart : Form.imfFixdate.parts[us.length]? = some .gmt := by
      rw [hlen]
      rfl
    rw [fields_concat hpart, ← hfields, hcs]
    rfl
  | rfc850Date =>
    obtain hlen : us.length = 15 := Nat.succ.inj hlen
    have hpart : Form.rfc850Date.parts[us.length]? = some .gmt := by
      rw [hlen]
      rfl
    rw [fields_concat hpart, ← hfields, hcs]
    rfl
  | asctimeDate =>
    obtain hlen : us.length = 12 := Nat.succ.inj hlen
    have hpart : Form.asctimeDate.parts[us.length]? = some .year4 := by
      rw [hlen]
      rfl
    have hmark := h.mark _ hf us t hreaches .year4 hpart rfl
    have hnumber : number (us ++ [t]).flatten s.mark (us ++ [t]).flatten.length = atoi t := by
      rw [hmark, hreaches.text, List.length_append]
      exact number_eq (w := []) (by rw [List.drop_left, List.append_nil])
    rw [fields_concat hpart, ← hfields, hcs, Part.set, ← hnumber]
    rfl

theorem eof_table : ∀ cs < 185, Table.eofActions.getD cs 0 ≠ 0 →
    ∀ A ∈ forms cs, ∃ f ∈ A, cs = if f = .asctimeDate then 183 else 184 := by
  decide +kernel

theorem Tracks.eof_of_notMem (h : Tracks w A s) (hw : w ∉ httpDate) (p : Nat) :
    eofActionLoop w p s (acts (Table.eofActions.getD s.cs 0)) = s := by
  have hnone : Table.eofActions.getD s.cs 0 = 0 := by
    by_contra heof
    obtain ⟨f, hf, hcs⟩ := eof_table s.cs (lt_of_mem_forms h.mem_forms).1 heof A h.mem_forms
    exact hw (mem_httpDate.mpr ⟨f, (h.mem_dates_iff f).mpr ⟨hf, hcs⟩⟩)
  rw [hnone]
  rfl

/-- The time of a date is that of its fields. -/
theorem parse_of_dated {timegm : Tm → Int} {str : Bytes} (h : Dated (cString str) tm) :
    (parse timegm str).2 = timegm tm := by
  rcases exec_cases (cString str) with ⟨v, c, rest, B, s, hstr, -, hnone, -⟩ | ⟨B, s, htracks, hexec⟩
  · obtain ⟨f, hf⟩ := mem_httpDate.mp (exists_dated_iff.mp ⟨tm, h⟩)
    exact absurd hf (notMem_dates hstr (hnone f))
  · have hfields := htracks.eof_of_dated h
    rw [← hexec] at hfields
    exact congrArg timegm hfields

/-- The time of any other text is that of the fields read before it leaves the formats. -/
theorem parse_of_notMem (timegm : Tm → Int) {str : Bytes} (h : cString str ∉ httpDate) :
    ∃ tm, (∀ tm', Behind (cString str) tm' ↔ tm' = tm) ∧ (parse timegm str).2 = timegm tm := by
  rcases exec_cases (cString str) with ⟨v, c, rest, B, s, hstr, htracks, hnone, hexec⟩ | ⟨B, s, htracks, hexec⟩
  · refine ⟨s.tm, fun tm' => htracks.behind_iff ⟨c :: rest, hstr.symm⟩ fun g v' hv' hrun => ?_, ?_⟩
    · -- the next byte is in none of the formats
      by_contra hlt
      have hprefix : v ++ [c] <+: v' :=
        List.prefix_of_prefix_length_le ⟨rest, by rw [hstr, List.append_assoc, List.singleton_append]⟩ hv'
          (by rw [List.length_append, List.length_singleton]; omega)
      have hsome := Format.isSome_run_of_prefix hprefix hrun
      rw [hnone g] at hsome
      cases hsome
    · rw [parse, hexec]
  · refine ⟨s.tm, fun tm' => htracks.behind_iff List.prefix_rfl fun g v' hv' _ => hv'.length_le, ?_⟩
    rw [htracks.eof_of_notMem h] at hexec
    rw [parse, hexec]

end Time

end Latypus.Http.HttpDate.Grammar
