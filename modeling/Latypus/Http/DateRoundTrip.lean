import Mathlib.Tactic.IntervalCases
import Latypus.Http.Date
import Latypus.Http.PackedTables

/-! Dates in the three forms that the parser knows. A name is reported by the action on the byte
behind it, a number by the action on the byte behind its digits, or at the end of the input; what
is between leaves the fields as they are. -/

namespace Latypus.Http.HttpDate

/-- "Sunday", "Monday", "Tuesday", "Wednesday", "Thursday", "Friday", "Saturday" -/
def longDayNames : List Bytes := [
  [83, 117, 110, 100, 97, 121], [77, 111, 110, 100, 97, 121], [84, 117, 101, 115, 100, 97, 121],
  [87, 101, 100, 110, 101, 115, 100, 97, 121], [84, 104, 117, 114, 115, 100, 97, 121],
  [70, 114, 105, 100, 97, 121], [83, 97, 116, 117, 114, 100, 97, 121]]

def twoDigits (n : Int) : Bytes := [digit (n.tdiv 10), digit (n.tmod 10)]

def fourDigits (n : Int) : Bytes :=
  [digit (n.tdiv 1000), digit ((n.tdiv 100).tmod 10), digit ((n.tdiv 10).tmod 10), digit (n.tmod 10)]

def dayName (tm : Tm) : Bytes := dayNames.getD tm.wday.toNat []

def longDayName (tm : Tm) : Bytes := longDayNames.getD tm.wday.toNat []

def monthName (tm : Tm) : Bytes := monthNames.getD tm.mon.toNat []

/-- The time of day, as in "08:49:37". -/
def timeOfDay (tm : Tm) : Bytes := twoDigits tm.hour ++ [58] ++ twoDigits tm.min ++ [58] ++ twoDigits tm.sec

/-- "Sun, 06 Nov 1994 08:49:37 GMT" -/
def imfFixdate (tm : Tm) : Bytes :=
  dayName tm ++ [44] ++ [32] ++ twoDigits tm.mday ++ [32] ++ monthName tm ++ [32] ++
    fourDigits (tm.year + 1900) ++ [32] ++ timeOfDay tm ++ [32, 71, 77, 84]

/-- "Sunday, 06-Nov-94 08:49:37 GMT" -/
def rfc850Date (tm : Tm) : Bytes :=
  longDayName tm ++ [44] ++ [32] ++ twoDigits tm.mday ++ [45] ++ monthName tm ++ [45] ++
    twoDigits (tm.year % 100) ++ [32] ++ timeOfDay tm ++ [32, 71, 77, 84]

/-- "Sun Nov  6 08:49:37 1994", with a day of one digit padded by `pad`. -/
def asctimeDate (pad : UInt8) (tm : Tm) : Bytes :=
  dayName tm ++ [32] ++ monthName tm ++ [32] ++
    (if tm.mday < 10 then [pad, digit tm.mday] else twoDigits tm.mday) ++ [32] ++ timeOfDay tm ++ [32] ++
    fourDigits (tm.year + 1900)

open HttpParser (Tables) in
/-- The tables of http_date.cc. -/
def tables : Tables :=
  ⟨Table.keyOffsets, Table.transKeys, Table.singleLengths, Table.rangeLengths, Table.indexOffsets, Table.indicies⟩

open Lib (entry pack) in
/-- Where a transition leads and its actions, with the tables packed. -/
def leads (t : Nat) : Nat × List Nat :=
  let a := entry (pack Table.transActions) t
  (entry (pack Table.transTargs) t, if a = 0 then [] else acts a)

/-- `next`, with the tables packed. -/
def nextEntry (cs : Nat) (c : UInt8) : Nat × List Nat := leads (tables.lookup cs c)

theorem next_eq_nextEntry : next = nextEntry := by
  funext cs c
  rw [nextEntry, leads, HttpParser.Tables.lookup_eq (by decide +kernel), Lib.entry_pack (by decide +kernel),
    Lib.entry_pack (by decide +kernel)]
  rfl

theorem digit_table : ∀ d < 10, isDigit (digit (d : Nat)) ∧ (digit (d : Nat)).toNat = 48 + d := by
  decide

theorem digit_spec {n : Int} (h : 0 ≤ n) (h' : n < 10) : isDigit (digit n) ∧ ((digit n).toNat - 48 : Nat) = n := by
  obtain ⟨d, rfl⟩ := Int.eq_ofNat_of_zero_le h
  obtain ⟨hdigit, hvalue⟩ := digit_table d (by omega)
  exact ⟨hdigit, by omega⟩

theorem atoi_digits {ds : Bytes} (hne : ds ≠ []) (hds : ∀ c ∈ ds, isDigit c) :
    atoi ds = (ds.foldl (fun n c => 10 * n + (c.toNat - 48)) 0 : Nat) := by
  obtain ⟨c, rest, rfl⟩ := List.exists_cons_of_ne_nil hne
  rw [atoi_of_isDigit (hds c List.mem_cons_self), digitsValue, List.takeWhile_eq_self_iff.mpr hds]

/-- A string of digits that stands for a number. -/
structure Digits (ds : Bytes) (n : Int) : Prop where
  isDigit : ∀ c ∈ ds, isDigit c
  atoi_eq : atoi ds = n

theorem Digits.zero_notMem {ds : Bytes} {n : Int} (h : Digits ds n) : 0 ∉ ds :=
  fun hmem => absurd (h.isDigit 0 hmem) (by decide)

theorem digits_one {n : Int} (h : 0 ≤ n) (h' : n < 10) : Digits [digit n] n := by
  obtain ⟨hdigit, hvalue⟩ := digit_spec h h'
  have hds : ∀ c ∈ [digit n], isDigit c := by simpa using hdigit
  refine ⟨hds, ?_⟩
  rw [atoi_digits (List.cons_ne_nil _ _) hds]
  simp only [List.foldl_cons, List.foldl_nil]
  omega

theorem digits_two {n : Int} (h : 0 ≤ n) (h' : n < 100) : Digits (twoDigits n) n := by
  have heq : twoDigits n = [digit (n / 10), digit (n % 10)] := by
    rw [twoDigits, Int.tdiv_eq_ediv_of_nonneg h, Int.tmod_eq_emod_of_nonneg h]
  obtain ⟨ha, hx⟩ := digit_spec (n := n / 10) (by omega) (by omega)
  obtain ⟨hb, hy⟩ := digit_spec (n := n % 10) (by omega) (by omega)
  have hds : ∀ c ∈ twoDigits n, isDigit c := by simp [heq, ha, hb]
  refine ⟨hds, ?_⟩
  rw [atoi_digits (heq ▸ List.cons_ne_nil _ _) hds, heq]
  simp only [List.foldl_cons, List.foldl_nil]
  omega

theorem digits_four {n : Int} (h : 0 ≤ n) (h' : n < 10000) : Digits (fourDigits n) n := by
  have heq : fourDigits n =
      [digit (n / 1000), digit (n / 100 % 10), digit (n / 10 % 10), digit (n % 10)] := by
    rw [fourDigits, Int.tdiv_eq_ediv_of_nonneg h, Int.tdiv_eq_ediv_of_nonneg h, Int.tdiv_eq_ediv_of_nonneg h,
      Int.tmod_eq_emod_of_nonneg h, Int.tmod_eq_emod_of_nonneg (by omega), Int.tmod_eq_emod_of_nonneg (by omega)]
  obtain ⟨ha, hw⟩ := digit_spec (n := n / 1000) (by omega) (by omega)
  obtain ⟨hb, hx⟩ := digit_spec (n := n / 100 % 10) (by omega) (by omega)
  obtain ⟨hc, hy⟩ := digit_spec (n := n / 10 % 10) (by omega) (by omega)
  obtain ⟨hd, hz⟩ := digit_spec (n := n % 10) (by omega) (by omega)
  have hds : ∀ c ∈ fourDigits n, isDigit c := by simp [heq, ha, hb, hc, hd]
  refine ⟨hds, ?_⟩
  rw [atoi_digits (heq ▸ List.cons_ne_nil _ _) hds, heq]
  simp only [List.foldl_cons, List.foldl_nil]
  omega

/-- What an action other than `mark` and `done` does to the fields, `v` being the number that ends at
the cursor. -/
def effect (v : Int) (tm : Tm) (a : Nat) : Tm :=
  if a < 9 then { tm with wday := a - 2 }
  else if a < 21 then { tm with mon := a - 9 }
  else
    match a with
    | 21 => { tm with mday := v }
    | 22 => { tm with hour := v }
    | 23 => { tm with min := v }
    | 24 => { tm with sec := v }
    | 25 => { tm with year := v - 1900 }
    | _ => { tm with year := if v < 38 then v + 100 else v }

theorem effect_mday (v : Int) (tm : Tm) : effect v tm 21 = { tm with mday := v } := rfl

theorem effect_year4 (v : Int) (tm : Tm) : effect v tm 25 = { tm with year := v - 1900 } := rfl

theorem effect_year2 (v : Int) (tm : Tm) :
    effect v tm 26 = { tm with year := if v < 38 then v + 100 else v } := rfl

theorem action_eq {a : Nat} (ha : 2 ≤ a) (ha' : a ≤ 26) (str : Bytes) (p : Nat) (s : Parser) :
    action str p s a = { s with tm := effect (number str s.mark p) s.tm a } := by
  interval_cases a <;> rfl

/-- The state after bytes that have no actions, and none if one of them has or is refused. -/
def walk (cs : Nat) : Bytes → Option Nat
  | [] => some cs
  | c :: w =>
    match next cs c with
    | (cs' + 1, []) => walk (cs' + 1) w
    | _ => none

/-- `walk` over any transitions. -/
def walkBy (next : Nat → UInt8 → Nat × List Nat) (cs : Nat) : Bytes → Option Nat
  | [] => some cs
  | c :: w =>
    match next cs c with
    | (cs' + 1, []) => walkBy next (cs' + 1) w
    | _ => none

theorem walk_eq_walkBy (cs : Nat) (w : Bytes) : walk cs w = walkBy next cs w := by
  induction w generalizing cs with
  | nil => rfl
  | cons c w ih =>
    rw [walk, walkBy]
    split
    · exact ih _
    · rfl

/-- Reading `w` at position `p` of `str` leads from one state and fields to others, whatever the
mark. -/
def Reads (str w : Bytes) (p cs : Nat) (tm : Tm) (cs' : Nat) (tm' : Tm) : Prop :=
  ∀ m rest, str.drop p = w ++ rest →
    ∃ m', exec str (w ++ rest) p ⟨cs, m, tm⟩ = exec str rest (p + w.length) ⟨cs', m', tm'⟩

section Reads
variable {str u v w ds : Bytes} {p cs cs₁ cs₂ cs' a : Nat} {tm tm₁ tm₂ : Tm} {c : UInt8}

theorem Reads.append (h : Reads str u p cs tm cs₁ tm₁) (h' : Reads str v (p + u.length) cs₁ tm₁ cs₂ tm₂) :
    Reads str (u ++ v) p cs tm cs₂ tm₂ := by
  intro m rest hdrop
  rw [List.append_assoc] at hdrop
  obtain ⟨m₁, hexec⟩ := h m (v ++ rest) hdrop
  have hdrop' : str.drop (p + u.length) = v ++ rest := by
    rw [← List.drop_drop, hdrop, List.drop_left]
  obtain ⟨m₂, hexec'⟩ := h' m₁ rest hdrop'
  refine ⟨m₂, ?_⟩
  rw [List.append_assoc, hexec, hexec', List.length_append, Nat.add_assoc]

theorem exec_cons (hnext : next cs c = (cs', [])) (h0 : cs' ≠ error) (m : Option Nat) (rest : Bytes) :
    exec str (c :: rest) p ⟨cs, m, tm⟩ = exec str rest (p + 1) ⟨cs', m, tm⟩ := by
  simp only [exec, hnext, List.foldl_nil]
  rw [if_neg h0]

theorem exec_mark (hnext : next cs c = (cs', [0])) (h0 : cs' ≠ error) (m : Option Nat) (rest : Bytes) :
    exec str (c :: rest) p ⟨cs, m, tm⟩ = exec str rest (p + 1) ⟨cs', some p, tm⟩ := by
  simp only [exec, hnext, List.foldl_cons, List.foldl_nil, action]
  rw [if_neg h0]

theorem exec_leave (hnext : next cs c = (cs', [a])) (h0 : cs' ≠ error) (ha : 2 ≤ a) (ha' : a ≤ 26)
    (m : Option Nat) (rest : Bytes) : exec str (c :: rest) p ⟨cs, m, tm⟩ =
      exec str rest (p + 1) ⟨cs', m, effect (number str m p) tm a⟩ := by
  simp only [exec, hnext, List.foldl_cons, List.foldl_nil, action_eq ha ha']
  rw [if_neg h0]

theorem exec_walk (h : walk cs w = some cs') (m : Option Nat) (rest : Bytes) :
    exec str (w ++ rest) p ⟨cs, m, tm⟩ = exec str rest (p + w.length) ⟨cs', m, tm⟩ := by
  induction w generalizing cs p with
  | nil =>
    obtain rfl : cs = cs' := Option.some.inj h
    rfl
  | cons c w ih =>
    simp only [walk] at h
    split at h
    · next cs₁ hnext =>
      rw [List.cons_append, exec_cons hnext (Nat.succ_ne_zero cs₁), ih h, List.length_cons, Nat.add_assoc, Nat.add_comm 1]
    · cases h

theorem Reads.walk (h : walk cs w = some cs') : Reads str w p cs tm cs' tm :=
  fun m rest _ => ⟨m, exec_walk h m rest⟩

theorem exists_of_any {α : Type} {o : Option α} {f : α → Bool} (h : o.any f) : ∃ x, o = some x ∧ f x := by
  cases o with
  | none => cases h
  | some x => exact ⟨x, rfl, h⟩

/-- A name and the byte `c` behind it lead from `cs` to `cs'` with the action `a`. -/
def nameLeads (cs : Nat) (w : Bytes) (c : UInt8) (cs' a : Nat) : Bool :=
  (walk cs w).any fun cs₁ => next cs₁ c = (cs', [a])

theorem Reads.name (h : nameLeads cs w c cs' a) (h0 : cs' ≠ error) (ha : 2 ≤ a) (ha' : a ≤ 20) :
    Reads str (w ++ [c]) p cs tm cs' (effect 0 tm a) := by
  obtain ⟨cs₁, hwalk, hnext⟩ := exists_of_any h
  intro m rest _
  refine ⟨m, ?_⟩
  rw [List.append_assoc, exec_walk hwalk, List.singleton_append,
    exec_leave (of_decide_eq_true hnext) h0 ha (by omega), List.length_append, List.length_singleton,
    Nat.add_assoc]
  congr 2
  interval_cases a <;> rfl

/-- The states in which a number may begin or go on. -/
def digitStates : List Nat :=
  [9, 10, 11, 12, 14, 15, 17, 18, 20, 21, 22, 23, 53, 54, 59, 60, 61, 62, 64, 65, 67, 68, 70, 71, 107, 108]

theorem next_digit_table :
    ∀ cs ∈ digitStates, ∀ d < 10, next cs (UInt8.ofNat (48 + d)) = next cs 48 := by
  rw [next_eq_nextEntry]
  decide +kernel

/-- The digits take the same transitions. -/
theorem next_digit (hcs : cs ∈ digitStates) (hc : isDigit c) : next cs c = next cs 48 := by
  obtain ⟨hlow, hhigh⟩ : 48 ≤ c.toNat ∧ c.toNat ≤ 57 := by
    simpa [isDigit, UInt8.le_iff_toNat_le] using hc
  have htable := next_digit_table cs hcs (c.toNat - 48) (by omega)
  rwa [Nat.add_sub_cancel' hlow, UInt8.ofNat_toNat] at htable

/-- The state after the digits of a number and whether the first of them sets the mark. -/
def digitsLead (cs : Nat) : Nat → Option Nat
  | 0 => none
  | k + 1 =>
    match next cs 48 with
    | (cs₁, [0]) => if cs ∈ digitStates ∧ cs₁ ≠ error then more cs₁ k else none
    | _ => none
where
  more (cs : Nat) : Nat → Option Nat
    | 0 => some cs
    | k + 1 =>
      match next cs 48 with
      | (cs₁, []) => if cs ∈ digitStates ∧ cs₁ ≠ error then more cs₁ k else none
      | _ => none

theorem exec_more (hds : ∀ c ∈ ds, isDigit c) (h : digitsLead.more cs ds.length = some cs')
    (m : Option Nat) (rest : Bytes) :
    exec str (ds ++ rest) p ⟨cs, m, tm⟩ = exec str rest (p + ds.length) ⟨cs', m, tm⟩ := by
  induction ds generalizing cs p with
  | nil =>
    obtain rfl : cs = cs' := Option.some.inj h
    rfl
  | cons c ds ih =>
    simp only [List.length_cons, digitsLead.more] at h
    split at h
    · next cs₁ hnext =>
      split_ifs at h with hok
      have hc := next_digit hok.1 (hds c List.mem_cons_self)
      rw [List.cons_append, exec_cons (hc.trans hnext) hok.2, ih (fun d hd => hds d (List.mem_cons_of_mem c hd)) h,
        List.length_cons, Nat.add_assoc, Nat.add_comm 1]
    · cases h

/-- The digits of a number: the mark is where they begin. -/
theorem exec_digits (hds : ∀ c ∈ ds, isDigit c) (h : digitsLead cs ds.length = some cs')
    (m : Option Nat) (rest : Bytes) :
    exec str (ds ++ rest) p ⟨cs, m, tm⟩ = exec str rest (p + ds.length) ⟨cs', some p, tm⟩ := by
  cases ds with
  | nil => cases h
  | cons c ds =>
    simp only [List.length_cons, digitsLead] at h
    split at h
    · next cs₁ hnext =>
      split_ifs at h with hok
      have hc := next_digit hok.1 (hds c List.mem_cons_self)
      rw [List.cons_append, exec_mark (hc.trans hnext) hok.2,
        exec_more (fun d hd => hds d (List.mem_cons_of_mem c hd)) h, List.length_cons, Nat.add_assoc, Nat.add_comm 1]
    · cases h

theorem number_eq (hdrop : str.drop p = ds ++ w) : number str (some p) (p + ds.length) = atoi ds := by
  rw [number, bytesAt]
  simp only [Option.getD_some, Nat.add_sub_cancel_left, hdrop, List.take_left]

/-- A number of `k` digits and the byte `c` behind it lead from `cs` to `cs'` with the action `a`. -/
def numberLeads (cs k : Nat) (c : UInt8) (cs' a : Nat) : Bool :=
  (digitsLead cs k).any fun cs₁ => next cs₁ c = (cs', [a])

theorem Reads.number {n : Int} (hds : Digits ds n) (h : numberLeads cs ds.length c cs' a) (h0 : cs' ≠ error)
    (ha : 2 ≤ a) (ha' : a ≤ 26) : Reads str (ds ++ [c]) p cs tm cs' (effect n tm a) := by
  obtain ⟨cs₁, hlead, hnext⟩ := exists_of_any h
  intro m rest hdrop
  refine ⟨some p, ?_⟩
  rw [List.append_assoc] at hdrop
  rw [← hds.atoi_eq, List.append_assoc, exec_digits hds.isDigit hlead, List.singleton_append,
    exec_leave (of_decide_eq_true hnext) h0 ha ha', number_eq hdrop, List.length_append, List.length_singleton,
    Nat.add_assoc]

/-- The names of the days, each with a comma behind it, and the short ones with a space. -/
theorem day_table : ∀ w < 7, nameLeads start (dayNames.getD w []) 44 52 (w + 2) ∧
    nameLeads start (dayNames.getD w []) 32 5 (w + 2) ∧
    nameLeads start (longDayNames.getD w []) 44 52 (w + 2) := by
  simp only [nameLeads, walk_eq_walkBy, next_eq_nextEntry]
  decide +kernel

/-- The names of the months in the three forms. -/
theorem month_table : ∀ m < 12, nameLeads 55 (monthNames.getD m []) 32 59 (m + 9) ∧
    nameLeads 103 (monthNames.getD m []) 45 107 (m + 9) ∧ nameLeads 5 (monthNames.getD m []) 32 9 (m + 9) := by
  simp only [nameLeads, walk_eq_walkBy, next_eq_nextEntry]
  decide +kernel

/-- The numbers of a date with a comma. -/
theorem number_table : numberLeads 53 2 32 55 21 ∧ numberLeads 53 2 45 103 21 ∧ numberLeads 59 4 32 64 25 ∧
    numberLeads 107 2 32 64 26 ∧ numberLeads 64 2 58 67 22 ∧ numberLeads 67 2 58 70 23 ∧
    numberLeads 70 2 32 73 24 ∧ walk 52 [32] = some 53 ∧ walk 73 [71, 77, 84] = some 184 := by
  decide +kernel

/-- The numbers of a date without a comma. -/
theorem asctime_table : numberLeads 9 1 32 11 21 ∧ numberLeads 9 2 32 11 21 ∧ numberLeads 11 2 58 14 22 ∧
    numberLeads 14 2 58 17 23 ∧ numberLeads 17 2 32 20 24 ∧ digitsLead 20 4 = some 183 ∧
    walk 9 [32] = some 9 := by
  decide +kernel

/-- The calendar fields that `gmtime_r` yields. -/
structure InRange (tm : Tm) : Prop where
  sec : 0 ≤ tm.sec ∧ tm.sec ≤ 60
  min : 0 ≤ tm.min ∧ tm.min ≤ 59
  hour : 0 ≤ tm.hour ∧ tm.hour ≤ 23
  mday : 1 ≤ tm.mday ∧ tm.mday ≤ 31
  mon : 0 ≤ tm.mon ∧ tm.mon ≤ 11
  wday : 0 ≤ tm.wday ∧ tm.wday ≤ 6

theorem reads_dayName (h : InRange tm₁) (str : Bytes) (p : Nat) (tm : Tm) :
    Reads str (dayName tm₁ ++ [44]) p start tm 52 { tm with wday := tm₁.wday } ∧
    Reads str (dayName tm₁ ++ [32]) p start tm 5 { tm with wday := tm₁.wday } ∧
    Reads str (longDayName tm₁ ++ [44]) p start tm 52 { tm with wday := tm₁.wday } := by
  obtain ⟨w, hw⟩ := Int.eq_ofNat_of_zero_le h.wday.1
  have hlt : w < 7 := by have := h.wday; omega
  have heffect : effect 0 tm (w + 2) = { tm with wday := tm₁.wday } := by
    unfold effect
    rw [if_pos (by omega), hw]
    simp
  obtain ⟨hcomma, hspace, hlong⟩ := day_table w hlt
  simp only [dayName, longDayName, hw, Int.toNat_natCast]
  rw [← hw, ← heffect]
  exact ⟨.name hcomma (by decide) (by omega) (by omega), .name hspace (by decide) (by omega) (by omega),
    .name hlong (by decide) (by omega) (by omega)⟩

theorem reads_monthName (h : InRange tm₁) :
    Reads str (monthName tm₁ ++ [32]) p 55 tm 59 { tm with mon := tm₁.mon } ∧
    Reads str (monthName tm₁ ++ [45]) p 103 tm 107 { tm with mon := tm₁.mon } ∧
    Reads str (monthName tm₁ ++ [32]) p 5 tm 9 { tm with mon := tm₁.mon } := by
  obtain ⟨m, hm⟩ := Int.eq_ofNat_of_zero_le h.mon.1
  have hlt : m < 12 := by have := h.mon; omega
  have heffect : effect 0 tm (m + 9) = { tm with mon := tm₁.mon } := by
    unfold effect
    rw [if_neg (by omega), if_pos (by omega), hm]
    simp
  obtain ⟨himf, hrfc, hasc⟩ := month_table m hlt
  simp only [monthName, hm, Int.toNat_natCast]
  rw [← hm, ← heffect]
  exact ⟨.name himf (by decide) (by omega) (by omega), .name hrfc (by decide) (by omega) (by omega),
    .name hasc (by decide) (by omega) (by omega)⟩

/-- Hour, minute and second with what is behind each of them. -/
theorem reads_timeOfDay (h : InRange tm₁) {a b c d : Nat} (hhour : numberLeads a 2 58 b 22)
    (hmin : numberLeads b 2 58 c 23) (hsec : numberLeads c 2 32 d 24) (hb : b ≠ error) (hc : c ≠ error)
    (hd : d ≠ error) : Reads str (timeOfDay tm₁ ++ [32]) p a tm d
      { tm with hour := tm₁.hour, min := tm₁.min, sec := tm₁.sec } := by
  have heq : timeOfDay tm₁ ++ [32] =
      (twoDigits tm₁.hour ++ [58]) ++ (twoDigits tm₁.min ++ [58]) ++ (twoDigits tm₁.sec ++ [32]) := by
    simp only [timeOfDay, List.append_assoc]
  have hdigits : Digits (twoDigits tm₁.hour) tm₁.hour ∧ Digits (twoDigits tm₁.min) tm₁.min ∧
      Digits (twoDigits tm₁.sec) tm₁.sec := by
    obtain ⟨hsec, hmin, hhour, -⟩ := h
    exact ⟨digits_two (by omega) (by omega), digits_two (by omega) (by omega), digits_two (by omega) (by omega)⟩
  rw [heq]
  exact ((Reads.number hdigits.1 hhour hb (by decide) (by decide)).append
    (.number hdigits.2.1 hmin hc (by decide) (by decide))).append
    (.number hdigits.2.2 hsec hd (by decide) (by decide))

/-- The fields that a date has. -/
def Tm.dated (tm : Tm) : Tm := { tm with yday := 0, isdst := 0 }

theorem digits_mday (h : InRange tm₁) : Digits (twoDigits tm₁.mday) tm₁.mday := by
  have := h.mday
  exact digits_two (by omega) (by omega)

theorem reads_imfFixdate (h : InRange tm₁) (hyear : 0 ≤ tm₁.year + 1900 ∧ tm₁.year + 1900 ≤ 9999) :
    Reads str (imfFixdate tm₁) p start .zero 184 (Tm.dated tm₁) := by
  obtain ⟨hday, -, hyear4, -, hhour, hmin, hsec, hspace, hgmt⟩ := number_table
  have heq : imfFixdate tm₁ = (dayName tm₁ ++ [44]) ++ [32] ++ (twoDigits tm₁.mday ++ [32]) ++
      (monthName tm₁ ++ [32]) ++ (fourDigits (tm₁.year + 1900) ++ [32]) ++
      (timeOfDay tm₁ ++ [32]) ++ [71, 77, 84] := by
    simp only [imfFixdate, List.append_assoc, List.cons_append, List.nil_append]
  have hfour : Digits (fourDigits (tm₁.year + 1900)) (tm₁.year + 1900) := digits_four hyear.1 (by omega)
  have hread := (((((((reads_dayName h str p .zero).1.append (.walk hspace)).append
    (.number (digits_mday h) hday (by decide) (by decide) (by decide))).append (reads_monthName h).1).append
    (.number hfour hyear4 (by decide) (by decide) (by decide))).append
    (reads_timeOfDay h hhour hmin hsec (by decide) (by decide) (by decide))).append (.walk hgmt))
  simp only [effect_mday, effect_year4, Int.add_sub_cancel] at hread
  rw [heq]
  exact hread

/-- The window of the two-digit years begins in 1938. -/
theorem reads_rfc850Date (h : InRange tm₁) (hyear : 1938 ≤ tm₁.year + 1900 ∧ tm₁.year + 1900 ≤ 2037) :
    Reads str (rfc850Date tm₁) p start .zero 184 (Tm.dated tm₁) := by
  obtain ⟨-, hday, -, hyear2, hhour, hmin, hsec, hspace, hgmt⟩ := number_table
  have heq : rfc850Date tm₁ = (longDayName tm₁ ++ [44]) ++ [32] ++ (twoDigits tm₁.mday ++ [45]) ++
      (monthName tm₁ ++ [45]) ++ (twoDigits (tm₁.year % 100) ++ [32]) ++
      (timeOfDay tm₁ ++ [32]) ++ [71, 77, 84] := by
    simp only [rfc850Date, List.append_assoc, List.cons_append, List.nil_append]
  have htwo : Digits (twoDigits (tm₁.year % 100)) (tm₁.year % 100) := digits_two (by omega) (by omega)
  have hwindow : (if tm₁.year % 100 < 38 then tm₁.year % 100 + 100 else tm₁.year % 100) = tm₁.year := by
    split_ifs <;> omega
  have hread := (((((((reads_dayName h str p .zero).2.2.append (.walk hspace)).append
    (.number (digits_mday h) hday (by decide) (by decide) (by decide))).append (reads_monthName h).2.1).append
    (.number htwo hyear2 (by decide) (by decide) (by decide))).append
    (reads_timeOfDay h hhour hmin hsec (by decide) (by decide) (by decide))).append (.walk hgmt))
  simp only [effect_mday, effect_year2, hwindow] at hread
  rw [heq]
  exact hread

/-- The day of a date without a comma, after the space behind the month. -/
theorem reads_day (h : InRange tm₁) {pad : UInt8} (hpad : pad = 32 ∨ pad = 48) :
    Reads str ((if tm₁.mday < 10 then [pad, digit tm₁.mday] else twoDigits tm₁.mday) ++ [32]) p 9 tm 11
      { tm with mday := tm₁.mday } := by
  obtain ⟨hone, htwo, -, -, -, -, hspace⟩ := asctime_table
  have hzero : digit (tm₁.mday.tdiv 10) = 48 ∧ tm₁.mday.tmod 10 = tm₁.mday ∨ 10 ≤ tm₁.mday := by
    obtain hlt | hge := lt_or_ge tm₁.mday 10
    · have hmday := h.mday
      refine .inl ⟨?_, Int.tmod_eq_of_lt (by omega) hlt⟩
      rw [Int.tdiv_eq_zero_of_lt (by omega) hlt]
      rfl
    · exact .inr hge
  have hnumber : Reads str (twoDigits tm₁.mday ++ [32]) p 9 tm 11 { tm with mday := tm₁.mday } :=
    .number (digits_mday h) htwo (by decide) (by decide) (by decide)
  split_ifs with hlt
  · obtain rfl | rfl := hpad
    · have hdigit : Digits [digit tm₁.mday] tm₁.mday := by
        have := h.mday
        exact digits_one (by omega) hlt
      exact Reads.append (u := [32]) (v := [digit tm₁.mday, 32]) (.walk hspace)
        (.number hdigit hone (by decide) (by decide) (by decide))
    · obtain ⟨hten, hunit⟩ | hge := hzero
      · rwa [twoDigits, hten, hunit] at hnumber
      · omega
  · exact hnumber

/-- A date without a comma, up to the year. -/
def asctimeFront (pad : UInt8) (tm : Tm) : Bytes :=
  (dayName tm ++ [32]) ++ (monthName tm ++ [32]) ++
    ((if tm.mday < 10 then [pad, digit tm.mday] else twoDigits tm.mday) ++ [32]) ++ (timeOfDay tm ++ [32])

theorem asctimeDate_eq (pad : UInt8) (tm : Tm) :
    asctimeDate pad tm = asctimeFront pad tm ++ fourDigits (tm.year + 1900) := by
  simp only [asctimeDate, asctimeFront, List.append_assoc]

theorem reads_asctimeFront (h : InRange tm₁) {pad : UInt8} (hpad : pad = 32 ∨ pad = 48) :
    Reads str (asctimeFront pad tm₁) p start .zero 20 { Tm.dated tm₁ with year := 0 } := by
  obtain ⟨-, -, hhour, hmin, hsec, -, -⟩ := asctime_table
  exact (((reads_dayName h str p .zero).2.1.append (reads_monthName h).2.2).append
    (reads_day h hpad)).append (reads_timeOfDay h hhour hmin hsec (by decide) (by decide) (by decide))

theorem names_table : (∀ w < 7, 0 ∉ dayNames.getD w [] ∧ 0 ∉ longDayNames.getD w []) ∧
    ∀ m < 12, 0 ∉ monthNames.getD m [] := by
  decide

/-- No part of a date has a terminator in it. -/
theorem zero_notMem (h : InRange tm) : 0 ∉ dayName tm ∧ 0 ∉ longDayName tm ∧ 0 ∉ monthName tm ∧
    0 ∉ twoDigits tm.mday ∧ 0 ∉ timeOfDay tm := by
  obtain ⟨hsec, hmin, hhour, -, hmon, hwday⟩ := id h
  obtain ⟨hday, hlong⟩ := names_table.1 tm.wday.toNat (by omega)
  have hmonth := names_table.2 tm.mon.toNat (by omega)
  have hh := (digits_two (n := tm.hour) (by omega) (by omega)).zero_notMem
  have hm := (digits_two (n := tm.min) (by omega) (by omega)).zero_notMem
  have hs := (digits_two (n := tm.sec) (by omega) (by omega)).zero_notMem
  refine ⟨hday, hlong, hmonth, (digits_mday h).zero_notMem, ?_⟩
  simp [timeOfDay, hh, hm, hs]

end Reads

section Parse
variable {timegm : Tm → Int} {tm : Tm}

/-- A date that ends in the zone. -/
theorem parse_of_reads {str : Bytes} (hstr : 0 ∉ str) (h : Reads str str 0 start .zero 184 (Tm.dated tm)) :
    (parse timegm str).2 = timegm (Tm.dated tm) := by
  obtain ⟨m, hexec⟩ := h none [] (by simp)
  rw [List.append_nil] at hexec
  rw [parse, cString_of_notMem hstr, hexec]
  rfl

theorem parse_imfFixdate (h : InRange tm) (hyear : 0 ≤ tm.year + 1900 ∧ tm.year + 1900 ≤ 9999) :
    (parse timegm (imfFixdate tm)).2 = timegm (Tm.dated tm) := by
  refine parse_of_reads ?_ (reads_imfFixdate h hyear)
  obtain ⟨hday, -, hmonth, hmday, htime⟩ := zero_notMem h
  have hfour := (digits_four (n := tm.year + 1900) hyear.1 (by omega)).zero_notMem
  simp [imfFixdate, hday, hmonth, hmday, htime, hfour]

theorem parse_rfc850Date (h : InRange tm) (hyear : 1938 ≤ tm.year + 1900 ∧ tm.year + 1900 ≤ 2037) :
    (parse timegm (rfc850Date tm)).2 = timegm (Tm.dated tm) := by
  refine parse_of_reads ?_ (reads_rfc850Date h hyear)
  obtain ⟨-, hlong, hmonth, hmday, htime⟩ := zero_notMem h
  have htwo := (digits_two (n := tm.year % 100) (by omega) (by omega)).zero_notMem
  simp [rfc850Date, hlong, hmonth, hmday, htime, htwo]

/-- The year of a date without a comma is read at the end of the input. -/
theorem parse_asctimeDate (h : InRange tm) (hyear : 0 ≤ tm.year + 1900 ∧ tm.year + 1900 ≤ 9999) {pad : UInt8}
    (hpad : pad = 32 ∨ pad = 48) : (parse timegm (asctimeDate pad tm)).2 = timegm (Tm.dated tm) := by
  have hfour : Digits (fourDigits (tm.year + 1900)) (tm.year + 1900) := digits_four hyear.1 (by omega)
  have hzero : 0 ∉ asctimeDate pad tm := by
    obtain ⟨hday, -, hmonth, hmday, htime⟩ := zero_notMem h
    have hone : 0 ∉ (if tm.mday < 10 then [pad, digit tm.mday] else twoDigits tm.mday) := by
      split_ifs with hlt
      · have hdigit := (digits_one (n := tm.mday) (by have := h.mday; omega) hlt).zero_notMem
        obtain rfl | rfl := hpad
        · simpa using hdigit
        · simpa using hdigit
      · exact hmday
    simp [asctimeDate, hday, hmonth, htime, hone, hfour.zero_notMem]
  have hfront : Reads (asctimeDate pad tm) (asctimeFront pad tm) 0 start .zero 20 { Tm.dated tm with year := 0 } :=
    reads_asctimeFront h hpad
  obtain ⟨m, hexec⟩ := hfront none (fourDigits (tm.year + 1900)) (asctimeDate_eq pad tm)
  have hdrop : (asctimeDate pad tm).drop (0 + (asctimeFront pad tm).length) = fourDigits (tm.year + 1900) ++ [] := by
    rw [Nat.zero_add, asctimeDate_eq, List.drop_left, List.append_nil]
  have hlead : digitsLead 20 (fourDigits (tm.year + 1900)).length = some 183 := asctime_table.2.2.2.2.2.1
  have hdigits : exec (asctimeDate pad tm) (fourDigits (tm.year + 1900) ++ []) (0 + (asctimeFront pad tm).length)
      ⟨20, m, { Tm.dated tm with year := 0 }⟩ = _ := exec_digits hfour.isDigit hlead m []
  have hnumber := number_eq hdrop
  rw [List.append_nil] at hdigits
  have hall : exec (asctimeDate pad tm) (asctimeDate pad tm) 0 ⟨start, none, .zero⟩ =
      ⟨183, some (0 + (asctimeFront pad tm).length), Tm.dated tm⟩ := by
    calc exec (asctimeDate pad tm) (asctimeDate pad tm) 0 ⟨start, none, .zero⟩
        = exec (asctimeDate pad tm) (asctimeFront pad tm ++ fourDigits (tm.year + 1900)) 0 ⟨start, none, .zero⟩ := by
          rw [← asctimeDate_eq]
      _ = exec (asctimeDate pad tm) [] (0 + (asctimeFront pad tm).length + (fourDigits (tm.year + 1900)).length)
            ⟨183, some (0 + (asctimeFront pad tm).length), { Tm.dated tm with year := 0 }⟩ := hexec.trans hdigits
      _ = ⟨183, some (0 + (asctimeFront pad tm).length), { Tm.dated tm with
            year := number (asctimeDate pad tm) (some (0 + (asctimeFront pad tm).length))
              (0 + (asctimeFront pad tm).length + (fourDigits (tm.year + 1900)).length) - 1900 }⟩ := rfl
      _ = ⟨183, some (0 + (asctimeFront pad tm).length), Tm.dated tm⟩ := by
          rw [hnumber, hfour.atoi_eq, Int.add_sub_cancel]
          rfl
  rw [parse, cString_of_notMem hzero, hall]

end Parse

theorem names_length : (∀ w < 7, (dayNames.getD w []).length = 3) ∧ ∀ m < 12, (monthNames.getD m []).length = 3 := by
  decide

theorem getD_three {w : Bytes} (h : w.length = 3) : [w.getD 0 0, w.getD 1 0, w.getD 2 0] = w := by
  obtain ⟨a, b, c, rfl⟩ := List.length_eq_three.mp h
  rfl

theorem toHeaderString_eq {gmtimeR : Int → Tm} {tod : Int} {bufLen : Nat} (h : InRange (gmtimeR tod))
    (hbuf : 30 ≤ bufLen) : toHeaderString gmtimeR tod bufLen = imfFixdate (gmtimeR tod) := by
  obtain ⟨-, -, -, -, hmon, hwday⟩ := id h
  have hday := getD_three (names_length.1 (gmtimeR tod).wday.toNat (by omega))
  have hmonth := getD_three (names_length.2 (gmtimeR tod).mon.toNat (by omega))
  have hw : (gmtimeR tod).wday % 8 = (gmtimeR tod).wday := Int.emod_eq_of_lt (by omega) (by omega)
  have hm : (gmtimeR tod).mon.tmod 12 = (gmtimeR tod).mon := Int.tmod_eq_of_lt (by omega) (by omega)
  have hlong : ¬ bufLen < 30 := by omega
  simp only [toHeaderString, if_neg hlong, hw, hm]
  rw [imfFixdate, dayName, monthName, ← hday, ← hmonth]
  rfl

/-- What `gmtime_r` and `timegm` are taken to do at the time `t`: the fields are those of a calendar,
`timegm` gives the time back, and it does not read the day of the year. -/
structure Calendar (gmtimeR : Int → Tm) (timegm : Tm → Int) (t : Int) : Prop where
  inRange : InRange (gmtimeR t)
  isdst : (gmtimeR t).isdst = 0
  inverse : timegm (gmtimeR t) = t
  yday : ∀ tm yday, timegm { tm with yday } = timegm tm

theorem Calendar.timegm_dated {gmtimeR : Int → Tm} {timegm : Tm → Int} {t : Int} (h : Calendar gmtimeR timegm t) :
    timegm (Tm.dated (gmtimeR t)) = t := by
  have heq : Tm.dated (gmtimeR t) = { gmtimeR t with yday := 0 } := by
    rw [Tm.dated, ← h.isdst]
  rw [heq, h.yday, h.inverse]

/-- A date is read back from its header form, from the form of `asctime` with either padding of the
day, and from the form of RFC 850 when its year is in the window of the two-digit years. -/
theorem parse_date {gmtimeR : Int → Tm} {timegm : Tm → Int} {t : Int} (h : Calendar gmtimeR timegm t) :
    (0 ≤ (gmtimeR t).year + 1900 ∧ (gmtimeR t).year + 1900 ≤ 9999 →
      (∀ bufLen, 30 ≤ bufLen → (parse timegm (toHeaderString gmtimeR t bufLen)).2 = t) ∧
      ∀ pad, pad = 32 ∨ pad = 48 → (parse timegm (asctimeDate pad (gmtimeR t))).2 = t) ∧
    (1938 ≤ (gmtimeR t).year + 1900 ∧ (gmtimeR t).year + 1900 ≤ 2037 →
      (parse timegm (rfc850Date (gmtimeR t))).2 = t) := by
  refine ⟨fun hyear => ⟨fun bufLen hbuf => ?_, fun pad hpad => ?_⟩, fun hyear => ?_⟩
  · rw [toHeaderString_eq h.inRange hbuf, parse_imfFixdate h.inRange hyear, h.timegm_dated]
  · rw [parse_asctimeDate h.inRange hyear hpad, h.timegm_dated]
  · rw [parse_rfc850Date h.inRange hyear, h.timegm_dated]

/-- The days from 1 January 1970 to a day of the Gregorian calendar, whose years are taken to begin
in March. -/
def daysFromCivil (year mon mday : Int) : Int :=
  let year := if mon < 2 then year - 1 else year
  let yearOfEra := year % 400
  let dayOfYear := (153 * ((mon + 10) % 12) + 2) / 5 + mday - 1
  year / 400 * 146097 + yearOfEra * 365 + yearOfEra / 4 - yearOfEra / 100 + dayOfYear - 719468

def gregorianTimegm (tm : Tm) : Int :=
  daysFromCivil (tm.year + 1900) tm.mon tm.mday * 86400 + tm.hour * 3600 + tm.min * 60 + tm.sec

def gregorianGmtime (t : Int) : Tm :=
  let days := t / 86400
  let dayOfEra := (days + 719468) % 146097
  let yearOfEra := (dayOfEra - dayOfEra / 1460 + dayOfEra / 36524 - dayOfEra / 146096) / 365
  let dayOfYear := dayOfEra - (365 * yearOfEra + yearOfEra / 4 - yearOfEra / 100)
  let month := (5 * dayOfYear + 2) / 153
  let mon := (month + 2) % 12
  let year := yearOfEra + (days + 719468) / 146097 * 400 + if mon < 2 then 1 else 0
  { sec := t % 60
    min := t / 60 % 60
    hour := t / 3600 % 24
    mday := dayOfYear - (153 * month + 2) / 5 + 1
    mon
    year := year - 1900
    wday := (days + 4) % 7
    yday := days - daysFromCivil year 0 1
    isdst := 0 }

/-- The date in the comments of the three forms. -/
theorem parse_date_november :
    gregorianGmtime 784111777 = ⟨37, 49, 8, 6, 10, 94, 0, 309, 0⟩ ∧
      (parse gregorianTimegm (toHeaderString gregorianGmtime 784111777 32)).2 = 784111777 ∧
      (parse gregorianTimegm (asctimeDate 32 (gregorianGmtime 784111777))).2 = 784111777 ∧
      (parse gregorianTimegm (rfc850Date (gregorianGmtime 784111777))).2 = 784111777 := by
  have hgmtime : gregorianGmtime 784111777 = ⟨37, 49, 8, 6, 10, 94, 0, 309, 0⟩ := by decide
  have hcalendar : Calendar gregorianGmtime gregorianTimegm 784111777 := by
    refine ⟨?_, rfl, by decide, fun _ _ => rfl⟩
    rw [hgmtime]
    constructor <;> decide
  obtain ⟨hfour, htwo⟩ := parse_date hcalendar
  obtain ⟨hheader, hasctime⟩ := hfour (by decide)
  exact ⟨hgmtime, hheader 32 (by decide), hasctime 32 (.inl rfl), htwo (by decide)⟩

end Latypus.Http.HttpDate
