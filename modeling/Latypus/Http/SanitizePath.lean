import Latypus.Http.Message
import Latypus.Lib.Memory
import Mathlib.Data.List.DropRight
import Mathlib.Data.List.Infix

/-! `sanitize_path`: a path rewritten in place with a read and a write pointer. The write
pointer never passes the read pointer, so the rewriting is that of a function from the unread
part and the text written so far, which keeps `/..` out of the text. -/

namespace Latypus.Http
open Lib

structure PathCursor where
  mem : Bytes
  r : Nat
  w : Nat
  lastWasSlash : Bool
deriving DecidableEq, Repr

namespace PathCursor

/-- The loop `while (*(w - 1) != '/') w--`. -/
def skipBack (mem : Bytes) : Nat → Option Nat
  | 0 => none
  | w + 1 =>
    match mem[w]? with
    | none => none
    | some c => if c = 47 then some (w + 1) else skipBack mem w

/-- The end of the loop body: copy a byte and advance both pointers. -/
def copy (s : PathCursor) (c : UInt8) : Option (PathCursor ⊕ Int × Bytes) :=
  (store s.mem s.w [c]).map fun mem => .inl ⟨mem, s.r + 1, s.w + 1, c = 47⟩

/-- One turn of the loop: a new cursor, or the result with the memory as it is left; `none`
stands for an access outside the string. -/
def step (s : PathCursor) : Option (PathCursor ⊕ Int × Bytes) :=
  match s.mem[s.r]? with
  | none => none
  | some c =>
    if c = 0 then (store s.mem s.w [0]).map fun mem => .inr (0, mem)
    -- ignore duplicate slashes
    else if c = 47 ∧ s.lastWasSlash then some (.inl { s with r := s.r + 1 })
    else if s.lastWasSlash ∧ c = 46 then
      match s.mem[s.r + 1]? with
      | none => none
      | some c1 =>
        if c1 = 46 then
          match s.mem[s.r + 2]? with
          | none => none
          | some c2 =>
            -- other names that begin with two dots leave the read pointer where it is
            let r := if c2 = 47 then s.r + 3 else if c2 = 0 then s.r + 2 else s.r
            if 1 < s.w then (skipBack s.mem (s.w - 1)).map fun w => .inl { s with r, w }
            else some (.inr (-1, s.mem))
        else if c1 = 47 then some (.inl { s with r := s.r + 2 })
        else s.copy c
    else s.copy c

def loop : Nat → PathCursor → Option (Int × Bytes)
  | 0, _ => none
  | fuel + 1, s =>
    match s.step with
    | none => none
    | some (.inl s) => loop fuel s
    | some (.inr result) => some result

end PathCursor

/-- `sanitize_path` on a string with its terminator. -/
def sanitizePath (path : Bytes) : Option (Int × Bytes) :=
  PathCursor.loop (2 * path.length + 1) ⟨path ++ [0], 0, 0, false⟩

section Normalise

/-- Take the last segment off a text that ends with a slash. -/
def popSegment (written : Bytes) : Option Bytes :=
  if 1 < written.length then some (written.dropLast.rdropWhile (· ≠ 47)) else none

def endsInSlash (written : Bytes) : Bool := written.getLast? = some 47

/-- The text that the unread part turns into, behind the text written so far; `none` for a path
that is refused. -/
def normalise (written : Bytes) : Bytes → Option Bytes
  | [] => some written
  | c :: rest =>
    if endsInSlash written then
      if c = 47 then normalise written rest
      else if c = 46 then
        match rest with
        | [] => normalise (written ++ [46]) []
        | c1 :: rest1 =>
          if c1 = 46 then
            match rest1 with
            | [] => (popSegment written).bind fun written => normalise written []
            | c2 :: rest2 =>
              if c2 = 47 then (popSegment written).bind fun written => normalise written rest2
              else none
          else if c1 = 47 then normalise written rest1
          else normalise (written ++ [46]) (c1 :: rest1)
      else normalise (written ++ [c]) rest
    else normalise (written ++ [c]) rest
termination_by rest => rest.length

end Normalise

namespace PathCursor

/-- The cursor has written `written` and has `rest` still to read, with bytes that are no longer
needed between the two. -/
def Sim (s : PathCursor) (written rest : Bytes) : Prop :=
  ∃ gap : Bytes, s.mem = written ++ (gap ++ (rest ++ [0])) ∧ s.w = written.length ∧
    s.r = written.length + gap.length ∧ s.lastWasSlash = endsInSlash written

variable {s : PathCursor} {written rest : Bytes} {c : UInt8}

theorem Sim.getElem? (h : s.Sim written rest) (i : Nat) : s.mem[s.r + i]? = (rest ++ [0])[i]? := by
  obtain ⟨gap, hmem, -, hr, -⟩ := h
  rw [hmem, hr, Nat.add_assoc, List.getElem?_append_right (by omega),
    List.getElem?_append_right (by omega)]
  congr 1
  omega

/-- A turn of the loop in terms of the text written and the text to come. -/
theorem Sim.step_eq (h : s.Sim written (c :: rest)) (hc : c ≠ 0) :
    s.step =
      if c = 47 ∧ endsInSlash written then some (.inl { s with r := s.r + 1 })
      else if endsInSlash written ∧ c = 46 then
        match (rest ++ [0])[0]? with
        | none => none
        | some c1 =>
          if c1 = 46 then
            match (rest ++ [0])[1]? with
            | none => none
            | some c2 =>
              let r := if c2 = 47 then s.r + 3 else if c2 = 0 then s.r + 2 else s.r
              if 1 < s.w then (skipBack s.mem (s.w - 1)).map fun w => .inl { s with r, w }
              else some (.inr (-1, s.mem))
          else if c1 = 47 then some (.inl { s with r := s.r + 2 })
          else s.copy c
      else s.copy c := by
  have h0 : s.mem[s.r]? = some c := h.getElem? 0
  have h1 : s.mem[s.r + 1]? = (rest ++ [0])[0]? := h.getElem? 1
  have h2 : s.mem[s.r + 2]? = (rest ++ [0])[1]? := h.getElem? 2
  have hlast : s.lastWasSlash = endsInSlash written := h.choose_spec.2.2.2
  rw [step, h0]
  simp only [hc, if_false, hlast, h1, h2]

theorem Sim.advance (front : Bytes) (h : s.Sim written (front ++ rest)) :
    ({ s with r := s.r + front.length } : PathCursor).Sim written rest := by
  obtain ⟨gap, hmem, hw, hr, hlast⟩ := h
  refine ⟨gap ++ front, ?_, hw, ?_, hlast⟩
  · simp [hmem]
  · simp [hr, Nat.add_assoc]

theorem Sim.copy (h : s.Sim written (c :: rest)) :
    ∃ s', s.copy c = some (.inl s') ∧ s'.Sim (written ++ [c]) rest := by
  obtain ⟨gap, hmem, hw, hr, -⟩ := h
  have hstore : store s.mem s.w [c] = some (written ++ [c] ++ ((gap ++ [c]).tail ++ (rest ++ [0]))) := by
    refine store_eq_some.mpr ⟨?_, ?_⟩
    · simp [hmem, hw]
      omega
    · rw [hmem, hw, List.take_left, List.drop_append]
      cases gap <;> simp
  refine ⟨_, by rw [PathCursor.copy, hstore, Option.map_some], (gap ++ [c]).tail, rfl, ?_, ?_, ?_⟩
  · simp [hw]
  · simp [hr]
    omega
  · simp [endsInSlash]

theorem skipBack_eq {mem : Bytes} {n : Nat} (hn : n ≤ mem.length) (h : 47 ∈ mem.take n) :
    skipBack mem n = some ((mem.take n).rdropWhile (· ≠ 47)).length := by
  induction n with
  | zero => simp at h
  | succ n ih =>
    have hget : mem[n]? = some mem[n] := List.getElem?_eq_getElem _
    rw [List.take_add_one, hget, Option.toList_some] at h ⊢
    rw [skipBack, hget, List.rdropWhile_concat]
    simp only
    by_cases hc : mem[n] = 47
    · rw [if_pos hc, if_neg (by simp [hc])]
      simp
      omega
    · rw [if_neg hc, if_pos (by simpa using hc)]
      refine ih (by omega) ?_
      rcases List.mem_append.mp h with h | h
      · exact h
      · exact absurd (List.mem_singleton.mp h).symm hc

/-- The text begins with a slash, or will. -/
def Rooted (written rest : Bytes) : Prop := (written ++ rest).head? = some 47

theorem Rooted.of_prefix {written' : Bytes} (h : Rooted written rest) (hpre : written' <+: written)
    (hne : written' ≠ []) (rest' : Bytes) : Rooted written' rest' := by
  obtain ⟨tail, rfl⟩ := hpre
  cases written' with
  | nil => exact absurd rfl hne
  | cons a written' => simpa [Rooted] using h

theorem ne_nil_of_endsInSlash (h : endsInSlash written = true) : written ≠ [] := by
  rintro rfl
  simp [endsInSlash] at h

theorem endsInSlash_rdropWhile (h : 47 ∈ written) :
    endsInSlash (written.rdropWhile (· ≠ 47)) = true := by
  have hne : written.rdropWhile (· ≠ 47) ≠ [] := by
    rw [ne_eq, List.rdropWhile_eq_nil_iff]
    intro hall
    simpa using hall 47 h
  have hlast := List.rdropWhile_last_not (fun c : UInt8 => decide (c ≠ 47)) written hne
  rw [endsInSlash, List.getLast?_eq_some_getLast hne]
  simpa using hlast

/-- The way back of the write pointer. -/
theorem Sim.pop (h : s.Sim written rest) (hslash : endsInSlash written = true)
    (hroot : Rooted written rest) (hlen : 1 < written.length) :
    skipBack s.mem (s.w - 1) = some (written.dropLast.rdropWhile (· ≠ 47)).length ∧
      endsInSlash (written.dropLast.rdropWhile (· ≠ 47)) = true ∧
      Rooted (written.dropLast.rdropWhile (· ≠ 47)) rest ∧
      (written.dropLast.rdropWhile (· ≠ 47)).length < written.length ∧
      ({ s with w := (written.dropLast.rdropWhile (· ≠ 47)).length } : PathCursor).Sim
        (written.dropLast.rdropWhile (· ≠ 47)) rest := by
  obtain ⟨gap, hmem, hw, hr, hlast⟩ := h
  have hmem47 : 47 ∈ written.dropLast := by
    match written, hlen with
    | a :: b :: written, _ =>
      have ha : a = 47 := by simpa [Rooted] using hroot
      simp [List.dropLast, ha]
  have htake : s.mem.take (s.w - 1) = written.dropLast := by
    rw [hmem, hw, List.take_append_of_le_length (by omega), List.dropLast_eq_take]
  have hends := endsInSlash_rdropWhile hmem47
  have hpre : written.dropLast.rdropWhile (· ≠ 47) <+: written.dropLast := List.rdropWhile_prefix _ _
  have hlt := hpre.length_le
  rw [List.length_dropLast] at hlt
  refine ⟨?_, hends, hroot.of_prefix (hpre.trans written.dropLast_prefix)
    (ne_nil_of_endsInSlash hends) rest, by omega, ?_⟩
  · rw [← htake]
    refine skipBack_eq ?_ (htake ▸ hmem47)
    simp [hmem, hw]
    omega
  · obtain ⟨tail, htail⟩ := hpre.trans written.dropLast_prefix
    refine ⟨tail ++ gap, ?_, rfl, ?_, ?_⟩
    · rw [hmem, List.append_assoc tail, ← List.append_assoc _ tail, htail]
    · have := congrArg List.length htail
      simp only [List.length_append] at this ⊢
      omega
    · rw [hends, ← hslash]
      exact hlast

/-- The result of the loop is the text that the specification gives. -/
def Agrees (result : Option (Int × Bytes)) : Option Bytes → Prop
  | some path => ∃ tail, result = some (0, path ++ 0 :: tail)
  | none => ∃ mem, result = some (-1, mem)

/-- A name that begins with two dots and goes on: the write pointer moves back at every turn
until the path is refused. -/
theorem loop_reject {rest : Bytes} {c2 : UInt8} (hslash' : c2 ≠ 47) (hnul : c2 ≠ 0) (fuel : Nat)
    (h : s.Sim written (46 :: 46 :: c2 :: rest)) (hslash : endsInSlash written = true)
    (hroot : Rooted written (46 :: 46 :: c2 :: rest)) (hfuel : written.length < fuel) :
    Agrees (loop fuel s) none := by
  induction fuel generalizing s written with
  | zero => omega
  | succ fuel ih =>
    have hw : s.w = written.length := h.choose_spec.2.1
    by_cases hlen : 1 < written.length
    · obtain ⟨hskip, hends, hroot', hlt, hsim⟩ := h.pop hslash hroot hlen
      have hstep : s.step = some (.inl { s with w := (written.dropLast.rdropWhile (· ≠ 47)).length }) := by
        rw [h.step_eq (by decide)]
        simp [hslash, hslash', hnul, hw ▸ hlen, hskip]
      rw [loop, hstep]
      exact ih hsim hends hroot' (by omega)
    · have hstep : s.step = some (.inr (-1, s.mem)) := by
        rw [h.step_eq (by decide)]
        simp [hslash, hw, hlen]
      rw [loop, hstep]
      exact ⟨s.mem, rfl⟩

/-- A turn of the loop that leads to a cursor with less to do. -/
theorem loop_of_step {s' : PathCursor} {n fuel : Nat} {spec : Option Bytes}
    (hstep : s.step = some (.inl s')) (hfuel : n < fuel)
    (h : ∀ fuel, n ≤ fuel → Agrees (loop fuel s') spec) : Agrees (loop fuel s) spec := by
  cases fuel with
  | zero => omega
  | succ fuel =>
    rw [loop, hstep]
    exact h fuel (by omega)

/-- A turn of the loop that copies the next byte. -/
theorem loop_of_copy {fuel : Nat} {spec : Option Bytes} (h : s.Sim written (c :: rest))
    (hstep : s.step = s.copy c) (hfuel : 2 * (c :: rest).length + written.length < fuel)
    (ih : ∀ (s' : PathCursor) (fuel : Nat), s'.Sim (written ++ [c]) rest →
      2 * rest.length + (written ++ [c]).length < fuel → Agrees (loop fuel s') spec) :
    Agrees (loop fuel s) spec := by
  obtain ⟨s', hcopy, hsim⟩ := h.copy
  refine loop_of_step (hstep.trans hcopy) hfuel fun fuel hfuel => ih s' fuel hsim ?_
  simp only [List.length_cons, List.length_append, List.length_nil] at hfuel ⊢
  omega

/-- A turn of the loop on the segment `..`, read as `front`. -/
theorem loop_of_pop (front rest : Bytes) {fuel : Nat} (hslash : endsInSlash written = true)
    (h : s.Sim written (front ++ rest)) (hfront : front ≠ []) (hroot : Rooted written (front ++ rest))
    (hstep : s.step = if 1 < s.w then
      (skipBack s.mem (s.w - 1)).map fun w => .inl { s with r := s.r + front.length, w }
      else some (.inr (-1, s.mem)))
    (hfuel : 2 * (front ++ rest).length + written.length < fuel)
    (ih : ∀ (written' : Bytes) (s' : PathCursor) (fuel : Nat), s'.Sim written' rest →
      Rooted written' rest → 2 * rest.length + written'.length < fuel →
      Agrees (loop fuel s') (normalise written' rest)) :
    Agrees (loop fuel s) ((popSegment written).bind fun written' => normalise written' rest) := by
  have hw : s.w = written.length := h.choose_spec.2.1
  have hpos : 0 < front.length := List.length_pos_of_ne_nil hfront
  rw [hw] at hstep
  by_cases hlen : 1 < written.length
  · obtain ⟨hskip, hends, hroot', hlt, hsim⟩ := h.pop hslash hroot hlen
    rw [if_pos hlen, ← hw, hskip, Option.map_some] at hstep
    rw [popSegment, if_pos hlen, Option.bind_some]
    refine loop_of_step hstep hfuel fun fuel hfuel => ih _ _ fuel (hsim.advance front) ?_ ?_
    · exact hroot'.of_prefix List.prefix_rfl (ne_nil_of_endsInSlash hends) rest
    · rw [List.length_append] at hfuel
      omega
  · rw [if_neg hlen] at hstep
    rw [popSegment, if_neg hlen]
    cases fuel with
    | zero => omega
    | succ fuel =>
      rw [loop, hstep]
      exact ⟨s.mem, rfl⟩

theorem loop_agrees (fuel : Nat) (h : s.Sim written rest) (hnul : 0 ∉ rest)
    (hroot : Rooted written rest) (hfuel : 2 * rest.length + written.length < fuel) :
    Agrees (loop fuel s) (normalise written rest) := by
  fun_induction normalise written rest generalizing s fuel with
  | case1 written =>
    cases fuel with
    | zero => omega
    | succ fuel =>
      have h0 : s.mem[s.r]? = some 0 := h.getElem? 0
      obtain ⟨gap, hmem, hw, -, -⟩ := h
      have hstore : store s.mem s.w [0] = some (written ++ 0 :: (gap ++ [0]).tail) := by
        refine store_eq_some.mpr ⟨?_, ?_⟩
        · simp [hmem, hw]
        · rw [hmem, hw, List.take_left, List.drop_append]
          cases gap <;> simp
      have hstep : s.step = some (.inr (0, written ++ 0 :: (gap ++ [0]).tail)) := by
        simp [step, h0, hstore]
      rw [loop, hstep]
      exact ⟨_, rfl⟩
  | case2 written rest hslash ih =>
    have hstep : s.step = some (.inl { s with r := s.r + 1 }) := by
      rw [h.step_eq (by decide), if_pos ⟨rfl, hslash⟩]
    have hroot' := hroot.of_prefix List.prefix_rfl (ne_nil_of_endsInSlash hslash) rest
    refine loop_of_step hstep hfuel fun fuel hfuel => ih fuel (Sim.advance [47] h)
      (List.not_mem_of_not_mem_cons hnul) hroot' ?_
    rw [List.length_cons] at hfuel
    omega
  | case3 written hslash hne ih =>
    have hstep : s.step = s.copy 46 := by
      rw [h.step_eq (by decide)]
      simp [hslash]
    exact loop_of_copy h hstep hfuel fun s' fuel hsim hfuel =>
      ih fuel hsim (by simp) (by simpa [Rooted] using hroot) hfuel
  | case4 written hslash hne ih =>
    refine loop_of_pop [46, 46] [] hslash h (by simp) hroot ?_ hfuel
      fun written' s' fuel hsim hroot hfuel => ih written' fuel hsim (by simp) hroot hfuel
    rw [h.step_eq (by decide)]
    simp [hslash]
  | case5 written hslash rest hne ih =>
    refine loop_of_pop [46, 46, 47] _ hslash h (by simp) hroot ?_ hfuel
      fun written' s' fuel hsim hroot hfuel => ih written' fuel hsim (by simp_all) hroot hfuel
    rw [h.step_eq (by decide)]
    simp [hslash]
  | case6 written hslash c2 rest hc2 hne =>
    refine loop_reject hc2 ?_ fuel h hslash hroot (by omega)
    rintro rfl
    simp at hnul
  | case7 written hslash rest hne hne' ih =>
    have hstep : s.step = some (.inl { s with r := s.r + 2 }) := by
      rw [h.step_eq (by decide)]
      simp [hslash]
    have hroot' := hroot.of_prefix List.prefix_rfl (ne_nil_of_endsInSlash hslash) rest
    refine loop_of_step hstep hfuel fun fuel hfuel => ih fuel (Sim.advance [46, 47] h)
      (by simp_all) hroot' ?_
    simp only [List.length_cons] at hfuel
    omega
  | case8 written hslash c1 rest hc1 hc1' hne ih =>
    have hstep : s.step = s.copy 46 := by
      rw [h.step_eq (by decide)]
      simp [hslash, hc1, hc1']
    exact loop_of_copy h hstep hfuel fun s' fuel hsim hfuel =>
      ih fuel hsim (by simp_all) (by simpa [Rooted] using hroot) hfuel
  | case9 written c rest hslash hc hc' ih =>
    have hstep : s.step = s.copy c := by
      rw [h.step_eq (by rintro rfl; simp at hnul), if_neg (by simp [hc]), if_neg (by simp [hc'])]
    exact loop_of_copy h hstep hfuel fun s' fuel hsim hfuel =>
      ih fuel hsim (by simp_all) (by simpa [Rooted] using hroot) hfuel
  | case10 written c rest hslash ih =>
    have hstep : s.step = s.copy c := by
      rw [h.step_eq (by rintro rfl; simp at hnul), if_neg (by simp [hslash]),
        if_neg (by simp [hslash])]
    exact loop_of_copy h hstep hfuel fun s' fuel hsim hfuel =>
      ih fuel hsim (by simp_all) (by simpa [Rooted] using hroot) hfuel

end PathCursor

section Clean

/-- The text holds no slash with two dots behind it. -/
def Clean (text : Bytes) : Prop := ¬ [47, 46, 46] <:+: text

variable {written : Bytes} {c : UInt8}

theorem endsInSlash_iff : endsInSlash written = true ↔ [47] <:+ written := by
  rw [List.singleton_suffix_iff_getLast?_eq_some]
  simp [endsInSlash]

theorem suffix_of_concat {l : Bytes} {a : UInt8} (h : l ++ [a] <:+ written ++ [c]) :
    a = c ∧ l <:+ written := by
  obtain h | ⟨t, heq, ht⟩ := List.suffix_concat_iff.mp h
  · simp at h
  · obtain ⟨rfl, hac⟩ := List.append_inj' heq rfl
    exact ⟨List.singleton_inj.mp hac, ht⟩

theorem Clean.concat (h : Clean written) (hdot : [47, 46] <:+ written → c ≠ 46) :
    Clean (written ++ [c]) := by
  rw [Clean, List.infix_concat_iff]
  rintro (hsuffix | hmem)
  · obtain ⟨hc, hsuffix⟩ := suffix_of_concat (l := [47, 46]) hsuffix
    exact hdot hsuffix hc.symm
  · exact h hmem

theorem Clean.of_prefix {written' : Bytes} (h : Clean written) (hpre : written' <+: written) :
    Clean written' := fun hmem => h (hmem.trans hpre.isInfix)

theorem not_dot_suffix (h : endsInSlash written = true) : ¬ [47, 46] <:+ written := by
  rintro ⟨front, rfl⟩
  simp [endsInSlash] at h

theorem not_dot_suffix_of_popSegment {written' : Bytes} (h : popSegment written = some written') :
    ¬ [47, 46] <:+ written' := by
  rw [popSegment] at h
  split_ifs at h
  obtain rfl := Option.some.inj h
  intro hsuffix
  have hne : written.dropLast.rdropWhile (· ≠ 47) ≠ [] := by
    intro heq
    rw [heq] at hsuffix
    simp at hsuffix
  have hlast := List.rdropWhile_last_not (fun c : UInt8 => decide (c ≠ 47)) written.dropLast hne
  rw [← hsuffix.getLast (by simp)] at hlast
  simp at hlast

theorem prefix_of_popSegment {written' : Bytes} (h : popSegment written = some written') :
    written' <+: written := by
  rw [popSegment] at h
  split_ifs at h
  obtain rfl := Option.some.inj h
  exact (List.rdropWhile_prefix _ _).trans written.dropLast_prefix

/-- The normal form never has two dots behind a slash: a dot behind a slash is only written when
no dot follows it. -/
theorem Clean.normalise {rest path : Bytes} (h : Clean written)
    (hdot : [47, 46] <:+ written → rest.head? ≠ some 46)
    (hpath : normalise written rest = some path) : Clean path := by
  fun_induction Http.normalise written rest with
  | case1 written =>
    obtain rfl := Option.some.inj hpath
    exact h
  | case2 written rest hslash ih => exact ih h (absurd · (not_dot_suffix hslash)) hpath
  | case3 written hslash hne ih =>
    exact ih (h.concat (absurd · (not_dot_suffix hslash))) (by simp) hpath
  | case4 written hslash hne ih =>
    obtain ⟨written', hpop, hpath⟩ := Option.bind_eq_some_iff.mp hpath
    exact ih written' (h.of_prefix (prefix_of_popSegment hpop)) (by simp) hpath
  | case5 written hslash rest hne ih =>
    obtain ⟨written', hpop, hpath⟩ := Option.bind_eq_some_iff.mp hpath
    exact ih written' (h.of_prefix (prefix_of_popSegment hpop))
      (absurd · (not_dot_suffix_of_popSegment hpop)) hpath
  | case6 => simp at hpath
  | case7 written hslash rest hne hne' ih => exact ih h (absurd · (not_dot_suffix hslash)) hpath
  | case8 written hslash c1 rest hc1 hc1' hne ih =>
    exact ih (h.concat (absurd · (not_dot_suffix hslash))) (by simp [hc1]) hpath
  | case9 written c rest hslash hc hc' ih =>
    refine ih (h.concat (absurd · (not_dot_suffix hslash))) (fun hsuffix => ?_) hpath
    exact absurd (suffix_of_concat (l := [47]) hsuffix).1.symm hc'
  | case10 written c rest hslash ih =>
    refine ih (h.concat (by simpa using hdot)) (fun hsuffix => ?_) hpath
    exact absurd (endsInSlash_iff.mpr (suffix_of_concat (l := [47]) hsuffix).2) hslash

/-- The normal form holds no byte that the path does not hold. -/
theorem notMem_normalise {b : UInt8} {rest path : Bytes} (hwritten : b ∉ written) (hrest : b ∉ rest)
    (hpath : normalise written rest = some path) : b ∉ path := by
  fun_induction Http.normalise written rest with
  | case1 written =>
    obtain rfl := Option.some.inj hpath
    exact hwritten
  | case2 written rest hslash ih => exact ih hwritten (by simp_all) hpath
  | case3 written hslash hne ih => exact ih (by simp_all) (by simp) hpath
  | case4 written hslash hne ih =>
    obtain ⟨written', hpop, hpath⟩ := Option.bind_eq_some_iff.mp hpath
    exact ih written' (fun h => hwritten ((prefix_of_popSegment hpop).subset h)) (by simp) hpath
  | case5 written hslash rest hne ih =>
    obtain ⟨written', hpop, hpath⟩ := Option.bind_eq_some_iff.mp hpath
    exact ih written' (fun h => hwritten ((prefix_of_popSegment hpop).subset h)) (by simp_all) hpath
  | case6 => simp at hpath
  | case7 written hslash rest hne hne' ih => exact ih hwritten (by simp_all) hpath
  | case8 written hslash c1 rest hc1 hc1' hne ih => exact ih (by simp_all) (by simp_all) hpath
  | case9 written c rest hslash hc hc' ih => exact ih (by simp_all) (by simp_all) hpath
  | case10 written c rest hslash ih => exact ih (by simp_all) (by simp_all) hpath

end Clean

/-- `sanitize_path` returns on every string that begins with a slash, with the normal form of
the path in place or with a refusal. -/
theorem sanitizePath_agrees {path : Bytes} (hslash : path.head? = some 47) (hnul : 0 ∉ path) :
    PathCursor.Agrees (sanitizePath path) (normalise [] path) :=
  PathCursor.loop_agrees _ ⟨[], rfl, rfl, rfl, rfl⟩ hnul hslash (by simp)

/-- What `sanitize_path` leaves in place when it accepts a path. -/
theorem sanitizePath_accepts {path mem : Bytes} (hslash : path.head? = some 47) (hnul : 0 ∉ path)
    (h : sanitizePath path = some (0, mem)) :
    normalise [] path = some (cString mem) ∧ Clean (cString mem) := by
  have hagrees := sanitizePath_agrees hslash hnul
  rw [h] at hagrees
  cases hpath : normalise [] path with
  | none =>
    rw [hpath] at hagrees
    obtain ⟨mem', hmem⟩ := hagrees
    simp at hmem
  | some path' =>
    rw [hpath] at hagrees
    obtain ⟨tail, hmem⟩ := hagrees
    have hclean : Clean path' := Clean.normalise (by simp [Clean]) (by simp) hpath
    have hnul' : 0 ∉ path' := notMem_normalise (by simp) hnul hpath
    have hmem' : mem = path' ++ 0 :: tail := by simpa using hmem
    have hcut : cString mem = path' := by
      rw [hmem', cString, List.takeWhile_append_of_pos, List.takeWhile_cons_of_neg (by simp),
        List.append_nil]
      intro c hc
      simp only [ne_eq, decide_eq_true_eq]
      rintro rfl
      exact hnul' hc
    rw [hcut]
    exact ⟨rfl, hclean⟩

end Latypus.Http
