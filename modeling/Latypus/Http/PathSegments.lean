import Latypus.Http.SanitizePath
import Latypus.Lib.Machine

/-! What `sanitize_path` computes, in terms of the segments of the path: they are processed from
left to right on a stack, and what is left on it, joined by slashes, is the path in place. -/

namespace Latypus.Http
open Lib

/-- The segments to come, on the stack of those kept. A segment in the middle is dropped when it
is empty or a dot; at the end a dot stays, and an empty segment stands for a trailing slash. -/
def resolve (stack : List Bytes) : List Bytes → Option (List Bytes)
  | [] => some stack
  | [last] =>
    if last = [46, 46] then if stack = [] then none else some (stack.dropLast ++ [[]])
    else if [46, 46] <+: last then none
    else some (stack ++ [last])
  | seg :: next :: segs =>
    if seg = [] ∨ seg = [46] then resolve stack (next :: segs)
    else if seg = [46, 46] then if stack = [] then none else resolve stack.dropLast (next :: segs)
    else if [46, 46] <+: seg then none
    else resolve (stack ++ [seg]) (next :: segs)

def joinSegments (stack : List Bytes) : Bytes := 47 :: [47].intercalate stack

/-- The segments of a path behind its first slash. -/
def pathSegments (path : Bytes) : List Bytes := path.tail.splitOn 47

/-- The text written while a stack is kept and the next segment is to come. -/
def rendered (stack : List Bytes) : Bytes := 47 :: stack.flatMap (· ++ [47])

section Render

theorem rendered_concat (stack : List Bytes) (seg : Bytes) :
    rendered (stack ++ [seg]) = rendered stack ++ seg ++ [47] := by
  simp [rendered]

theorem endsInSlash_rendered (stack : List Bytes) : endsInSlash (rendered stack) = true := by
  cases stack using List.reverseRecOn with
  | nil => rfl
  | append_singleton stack seg => simp [rendered_concat, endsInSlash]

theorem joinSegments_concat (stack : List Bytes) (last : Bytes) :
    joinSegments (stack ++ [last]) = rendered stack ++ last := by
  induction stack with
  | nil => simp [joinSegments, rendered]
  | cons seg stack ih =>
    simp only [joinSegments, rendered, List.cons_append, List.cons.injEq, true_and,
      List.flatMap_cons, List.append_assoc] at ih ⊢
    rw [List.intercalate_cons_of_ne_nil (by simp), ih, List.append_assoc]
    rfl

/-- The last segment of a rendered stack is taken off. -/
theorem popSegment_rendered {stack : List Bytes} (hstack : ∀ seg ∈ stack, 47 ∉ seg) :
    popSegment (rendered stack) = if stack = [] then none else some (rendered stack.dropLast) := by
  cases stack using List.reverseRecOn with
  | nil => rfl
  | append_singleton stack seg ih =>
    have hseg : 47 ∉ seg := hstack seg (by simp)
    have hdrop : (rendered stack ++ seg).rdropWhile (· ≠ 47) = rendered stack := by
      obtain ⟨front, hfront⟩ : ∃ front, rendered stack = front ++ [47] := by
        obtain ⟨front, hfront⟩ := endsInSlash_iff.mp (endsInSlash_rendered stack)
        exact ⟨front, hfront.symm⟩
      rw [hfront]
      clear hstack ih
      induction seg using List.reverseRecOn with
      | nil => simp
      | append_singleton seg c ih =>
        have hc : c ≠ 47 := by
          rintro rfl
          simp at hseg
        rw [← List.append_assoc, List.rdropWhile_concat_pos _ _ _ (by simpa using hc)]
        exact ih fun h => hseg (List.mem_append_left _ h)
    have hlong : 1 < (rendered stack ++ seg ++ [47]).length := by
      rw [rendered, List.length_append, List.length_append, List.length_cons, List.length_singleton]
      omega
    rw [popSegment, rendered_concat, if_pos hlong, List.dropLast_concat, hdrop]
    simp

end Render

section Normalise
variable {written seg rest : Bytes}

theorem normalise_copy {c : UInt8} (h : endsInSlash written = false) :
    normalise written (c :: rest) = normalise (written ++ [c]) rest := by
  rw [normalise.eq_def]
  simp [h]

theorem normalise_slash (h : endsInSlash written = true) :
    normalise written (47 :: rest) = normalise written rest := by
  rw [normalise.eq_def]
  simp [h]

theorem normalise_dot (h : endsInSlash written = true) :
    normalise written (46 :: 47 :: rest) = normalise written rest := by
  rw [normalise.eq_def]
  simp [h]

/-- Inside a segment the bytes are copied. -/
theorem normalise_append (h : endsInSlash written = false) (hseg : 47 ∉ seg) :
    normalise written (seg ++ rest) = normalise (written ++ seg) rest := by
  induction seg generalizing written with
  | nil => simp
  | cons c seg ih =>
    have hc : c ≠ 47 := by
      rintro rfl
      simp at hseg
    rw [List.cons_append, normalise_copy h, ih (by simp [endsInSlash, hc]) (by simp_all)]
    simp

/-- A segment that is neither dropped nor refused is copied. -/
theorem normalise_segment (h : endsInSlash written = true) (hseg : 47 ∉ seg) (hne : seg ≠ [])
    (hdots : ¬ [46, 46] <+: seg) (hdot : seg = [46] → rest = []) :
    normalise written (seg ++ rest) = normalise (written ++ seg) rest := by
  obtain ⟨c, seg, rfl⟩ := List.exists_cons_of_ne_nil hne
  have hc : c ≠ 47 := by
    rintro rfl
    simp at hseg
  have hcopy : normalise (written ++ [c]) (seg ++ rest) = normalise (written ++ c :: seg) rest := by
    rw [normalise_append (by simp [endsInSlash, hc]) (by simp_all)]
    simp
  rw [← hcopy, List.cons_append, normalise.eq_def]
  simp only [h, hc, if_true, if_false]
  by_cases hc' : c = 46
  · subst hc'
    rw [if_pos rfl]
    cases seg with
    | nil =>
      obtain rfl : rest = [] := hdot rfl
      simp
    | cons c1 seg =>
      have hc1 : c1 ≠ 46 := by
        rintro rfl
        exact hdots ⟨seg, rfl⟩
      have hc1' : c1 ≠ 47 := by
        rintro rfl
        simp at hseg
      simp only [List.cons_append, hc1, hc1', if_false]
  · rw [if_neg hc']

/-- A segment that begins with two dots and goes on is refused. -/
theorem normalise_dots (h : endsInSlash written = true) (hseg : 47 ∉ seg) (hdots : [46, 46] <+: seg)
    (hne : seg ≠ [46, 46]) : normalise written (seg ++ rest) = none := by
  obtain ⟨tail, rfl⟩ := hdots
  cases tail with
  | nil => simp at hne
  | cons c tail =>
    have hc : c ≠ 47 := by
      rintro rfl
      simp at hseg
    simp only [List.cons_append, List.nil_append]
    rw [normalise]
    simp [h, hc]

/-- The two forms of the specification agree. -/
theorem normalise_rendered {stack segs : List Bytes} (hstack : ∀ seg ∈ stack, 47 ∉ seg)
    (hsegs : ∀ seg ∈ segs, 47 ∉ seg) (hne : segs ≠ []) :
    normalise (rendered stack) ([47].intercalate segs) = (resolve stack segs).map joinSegments := by
  have hslash := endsInSlash_rendered
  fun_induction resolve stack segs with
  | case1 => simp at hne
  | case2 =>
    rw [List.intercalate_singleton, normalise]
    simp [hslash, popSegment_rendered]
  | case3 stack hstack' =>
    rw [List.intercalate_singleton, normalise]
    simp [hslash, popSegment_rendered hstack, hstack', normalise, joinSegments_concat]
  | case4 stack last hne' hdots =>
    have hrefused : normalise (rendered stack) (last ++ []) = none := normalise_dots (hslash stack) (hsegs last (by simp)) hdots hne'
    rw [List.append_nil] at hrefused
    simp [hrefused]
  | case5 stack last hne' hdots =>
    rw [List.intercalate_singleton, Option.map_some, joinSegments_concat]
    by_cases hlast : last = []
    · simp [hlast, normalise]
    · have hcopy : normalise (rendered stack) (last ++ []) = normalise (rendered stack ++ last) [] :=
        normalise_segment (hslash stack) (hsegs last (by simp)) hlast hdots fun _ => rfl
      rw [List.append_nil] at hcopy
      rw [hcopy, normalise]
  | case6 stack seg next segs hseg ih =>
    rw [List.intercalate_cons_cons, ← ih hstack (fun s hs => hsegs s (List.mem_cons_of_mem seg hs)) (by simp)]
    rcases hseg with rfl | rfl
    · exact normalise_slash (hslash stack)
    · exact normalise_dot (hslash stack)
  | case7 next segs hseg =>
    rw [List.intercalate_cons_cons]
    simp only [List.nil_append, List.cons_append]
    rw [normalise]
    simp [hslash, popSegment_rendered]
  | case8 stack next segs hstack' hseg ih =>
    have hdrop : ∀ s ∈ stack.dropLast, 47 ∉ s := fun s hs => hstack s (List.mem_of_mem_dropLast hs)
    rw [List.intercalate_cons_cons, ← ih hdrop (fun s hs => hsegs s (List.mem_cons_of_mem _ hs)) (by simp)]
    simp only [List.nil_append, List.cons_append]
    rw [normalise]
    simp [hslash, popSegment_rendered hstack, hstack']
  | case9 stack seg next segs hseg hne' hdots =>
    rw [List.intercalate_cons_cons, List.append_assoc,
      normalise_dots (hslash stack) (hsegs seg List.mem_cons_self) hdots hne']
    rfl
  | case10 stack seg next segs hseg hne' hdots ih =>
    have hfree : 47 ∉ seg := hsegs seg List.mem_cons_self
    have hseg' : seg ≠ [] ∧ seg ≠ [46] := by simpa using hseg
    have hstack' : ∀ s ∈ stack ++ [seg], 47 ∉ s := by
      intro s hs
      rcases List.mem_append.mp hs with hs | hs
      · exact hstack s hs
      · rwa [List.mem_singleton.mp hs]
    have hend : endsInSlash (rendered stack ++ seg) = false := by
      rw [endsInSlash, List.getLast?_append_of_ne_nil _ hseg'.1, decide_eq_false_iff_not]
      exact fun h => hfree (List.mem_of_getLast? h)
    rw [List.intercalate_cons_cons, List.append_assoc, normalise_segment (hslash stack) hfree hseg'.1 hdots
      (fun h => absurd h hseg'.2), ← ih hstack' (fun s hs => hsegs s (List.mem_cons_of_mem _ hs)) (by simp),
      rendered_concat]
    exact normalise_copy hend

end Normalise

section Stack

/-- A segment that stays on the stack. -/
structure Kept (seg : Bytes) : Prop where
  slash : 47 ∉ seg
  ne_nil : seg ≠ []
  ne_dot : seg ≠ [46]
  dots : ¬ [46, 46] <+: seg

/-- The segments of a normal form: all but the last are kept ones. -/
structure IsNormal (segs : List Bytes) : Prop where
  ne_nil : segs ≠ []
  kept : ∀ seg ∈ segs.dropLast, Kept seg
  slash : ∀ seg ∈ segs, 47 ∉ seg
  dots : ∀ seg ∈ segs, ¬ [46, 46] <+: seg

theorem isNormal_concat {stack : List Bytes} {last : Bytes} (hstack : ∀ seg ∈ stack, Kept seg)
    (hlast : 47 ∉ last) (hdots : ¬ [46, 46] <+: last) : IsNormal (stack ++ [last]) := by
  refine ⟨by simp, by simpa using hstack, ?_, ?_⟩
  · intro seg hseg
    rcases List.mem_append.mp hseg with hseg | hseg
    · exact (hstack seg hseg).slash
    · rwa [List.mem_singleton.mp hseg]
  · intro seg hseg
    rcases List.mem_append.mp hseg with hseg | hseg
    · exact (hstack seg hseg).dots
    · rwa [List.mem_singleton.mp hseg]

theorem isNormal_of_resolve {stack segs segs' : List Bytes} (hstack : ∀ seg ∈ stack, Kept seg)
    (hsegs : ∀ seg ∈ segs, 47 ∉ seg) (hne : segs ≠ []) (h : resolve stack segs = some segs') :
    IsNormal segs' := by
  fun_induction resolve stack segs with
  | case1 => simp at hne
  | case2 => simp at h
  | case3 stack hstack' =>
    obtain rfl := Option.some.inj h
    exact isNormal_concat (fun seg hseg => hstack seg (List.mem_of_mem_dropLast hseg)) (by simp) (by simp)
  | case4 => simp at h
  | case5 stack last hne' hdots =>
    obtain rfl := Option.some.inj h
    exact isNormal_concat hstack (hsegs last (by simp)) hdots
  | case6 stack seg next segs hseg ih =>
    exact ih hstack (fun s hs => hsegs s (List.mem_cons_of_mem seg hs)) (by simp) h
  | case7 => simp at h
  | case8 stack next segs hstack' hseg ih =>
    exact ih (fun s hs => hstack s (List.mem_of_mem_dropLast hs))
      (fun s hs => hsegs s (List.mem_cons_of_mem _ hs)) (by simp) h
  | case9 => simp at h
  | case10 stack seg next segs hseg hne' hdots ih =>
    have hseg' : seg ≠ [] ∧ seg ≠ [46] := by simpa using hseg
    refine ih (fun s hs => ?_) (fun s hs => hsegs s (List.mem_cons_of_mem _ hs)) (by simp) h
    rcases List.mem_append.mp hs with hs | hs
    · exact hstack s hs
    · rw [List.mem_singleton.mp hs]
      exact ⟨hsegs seg List.mem_cons_self, hseg'.1, hseg'.2, hdots⟩

theorem IsNormal.tail {seg next : Bytes} {segs : List Bytes} (h : IsNormal (seg :: next :: segs)) :
    IsNormal (next :: segs) where
  ne_nil := by simp
  kept s hs := h.kept s (by simp [List.dropLast, hs])
  slash s hs := h.slash s (List.mem_cons_of_mem seg hs)
  dots s hs := h.dots s (List.mem_cons_of_mem seg hs)

/-- The segments of a normal form are all kept. -/
theorem IsNormal.resolve {segs : List Bytes} (h : IsNormal segs) (stack : List Bytes) :
    resolve stack segs = some (stack ++ segs) := by
  induction segs generalizing stack with
  | nil => exact absurd rfl h.ne_nil
  | cons seg segs ih =>
    have hdots : ¬ [46, 46] <+: seg := h.dots seg List.mem_cons_self
    have hne : seg ≠ [46, 46] := by
      rintro rfl
      exact hdots List.prefix_rfl
    cases segs with
    | nil => simp [Http.resolve, hne, hdots]
    | cons next segs =>
      have hkept : Kept seg := h.kept seg (by simp [List.dropLast])
      rw [Http.resolve, if_neg (by simp [hkept.ne_nil, hkept.ne_dot]), if_neg hne, if_neg hdots, ih h.tail]
      simp

theorem IsNormal.pathSegments {segs : List Bytes} (h : IsNormal segs) :
    pathSegments (joinSegments segs) = segs :=
  List.splitOn_intercalate 47 h.slash h.ne_nil

theorem infix_of_append {seg rest : Bytes} (hseg : 47 ∉ seg) (h : [47, 47] <:+: seg ++ rest) :
    [47, 47] <:+: rest := by
  induction seg with
  | nil => exact h
  | cons c seg ih =>
    rw [List.cons_append, List.infix_cons_iff] at h
    rcases h with hpre | hmem
    · obtain rfl := (List.cons_prefix_cons.mp hpre).1
      simp at hseg
    · exact ih (by simp_all) hmem

/-- No two slashes stand side by side in the join of a normal form. -/
theorem IsNormal.slashes {segs : List Bytes} (h : IsNormal segs) : ¬ [47, 47] <:+: joinSegments segs := by
  induction segs with
  | nil => exact absurd rfl h.ne_nil
  | cons seg segs ih =>
    have hslash : 47 ∉ seg := h.slash seg List.mem_cons_self
    cases segs with
    | nil =>
      rw [joinSegments, List.intercalate_singleton, List.infix_cons_iff]
      rintro (hpre | hmem)
      · obtain ⟨c, hc⟩ := (List.cons_prefix_cons.mp hpre).2
        exact hslash (hc ▸ by simp)
      · exact hslash (hmem.subset (by simp))
    | cons next segs =>
      have hkept : Kept seg := h.kept seg (by simp [List.dropLast])
      have hjoin : joinSegments (seg :: next :: segs) = 47 :: (seg ++ joinSegments (next :: segs)) := by
        rw [joinSegments, List.intercalate_cons_cons, List.append_assoc]
        rfl
      rw [hjoin, List.infix_cons_iff]
      rintro (hpre | hmem)
      · obtain ⟨c, tail, rfl⟩ := List.exists_cons_of_ne_nil hkept.ne_nil
        obtain rfl := (List.cons_prefix_cons.mp (List.cons_prefix_cons.mp hpre).2).1
        simp at hslash
      · exact ih h.tail (infix_of_append hslash hmem)

end Stack

/-! ### The pointers -/

namespace PathCursor

/-- The loop of `sanitize_path` on a path, one turn at a time. -/
def machine (path : Bytes) : Machine PathCursor Unit where
  init s := s = ⟨path ++ [0], 0, 0, false⟩
  step s _ := s.step.bind Sum.getLeft?

/-- The cursors that the loop goes through. -/
def Reached (path : Bytes) (s : PathCursor) : Prop := (machine path).Reaches (fun _ _ => True) s

variable {s s' : PathCursor} {written rest : Bytes}

/-- What a cursor has written and has still to read. -/
structure Tracks (s : PathCursor) (written rest : Bytes) : Prop where
  sim : s.Sim written rest
  nul : 0 ∉ rest
  root : Rooted written rest

theorem Tracks.bounds (h : s.Tracks written rest) : s.w ≤ s.r ∧ s.r + rest.length + 1 = s.mem.length := by
  obtain ⟨gap, hmem, hw, hr, -⟩ := h.sim
  rw [hmem]
  simp only [List.length_append, List.length_cons, List.length_nil]
  omega

theorem Tracks.advance (front : Bytes) (hslash : endsInSlash written = true)
    (h : s.Tracks written (front ++ rest)) :
    ({ s with r := s.r + front.length } : PathCursor).Tracks written rest :=
  ⟨h.sim.advance front, fun h0 => h.nul (List.mem_append_right front h0),
    h.root.of_prefix List.prefix_rfl (ne_nil_of_endsInSlash hslash) rest⟩

theorem Tracks.copy {c : UInt8} (h : s.Tracks written (c :: rest)) :
    ∃ s', s.copy c = some (.inl s') ∧ s'.mem.length = s.mem.length ∧ s'.Tracks (written ++ [c]) rest := by
  obtain ⟨s', hcopy, hsim⟩ := h.sim.copy
  refine ⟨s', hcopy, ?_, hsim, fun h0 => h.nul (List.mem_cons_of_mem c h0), by simpa [Rooted] using h.root⟩
  obtain ⟨mem, hstore, hs'⟩ := Option.map_eq_some_iff.mp hcopy
  obtain rfl := Sum.inl.inj hs'
  exact length_of_store hstore

/-- The way back of the write pointer, with the read pointer behind the segment or before it. -/
theorem Tracks.pop (front : Bytes) (hslash : endsInSlash written = true)
    (h : s.Tracks written (front ++ rest)) (hlen : 1 < written.length) :
    ∃ w written', skipBack s.mem (s.w - 1) = some w ∧
      ({ s with r := s.r + front.length, w } : PathCursor).Tracks written' rest := by
  obtain ⟨hskip, hends, hroot, -, hsim⟩ := h.sim.pop hslash h.root hlen
  exact ⟨_, _, hskip, Tracks.advance front hends ⟨hsim, h.nul, hroot⟩⟩

/-- A turn of the loop that stays inside the string, and leads to a cursor of the same kind or
ends with the string in place. -/
def Stays (s : PathCursor) : Option (PathCursor ⊕ Int × Bytes) → Prop
  | none => False
  | some (.inl s') => s'.mem.length = s.mem.length ∧ ∃ written rest, s'.Tracks written rest
  | some (.inr (_, mem)) => mem.length = s.mem.length

theorem Tracks.stays_copy {c : UInt8} (h : s.Tracks written (c :: rest)) : s.Stays (s.copy c) := by
  obtain ⟨s', hcopy, hlen, htracks⟩ := h.copy
  rw [hcopy]
  exact ⟨hlen, _, _, htracks⟩

theorem Tracks.stays_pop (front rest : Bytes) (hslash : endsInSlash written = true)
    (h : s.Tracks written (front ++ rest)) :
    s.Stays (if 1 < s.w then
      (skipBack s.mem (s.w - 1)).map fun w => .inl { s with r := s.r + front.length, w }
      else some (.inr (-1, s.mem))) := by
  have hw : s.w = written.length := h.sim.choose_spec.2.1
  split_ifs with hlen
  · obtain ⟨w, written', hskip, htracks⟩ := h.pop front hslash (hw ▸ hlen)
    rw [hskip]
    exact ⟨rfl, _, _, htracks⟩
  · exact rfl

theorem Tracks.stays (h : s.Tracks written rest) : s.Stays s.step := by
  cases rest with
  | nil =>
    have h0 : s.mem[s.r]? = some 0 := h.sim.getElem? 0
    have hstore : store s.mem s.w [0] = some (s.mem.take s.w ++ [0] ++ s.mem.drop (s.w + 1)) := by
      refine store_eq_some.mpr ⟨?_, rfl⟩
      have := h.bounds
      simp only [List.length_nil, List.length_singleton] at this ⊢
      omega
    rw [step, h0, hstore]
    exact length_of_store hstore
  | cons c rest =>
    have hc : c ≠ 0 := fun hc => h.nul (by simp [hc])
    rw [h.sim.step_eq hc]
    by_cases hslash : endsInSlash written = true
    · by_cases hdup : c = 47
      · subst hdup
        rw [if_pos ⟨rfl, hslash⟩]
        exact ⟨rfl, _, _, Tracks.advance [47] hslash h⟩
      by_cases hdot : c = 46
      · subst hdot
        simp only [hslash, hdup, false_and, if_false, and_self, if_true]
        cases rest with
        | nil => simpa using h.stays_copy
        | cons c1 rest =>
          simp only [List.cons_append, List.getElem?_cons_zero, List.getElem?_cons_succ]
          by_cases hdot1 : c1 = 46
          · subst hdot1
            cases rest with
            | nil => simpa using h.stays_pop [46, 46] [] hslash
            | cons c2 rest =>
              by_cases hslash2 : c2 = 47
              · subst hslash2
                simpa using h.stays_pop [46, 46, 47] rest hslash
              · have hc2 : c2 ≠ 0 := fun hc2 => h.nul (by simp [hc2])
                simpa [hslash2, hc2] using h.stays_pop [] (46 :: 46 :: c2 :: rest) hslash
          · simp only [hdot1, if_false]
            by_cases hslash1 : c1 = 47
            · subst hslash1
              exact ⟨rfl, _, _, Tracks.advance [46, 47] hslash h⟩
            · simpa only [hslash1, if_false] using h.stays_copy
      · simpa only [hdup, hdot, and_false, false_and, if_false] using h.stays_copy
    · simpa only [hslash, Bool.false_eq_true, and_false, false_and, if_false] using h.stays_copy

/-- Every cursor of the loop reads and writes inside the string, the write pointer never ahead of
the read pointer. -/
theorem Reached.bounds {path : Bytes} (hslash : path.head? = some 47) (hnul : 0 ∉ path)
    (h : Reached path s) : s.step ≠ none ∧ s.w ≤ s.r ∧ s.r ≤ path.length := by
  have htracks : s.mem.length = path.length + 1 ∧ ∃ written rest, s.Tracks written rest := by
    refine Machine.Reaches.invariant (P := fun s => s.mem.length = path.length + 1 ∧
      ∃ written rest, s.Tracks written rest) ?_ ?_ h
    · rintro s rfl
      exact ⟨by simp, [], path, ⟨[], rfl, rfl, rfl, rfl⟩, hnul, hslash⟩
    · rintro s ⟨⟩ s' ⟨hlen, written, rest, htracks⟩ - hstep
      obtain ⟨x, hx, hleft⟩ := Option.bind_eq_some_iff.mp hstep
      rw [Sum.getLeft?_eq_some_iff] at hleft
      have hstays := htracks.stays
      rw [hx, hleft] at hstays
      exact ⟨hstays.1.trans hlen, hstays.2⟩
  obtain ⟨hlen, written, rest, htracks⟩ := htracks
  have hbounds := htracks.bounds
  refine ⟨fun hnone => ?_, hbounds.1, by omega⟩
  have hstays := htracks.stays
  rw [hnone] at hstays
  exact hstays

theorem Tracks.length_of_loop {fuel : Nat} {n : Int} {mem : Bytes} (h : s.Tracks written rest)
    (hloop : loop fuel s = some (n, mem)) : mem.length = s.mem.length := by
  induction fuel generalizing s written rest with
  | zero => cases hloop
  | succ fuel ih =>
    have hstays := h.stays
    rw [loop] at hloop
    cases hstep : s.step with
    | none => simp [hstep] at hloop
    | some x =>
      rw [hstep] at hloop hstays
      cases x with
      | inl s' =>
        obtain ⟨hlen, written', rest', htracks⟩ := hstays
        exact (ih htracks hloop).trans hlen
      | inr result =>
        obtain rfl := Option.some.inj hloop
        exact hstays

end PathCursor

theorem notMem_of_mem_splitOn {text seg : Bytes} (h : seg ∈ text.splitOn 47) : 47 ∉ seg := by
  induction text generalizing seg with
  | nil =>
    obtain rfl : seg = [] := by simpa using h
    simp
  | cons c text ih =>
    rw [List.splitOn_cons_eq_if_modifyHead] at h
    split_ifs at h with hc
    · rcases List.mem_cons.mp h with rfl | h
      · simp
      · exact ih h
    · obtain ⟨first, rest, hsplit⟩ := List.exists_cons_of_ne_nil (List.splitOn_ne_nil 47 text)
      rw [hsplit, List.modifyHead_cons, List.mem_cons] at h
      rcases h with rfl | h
      · have hfirst : 47 ∉ first := ih (by simp [hsplit])
        rw [List.mem_cons, not_or]
        exact ⟨fun heq => hc (by simp [← heq]), hfirst⟩
      · exact ih (by simp [hsplit, h])

theorem normalise_eq_resolve {path : Bytes} (hslash : path.head? = some 47) :
    normalise [] path = (resolve [] (pathSegments path)).map joinSegments := by
  cases path with
  | nil => simp at hslash
  | cons c rest =>
    obtain rfl : c = 47 := by simpa using hslash
    have hrest : [47].intercalate (rest.splitOn 47) = rest := List.intercalate_splitOn 47
    rw [normalise_copy rfl]
    conv_lhs => rw [← hrest]
    have hnil : ∀ seg ∈ ([] : List Bytes), 47 ∉ seg := by simp
    exact normalise_rendered hnil (fun _ => notMem_of_mem_splitOn) (List.splitOn_ne_nil _ _)

/-- A normal form is left as it is. -/
theorem sanitizePath_of_normal {segs : List Bytes} (h : IsNormal segs) (hnul : 0 ∉ joinSegments segs) :
    sanitizePath (joinSegments segs) = some (0, joinSegments segs ++ [0]) := by
  have hagrees := sanitizePath_agrees (show (joinSegments segs).head? = some 47 from rfl) hnul
  rw [normalise_eq_resolve rfl, h.pathSegments, h.resolve] at hagrees
  obtain ⟨tail, htail⟩ := hagrees
  have htracks : PathCursor.Tracks ⟨joinSegments segs ++ [0], 0, 0, false⟩ [] (joinSegments segs) :=
    ⟨⟨[], rfl, rfl, rfl, rfl⟩, hnul, rfl⟩
  have hlen := htracks.length_of_loop htail
  rw [List.nil_append] at htail hlen
  obtain rfl : tail = [] := by
    rw [← List.length_eq_zero_iff]
    simpa using hlen
  exact htail

/-- `sanitize_path` on a string that begins with a slash stays inside the string, with the write
pointer behind the read pointer. It refuses the path or leaves the normal form of its segments,
which it leaves alone when it meets it again. -/
theorem sanitizePath_resolves (path : Bytes) (hslash : path.head? = some 47) (hnul : 0 ∉ path) :
    (∀ s, PathCursor.Reached path s → s.step ≠ none ∧ s.w ≤ s.r ∧ s.r ≤ path.length) ∧
    match resolve [] (pathSegments path) with
    | none => ∃ mem, sanitizePath path = some (-1, mem)
    | some segs =>
      (∃ tail, sanitizePath path = some (0, joinSegments segs ++ 0 :: tail)) ∧
      (joinSegments segs).head? = some 47 ∧ ¬ [47, 47] <:+: joinSegments segs ∧
      (∀ seg ∈ pathSegments (joinSegments segs), ¬ [46, 46] <+: seg) ∧
      sanitizePath (joinSegments segs) = some (0, joinSegments segs ++ [0]) := by
  refine ⟨fun s h => h.bounds hslash hnul, ?_⟩
  have hagrees := sanitizePath_agrees hslash hnul
  have hspec := normalise_eq_resolve hslash
  cases hresolve : resolve [] (pathSegments path) with
  | none =>
    rw [hspec, hresolve] at hagrees
    exact hagrees
  | some segs =>
    rw [hresolve, Option.map_some] at hspec
    rw [hspec] at hagrees
    have hnormal : IsNormal segs :=
      isNormal_of_resolve (by simp) (fun _ => notMem_of_mem_splitOn) (List.splitOn_ne_nil _ _) hresolve
    refine ⟨hagrees, rfl, hnormal.slashes, ?_, ?_⟩
    · rw [hnormal.pathSegments]
      exact hnormal.dots
    · exact sanitizePath_of_normal hnormal (notMem_normalise (by simp) hnul hspec)

/-- "/a/./b/../c" is left as "/a/c". -/
theorem sanitizePath_resolves_dots :
    resolve [] (pathSegments [47, 97, 47, 46, 47, 98, 47, 46, 46, 47, 99]) = some [[97], [99]] ∧
      sanitizePath [47, 97, 47, 99] = some (0, [47, 97, 47, 99, 0]) := by
  have hresolve : resolve [] (pathSegments [47, 97, 47, 46, 47, 98, 47, 46, 46, 47, 99]) = some [[97], [99]] := by
    decide
  have hspec := (sanitizePath_resolves [47, 97, 47, 46, 47, 98, 47, 46, 46, 47, 99] (by decide) (by decide)).2
  rw [hresolve] at hspec
  exact ⟨hresolve, hspec.2.2.2.2⟩

end Latypus.Http
