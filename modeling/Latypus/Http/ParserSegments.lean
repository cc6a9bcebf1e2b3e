import Latypus.Http.Parser
import Latypus.Lib.Scanner

/-! The parser does not see how its input is cut into chunks. `parse` is a run of a scanner
whose only output that depends on the end of the chunk is the length of the body start. -/

namespace Latypus.Http
open Lib

/-- The callback with the body counted up to `f q`, where `q` is the position of the last byte
of the head. -/
def Callback.endAt (f : Nat → Nat) : Callback → Callback
  | .setBodyStart ⟨some q, _⟩ => .setBodyStart ⟨some q, f (q - 1) - q⟩
  | cb => cb

namespace HttpParser

/-- Feeding consecutive chunks, the first at position `buf`, until the parser has finished or
failed. -/
def parseChunks : HttpParser → Nat → List (List UInt8) → HttpParser × List Callback
  | s, _, [] => (s, [])
  | s, buf, c :: cs =>
    if s.isFinished || s.hasError then (s, [])
    else
      let (s, cbs) := s.parse buf c
      let (s, cbs') := parseChunks s (buf + c.length) cs
      (s, cbs ++ cbs')

/-- The end of the chunk that holds position `q`, of chunks that start at `buf`. -/
def chunkEnd : Nat → List (List UInt8) → Nat → Nat
  | buf, [], _ => buf
  | buf, c :: cs, q => if q < buf + c.length then buf + c.length else chunkEnd (buf + c.length) cs q

/-- A transition ends the parse exactly when it leads to the final state. -/
theorem done_mem_transActs (t : Nat) : 16 ∈ transActs t ↔ transTarg t = firstFinal := by
  have htable : ∀ t < 101, 16 ∈ transActs t ↔ transTarg t = firstFinal := by decide +kernel
  by_cases ht : t < 101
  · exact htable t ht
  · have hactions : Table.transActions.getD t 0 = 0 :=
      List.getD_eq_default _ _ ((show Table.transActions.length = 101 by decide +kernel).trans_le
        (not_lt.mp ht))
    have htargs : Table.transTargs.getD t 0 = 0 :=
      List.getD_eq_default _ _ ((show Table.transTargs.length = 101 by decide +kernel).trans_le
        (not_lt.mp ht))
    simp only [transActs, transTarg, hactions, htargs]
    decide

def scanner : Scanner HttpParser UInt8 Callback where
  step s p c :=
    let r := actionLoop 0 p { s with cs := transTarg (trans s.cs c) } (transActs (trans s.cs c))
    (r.1, r.2.1)
  stops s := s.isFinished || s.hasError
  takes s := s.isFinished

theorem action_cs (pe p : Nat) (s : HttpParser) (a : Nat) : (action pe p s a).1.cs = s.cs := by
  unfold action
  split <;> rfl

theorem actionLoop_cs (pe p : Nat) (s : HttpParser) (as : List Nat) :
    (actionLoop pe p s as).1.cs = s.cs := by
  induction as generalizing s with
  | nil => rfl
  | cons a as ih =>
    simp only [actionLoop]
    split_ifs
    · exact action_cs pe p s a
    · exact (ih _).trans (action_cs pe p s a)

theorem actionLoop_brk (pe p : Nat) (s : HttpParser) (as : List Nat) :
    (actionLoop pe p s as).2.2 = true ↔ 16 ∈ as := by
  induction as generalizing s with
  | nil => simp [actionLoop]
  | cons a as ih =>
    simp only [actionLoop]
    split_ifs with ha
    · simp [ha]
    · simp [ih, Ne.symm ha]

theorem action_pe (pe p : Nat) (s : HttpParser) (a : Nat) :
    action pe p s a = ((action 0 p s a).1, (action 0 p s a).2.map (Callback.endAt fun _ => pe)) := by
  unfold action
  split <;> rfl

theorem actionLoop_pe (pe p : Nat) (s : HttpParser) (as : List Nat) :
    actionLoop pe p s as = ((actionLoop 0 p s as).1,
      (actionLoop 0 p s as).2.1.map (Callback.endAt fun _ => pe), (actionLoop 0 p s as).2.2) := by
  induction as generalizing s with
  | nil => rfl
  | cons a as ih =>
    simp only [actionLoop, action_pe pe p s a, ih (action 0 p s a).1]
    split_ifs <;> simp

/-- The loop of the source is the scanner, its callbacks completed with the end of the
chunk. -/
theorem exec_eq_scan (pe : Nat) (bytes : List UInt8) (p : Nat) (s : HttpParser)
    (hs : scanner.stops s = false) :
    exec pe bytes p s =
      let r := scanner.scan bytes p s
      (r.1, r.2.1, r.2.2.map (Callback.endAt fun _ => pe)) := by
  induction bytes generalizing p s with
  | nil => rfl
  | cons c rest ih =>
    set t := trans s.cs c with ht
    have hstep : scanner.step s p c =
        ((actionLoop 0 p { s with cs := transTarg t } (transActs t)).1,
          (actionLoop 0 p { s with cs := transTarg t } (transActs t)).2.1) := rfl
    have hcs := actionLoop_cs 0 p { s with cs := transTarg t } (transActs t)
    have hbrk := (actionLoop_brk 0 p { s with cs := transTarg t } (transActs t)).trans
      (done_mem_transActs t)
    simp only [exec, Scanner.scan, hs, Bool.false_eq_true, if_false, hstep, ← ht]
    rw [actionLoop_pe]
    set r := actionLoop 0 p { s with cs := transTarg t } (transActs t) with hr
    simp only at hcs
    by_cases hfin : transTarg t = firstFinal
    · have h1 : r.2.2 = true := hbrk.mpr hfin
      have h2 : r.1.isFinished = true := by simp [isFinished, hcs, hfin]
      simp [h1, scanner, h2]
    · have h1 : r.2.2 = false := by simpa [hfin] using hbrk
      have h2 : r.1.isFinished = false := by simp [isFinished, hcs, hfin]
      by_cases herr : r.1.cs = error
      · have h3 : r.1.hasError = true := by simp [hasError, herr]
        simp [h1, scanner, h2, h3, herr]
      · have h3 : r.1.hasError = false := by simp [hasError, herr]
        have hns : scanner.stops r.1 = false := by simp [scanner, h2, h3]
        simp [h1, herr, hns, ih (p + 1) r.1 hns]

theorem action_nread (pe p n : Nat) (s : HttpParser) (a : Nat) :
    action pe p { s with nread := n } a =
      ({ (action pe p s a).1 with nread := n }, (action pe p s a).2) := by
  unfold action
  split <;> rfl

theorem actionLoop_nread (pe p n : Nat) (s : HttpParser) (as : List Nat) :
    actionLoop pe p { s with nread := n } as =
      ({ (actionLoop pe p s as).1 with nread := n }, (actionLoop pe p s as).2) := by
  induction as generalizing s with
  | nil => rfl
  | cons a as ih =>
    simp only [actionLoop, action_nread pe p n s a, ih (action pe p s a).1]
    split_ifs <;> rfl

/-- The byte count plays no part in the scan. -/
theorem scan_nread (bytes : List UInt8) (p n : Nat) (s : HttpParser) :
    scanner.scan bytes p { s with nread := n } =
      ({ (scanner.scan bytes p s).1 with nread := n }, (scanner.scan bytes p s).2) := by
  induction bytes generalizing p s with
  | nil => rfl
  | cons c rest ih =>
    have hstops (s : HttpParser) : scanner.stops { s with nread := n } = scanner.stops s := rfl
    have htakes (s : HttpParser) : scanner.takes { s with nread := n } = scanner.takes s := rfl
    have hstep : scanner.step { s with nread := n } p c =
        ({ (scanner.step s p c).1 with nread := n }, (scanner.step s p c).2) := by
      simp only [scanner, actionLoop_nread 0 p n { s with cs := transTarg (trans s.cs c) }]
    simp only [Scanner.scan, hstops, hstep, htakes, ih]
    split_ifs <;> rfl

theorem parse_eq_scan {s : HttpParser} (hs : scanner.stops s = false) (buf : Nat)
    (bytes : List UInt8) :
    s.parse buf bytes =
      let r := scanner.scan bytes buf s
      ({ r.1 with nread := s.nread + (r.2.1 - buf) },
        r.2.2.map (Callback.endAt fun _ => buf + bytes.length)) := by
  have herr : s.cs ≠ error := by
    intro h
    simp [scanner, hasError, h] at hs
  cases bytes with
  | nil => simp [parse, Scanner.scan]
  | cons c rest =>
    rw [parse, if_neg (by simp [herr]), exec_eq_scan _ _ _ _ hs]

/-- The position in a body start is one past the byte that ended the head. -/
def BodyAt (p : Nat) (cb : Callback) : Prop := ∀ q l, cb = .setBodyStart ⟨some q, l⟩ → q = p + 1

theorem bodyAt_actionLoop (p : Nat) (s : HttpParser) (as : List Nat) :
    ∀ cb ∈ (actionLoop 0 p s as).2.1, BodyAt p cb := by
  have haction (s : HttpParser) (a : Nat) : ∀ cb ∈ (action 0 p s a).2, BodyAt p cb := by
    unfold action
    split <;> simp [BodyAt]
  induction as generalizing s with
  | nil => simp [actionLoop]
  | cons a as ih =>
    intro cb hcb
    simp only [actionLoop] at hcb
    split_ifs at hcb
    · exact haction s a cb hcb
    · rcases List.mem_append.mp hcb with h | h
      · exact haction s a cb h
      · exact ih _ cb h

theorem endAt_congr {f g : Nat → Nat} {bytes : List UInt8} {buf : Nat} (s : HttpParser)
    (h : ∀ q, buf ≤ q → q < buf + bytes.length → f q = g q) :
    (scanner.scan bytes buf s).2.2.map (Callback.endAt f) =
      (scanner.scan bytes buf s).2.2.map (Callback.endAt g) := by
  refine List.map_congr_left fun cb hcb => ?_
  obtain ⟨p, hp, hp', hbody⟩ := scanner.forall_output (P := BodyAt)
    (fun s p c => bodyAt_actionLoop p _ _) bytes buf s cb hcb
  match cb with
  | .setBodyStart ⟨some q, l⟩ =>
    obtain rfl := hbody q l rfl
    simp [Callback.endAt, h p hp hp']
  | .setBodyStart ⟨none, _⟩ | .setParseType _ | .setHeaderField _ _ | .setRequestMethod _
  | .setRequestUri _ | .setFragment _ | .setRequestPath _ | .setQueryString _ | .setHttpVersion _
  | .setReasonPhrase _ | .setStatusCode _ => rfl

theorem parseChunks_eq_scan (chunks : List (List UInt8)) (s : HttpParser) (buf : Nat) :
    s.parseChunks buf chunks =
      let r := scanner.scan chunks.flatten buf s
      ({ r.1 with nread := s.nread + (r.2.1 - buf) },
        r.2.2.map (Callback.endAt (chunkEnd buf chunks))) := by
  induction chunks generalizing s buf with
  | nil => simp [parseChunks, Scanner.scan]
  | cons c cs ih =>
    cases hs : scanner.stops s with
    | true =>
      have hs' : (s.isFinished || s.hasError) = true := hs
      simp [parseChunks, hs', Scanner.scan_of_stops, hs]
    | false =>
      have hs' : (s.isFinished || s.hasError) = false := hs
      have hle := scanner.le_pos c buf s
      rw [List.flatten_cons, Scanner.scan_append]
      simp only [parseChunks, hs', Bool.false_eq_true, if_false, parse_eq_scan hs, ih, scan_nread]
      set r := scanner.scan c buf s with hr
      -- the callbacks of this chunk, then those of the chunks behind it
      have hhere : r.2.2.map (Callback.endAt fun _ => buf + c.length) =
          r.2.2.map (Callback.endAt (chunkEnd buf (c :: cs))) :=
        endAt_congr s fun q _ hq => by rw [chunkEnd, if_pos hq]
      have hbehind : (scanner.scan cs.flatten (buf + c.length) r.1).2.2.map
            (Callback.endAt (chunkEnd (buf + c.length) cs)) =
          (scanner.scan cs.flatten (buf + c.length) r.1).2.2.map
            (Callback.endAt (chunkEnd buf (c :: cs))) :=
        endAt_congr r.1 fun q hq _ => by rw [chunkEnd, if_neg (by omega)]
      cases ht : scanner.stops r.1 with
      | true =>
        simp [Scanner.scan_of_stops _ ht, hhere]
      | false =>
        have hpos : r.2.1 = buf + c.length := scanner.pos_of_not_stops ht
        have hle' := scanner.le_pos cs.flatten (buf + c.length) r.1
        rw [hpos, List.map_append, hhere, hbehind]
        simp only [Prod.mk.injEq, and_true, HttpParser.mk.injEq, true_and]
        omega

theorem endAt_endAt (f g : Nat → Nat) (cb : Callback) : (cb.endAt g).endAt f = cb.endAt f := by
  match cb with
  | .setBodyStart ⟨some q, l⟩ => rfl
  | .setBodyStart ⟨none, _⟩ | .setParseType _ | .setHeaderField _ _ | .setRequestMethod _
  | .setRequestUri _ | .setFragment _ | .setRequestPath _ | .setQueryString _
  | .setHttpVersion _ | .setReasonPhrase _ | .setStatusCode _ => rfl

/-- Segmentation independence: however the input is cut, the parser ends in the same state,
with the same count of bytes read and the same callbacks on the same slices, the body start
counted to the end of the chunk that holds the end of the head. -/
theorem parseChunks_eq_parse (base : Nat) (chunks : List (List UInt8)) :
    reset.parseChunks base chunks = ((reset.parse base chunks.flatten).1,
      (reset.parse base chunks.flatten).2.map (Callback.endAt (chunkEnd base chunks))) := by
  have hs : scanner.stops reset = false := rfl
  rw [parse_eq_scan hs, parseChunks_eq_scan]
  simp [Function.comp_def, endAt_endAt]

end HttpParser
end Latypus.Http
