import Latypus.Lib.Search
import Latypus.Http.Message

/-! `url` of url.cc: a string is cut at its first "://", at the first slash behind that, and at the last
colon of what is between; the port is left out where it is the scheme's own. -/

namespace Latypus.Net
open Lib
open Http (Bytes decimal)

/-- `atoi`, which is `strtol` narrowed to an `int`. -/
def atoi (str : Bytes) : Int := (max (-2 ^ 63) (min (Http.atoi str) (2 ^ 63 - 1))).bmod (2 ^ 32)

theorem atoi_bounds (str : Bytes) : -2 ^ 31 ≤ atoi str ∧ atoi str < 2 ^ 31 := by
  unfold atoi
  generalize max (-2 ^ 63) (min (Http.atoi str) (2 ^ 63 - 1)) = n
  have hle := Int.le_bmod (x := n) (m := 2 ^ 32) (by decide)
  have hlt := Int.bmod_lt (x := n) (m := 2 ^ 32) (by decide)
  omega

/-- A number that is printed is a minus sign, if any, and digits. -/
theorem mem_decimal {n : Int} {c : UInt8} (hc : c ∈ decimal n) : c = 45 ∨ Http.isDigit c = true := by
  obtain ⟨ds, hds, -, hdigits, -⟩ := Http.toDigits_bytes n.natAbs
  unfold decimal at hc
  rw [← hds] at hc
  split_ifs at hc
  · rcases List.mem_cons.mp hc with rfl | hc
    · exact .inl rfl
    · exact .inr (hdigits c hc)
  · exact .inr (hdigits c hc)

/-- An `int` is read back as it was printed. -/
theorem atoi_decimal {n : Int} (hlow : -2 ^ 31 ≤ n) (hhigh : n < 2 ^ 31) : atoi (decimal n) = n := by
  have hatoi : Http.atoi (decimal n) = n := by
    by_cases hn : 0 ≤ n
    · exact (Http.decimal_spec hn).2.2
    · obtain ⟨ds, hds, -, hdigits, hvalue⟩ := Http.toDigits_bytes n.natAbs
      have hdecimal : decimal n = 45 :: ds := by
        unfold decimal
        rw [← hds]
        exact if_pos (Int.not_le.mp hn)
      rw [hdecimal, Http.atoi, List.dropWhile_cons_of_neg (by decide)]
      change -(Http.digitsValue ds : Int) = n
      rw [Http.digitsValue, List.takeWhile_eq_self_iff.mpr hdigits, hvalue]
      omega
  rw [atoi, hatoi, Int.min_eq_left (by omega), Int.max_eq_right (by omega)]
  exact Int.bmod_eq_of_le (by omega) (by omega)

structure Url where
  scheme : Bytes
  host : Bytes
  path : Bytes
  port : Int
  valid : Bool
deriving DecidableEq, Repr

namespace Url

/-- "://" -/
def schemeEnd : Bytes := [58, 47, 47]

/-- "http" -/
def http : Bytes := [104, 116, 116, 112]

/-- "https" -/
def https : Bytes := [104, 116, 116, 112, 115]

/-- The second half of the constructor, on the part between the scheme and the path. -/
def ofParts (scheme hostPort path : Bytes) : Url :=
  match findLast 58 hostPort with
  | none => ⟨scheme, hostPort, path, if scheme = http then 80 else if scheme = https then 443 else 0, true⟩
  | some hostColonPos =>
    ⟨scheme, hostPort.take hostColonPos, path, atoi (hostPort.drop (hostColonPos + 1)), true⟩

/-- The constructor. -/
def parse (urlString : Bytes) : Url :=
  match find schemeEnd urlString with
  | none => ⟨[], [], [], 0, false⟩
  | some schemePos =>
    let hostPortPath := urlString.drop (schemePos + 3)
    match hostPortPath.idxOf? 47 with
    | none => ⟨urlString.take schemePos, [], [], 0, false⟩
    | some hostPortPos =>
      ofParts (urlString.take schemePos) (hostPortPath.take hostPortPos) (hostPortPath.drop hostPortPos)

/-- The port is the one that printing leaves out. -/
def HasDefaultPort (scheme : Bytes) (port : Int) : Prop :=
  (scheme = http ∧ port = 80) ∨ (scheme = https ∧ port = 443)

instance (scheme : Bytes) (port : Int) : Decidable (HasDefaultPort scheme port) :=
  inferInstanceAs (Decidable (_ ∨ _))

def toString (u : Url) : Bytes :=
  if u.valid then
    u.scheme ++ schemeEnd ++ u.host ++
      (if HasDefaultPort u.scheme u.port then [] else 58 :: decimal u.port) ++
      u.path
  else []

/-- The string has these three parts. -/
structure Splits (s scheme hostPort path : Bytes) : Prop where
  text : s = scheme ++ schemeEnd ++ (hostPort ++ path)
  first : ∀ j < scheme.length, ¬schemeEnd <+: (scheme ++ schemeEnd).drop j
  noSlash : 47 ∉ hostPort
  slash : path.head? = some 47

section Splits
variable {s scheme hostPort host port path : Bytes}

theorem Splits.parse_eq (h : Splits s scheme hostPort path) : parse s = ofParts scheme hostPort path := by
  have hscheme : find schemeEnd s = some scheme.length :=
    find_eq_some_iff_append.mpr ⟨scheme, hostPort ++ path, h.text, rfl, h.first⟩
  have htake : s.take scheme.length = scheme := by
    rw [h.text, List.append_assoc, List.take_left]
  have hdrop : s.drop (scheme.length + 3) = hostPort ++ path := by
    rw [h.text]
    exact List.drop_left' (by simp [schemeEnd])
  obtain ⟨rest, hpath⟩ := List.head?_eq_some_iff.mp h.slash
  have hslash : (hostPort ++ path).idxOf? 47 = some hostPort.length :=
    idxOf?_eq_some_iff_append.mpr ⟨hostPort, rest, by rw [hpath], h.noSlash, rfl⟩
  unfold parse
  rw [hscheme]
  dsimp only
  rw [htake, hdrop, hslash]
  dsimp only
  rw [List.take_left, List.drop_left]

theorem ofParts_valid (scheme hostPort path : Bytes) : (ofParts scheme hostPort path).valid = true := by
  unfold ofParts
  split <;> rfl

/-- A string is valid when it has the three parts. -/
theorem exists_splits (h : (parse s).valid = true) : ∃ scheme hostPort path, Splits s scheme hostPort path := by
  unfold parse at h
  cases hscheme : find schemeEnd s with
  | none =>
    rw [hscheme] at h
    cases h
  | some schemePos =>
    obtain ⟨scheme, rest, rfl, rfl, hfirst⟩ := find_eq_some_iff_append.mp hscheme
    rw [hscheme] at h
    dsimp only at h
    have hdrop : (scheme ++ schemeEnd ++ rest).drop (scheme.length + 3) = rest := List.drop_left' (by simp [schemeEnd])
    rw [hdrop] at h
    cases hslash : rest.idxOf? 47 with
    | none =>
      rw [hslash] at h
      cases h
    | some hostPortPos =>
      obtain ⟨hostPort, path, rfl, hno, -⟩ := idxOf?_eq_some_iff_append.mp hslash
      exact ⟨scheme, hostPort, 47 :: path, rfl, hfirst, hno, rfl⟩

/-- What is behind the last colon is the port. -/
theorem ofParts_colon (hport : 58 ∉ port) :
    ofParts scheme (host ++ 58 :: port) path = ⟨scheme, host, path, atoi port, true⟩ := by
  unfold ofParts
  rw [findLast_append_cons hport]
  dsimp only
  rw [List.take_left, ← List.drop_drop, List.drop_left]
  rfl

theorem ofParts_noColon (hhost : 58 ∉ host) : ofParts scheme host path =
    ⟨scheme, host, path, if scheme = http then 80 else if scheme = https then 443 else 0, true⟩ := by
  unfold ofParts
  rw [findLast_eq_none_iff.mpr hhost]

end Splits

/-! ### Printing -/

/-- The string gives the port of its scheme behind a host that has a colon itself. -/
def HidesColon (s : Bytes) : Prop :=
  ∃ scheme host port path, Splits s scheme (host ++ 58 :: port) path ∧ 58 ∉ port ∧ 58 ∈ host ∧
    HasDefaultPort scheme (atoi port)

/-- Parsing what is printed gives a valid URL with the same parts. -/
def Stable (s : Bytes) : Prop :=
  (parse (parse s).toString).valid = true ∧ (parse (parse s).toString).scheme = (parse s).scheme ∧
    (parse (parse s).toString).host = (parse s).host ∧ (parse (parse s).toString).port = (parse s).port ∧
    (parse (parse s).toString).path = (parse s).path

instance (s : Bytes) : Decidable (Stable s) := inferInstanceAs (Decidable (_ ∧ _))

theorem stable_of_eq {s : Bytes} (hvalid : (parse s).valid = true) (h : parse (parse s).toString = parse s) :
    Stable s := by
  unfold Stable
  rw [h]
  exact ⟨hvalid, rfl, rfl, rfl, rfl⟩

section Printing
variable {s scheme hostPort host path : Bytes} {port : Int}

theorem Splits.withHost (h : Splits s scheme hostPort path) (hhost : 47 ∉ host) :
    Splits (scheme ++ schemeEnd ++ (host ++ path)) scheme host path :=
  ⟨rfl, h.first, hhost, h.slash⟩

theorem toString_of_default (h : HasDefaultPort scheme port) :
    (Url.mk scheme host path port true).toString = scheme ++ schemeEnd ++ (host ++ path) := by
  unfold toString
  dsimp only
  rw [if_pos rfl, if_pos h]
  simp only [List.append_nil, List.append_assoc]

theorem toString_of_not_default (h : ¬HasDefaultPort scheme port) :
    (Url.mk scheme host path port true).toString =
      scheme ++ schemeEnd ++ ((host ++ 58 :: decimal port) ++ path) := by
  unfold toString
  dsimp only
  rw [if_pos rfl, if_neg h]
  simp only [List.append_assoc]

/-- A URL whose port is printed is read back. -/
theorem parse_toString (hs : Splits s scheme hostPort path) (hhost : 47 ∉ host) (hlow : -2 ^ 31 ≤ port)
    (hhigh : port < 2 ^ 31) (h : ¬HasDefaultPort scheme port) :
    parse (Url.mk scheme host path port true).toString = ⟨scheme, host, path, port, true⟩ := by
  have hnot : ∀ c : UInt8, c ≠ 45 → Http.isDigit c = false → c ∉ decimal port := by
    intro c hne hdigit hmem
    rcases mem_decimal hmem with rfl | hc
    · exact hne rfl
    · rw [hdigit] at hc
      cases hc
  have hslash : (47 : UInt8) ∉ host ++ 58 :: decimal port := by
    simp [hhost, hnot 47 (by decide) (by decide)]
  rw [toString_of_not_default h, (hs.withHost hslash).parse_eq, ofParts_colon (hnot 58 (by decide) (by decide)),
    atoi_decimal hlow hhigh]

/-- A URL whose port is left out is read back when the host has no colon. -/
theorem parse_toString_default (hs : Splits s scheme hostPort path) (hhost : 47 ∉ host) (hcolon : 58 ∉ host)
    (h : HasDefaultPort scheme port) :
    parse (Url.mk scheme host path port true).toString = ⟨scheme, host, path, port, true⟩ := by
  rw [toString_of_default h, (hs.withHost hhost).parse_eq, ofParts_noColon hcolon]
  rcases h with ⟨rfl, rfl⟩ | ⟨rfl, rfl⟩
  · rw [if_pos rfl]
  · rw [if_neg (by decide), if_pos rfl]

/-- Where the host has a colon, it is cut there. -/
theorem host_ne_of_hidesColon (hs : Splits s scheme hostPort path) (hhost : 47 ∉ host) (hcolon : 58 ∈ host)
    (h : HasDefaultPort scheme port) : (parse (Url.mk scheme host path port true).toString).host ≠ host := by
  rw [toString_of_default h, (hs.withHost hhost).parse_eq]
  obtain ⟨l, r, rfl, hr⟩ := exists_eq_append_cons_of_mem hcolon
  rw [ofParts_colon hr]
  exact fun heq => absurd (List.append_right_eq_self.mp heq.symm) (List.cons_ne_nil 58 r)

end Printing

theorem HidesColon.mem_host {s : Bytes} (h : HidesColon s) : 58 ∈ (parse s).host := by
  obtain ⟨scheme, host, port, path, hs, hport, hcolon, -⟩ := h
  rw [hs.parse_eq, ofParts_colon hport]
  exact hcolon

/-- A valid URL is stable under printing unless its host has a colon and its port is left out. -/
theorem stable_iff {s : Bytes} (h : (parse s).valid = true) : Stable s ↔ ¬HidesColon s := by
  constructor
  · rintro ⟨-, -, hhost, -⟩ ⟨scheme, host, port, path, hs, hport, hcolon, hdefault⟩
    rw [hs.parse_eq, ofParts_colon hport] at hhost
    have hslash : 47 ∉ host := fun hmem => hs.noSlash (List.mem_append_left _ hmem)
    exact host_ne_of_hidesColon hs hslash hcolon hdefault hhost
  · intro hnot
    obtain ⟨scheme, hostPort, path, hs⟩ := exists_splits h
    have hslash := hs.noSlash
    refine stable_of_eq h ?_
    rw [hs.parse_eq]
    by_cases hmem : 58 ∈ hostPort
    · obtain ⟨host, port, rfl, hport⟩ := exists_eq_append_cons_of_mem hmem
      have hhost : 47 ∉ host := fun hmem => hslash (List.mem_append_left _ hmem)
      obtain ⟨hlow, hhigh⟩ := atoi_bounds port
      rw [ofParts_colon hport]
      by_cases hdefault : HasDefaultPort scheme (atoi port)
      · have hcolon : 58 ∉ host := fun hcolon => hnot ⟨scheme, host, port, path, hs, hport, hcolon, hdefault⟩
        rw [parse_toString_default hs hhost hcolon hdefault]
      · rw [parse_toString hs hhost hlow hhigh hdefault]
    · rw [ofParts_noColon hmem]
      -- the port is the default, or 0 for a scheme that has none
      by_cases hhttp : scheme = http
      · rw [if_pos hhttp, parse_toString_default hs hslash hmem (.inl ⟨hhttp, rfl⟩)]
      · by_cases hhttps : scheme = https
        · rw [if_neg hhttp, if_pos hhttps, parse_toString_default hs hslash hmem (.inr ⟨hhttps, rfl⟩)]
        · have hnone : ¬HasDefaultPort scheme 0 := by simp [HasDefaultPort]
          rw [if_neg hhttp, if_neg hhttps, parse_toString hs hslash (by decide) (by decide) hnone]

/-- "https://a:444/" -/
def portUrl : Bytes := https ++ schemeEnd ++ [97, 58, 52, 52, 52, 47]

/-- "http://[::1]:80/" -/
def addressUrl : Bytes := http ++ schemeEnd ++ [91, 58, 58, 49, 93, 58, 56, 48, 47]

/-- The port is printed. -/
theorem stable_portUrl : (parse portUrl).valid = true ∧ Stable portUrl := by
  refine ⟨by decide, (stable_iff (by decide)).mpr fun h => ?_⟩
  have hcolon := h.mem_host
  revert hcolon
  decide

/-- The host and the port of what is printed are "[:" and 1. -/
theorem not_stable_addressUrl : (parse addressUrl).valid = true ∧ ¬Stable addressUrl := by
  decide

end Url
end Latypus.Net
