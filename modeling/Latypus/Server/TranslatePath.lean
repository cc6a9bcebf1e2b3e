import Latypus.Http.SanitizePath
import Latypus.Lib.Search
import Latypus.Server.Trie

/-! `translate_path`: the virtual host by the Host header, the location by the longest prefix of
the request path, and the path behind the prefix joined to the root of the location. The
sanitised path has no `..` segment, but the prefix may end inside a segment, and what remains of
that segment is a segment of the translated path. -/

namespace Latypus.Server
open Lib Http

structure Location where
  uri : Bytes
  root : Bytes
  /-- The name of the handler factory, if there is one. -/
  handlerFactory : Option Bytes
deriving DecidableEq, Repr

/-- The trie that `engine_init` fills with the locations of a virtual host. -/
def buildTrie (locations : List Location) : Option (TrieNode (Option Location)) :=
  locations.foldlM (fun t location => t.insert none location.uri (some location)) (.empty none)

structure Vhost where
  locationList : List Location
  locationTrie : TrieNode (Option Location)
  locationTrie_eq : buildTrie locationList = some locationTrie

/-- "default" -/
def defaultName : Bytes := [100, 101, 102, 97, 117, 108, 116]

/-- The name of the server that the Host header asks for. -/
def serverName : Option Bytes → Bytes
  | none => defaultName
  | some host => (cString host).takeWhile (· ≠ 58)

/-- `lookup_vhost`; `none` stands for the fatal exit. -/
def lookupVhost (vhostMap : List (Bytes × Vhost)) (name : Bytes) : Option Vhost :=
  match vhostMap.lookup name with
  | some vhost => some vhost
  | none => vhostMap.lookup defaultName

structure Translated where
  location : Location
  handler : Bytes
  pathTranslated : Bytes
deriving DecidableEq, Repr

/-- The string at an offset into a path. -/
def pathFrom (path : Bytes) (n : Nat) : Option Bytes :=
  if n ≤ path.length then some (path.drop n) else none

/-- The join of a root and the path behind the prefix: a slash is put between the two when
neither brings one. -/
def joinRoot (root partialPath : Bytes) : Bytes :=
  if 0 < root.length ∧ root.getLast? ≠ some 47 ∧ partialPath.head? ≠ some 47 then
    root ++ [47] ++ partialPath
  else root ++ partialPath

/-- `translate_path` on a request path without its terminator; `none` stands for a null pointer
or an access outside the path. -/
def translatePath (vhostMap : List (Bytes × Vhost)) (hostHeader : Option Bytes) (requestPath : Bytes) :
    Option Translated := do
  let vhost ← lookupVhost vhostMap (serverName hostHeader)
  let (uri, value) ← vhost.locationTrie.findNearest none Option.isSome requestPath
  let location ← value
  let partialPath ← pathFrom requestPath uri.length
  let handler ← location.handlerFactory
  return ⟨location, handler, joinRoot location.root partialPath⟩

def segments (path : Bytes) : List Bytes := path.splitOn 47

/-- The translated path stays below the root: behind the root no segment is `..`. -/
def Contained (root path : Bytes) : Prop := ∃ rest, path = root ++ rest ∧ [46, 46] ∉ segments rest

section Segments
variable {path : Bytes}

theorem segments_cons (c : UInt8) (path : Bytes) :
    segments (c :: path) =
      if c = 47 then [] :: segments path else (segments path).modifyHead (c :: ·) := by
  rw [segments, List.splitOn_cons_eq_if_modifyHead]
  simp [segments]

theorem segments_eq_cons (path : Bytes) :
    ∃ tail, segments path = path.takeWhile (· ≠ 47) :: tail ∧ ∀ seg ∈ tail, 47 :: seg <:+: path := by
  induction path with
  | nil => exact ⟨[], by simp [segments], by simp⟩
  | cons c path ih =>
    obtain ⟨tail, htail, hsegs⟩ := ih
    by_cases hc : c = 47
    · refine ⟨segments path, by simp [segments_cons, hc], fun seg hseg => ?_⟩
      rw [htail, List.mem_cons] at hseg
      rcases hseg with rfl | hseg
      · rw [hc]
        exact (List.cons_prefix_cons.mpr ⟨rfl, List.takeWhile_prefix _⟩).isInfix
      · exact List.infix_cons (hsegs seg hseg)
    · refine ⟨tail, by simp [segments_cons, hc, htail], fun seg hseg => ?_⟩
      exact List.infix_cons (hsegs seg hseg)

/-- In a clean path only the first segment can be `..`. -/
theorem dotdot_mem_segments_iff (h : Clean path) :
    [46, 46] ∈ segments path ↔ path.takeWhile (· ≠ 47) = [46, 46] := by
  obtain ⟨tail, htail, hsegs⟩ := segments_eq_cons path
  rw [htail, List.mem_cons]
  constructor
  · rintro (heq | hmem)
    · exact heq.symm
    · exact absurd (hsegs _ hmem) h
  · intro heq
    exact .inl heq.symm

end Segments

/-- Every entry of the trie is empty or a location under its own uri. -/
theorem entry_of_buildTrie {locations : List Location} {t : TrieNode (Option Location)}
    (h : buildTrie locations = some t) {key uri : Bytes} {location : Location}
    (he : t.entryAt key = some (uri, some location)) :
    location ∈ locations ∧ uri = location.uri := by
  have hall (locations' : List Location) (t₀ t : TrieNode (Option Location))
      (hfold : locations'.foldlM (fun t location => t.insert none location.uri (some location)) t₀ =
        some t) (he : t.entryAt key = some (uri, some location)) :
      (location ∈ locations' ∧ uri = location.uri) ∨ t₀.entryAt key = some (uri, some location) := by
    induction locations' generalizing t₀ with
    | nil =>
      obtain rfl : t₀ = t := by simpa using hfold
      exact .inr he
    | cons l locations' ih =>
      rw [List.foldlM_cons, Option.bind_eq_bind, Option.bind_eq_some_iff] at hfold
      obtain ⟨t₁, hinsert, hfold⟩ := hfold
      rcases ih t₁ hfold with ⟨hmem, huri⟩ | hold
      · exact .inl ⟨List.mem_cons_of_mem l hmem, huri⟩
      · rcases TrieNode.entryAt_insertAt hinsert hold with hentry | hnull | hold
        · obtain ⟨rfl, hvalue⟩ := Prod.mk.inj hentry
          obtain rfl := Option.some.inj hvalue
          exact .inl ⟨List.mem_cons_self, rfl⟩
        · simp at hnull
        · exact .inr hold
  rcases hall locations _ t h he with hmem | hempty
  · exact hmem
  · cases key with
    | nil => simp [TrieNode.entryAt, TrieNode.empty, TrieNode.value] at hempty
    | cons c key => simp [TrieNode.entryAt, TrieNode.empty] at hempty

variable {vhostMap : List (Bytes × Vhost)} {hostHeader : Option Bytes} {requestPath : Bytes}
  {t : Translated}

theorem mem_of_lookupVhost {name : Bytes} {vhost : Vhost} (h : lookupVhost vhostMap name = some vhost) :
    ∃ name', (name', vhost) ∈ vhostMap := by
  rw [lookupVhost] at h
  split at h
  · rename_i vhost' hvhost
    exact ⟨name, mem_of_lookup_eq_some (h ▸ hvhost)⟩
  · exact ⟨_, mem_of_lookup_eq_some h⟩

/-- The location is one of a virtual host, and the path behind its uri is joined to its root. -/
theorem translatePath_spec (h : translatePath vhostMap hostHeader requestPath = some t) :
    (∃ name vhost, (name, vhost) ∈ vhostMap ∧ t.location ∈ vhost.locationList) ∧
      t.location.uri.length ≤ requestPath.length ∧
      t.pathTranslated = joinRoot t.location.root (requestPath.drop t.location.uri.length) := by
  simp only [translatePath, Option.bind_eq_bind, Option.bind_eq_some_iff] at h
  obtain ⟨vhost, hvhost, ⟨uri, value⟩, hnearest, location, hvalue, partialPath, hpartial, handler,
    hhandler, ht⟩ := h
  simp only at hvalue hpartial
  subst hvalue
  obtain ⟨name, hmem⟩ := mem_of_lookupVhost hvhost
  have hlocation : location ∈ vhost.locationList ∧ uri = location.uri := by
    rcases TrieNode.findNearestFrom_cases hnearest with hnull | ⟨key, he⟩
    · simp at hnull
    · exact entry_of_buildTrie vhost.locationTrie_eq he
  obtain ⟨hmem', rfl⟩ := hlocation
  rw [pathFrom] at hpartial
  split_ifs at hpartial with hle
  obtain rfl := Option.some.inj hpartial
  obtain rfl := Option.some.inj ht
  exact ⟨⟨name, vhost, hmem, hmem'⟩, hle, rfl⟩

theorem contained_joinRoot_iff (root partialPath : Bytes) :
    Contained root (joinRoot root partialPath) ↔ [46, 46] ∉ segments partialPath := by
  rw [joinRoot]
  split_ifs
  · simp [Contained, segments_cons]
  · simp [Contained]

/-- The matched uri ends inside a segment of the path and leaves `..` of it. -/
def CutsDotDot (path uri : Bytes) : Prop :=
  path[uri.length - 1]? ≠ some 47 ∧ (path.drop uri.length).takeWhile (· ≠ 47) = [46, 46]

instance (path uri : Bytes) : Decidable (CutsDotDot path uri) := inferInstanceAs (Decidable (_ ∧ _))

theorem Clean.cutsDotDot_iff {path uri : Bytes} (h : Clean path) (huri : uri ≠ []) :
    CutsDotDot path uri ↔ [46, 46] ∈ segments (path.drop uri.length) := by
  have hdrop : Clean (path.drop uri.length) := fun hmem =>
    h (hmem.trans (List.drop_suffix _ _).isInfix)
  rw [dotdot_mem_segments_iff hdrop]
  refine ⟨And.right, fun hcut => ⟨fun hslash => ?_, hcut⟩⟩
  -- a slash before the cut and two dots behind it
  have hlen : 0 < uri.length := List.length_pos_of_ne_nil huri
  obtain ⟨hlt, hget⟩ := List.getElem?_eq_some_iff.mp hslash
  have hpre : [46, 46] <+: path.drop uri.length := hcut ▸ List.takeWhile_prefix _
  refine h (List.IsInfix.trans ?_ (List.drop_suffix (uri.length - 1) path).isInfix)
  rw [List.drop_eq_getElem_cons hlt, hget, show uri.length - 1 + 1 = uri.length by omega]
  exact (List.cons_prefix_cons.mpr ⟨rfl, hpre⟩).isInfix

/-- Containment: a sanitised path is translated to a path below the root of its location
exactly when the matched uri does not leave `..` of a segment. -/
theorem translatePath_contained_iff {path mem : Bytes}
    (huri : ∀ v ∈ vhostMap, ∀ l ∈ v.2.locationList, l.uri ≠ [] ∧ l.root ≠ [])
    (hslash : path.head? = some 47) (hnul : 0 ∉ path)
    (hsanitize : sanitizePath path = some (0, mem))
    (ht : translatePath vhostMap hostHeader (cString mem) = some t) :
    Contained t.location.root t.pathTranslated ↔ ¬ CutsDotDot (cString mem) t.location.uri := by
  obtain ⟨⟨name, vhost, hvhost, hlocation⟩, -, hjoin⟩ := translatePath_spec ht
  have hclean := (sanitizePath_accepts hslash hnul hsanitize).2
  rw [hjoin, contained_joinRoot_iff,
    Clean.cutsDotDot_iff hclean (huri _ hvhost _ hlocation).1]

/-- A virtual host with the one location "/a", whose files are in "/r". -/
def vhostA : Vhost where
  locationList := [⟨[47, 97], [47, 114], some [102]⟩]
  locationTrie := (buildTrie [⟨[47, 97], [47, 114], some [102]⟩]).get (by decide)
  locationTrie_eq := by simp

/-- "/a/x" is translated to "/r/x". -/
theorem translatePath_contained_x :
    Contained [47, 114] [47, 114, 47, 120] := by
  have hsanitize : sanitizePath [47, 97, 47, 120] = some (0, [47, 97, 47, 120, 0]) := by decide
  have ht : translatePath [(defaultName, vhostA)] none (cString [47, 97, 47, 120, 0]) =
      some ⟨⟨[47, 97], [47, 114], some [102]⟩, [102], [47, 114, 47, 120]⟩ := by decide
  exact (translatePath_contained_iff (by decide) (by decide) (by decide) hsanitize ht).mpr (by decide)

/-- "/a../x" passes `sanitize_path` and is translated to "/r/../x". -/
theorem translatePath_escapes_root :
    sanitizePath [47, 97, 46, 46, 47, 120] = some (0, [47, 97, 46, 46, 47, 120, 0]) ∧
      translatePath [(defaultName, vhostA)] none [47, 97, 46, 46, 47, 120] =
        some ⟨⟨[47, 97], [47, 114], some [102]⟩, [102], [47, 114, 47, 46, 46, 47, 120]⟩ ∧
      ¬ Contained [47, 114] [47, 114, 47, 46, 46, 47, 120] := by
  refine ⟨by decide, by decide, ?_⟩
  rintro ⟨rest, hrest, hseg⟩
  obtain rfl : rest = [47, 46, 46, 47, 120] := by simpa using hrest.symm
  exact absurd hseg (by decide)

end Latypus.Server
