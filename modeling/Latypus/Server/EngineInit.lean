import Latypus.Config.Directives
import Latypus.Http.PathSegments
import Latypus.Http.RequestMemory
import Latypus.Server.TranslatePath

/-! `engine_init` of the server, as far as virtual hosts go, and the bytes that reach the tries it
fills: location uris come from the symbols of the configuration and request paths from the parser,
and both may hold bytes that are negative characters. -/

namespace Latypus.Server
open Lib Http Config

section Init
variable {Addr : Type}

/-- The name that the handler factory of a location is registered under. -/
def factoryName (location : LocationConfig) : Bytes :=
  ascii "http_server_handler_" ++ if location.handler.length = 0 then ascii "file" else location.handler

def initLocation (factories : Bytes → Bool) (location : LocationConfig) : Location where
  uri := location.uri
  root := location.root
  handlerFactory := if factories (factoryName location) then some (factoryName location) else none

/-- `make_default_vhost` -/
def makeDefaultVhost (root : Bytes) : VhostConfig Addr where
  listens := []
  serverNames := [defaultName]
  locationList := [
    ⟨ascii "/", root, ascii "file", [ascii "index.html", ascii "index.htm"]⟩,
    ⟨ascii "/stats/", [], ascii "stats", []⟩]

/-- The virtual hosts with one that is named default. -/
def defaultedVhosts (cfg : Config.ServerConfig Addr) : Except Halt (List (VhostConfig Addr)) :=
  match cfg.vhostList with
  | [] =>
    if 0 < cfg.root.length then .ok [makeDefaultVhost cfg.root]
    else .error (.fatal ("configuration error: no http_server with server_name default and no " ++
      "toplevel root directive defined") [])
  | vhost :: vhosts =>
    if (vhost :: vhosts).any fun v => v.serverNames.contains defaultName then .ok (vhost :: vhosts)
    else .ok ({ vhost with serverNames := vhost.serverNames ++ [defaultName] } :: vhosts)

def initLocations (factories : Bytes → Bool) (vhost : VhostConfig Addr) : List Location :=
  vhost.locationList.map (initLocation factories)

def initVhost (factories : Bytes → Bool) (vhost : VhostConfig Addr) : Except Halt Vhost :=
  match h : buildTrie (initLocations factories vhost) with
  | none => .error (.fault .chars)
  | some t => .ok ⟨initLocations factories vhost, t, h⟩

/-- The entries of `vhost_map`, of which the first under a name counts. -/
def engineInit (factories : Bytes → Bool) (cfg : Config.ServerConfig Addr) : Except Halt (List (Bytes × Vhost)) := do
  let vhosts ← defaultedVhosts cfg
  let entries ← vhosts.mapM fun v => do
    let vhost ← initVhost factories v
    .ok (v.serverNames.map (·, vhost))
  .ok entries.flatten

end Init

theorem buildTrie_eq (locations : List Location) :
    buildTrie locations = TrieNode.ofInserts none (locations.map fun l => (l.uri, some l)) := by
  rw [buildTrie, TrieNode.ofInserts, List.foldlM_map]

/-- Every index into the tries of a virtual host is inside the array: those of the insertions and
those of the search for a path. -/
def IndicesInBounds (locations : List Location) (path : Bytes) : Prop :=
  ∃ t, buildTrie locations = some t ∧ (t.findNearest none Option.isSome path).isSome = true

/-- Where a byte of the path is a negative character, no location uri agrees with the path up to
that byte. -/
def NegativeBeyond (uris : List Bytes) (path : Bytes) : Prop :=
  ∀ i c, path[i]? = some c → 128 ≤ c.toNat → ∀ uri ∈ uris, ¬ path.take i <+: cString uri

/-- The search for a path stays in the trie of a virtual host. -/
theorem findNearest_isSome_iff {locations : List Location} {path : Bytes} {t : TrieNode (Option Location)}
    (ht : buildTrie locations = some t) (hslash : path.head? = some 47) (hnul : 0 ∉ path) :
    (t.findNearest none Option.isSome path).isSome = true ↔ NegativeBeyond (locations.map (·.uri)) path := by
  rw [TrieNode.findNearest, cString_of_notMem hnul, TrieNode.findNearestFrom_isSome_iff]
  have hnode {key : Bytes} (hkey : key ≠ []) :
      (t.entryAt key).isSome = true ↔ ∃ l ∈ locations, key <+: cString l.uri := by
    rw [TrieNode.entryAt_isSome_ofInserts (buildTrie_eq locations ▸ ht) hkey]
    simp
  -- the first byte is the slash, and behind it the nodes are on the ways of the uris
  have hfirst {c : UInt8} (hc : path[0]? = some c) : c.toNat < 128 := by
    rw [List.head?_eq_getElem?, hc] at hslash
    obtain rfl := Option.some.inj hslash
    decide
  have hne {i : Nat} {c : UInt8} (hc : path[i + 1]? = some c) : path.take (i + 1) ≠ [] := by
    rintro hnil
    simp_all
  constructor
  · intro h i c hc hneg uri huri hpre
    obtain ⟨l, hl, rfl⟩ := List.mem_map.mp huri
    cases i with
    | zero => exact absurd (hfirst hc) (by omega)
    | succ i => exact absurd (h (i + 1) c hc ((hnode (hne hc)).mpr ⟨l, hl, hpre⟩)) (by omega)
  · intro h i c hc hentry
    by_contra hneg
    cases i with
    | zero => exact hneg (hfirst hc)
    | succ i =>
      obtain ⟨l, hl, hpre⟩ := (hnode (hne hc)).mp hentry
      exact h (i + 1) c hc (by omega) l.uri (List.mem_map_of_mem hl) hpre

theorem buildTrie_isSome_iff {locations : List Location} :
    (buildTrie locations).isSome = true ↔ ∀ l ∈ locations, ∀ c ∈ cString l.uri, c.toNat < 128 := by
  rw [buildTrie_eq, TrieNode.ofInserts_isSome_iff]
  simp

theorem indicesInBounds_iff {locations : List Location} {path : Bytes} (hslash : path.head? = some 47)
    (hnul : 0 ∉ path) :
    IndicesInBounds locations path ↔
      (∀ l ∈ locations, ∀ c ∈ cString l.uri, c.toNat < 128) ∧ NegativeBeyond (locations.map (·.uri)) path := by
  constructor
  · rintro ⟨t, ht, hfound⟩
    exact ⟨buildTrie_isSome_iff.mp (by simp [ht]), (findNearest_isSome_iff ht hslash hnul).mp hfound⟩
  · rintro ⟨huris, hpath⟩
    obtain ⟨t, ht⟩ := Option.isSome_iff_exists.mp (buildTrie_isSome_iff.mpr huris)
    exact ⟨t, ht, (findNearest_isSome_iff ht hslash hnul).mpr hpath⟩

/-- The path that a request has stored, as a string. -/
def storedPath (R : RequestMemory) : Option Bytes := R.requestPath.data.map fun q => cString (R.store.buffer.drop q)

theorem storedPath_spec {base maxHeaders : Nat} {buffer head path : Bytes} {R : RequestMemory}
    (hfed : RequestMemory.Fed base buffer maxHeaders head R) (hpath : storedPath R = some path) :
    path.head? = some 47 ∧ 0 ∉ path := by
  obtain ⟨q, hq, rfl⟩ := Option.map_eq_some_iff.mp hpath
  obtain ⟨path, hslash, hnul, hbytes⟩ := hfed.path hq
  have hstring : cString (R.store.buffer.drop q) = path := by
    rw [← List.take_append_drop (path.length + 1) (R.store.buffer.drop q), hbytes, cString,
      List.append_assoc, List.takeWhile_append_of_pos]
    · simp
    · intro c hc
      simp only [ne_eq, decide_eq_true_eq]
      rintro rfl
      exact hnul hc
  rw [hstring]
  exact ⟨hslash, hnul⟩

/-- A sanitised path begins with a slash and is a string. -/
theorem sanitized_spec {base maxHeaders : Nat} {buffer head path mem : Bytes} {R : RequestMemory}
    (hfed : RequestMemory.Fed base buffer maxHeaders head R) (hpath : storedPath R = some path)
    (hsanitize : sanitizePath path = some (0, mem)) : (cString mem).head? = some 47 ∧ 0 ∉ cString mem := by
  obtain ⟨hslash, hnul⟩ := storedPath_spec hfed hpath
  have hnormal := (sanitizePath_accepts hslash hnul hsanitize).1
  refine ⟨?_, notMem_normalise (by simp) hnul hnormal⟩
  obtain ⟨segs, -, hjoin⟩ := Option.map_eq_some_iff.mp (normalise_eq_resolve hslash ▸ hnormal)
  rw [← hjoin]
  rfl

/-- The tries of a virtual host are indexed in bounds, by its own uris and by the sanitised path of
a request, exactly when no uri holds a negative character and the path agrees with none of them up
to one. -/
theorem trie_inBounds_iff {Addr : Type} (factories : Bytes → Bool) (vhost : VhostConfig Addr)
    {base maxHeaders : Nat} {buffer head path mem : Bytes} {R : RequestMemory}
    (hfed : RequestMemory.Fed base buffer maxHeaders head R) (hpath : storedPath R = some path)
    (hsanitize : sanitizePath path = some (0, mem)) :
    IndicesInBounds (initLocations factories vhost) (cString mem) ↔
      (∀ l ∈ vhost.locationList, ∀ c ∈ cString l.uri, c.toNat < 128) ∧
        NegativeBeyond (vhost.locationList.map (·.uri)) (cString mem) := by
  obtain ⟨hslash, hnul⟩ := sanitized_spec hfed hpath hsanitize
  rw [indicesInBounds_iff hslash hnul]
  simp [initLocations, initLocation, Function.comp_def]

/-- A virtual host with the one location "/". -/
def vhostSlash : VhostConfig Unit := ⟨[], [], [⟨[47], [47], [], []⟩]⟩

/-- `GET /a ` against the location "/". -/
theorem trie_inBounds_pathExample : IndicesInBounds (initLocations (fun _ => true) vhostSlash) [47, 97] := by
  have hparse : (RequestMemory.reset (List.replicate 12 0) 4).parse [71, 69, 84, 32, 47, 97, 32] 0 7 =
      some pathExample := by decide +kernel
  have hfed : RequestMemory.Fed 0 (List.replicate 12 0) 4 [71, 69, 84, 32, 47, 97, 32] pathExample :=
    .parse .reset (show (List.drop 0 [71, 69, 84, 32, 47, 97, 32]).take _ = [] ++ _ from rfl) hparse
  have hsanitize : sanitizePath [47, 97] = some (0, [47, 97, 0]) := by rfl
  refine (trie_inBounds_iff (fun _ => true) vhostSlash hfed (by decide) hsanitize).mpr ⟨by simp [vhostSlash, cString], ?_⟩
  intro i c hc hneg
  have hpositive : ∀ c ∈ [(47 : UInt8), 97], c.toNat < 128 := by simp
  exact absurd (hpositive c (List.mem_of_getElem? hc)) (by omega)

/-- A configuration whose location uri is a slash and the byte 255, in quotes. -/
def negativeConfig : Bytes :=
  ascii "http_server \x7b location \"/" ++ [255] ++ ascii "\" \x7b root /; \x7d \x7d\n"

/-- A request for a path of a slash and the byte 255. -/
def negativeHead : Bytes := ascii "GET /" ++ [255] ++ ascii " HTTP/1.0\r\n\r\n"

/-- Both are accepted, and both index a trie outside its array: the configuration where its uri is
inserted, the request where its path is looked up among the location "/". -/
theorem negative_index :
    (∃ cfg, Config.ServerConfig.read ⟨fun _ => none, fun _ => false⟩ negativeConfig = .ok (cfg : Config.ServerConfig Unit) ∧
      ∃ vhost ∈ cfg.vhostList, buildTrie (initLocations (fun _ => true) vhost) = none) ∧
    (∃ R, RequestMemory.Fed 0 (List.replicate 32 0) 4 negativeHead R ∧ R.parser.isFinished = true ∧
      storedPath R = some [47, 255] ∧ sanitizePath [47, 255] = some (0, [47, 255, 0]) ∧
      ¬ IndicesInBounds (initLocations (fun _ => true) vhostSlash) [47, 255]) := by
  constructor
  · refine ⟨⟨[], [], [⟨[], [], [⟨[47, 255], [47], [], []⟩]⟩], none, none, []⟩, by decide +kernel, ?_⟩
    exact ⟨_, List.mem_singleton.mpr rfl, by decide⟩
  · obtain ⟨R, hparse, hrest⟩ : ∃ R, (RequestMemory.reset (List.replicate 32 0) 4).parse negativeHead 0 19 = some R ∧
        R.parser.isFinished = true ∧ storedPath R = some [47, 255] := by
      refine ⟨((RequestMemory.reset (List.replicate 32 0) 4).parse negativeHead 0 19).get (by decide +kernel), ?_⟩
      rw [Option.some_get]
      decide +kernel
    have hfed : RequestMemory.Fed 0 (List.replicate 32 0) 4 ([] ++ negativeHead) R :=
      .parse .reset (by decide +kernel) hparse
    refine ⟨R, hfed, hrest.1, hrest.2, by decide, ?_⟩
    rintro ⟨t, ht, hfound⟩
    have hnone : (buildTrie (initLocations (fun _ => true) vhostSlash)).all fun t =>
        (t.findNearest none Option.isSome [47, 255]).isNone := by decide
    rw [ht] at hnone
    simp_all

end Latypus.Server
