import Latypus.Config.Blocks
import Latypus.Server.EngineInit

/-! Which virtual host and which location serve a request, by the configuration alone. Some
virtual host always answers to the name, but none of its locations need have a uri that is a prefix
of the path, and the one that has the longest may name a handler that nobody registered; in both
cases `translate_path` goes through a null pointer. -/

namespace Latypus.Server
open Lib Http Config

section Routing
variable {Addr : Type} {factories : Bytes → Bool} {cfg : Config.ServerConfig Addr}
  {vhosts : List (VhostConfig Addr)} {vhostMap : List (Bytes × Vhost)}

/-- The virtual hosts are asked in their order, first for the name and then for the default. -/
def chosenVhost (vhosts : List (VhostConfig Addr)) (name : Bytes) : Option (VhostConfig Addr) :=
  (vhosts.find? fun v => v.serverNames.contains name).or
    (vhosts.find? fun v => v.serverNames.contains defaultName)

/-- The location has the longest uri that is a prefix of the path, and is the last one with it. -/
structure Serves (vhost : VhostConfig Addr) (path : Bytes) (l : LocationConfig) : Prop where
  last : (vhost.locationList.reverse.find? fun l' => l'.uri = l.uri) = some l
  ne_nil : l.uri ≠ []
  isPrefix : l.uri <+: path
  longest : ∀ l' ∈ vhost.locationList, l'.uri <+: path → l'.uri.length ≤ l.uri.length

/-! ### The virtual host -/

theorem lookup_names_append {β : Type} (names : List Bytes) (vhost : β) (entries : List (Bytes × β)) (name : Bytes) :
    (names.map (·, vhost) ++ entries).lookup name =
      if names.contains name then some vhost else entries.lookup name := by
  induction names with
  | nil => rfl
  | cons name' names ih =>
    rw [List.map_cons, List.cons_append, List.lookup_cons, List.contains_cons, ih]
    cases name == name' with
    | true => rfl
    | false => rw [Bool.false_or]

theorem initVhost_eq_ok {v : VhostConfig Addr} {vhost : Vhost} (h : initVhost factories v = .ok vhost) :
    vhost.locationList = initLocations factories v := by
  unfold initVhost at h
  split at h
  · cases h
  · obtain rfl := Except.ok.inj h
    rfl

/-- What the map of the virtual hosts has under a name. -/
theorem lookup_entries (name : Bytes) {entries : List (List (Bytes × Vhost))}
    (h : (vhosts.mapM fun v => do
      let vhost ← initVhost factories v
      .ok (v.serverNames.map (·, vhost))) = .ok entries) :
    (vhosts.find? fun v => v.serverNames.contains name) = none ∧ entries.flatten.lookup name = none ∨
      ∃ v vhost, (vhosts.find? fun v => v.serverNames.contains name) = some v ∧
        initVhost factories v = .ok vhost ∧ entries.flatten.lookup name = some vhost := by
  induction vhosts generalizing entries with
  | nil =>
    obtain rfl := Except.ok.inj h
    exact .inl ⟨rfl, rfl⟩
  | cons v vhosts ih =>
    rw [List.mapM_cons] at h
    obtain ⟨first, hfirst, h⟩ := bind_eq_ok.mp h
    obtain ⟨entries', hrest, h⟩ := bind_eq_ok.mp h
    obtain ⟨vhost, hinit, hnames⟩ := bind_eq_ok.mp hfirst
    obtain rfl := Except.ok.inj hnames
    obtain rfl := Except.ok.inj h
    rw [List.flatten_cons, lookup_names_append]
    cases hname : v.serverNames.contains name with
    | true => exact .inr ⟨v, vhost, List.find?_cons_of_pos hname, hinit, rfl⟩
    | false =>
      rw [List.find?_cons_of_neg (by simpa using hname)]
      exact ih hrest

theorem lookup_engineInit (hvhosts : defaultedVhosts cfg = .ok vhosts)
    (hinit : engineInit factories cfg = .ok vhostMap) (name : Bytes) :
    (vhosts.find? fun v => v.serverNames.contains name) = none ∧ vhostMap.lookup name = none ∨
      ∃ v vhost, (vhosts.find? fun v => v.serverNames.contains name) = some v ∧
        initVhost factories v = .ok vhost ∧ vhostMap.lookup name = some vhost := by
  unfold engineInit at hinit
  obtain ⟨vhosts', hvhosts', hinit⟩ := bind_eq_ok.mp hinit
  obtain rfl := Except.ok.inj (hvhosts.symm.trans hvhosts')
  obtain ⟨entries, hentries, hinit⟩ := bind_eq_ok.mp hinit
  obtain rfl := Except.ok.inj hinit
  exact lookup_entries name hentries

/-- Some virtual host is named default. -/
theorem default_mem (hvhosts : defaultedVhosts cfg = .ok vhosts) :
    (vhosts.find? fun v => v.serverNames.contains defaultName).isSome = true := by
  rw [List.find?_isSome]
  unfold defaultedVhosts at hvhosts
  split at hvhosts
  · split_ifs at hvhosts
    obtain rfl := Except.ok.inj hvhosts
    exact ⟨_, List.mem_singleton.mpr rfl, by simp [makeDefaultVhost]⟩
  · split_ifs at hvhosts with hany
    · obtain rfl := Except.ok.inj hvhosts
      exact List.any_eq_true.mp hany
    · obtain rfl := Except.ok.inj hvhosts
      exact ⟨_, List.mem_cons_self, by simp⟩

/-- Every name leads to a virtual host, which is the chosen one. -/
theorem lookupVhost_spec (hvhosts : defaultedVhosts cfg = .ok vhosts)
    (hinit : engineInit factories cfg = .ok vhostMap) (name : Bytes) :
    ∃ v vhost, chosenVhost vhosts name = some v ∧ initVhost factories v = .ok vhost ∧
      lookupVhost vhostMap name = some vhost := by
  unfold chosenVhost lookupVhost
  rcases lookup_engineInit hvhosts hinit name with ⟨hfind, hlookup⟩ | ⟨v, vhost, hfind, hv, hlookup⟩
  · rw [hfind, hlookup, Option.none_or]
    rcases lookup_engineInit hvhosts hinit defaultName with ⟨hnone, -⟩ | ⟨v, vhost, hfind', hv, hlookup'⟩
    · exact absurd hnone (Option.isSome_iff_ne_none.mp (default_mem hvhosts))
    · exact ⟨v, vhost, hfind', hv, hlookup'⟩
  · rw [hfind, hlookup]
    exact ⟨v, vhost, rfl, hv, rfl⟩

/-! ### The location -/

theorem lastValue_locations (locations : List Location) (key : Bytes) :
    TrieNode.lastValue (locations.map fun l => (l.uri, some l)) key =
      (locations.reverse.find? fun l => l.uri = key).map some := by
  unfold TrieNode.lastValue
  rw [← List.map_reverse]
  induction locations.reverse with
  | nil => rfl
  | cons l locations ih =>
    rw [List.map_cons, List.lookup_cons]
    by_cases h : l.uri = key
    · simp [h]
    · rw [beq_eq_false_iff_ne.mpr (Ne.symm h), List.find?_cons_of_neg (by simpa using h)]
      exact ih

theorem find_initLocations (factories : Bytes → Bool) (v : VhostConfig Addr) (key : Bytes) :
    ((initLocations factories v).reverse.find? fun l => l.uri = key) =
      (v.locationList.reverse.find? fun l => l.uri = key).map (initLocation factories) := by
  unfold initLocations
  rw [← List.map_reverse, List.find?_map]
  rfl

theorem lastValue_of_find {v : VhostConfig Addr} {key : Bytes} {l : LocationConfig}
    (h : (v.locationList.reverse.find? fun l => l.uri = key) = some l) :
    TrieNode.lastValue ((initLocations factories v).map fun l => (l.uri, some l)) key =
      some (some (initLocation factories l)) := by
  rw [lastValue_locations, find_initLocations, h]
  rfl

theorem keyBytes_initLocations {v : VhostConfig Addr} {vhost : Vhost} (hinit : initVhost factories v = .ok vhost)
    (huris : ∀ l ∈ v.locationList, 0 ∉ l.uri) :
    ∀ e ∈ (initLocations factories v).map fun l => (l.uri, some l), TrieNode.KeyBytes e.1 := by
  have hbuild := buildTrie_isSome_iff.mp (Option.isSome_iff_exists.mpr ⟨_, vhost.locationTrie_eq⟩)
  rw [initVhost_eq_ok hinit] at hbuild
  intro e he
  obtain ⟨l, hl, rfl⟩ := List.mem_map.mp he
  obtain ⟨l', hl', rfl⟩ := List.mem_map.mp hl
  have hnul : 0 ∉ l'.uri := huris l' hl'
  intro c hc
  refine ⟨fun h0 => hnul (h0 ▸ hc), hbuild _ hl c ?_⟩
  show c ∈ cString l'.uri
  rw [cString_of_notMem hnul]
  exact hc

/-- What `find_nearest` gives is the location that serves the path, and it is null where none does. -/
theorem findNearest_spec {v : VhostConfig Addr} {vhost : Vhost} {path : Bytes} {e : Bytes × Option Location}
    (hinit : initVhost factories v = .ok vhost) (huris : ∀ l ∈ v.locationList, 0 ∉ l.uri) (hnul : 0 ∉ path)
    (he : vhost.locationTrie.findNearest none Option.isSome path = some e) :
    (∃ l, Serves v path l ∧ e = (l.uri, some (initLocation factories l))) ∨
      (∀ l, ¬ Serves v path l) ∧ e.2 = none := by
  have hkeys := keyBytes_initLocations hinit huris
  obtain ⟨t, ht, hspec⟩ := TrieNode.ofInserts_spec none hkeys
  obtain rfl : t = vhost.locationTrie := by
    have hbuild := vhost.locationTrie_eq
    rw [buildTrie_eq, initVhost_eq_ok hinit, ht] at hbuild
    exact Option.some.inj hbuild
  unfold TrieNode.findNearest at he
  rw [cString_of_notMem hnul] at he
  have hnearest : TrieNode.IsNearest none Option.isSome ((initLocations factories v).map fun l => (l.uri, some l))
      ([] ++ path) e :=
    TrieNode.findNearestFrom_sound rfl hkeys hnul hspec TrieNode.isNearest_nil he
  rw [List.nil_append] at hnearest
  rcases hnearest with ⟨value, hvalue, -, heq, hne, hpre, hlongest⟩ | ⟨rfl, hnone⟩
  · refine .inl ?_
    rw [lastValue_locations, find_initLocations] at hvalue
    obtain ⟨location, hfind, rfl⟩ := Option.map_eq_some_iff.mp hvalue
    obtain ⟨l, hlast, rfl⟩ := Option.map_eq_some_iff.mp hfind
    have huri : l.uri = e.1 := by simpa using List.find?_some hlast
    refine ⟨l, ⟨huri ▸ hlast, huri ▸ hne, huri ▸ hpre, fun l' hl' hpre' => ?_⟩, huri ▸ heq⟩
    by_cases hnil : l'.uri = []
    · rw [hnil]
      exact Nat.zero_le _
    · have hsome : (v.locationList.reverse.find? fun l => l.uri = l'.uri).isSome = true := by
        rw [List.find?_isSome]
        exact ⟨l', List.mem_reverse.mpr hl', by simp⟩
      obtain ⟨l'', hl''⟩ := Option.isSome_iff_exists.mp hsome
      rw [huri]
      exact hlongest l'.uri _ hnil hpre' (lastValue_of_find hl'') rfl
  · refine .inr ⟨fun l hserves => ?_, rfl⟩
    have hfalse := hnone l.uri _ hserves.ne_nil hserves.isPrefix (lastValue_of_find hserves.last)
    cases hfalse

theorem initLocation_handlerFactory (factories : Bytes → Bool) (l : LocationConfig) :
    (initLocation factories l).handlerFactory.isSome = factories (factoryName l) := by
  unfold initLocation
  cases h : factories (factoryName l) <;> simp

/-- The uris of the virtual hosts are strings, those of the default one too. -/
theorem notMem_uris_of_defaulted (hvhosts : defaultedVhosts cfg = .ok vhosts) (huris : ∀ uri ∈ cfg.uris, 0 ∉ uri) :
    ∀ v ∈ vhosts, ∀ l ∈ v.locationList, 0 ∉ l.uri := by
  have hcfg (v : VhostConfig Addr) (hv : v ∈ cfg.vhostList) (l : LocationConfig) (hl : l ∈ v.locationList) :
      0 ∉ l.uri := huris _ (List.mem_flatMap.mpr ⟨v, hv, List.mem_map_of_mem hl⟩)
  unfold defaultedVhosts at hvhosts
  split at hvhosts
  · split_ifs at hvhosts
    obtain rfl := Except.ok.inj hvhosts
    rintro v hv l hl
    obtain rfl := List.mem_singleton.mp hv
    have hdefault : ∀ uri ∈ [ascii "/", ascii "/stats/"], 0 ∉ uri := by decide
    apply hdefault
    exact List.mem_map_of_mem (f := (·.uri)) hl
  · rename_i vhost rest hlist
    rw [hlist] at hcfg
    split_ifs at hvhosts
    · obtain rfl := Except.ok.inj hvhosts
      exact hcfg
    · obtain rfl := Except.ok.inj hvhosts
      intro v hv
      rcases List.mem_cons.mp hv with rfl | hv
      · exact hcfg vhost List.mem_cons_self
      · exact hcfg v (List.mem_cons_of_mem _ hv)

theorem Serves.unique {v : VhostConfig Addr} {path : Bytes} {l l' : LocationConfig} (h : Serves v path l)
    (h' : Serves v path l') : l = l' := by
  have hmem {l : LocationConfig} (h : Serves v path l) : l ∈ v.locationList :=
    List.mem_reverse.mp (List.mem_of_find?_eq_some h.last)
  have hlen : l.uri.length = l'.uri.length :=
    le_antisymm (h'.longest l (hmem h) h.isPrefix) (h.longest l' (hmem h') h'.isPrefix)
  have huri : l.uri = l'.uri :=
    (List.prefix_of_prefix_length_le h.isPrefix h'.isPrefix hlen.le).eq_of_length hlen
  have hlast := h.last
  rw [huri, h'.last] at hlast
  exact (Option.some.inj hlast).symm

theorem mem_of_chosenVhost {name : Bytes} {v : VhostConfig Addr} (h : chosenVhost vhosts name = some v) : v ∈ vhosts := by
  unfold chosenVhost at h
  rcases Option.or_eq_some_iff.mp h with h | ⟨-, h⟩
  · exact List.mem_of_find?_eq_some h
  · exact List.mem_of_find?_eq_some h

/-- `translate_path` goes through no null pointer and stays in the trie exactly when a location of
the chosen virtual host serves the path, with a handler that is registered, and the path agrees
with no uri up to a negative character. -/
theorem translatePath_isSome_iff {env : Env Addr} {text : Bytes} {base maxHeaders : Nat}
    {buffer head path mem : Bytes} {R : RequestMemory}
    (hread : Config.ServerConfig.read env text = .ok cfg) (hvhosts : defaultedVhosts cfg = .ok vhosts)
    (hinit : engineInit factories cfg = .ok vhostMap)
    (hfed : RequestMemory.Fed base buffer maxHeaders head R) (hpath : storedPath R = some path)
    (hsanitize : sanitizePath path = some (0, mem)) (hostHeader : Option Bytes) :
    (translatePath vhostMap hostHeader (cString mem)).isSome = true ↔
      ∃ vhost, chosenVhost vhosts (serverName hostHeader) = some vhost ∧
        NegativeBeyond (vhost.locationList.map (·.uri)) (cString mem) ∧
        ∃ l, Serves vhost (cString mem) l ∧ factories (factoryName l) = true := by
  obtain ⟨hslash, hnul⟩ := sanitized_spec hfed hpath hsanitize
  obtain ⟨v, vhost, hchosen, hv, hlookup⟩ := lookupVhost_spec hvhosts hinit (serverName hostHeader)
  have huris := notMem_uris_of_defaulted hvhosts (Config.ServerConfig.notMem_uris_of_read hread) v
    (mem_of_chosenVhost hchosen)
  have hbound : (vhost.locationTrie.findNearest none Option.isSome (cString mem)).isSome = true ↔
      NegativeBeyond (v.locationList.map (·.uri)) (cString mem) := by
    rw [findNearest_isSome_iff vhost.locationTrie_eq hslash hnul, initVhost_eq_ok hv]
    simp [initLocations, initLocation, Function.comp_def]
  unfold translatePath
  rw [hlookup, Option.bind_eq_bind, Option.bind_some]
  constructor
  · intro hsome
    cases hfind : vhost.locationTrie.findNearest none Option.isSome (cString mem) with
    | none => simp [hfind] at hsome
    | some e =>
      refine ⟨v, hchosen, hbound.mp (by rw [hfind]; rfl), ?_⟩
      rcases findNearest_spec hv huris hnul hfind with ⟨l, hserves, rfl⟩ | ⟨-, hnull⟩
      · refine ⟨l, hserves, ?_⟩
        rw [← initLocation_handlerFactory factories]
        by_contra hnone
        rw [Bool.not_eq_true, Option.isSome_eq_false_iff, Option.isNone_iff_eq_none] at hnone
        simp [hfind, hnone] at hsome
      · obtain ⟨uri, value⟩ := e
        obtain rfl : value = none := hnull
        simp [hfind] at hsome
  · rintro ⟨v', hchosen', hneg, l, hserves, hfactory⟩
    obtain rfl := Option.some.inj (hchosen.symm.trans hchosen')
    obtain ⟨e, hfind⟩ := Option.isSome_iff_exists.mp (hbound.mpr hneg)
    rcases findNearest_spec hv huris hnul hfind with ⟨l', hserves', rfl⟩ | ⟨hnone, -⟩
    · obtain rfl := hserves.unique hserves'
      rw [← initLocation_handlerFactory factories] at hfactory
      obtain ⟨name, hname⟩ := Option.isSome_iff_exists.mp hfactory
      simp [hfind, pathFrom, hserves.isPrefix.length_le, hname]
    · exact absurd hserves (hnone l)

end Routing

/-- The default virtual host with the one location "/", whose files are in "/r". -/
def routedVhost : VhostConfig Unit := ⟨[], [defaultName], [⟨ascii "/", ascii "/r", [], []⟩]⟩

/-- `GET /a ` of a configuration with the location "/". -/
theorem translatePath_isSome_pathExample :
    ∃ vhostMap, engineInit (fun _ => true) ⟨[], [], [{ routedVhost with serverNames := [] }], none, none, []⟩ =
      .ok vhostMap ∧ (translatePath vhostMap none [47, 97]).isSome = true := by
  have hread : Config.ServerConfig.read Config.ServerConfig.noEnv Config.ServerConfig.nestedText =
      .ok ⟨[], [], [{ routedVhost with serverNames := [] }], none, none, []⟩ := by decide +kernel
  have hok : (engineInit (fun _ => true)
      (⟨[], [], [{ routedVhost with serverNames := [] }], none, none, []⟩ : Config.ServerConfig Unit)).isOk = true := by
    decide +kernel
  have hparse : (RequestMemory.reset (List.replicate 12 0) 4).parse [71, 69, 84, 32, 47, 97, 32] 0 7 =
      some pathExample := by decide +kernel
  have hfed : RequestMemory.Fed 0 (List.replicate 12 0) 4 [71, 69, 84, 32, 47, 97, 32] pathExample :=
    .parse .reset (show (List.drop 0 [71, 69, 84, 32, 47, 97, 32]).take _ = [] ++ _ from rfl) hparse
  have hsanitize : sanitizePath [47, 97] = some (0, [47, 97, 0]) := by rfl
  cases hinit : engineInit (fun _ => true)
      (⟨[], [], [{ routedVhost with serverNames := [] }], none, none, []⟩ : Config.ServerConfig Unit) with
  | error halt => rw [hinit] at hok; cases hok
  | ok vhostMap =>
    refine ⟨vhostMap, rfl, ?_⟩
    have hvhosts : defaultedVhosts (⟨[], [], [{ routedVhost with serverNames := [] }], none, none, []⟩ :
        Config.ServerConfig Unit) = .ok [routedVhost] := rfl
    refine (translatePath_isSome_iff hread hvhosts hinit hfed (by decide) hsanitize none).mpr ?_
    refine ⟨routedVhost, rfl, fun i c hc hneg => ?_, ⟨ascii "/", ascii "/r", [], []⟩, ⟨rfl, ?_, ?_, ?_⟩, rfl⟩
    · have hpositive : ∀ c ∈ [(47 : UInt8), 97], c.toNat < 128 := by simp
      exact absurd (hpositive c (List.mem_of_getElem? hc)) (by omega)
    · decide
    · exact ⟨[97], rfl⟩
    · rintro l' hl' -
      rw [List.mem_singleton.mp hl']

/-- A request for "/". -/
def rootHead : Bytes := ascii "GET / HTTP/1.0\r\n\r\n"

/-- A configuration is accepted, `engine_init` starts with it, and a finished request goes through
a null pointer. -/
def RoutesToNull (text head path : Bytes) (factories : Bytes → Bool) : Prop :=
  (∃ cfg vhostMap, Config.ServerConfig.read Config.ServerConfig.noEnv text = .ok cfg ∧
      engineInit factories cfg = .ok vhostMap ∧ translatePath vhostMap none path = none) ∧
    ∃ R, RequestMemory.Fed 0 (List.replicate 32 0) 4 head R ∧ R.parser.isFinished = true ∧
      storedPath R = some path ∧ sanitizePath path = some (0, path ++ [0])

theorem exists_of_ok {ε α : Type} {r : Except ε α} {p : α → Bool} (h : (r.toOption.any p) = true) :
    ∃ a, r = .ok a ∧ p a = true := by
  cases r with
  | error e => cases h
  | ok a => exact ⟨a, rfl, h⟩

/-- No location for the path "/", and a location with a handler that is not registered. -/
theorem translatePath_null :
    RoutesToNull (ascii "http_server \x7b location /images/ \x7b root /r; \x7d \x7d\n") rootHead [47] (fun _ => true) ∧
      RoutesToNull (ascii "http_server \x7b location / \x7b handler nosuch; \x7d \x7d\n") rootHead [47]
        (· == ascii "http_server_handler_file") := by
  have hrequest : ∃ R, RequestMemory.Fed 0 (List.replicate 32 0) 4 rootHead R ∧ R.parser.isFinished = true ∧
      storedPath R = some [47] ∧ sanitizePath [47] = some (0, [47] ++ [0]) := by
    obtain ⟨R, hparse, hrest⟩ : ∃ R, (RequestMemory.reset (List.replicate 32 0) 4).parse rootHead 0 18 = some R ∧
        R.parser.isFinished = true ∧ storedPath R = some [47] := by
      refine ⟨((RequestMemory.reset (List.replicate 32 0) 4).parse rootHead 0 18).get (by decide +kernel), ?_⟩
      rw [Option.some_get]
      decide +kernel
    have hfed : RequestMemory.Fed 0 (List.replicate 32 0) 4 ([] ++ rootHead) R :=
      .parse .reset (by decide +kernel) hparse
    exact ⟨R, hfed, hrest.1, hrest.2, by decide⟩
  have hroute {text : Bytes} {factories : Bytes → Bool}
      (h : ((Config.ServerConfig.read Config.ServerConfig.noEnv text).toOption.any fun cfg =>
        (engineInit factories cfg).toOption.any fun m => (translatePath m none [47]).isNone) = true) :
      RoutesToNull text rootHead [47] factories := by
    obtain ⟨cfg, hread, hcfg⟩ := exists_of_ok h
    obtain ⟨m, hinit, hm⟩ := exists_of_ok hcfg
    exact ⟨⟨cfg, m, hread, hinit, Option.isNone_iff_eq_none.mp hm⟩, hrequest⟩
  exact ⟨hroute (by decide +kernel), hroute (by decide +kernel)⟩

end Latypus.Server
