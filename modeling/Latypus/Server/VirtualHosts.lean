import Latypus.Server.Routing

/-! The virtual host of a name. `vhost_map` keeps the first of the entries under a name, and these are made
in the order of `vhost_list`, the name default among them: it is added to the first virtual host when none
has it. Pointers to virtual hosts are their positions. -/

namespace Latypus.Server
open Lib Http Config

section VirtualHosts
variable {Addr : Type} {cfg : Config.ServerConfig Addr} {vhosts : List (VhostConfig Addr)} {name : Bytes} {i : Nat}

/-- The entries that `engine_init` inserts into `vhost_map`, the positions counted from a first one. -/
def vhostEntries : List (VhostConfig Addr) → Nat → List (Bytes × Nat)
  | [], _ => []
  | vhost :: vhosts, i => vhost.serverNames.map (·, i) ++ vhostEntries vhosts (i + 1)

/-- `lookup_vhost`, with `none` where the program exits. -/
def lookupVhostAt (entries : List (Bytes × Nat)) (name : Bytes) : Option Nat :=
  match entries.lookup name with
  | some i => some i
  | none => entries.lookup defaultName

/-- The virtual host lists the name, and none before it does. -/
structure FirstNamed (vhosts : List (VhostConfig Addr)) (name : Bytes) (i : Nat) : Prop where
  lists : ∃ vhost, vhosts[i]? = some vhost ∧ name ∈ vhost.serverNames
  first : ∀ j < i, ∀ vhost, vhosts[j]? = some vhost → name ∉ vhost.serverNames

/-- Where the name default stands once `engine_init` is through. -/
structure Labelled (cfg : Config.ServerConfig Addr) (vhosts : List (VhostConfig Addr)) : Prop where
  generated : cfg.vhostList = [] → vhosts = [makeDefaultVhost cfg.root]
  listed : (∃ vhost ∈ cfg.vhostList, defaultName ∈ vhost.serverNames) → vhosts = cfg.vhostList
  labelled : ∀ first rest, cfg.vhostList = first :: rest →
    (∀ vhost ∈ cfg.vhostList, defaultName ∉ vhost.serverNames) →
      vhosts = { first with serverNames := first.serverNames ++ [defaultName] } :: rest
  unlisted : (∀ vhost ∈ cfg.vhostList, defaultName ∉ vhost.serverNames) → FirstNamed vhosts defaultName 0

/-! ### The map -/

theorem lookup_vhostEntries (vhosts : List (VhostConfig Addr)) (i : Nat) (name : Bytes) :
    (vhostEntries vhosts i).lookup name =
      (vhosts.findIdx? fun v => v.serverNames.contains name).map (· + i) := by
  induction vhosts generalizing i with
  | nil => rfl
  | cons vhost vhosts ih =>
    rw [vhostEntries, lookup_names_append, List.findIdx?_cons, ih]
    cases vhost.serverNames.contains name with
    | true => simp
    | false =>
      rw [if_neg Bool.false_ne_true, if_neg Bool.false_ne_true, Option.map_map]
      congr 1
      funext j
      simp only [Function.comp_apply]
      omega

theorem firstNamed_of_findIdx? (h : (vhosts.findIdx? fun v => v.serverNames.contains name) = some i) :
    FirstNamed vhosts name i := by
  obtain ⟨hlt, hlists, hfirst⟩ := List.findIdx?_eq_some_iff_getElem.mp h
  refine ⟨⟨vhosts[i], List.getElem?_eq_getElem hlt, List.contains_iff_mem.mp hlists⟩, ?_⟩
  intro j hj vhost hvhost hmem
  obtain ⟨hjlt, rfl⟩ := List.getElem?_eq_some_iff.mp hvhost
  exact hfirst j hj (List.contains_iff_mem.mpr hmem)

theorem notMem_of_findIdx? (h : (vhosts.findIdx? fun v => v.serverNames.contains name) = none) :
    ∀ vhost ∈ vhosts, name ∉ vhost.serverNames := by
  intro vhost hmem hname
  have hnone := List.findIdx?_eq_none_iff.mp h vhost hmem
  rw [List.contains_iff_mem.mpr hname] at hnone
  cases hnone

theorem FirstNamed.find?_eq {vhost : VhostConfig Addr} (h : FirstNamed vhosts name i)
    (hvhost : vhosts[i]? = some vhost) :
    (vhosts.find? fun v => v.serverNames.contains name) = some vhost := by
  obtain ⟨⟨vhost', hvhost', hlists⟩, hfirst⟩ := h
  obtain rfl := Option.some.inj (hvhost.symm.trans hvhost')
  obtain ⟨hlt, heq⟩ := List.getElem?_eq_some_iff.mp hvhost
  rw [List.find?_eq_some_iff_getElem]
  refine ⟨List.contains_iff_mem.mpr hlists, i, hlt, heq, fun j hj => ?_⟩
  rw [Bool.not_eq_true', ← Bool.not_eq_true]
  intro hmem
  exact hfirst j hj _ (List.getElem?_eq_getElem (hj.trans hlt)) (List.contains_iff_mem.mp hmem)

/-! ### The default -/

variable (cfg) in
theorem any_default_iff : (cfg.vhostList.any fun v => v.serverNames.contains defaultName) = true ↔
    ∃ vhost ∈ cfg.vhostList, defaultName ∈ vhost.serverNames := by
  simp

theorem labelled_of_defaulted (h : defaultedVhosts cfg = .ok vhosts) : Labelled cfg vhosts := by
  unfold defaultedVhosts at h
  cases hlist : cfg.vhostList with
  | nil =>
    rw [hlist] at h
    dsimp only at h
    split_ifs at h
    obtain rfl := Except.ok.inj h
    refine ⟨fun _ => rfl, ?_, ?_, fun _ => ?_⟩
    · rintro ⟨vhost, hmem, -⟩
      rw [hlist] at hmem
      cases hmem
    · intro first rest heq
      rw [hlist] at heq
      cases heq
    · exact ⟨⟨_, rfl, List.mem_singleton.mpr rfl⟩, fun j hj => absurd hj (Nat.not_lt_zero j)⟩
  | cons first rest =>
    have hany := any_default_iff cfg
    rw [hlist] at h hany
    dsimp only at h
    refine ⟨fun hnil => ?_, ?_, ?_, ?_⟩
    · rw [hlist] at hnil
      cases hnil
    · intro hlisted
      rw [hlist] at hlisted ⊢
      rw [if_pos (hany.mpr hlisted)] at h
      exact (Except.ok.inj h).symm
    · intro first' rest' heq hunlisted
      rw [hlist] at heq hunlisted
      obtain ⟨rfl, rfl⟩ := List.cons.inj heq
      rw [if_neg fun hyes => by
        obtain ⟨vhost, hmem, hname⟩ := hany.mp hyes
        exact hunlisted vhost hmem hname] at h
      exact (Except.ok.inj h).symm
    · intro hunlisted
      rw [hlist] at hunlisted
      rw [if_neg fun hyes => by
        obtain ⟨vhost, hmem, hname⟩ := hany.mp hyes
        exact hunlisted vhost hmem hname] at h
      obtain rfl := Except.ok.inj h
      exact ⟨⟨_, rfl, List.mem_append_right _ (List.mem_singleton.mpr rfl)⟩, fun j hj => absurd hj (Nat.not_lt_zero j)⟩

/-- Every name leads to the first virtual host that lists it, or else to the first one that lists default. -/
theorem lookupVhostAt_spec (h : defaultedVhosts cfg = .ok vhosts) (name : Bytes) :
    ∃ i, lookupVhostAt (vhostEntries vhosts 0) name = some i ∧
      (FirstNamed vhosts name i ∨
        (∀ vhost ∈ vhosts, name ∉ vhost.serverNames) ∧ FirstNamed vhosts defaultName i) := by
  unfold lookupVhostAt
  rw [lookup_vhostEntries]
  cases hname : vhosts.findIdx? fun v => v.serverNames.contains name with
  | some i => exact ⟨i, rfl, .inl (firstNamed_of_findIdx? hname)⟩
  | none =>
    obtain ⟨i, hi⟩ : ∃ i, (vhosts.findIdx? fun v => v.serverNames.contains defaultName) = some i := by
      rw [← Option.isSome_iff_exists, List.findIdx?_isSome, List.any_eq_true, ← List.find?_isSome]
      exact default_mem h
    refine ⟨i, ?_, .inr ⟨notMem_of_findIdx? hname, firstNamed_of_findIdx? hi⟩⟩
    rw [lookup_vhostEntries, hi]
    rfl

/-- The virtual host at the position is the one that the map holds the tries of. -/
theorem lookupVhost_eq {factories : Bytes → Bool} {vhostMap : List (Bytes × Vhost)}
    (h : defaultedVhosts cfg = .ok vhosts) (hinit : engineInit factories cfg = .ok vhostMap)
    (hi : FirstNamed vhosts name i ∨
      (∀ vhost ∈ vhosts, name ∉ vhost.serverNames) ∧ FirstNamed vhosts defaultName i) :
    ∃ vhost initialised, vhosts[i]? = some vhost ∧ initVhost factories vhost = .ok initialised ∧
      lookupVhost vhostMap name = some initialised := by
  obtain ⟨vhost, initialised, hchosen, hvhost, hlookup⟩ := lookupVhost_spec h hinit name
  refine ⟨vhost, initialised, ?_, hvhost, hlookup⟩
  unfold chosenVhost at hchosen
  rcases hi with hfirst | ⟨hnone, hfirst⟩
  · obtain ⟨vhost', hat, -⟩ := hfirst.lists
    rw [hfirst.find?_eq hat, Option.some_or] at hchosen
    rw [hat, hchosen]
  · obtain ⟨vhost', hat, -⟩ := hfirst.lists
    have hfind : (vhosts.find? fun v => v.serverNames.contains name) = none := by
      rw [List.find?_eq_none]
      intro v hv hname
      exact hnone v hv (List.contains_iff_mem.mp hname)
    rw [hfind, Option.none_or, hfirst.find?_eq hat] at hchosen
    rw [hat, hchosen]

/-- No byte of a location's uri is a negative character. -/
def PlainUris (vhost : VhostConfig Addr) : Prop := ∀ l ∈ vhost.locationList, ∀ c ∈ cString l.uri, c.toNat < 128

theorem exists_initVhost_iff (factories : Bytes → Bool) (vhost : VhostConfig Addr) :
    (∃ v, initVhost factories vhost = .ok v) ↔ PlainUris vhost := by
  have htrie : (buildTrie (initLocations factories vhost)).isSome = true ↔ PlainUris vhost := by
    rw [buildTrie_isSome_iff]
    simp [initLocations, initLocation, PlainUris]
  rw [← htrie, initVhost]
  split
  · rename_i h
    simp [h]
  · rename_i t h
    simp [h]

theorem exists_engineInit_of_defaulted (factories : Bytes → Bool) (h : defaultedVhosts cfg = .ok vhosts) :
    (∃ vhostMap, engineInit factories cfg = .ok vhostMap) ↔ ∀ vhost ∈ vhosts, PlainUris vhost := by
  have hentries (v : VhostConfig Addr) : (∃ e, (do
      let vhost ← initVhost factories v
      .ok (v.serverNames.map (·, vhost)) : Except Halt (List (Bytes × Vhost))) = .ok e) ↔ PlainUris v := by
    rw [← exists_initVhost_iff factories]
    simp [bind_eq_ok]
  simp only [engineInit, h, bind_eq_ok, Except.ok.injEq, exists_eq_left', ↓existsAndEq, and_true]
  rw [exists_mapM_iff]
  exact forall₂_congr fun v _ => hentries v

theorem plainUris_makeDefaultVhost (root : Bytes) : PlainUris (makeDefaultVhost root : VhostConfig Addr) := by
  intro l hl
  simp only [makeDefaultVhost, List.mem_cons, List.not_mem_nil, or_false] at hl
  obtain rfl | rfl := hl
  · change ∀ c ∈ cString (ascii "/"), c.toNat < 128
    decide +kernel
  · change ∀ c ∈ cString (ascii "/stats/"), c.toNat < 128
    decide +kernel

/-- `engine_init` answers exactly when there is a virtual host or a root to make one for, and no uri has a
negative character. -/
theorem exists_engineInit_iff (factories : Bytes → Bool) (cfg : Config.ServerConfig Addr) :
    (∃ vhostMap, engineInit factories cfg = .ok vhostMap) ↔
      (cfg.vhostList ≠ [] ∨ cfg.root ≠ []) ∧ ∀ vhost ∈ cfg.vhostList, PlainUris vhost := by
  cases hlist : cfg.vhostList with
  | nil =>
    by_cases hroot : cfg.root = []
    · have h : ∀ vhosts, defaultedVhosts cfg ≠ .ok vhosts := by
        intro vhosts h
        simp [defaultedVhosts, hlist, hroot] at h
      simp [engineInit, bind_eq_ok, h, hroot]
    · have h : defaultedVhosts cfg = .ok [makeDefaultVhost cfg.root] := by
        simp [defaultedVhosts, hlist, List.length_pos_iff, hroot]
      rw [exists_engineInit_of_defaulted factories h]
      simp [hroot, plainUris_makeDefaultVhost]
  | cons first rest =>
    -- the label that the first virtual host may get leaves its locations as they are
    rw [← hlist]
    by_cases hany : (first :: rest).any fun v => v.serverNames.contains defaultName
    · have h : defaultedVhosts cfg = .ok (first :: rest) := by
        rw [defaultedVhosts, hlist]
        exact if_pos hany
      rw [exists_engineInit_of_defaulted factories h, hlist]
      simp
    · have h : defaultedVhosts cfg =
          .ok ({ first with serverNames := first.serverNames ++ [defaultName] } :: rest) := by
        rw [defaultedVhosts, hlist]
        exact if_neg hany
      rw [exists_engineInit_of_defaulted factories h, hlist]
      simp [PlainUris]

/-- Behind `engine_init` every name has a virtual host, by the order of the list and the labels. -/
theorem lookupVhost_first (h : defaultedVhosts cfg = .ok vhosts) : Labelled cfg vhosts ∧ ∀ name,
    ∃ i, lookupVhostAt (vhostEntries vhosts 0) name = some i ∧
      (FirstNamed vhosts name i ∨
        (∀ vhost ∈ vhosts, name ∉ vhost.serverNames) ∧ FirstNamed vhosts defaultName i) ∧
      ∀ factories vhostMap, engineInit factories cfg = .ok vhostMap →
        ∃ vhost initialised, vhosts[i]? = some vhost ∧ initVhost factories vhost = .ok initialised ∧
          lookupVhost vhostMap name = some initialised := by
  refine ⟨labelled_of_defaulted h, fun name => ?_⟩
  obtain ⟨i, hlookup, hi⟩ := lookupVhostAt_spec h name
  exact ⟨i, hlookup, hi, fun factories vhostMap hinit => lookupVhost_eq h hinit hi⟩

end VirtualHosts

/-- Two virtual hosts that list "a" and one of which lists "b" too, neither of them default, with a location
each. -/
def overlapping : Config.ServerConfig Unit :=
  ⟨[], [], [⟨[], [[97]], [⟨[47], [114], [102], []⟩]⟩, ⟨[], [[97], [98]], [⟨[47, 97], [115], [102], []⟩]⟩],
    none, none, []⟩

/-- `engine_init` answers for them, and leads every name to a virtual host. -/
theorem lookupVhost_first_overlapping : ∃ vhosts vhostMap,
    defaultedVhosts overlapping = .ok vhosts ∧ engineInit (fun _ => true) overlapping = .ok vhostMap ∧
    Labelled overlapping vhosts ∧ ∀ name, ∃ i, lookupVhostAt (vhostEntries vhosts 0) name = some i ∧
      (FirstNamed vhosts name i ∨
        (∀ vhost ∈ vhosts, name ∉ vhost.serverNames) ∧ FirstNamed vhosts defaultName i) ∧
      ∃ vhost initialised, vhosts[i]? = some vhost ∧ initVhost (fun _ => true) vhost = .ok initialised ∧
        lookupVhost vhostMap name = some initialised := by
  obtain ⟨vhosts, h⟩ : ∃ vhosts, defaultedVhosts overlapping = .ok vhosts := ⟨_, rfl⟩
  obtain ⟨vhostMap, hinit⟩ : ∃ vhostMap, engineInit (fun _ => true) overlapping = .ok vhostMap := by
    rw [exists_engineInit_iff]
    unfold PlainUris
    decide +kernel
  refine ⟨vhosts, vhostMap, h, hinit, (lookupVhost_first h).1, fun name => ?_⟩
  obtain ⟨i, hlookup, hi, hserved⟩ := (lookupVhost_first h).2 name
  exact ⟨i, hlookup, hi, hserved (fun _ => true) vhostMap hinit⟩

end Latypus.Server
