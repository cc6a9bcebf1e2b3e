import Latypus.Lib.Result
import Latypus.Lib.Search
import Latypus.Config.Directives
import Latypus.Config.Grammar
import Mathlib.Data.List.Chain
import Mathlib.Data.List.Induction

/-! The block stack of a configuration over whole documents. The parser starts a block only behind
a symbol, so the line has a name then; the block functions keep the stack, the current virtual host
and the current location together; but closing a block, and the message about a location outside a
virtual host, look at the innermost block without asking whether there is one. -/

namespace Latypus.Config
open Lib Http

/-! ### A block starts behind a symbol -/

namespace ConfigParser

/-- A start of a block comes directly after a symbol. -/
def Announced {σ : Type} (a b : Event σ) : Prop := b = .startBlock → ∃ value, a = .symbol value

/-- The states in which the last call was that of a symbol. -/
def Ready (q : Nat) : Prop := q = 2 ∨ q = 13

instance (q : Nat) : Decidable (Ready q) := inferInstanceAs (Decidable (_ ∨ _))

theorem isChain_of_notMem {σ : Type} {events rest : List (Event σ)} (h : .startBlock ∉ events)
    (hrest : ∀ a, List.IsChain Announced (a :: rest)) (a : Event σ) :
    List.IsChain Announced (a :: (events ++ rest)) := by
  induction events generalizing a with
  | nil => exact hrest a
  | cons e events ih =>
    rw [List.mem_cons, not_or] at h
    exact .cons_cons (fun he => absurd he.symm h.1) (ih h.2 e)

theorem one_mem_of_actionLoop {p : Nat} {s : ConfigParser} {as : List Nat}
    (h : .startBlock ∈ (actionLoop p s as).2) : 1 ∈ as := by
  induction as generalizing s with
  | nil => simp [actionLoop] at h
  | cons a as ih =>
    simp only [actionLoop, List.mem_append] at h
    rcases h with h | h
    · unfold action at h
      split at h <;> simp at h
      exact List.mem_cons_self
    · exact List.mem_cons_of_mem a (ih h)

set_option synthInstance.maxSize 256 in
/-- The actions of the table, by what they say of blocks and symbols. -/
theorem transActs_cases {q : Nat} (hq : q < 14) (c : UInt8) :
    (q = 13 ∧ ¬ Ready (transTarg (trans q c)) ∧ (transActs (trans q c) = [1] ∨ transActs (trans q c) = [1, 0])) ∨
      (1 ∉ transActs (trans q c) ∧ ¬ Ready (transTarg (trans q c))) ∨
      (q = 2 ∧ transActs (trans q c) = []) ∨
      transActs (trans q c) = [3] ∨ transActs (trans q c) = [4] := by
  have htable : ∀ q < 14, ∀ r ∈ classes,
      (q = 13 ∧ ¬ Ready (transTarg (trans q r)) ∧ (transActs (trans q r) = [1] ∨ transActs (trans q r) = [1, 0])) ∨
      (1 ∉ transActs (trans q r) ∧ ¬ Ready (transTarg (trans q r))) ∨
      (q = 2 ∧ transActs (trans q r) = []) ∨
      transActs (trans q r) = [3] ∨ transActs (trans q r) = [4] := by
    simp only [classes, List.forall_mem_map]
    decide +kernel
  rw [trans_classOf]
  exact htable q hq _ (classOf_mem (by decide) c)

theorem eofActs_cases {q : Nat} (hq : q < 14) :
    (q = 13 ∧ eofActionLoop (eofActs q) = [.startBlock, .configDone]) ∨ .startBlock ∉ eofActionLoop (eofActs q) := by
  revert q
  decide

theorem transTarg_lt (t : Nat) : transTarg t < 14 := by
  by_cases ht : t < Table.transTargs.length
  · have htable : ∀ t < Table.transTargs.length, transTarg t < 14 := by decide
    exact htable t ht
  · rw [transTarg, List.getD_eq_default _ _ (Nat.not_lt.mp ht)]
    decide

theorem exec_cons_events (c : UInt8) (w : Bytes) (p : Nat) (s : ConfigParser) :
    (exec (c :: w) p s).2 =
      (actionLoop p { s with cs := transTarg (trans s.cs c) } (transActs (trans s.cs c))).2 ++
        if (actionLoop p { s with cs := transTarg (trans s.cs c) } (transActs (trans s.cs c))).1.cs = error then []
        else (exec w (p + 1)
          (actionLoop p { s with cs := transTarg (trans s.cs c) } (transActs (trans s.cs c))).1).2 := by
  simp only [exec]
  split_ifs
  · rw [List.append_nil]
  · rfl

theorem isChain_exec (w : Bytes) (p : Nat) (s : ConfigParser) (hs : s.cs < 14) (a : Event HeaderString)
    (ha : Ready s.cs → ∃ value, a = .symbol value) : List.IsChain Announced (a :: (exec w p s).2) := by
  induction w generalizing p s a with
  | nil =>
    rcases eofActs_cases hs with ⟨h13, heof⟩ | heof
    · simp only [exec, heof]
      refine .cons_cons (fun _ => ha (.inr h13)) (.cons_cons (fun h => ?_) (.singleton _))
      cases h
    · simpa [exec] using isChain_of_notMem heof (fun a => .singleton a) a
  | cons c w ih =>
    rw [exec_cons_events]
    set r := actionLoop p { s with cs := transTarg (trans s.cs c) } (transActs (trans s.cs c)) with hr
    have hcs : r.1.cs = transTarg (trans s.cs c) := actionLoop_cs p _ _
    -- the calls of the rest, behind any call that may come before them
    have hrest (a : Event HeaderString) (ha : Ready (transTarg (trans s.cs c)) → ∃ value, a = .symbol value) :
        List.IsChain Announced (a :: if r.1.cs = error then [] else (exec w (p + 1) r.1).2) := by
      split_ifs
      · exact .singleton a
      · apply ih
        · rw [hcs]
          exact transTarg_lt _
        · rw [hcs]
          exact ha
    rcases transActs_cases hs c with ⟨h13, hnot, hacts⟩ | ⟨hacts, hnot⟩ | ⟨h2, hacts⟩ | hacts | hacts
    · have hevents : r.2 = [.startBlock] := by
        rcases hacts with hacts | hacts <;> rw [hr, hacts] <;> rfl
      rw [hevents]
      exact .cons_cons (fun _ => ha (.inr h13)) (hrest _ fun h => absurd h hnot)
    · apply isChain_of_notMem
      · exact fun hmem => hacts (one_mem_of_actionLoop hmem)
      · exact fun a => hrest a fun h => absurd h hnot
    · have hevents : r.2 = [] := by rw [hr, hacts]; rfl
      rw [hevents]
      exact hrest a fun _ => ha (.inl h2)
    all_goals
      rw [hr, hacts]
      refine .cons_cons (fun h => ?_) (hacts ▸ hrest _ fun _ => ⟨_, rfl⟩)
      cases h

/-! ### A symbol is a part of the text -/

/-- The slice ends before a position, or it is empty. -/
def Before (n : Nat) (str : HeaderString) : Prop := str.length = 0 ∨ str.data.getD 0 + str.length ≤ n

theorem Before.mono {m n : Nat} {str : HeaderString} (h : Before m str) (hle : m ≤ n) : Before n str :=
  h.imp id fun h => h.trans hle

theorem before_of_actionLoop {p : Nat} {s : ConfigParser} {as : List Nat} {str : HeaderString}
    (h : .symbol str ∈ (actionLoop p s as).2) : Before p str := by
  induction as generalizing s with
  | nil => cases h
  | cons a as ih =>
    simp only [actionLoop, List.mem_append] at h
    rcases h with h | h
    · unfold action at h
      unfold Before
      split at h <;> simp only [List.mem_singleton, List.not_mem_nil, reduceCtorEq, Event.symbol.injEq] at h
      · subst h
        show p - s.mark.getD 0 = 0 ∨ s.mark.getD 0 + (p - s.mark.getD 0) ≤ p
        omega
      · subst h
        cases s.mark with
        | none => exact .inr (by show 0 + (p - 0 - 2) ≤ p; omega)
        | some m =>
          show p - m - 2 = 0 ∨ m + 1 + (p - m - 2) ≤ p
          omega
    · exact ih h

theorem before_of_exec {w : Bytes} {p : Nat} {s : ConfigParser} {str : HeaderString}
    (h : .symbol str ∈ (exec w p s).2) : Before (p + w.length) str := by
  induction w generalizing p s with
  | nil =>
    have hnone : ∀ as, .symbol str ∉ eofActionLoop as := by
      intro as
      induction as with
      | nil => simp [eofActionLoop]
      | cons a as ih =>
        unfold eofActionLoop
        split <;> simp_all
    exact absurd h (hnone _)
  | cons c w ih =>
    rw [exec_cons_events, List.mem_append] at h
    rcases h with h | h
    · exact (before_of_actionLoop h).mono (Nat.le_add_right _ _)
    · split_ifs at h
      · cases h
      · refine (ih h).mono ?_
        rw [List.length_cons]
        omega

/-- A symbol has no terminator in it. -/
theorem notMem_of_symbol {text : Bytes} {str : HeaderString} (h : .symbol str ∈ (parse text).2) :
    0 ∉ bytesAt text str := by
  have hbefore : Before (0 + (cString text).length) str := before_of_exec h
  rw [Nat.zero_add] at hbefore
  intro h0
  rcases hbefore with hlen | hle
  · rw [bytesAt, hlen] at h0
    cases h0
  · have hpre : cString text <+: text := List.takeWhile_prefix _
    have htake : bytesAt text str = ((cString text).drop (str.data.getD 0)).take str.length := by
      obtain ⟨rest, hrest⟩ := hpre
      rw [bytesAt]
      nth_rewrite 1 [← hrest]
      rw [List.drop_append_of_le_length (by omega), List.take_append_of_le_length]
      rw [List.length_drop]
      omega
    rw [htake] at h0
    have hmem := List.mem_of_mem_drop (List.mem_of_mem_take h0)
    simpa using List.mem_takeWhile_imp hmem

end ConfigParser

/-! ### What is current in the innermost block -/

def Halt.Fatal (h : Halt) : Prop := ∃ format args, h = .fatal format args

namespace ServerConfig
variable {Addr : Type} {cfg cfg' : ServerConfig Addr}

/-- The blocks that are open, and the virtual host and the location that are current in them. -/
inductive Context (cfg : ServerConfig Addr) : Prop
  | top (hblock : cfg.block = []) (hvhost : cfg.currentVhost = none) (hlocation : cfg.currentLocation = none)
  | server (args : Line) (v : Nat) (hblock : cfg.block = [ascii "http_server" :: args])
      (hvhost : cfg.currentVhost = some v) (hv : v < cfg.vhostList.length) (hlocation : cfg.currentLocation = none)
  | location (args args' : Line) (v l : Nat) (vhost : VhostConfig Addr)
      (hblock : cfg.block = [ascii "location" :: args', ascii "http_server" :: args])
      (hvhost : cfg.currentVhost = some v) (hv : cfg.vhostList[v]? = some vhost)
      (hlocation : cfg.currentLocation = some (v, l)) (hl : l < vhost.locationList.length)

theorem Context.congr (h : Context cfg) (hblock : cfg'.block = cfg.block) (hvhosts : cfg'.vhostList = cfg.vhostList)
    (hvhost : cfg'.currentVhost = cfg.currentVhost) (hlocation : cfg'.currentLocation = cfg.currentLocation) :
    Context cfg' := by
  cases h with
  | top h1 h2 h3 => exact .top (hblock.trans h1) (hvhost.trans h2) (hlocation.trans h3)
  | server args v h1 h2 h3 h4 =>
    exact .server args v (hblock.trans h1) (hvhost.trans h2) (hvhosts ▸ h3) (hlocation.trans h4)
  | location args args' v l vhost h1 h2 h3 h4 h5 =>
    exact .location args args' v l vhost (hblock.trans h1) (hvhost.trans h2) (hvhosts ▸ h3) (hlocation.trans h4) h5

theorem ascii_ne : ascii "location" ≠ ascii "http_server" := by decide

/-- The uris of the locations. -/
def uris (cfg : ServerConfig Addr) : List Bytes := cfg.vhostList.flatMap fun vhost => vhost.locationList.map (·.uri)

theorem mem_modify {α : Type} {f : α → α} {l : List α} {n : Nat} {a : α} (h : a ∈ l.modify n f) :
    a ∈ l ∨ ∃ b, l[n]? = some b ∧ a = f b := by
  obtain ⟨i, hi⟩ := List.mem_iff_getElem?.mp h
  rw [List.getElem?_modify, Option.map_eq_map, Option.map_eq_some_iff] at hi
  obtain ⟨b, hb, rfl⟩ := hi
  split_ifs with hn
  · exact .inr ⟨b, hn ▸ hb, rfl⟩
  · exact .inl (List.mem_of_getElem? hb)

/-- Changing a virtual host adds the uris that it adds. -/
theorem uris_modify_subset (cfg : ServerConfig Addr) (v : Nat) (new : List Bytes)
    {f : VhostConfig Addr → VhostConfig Addr}
    (hf : ∀ vhost, (f vhost).locationList.map (·.uri) ⊆ vhost.locationList.map (·.uri) ++ new) :
    uris { cfg with vhostList := cfg.vhostList.modify v f } ⊆ cfg.uris ++ new := by
  intro uri huri
  obtain ⟨vhost, hvhost, huri⟩ := List.mem_flatMap.mp huri
  rcases mem_modify hvhost with hold | ⟨vhost', hold, rfl⟩
  · exact List.mem_append_left _ (List.mem_flatMap.mpr ⟨vhost, hold, huri⟩)
  · rcases List.mem_append.mp (hf vhost' huri) with huri | huri
    · exact List.mem_append_left _ (List.mem_flatMap.mpr ⟨vhost', List.mem_of_getElem? hold, huri⟩)
    · exact List.mem_append_right _ huri

/-- What a directive leaves: the same blocks, what is current in them, and no new uri. -/
structure Within (cfg cfg' : ServerConfig Addr) : Prop where
  context : Context cfg'
  block : cfg'.block = cfg.block
  uris : cfg'.uris ⊆ cfg.uris

theorem Within.refl (h : Context cfg) : Within cfg cfg := ⟨h, rfl, List.Subset.refl _⟩

/-- In a block of a virtual host one is current. -/
theorem onVhost_spec (h : Context cfg) (hin : cfg.inBlock "http_server" = true)
    {f : VhostConfig Addr → VhostConfig Addr} (hf : ∀ vhost, (f vhost).locationList = vhost.locationList) :
    Ensures Halt.Fatal (Within cfg) (cfg.onVhost f) := by
  unfold inBlock at hin
  cases h with
  | top h1 => simp [h1] at hin
  | server args v h1 h2 h3 h4 =>
    have hvhost : cfg.onVhost f = .ok { cfg with vhostList := cfg.vhostList.modify v f } := by
      unfold onVhost
      rw [h2]
    rw [hvhost]
    refine ⟨.server args v h1 h2 ?_ h4, rfl, ?_⟩
    · show v < (cfg.vhostList.modify v f).length
      rwa [List.length_modify]
    · have hsub := uris_modify_subset cfg v [] (f := f) fun vhost => by simp [hf]
      rwa [List.append_nil] at hsub
  | location args args' v l vhost h1 => simp [h1, ascii_ne] at hin

theorem onLocation_spec (h : Context cfg) (hin : cfg.inBlock "location" = true)
    {f : LocationConfig → LocationConfig} (hf : ∀ location, (f location).uri = location.uri) :
    Ensures Halt.Fatal (Within cfg) (cfg.onLocation f) := by
  unfold inBlock at hin
  cases h with
  | top h1 => simp [h1] at hin
  | server args v h1 => simp [h1, ascii_ne.symm] at hin
  | location args args' v l vhost h1 h2 h3 h4 h5 =>
    have hlocation : cfg.onLocation f = .ok { cfg with
        vhostList := cfg.vhostList.modify v fun vhost =>
          { vhost with locationList := vhost.locationList.modify l f } } := by
      unfold onLocation
      rw [h4]
    rw [hlocation]
    refine ⟨.location args args' v l { vhost with locationList := vhost.locationList.modify l f } h1 h2 ?_ h4 ?_, rfl, ?_⟩
    · show (cfg.vhostList.modify v _)[v]? = _
      rw [List.getElem?_modify_eq, h3]
      rfl
    · show l < (vhost.locationList.modify l f).length
      rwa [List.length_modify]
    · have hsub := uris_modify_subset cfg v []
        (f := fun vhost => { vhost with locationList := vhost.locationList.modify l f }) fun vhost => ?_
      · rwa [List.append_nil] at hsub
      · intro uri huri
        obtain ⟨location, hlocation, rfl⟩ := List.mem_map.mp huri
        rcases mem_modify hlocation with hold | ⟨location', hold, rfl⟩
        · exact List.mem_append_left _ (List.mem_map_of_mem hold)
        · rw [hf]
          exact List.mem_append_left _ (List.mem_map_of_mem (List.mem_of_getElem? hold))

/-! ### The directives -/

variable {line : Line}

theorem arg_mem {i : Nat} (h : i < line.length) : Ensures Halt.Fatal (· ∈ line) (arg line i) := by
  unfold arg
  rw [List.getElem?_eq_getElem h]
  exact List.getElem_mem h

theorem arg_spec {i : Nat} (h : i < line.length) : Ensures Halt.Fatal (fun _ => True) (arg line i) :=
  (arg_mem h).mono (fun _ => id) fun _ _ => trivial

theorem fatalArg_spec {α : Type} {Q : α → Prop} {i : Nat} (format : String) (h : i < line.length) :
    Ensures Halt.Fatal Q (fatalArg format line i) :=
  (arg_spec h).bind fun value _ => ⟨format, [value], rfl⟩

/-- A directive with enough arguments ends in a fatal exit or keeps what is current. -/
def Record.Keeps (rec : Record Addr) : Prop :=
  0 < rec.minargs ∧ ∀ line cfg, rec.minargs ≤ (line.length : Int) → Context cfg →
    Ensures Halt.Fatal (Within cfg) (rec.fn line cfg)

theorem vhostSetting_spec (key : String) (hline : 2 ≤ line.length) (h : Context cfg) :
    Ensures Halt.Fatal (Within cfg) (vhostSetting key line cfg) := by
  unfold vhostSetting
  split_ifs with htop hin
  · exact (arg_spec hline).bind fun _ _ => .refl h
  · exact (arg_spec hline).bind fun _ _ => onVhost_spec h hin fun _ => rfl
  · exact fatalArg_spec _ (by omega)

theorem listen_spec (env : Env Addr) (hline : 2 ≤ line.length) (h : Context cfg) :
    Ensures Halt.Fatal (Within cfg) (listen env line cfg) := by
  unfold listen
  by_cases hin : cfg.inBlock "http_server" = true
  · rw [if_pos hin]
    refine (arg_spec hline).bind fun address _ => ?_
    split
    · exact ⟨_, _, rfl⟩
    · split
      · refine (arg_spec (by omega)).bind fun option _ => ?_
        split_ifs
        · exact ⟨_, _, rfl⟩
        · exact onVhost_spec h hin fun _ => rfl
      · exact onVhost_spec h hin fun _ => rfl
  · rw [if_neg hin]
    exact fatalArg_spec _ (by omega)

theorem serverName_spec (hline : 2 ≤ line.length) (h : Context cfg) :
    Ensures Halt.Fatal (Within cfg) (serverName line cfg) := by
  unfold serverName
  split_ifs with hin
  · exact onVhost_spec h hin fun _ => rfl
  · exact fatalArg_spec _ (by omega)

theorem setRoot_spec (hline : 2 ≤ line.length) (h : Context cfg) : Ensures Halt.Fatal (Within cfg) (setRoot line cfg) := by
  unfold setRoot
  split_ifs with htop hin
  · exact (arg_spec hline).bind fun _ _ => ⟨h.congr rfl rfl rfl rfl, rfl, List.Subset.refl _⟩
  · exact (arg_spec hline).bind fun _ _ => onLocation_spec h hin fun _ => rfl
  · exact fatalArg_spec _ (by omega)

theorem index_spec (hline : 2 ≤ line.length) (h : Context cfg) : Ensures Halt.Fatal (Within cfg) (index line cfg) := by
  unfold index
  split_ifs with htop hin
  · exact .refl h
  · exact onLocation_spec h hin fun _ => rfl
  · exact fatalArg_spec _ (by omega)

theorem handler_spec (hline : 2 ≤ line.length) (h : Context cfg) : Ensures Halt.Fatal (Within cfg) (handler line cfg) := by
  unfold handler
  split_ifs with hin
  · exact (arg_spec hline).bind fun _ _ => onLocation_spec h hin fun _ => rfl
  · exact fatalArg_spec _ (by omega)

theorem protoListener_spec (env : Env Addr) (hline : 3 ≤ line.length) (h : Context cfg) :
    Ensures Halt.Fatal (Within cfg) (protoListener env line cfg) := by
  unfold protoListener
  refine (arg_spec (by omega)).bind fun proto _ => ?_
  split
  · exact ⟨_, _, rfl⟩
  refine (arg_spec hline).bind fun address _ => ?_
  split
  · exact ⟨_, _, rfl⟩
  split
  · refine (arg_spec (by omega)).bind fun option _ => ?_
    split
    · exact ⟨_, _, rfl⟩
    · exact .refl h
  · exact .refl h

/-- A setting that reads arguments it has. -/
theorem setting_keeps {minargs maxargs : Int} {args : List Nat} (hmin : 0 < minargs)
    (hargs : ∀ i ∈ args, (i : Int) < minargs) : (setting minargs maxargs args : Record Addr).Keeps := by
  refine ⟨hmin, fun line cfg hline h => ?_⟩
  have hread : ∀ args : List Nat, (∀ i ∈ args, (i : Int) < line.length) →
      Ensures Halt.Fatal (fun _ => True) (args.mapM (arg line)) := by
    intro args hargs
    induction args with
    | nil => trivial
    | cons i args ih =>
      rw [List.mapM_cons]
      refine (arg_spec (Int.ofNat_lt.mp (hargs i List.mem_cons_self))).bind fun _ _ => ?_
      exact (ih fun i hi => hargs i (List.mem_cons_of_mem _ hi)).bind fun _ _ => trivial
  exact (hread args fun i hi => (hargs i hi).trans_le hline).bind fun _ _ => .refl h

theorem serverConfigFns_keep (env : Env Addr) : ∀ p ∈ serverConfigFns env, p.2.Keeps := by
  have hline {line : Line} {n : Nat} (h : (n : Int) ≤ line.length) : n ≤ line.length := Int.ofNat_le.mp h
  simp only [serverConfigFns, List.forall_mem_cons]
  refine ⟨?_, ?_, ?_, ?_, ?_, ?_, ?_, ?_, ?_, ?_, List.forall_mem_nil _⟩
  iterate 5 exact ⟨by simp, fun line cfg h => vhostSetting_spec _ (hline h)⟩
  · exact ⟨by simp, fun line cfg h => listen_spec env (hline h)⟩
  · exact ⟨by simp, fun line cfg h => serverName_spec (hline h)⟩
  · exact ⟨by simp, fun line cfg h => setRoot_spec (hline h)⟩
  · exact ⟨by simp, fun line cfg h => index_spec (hline h)⟩
  · exact ⟨by simp, fun line cfg h => handler_spec (hline h)⟩

theorem generalConfigFns_keep (env : Env Addr) : ∀ p ∈ generalConfigFns env, p.2.Keeps := by
  simp only [generalConfigFns, List.forall_mem_cons]
  refine ⟨?_, ?_, ?_, ?_, ?_, ?_, ?_, ?_, ?_, ?_, ?_, ?_, ?_, ?_, ?_, ?_, ?_, ?_, ?_, ?_, ?_, ?_, ?_, ?_,
    List.forall_mem_nil _⟩
  iterate 22 exact setting_keeps (by decide) (by decide)
  · exact ⟨by simp, fun line cfg h => protoListener_spec env (Int.ofNat_le.mp h)⟩
  · exact setting_keeps (by decide) (by decide)

theorem keeps_of_lookupConfigFn {env : Env Addr} {key : Bytes} {rec : Record Addr}
    (h : lookupConfigFn env key = some rec) : rec.Keeps := by
  unfold lookupConfigFn at h
  rcases Option.or_eq_some_iff.mp h with h | ⟨-, h⟩
  · exact serverConfigFns_keep env _ (mem_of_lookup_eq_some h)
  · exact generalConfigFns_keep env _ (mem_of_lookup_eq_some h)

theorem checkArgs_spec {rec : Record Addr} (hmin : 0 < rec.minargs) (key : Bytes) (line : Line) :
    Ensures Halt.Fatal (fun _ => rec.minargs ≤ (line.length : Int)) (checkArgs rec key line) := by
  unfold checkArgs
  split_ifs with h1 h2 h3
  · exact ⟨_, _, rfl⟩
  · exact ⟨_, _, rfl⟩
  · exact ⟨_, _, rfl⟩
  · show rec.minargs ≤ (line.length : Int)
    exact not_lt.mp fun hlt => h2 ⟨hmin, hlt⟩

theorem endStatement_spec (env : Env Addr) (h : Context cfg) :
    Ensures Halt.Fatal (fun cfg' => Within cfg cfg' ∧ cfg'.line = []) (cfg.endStatement env) := by
  unfold endStatement
  split
  · rename_i hline
    exact ⟨.refl h, hline⟩
  · rename_i key args _
    split
    · exact ⟨_, _, rfl⟩
    · rename_i rec hrec
      obtain ⟨hmin, hkeeps⟩ := keeps_of_lookupConfigFn hrec
      refine (checkArgs_spec hmin key _).bind fun _ hline => ?_
      exact (hkeeps _ cfg hline h).bind fun cfg' h' => ⟨⟨h'.context.congr rfl rfl rfl rfl, h'.block, h'.uris⟩, rfl⟩

/-! ### The blocks -/

/-- The one fault that is left: the innermost block is looked at while there is none. -/
def FatalOr (cfg : ServerConfig Addr) (h : Halt) : Prop := h.Fatal ∨ h = .fault .block ∧ cfg.block = []

theorem lookup_pair {α : Type} {key a b : Bytes} {x y r : α} (h : List.lookup key [(a, x), (b, y)] = some r) :
    key = a ∧ r = x ∨ key = b ∧ r = y := by
  rw [List.lookup_cons, List.lookup_cons, List.lookup_nil] at h
  split at h
  · rename_i heq
    exact .inl ⟨beq_iff_eq.mp heq, (Option.some.inj h).symm⟩
  · split at h
    · rename_i heq
      exact .inr ⟨beq_iff_eq.mp heq, (Option.some.inj h).symm⟩
    · cases h

/-- What the start of a block leaves. -/
def Started (cfg : ServerConfig Addr) (cfg' : ServerConfig Addr) : Prop :=
  Context cfg' ∧ cfg'.block = cfg.line :: cfg.block ∧ cfg'.line = [] ∧ cfg'.uris ⊆ cfg.uris ++ cfg.line

/-- A virtual host starts where no block is open. -/
theorem startServer_spec (h : Context cfg) (hblock : cfg.block = []) {args : Line}
    (hline : cfg.line = ascii "http_server" :: args) :
    Ensures Halt.Fatal (Started cfg)
      (startServer (ascii "http_server" :: args)
        { cfg with block := (ascii "http_server" :: args) :: cfg.block, line := [] }) := by
  unfold startServer
  cases h with
  | top h1 h2 h3 =>
    refine ⟨.server args cfg.vhostList.length ?_ rfl ?_ h3, ?_, rfl, ?_⟩
    · show (ascii "http_server" :: args) :: cfg.block = _
      rw [h1]
    · show cfg.vhostList.length < (cfg.vhostList ++ [_]).length
      simp
    · rw [hline]
    · show (cfg.vhostList ++ [_]).flatMap _ ⊆ _
      rw [List.flatMap_append]
      exact List.append_subset.mpr ⟨List.subset_append_left _ _, List.nil_subset _⟩
  | server args v h1 => rw [h1] at hblock; cases hblock
  | location args args' v l vhost h1 => rw [h1] at hblock; cases hblock

/-- A location starts directly in a virtual host. -/
theorem startLocation_spec (h : Context cfg) (hin : cfg.inBlock "http_server" = true) {args : Line}
    (hline : cfg.line = ascii "location" :: args) (hargs : 1 ≤ args.length) :
    Ensures Halt.Fatal (Started cfg)
      (startLocation (ascii "location" :: args)
        { cfg with block := (ascii "location" :: args) :: cfg.block, line := [] }) := by
  unfold startLocation
  refine (arg_mem (Nat.succ_lt_succ hargs)).bind fun uri huri => ?_
  unfold inBlock at hin
  cases h with
  | top h1 => simp [h1] at hin
  | server args' v h1 h2 h3 h4 =>
    obtain ⟨vhost, hv⟩ : ∃ vhost, cfg.vhostList[v]? = some vhost := ⟨_, List.getElem?_eq_getElem h3⟩
    simp only [h2]
    refine ⟨.location args' args v vhost.locationList.length
      { vhost with locationList := vhost.locationList ++ [⟨uri, [], [], []⟩] } ?_ rfl ?_ ?_ ?_, ?_, rfl, ?_⟩
    · show _ :: cfg.block = _
      rw [h1]
    · show (cfg.vhostList.modify v _)[v]? = _
      rw [List.getElem?_modify_eq, hv]
      rfl
    · show (cfg.vhostList[v]?).map _ = _
      rw [hv]
      rfl
    · show _ < (vhost.locationList ++ [_]).length
      simp
    · rw [hline]
    · refine uris_modify_subset cfg v _ fun vhost => ?_
      rw [List.map_append, hline]
      exact List.append_subset.mpr ⟨List.subset_append_left _ _, List.subset_append_of_subset_right _
        (List.cons_subset.mpr ⟨huri, List.nil_subset _⟩)⟩
  | location args args' v l vhost h1 => simp [h1, ascii_ne] at hin

theorem checkParent_root (fn : Record Addr) (key : Bytes) :
    Ensures (FatalOr cfg) (fun _ => cfg.block = []) (checkParent ⟨fn, none⟩ key cfg) := by
  unfold checkParent
  show Ensures _ _ (if cfg.block.length > 0 then _ else _)
  split_ifs with hblock
  · exact .inl ⟨_, _, rfl⟩
  · exact List.length_eq_zero_iff.mp (by omega)

theorem checkParent_server (h : Context cfg) (fn : Record Addr) (key : Bytes) :
    Ensures (FatalOr cfg) (fun _ => cfg.inBlock "http_server" = true)
      (checkParent ⟨fn, some "http_server"⟩ key cfg) := by
  unfold checkParent
  show Ensures _ _ (if cfg.inBlock "http_server" = true then _ else _)
  split_ifs with hin
  · exact hin
  · cases h with
    | top h1 => simp only [h1]; exact .inr ⟨rfl, h1⟩
    | server args v h1 => simp only [h1]; exact .inl ⟨_, _, rfl⟩
    | location args args' v l vhost h1 => simp only [h1]; exact .inl ⟨_, _, rfl⟩

theorem startBlock_spec (h : Context cfg) (hline : cfg.line ≠ []) :
    Ensures (FatalOr cfg) (Started cfg) cfg.startBlock := by
  unfold startBlock
  split
  · rename_i hnil
    exact absurd hnil hline
  · rename_i key args hkey
    split
    · exact .inl ⟨_, _, rfl⟩
    · rename_i rec hrec
      rcases lookup_pair hrec with ⟨rfl, rfl⟩ | ⟨rfl, rfl⟩
      · refine (checkParent_root _ _).bind fun _ hblock => ?_
        refine ((checkArgs_spec (by simp) _ _).mono (fun _ => .inl) fun _ => id).bind fun _ _ => ?_
        exact (startServer_spec h hblock hkey).mono (fun _ => .inl) fun _ => id
      · refine (checkParent_server h _ _).bind fun _ hin => ?_
        refine ((checkArgs_spec (by simp) _ _).mono (fun _ => .inl) fun _ => id).bind fun _ hargs => ?_
        have hargs' : 2 ≤ (ascii "location" :: args).length := Int.ofNat_le.mp hargs
        exact (startLocation_spec h hin hkey (Nat.le_of_succ_le_succ hargs')).mono (fun _ => .inl) fun _ => id

/-- A block that is open is closed with what is current in it. -/
theorem endBlock_spec (h : Context cfg) (hblock : cfg.block ≠ []) :
    Ensures Halt.Fatal (fun cfg' => Context cfg' ∧ cfg'.block = cfg.block.tail ∧ cfg'.line = cfg.line ∧
      cfg'.uris = cfg.uris)
      cfg.endBlock := by
  unfold endBlock
  cases h with
  | top h1 => exact absurd h1 hblock
  | server args v h1 h2 h3 h4 =>
    rw [h1]
    have hfn : blockEndFns.lookup (ascii "http_server") = some (⟨⟨0, 0, endServer⟩, none⟩ : BlockRecord Addr) := rfl
    simp only [hfn]
    unfold endServer
    simp only [h2, Option.bind_some, List.getElem?_eq_getElem h3]
    split_ifs
    · exact ⟨_, _, rfl⟩
    · refine ⟨.top ?_ rfl h4, congrArg List.tail h1, rfl, rfl⟩
      show cfg.block.tail = []
      rw [h1]
      rfl
  | location args args' v l vhost h1 h2 h3 h4 h5 =>
    rw [h1]
    have hfn : blockEndFns.lookup (ascii "location") = some (⟨⟨0, 0, endLocation⟩, none⟩ : BlockRecord Addr) := rfl
    simp only [hfn]
    have hlocation : cfg.location? = some (vhost.locationList.get ⟨l, h5⟩) := by
      unfold location?
      simp [h4, h3, List.getElem?_eq_getElem h5]
    unfold endLocation
    simp only [hlocation]
    split_ifs
    · exact (fatalArg_spec _ (by simp)).bind fun _ h => h
    · have hv : v < cfg.vhostList.length := (List.getElem?_eq_some_iff.mp h3).1
      refine ⟨.server args v ?_ h2 hv rfl, congrArg List.tail h1, rfl, rfl⟩
      show cfg.block.tail = _
      rw [h1]
      rfl

/-- The line after a call. -/
def lineAfter (line : Line) : Event Bytes → Line
  | .symbol value => line ++ [value]
  | .startBlock | .endStatement => []
  | .endBlock | .configDone => line

/-- What a call leaves: what is current in the blocks, the line, one block more or less, and uris
that were there or on the line. -/
structure Stepped (e : Event Bytes) (cfg cfg' : ServerConfig Addr) : Prop where
  context : Context cfg'
  line : cfg'.line = lineAfter cfg.line e
  depth : cfg'.block.length + [e].count .endBlock = cfg.block.length + [e].count .startBlock
  uris : cfg'.uris ⊆ cfg.uris ++ cfg.line

/-- What each call of the parser does to the blocks and to what is current in them. -/
theorem event_spec (env : Env Addr) (h : Context cfg) (e : Event Bytes) (hstart : e = .startBlock → cfg.line ≠ [])
    (hend : e = .endBlock → cfg.block ≠ []) : Ensures (FatalOr cfg) (Stepped e cfg) (cfg.event env e) := by
  cases e with
  | symbol value => exact ⟨h.congr rfl rfl rfl rfl, rfl, rfl, List.subset_append_left _ _⟩
  | startBlock =>
    refine (startBlock_spec h (hstart rfl)).mono (fun _ => id) ?_
    rintro cfg' ⟨hcontext, hblock, hline, huris⟩
    exact ⟨hcontext, hline, by rw [hblock]; rfl, huris⟩
  | endBlock =>
    refine (endBlock_spec h (hend rfl)).mono (fun _ => .inl) ?_
    rintro cfg' ⟨hcontext, hblock, hline, huris⟩
    refine ⟨hcontext, hline, ?_, huris ▸ List.subset_append_left _ _⟩
    rw [hblock, List.length_tail]
    exact Nat.sub_add_cancel (List.length_pos_of_ne_nil (hend rfl))
  | endStatement =>
    refine (endStatement_spec env h).mono (fun _ => .inl) ?_
    rintro cfg' ⟨hwithin, hline⟩
    exact ⟨hwithin.context, hline, by rw [hwithin.block]; rfl, List.subset_append_of_subset_left _ hwithin.uris⟩
  | configDone => exact ⟨h, rfl, rfl, List.subset_append_left _ _⟩

/-! ### Whole documents -/

/-- The calls that the parser makes on a text. -/
def calls (text : Bytes) : List (Event Bytes) := (ConfigParser.parse text).2.map (Event.map (bytesAt text))

def run (env : Env Addr) (events : List (Event Bytes)) : Except Halt (ServerConfig Addr) :=
  events.foldlM (event env) init

theorem symbol_before_startBlock {text : Bytes} {n : Nat} (h : (calls text)[n]? = some .startBlock) :
    ∃ m value, n = m + 1 ∧ (calls text)[m]? = some (.symbol value) := by
  unfold calls at h ⊢
  rw [List.getElem?_map, Option.map_eq_some_iff] at h
  obtain ⟨e, he, hmap⟩ := h
  obtain rfl : e = .startBlock := by cases e <;> simp [Event.map] at hmap ⊢
  have hchain : List.IsChain ConfigParser.Announced (.configDone :: (ConfigParser.parse text).2) :=
    ConfigParser.isChain_exec _ 0 ⟨ConfigParser.start, none⟩ (by decide) _ fun h => absurd h (by decide)
  obtain ⟨hlt, hget⟩ := List.getElem?_eq_some_iff.mp he
  obtain ⟨value, hvalue⟩ := List.isChain_iff_getElem.mp hchain n (Nat.succ_lt_succ hlt) hget
  cases n with
  | zero => cases hvalue
  | succ m =>
    refine ⟨m, bytesAt text value, rfl, ?_⟩
    have hm : (ConfigParser.parse text).2[m]? = some (.symbol value) :=
      List.getElem?_eq_some_iff.mpr ⟨Nat.lt_of_succ_lt hlt, hvalue⟩
    rw [List.getElem?_map, hm]
    rfl

theorem notMem_of_mem_calls {text value : Bytes} (h : .symbol value ∈ calls text) : 0 ∉ value := by
  unfold calls at h
  obtain ⟨e, he, hmap⟩ := List.mem_map.mp h
  cases e with
  | symbol str =>
    obtain rfl : bytesAt text str = value := by simpa [Event.map] using hmap
    exact ConfigParser.notMem_of_symbol he
  | _ => cases hmap

/-- The names of the open blocks, and what is current in them. -/
def InContext (cfg : ServerConfig Addr) : Prop :=
  cfg.block.map List.head? ∈
      [[], [some (ascii "http_server")], [some (ascii "location"), some (ascii "http_server")]] ∧
    (cfg.currentVhost ≠ none ↔ cfg.block ≠ []) ∧ (cfg.currentLocation ≠ none ↔ cfg.block.length = 2)

theorem Context.inContext (h : Context cfg) : cfg.InContext := by
  unfold InContext
  cases h with
  | top h1 h2 h3 => simp [h1, h2, h3]
  | server args v h1 h2 h3 h4 => simp [h1, h2, h4]
  | location args args' v l vhost h1 h2 h3 h4 h5 => simp [h1, h2, h4]

theorem line_ne_nil_of_startBlock {env : Env Addr} {text : Bytes} {n : Nat}
    (h : (calls text)[n]? = some .startBlock) (hrun : run env ((calls text).take n) = .ok cfg) : cfg.line ≠ [] := by
  obtain ⟨m, value, rfl, hm⟩ := symbol_before_startBlock h
  unfold run at hrun
  rw [foldlM_take_succ hm] at hrun
  cases hprev : ((calls text).take m).foldlM (event env) init with
  | error e => rw [hprev] at hrun; cases hrun
  | ok cfg' =>
    rw [hprev] at hrun
    obtain rfl := Except.ok.inj hrun
    show cfg'.line ++ [value] ≠ []
    simp

/-- The line that the calls have left. -/
def pendingLine (events : List (Event Bytes)) : Line := events.foldl lineAfter []

theorem symbol_of_mem_pendingLine {events : List (Event Bytes)} {value : Bytes} (h : value ∈ pendingLine events) :
    .symbol value ∈ events := by
  unfold pendingLine at h
  induction events using List.reverseRecOn with
  | nil => cases h
  | append_singleton events e ih =>
    rw [List.foldl_append] at h
    refine List.mem_append.mpr ?_
    cases e with
    | symbol value' =>
      rcases List.mem_append.mp h with h | h
      · exact .inl (ih h)
      · rw [List.mem_singleton.mp h]
        exact .inr (List.mem_singleton.mpr rfl)
    | startBlock | endStatement => cases h
    | endBlock | configDone => exact .inl (ih h)

/-- What the calls so far have left. -/
structure After (events : List (Event Bytes)) (cfg : ServerConfig Addr) : Prop where
  context : Context cfg
  line : cfg.line = pendingLine events
  depth : cfg.block.length + events.count .endBlock = events.count .startBlock
  uris : ∀ uri ∈ cfg.uris, .symbol uri ∈ events

theorem After.nil : After [] (init : ServerConfig Addr) := ⟨.top rfl rfl rfl, rfl, rfl, List.forall_mem_nil _⟩

theorem After.step {env : Env Addr} {text : Bytes} {n : Nat} {e : Event Bytes} (h : After ((calls text).take n) cfg)
    (he : (calls text)[n]? = some e) (hrun : run env ((calls text).take n) = .ok cfg)
    (hend : e = .endBlock → cfg.block ≠ []) :
    Ensures (FatalOr cfg) (After ((calls text).take n ++ [e])) (cfg.event env e) := by
  refine (event_spec env h.context e ?_ hend).mono (fun _ => id) ?_
  · rintro rfl
    exact line_ne_nil_of_startBlock he hrun
  · rintro cfg' ⟨hcontext, hline, hdepth, huris⟩
    refine ⟨hcontext, ?_, ?_, fun uri huri => List.mem_append_left _ ?_⟩
    · rw [hline, h.line, pendingLine, pendingLine, List.foldl_append]
      rfl
    · have hdepth' := h.depth
      rw [List.count_append, List.count_append]
      omega
    · rcases List.mem_append.mp (huris huri) with hold | hnew
      · exact h.uris uri hold
      · rw [h.line] at hnew
        exact symbol_of_mem_pendingLine hnew

/-- A run in which blocks are closed only while one is open. -/
theorem run_spec {env : Env Addr} {text : Bytes}
    (hend : ∀ n cfg, (calls text)[n]? = some .endBlock → run env ((calls text).take n) = .ok cfg → cfg.block ≠ [])
    (n : Nat) :
    Ensures (fun h => h.Fatal ∨ h = .fault .block) (After ((calls text).take n)) (run env ((calls text).take n)) := by
  refine Ensures.foldlM_take After.nil (fun n e cfg he hrun hcfg => ?_) n
  refine (hcfg.step he hrun ?_).mono (fun h hh => hh.imp id And.left) fun _ => id
  rintro rfl
  exact hend n cfg he hrun

/-- As long as blocks are closed only while one is open, the stack, the current virtual host and
the current location agree in every state up to the first fatal exit, and no directive and no block
function reads a pointer that is null or an argument that is not there. -/
theorem directives_in_context (env : Env Addr) (text : Bytes)
    (hend : ∀ n cfg, (calls text)[n]? = some .endBlock → run env ((calls text).take n) = .ok cfg → cfg.block ≠ [])
    (n : Nat) :
    (∀ cfg, run env ((calls text).take n) = .ok cfg →
      cfg.InContext ∧ ((calls text)[n]? = some .startBlock → cfg.line ≠ [])) ∧
    ∀ what, run env ((calls text).take n) = .error (.fault what) → what = .block := by
  have hspec := run_spec hend n
  refine ⟨fun cfg hrun => ⟨?_, fun he => line_ne_nil_of_startBlock he hrun⟩, fun what hrun => ?_⟩
  · rw [hrun] at hspec
    exact hspec.context.inContext
  · rw [hrun] at hspec
    rcases hspec with ⟨format, args, heq⟩ | heq
    · cases heq
    · cases heq
      rfl

/-- A virtual host with a location, closed again. -/
def nestedText : Bytes := ascii "http_server \x7b location / \x7b root /r; \x7d \x7d\n"

/-- No address is known, and no protocol. -/
def noEnv : Env Unit := ⟨fun _ => none, fun _ => false⟩

theorem directives_in_context_nested :
    ∃ cfg, run noEnv ((calls nestedText).take 4) = .ok cfg ∧ cfg.InContext ∧ cfg.line ≠ [] := by
  have hend : ∀ n < (calls nestedText).length, (calls nestedText)[n]? = some .endBlock →
      ((run noEnv ((calls nestedText).take n)).toOption.all fun cfg => cfg.block ≠ []) = true := by
    decide +kernel
  have hok : (run noEnv ((calls nestedText).take 4)).toOption.isSome = true := by decide +kernel
  cases hrun : run noEnv ((calls nestedText).take 4) with
  | error h =>
    rw [hrun] at hok
    cases hok
  | ok cfg =>
    refine ⟨cfg, rfl, (directives_in_context noEnv nestedText (fun n cfg he hrun => ?_) 4).1 cfg hrun |>.imp id ?_⟩
    · have hall := hend n (List.getElem?_eq_some_iff.mp he).1 he
      rw [hrun] at hall
      simpa [Except.toOption] using hall
    · exact fun h => h (by decide +kernel)

/-! ### Balance -/

theorem read_eq (env : Env Addr) (text : Bytes) :
    read env text = run env (calls text) >>= fun cfg =>
      if (ConfigParser.parse text).1 then .ok cfg else .error (.fatal "config: parse error" []) := rfl

/-- The calls that have been made when a call is reached without a fatal exit. -/
def Reached (env : Env Addr) (text : Bytes) (n : Nat) : Prop := ∃ cfg, run env ((calls text).take n) = .ok cfg

/-- Counted over the calls that are made: a block is closed, and a location started, only while
more blocks have been started than closed, and in a text that is accepted as many are closed as
started. -/
structure Balanced (env : Env Addr) (text : Bytes) : Prop where
  close : ∀ n, Reached env text n → (calls text)[n]? = some .endBlock →
    ((calls text).take n).count .endBlock < ((calls text).take n).count .startBlock
  location : ∀ n, Reached env text n → (calls text)[n]? = some .startBlock →
    (pendingLine ((calls text).take n)).head? = some (ascii "location") →
    ((calls text).take n).count .endBlock < ((calls text).take n).count .startBlock
  accepted : (ConfigParser.parse text).1 = true → Reached env text (calls text).length →
    (calls text).count .endBlock = (calls text).count .startBlock

theorem run_take_error {env : Env Addr} {text : Bytes} {n : Nat} {h : Halt}
    (hrun : run env ((calls text).take n) = .error h) : run env (calls text) = .error h := by
  unfold run at hrun ⊢
  rw [← List.take_append_drop n (calls text), List.foldlM_append, hrun]
  rfl

theorem not_fault_of_fatal {α : Type} {Q : α → Prop} {r : Except Halt α} (h : Ensures Halt.Fatal Q r) (what : Fault) :
    r ≠ .error (.fault what) := by
  rintro rfl
  obtain ⟨format, args, heq⟩ := h
  cases heq

/-- A block starts without one to stand in: the location looks for it in its message. -/
theorem startBlock_of_top (h : Context cfg) (hblock : cfg.block = []) {key : Bytes} {args : Line}
    (hline : cfg.line = key :: args) :
    cfg.startBlock = .error (.fault .block) ↔ key = ascii "location" := by
  constructor
  · intro hfault
    by_contra hkey
    refine not_fault_of_fatal (Q := Started cfg) ?_ .block hfault
    unfold startBlock
    simp only [hline]
    split
    · exact ⟨_, _, rfl⟩
    · rename_i rec hrec
      rcases lookup_pair hrec with ⟨rfl, rfl⟩ | ⟨rfl, -⟩
      · have hparent : checkParent ⟨⟨1, 1, startServer⟩, none⟩ (ascii "http_server") cfg = .ok () := by
          unfold checkParent
          simp [hblock]
        rw [hparent]
        refine (checkArgs_spec (by simp) _ _).bind fun _ _ => ?_
        exact startServer_spec h hblock hline
      · exact absurd rfl hkey
  · rintro rfl
    have hfn : blockStartFns.lookup (ascii "location") =
        some (⟨⟨2, 2, startLocation⟩, some "http_server"⟩ : BlockRecord Addr) := rfl
    unfold startBlock checkParent inBlock
    simp only [hline, hfn, hblock]
    rfl

/-- The calls that look at the stack while it is empty. -/
theorem event_block_iff (env : Env Addr) (h : Context cfg) (e : Event Bytes)
    (hstart : e = .startBlock → cfg.line ≠ []) :
    cfg.event env e = .error (.fault .block) ↔
      cfg.block = [] ∧ (e = .endBlock ∨ e = .startBlock ∧ cfg.line.head? = some (ascii "location")) := by
  by_cases hblock : cfg.block = []
  · cases e with
    | startBlock =>
      obtain ⟨key, args, hline⟩ := List.exists_cons_of_ne_nil (hstart rfl)
      have hiff := startBlock_of_top h hblock hline
      simpa [event, hblock, hline] using hiff
    | endBlock => simp [event, endBlock, hblock]
    | endStatement => simpa [event] using not_fault_of_fatal (endStatement_spec env h) .block
    | symbol value => simp [event]
    | configDone => simp [event]
  · have hspec := event_spec env h e hstart fun _ => hblock
    refine iff_of_false (fun hfault => ?_) fun h => hblock h.1
    rw [hfault] at hspec
    rcases hspec with ⟨format, args, heq⟩ | ⟨-, htop⟩
    · cases heq
    · exact hblock htop

theorem After.block_ne_nil_iff {events : List (Event Bytes)} (h : After events cfg) :
    cfg.block ≠ [] ↔ events.count .endBlock < events.count .startBlock := by
  have hdepth := h.depth
  rw [← List.length_pos_iff]
  omega

/-- A balanced run looks at no empty stack. -/
theorem Balanced.run_spec {env : Env Addr} {text : Bytes} (h : Balanced env text) (n : Nat) :
    Ensures (fun halt => halt ≠ .fault .block) (After ((calls text).take n)) (run env ((calls text).take n)) := by
  refine Ensures.foldlM_take After.nil (fun n e cfg he hrun hcfg => ?_) n
  have hend : e = .endBlock → cfg.block ≠ [] := by
    rintro rfl
    exact hcfg.block_ne_nil_iff.mpr (h.close n ⟨cfg, hrun⟩ he)
  have hstart : e = .startBlock → cfg.line ≠ [] := by
    rintro rfl
    exact line_ne_nil_of_startBlock he hrun
  have hstep := hcfg.step he hrun hend
  cases hevent : cfg.event env e with
  | ok cfg' =>
    rw [hevent] at hstep
    exact hstep
  | error halt =>
    rintro rfl
    obtain ⟨hblock, rfl | ⟨rfl, hkey⟩⟩ := (event_block_iff env hcfg.context e hstart).mp hevent
    · exact hend rfl hblock
    · rw [hcfg.line] at hkey
      exact hcfg.block_ne_nil_iff.mpr (h.location n ⟨cfg, hrun⟩ he hkey) hblock

theorem event_ne_fault {env : Env Addr} {text : Bytes} (h : read env text ≠ .error (.fault .block)) {n : Nat}
    {e : Event Bytes} (he : (calls text)[n]? = some e) (hrun : run env ((calls text).take n) = .ok cfg) :
    cfg.event env e ≠ .error (.fault .block) := by
  intro hevent
  have hstop : run env ((calls text).take (n + 1)) = .error (.fault .block) := by
    unfold run at hrun ⊢
    rw [foldlM_take_succ he, hrun]
    exact hevent
  rw [read_eq, run_take_error hstop] at h
  exact h rfl

theorem closes_of_read {env : Env Addr} {text : Bytes} (h : read env text ≠ .error (.fault .block)) :
    ∀ n cfg, (calls text)[n]? = some .endBlock → run env ((calls text).take n) = .ok cfg → cfg.block ≠ [] := by
  intro n cfg he hrun hblock
  refine event_ne_fault h he hrun ?_
  show cfg.endBlock = _
  unfold endBlock
  rw [hblock]

theorem after_of_read {env : Env Addr} {text : Bytes} (h : read env text = .ok cfg) : After (calls text) cfg := by
  have hrun : run env (calls text) = .ok cfg := by
    rw [read_eq] at h
    cases hrun : run env (calls text) with
    | error halt => rw [hrun] at h; cases h
    | ok cfg' =>
      rw [hrun] at h
      change (if (ConfigParser.parse text).1 then _ else _) = _ at h
      split_ifs at h
      rw [Except.ok.inj h]
  have hspec := run_spec (closes_of_read (by rw [h]; exact nofun)) (calls text).length
  rw [List.take_length, hrun] at hspec
  exact hspec

/-- The uris of an accepted configuration are strings of the text. -/
theorem notMem_uris_of_read {env : Env Addr} {text : Bytes} (h : read env text = .ok cfg) :
    ∀ uri ∈ cfg.uris, 0 ∉ uri :=
  fun uri huri => notMem_of_mem_calls ((after_of_read h).uris uri huri)

/-- The stack is never looked at while it is empty, and an accepted configuration has no block
left open, exactly when the calls are balanced. -/
theorem read_balanced_iff (env : Env Addr) (text : Bytes) :
    (read env text ≠ .error (.fault .block) ∧ ∀ cfg, read env text = .ok cfg → cfg.block = []) ↔
      Balanced env text := by
  constructor
  · rintro ⟨hfault, haccepted⟩
    have hend := closes_of_read hfault
    have hafter (n : Nat) (cfg : ServerConfig Addr) (hrun : run env ((calls text).take n) = .ok cfg) :
        After ((calls text).take n) cfg := by
      have hspec := run_spec hend n
      rw [hrun] at hspec
      exact hspec
    refine ⟨?_, ?_, ?_⟩
    · rintro n ⟨cfg, hrun⟩ he
      exact (hafter n cfg hrun).block_ne_nil_iff.mp (hend n cfg he hrun)
    · rintro n ⟨cfg, hrun⟩ he hkey
      have h := hafter n cfg hrun
      refine h.block_ne_nil_iff.mp fun hblock => event_ne_fault hfault he hrun ?_
      refine (event_block_iff env h.context _ fun _ => line_ne_nil_of_startBlock he hrun).mpr ⟨hblock, .inr ⟨rfl, ?_⟩⟩
      rw [h.line]
      exact hkey
    · rintro hparse ⟨cfg, hrun⟩
      have h := hafter _ cfg hrun
      rw [List.take_length] at hrun h
      have hread : read env text = .ok cfg := by
        rw [read_eq, hrun, hparse]
        rfl
      have hdepth := h.depth
      rw [haccepted cfg hread] at hdepth
      simpa using hdepth
  · intro h
    have hspec := h.run_spec (calls text).length
    rw [List.take_length] at hspec
    rw [read_eq]
    cases hrun : run env (calls text) with
    | error halt =>
      rw [hrun] at hspec
      exact ⟨fun heq => hspec (Except.error.inj heq), nofun⟩
    | ok cfg =>
      rw [hrun] at hspec
      cases hparse : (ConfigParser.parse text).1 with
      | false => exact ⟨nofun, nofun⟩
      | true =>
        refine ⟨nofun, fun cfg' hcfg => ?_⟩
        obtain rfl := Except.ok.inj hcfg
        have hcount := h.accepted hparse ⟨cfg, by rw [List.take_length]; exact hrun⟩
        have hdepth := hspec.depth
        exact List.length_eq_zero_iff.mp (by omega)

/-- A closing brace without a block, a location outside a virtual host, and a virtual host that is
not closed. -/
theorem unbalanced_texts :
    read noEnv (ascii "\x7d\n") = .error (.fault .block) ∧
      read noEnv (ascii "location / \x7b\n") = .error (.fault .block) ∧
      ∃ cfg, read noEnv (ascii "http_server \x7b\n") = .ok cfg ∧ cfg.block ≠ [] := by
  refine ⟨by decide +kernel, by decide +kernel, ⟨[[ascii "http_server"]], [], [⟨[], [], []⟩], some 0, none, []⟩, ?_⟩
  decide +kernel

end ServerConfig
end Latypus.Config
