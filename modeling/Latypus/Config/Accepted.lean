import Latypus.Config.Meaning

/-! Every text that is read with all its blocks closed lays out statements and blocks. The grammar has the items of
such a text, and the block stack the way in which they stand in each other. -/

namespace Latypus.Config
open Lib Http Computability

/-! ### The items of a text -/

theorem isRun_append {ok : UInt8 → Bool} {c : UInt8} (h : ok c = true ∧ c ≠ 92) (w : Bytes) :
    isRun ok (c :: w) = isRun ok w := by
  rw [isRun.eq_def]
  simp only [if_neg h.2, h.1, Bool.true_and]

theorem isRun_escape {ok : UInt8 → Bool} (c : UInt8) (w : Bytes) : isRun ok (92 :: c :: w) = isRun ok w := by
  rw [isRun.eq_def]
  simp only [if_true]

theorem isRun_of_mem {ok : UInt8 → Bool} {P : UInt8 → Prop} (hP : ∀ c, P c → ok c = true ∧ c ≠ 92) {v w : Bytes}
    (hv : v ∈ oneOf P + escape) : isRun ok (v ++ w) = isRun ok w := by
  rcases hv with hv | hv
  · obtain ⟨c, hc, rfl⟩ := mem_oneOf.mp hv
    exact isRun_append (hP c hc) w
  · obtain ⟨a, ha, b, hb, rfl⟩ := Language.mem_mul.mp hv
    obtain ⟨_, rfl, rfl⟩ := mem_oneOf.mp ha
    obtain ⟨c, -, rfl⟩ := mem_oneOf.mp hb
    exact isRun_escape c w

theorem isRun_of_mem_kstar {ok : UInt8 → Bool} {P : UInt8 → Prop} (hP : ∀ c, P c → ok c = true ∧ c ≠ 92) {w : Bytes}
    (hw : w ∈ (oneOf P + escape)∗) : isRun ok w = true := by
  obtain ⟨ws, rfl, hws⟩ := Language.mem_kstar.mp hw
  clear hw
  induction ws with
  | nil => rfl
  | cons v ws ih =>
    rw [List.forall_mem_cons] at hws
    rw [List.flatten_cons, isRun_of_mem hP hws.1]
    exact ih hws.2

theorem exists_symbol {w : Bytes} (hw : w ∈ symbol) : ∃ sym : Symbol, sym.bytes = w := by
  have hquoted {k : UInt8} {l : Language UInt8} (h : w ∈ char k * l * char k) : ∃ raw ∈ l, w = k :: raw ++ [k] := by
    obtain ⟨_, hab, c, hc, rfl⟩ := Language.mem_mul.mp h
    obtain ⟨a, ha, b, hb, rfl⟩ := Language.mem_mul.mp hab
    obtain ⟨_, rfl, rfl⟩ := mem_oneOf.mp ha
    obtain ⟨_, rfl, rfl⟩ := mem_oneOf.mp hc
    exact ⟨b, hb, rfl⟩
  have hrun {k : UInt8} {raw : Bytes} (h : raw ∈ (oneOf (fun c => c ≠ k ∧ c ≠ 92) + escape)∗) :
      isRun (· ≠ k) raw = true := isRun_of_mem_kstar (fun c hc => ⟨decide_eq_true hc.1, hc.2⟩) h
  rcases hw with (hw | hw) | hw
  · obtain ⟨raw, hraw, rfl⟩ := hquoted hw
    exact ⟨⟨.single, raw, hrun hraw, by rintro ⟨⟩⟩, rfl⟩
  · obtain ⟨raw, hraw, rfl⟩ := hquoted hw
    exact ⟨⟨.double, raw, hrun hraw, by rintro ⟨⟩⟩, rfl⟩
  · obtain ⟨a, ha, b, hb, rfl⟩ := Language.mem_mul.mp hw
    have hchar (c : UInt8) (hc : isSymbolChar c = true) : isSymbolChar c = true ∧ c ≠ 92 := by
      refine ⟨hc, ?_⟩
      rintro rfl
      exact absurd hc (by decide)
    refine ⟨⟨.none, a ++ b, (isRun_of_mem hchar ha).trans (isRun_of_mem_kstar hchar hb), fun _ hnil => ?_⟩, rfl⟩
    obtain ⟨rfl, -⟩ := List.append_eq_nil_iff.mp hnil
    rcases ha with ha | ha
    · obtain ⟨c, -, hc⟩ := mem_oneOf.mp ha
      cases hc
    · obtain ⟨a, ha, b, hb, hnil⟩ := Language.mem_mul.mp ha
      obtain ⟨_, rfl, rfl⟩ := mem_oneOf.mp ha
      cases hnil

theorem all_isBlank_of_kstar {w : Bytes} {l : Language UInt8} (hl : ∀ v ∈ l, v.all isBlank) (hw : w ∈ l∗) :
    w.all isBlank := by
  obtain ⟨ws, rfl, hws⟩ := Language.mem_kstar.mp hw
  rw [List.all_flatten, List.all_eq_true]
  exact fun v hv => hl v (hws v hv)

theorem all_isBlank_of_ws {w : Bytes} (hw : w ∈ ws) : w ≠ [] ∧ w.all isBlank := by
  obtain ⟨a, ha, b, hb, rfl⟩ := Language.mem_mul.mp hw
  obtain ⟨c, hc, rfl⟩ := mem_oneOf.mp ha
  have hone : ∀ v ∈ oneOf (isBlank ·), v.all isBlank := by
    intro v hv
    obtain ⟨c, hc, rfl⟩ := mem_oneOf.mp hv
    simpa using hc
  have hb := all_isBlank_of_kstar hone hb
  exact ⟨List.cons_ne_nil _ _, by simpa using And.intro hc (by simpa using hb)⟩

theorem exists_blank {w : Bytes} (hw : w ∈ ws) : ∃ b : Blank, b.bytes = w :=
  ⟨⟨w, (all_isBlank_of_ws hw).1, (all_isBlank_of_ws hw).2⟩, rfl⟩

theorem all_isBlank_of_ws_kstar {w : Bytes} (hw : w ∈ ws∗) : w.all isBlank :=
  all_isBlank_of_kstar (fun _ hv => (all_isBlank_of_ws hv).2) hw

theorem exists_symbols {w : Bytes} (hw : w ∈ symbols) : ∃ first rest, Symbol.bytes first ++ restBytes rest = w := by
  obtain ⟨a, ha, b, hb, rfl⟩ := Language.mem_mul.mp hw
  obtain ⟨first, rfl⟩ := exists_symbol ha
  obtain ⟨ws, rfl, hws⟩ := Language.mem_kstar.mp hb
  clear hb hw
  suffices h : ∃ rest, restBytes rest = ws.flatten by
    obtain ⟨rest, hrest⟩ := h
    exact ⟨first, rest, by rw [hrest]⟩
  induction ws with
  | nil => exact ⟨[], rfl⟩
  | cons v ws ih =>
    rw [List.forall_mem_cons] at hws
    obtain ⟨rest, hrest⟩ := ih hws.2
    obtain ⟨x, hx, y, hy, rfl⟩ := Language.mem_mul.mp hws.1
    obtain ⟨gap, rfl⟩ := exists_blank hx
    obtain ⟨sym, rfl⟩ := exists_symbol hy
    exact ⟨(gap, sym) :: rest, by rw [List.flatten_cons, ← hrest]; rfl⟩

theorem exists_item {w : Bytes} (hw : w ∈ comment + beginBlock + endBlock + statement + ws) :
    ∃ item : Item, item.bytes = w := by
  rcases hw with (((hw | hw) | hw) | hw) | hw
  · obtain ⟨_, hab, c, hc, rfl⟩ := Language.mem_mul.mp hw
    obtain ⟨a, ha, b, hb, rfl⟩ := Language.mem_mul.mp hab
    obtain ⟨_, rfl, rfl⟩ := mem_oneOf.mp ha
    obtain ⟨_, rfl, rfl⟩ := mem_oneOf.mp hc
    refine ⟨.comment b ?_, rfl⟩
    obtain ⟨ws, rfl, hws⟩ := Language.mem_kstar.mp hb
    rw [List.mem_flatten]
    rintro ⟨v, hv, h10⟩
    obtain ⟨c, hc, rfl⟩ := mem_oneOf.mp (hws v hv)
    exact hc (List.mem_singleton.mp h10).symm
  · obtain ⟨_, hab, c, hc, rfl⟩ := Language.mem_mul.mp hw
    obtain ⟨a, ha, b, hb, rfl⟩ := Language.mem_mul.mp hab
    obtain ⟨_, rfl, rfl⟩ := mem_oneOf.mp hc
    obtain ⟨first, rest, rfl⟩ := exists_symbols ha
    obtain ⟨x, hx, y, hy, rfl⟩ := Language.mem_mul.mp hb
    have hblank : (x ++ y).all isBlank := by
      rw [List.all_append, (all_isBlank_of_ws hx).2, all_isBlank_of_ws_kstar hy]
      rfl
    exact ⟨.beginBlock first rest ⟨x ++ y, List.append_ne_nil_of_left_ne_nil (all_isBlank_of_ws hx).1 y, hblank⟩,
      by simp [Item.bytes]⟩
  · obtain ⟨_, rfl, rfl⟩ := mem_oneOf.mp hw
    exact ⟨.endBlock, rfl⟩
  · obtain ⟨_, hab, c, hc, rfl⟩ := Language.mem_mul.mp hw
    obtain ⟨a, ha, b, hb, rfl⟩ := Language.mem_mul.mp hab
    obtain ⟨_, rfl, rfl⟩ := mem_oneOf.mp hc
    obtain ⟨first, rest, rfl⟩ := exists_symbols ha
    have hblank := all_isBlank_of_ws_kstar hb
    by_cases hnil : b = []
    · exact ⟨.statement first rest none, by simp [Item.bytes, hnil]⟩
    · exact ⟨.statement first rest (some ⟨b, hnil, hblank⟩), by simp [Item.bytes]⟩
  · obtain ⟨gap, rfl⟩ := exists_blank hw
    exact ⟨.blank gap, rfl⟩

/-- A text of the grammar is a sequence of items. -/
theorem exists_document {text : Bytes} (h : text ∈ config) : ∃ doc : List Item, doc.flatMap Item.bytes = text := by
  obtain ⟨ws, rfl, hws⟩ := Language.mem_kstar.mp h
  clear h
  induction ws with
  | nil => exact ⟨[], rfl⟩
  | cons v ws ih =>
    rw [List.forall_mem_cons] at hws
    obtain ⟨item, rfl⟩ := exists_item hws.1
    obtain ⟨doc, hdoc⟩ := ih hws.2
    exact ⟨item :: doc, by rw [List.flatMap_cons, hdoc, List.flatten_cons]⟩

/-! ### The blocks of a text -/

/-- The items close this many blocks besides those they open. -/
inductive Closes : Nat → List Item → Prop
  | lays {doc nodes} : Lays doc nodes → Closes 0 doc
  | close {k doc nodes rest} : Lays doc nodes → Closes k rest → Closes (k + 1) (doc ++ .endBlock :: rest)

theorem Closes.cons_item {k : Nat} {item : Item} {doc : List Item}
    (hitem : ∀ doc nodes, Lays doc nodes → ∃ nodes', Lays (item :: doc) nodes') (h : Closes k doc) :
    Closes k (item :: doc) := by
  cases h with
  | lays h =>
    obtain ⟨nodes', h'⟩ := hitem _ _ h
    exact .lays h'
  | close h hrest =>
    obtain ⟨nodes', h'⟩ := hitem _ _ h
    exact .close h' hrest

/-- A block that is opened is the first that is closed. -/
theorem Closes.cons_block {k : Nat} {first : Symbol} {rest : List (Blank × Symbol)} {w : Blank} {doc : List Item}
    (h : Closes (k + 1) doc) : Closes k (.beginBlock first rest w :: doc) := by
  cases h with
  | close h hrest =>
    cases hrest with
    | lays h' => exact .lays (.block h h')
    | close h' hrest' =>
      have hlays : Lays (.beginBlock first rest w :: _ ++ .endBlock :: _) _ := .block h h'
      simpa using Closes.close hlays hrest'

namespace ServerConfig
variable {Addr : Type} {env : Env Addr} {cfg cfg' : ServerConfig Addr} {text : Bytes}

theorem event_of_result {e : Event Bytes} {es : List (Event Bytes)} (h : result env cfg (e :: es) = some cfg')
    (hcontext : Context cfg) (hstart : e = .startBlock → cfg.line ≠ []) (hend : e = .endBlock → cfg.block ≠ []) :
    ∃ mid, Stepped e cfg mid ∧ result env mid es = some cfg' := by
  rw [result_cons] at h
  obtain ⟨mid, hmid, hrest⟩ := Option.bind_eq_some_iff.mp h
  have hspec := event_spec env hcontext e hstart hend
  cases hevent : cfg.event env e with
  | error halt => rw [hevent] at hmid; cases hmid
  | ok next =>
    rw [hevent] at hmid hspec
    obtain rfl : next = mid := Option.some.inj hmid
    exact ⟨next, hspec, hrest⟩

/-- Calls that end with all blocks closed come from items that close them. -/
theorem closes_of_result {doc : List Item} (h : result env cfg (doc.flatMap Item.events) = some cfg')
    (hcontext : Context cfg) (hline : cfg.line = []) (hblock : cfg'.block = []) : Closes cfg.block.length doc := by
  induction doc generalizing cfg with
  | nil =>
    obtain rfl : cfg = cfg' := Option.some.inj h
    rw [hblock]
    exact .lays .nil
  | cons item doc ih =>
    rw [List.flatMap_cons] at h
    -- the line is kept up to the call behind the symbols, so the block and the context are those before them
    have hsymbols {first : Symbol} {rest : List (Blank × Symbol)} {e : Event Bytes}
        (hevents : item.events = symbolEvents first rest ++ [e]) (hend : e ≠ .endBlock) :
        ∃ mid, Stepped e { cfg with line := first.raw :: rest.map fun x => x.2.raw } mid ∧
          result env mid (doc.flatMap Item.events) = some cfg' := by
      rw [hevents, List.append_assoc, result_append, result_symbols first rest hline, Option.bind_some] at h
      exact event_of_result h (hcontext.congr rfl rfl rfl rfl) (fun _ => List.cons_ne_nil _ _) fun he => absurd he hend
    cases item with
    | comment text h10 => exact (ih h hcontext hline).cons_item fun _ nodes h => ⟨nodes, .comment h⟩
    | blank w => exact (ih h hcontext hline).cons_item fun _ nodes h => ⟨nodes, .blank h⟩
    | statement first rest w =>
      obtain ⟨mid, hstep, hrest⟩ := hsymbols rfl (by rintro ⟨⟩)
      have hdepth : mid.block.length = cfg.block.length := hstep.depth
      rw [← hdepth]
      exact (ih hrest hstep.context hstep.line).cons_item fun _ _ h => ⟨_, .statement h⟩
    | beginBlock first rest w =>
      obtain ⟨mid, hstep, hrest⟩ := hsymbols rfl (by rintro ⟨⟩)
      have hdepth : mid.block.length = cfg.block.length + 1 := hstep.depth
      have hclose := ih hrest hstep.context hstep.line
      rw [hdepth] at hclose
      exact hclose.cons_block
    | endBlock =>
      have hopen : cfg.block ≠ [] := by
        intro hnil
        rw [Item.events, List.singleton_append, result_cons] at h
        obtain ⟨mid, hmid, -⟩ := Option.bind_eq_some_iff.mp h
        rw [event, endBlock, hnil] at hmid
        cases hmid
      obtain ⟨mid, hstep, hrest⟩ := event_of_result h hcontext (by rintro ⟨⟩) fun _ => hopen
      have hdepth : mid.block.length + 1 = cfg.block.length := hstep.depth
      rw [← hdepth]
      exact .close .nil (ih hrest hstep.context (hstep.line.trans hline))

/-- A text is read with all its blocks closed exactly when it lays out statements and blocks that are in order and goes
on behind the last of them, and what has been read is what they say. -/
theorem read_closed_iff (env : Env Addr) (h0 : 0 ∉ text) : read env text = .ok cfg ∧ cfg.block = [] ↔
    (∀ c ∈ text.getLast?, c ∉ [59, 123, 125]) ∧ ∃ doc nodes site, doc.flatMap Item.bytes = text ∧ Lays doc nodes ∧
      siteOf env nodes = some site ∧ cfg = outside site := by
  constructor
  · rintro ⟨hread, hblock⟩
    have hparse : (ConfigParser.parse text).1 = true := by
      rw [read_eq] at hread
      obtain ⟨cfg', -, hcfg'⟩ := bind_eq_ok.mp hread
      split_ifs at hcfg' with hparse
      exact hparse
    -- the automaton accepts what the grammar generates, so that the text has items
    have heval := (ConfigParser.parse_iff_eval h0).mp hparse
    have haccept : text ∈ ConfigParser.dfa.accepts := by
      rw [DFA.mem_accepts, heval]
      exact ⟨le_rfl, by decide⟩
    obtain ⟨doc, rfl⟩ := exists_document (ConfigParser.accepts_eq_config ▸ haccept)
    obtain ⟨hcalls, hlast⟩ := calls_document doc h0
    have hresult : result env (outside ⟨[], []⟩) (doc.flatMap Item.events) = some cfg := by
      rw [read_eq, hcalls] at hread
      obtain ⟨cfg', hrun, hcfg'⟩ := bind_eq_ok.mp hread
      rw [if_pos hparse] at hcfg'
      obtain rfl : cfg' = cfg := Except.ok.inj hcfg'
      have hrun' : result env (outside ⟨[], []⟩) (doc.flatMap Item.events ++ [.configDone]) = some cfg' :=
        congrArg Except.toOption hrun
      rw [result_append] at hrun'
      exact (Option.bind_fun_some _).symm.trans hrun'
    have hcloses : Closes 0 doc := closes_of_result hresult (.top rfl rfl rfl) rfl hblock
    cases hcloses with
    | @lays _ nodes h =>
      rw [(result_lays h).2.2] at hresult
      obtain ⟨site, hsite, rfl⟩ := Option.map_eq_some_iff.mp hresult
      exact ⟨hlast.mp hparse, doc, nodes, site, rfl, h, hsite, rfl⟩
  · rintro ⟨hlast, doc, nodes, site, rfl, h, hsite, rfl⟩
    have hread := read_lays env h h0 hlast
    rw [hsite, Option.map_some] at hread
    cases hresult : read env (doc.flatMap Item.bytes) with
    | error halt => rw [hresult] at hread; cases hread
    | ok cfg =>
      rw [hresult] at hread
      exact ⟨congrArg Except.ok (Option.some.inj hread), rfl⟩

/-- A location in a virtual host. -/
theorem read_closed_nested : 0 ∉ nestedText ∧ ∃ doc nodes site, doc.flatMap Item.bytes = nestedText ∧ Lays doc nodes ∧
    siteOf noEnv nodes = some site ∧ site.vhosts = [⟨[], [], [⟨ascii "/", ascii "/r", [], []⟩]⟩] := by
  have h0 : 0 ∉ nestedText := by decide
  have hread : (read noEnv nestedText).toOption =
      some (outside ⟨[], [⟨[], [], [⟨ascii "/", ascii "/r", [], []⟩]⟩]⟩) := by decide +kernel
  cases hresult : read noEnv nestedText with
  | error halt => rw [hresult] at hread; cases hread
  | ok cfg =>
    rw [hresult] at hread
    have hcfg := Option.some.inj hread
    obtain ⟨-, doc, nodes, site, htext, hlays, hsite, heq⟩ :=
      (read_closed_iff noEnv h0).mp ⟨hresult, congrArg block hcfg⟩
    exact ⟨h0, doc, nodes, site, htext, hlays, hsite, congrArg vhostList (heq.symm.trans hcfg)⟩

end ServerConfig
end Latypus.Config
