import Latypus.Config.Blocks
import Latypus.Config.Document

/-! What a configuration says, block by block. The calls of the parser build it on a stack of blocks and through
pointers to what is current. A text is read and all its blocks are closed exactly when it lays out statements and
blocks that are in order, and what has been read is what they say. -/

namespace Latypus.Config
open Lib Http

/-! ### What statements and blocks say -/

/-- A statement, or a block with what stands in it. -/
inductive Node
  | statement (key : Bytes) (args : List Bytes)
  | block (key : Bytes) (args : List Bytes) (body : List Node)

/-- The directives of `http_server_config`. -/
inductive Directive
  | setting | listen | serverName | root | index | handler
deriving DecidableEq, Repr

def directives : List (Bytes × Directive) := [
  (ascii "error_log", .setting),
  (ascii "access_log", .setting),
  (ascii "tls_key_file", .setting),
  (ascii "tls_cert_file", .setting),
  (ascii "tls_cipher_list", .setting),
  (ascii "listen", .listen),
  (ascii "server_name", .serverName),
  (ascii "root", .root),
  (ascii "index", .index),
  (ascii "handler", .handler)]

/-- The root that stands outside of the blocks, and the virtual hosts. -/
structure Site (Addr : Type) where
  root : Bytes
  vhosts : List (VhostConfig Addr)
deriving DecidableEq, Repr

section Meaning
variable {Addr : Type}

def Site.directive (site : Site Addr) : Directive → List Bytes → Option (Site Addr)
  | .setting, [_] => some site
  | .root, [root] => some { site with root }
  | .index, _ :: _ => some site
  | _, _ => none

def VhostConfig.directive (env : Env Addr) (vhost : VhostConfig Addr) :
    Directive → List Bytes → Option (VhostConfig Addr)
  | .setting, [_] => some vhost
  | .listen, [address] =>
    (env.stringToAddr address).map fun addr => { vhost with listens := vhost.listens ++ [(addr, false)] }
  | .listen, [address, option] =>
    if option = ascii "tls" then
      (env.stringToAddr address).map fun addr => { vhost with listens := vhost.listens ++ [(addr, true)] }
    else none
  | .serverName, name :: names =>
    some { vhost with serverNames := ServerConfig.addNew vhost.serverNames (name :: names) }
  | _, _ => none

def LocationConfig.directive (location : LocationConfig) : Directive → List Bytes → Option LocationConfig
  | .root, [root] => some { location with root }
  | .index, file :: files =>
    some { location with indexFiles := ServerConfig.addNew location.indexFiles (file :: files) }
  | .handler, [handler] => some { location with handler }
  | _, _ => none

/-- The directives of `config` say nothing of a site, in whatever block they stand. -/
def isGeneral (env : Env Addr) (key : Bytes) (args : List Bytes) : Bool :=
  match (ServerConfig.generalConfigFns env).lookup key with
  | none => false
  | some rec => (ServerConfig.checkArgs rec key (key :: args) >>= fun _ => rec.fn (key :: args) .init).isOk

/-- A statement where the directives say `own`. -/
def stated {α : Type} (env : Env Addr) (own : Directive → List Bytes → Option α) (same : α) (key : Bytes)
    (args : List Bytes) : Option α :=
  match directives.lookup key with
  | some d => own d args
  | none => if isGeneral env key args then some same else none

def LocationConfig.add (env : Env Addr) (location : LocationConfig) : Node → Option LocationConfig
  | .statement key args => stated env location.directive location key args
  | .block _ _ _ => none

def locationOf (env : Env Addr) (uri : Bytes) (body : List Node) : Option LocationConfig := do
  let location ← body.foldlM (LocationConfig.add env) ⟨uri, [], [], []⟩
  if location.root = [] ∧ location.handler = [] then none else some location

def VhostConfig.add (env : Env Addr) (vhost : VhostConfig Addr) : Node → Option (VhostConfig Addr)
  | .statement key args => stated env (vhost.directive env) vhost key args
  | .block key [uri] body =>
    if key = ascii "location" then
      (locationOf env uri body).map fun location => { vhost with locationList := vhost.locationList ++ [location] }
    else none
  | .block _ _ _ => none

def vhostOf (env : Env Addr) (body : List Node) : Option (VhostConfig Addr) := do
  let vhost ← body.foldlM (VhostConfig.add env) ⟨[], [], []⟩
  if vhost.locationList = [] then none else some vhost

def Site.add (env : Env Addr) (site : Site Addr) : Node → Option (Site Addr)
  | .statement key args => stated env site.directive site key args
  | .block key [] body =>
    if key = ascii "http_server" then
      (vhostOf env body).map fun vhost => { site with vhosts := site.vhosts ++ [vhost] }
    else none
  | .block _ _ _ => none

/-- What a configuration says. -/
def siteOf (env : Env Addr) (nodes : List Node) : Option (Site Addr) := nodes.foldlM (Site.add env) ⟨[], []⟩

/-- The items of a text lay out statements and blocks. -/
inductive Lays : List Item → List Node → Prop
  | nil : Lays [] []
  | comment {text h doc nodes} : Lays doc nodes → Lays (.comment text h :: doc) nodes
  | blank {w doc nodes} : Lays doc nodes → Lays (.blank w :: doc) nodes
  | statement {first rest w doc nodes} : Lays doc nodes →
      Lays (.statement first rest w :: doc) (.statement first.raw (rest.map fun x => x.2.raw) :: nodes)
  | block {first rest w inner body doc nodes} : Lays inner body → Lays doc nodes →
      Lays (.beginBlock first rest w :: inner ++ .endBlock :: doc)
        (.block first.raw (rest.map fun x => x.2.raw) body :: nodes)

end Meaning

namespace ServerConfig
variable {Addr : Type} {env : Env Addr} {cfg : ServerConfig Addr}

/-! ### Runs that do not end early -/

/-- Where the calls lead, if none of them ends the run. -/
def result (env : Env Addr) (cfg : ServerConfig Addr) (events : List (Event Bytes)) : Option (ServerConfig Addr) :=
  (events.foldlM (event env) cfg).toOption

theorem toOption_bind {α β : Type} (r : Except Halt α) (f : α → Except Halt β) :
    (r >>= f).toOption = r.toOption.bind fun a => (f a).toOption := by
  cases r <;> rfl

theorem result_append (es es' : List (Event Bytes)) :
    result env cfg (es ++ es') = (result env cfg es).bind fun cfg' => result env cfg' es' := by
  rw [result, List.foldlM_append, toOption_bind]
  rfl

theorem result_cons (e : Event Bytes) (es : List (Event Bytes)) :
    result env cfg (e :: es) = ((cfg.event env e).toOption).bind fun cfg' => result env cfg' es := by
  rw [result, List.foldlM_cons, toOption_bind]
  rfl

/-- The symbols of a line. -/
theorem result_symbols (first : Symbol) (rest : List (Blank × Symbol)) (hline : cfg.line = []) :
    result env cfg (symbolEvents first rest) =
      some { cfg with line := first.raw :: rest.map fun x => x.2.raw } := by
  have hmore (values : List Bytes) (cfg : ServerConfig Addr) :
      result env cfg (values.map .symbol) = some { cfg with line := cfg.line ++ values } := by
    induction values generalizing cfg with
    | nil => simp [result, Except.toOption, pure, Except.pure]
    | cons value values ih =>
      rw [List.map_cons, result_cons]
      refine (ih (cfg.symbol value)).trans ?_
      simp [symbol]
  have hvalues : symbolEvents first rest = (first.raw :: rest.map fun x => x.2.raw).map .symbol := by
    simp [symbolEvents]
  rw [hvalues, hmore, hline, List.nil_append]

/-! ### What is being built -/

/-- Outside of the blocks. -/
def outside (site : Site Addr) : ServerConfig Addr := ⟨[], [], site.vhosts, none, none, site.root⟩

/-- In the block of a virtual host. -/
def inServer (site : Site Addr) (vhost : VhostConfig Addr) : ServerConfig Addr :=
  ⟨[[ascii "http_server"]], [], site.vhosts ++ [vhost], some site.vhosts.length, none, site.root⟩

/-- In the block of a location. -/
def inLocation (site : Site Addr) (vhost : VhostConfig Addr) (location : LocationConfig) : ServerConfig Addr :=
  ⟨[[ascii "location", location.uri], [ascii "http_server"]], [],
    site.vhosts ++ [{ vhost with locationList := vhost.locationList ++ [location] }], some site.vhosts.length,
    some (site.vhosts.length, vhost.locationList.length), site.root⟩

variable {site : Site Addr} {vhost : VhostConfig Addr} {location : LocationConfig} {line : Line}

theorem modify_concat {α : Type} (l : List α) (a : α) (f : α → α) : (l ++ [a]).modify l.length f = l ++ [f a] := by
  induction l with
  | nil => rfl
  | cons b l ih => simpa using ih

theorem inBlock_outside (key : String) : inBlock { outside site with line } key = false := rfl

theorem inBlock_inServer (key : String) :
    inBlock { inServer site vhost with line } key = decide (ascii "http_server" = ascii key) := by
  simp [inBlock, inServer]

theorem inBlock_inLocation (key : String) :
    inBlock { inLocation site vhost location with line } key = decide (ascii "location" = ascii key) := by
  simp [inBlock, inLocation]

theorem onVhost_inServer (f : VhostConfig Addr → VhostConfig Addr) :
    onVhost f { inServer site vhost with line } = .ok { inServer site (f vhost) with line } := by
  simp [onVhost, inServer, modify_concat]

theorem onLocation_inLocation (f : LocationConfig → LocationConfig) (h : (f location).uri = location.uri) :
    onLocation f { inLocation site vhost location with line } =
      .ok { inLocation site vhost (f location) with line } := by
  simp [onLocation, inLocation, modify_concat, h]

/-! ### Directives -/

/-- The record does what is said of the directive, where `embed` tells what is being built. -/
def Says {α : Type} (embed : α → ServerConfig Addr) (own : α → Directive → List Bytes → Option α) (d : Directive)
    (rec : Record Addr) : Prop :=
  ∀ a key args, (checkArgs rec key (key :: args) >>= fun _ =>
      rec.fn (key :: args) { embed a with line := key :: args }).toOption =
    (own a d args).map fun a' => { embed a' with line := key :: args }

theorem toOption_checkArgs {β : Type} {rec : Record Addr} (hmin : 0 < rec.minargs) (key : Bytes) (line : Line)
    (f : Unit → Except Halt β) : (checkArgs rec key line >>= f).toOption =
      if rec.minargs ≤ line.length ∧ (rec.maxargs ≤ 0 ∨ line.length ≤ rec.maxargs) then (f ()).toOption else none := by
  unfold checkArgs
  split_ifs <;> first | rfl | (exfalso; omega)

theorem toOption_fatalArg {β : Type} (format : String) (line : Line) (i : Nat) :
    (fatalArg format line i : Except Halt β).toOption = none := by
  rw [fatalArg, toOption_bind]
  cases (arg line i).toOption <;> rfl

section Says
variable {α : Type} {embed : α → ServerConfig Addr} {own : α → Directive → List Bytes → Option α} {d : Directive}
  {fn : Line → ServerConfig Addr → Except Halt (ServerConfig Addr)} {minargs maxargs : Int}

/-- A directive that does not stand here. -/
theorem says_of_fails (hmin : 0 < minargs) (hown : ∀ a args, own a d args = none)
    (hfn : ∀ a line, (fn line { embed a with line }).toOption = none) : Says embed own d ⟨minargs, maxargs, fn⟩ := by
  intro a key args
  rw [toOption_checkArgs hmin, hown]
  split_ifs
  · exact hfn a _
  · rfl

/-- A directive with one argument. -/
theorem says_of_one (hnil : ∀ a, own a d [] = none) (hmore : ∀ a x y args, own a d (x :: y :: args) = none)
    (hfn : ∀ a key x, (fn [key, x] { embed a with line := [key, x] }).toOption =
      (own a d [x]).map fun a' => { embed a' with line := [key, x] }) : Says embed own d ⟨2, 2, fn⟩ := by
  intro a key args
  rw [toOption_checkArgs (show (0 : Int) < 2 by decide)]
  rcases args with _ | ⟨x, _ | ⟨y, args⟩⟩
  · rw [hnil]
    rfl
  · exact hfn a key x
  · rw [hmore, if_neg]
    · rfl
    · simp only [List.length_cons]
      omega

/-- A directive with any number of arguments but none. -/
theorem says_of_any (hnil : ∀ a, own a d [] = none)
    (hfn : ∀ a key x args, (fn (key :: x :: args) { embed a with line := key :: x :: args }).toOption =
      (own a d (x :: args)).map fun a' => { embed a' with line := key :: x :: args }) :
    Says embed own d ⟨2, -1, fn⟩ := by
  intro a key args
  rw [toOption_checkArgs (show (0 : Int) < 2 by decide)]
  rcases args with _ | ⟨x, args⟩
  · rw [hnil]
    rfl
  · rw [if_pos]
    · exact hfn a key x args
    · simp only [List.length_cons]
      omega

end Says

theorem says_outside (env : Env Addr) : List.Forall₂ (fun p q => p.1 = q.1 ∧ Says outside Site.directive p.2 q.2)
    directives (serverConfigFns env) := by
  -- outside of the blocks a setting, the root and the index files are those of `config`
  have hsetting (name : String) :
      Says (outside : Site Addr → ServerConfig Addr) Site.directive .setting ⟨2, 2, vhostSetting name⟩ :=
    says_of_one (fun _ => rfl) (fun _ _ _ _ => rfl) fun _ _ _ => rfl
  refine .cons ⟨rfl, hsetting _⟩ <| .cons ⟨rfl, hsetting _⟩ <| .cons ⟨rfl, hsetting _⟩ <| .cons ⟨rfl, hsetting _⟩ <|
    .cons ⟨rfl, hsetting _⟩ <| .cons ⟨rfl, ?_⟩ <| .cons ⟨rfl, ?_⟩ <| .cons ⟨rfl, ?_⟩ <| .cons ⟨rfl, ?_⟩ <|
    .cons ⟨rfl, ?_⟩ .nil
  · exact says_of_fails (by decide) (fun _ _ => rfl) fun _ _ => toOption_fatalArg _ _ _
  · exact says_of_fails (by decide) (fun _ _ => rfl) fun _ _ => toOption_fatalArg _ _ _
  · exact says_of_one (fun _ => rfl) (fun _ _ _ _ => rfl) fun _ _ _ => rfl
  · exact says_of_any (fun _ => rfl) fun _ _ _ _ => rfl
  · exact says_of_fails (by decide) (fun _ _ => rfl) fun _ _ => toOption_fatalArg _ _ _

theorem says_listen (env : Env Addr) (site : Site Addr) :
    Says (inServer site) (fun vhost => vhost.directive env) .listen ⟨2, 3, listen env⟩ := by
  have hin (vhost : VhostConfig Addr) (line : Line) :
      inBlock { inServer site vhost with line } "http_server" = true :=
    (inBlock_inServer _).trans (decide_eq_true rfl)
  intro vhost key args
  rw [toOption_checkArgs (show (0 : Int) < 2 by decide)]
  rcases args with _ | ⟨address, _ | ⟨option, _ | ⟨_, _⟩⟩⟩
  · rfl
  · rw [if_pos (by simp only [List.length_cons, List.length_nil]; omega)]
    dsimp only
    unfold listen
    rw [if_pos (hin _ _), toOption_bind, show arg [key, address] 1 = .ok address from rfl]
    simp only [Except.toOption, Option.bind_some, VhostConfig.directive, onVhost_inServer]
    cases env.stringToAddr address <;> rfl
  · rw [if_pos (by simp only [List.length_cons, List.length_nil]; omega)]
    dsimp only
    unfold listen
    rw [if_pos (hin _ _), toOption_bind, show arg [key, address, option] 1 = .ok address from rfl,
      show arg [key, address, option] 2 = .ok option from rfl]
    simp only [Except.toOption, Option.bind_some, VhostConfig.directive, onVhost_inServer]
    cases env.stringToAddr address with
    | none => split_ifs <;> rfl
    | some addr =>
      by_cases hoption : option = ascii "tls"
      · rw [if_pos hoption]
        simp [hoption, bind, Except.bind]
      · rw [if_neg hoption]
        simp [hoption, bind, Except.bind]
  · rw [if_neg]
    · rfl
    · simp only [List.length_cons]
      omega

theorem says_inServer (env : Env Addr) (site : Site Addr) : List.Forall₂
    (fun p q => p.1 = q.1 ∧ Says (inServer site) (fun vhost => vhost.directive env) p.2 q.2)
    directives (serverConfigFns env) := by
  have htop (vhost : VhostConfig Addr) (line : Line) :
      ¬({ inServer site vhost with line } : ServerConfig Addr).block.length = 0 := Nat.one_ne_zero
  have hin (vhost : VhostConfig Addr) (line : Line) :
      inBlock { inServer site vhost with line } "http_server" = true := by
    rw [inBlock_inServer]
    exact decide_eq_true rfl
  have hout (vhost : VhostConfig Addr) (line : Line) :
      ¬inBlock { inServer site vhost with line } "location" = true := by
    rw [inBlock_inServer, decide_eq_true_eq]
    exact ascii_ne.symm
  have hsetting (name : String) :
      Says (inServer site) (fun vhost => vhost.directive env) .setting ⟨2, 2, vhostSetting name⟩ := by
    refine says_of_one (fun _ => rfl) (fun _ _ _ _ => rfl) fun vhost key x => ?_
    rw [vhostSetting, if_neg (htop _ _), if_pos (hin _ _), toOption_bind, onVhost_inServer]
    rfl
  refine .cons ⟨rfl, hsetting _⟩ <| .cons ⟨rfl, hsetting _⟩ <| .cons ⟨rfl, hsetting _⟩ <| .cons ⟨rfl, hsetting _⟩ <|
    .cons ⟨rfl, hsetting _⟩ <| .cons ⟨rfl, says_listen env site⟩ <| .cons ⟨rfl, ?_⟩ <| .cons ⟨rfl, ?_⟩ <|
    .cons ⟨rfl, ?_⟩ <| .cons ⟨rfl, ?_⟩ .nil
  · refine says_of_any (fun _ => rfl) fun vhost key x args => ?_
    rw [serverName, if_pos (hin _ _), onVhost_inServer]
    rfl
  · refine says_of_fails (by decide) (fun _ _ => rfl) fun vhost line => ?_
    rw [setRoot, if_neg (htop _ _), if_neg (hout _ _), toOption_fatalArg]
  · refine says_of_fails (by decide) (fun _ _ => rfl) fun vhost line => ?_
    rw [index, if_neg (htop _ _), if_neg (hout _ _), toOption_fatalArg]
  · refine says_of_fails (by decide) (fun _ _ => rfl) fun vhost line => ?_
    rw [handler, if_neg (hout _ _), toOption_fatalArg]

theorem says_inLocation (env : Env Addr) (site : Site Addr) (vhost : VhostConfig Addr) : List.Forall₂
    (fun p q => p.1 = q.1 ∧ Says (inLocation site vhost) LocationConfig.directive p.2 q.2)
    directives (serverConfigFns env) := by
  have htop (location : LocationConfig) (line : Line) :
      ¬({ inLocation site vhost location with line } : ServerConfig Addr).block.length = 0 := Nat.succ_ne_zero 1
  have hin (location : LocationConfig) (line : Line) :
      inBlock { inLocation site vhost location with line } "location" = true := by
    rw [inBlock_inLocation]
    exact decide_eq_true rfl
  have hout (location : LocationConfig) (line : Line) :
      ¬inBlock { inLocation site vhost location with line } "http_server" = true := by
    rw [inBlock_inLocation, decide_eq_true_eq]
    exact ascii_ne
  have hsetting (name : String) :
      Says (inLocation site vhost) LocationConfig.directive .setting ⟨2, 2, vhostSetting name⟩ := by
    refine says_of_fails (by decide) (fun _ _ => rfl) fun location line => ?_
    rw [vhostSetting, if_neg (htop _ _), if_neg (hout _ _), toOption_fatalArg]
  refine .cons ⟨rfl, hsetting _⟩ <| .cons ⟨rfl, hsetting _⟩ <| .cons ⟨rfl, hsetting _⟩ <| .cons ⟨rfl, hsetting _⟩ <|
    .cons ⟨rfl, hsetting _⟩ <| .cons ⟨rfl, ?_⟩ <| .cons ⟨rfl, ?_⟩ <| .cons ⟨rfl, ?_⟩ <| .cons ⟨rfl, ?_⟩ <|
    .cons ⟨rfl, ?_⟩ .nil
  · refine says_of_fails (by decide) (fun _ _ => rfl) fun location line => ?_
    rw [listen, if_neg (hout _ _), toOption_fatalArg]
  · refine says_of_fails (by decide) (fun _ _ => rfl) fun location line => ?_
    rw [serverName, if_neg (hout _ _), toOption_fatalArg]
  · refine says_of_one (fun _ => rfl) (fun _ _ _ _ => rfl) fun location key x => ?_
    rw [setRoot, if_neg (htop _ _), if_pos (hin _ _), toOption_bind]
    simp only [arg, onLocation_inLocation]
    rfl
  · refine says_of_any (fun _ => rfl) fun location key x args => ?_
    rw [index, if_neg (htop _ _), if_pos (hin _ _), onLocation_inLocation _ (by rfl)]
    rfl
  · refine says_of_one (fun _ => rfl) (fun _ _ _ _ => rfl) fun location key x => ?_
    rw [handler, if_pos (hin _ _), toOption_bind]
    simp only [arg, onLocation_inLocation]
    rfl

/-! ### Statements -/

theorem lookup_rel {α β : Type} {R : α → β → Prop} {l : List (Bytes × α)} {l' : List (Bytes × β)}
    (h : List.Forall₂ (fun p q => p.1 = q.1 ∧ R p.2 q.2) l l') (key : Bytes) :
    Option.Rel R (l.lookup key) (l'.lookup key) := by
  induction h with
  | nil => exact .none
  | @cons p q l l' hpq _ ih =>
    obtain ⟨k, x⟩ := p
    obtain ⟨k', y⟩ := q
    obtain ⟨rfl, hxy⟩ := hpq
    rw [List.lookup_cons, List.lookup_cons]
    by_cases hkey : (key == k) = true
    · simp only [hkey]
      exact .some hxy
    · simp only [Bool.not_eq_true] at hkey
      simpa only [hkey] using ih

/-- A directive of `config` leaves what is being built. -/
theorem general_same (env : Env Addr) : ∀ p ∈ generalConfigFns env, 0 < p.2.minargs ∧ ∀ line cfg,
    (p.2.fn line cfg).toOption = (p.2.fn line init).toOption.map fun _ => cfg := by
  have hsetting {minargs maxargs : Int} {args : List Nat} (hmin : 0 < minargs) :
      0 < (setting minargs maxargs args : Record Addr).minargs ∧ ∀ line cfg,
        ((setting minargs maxargs args : Record Addr).fn line cfg).toOption =
          ((setting minargs maxargs args : Record Addr).fn line init).toOption.map fun _ => cfg := by
    refine ⟨hmin, fun line cfg => ?_⟩
    simp only [setting, toOption_bind]
    cases (args.mapM (arg line)).toOption <;> rfl
  -- the listener is told by the arguments alone
  have hlistener (line : Line) (cfg : ServerConfig Addr) : (protoListener env line cfg).toOption =
      (protoListener env line init).toOption.map fun _ => cfg := by
    unfold protoListener
    rw [toOption_bind, toOption_bind]
    cases (arg line 1).toOption with
    | none => rfl
    | some proto =>
      simp only [Option.bind_some]
      split_ifs
      · rfl
      · rw [toOption_bind, toOption_bind]
        cases (arg line 2).toOption with
        | none => rfl
        | some address =>
          simp only [Option.bind_some]
          split_ifs
          · rfl
          · rw [toOption_bind, toOption_bind]
            cases (arg line 3).toOption with
            | none => rfl
            | some option =>
              simp only [Option.bind_some]
              split_ifs <;> rfl
      · rw [toOption_bind, toOption_bind]
        cases (arg line 2).toOption with
        | none => rfl
        | some address =>
          simp only [Option.bind_some]
          split_ifs <;> rfl
  simp only [generalConfigFns, List.forall_mem_cons]
  refine ⟨?_, ?_, ?_, ?_, ?_, ?_, ?_, ?_, ?_, ?_, ?_, ?_, ?_, ?_, ?_, ?_, ?_, ?_, ?_, ?_, ?_, ?_, ?_, ?_,
    List.forall_mem_nil _⟩
  iterate 22 exact hsetting (by decide)
  · exact ⟨by decide, hlistener⟩
  · exact hsetting (by decide)

section Statements
variable {α : Type} {embed : α → ServerConfig Addr} {own : α → Directive → List Bytes → Option α}

theorem endStatement_eq (hrecs : List.Forall₂ (fun p q => p.1 = q.1 ∧ Says embed own p.2 q.2) directives
    (serverConfigFns env)) (hline : ∀ a, (embed a).line = []) (a : α) (key : Bytes) (args : List Bytes) :
    (endStatement env { embed a with line := key :: args }).toOption = (stated env (own a) a key args).map embed := by
  have hembed (a : α) (line : Line) : { ({ embed a with line } : ServerConfig Addr) with line := [] } = embed a := by
    rw [← hline a]
  have hfinish {rec : Record Addr} {r : Option α} (h : (checkArgs rec key (key :: args) >>= fun _ =>
      rec.fn (key :: args) { embed a with line := key :: args }).toOption =
        r.map fun a' => { embed a' with line := key :: args }) :
      (do checkArgs rec key (key :: args)
          let cfg ← rec.fn (key :: args) { embed a with line := key :: args }
          .ok { cfg with line := [] } : Except Halt (ServerConfig Addr)).toOption = r.map embed := by
    have hassoc : (do checkArgs rec key (key :: args)
                      let cfg ← rec.fn (key :: args) { embed a with line := key :: args }
                      .ok { cfg with line := [] } : Except Halt (ServerConfig Addr)) =
        (checkArgs rec key (key :: args) >>= fun _ => rec.fn (key :: args) { embed a with line := key :: args }) >>=
          fun cfg => .ok { cfg with line := [] } := by
      cases checkArgs rec key (key :: args) <;> rfl
    rw [hassoc, toOption_bind, h]
    cases r with
    | none => rfl
    | some a' => exact congrArg some (hembed a' _)
  have hrel := lookup_rel hrecs key
  unfold endStatement stated
  simp only [lookupConfigFn]
  -- the directives of `http_server_config` are looked up before those of `config`
  cases hd : directives.lookup key with
  | some d =>
    rw [hd] at hrel
    cases hrec : (serverConfigFns env).lookup key with
    | none => rw [hrec] at hrel; cases hrel
    | some rec =>
      rw [hrec] at hrel
      cases hrel with
      | some hrecs => exact hfinish (hrecs a key args)
  | none =>
    rw [hd] at hrel
    cases hrec : (serverConfigFns env).lookup key with
    | some rec => rw [hrec] at hrel; cases hrel
    | none =>
      simp only [Option.none_or, isGeneral]
      obtain hgeneral | ⟨rec, hgeneral⟩ := Option.eq_none_or_eq_some ((generalConfigFns env).lookup key)
      · simp only [hgeneral]
        rfl
      · simp only [hgeneral]
        obtain ⟨hmin, hsame⟩ := general_same env (key, rec) (mem_of_lookup_eq_some hgeneral)
        refine hfinish (r := if (checkArgs rec key (key :: args) >>= fun _ => rec.fn (key :: args) init).isOk then
          some a else none) ?_
        rw [toOption_checkArgs hmin, hsame]
        have hisOk : (checkArgs rec key (key :: args) >>= fun _ => rec.fn (key :: args) init).isOk =
            (checkArgs rec key (key :: args) >>= fun _ => rec.fn (key :: args) init).toOption.isSome := by
          cases checkArgs rec key (key :: args) >>= fun _ => rec.fn (key :: args) init <;> rfl
        rw [hisOk, toOption_checkArgs hmin]
        split_ifs with hargs hsome hsome
        · obtain ⟨cfg, hcfg⟩ := Option.isSome_iff_exists.mp hsome
          rw [hcfg]
          rfl
        · rw [Option.not_isSome_iff_eq_none.mp hsome]
          rfl
        · cases hsome
        · rfl

/-- The calls of a statement. -/
theorem result_statement (hrecs : List.Forall₂ (fun p q => p.1 = q.1 ∧ Says embed own p.2 q.2) directives
    (serverConfigFns env)) (hline : ∀ a, (embed a).line = []) (a : α) (first : Symbol) (rest : List (Blank × Symbol)) :
    result env (embed a) (symbolEvents first rest ++ [.endStatement]) =
      (stated env (own a) a first.raw (rest.map fun x => x.2.raw)).map embed := by
  rw [result_append, result_symbols first rest (hline a), Option.bind_some, ← endStatement_eq hrecs hline]
  rw [result_cons]
  exact Option.bind_fun_some _

end Statements

/-! ### Blocks -/

theorem toOption_startBlock {key : Bytes} {args : List Bytes} (hline : cfg.line = key :: args) :
    cfg.startBlock.toOption = (blockStartFns.lookup key).bind fun rec =>
      (checkParent rec key cfg).toOption.bind fun _ => (checkArgs rec.toRecord key (key :: args) >>= fun _ =>
        rec.fn (key :: args) { cfg with block := (key :: args) :: cfg.block, line := [] }).toOption := by
  unfold startBlock
  rw [hline]
  obtain hrec | ⟨rec, hrec⟩ := Option.eq_none_or_eq_some ((blockStartFns : List (Bytes × BlockRecord Addr)).lookup key)
  · simp only [hrec]
    rfl
  · simp only [hrec, Option.bind_some]
    exact toOption_bind _ _

/-- The blocks that the code knows. -/
theorem lookup_blockStartFns (key : Bytes) : (blockStartFns : List (Bytes × BlockRecord Addr)).lookup key =
    if key = ascii "http_server" then some ⟨⟨1, 1, startServer⟩, none⟩
    else if key = ascii "location" then some ⟨⟨2, 2, startLocation⟩, some "http_server"⟩ else none := by
  rw [blockStartFns, List.lookup_cons, List.lookup_cons, List.lookup_nil]
  by_cases hserver : key = ascii "http_server"
  · rw [if_pos hserver, beq_iff_eq.mpr hserver]
  · rw [if_neg hserver, beq_eq_false_iff_ne.mpr hserver]
    by_cases hlocation : key = ascii "location"
    · rw [if_pos hlocation, beq_iff_eq.mpr hlocation]
    · rw [if_neg hlocation, beq_eq_false_iff_ne.mpr hlocation]

theorem toOption_checkParent_root (rec : Record Addr) (key : Bytes) :
    (checkParent ⟨rec, none⟩ key cfg).toOption = if cfg.block = [] then some () else none := by
  change (if cfg.block.length > 0 then _ else _ : Except Halt Unit).toOption = _
  by_cases hblock : cfg.block = []
  · rw [if_pos hblock, if_neg (by simp [hblock])]
    rfl
  · rw [if_neg hblock, if_pos (List.length_pos_iff.mpr hblock)]
    rfl

theorem toOption_checkParent_server (rec : Record Addr) (key : Bytes) :
    (checkParent ⟨rec, some "http_server"⟩ key cfg).toOption =
      if cfg.inBlock "http_server" = true then some () else none := by
  change (if cfg.inBlock "http_server" = true then _ else _ : Except Halt Unit).toOption = _
  split_ifs
  · rfl
  · split <;> rfl

theorem startBlock_outside (key : Bytes) (args : List Bytes) :
    (startBlock { outside site with line := key :: args }).toOption =
      if key = ascii "http_server" ∧ args = [] then some (inServer site ⟨[], [], []⟩) else none := by
  rw [toOption_startBlock rfl, lookup_blockStartFns]
  by_cases hserver : key = ascii "http_server"
  · rw [if_pos hserver, Option.bind_some, toOption_checkParent_root, if_pos (by rfl), Option.bind_some,
      toOption_checkArgs (show (0 : Int) < 1 by decide)]
    cases args with
    | nil =>
      rw [if_pos (by simp), if_pos ⟨hserver, rfl⟩, hserver]
      rfl
    | cons x args =>
      rw [if_neg, if_neg (by simp)]
      simp only [List.length_cons]
      omega
  · rw [if_neg hserver, if_neg fun h : _ ∧ _ => hserver h.1]
    split_ifs
    · rw [Option.bind_some, toOption_checkParent_server, if_neg (by simp [inBlock_outside])]
      rfl
    · rfl

theorem startBlock_inServer (key : Bytes) (args : List Bytes) :
    (startBlock { inServer site vhost with line := key :: args }).toOption =
      if key = ascii "location" ∧ args.length = 1 then some (inLocation site vhost ⟨args.headD [], [], [], []⟩)
      else none := by
  rw [toOption_startBlock rfl, lookup_blockStartFns]
  by_cases hserver : key = ascii "http_server"
  · rw [if_pos hserver, Option.bind_some, toOption_checkParent_root, if_neg (by simp [inServer]),
      if_neg fun h : _ ∧ _ => ascii_ne (hserver.symm.trans h.1).symm]
    rfl
  · rw [if_neg hserver]
    by_cases hlocation : key = ascii "location"
    · rw [if_pos hlocation, Option.bind_some, toOption_checkParent_server,
        if_pos ((inBlock_inServer _).trans (decide_eq_true rfl)), Option.bind_some,
        toOption_checkArgs (show (0 : Int) < 2 by decide)]
      rcases args with _ | ⟨uri, _ | ⟨_, _⟩⟩
      · rw [if_neg (by simp), if_neg (by simp)]
      · rw [if_pos (by simp), if_pos ⟨hlocation, rfl⟩, hlocation]
        simp [startLocation, arg, inServer, inLocation, modify_concat, Except.toOption, bind, Except.bind]
      · rw [if_neg, if_neg (by simp)]
        simp only [List.length_cons]
        omega
    · rw [if_neg hlocation, if_neg fun h : _ ∧ _ => hlocation h.1]
      rfl

/-- No block stands in a location. -/
theorem startBlock_inLocation (key : Bytes) (args : List Bytes) :
    (startBlock { inLocation site vhost location with line := key :: args }).toOption = none := by
  rw [toOption_startBlock rfl, lookup_blockStartFns]
  split_ifs
  · rw [Option.bind_some, toOption_checkParent_root, if_neg (by simp [inLocation])]
    rfl
  · rw [Option.bind_some, toOption_checkParent_server, if_neg (by simp [inBlock_inLocation, ascii_ne])]
    rfl
  · rfl

theorem toOption_endBlock {key : Bytes} {args : List Bytes} {outer : List Line} {rec : BlockRecord Addr}
    (hblock : cfg.block = (key :: args) :: outer) (hfn : blockEndFns.lookup key = some rec) :
    cfg.endBlock.toOption =
      (rec.fn (key :: args) cfg).toOption.map fun cfg => { cfg with block := cfg.block.tail } := by
  unfold endBlock
  rw [hblock]
  simp only [hfn]
  exact (toOption_bind _ _).trans Option.map_eq_bind.symm

theorem endBlock_inServer : (endBlock (inServer site vhost)).toOption =
    if vhost.locationList = [] then none else some (outside { site with vhosts := site.vhosts ++ [vhost] }) := by
  have hfn : blockEndFns.lookup (ascii "http_server") = some (⟨⟨0, 0, endServer⟩, none⟩ : BlockRecord Addr) := rfl
  unfold endBlock inServer
  simp only [hfn, endServer, Option.bind_some, List.getElem?_concat_length, List.length_eq_zero_iff]
  split_ifs <;> rfl

theorem endBlock_inLocation : (endBlock (inLocation site vhost location)).toOption =
    if location.root = [] ∧ location.handler = [] then none
    else some (inServer site { vhost with locationList := vhost.locationList ++ [location] }) := by
  have hfn : blockEndFns.lookup (ascii "location") = some (⟨⟨0, 0, endLocation⟩, none⟩ : BlockRecord Addr) := rfl
  have hlocation : (inLocation site vhost location).location? = some location := by
    simp [location?, inLocation]
  have hend : endLocation [ascii "location", location.uri] (inLocation site vhost location) =
      if location.root.length = 0 ∧ location.handler.length = 0 then
        fatalArg "configuration error: location \"%s\" must contain \"root\" and or \"handler\" directives"
          [ascii "location", location.uri] 0
      else .ok { inLocation site vhost location with currentLocation := none } := by
    rw [endLocation, hlocation]
  rw [toOption_endBlock rfl hfn]
  simp only [hend, List.length_eq_zero_iff]
  split_ifs
  · rw [toOption_fatalArg]
    rfl
  · rfl

/-! ### Documents -/

theorem result_block (first : Symbol) (rest : List (Blank × Symbol)) (w : Blank) (inner doc : List Item)
    (hline : cfg.line = []) :
    result env cfg ((.beginBlock first rest w :: inner ++ .endBlock :: doc).flatMap Item.events) =
      ((startBlock { cfg with line := first.raw :: rest.map fun x => x.2.raw }).toOption.bind fun cfg =>
        (result env cfg (inner.flatMap Item.events)).bind fun cfg =>
          cfg.endBlock.toOption.bind fun cfg => result env cfg (doc.flatMap Item.events)) := by
  have hevents : (Item.beginBlock first rest w :: inner ++ .endBlock :: doc).flatMap Item.events =
      symbolEvents first rest ++ (.startBlock :: (inner.flatMap Item.events ++
        (.endBlock :: doc.flatMap Item.events))) := by
    simp [Item.events]
  rw [hevents, result_append, result_symbols first rest hline, Option.bind_some, result_cons]
  refine Option.bind_congr fun cfg _ => ?_
  rw [result_append]
  exact Option.bind_congr fun cfg _ => result_cons _ _

/-- In every block, the calls build what the statements and blocks say. -/
theorem result_lays {doc : List Item} {nodes : List Node} (h : Lays doc nodes) :
    (∀ (site : Site Addr) vhost location, result env (inLocation site vhost location) (doc.flatMap Item.events) =
      (nodes.foldlM (LocationConfig.add env) location).map (inLocation site vhost)) ∧
    (∀ (site : Site Addr) vhost, result env (inServer site vhost) (doc.flatMap Item.events) =
      (nodes.foldlM (VhostConfig.add env) vhost).map (inServer site)) ∧
    ∀ site : Site Addr, result env (outside site) (doc.flatMap Item.events) =
      (nodes.foldlM (Site.add env) site).map outside := by
  induction h with
  | nil => exact ⟨fun _ _ _ => rfl, fun _ _ => rfl, fun _ => rfl⟩
  | comment _ ih => exact ih
  | blank _ ih => exact ih
  | statement _ ih =>
    obtain ⟨ihl, ihs, iho⟩ := ih
    refine ⟨fun site vhost location => ?_, fun site vhost => ?_, fun site => ?_⟩
    · rw [List.flatMap_cons, result_append, Item.events,
        result_statement (says_inLocation env site vhost) (fun _ => rfl), List.foldlM_cons, Option.bind_map]
      simp only [Function.comp_def, ihl]
      exact Option.map_bind.symm
    · rw [List.flatMap_cons, result_append, Item.events, result_statement (says_inServer env site) (fun _ => rfl),
        List.foldlM_cons, Option.bind_map]
      simp only [Function.comp_def, ihs]
      exact Option.map_bind.symm
    · rw [List.flatMap_cons, result_append, Item.events, result_statement (says_outside env) (fun _ => rfl),
        List.foldlM_cons, Option.bind_map]
      simp only [Function.comp_def, iho]
      exact Option.map_bind.symm
  | @block first rest w inner body doc nodes _ _ ihinner ih =>
    obtain ⟨ihl, ihs, iho⟩ := ih
    -- the inner items are read in the block that opens, the rest in the one around it
    refine ⟨fun site vhost location => ?_, fun site vhost => ?_, fun site => ?_⟩
    · rw [result_block first rest w inner doc rfl, startBlock_inLocation]
      rfl
    · rw [result_block first rest w inner doc rfl, startBlock_inServer, List.foldlM_cons]
      generalize rest.map (fun x => x.2.raw) = args
      by_cases hkey : first.raw = ascii "location"
      · rcases args with _ | ⟨uri, _ | ⟨_, _⟩⟩
        · rw [if_neg (by simp)]
          rfl
        · rw [if_pos ⟨hkey, rfl⟩, Option.bind_some, List.headD_cons, ihinner.1, VhostConfig.add, if_pos hkey,
            locationOf]
          cases body.foldlM (LocationConfig.add env) ⟨uri, [], [], []⟩ with
          | none => rfl
          | some location =>
            simp only [Option.map_some, Option.bind_some, endBlock_inLocation, Option.bind_eq_bind]
            split_ifs
            · rfl
            · simp only [Option.bind_some, ihs, Option.map_some]
        · rw [if_neg (by simp)]
          rfl
      · rw [if_neg fun h : _ ∧ _ => hkey h.1]
        have hadd : VhostConfig.add env vhost (.block first.raw args body) = none := by
          unfold VhostConfig.add
          split
          · contradiction
          · simp_all
          · rfl
        rw [hadd]
        rfl
    · rw [result_block first rest w inner doc rfl, startBlock_outside, List.foldlM_cons]
      generalize rest.map (fun x => x.2.raw) = args
      rcases args with _ | ⟨_, _⟩
      · by_cases hkey : first.raw = ascii "http_server"
        · rw [if_pos ⟨hkey, rfl⟩, Option.bind_some, ihinner.2.1, Site.add, if_pos hkey, vhostOf]
          cases body.foldlM (VhostConfig.add env) ⟨[], [], []⟩ with
          | none => rfl
          | some vhost =>
            simp only [Option.map_some, Option.bind_some, endBlock_inServer, Option.bind_eq_bind]
            split_ifs
            · rfl
            · simp only [Option.bind_some, iho, Option.map_some]
        · rw [if_neg fun h : _ ∧ _ => hkey h.1, Site.add, if_neg hkey]
          rfl
      · rw [if_neg (by simp)]
        rfl

/-- The calls of a document and the end of its automaton. -/
theorem calls_document (doc : List Item) (h0 : 0 ∉ doc.flatMap Item.bytes) :
    calls (doc.flatMap Item.bytes) = doc.flatMap Item.events ++ [.configDone] ∧
      ((ConfigParser.parse (doc.flatMap Item.bytes)).1 = true ↔
        ∀ c ∈ (doc.flatMap Item.bytes).getLast?, c ∉ [59, 123, 125]) := by
  obtain ⟨t, out, ⟨made, hpass, rfl⟩, ht, hout⟩ := ConfigParser.reads_document (m := none) doc
    ConfigParser.ten_mem_items (List.drop_zero (l := doc.flatMap Item.bytes))
  have ht0 : t.cs ≠ ConfigParser.error := (Nat.lt_of_lt_of_le (by decide) ht.1).ne'
  have hexec := ConfigParser.exec_of_passes hpass ht0
  constructor
  · rw [calls, ConfigParser.parse, cString_of_notMem h0]
    change (ConfigParser.exec _ 0 ⟨10, none⟩).2.map _ = _
    rw [hexec, ConfigParser.eofActs_item ht, List.map_append, List.map_append, ConfigParser.map_lead,
      ← List.append_assoc, hout]
    rfl
  · have hcs : t.cs = ConfigParser.dfa.eval (doc.flatMap Item.bytes) := by
      have hend := ConfigParser.exec_cs (doc.flatMap Item.bytes) 0 ⟨10, none⟩ (by decide)
      rwa [hexec] at hend
    have haccept : ConfigParser.dfa.eval (doc.flatMap Item.bytes) ∈ ConfigParser.dfa.accept := by
      rw [← hcs]
      exact ht
    exact (ConfigParser.parse_iff_eval h0).trans (ConfigParser.eval_eq_firstFinal_iff haccept)

/-- What `read` makes of a document that goes on behind its last statement or block: it is accepted exactly when the
blocks that it lays out are in order, and the virtual hosts and locations are those that they say. -/
theorem read_lays (env : Env Addr) {doc : List Item} {nodes : List Node} (h : Lays doc nodes)
    (h0 : 0 ∉ doc.flatMap Item.bytes) (hlast : ∀ c ∈ (doc.flatMap Item.bytes).getLast?, c ∉ [59, 123, 125]) :
    (read env (doc.flatMap Item.bytes)).toOption = (siteOf env nodes).map outside := by
  obtain ⟨hcalls, hparse⟩ := calls_document doc h0
  have hresult : (run env (calls (doc.flatMap Item.bytes))).toOption = (siteOf env nodes).map outside := by
    rw [hcalls]
    change result env (outside ⟨[], []⟩) _ = _
    rw [result_append, (result_lays h).2.2]
    exact Option.bind_fun_some _
  rw [read_eq, toOption_bind, hresult, hparse.mpr hlast]
  exact Option.bind_fun_some _

end ServerConfig
end Latypus.Config
