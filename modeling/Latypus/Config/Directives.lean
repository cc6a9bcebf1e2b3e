import Latypus.Config.Parser

/-! `config` with the directives and blocks of `http_server_config`: what the calls of the parser
do to the block stack, to the line that is being read and to the virtual hosts. A fatal exit ends
the run with its message, an access outside a vector or through a null pointer is a fault. Of the
general settings only the top level root is kept, and of the others the arguments they read. -/

namespace Latypus.Config
open Http

/-- The bytes of a name in the source. -/
def ascii (s : String) : Bytes := s.toList.map fun c => UInt8.ofNat c.toNat

abbrev Line := List Bytes

/-- What is dereferenced while it is null, or indexed beyond its size. -/
inductive Fault where
  | currentVhost
  | currentLocation
  | line
  | block
  | chars
deriving DecidableEq, Repr

inductive Halt where
  /-- `log_fatal_exit` with its format and the strings it is given. -/
  | fatal (format : String) (args : List Bytes)
  | fault (what : Fault)
deriving DecidableEq, Repr

/-- `line[i]` -/
def arg (line : Line) (i : Nat) : Except Halt Bytes :=
  match (line)[i]? with
  | none => .error (.fault .line)
  | some value => .ok value

/-- The fatal exit whose message is given `line[i]`. -/
def fatalArg {α : Type} (format : String) (line : Line) (i : Nat) : Except Halt α := do
  let value ← arg line i
  .error (.fatal format [value])

/-- What the directives rely on: the parser of addresses and the table of protocols. -/
structure Env (Addr : Type) where
  stringToAddr : Bytes → Option Addr
  isProtocol : Bytes → Bool

structure LocationConfig where
  uri : Bytes
  root : Bytes
  handler : Bytes
  indexFiles : List Bytes
deriving DecidableEq, Repr

structure VhostConfig (Addr : Type) where
  /-- The addresses with whether TLS is used on them. -/
  listens : List (Addr × Bool)
  serverNames : List Bytes
  locationList : List LocationConfig
deriving DecidableEq, Repr

structure ServerConfig (Addr : Type) where
  /-- The stack of open blocks, the innermost first. -/
  block : List Line
  line : Line
  vhostList : List (VhostConfig Addr)
  /-- The positions that `current_vhost` and `current_location` point to. -/
  currentVhost : Option Nat
  currentLocation : Option (Nat × Nat)
  root : Bytes
deriving DecidableEq, Repr

namespace ServerConfig
variable {Addr : Type}

def init : ServerConfig Addr := ⟨[], [], [], none, none, []⟩

/-- Assign through `current_vhost`. -/
def onVhost (f : VhostConfig Addr → VhostConfig Addr) (cfg : ServerConfig Addr) : Except Halt (ServerConfig Addr) :=
  match cfg.currentVhost with
  | none => .error (.fault .currentVhost)
  | some v => .ok { cfg with vhostList := cfg.vhostList.modify v f }

/-- Assign through `current_location`. -/
def onLocation (f : LocationConfig → LocationConfig) (cfg : ServerConfig Addr) : Except Halt (ServerConfig Addr) :=
  match cfg.currentLocation with
  | none => .error (.fault .currentLocation)
  | some (v, l) =>
    .ok { cfg with
      vhostList := cfg.vhostList.modify v fun vhost =>
        { vhost with locationList := vhost.locationList.modify l f } }

/-- The innermost block is one of the given name. -/
def inBlock (cfg : ServerConfig Addr) (key : String) : Bool :=
  match cfg.block with
  | [] => false
  | line :: _ => line.head? = some (ascii key)

/-- Append the strings that are not there yet. -/
def addNew (old : List Bytes) (new : List Bytes) : List Bytes :=
  new.foldl (fun acc s => if s ∈ acc then acc else acc ++ [s]) old

/-- A record of a table of directives; −1 arguments are any number. -/
structure Record (Addr : Type) where
  minargs : Int
  maxargs : Int
  fn : Line → ServerConfig Addr → Except Halt (ServerConfig Addr)

structure BlockRecord (Addr : Type) extends Record Addr where
  parentBlock : Option String

/-- A setting of the server or of a virtual host, whose value nothing here reads. -/
def vhostSetting (key : String) (line : Line) (cfg : ServerConfig Addr) : Except Halt (ServerConfig Addr) :=
  if cfg.block.length = 0 then do
    let _ ← arg line 1
    .ok cfg
  else if cfg.inBlock "http_server" then do
    let _ ← arg line 1
    cfg.onVhost id
  else fatalArg
    ("configuration error: " ++ key ++ " must be defined at the toplevel or in a http_server block") line 0

def listen (env : Env Addr) (line : Line) (cfg : ServerConfig Addr) : Except Halt (ServerConfig Addr) :=
  if cfg.inBlock "http_server" then do
    let address ← arg line 1
    match env.stringToAddr address with
    | none => .error (.fatal "configuration error: proto_listener: invalid address: %s" [address])
    | some addr =>
      if line.length = 3 then do
        let option ← arg line 2
        if option ≠ ascii "tls" then
          .error (.fatal "configuration error: proto_listener: invalid option: %s" [option])
        else cfg.onVhost fun vhost => { vhost with listens := vhost.listens ++ [(addr, true)] }
      else cfg.onVhost fun vhost => { vhost with listens := vhost.listens ++ [(addr, false)] }
  else fatalArg
    "configuration error: listen must be defined at the toplevel or in a http_server block" line 0

def serverName (line : Line) (cfg : ServerConfig Addr) : Except Halt (ServerConfig Addr) :=
  if cfg.inBlock "http_server" then
    cfg.onVhost fun vhost => { vhost with serverNames := addNew vhost.serverNames line.tail }
  else fatalArg
    "configuration error: server_name must be defined at the toplevel or in a http_server block" line 0

def setRoot (line : Line) (cfg : ServerConfig Addr) : Except Halt (ServerConfig Addr) :=
  if cfg.block.length = 0 then do
    let root ← arg line 1
    .ok { cfg with root := root }
  else if cfg.inBlock "location" then do
    let root ← arg line 1
    cfg.onLocation fun location => { location with root := root }
  else fatalArg
    "configuration error: root must be defined at the toplevel or in a location block" line 0

def index (line : Line) (cfg : ServerConfig Addr) : Except Halt (ServerConfig Addr) :=
  if cfg.block.length = 0 then .ok cfg
  else if cfg.inBlock "location" then
    cfg.onLocation fun location => { location with indexFiles := addNew location.indexFiles line.tail }
  else fatalArg
    "configuration error: index must be defined at the toplevel or in a location block" line 0

def handler (line : Line) (cfg : ServerConfig Addr) : Except Halt (ServerConfig Addr) :=
  if cfg.inBlock "location" then do
    let name ← arg line 1
    cfg.onLocation fun location => { location with handler := name }
  else fatalArg
    "configuration error: handler must be defined at the toplevel or in a location block" line 0

def protoListener (env : Env Addr) (line : Line) (cfg : ServerConfig Addr) : Except Halt (ServerConfig Addr) := do
  let proto ← arg line 1
  if !env.isProtocol proto then
    .error (.fatal "configuration error: proto_listener: invalid protocol: %s" [proto])
  else do
    let address ← arg line 2
    if env.stringToAddr address = none then
      .error (.fatal "configuration error: proto_listener: invalid address: %s" [address])
    else if line.length = 4 then do
      let option ← arg line 3
      if option ≠ ascii "tls" then
        .error (.fatal "configuration error: proto_listener: invalid option: %s" [option])
      else .ok cfg
    else .ok cfg

/-- A setting of `config` that reads the given arguments and whose value nothing here reads. -/
def setting (minargs maxargs : Int) (args : List Nat) : Record Addr where
  minargs := minargs
  maxargs := maxargs
  fn line cfg := do
    let _ ← args.mapM (arg line)
    .ok cfg

/-- `config_fn_map` of `http_server_config`. -/
def serverConfigFns (env : Env Addr) : List (Bytes × Record Addr) := [
  (ascii "error_log", ⟨2, 2, vhostSetting "error_log"⟩),
  (ascii "access_log", ⟨2, 2, vhostSetting "access_log"⟩),
  (ascii "tls_key_file", ⟨2, 2, vhostSetting "tls_key_file"⟩),
  (ascii "tls_cert_file", ⟨2, 2, vhostSetting "tls_cert_file"⟩),
  (ascii "tls_cipher_list", ⟨2, 2, vhostSetting "tls_cipher_list"⟩),
  (ascii "listen", ⟨2, 3, listen env⟩),
  (ascii "server_name", ⟨2, -1, serverName⟩),
  (ascii "root", ⟨2, 2, setRoot⟩),
  (ascii "index", ⟨2, -1, index⟩),
  (ascii "handler", ⟨2, 2, handler⟩)]

/-- `config_fn_map` of `config`. -/
def generalConfigFns (env : Env Addr) : List (Bytes × Record Addr) := [
  (ascii "os_user", setting 2 2 [1]),
  (ascii "os_group", setting 2 2 [1]),
  (ascii "pid_file", setting 2 2 [1]),
  (ascii "tls_ca_file", setting 2 2 [1]),
  (ascii "tls_key_file", setting 2 2 [1]),
  (ascii "tls_cert_file", setting 2 2 [1]),
  (ascii "tls_cipher_list", setting 2 2 [1]),
  (ascii "tls_session_timeout", setting 2 2 [1]),
  (ascii "tls_session_count", setting 2 2 [1]),
  (ascii "client_connections", setting 2 2 [1]),
  (ascii "server_connections", setting 2 2 [1]),
  (ascii "listen_backlog", setting 2 2 [1]),
  (ascii "max_headers", setting 2 2 [1]),
  (ascii "header_buffer_size", setting 2 2 [1]),
  (ascii "io_buffer_size", setting 2 2 [1]),
  (ascii "ipc_buffer_size", setting 2 2 [1]),
  (ascii "log_buffers", setting 2 2 [1]),
  (ascii "keepalive_timeout", setting 2 2 [1]),
  (ascii "connection_timeout", setting 2 2 [1]),
  (ascii "client_threads", setting 3 3 [1, 2]),
  (ascii "server_threads", setting 3 3 [1, 2]),
  (ascii "proto_threads", setting 3 3 [1, 2]),
  (ascii "proto_listener", ⟨3, 4, protoListener env⟩),
  (ascii "mime_type", setting 3 (-1) [1])]

def startServer (_ : Line) (cfg : ServerConfig Addr) : Except Halt (ServerConfig Addr) :=
  .ok { cfg with
    vhostList := cfg.vhostList ++ [⟨[], [], []⟩]
    currentVhost := some cfg.vhostList.length }

def startLocation (line : Line) (cfg : ServerConfig Addr) : Except Halt (ServerConfig Addr) := do
  let uri ← arg line 1
  match cfg.currentVhost with
  | none => .error (.fault .currentVhost)
  | some v =>
    let location : LocationConfig := ⟨uri, [], [], []⟩
    .ok { cfg with
      vhostList := cfg.vhostList.modify v fun vhost =>
        { vhost with locationList := vhost.locationList ++ [location] }
      currentLocation := (cfg.vhostList[v]?).map fun vhost => (v, vhost.locationList.length) }

def endServer (_ : Line) (cfg : ServerConfig Addr) : Except Halt (ServerConfig Addr) :=
  match cfg.currentVhost.bind (cfg.vhostList[·]?) with
  | none => .error (.fault .currentVhost)
  | some vhost =>
    if vhost.locationList.length = 0 then
      .error (.fatal
        "configuration error: http_server must contain one or more \"location\" directives" [])
    else .ok { cfg with currentVhost := none }

/-- The location that `current_location` points to. -/
def location? (cfg : ServerConfig Addr) : Option LocationConfig := do
  let (v, l) ← cfg.currentLocation
  let vhost ← cfg.vhostList[v]?
  vhost.locationList[l]?

def endLocation (line : Line) (cfg : ServerConfig Addr) : Except Halt (ServerConfig Addr) :=
  match cfg.location? with
  | none => .error (.fault .currentLocation)
  | some location =>
    if location.root.length = 0 ∧ location.handler.length = 0 then
      fatalArg
        "configuration error: location \"%s\" must contain \"root\" and or \"handler\" directives"
        line 0
    else .ok { cfg with currentLocation := none }

/-- `block_start_fn_map` of `http_server_config`; that of `config` is empty. -/
def blockStartFns : List (Bytes × BlockRecord Addr) := [
  (ascii "http_server", ⟨⟨1, 1, startServer⟩, none⟩),
  (ascii "location", ⟨⟨2, 2, startLocation⟩, some "http_server"⟩)]

def blockEndFns : List (Bytes × BlockRecord Addr) := [
  (ascii "http_server", ⟨⟨0, 0, endServer⟩, none⟩),
  (ascii "location", ⟨⟨0, 0, endLocation⟩, none⟩)]

/-- The record of the protocol comes before the general one. -/
def lookupConfigFn (env : Env Addr) (key : Bytes) : Option (Record Addr) :=
  ((serverConfigFns env).lookup key).or ((generalConfigFns env).lookup key)

/-- The check of the number of arguments, which the name of the directive counts as. -/
def checkArgs (rec : Record Addr) (key : Bytes) (line : Line) : Except Halt Unit :=
  if rec.minargs = rec.maxargs ∧ (line.length : Int) ≠ rec.minargs then
    .error (.fatal "%s requires %d argument(s)" [key, decimal rec.minargs])
  else if rec.minargs > 0 ∧ (line.length : Int) < rec.minargs then
    .error (.fatal "%s requires at least %d argument(s)" [key, decimal rec.minargs])
  else if rec.maxargs > 0 ∧ (line.length : Int) > rec.maxargs then
    .error (.fatal "%s requires no more than %d argument(s)" [key, decimal rec.maxargs])
  else .ok ()

def symbol (value : Bytes) (cfg : ServerConfig Addr) : ServerConfig Addr := { cfg with line := cfg.line ++ [value] }

/-- The check of the block that a block stands in. -/
def checkParent (rec : BlockRecord Addr) (key : Bytes) (cfg : ServerConfig Addr) : Except Halt Unit :=
  match rec.parentBlock with
  | some parent =>
    if cfg.inBlock parent then .ok ()
    else
      -- the message names the innermost block
      match cfg.block with
      | [] => .error (.fault .block)
      | [] :: _ => .error (.fault .line)
      | (name :: _) :: _ => .error (.fatal "invalid parent block \"%s\" for block \"%s\"\n" [name, key])
  | none =>
    if cfg.block.length > 0 then
      .error (.fatal "invalid parent block \"root\" for block \"%s\"\n" [key])
    else .ok ()

def startBlock (cfg : ServerConfig Addr) : Except Halt (ServerConfig Addr) :=
  match cfg.line with
  | [] => .error (.fault .line)
  | key :: args =>
    match blockStartFns.lookup key with
    | none => .error (.fatal "unrecognized block: %s" [key])
    | some rec => do
      checkParent rec key cfg
      checkArgs rec.toRecord key (key :: args)
      rec.fn (key :: args) { cfg with block := (key :: args) :: cfg.block, line := [] }

def endBlock (cfg : ServerConfig Addr) : Except Halt (ServerConfig Addr) :=
  match cfg.block with
  | [] => .error (.fault .block)
  | [] :: _ => .error (.fault .line)
  | (key :: args) :: _ =>
    match blockEndFns.lookup key with
    | none => .ok { cfg with block := cfg.block.tail }
    | some rec => do
      let cfg ← rec.fn (key :: args) cfg
      .ok { cfg with block := cfg.block.tail }

def endStatement (env : Env Addr) (cfg : ServerConfig Addr) : Except Halt (ServerConfig Addr) :=
  match cfg.line with
  | [] => .ok cfg
  | key :: args =>
    match lookupConfigFn env key with
    | none => .error (.fatal "unrecognized directive: %s" [key])
    | some rec => do
      checkArgs rec key (key :: args)
      let cfg ← rec.fn (key :: args) cfg
      .ok { cfg with line := [] }

def event (env : Env Addr) (cfg : ServerConfig Addr) : Event Bytes → Except Halt (ServerConfig Addr)
  | .symbol value => .ok (cfg.symbol value)
  | .startBlock => cfg.startBlock
  | .endBlock => cfg.endBlock
  | .endStatement => cfg.endStatement env
  | .configDone => .ok cfg

/-- `read` of the text of a file, which the code puts a terminator behind. -/
def read (env : Env Addr) (text : Bytes) : Except Halt (ServerConfig Addr) := do
  let (parsed, events) := ConfigParser.parse text
  let cfg ← (events.map (Event.map (bytesAt text))).foldlM (event env) init
  if parsed then .ok cfg else .error (.fatal "config: parse error" [])

end ServerConfig
end Latypus.Config
