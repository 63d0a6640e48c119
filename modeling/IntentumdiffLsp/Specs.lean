import IntentumdiffLsp.Json
import IntentumdiffLsp.Foundations.Binary64
import IntentumdiffLsp.Foundations.Fallible
import IntentumdiffLsp.Foundations.Replace
import Mathlib.Data.String.Basic
import Mathlib.Logic.Function.Basic

/-!
Known servers, the entries a user adds to them, and how a server is launched.
-/

namespace IntentumdiffLsp.Specs

open Foundations
open Function
open IntentumdiffLsp.Json

inductive Transport where
  | tcp
  | stdio
  deriving DecidableEq

structure ServerSpec where
  command : List String
  transport : Transport
  startupTimeout : Binary64
  installHint : String
  allowUnverifiedTcpAutostart : Bool
  deriving DecidableEq

def ServerSpec.stdio (command : List String) (startupTimeout : Int) (installHint : String) :
    ServerSpec :=
  { command := command
    transport := .stdio
    startupTimeout := .ofInt startupTimeout
    installHint := installHint
    allowUnverifiedTcpAutostart := false }

def knownServerSpecs : List (String × ServerSpec) := [
  ("python", .stdio ["pylsp"] 10 "uv pip install python-lsp-server"),
  ("go", .stdio ["gopls"] 20 "go install golang.org/x/tools/gopls@latest"),
  ("ruby", .stdio ["solargraph", "stdio"] 15 "gem install solargraph"),
  ("php", .stdio ["phpactor", "language-server"] 10 "composer global require phpactor/phpactor"),
  ("javascript", .stdio ["typescript-language-server", "--stdio"] 15
    "npm install -g typescript-language-server typescript"),
  ("typescript", .stdio ["typescript-language-server", "--stdio"] 15
    "npm install -g typescript-language-server typescript"),
  ("tsx", .stdio ["typescript-language-server", "--stdio"] 15
    "npm install -g typescript-language-server typescript"),
  ("rust", .stdio ["rust-analyzer"] 15 "rustup component add rust-analyzer"),
  ("c", .stdio ["clangd"] 15 "https://clangd.llvm.org/installation"),
  ("cpp", .stdio ["clangd"] 15 "https://clangd.llvm.org/installation"),
  ("bash", .stdio ["bash-language-server", "start"] 15 "npm install -g bash-language-server"),
  ("kotlin", .stdio ["kotlin-language-server"] 15
    "https://github.com/fwcd/kotlin-language-server/releases"),
  ("swift", .stdio ["sourcekit-lsp"] 15 "Included with Xcode or https://swift.org/download"),
  ("java", .stdio ["jdtls"] 15 "https://github.com/eclipse/eclipse.jdt.ls"),
  ("csharp", .stdio ["OmniSharp", "--languageserver"] 15
    "https://github.com/OmniSharp/omnisharp-roslyn/releases"),
  ("dbt-sql", .stdio ["dbt-lsp"] 15 "https://docs.getdbt.com/docs/install-dbt-extension"),
  ("dbt-yaml", .stdio ["dbt-lsp"] 15 "https://docs.getdbt.com/docs/install-dbt-extension")]

structure ServerEntry where
  language : String
  transport : Transport
  command : List String
  host : String
  port : Option UInt16
  startupTimeout : Binary64
  installHint : String
  allowUnverifiedTcpAutostart : Bool
  deriving DecidableEq

def ServerEntry.toSpec (entry : ServerEntry) : Except String ServerSpec :=
  if entry.command.isEmpty then
    .error "Cannot convert a manual-connect entry (no command) to a server spec"
  else
    .ok
      { command := entry.command
        transport := entry.transport
        startupTimeout := entry.startupTimeout
        installHint := entry.installHint
        allowUnverifiedTcpAutostart := entry.allowUnverifiedTcpAutostart }

def asF64 : Value → Option Binary64
  | .number (.posInt n) => some (.ofInt n.toNat)
  | .number (.negInt n) => some (.ofInt n.toInt)
  | .number (.float bits) => some ⟨bits⟩
  | _ => none

def asObject : Value → Option (List (String × Value))
  | .object fields => some fields
  | _ => none

section Parse

variable (debugStr : String → String) (name : String) (data : Value)

def invalidEntry (rule : String) : String :=
  s!"invalid entry {debugStr name}: {rule}"

def parseLanguage : Except String String :=
  let language := ((data.get "language").bind Value.asStr).getD ""
  if language = "" then .error (invalidEntry debugStr name "language is required")
  else .ok language

def parseTransport : Except String Transport :=
  match (data.get "transport").bind Value.asStr with
  | none => .ok .stdio
  | some "stdio" => .ok .stdio
  | some "tcp" => .ok .tcp
  | some other => .error (invalidEntry debugStr name s!"unknown transport {debugStr other}")

def parseCommandItem (v : Value) : Except String String :=
  match v.asStr with
  | some s => .ok s
  | none => .error (invalidEntry debugStr name "command items must be strings")

def parseCommand : Except String (List String) :=
  match data.get "command" with
  | none => .ok []
  | some (.array items) => items.mapM (parseCommandItem debugStr name)
  | some _ => .error (invalidEntry debugStr name "command must be an array")

def parseHost : Except String String :=
  match data.get "host" with
  | none => .ok "localhost"
  | some (.string s) =>
      if s = "" then .error (invalidEntry debugStr name "host must be a non-empty string")
      else .ok s
  | some _ => .error (invalidEntry debugStr name "host must be a non-empty string")

def parsePortNumber (v : Value) : Except String UInt16 :=
  match v.asI64 with
  | none => .error (invalidEntry debugStr name "port must be an integer")
  | some n =>
      if 1 ≤ n ∧ n ≤ 65535 then .ok (UInt16.ofNat n.toNat)
      else .error (invalidEntry debugStr name "port must be between 1 and 65535")

def parsePort : Except String (Option UInt16) :=
  match data.get "port" with
  | none | some .null => .ok none
  | some v => (parsePortNumber debugStr name v).map some

def parseStartupTimeout : Except String Binary64 :=
  match data.get "startup_timeout" with
  | none => .ok (.ofInt 15)
  | some v =>
      match asF64 v with
      | none => .error (invalidEntry debugStr name "startup_timeout must be a number")
      | some t =>
          if t.leZero then .error (invalidEntry debugStr name "startup_timeout must be positive")
          else .ok t

/-- The rules that tie the transport, the command and the port together. -/
def validate (transport : Transport) (command : List String) (port : Option UInt16) :
    Except String Unit :=
  if transport = .stdio ∧ command = [] then
    .error (invalidEntry debugStr name "command is required for stdio transport")
  else if transport = .tcp ∧ command = [] ∧ port = none then
    .error (invalidEntry debugStr name
      "for tcp without command (manual-connect mode) port is required")
  else .ok ()

def ServerEntry.parse : Except String ServerEntry :=
  match asObject data with
  | none => .error s!"entry {debugStr name} must be a JSON object"
  | some _ => do
      let language ← parseLanguage debugStr name data
      let transport ← parseTransport debugStr name data
      let command ← parseCommand debugStr name data
      let host ← parseHost debugStr name data
      let port ← parsePort debugStr name data
      let startupTimeout ← parseStartupTimeout debugStr name data
      let installHint := ((data.get "install_hint").bind Value.asStr).getD ""
      let allowUnverifiedTcpAutostart :=
        ((data.get "allow_unverified_tcp_autostart").bind Value.asBool).getD false
      validate debugStr name transport command port
      return {
        language, transport, command, host, port, startupTimeout, installHint,
        allowUnverifiedTcpAutostart }

end Parse

/-- What a JSON text holds, with the members of its top level as they are written. -/
inductive Document where
  | object (written : List (String × Value))
  | other (v : Value) (nonobject : asObject v = none)

/-- The map of an object is ordered by key, and a key written again replaces the value. -/
def sortedMembers (written : List (String × Value)) : List (String × Value) :=
  (Std.TreeMap.ofList written compare).toList

def Document.toValue : Document → Value
  | .object written => .object (sortedMembers written)
  | .other v _ => v

/-- What the process knows and reads; texts are shown in their debug form. -/
structure Process where
  debugStr : String → String
  pid : Nat
  readDocument : (raw : String) → Except String Document

/-- A file as it stands, with the text its path is shown as. -/
structure ConfigFile where
  display : String
  present : Bool
  readToString : Except String String

/-- The servers by language. -/
abbrev ServerMap := String → Option ServerEntry

def noServers : ServerMap := fun _ => none

/-- An entry for a language stays when another one comes. -/
def ServerMap.orInsert (servers : ServerMap) (entry : ServerEntry) : ServerMap :=
  update servers entry.language ((servers entry.language).or (some entry))

section Load

variable (process : Process) (file : ConfigFile)

def insertEntries (servers : ServerMap) : List (String × Value) → Except String ServerMap
  | [] => .ok servers
  | (name, data) :: rest =>
      match ServerEntry.parse process.debugStr name data with
      | .error e => .error s!"{file.display}: {e}"
      | .ok entry => insertEntries (servers.orInsert entry) rest

def loadLspServersJson : Except String ServerMap :=
  if file.present = false then .ok noServers
  else
    match file.readToString with
    | .error e => .error s!"{file.display}: {e}"
    | .ok raw =>
        match process.readDocument raw with
        | .error e => .error s!"{file.display}: invalid JSON — {e}"
        | .ok document =>
            match asObject document.toValue with
            | none => .error s!"{file.display}: expected a JSON object at the top level"
            | some obj => insertEntries process file noServers obj

end Load

inductive LaunchPlan where
  | stdio (command : List String)
  | manualTcp (host : String) (port : UInt16)
  | tcpAutostart (command : List String) (host : String) (startupTimeout : Binary64)

def pidPlaceholder : List Char := "\x7bpid\x7d".toList

def substitutePid (process : Process) (part : String) : String :=
  String.ofList (Replace.replace pidPlaceholder (Text.decimal process.pid) part.toList)

def knownSpec (language : String) : Option ServerSpec :=
  (knownServerSpecs.find? fun known => known.1 == language).map Prod.snd

/-- Auto-started TCP fails closed. -/
def resolveLaunch (process : Process) (language : String) (spec : Option ServerSpec)
    (host : String) : Except String LaunchPlan :=
  match spec.or (knownSpec language) with
  | none =>
      let available := String.intercalate ", "
        ((knownServerSpecs.map Prod.fst).mergeSort fun a b => decide (a ≤ b))
      .error s!"No auto-start spec for language {process.debugStr language}. Available: {available}"
  | some spec =>
      match spec.transport with
      | .tcp =>
          if spec.allowUnverifiedTcpAutostart then
            .ok (.tcpAutostart spec.command host spec.startupTimeout)
          else
            .error ("Auto-started TCP LSP servers are disabled by default. Use a stdio " ++
              "server spec or connect to an already-running manual TCP endpoint. " ++
              "Set allow_unverified_tcp_autostart only for trusted legacy commands " ++
              "that accept the local port-race residual risk.")
      | .stdio => .ok (.stdio (spec.command.map (substitutePid process)))

end IntentumdiffLsp.Specs
