import IntentumdiffLsp.Codec
import IntentumdiffLsp.UriPath

/-!
The language server: batches of messages, and one computation for each document
they leave dirty.
-/

namespace IntentumdiffLsp.Server

open Foundations
open Foundations.UnixPath
open Function
open IntentumdiffLsp.Json
open IntentumdiffLsp.UriPath

/-- The file system and the engine as a step of the server finds them. -/
structure Env where
  readToString : Path → Except String String
  loadProjectConfig : (root : String) → Except String String
  handleDiff : (root rel gitRef content config wasmDir : String) → Except String String
  diffContents : (root filename oldContent newContent config wasmDir : String) →
    Except String String

/-- What stays the same while the server runs. -/
structure Context where
  host : Host
  fromStr : String → Option Value
  diagnostics : Value → Value
  codeLens : Value → List Value

structure ServerState where
  root : Option Path
  gitRef : String
  configJson : String
  wasmDir : String
  supportsCodelensRefresh : Bool
  diffCache : String → Option Value
  contentCache : String → Option String
  nextServerId : Int

def ServerState.new (gitRef wasmDir : String) : ServerState :=
  { root := none
    gitRef := gitRef
    configJson := "\x7b\x7d"
    wasmDir := wasmDir
    supportsCodelensRefresh := false
    diffCache := fun _ => none
    contentCache := fun _ => none
    nextServerId := 1 }

inductive Method where
  | initializeRequest
  | initialized
  | didOpen
  | didChange
  | didClose
  | codeLens
  | semanticDiff
  | shutdown
  | exit
  | unknown (name : String)
  deriving DecidableEq

/-- A message without a method is a response to the server. -/
def methodOf (msg : Value) : Option Method :=
  match ((msg.get "method").bind Value.asStr).getD "" with
  | "" => none
  | "initialize" => some .initializeRequest
  | "initialized" => some .initialized
  | "textDocument/didOpen" => some .didOpen
  | "textDocument/didChange" => some .didChange
  | "textDocument/didClose" => some .didClose
  | "textDocument/codeLens" => some .codeLens
  | "intentumdiff/semanticDiff" => some .semanticDiff
  | "shutdown" => some .shutdown
  | "exit" => some .exit
  | name => some (.unknown name)

def paramsOf (msg : Value) : Value :=
  (msg.get "params").getD .null

def respond (id result : Value) : Value :=
  .object [("jsonrpc", .string "2.0"), ("id", id), ("result", result)]

def respondError (id : Value) (code : Int) (message : String) : Value :=
  .object [("jsonrpc", .string "2.0"), ("id", id),
    ("error", .object [("code", .ofI64 code), ("message", .string message)])]

/-- Only a message with an id is answered. -/
def answer (msg result : Value) : List Value :=
  ((msg.get "id").map fun id => respond id result).toList

def publishDiagnostics (uri : String) (diagnostics : Value) : Value :=
  .object [("jsonrpc", .string "2.0"), ("method", .string "textDocument/publishDiagnostics"),
    ("params", .object [("uri", .string uri), ("diagnostics", diagnostics)])]

def codeLensRefresh (id : Int) : Value :=
  .object [("jsonrpc", .string "2.0"), ("id", .ofI64 id),
    ("method", .string "workspace/codeLens/refresh"), ("params", .null)]

def errorObject (message : String) : Value :=
  .object [("error", .string message)]

def toStringLossy (p : Path) : String :=
  String.ofList (Utf8.decodeLossy p)

section Params

variable (params : Value)

def rootUri : Option String :=
  ((params.get "rootUri").bind Value.asStr).or
    (((((params.get "workspaceFolders").bind Value.asArray).bind List.head?).bind
      (Value.get · "uri")).bind Value.asStr)

def refreshSupport : Bool :=
  ((params.pointer ["capabilities", "workspace", "codeLens", "refreshSupport"]).bind
    Value.asBool).getD false

def documentUri : Option String :=
  (params.pointer ["textDocument", "uri"]).bind Value.asStr

def openedText : Option String :=
  (params.pointer ["textDocument", "text"]).bind Value.asStr

/-- The last change is the complete document. -/
def changedText : Option String :=
  ((((params.get "contentChanges").bind Value.asArray).bind List.getLast?).bind
    (Value.get · "text")).bind Value.asStr

def uriParam (key : String) : String :=
  ((params.get key).bind Value.asStr).getD ""

end Params

/-- What leaves the process: a file that is read, and a diff that the engine is
asked for, with the path of the file and the text of what lies below the root. -/
inductive Call where
  | read (path : Path)
  | diff (path : Path) (rel : String)
  deriving DecidableEq

def Call.path : Call → Path
  | .read path => path
  | .diff path _ => path

section Requests

variable (ctx : Context) (env : Env) (s : ServerState)

def relOf (below : Path) : String :=
  String.ofList (relativeText below)

def liveDiff (root : Path) (rel content : String) : Except String String :=
  env.handleDiff (toStringLossy root) rel s.gitRef content s.configJson s.wasmDir

def parsedPayload (payload : String) : Value :=
  (ctx.fromStr payload).getD .null

def sameFile (root : Path) (uri : String) : List Call × Except String Value :=
  match uriToPath ctx.host uri (some root) with
  | .error e => ([], .error e)
  | .ok path =>
      -- The live buffer is preferred to the file on disk.
      let reads := if (s.contentCache uri).isSome then [] else [.read path]
      match (s.contentCache uri).elim (env.readToString path) .ok with
      | .error e => (reads, .error e)
      | .ok content =>
          match stripBase path root with
          | none => (reads, .error "file is outside the workspace root")
          | some below =>
              (reads ++ [.diff path (relOf below)],
                (liveDiff env s root (relOf below) content).map (parsedPayload ctx))

def twoFiles (root : Path) (oldUri newUri : String) : List Call × Except String Value :=
  match uriToPath ctx.host oldUri (some root) with
  | .error e => ([], .error e)
  | .ok oldPath =>
      match uriToPath ctx.host newUri (some root) with
      | .error e => ([], .error e)
      | .ok newPath =>
          match env.readToString oldPath with
          | .error e => ([.read oldPath], .error e)
          | .ok oldContent =>
              match env.readToString newPath with
              | .error e => ([.read oldPath, .read newPath], .error e)
              | .ok newContent =>
                  let filename := ((fileName newPath).map toStringLossy).getD ""
                  ([.read oldPath, .read newPath],
                    (env.diffContents (toStringLossy root) filename oldContent newContent
                      s.configJson s.wasmDir).map (parsedPayload ctx))

def semanticDiffResult (served : Except String Value) : Value :=
  match served with
  | .error e => errorObject e
  | .ok parsed =>
      match parsed.get "diff" with
      | some diff => diff
      | none =>
          match (parsed.get "fallback").bind Value.asStr with
          | some reason => errorObject s!"native_fallback: {reason}"
          | none => errorObject "Diff computation failed"

/-- Errors are in-band. -/
def semanticDiffRequest (params : Value) : List Call × Value :=
  let oldUri := uriParam params "oldUri"
  let newUri := uriParam params "newUri"
  if oldUri = "" ∨ newUri = "" then ([], errorObject "oldUri and newUri are required")
  else
    match s.root with
    | none => ([], errorObject "intentumdiff/semanticDiff requires a valid workspace root")
    | some root =>
        let served :=
          if oldUri = newUri then sameFile ctx env s root newUri
          else twoFiles ctx env s root oldUri newUri
        (served.1, semanticDiffResult served.2)

def initializeServer (params : Value) : ServerState :=
  let rooted :=
    match (rootUri params).map fun uri => uriToPath ctx.host uri none with
    | some (.ok path) =>
        let configJson :=
          match env.loadProjectConfig (toStringLossy path) with
          | .ok loaded =>
              if Text.trim loaded.toList = ['\x7b', '\x7d'] then s.configJson else loaded
          | .error _ => s.configJson
        { s with configJson := configJson, root := some path }
    | _ => s
  { rooted with supportsCodelensRefresh := refreshSupport params }

def initializeResult : Value :=
  .object [
    ("capabilities", .object [("textDocumentSync", .ofI64 1),
      ("codeLensProvider", .object [("resolveProvider", .bool false)])]),
    ("serverInfo", .object [("name", .string "intentumdiff-lsp"), ("version", .string "1.0.0")])]

def codeLenses (params : Value) : Value :=
  .array (((s.diffCache ((documentUri params).getD "")).map ctx.codeLens).getD [])

/-- The diff in what the engine serves; nothing when it fails or falls back. -/
def engineDiff (root : Path) (rel content : String) : Option Value :=
  match liveDiff env s root rel content with
  | .error _ => none
  | .ok payload => (ctx.fromStr payload).bind (Value.get · "diff")

/-- The diff of the live buffer against the ref, with the content it is of. -/
def servedDiff (uri : String) : List Call × Option (String × Value) :=
  match s.root, s.contentCache uri with
  | some root, some content =>
      match uriToPath ctx.host uri (some root) with
      | .error _ => ([], none)
      | .ok path =>
          match stripBase path root with
          | none => ([], none)
          | some below =>
              ([.diff path (relOf below)],
                (engineDiff ctx env s root (relOf below) content).map fun diff => (content, diff))
  | _, _ => ([], none)

def cacheDiff (uri : String) (served : Option (String × Value)) : ServerState :=
  match served with
  | none => s
  | some (_, diff) =>
      { s with
        diffCache := update s.diffCache uri (some diff)
        nextServerId :=
          if s.supportsCodelensRefresh then wrapI64 (s.nextServerId + 1) else s.nextServerId }

def pushes (uri : String) (served : Option (String × Value)) : List Value :=
  match served with
  | none => []
  | some (_, diff) =>
      publishDiagnostics uri (ctx.diagnostics diff) ::
        if s.supportsCodelensRefresh then [codeLensRefresh s.nextServerId] else []

end Requests

inductive Cause where
  | message (msg : Value)
  | computation (uri : String) (served : Option (String × Value))

/-- A step of the main loop, with the state it found. -/
structure Event where
  cause : Cause
  found : ServerState
  calls : List Call
  written : List Value

/-- The main loop: the state of the server, the documents that are dirty in this
batch, and what has happened. -/
structure Session where
  server : ServerState
  dirty : List String
  trace : List Event
  exited : Bool

def Session.new (gitRef wasmDir : String) : Session :=
  { server := .new gitRef wasmDir, dirty := [], trace := [], exited := false }

namespace Session

variable (ctx : Context) (env : Nat → Env) (now : Env) (s : Session)

def store (uri text : Option String) : Session :=
  match uri, text with
  | some uri, some text =>
      { s with
        server := { s.server with
          contentCache := update s.server.contentCache uri (some text) }
        dirty := if uri ∈ s.dirty then s.dirty else s.dirty ++ [uri] }
  | _, _ => s

def close (uri : Option String) : Session :=
  match uri with
  | some uri =>
      { s with
        server := { s.server with
          diffCache := update s.server.diffCache uri none
          contentCache := update s.server.contentCache uri none }
        dirty := s.dirty.filter fun u => decide (u ≠ uri) }
  | none => s

def dispatch (msg : Value) : Session × List Call × List Value :=
  let params := paramsOf msg
  match methodOf msg with
  | none => (s, [], [])
  | some .initializeRequest =>
      ({ s with server := initializeServer ctx now s.server params }, [],
        answer msg initializeResult)
  | some .initialized => (s, [], [])
  | some .didOpen => (s.store (documentUri params) (openedText params), [], [])
  | some .didChange => (s.store (documentUri params) (changedText params), [], [])
  | some .didClose => (s.close (documentUri params), [], [])
  | some .codeLens => (s, [], answer msg (codeLenses ctx s.server params))
  | some .semanticDiff =>
      -- Without an id nothing is read or diffed.
      if (msg.get "id").isSome then
        let result := semanticDiffRequest ctx now s.server params
        (s, result.1, answer msg result.2)
      else (s, [], [])
  | some .shutdown => (s, [], answer msg .null)
  | some .exit => ({ s with exited := true }, [], [])
  | some (.unknown name) =>
      (s, [], ((msg.get "id").map fun id =>
        respondError id (-32601) s!"method not found: {name}").toList)

/-- Each message is handled in order of arrival, and none after the exit. -/
def handle (msg : Value) : Session :=
  if s.exited then s
  else
    let result := s.dispatch ctx (env s.trace.length) msg
    { result.1 with
      trace := s.trace ++ [⟨.message msg, s.server, result.2.1, result.2.2⟩] }

def computeAndPush (uri : String) : Session :=
  let result := servedDiff ctx (env s.trace.length) s.server uri
  { s with
    server := cacheDiff s.server uri result.2
    trace := s.trace ++
      [⟨.computation uri result.2, s.server, result.1, pushes ctx s.server uri result.2⟩] }

/-- Handle what is buffered, then compute once for each dirty document. -/
def processBatch (batch : List Value) : Session :=
  let handled := batch.foldl (handle ctx env) { s with dirty := [] }
  -- The exit leaves the loop before the dirty documents are computed.
  if handled.exited then handled
  else handled.dirty.foldl (computeAndPush ctx env) handled

/-- The batches are what the reader thread had queued each time the loop looked. -/
def run (batches : List (List Value)) : Session :=
  batches.foldl (processBatch ctx env) s

end Session

section Sample

def plainHost : Host :=
  { currentDir := [slash]
    currentDir_absolute := .inr rfl
    debugStr := id
    debugPath := toStringLossy }

def echo : Context :=
  { host := plainHost
    fromStr := fun payload => some (.object [("diff", .string payload)])
    diagnostics := id
    codeLens := fun diff => [diff] }

def echoEnv : Env :=
  { readToString := fun _ => .ok ""
    loadProjectConfig := fun _ => .error "no config"
    handleDiff := fun _ _ _ content _ _ => .ok content
    diffContents := fun _ _ _ newContent _ _ => .ok newContent }

def rootedAt (uri : String) : Value :=
  Codec.request "initialize" (.object [("rootUri", .string uri)]) 1

def document (uri : String) : String × Value :=
  ("textDocument", .object [("uri", .string uri)])

def opening (uri text : String) : Value :=
  Codec.notification "textDocument/didOpen"
    (.object [("textDocument", .object [("uri", .string uri), ("text", .string text)])])

def changing (uri text : String) : Value :=
  Codec.notification "textDocument/didChange"
    (.object [document uri, ("contentChanges", .array [.object [("text", .string text)]])])

def pulling (uri : String) : Value :=
  Codec.request "textDocument/codeLens" (.object [document uri]) 1

def comparing (oldUri newUri : String) : Value :=
  Codec.request "intentumdiff/semanticDiff"
    (.object [("oldUri", .string oldUri), ("newUri", .string newUri)]) 1

end Sample

end IntentumdiffLsp.Server
