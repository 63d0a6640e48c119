import IntentumdiffLsp.Answering
import IntentumdiffLsp.Scheduling
import IntentumdiffLsp.Spawn

/-!
What the server works with: the ref and the plugins come from where it was started, the
root and its configuration from the messages that set it up.
-/

namespace IntentumdiffLsp.Configuration

open Foundations
open Foundations.Journal
open Foundations.UnixPath
open IntentumdiffLsp.Json
open IntentumdiffLsp.UriPath
open IntentumdiffLsp.Spawn
open IntentumdiffLsp.Server
open IntentumdiffLsp.Sessions
open IntentumdiffLsp.Responses
open IntentumdiffLsp.Process
open IntentumdiffLsp.Answering
open IntentumdiffLsp.Scheduling

/-- What the process is started with: its arguments, `INTENTUMDIFF_WASM_DIR` when it is set
to a text, the path of its own file when it is known, and the file system. -/
structure Surroundings where
  args : List String
  wasmDirVar : Option String
  currentExe : Option Path
  fs : FileSystem

def argValue (args : List String) (flag : String) : Option String :=
  (args.findIdx? (· == flag)).bind fun i => args[i + 1]?

def dirHasManifest (fs : FileSystem) (dir : Path) : Bool :=
  fs.isFile (push dir (Utf8.encode "parser_manifest.json".toList))

def shippedDir (exeDir : Path) : Path :=
  push exeDir (Utf8.encode "wasm".toList)

def devDir (ancestor : Path) : Path :=
  push (push (push ancestor (Utf8.encode "src".toList)) (Utf8.encode "intentumdiff".toList))
    (Utf8.encode "wasm".toList)

section Start

variable (around : Surroundings)

/-- What is looked for when the directory is not given. -/
def bundledDir : String :=
  match around.currentExe.bind parent with
  | none => ""
  | some exeDir =>
      if dirHasManifest around.fs (shippedDir exeDir) then toStringLossy (shippedDir exeDir)
      else
        match (ancestors exeDir).find? fun dir => dirHasManifest around.fs (devDir dir) with
        | some dir => toStringLossy (devDir dir)
        | none => ""

def resolveWasmDir : String :=
  match argValue around.args "--wasm-dir" with
  | some dir => dir
  | none =>
      match around.wasmDirVar with
      | some dir => if Text.trim dir.toList = [] then bundledDir around else dir
      | none => bundledDir around

/-- The server as `main` starts it. -/
def Surroundings.program (serde : SerdeJson) (bits : Nat) (ctx : Context) (env : Nat → Env) :
    Program where
  serde := serde
  bits := bits
  ctx := ctx
  env := env
  gitRef := (argValue around.args "--ref").getD "HEAD"
  wasmDir := resolveWasmDir around

/-- The directories that are looked at, in their order. -/
def candidates : List Path :=
  match around.currentExe.bind parent with
  | none => []
  | some exeDir => shippedDir exeDir :: (ancestors exeDir).map devDir

/-- Neither the flag nor the variable names a directory. -/
def NotGiven : Prop :=
  argValue around.args "--wasm-dir" = none ∧
    ∀ dir, around.wasmDirVar = some dir → Text.trim dir.toList = []

/-- Where the directory of the plugins comes from. What is given is taken as it is; what is
found has a manifest, and nothing that was looked at before has one. -/
inductive WasmDirFrom : String → Prop
  | flag {dir : String} (given : argValue around.args "--wasm-dir" = some dir) : WasmDirFrom dir
  | variable {dir : String} (flagless : argValue around.args "--wasm-dir" = none)
      (given : around.wasmDirVar = some dir) (text : Text.trim dir.toList ≠ []) : WasmDirFrom dir
  | found {before after : List Path} {dir : Path} (notGiven : NotGiven around)
      (split : candidates around = before ++ dir :: after)
      (nearer : ∀ d ∈ before, dirHasManifest around.fs d = false)
      (manifest : dirHasManifest around.fs dir = true) : WasmDirFrom (toStringLossy dir)
  | missing (notGiven : NotGiven around)
      (none : ∀ d ∈ candidates around, dirHasManifest around.fs d = false) : WasmDirFrom ""

end Start

section Search

variable {around : Surroundings}

theorem bundledDir_eq (around : Surroundings) :
    bundledDir around =
      (((candidates around).find? (dirHasManifest around.fs)).map toStringLossy).getD "" := by
  unfold bundledDir candidates
  rcases around.currentExe.bind parent with _ | exeDir
  · rfl
  · dsimp only
    rw [List.find?_cons]
    rcases hshipped : dirHasManifest around.fs (shippedDir exeDir) with _ | _
    · rw [if_neg Bool.false_ne_true, List.find?_map]
      show _ = (((((ancestors exeDir).find? fun dir => dirHasManifest around.fs (devDir dir)).map
        devDir).map toStringLossy).getD "")
      rcases (ancestors exeDir).find? fun dir => dirHasManifest around.fs (devDir dir) with
        _ | dir <;> rfl
    · rw [if_pos rfl]
      rfl

theorem wasmDirFrom_bundledDir (hnot : NotGiven around) :
    WasmDirFrom around (bundledDir around) := by
  rw [bundledDir_eq]
  rcases hfound : (candidates around).find? (dirHasManifest around.fs) with _ | dir
  · refine .missing hnot fun d hd => ?_
    rw [← Bool.not_eq_true]
    exact List.find?_eq_none.mp hfound d hd
  · obtain ⟨hmanifest, before, after, hsplit, hnearer⟩ :=
      List.find?_eq_some_iff_append.mp hfound
    refine .found hnot hsplit (fun d hd => ?_) hmanifest
    simpa using hnearer d hd

theorem wasmDirFrom_resolveWasmDir (around : Surroundings) :
    WasmDirFrom around (resolveWasmDir around) := by
  unfold resolveWasmDir
  split
  · rename_i dir hflag
    exact .flag hflag
  · rename_i hflag
    split
    · rename_i dir hvar
      split
      · rename_i hblank
        refine wasmDirFrom_bundledDir ⟨hflag, fun dir' hvar' => ?_⟩
        obtain rfl := Option.some.inj (hvar.symm.trans hvar')
        exact hblank
      · rename_i htext
        exact .variable hflag hvar htext
    · rename_i hvar
      exact wasmDirFrom_bundledDir ⟨hflag, fun dir' hvar' => nomatch hvar.symm.trans hvar'⟩

end Search

/-- The root that an initialize request names. -/
def rootGiven (ctx : Context) (event : Event) : Option Path :=
  match event.cause with
  | .message msg =>
      if methodOf msg = some .initializeRequest then
        (rootUri (paramsOf msg)).bind fun uri => (uriToPath ctx.host uri none).toOption
      else none
  | .computation _ _ => none

/-- The configuration of a root, when it can be loaded and is not empty. -/
def configOf (now : Env) (root : Path) : Option String :=
  match now.loadProjectConfig (toStringLossy root) with
  | .ok loaded => if Text.trim loaded.toList = ['\x7b', '\x7d'] then none else some loaded
  | .error _ => none

/-- The configuration that comes with the root, as the project had it at that place of the
trace. -/
def configGiven (ctx : Context) (env : Nat → Env) (entry : Event × Nat) : Option String :=
  (rootGiven ctx entry.1).bind (configOf (env entry.2))

def refreshGiven (event : Event) : Option Bool :=
  match event.cause with
  | .message msg =>
      if methodOf msg = some .initializeRequest then some (refreshSupport (paramsOf msg)) else none
  | .computation _ _ => none

/-- The server has the settings that it was started with, and what the initialize requests
have given it last: a root without a configuration leaves that of an earlier root. -/
structure Configured (ctx : Context) (env : Nat → Env) (gitRef wasmDir : String)
    (events : List Event) (server : ServerState) : Prop where
  gitRef : server.gitRef = gitRef
  wasmDir : server.wasmDir = wasmDir
  root : server.root = latest (rootGiven ctx) events
  config : server.configJson = (latest (configGiven ctx env) events.zipIdx).getD "\x7b\x7d"
  refresh : server.supportsCodelensRefresh = (latest refreshGiven events).getD false

section Settings

variable {ctx : Context} {env : Nat → Env} {gitRef wasmDir : String} {events : List Event}
  {server server' : ServerState}

theorem initializeServer_eq (ctx : Context) (now : Env) (server : ServerState) (params : Value) :
    let root := (rootUri params).bind fun uri => (uriToPath ctx.host uri none).toOption
    let after := initializeServer ctx now server params
    settings after = ⟨root.or server.root, server.gitRef,
        (root.bind (configOf now)).getD server.configJson, server.wasmDir⟩ ∧
      after.supportsCodelensRefresh = refreshSupport params := by
  dsimp only
  refine ⟨?_, rfl⟩
  unfold initializeServer configOf
  rcases rootUri params with _ | uri
  · rfl
  rcases hpath : uriToPath ctx.host uri none with error | path
  · simp only [Option.map_some, Option.bind_some, hpath]
    rfl
  simp only [Option.map_some, Option.bind_some, hpath, Except.toOption]
  rcases now.loadProjectConfig (toStringLossy path) with error | loaded
  · rfl
  · dsimp only
    split_ifs <;> rfl

theorem rootGiven_message {msg : Value} (found : ServerState) (calls : List Call)
    (written : List Value) (hmethod : methodOf msg = some .initializeRequest) :
    rootGiven ctx ⟨.message msg, found, calls, written⟩ =
      (rootUri (paramsOf msg)).bind fun uri => (uriToPath ctx.host uri none).toOption :=
  if_pos hmethod

theorem latest_zipIdx (events : List Event) (event : Event) :
    latest (configGiven ctx env) (events ++ [event]).zipIdx =
      (configGiven ctx env (event, events.length)).or
        (latest (configGiven ctx env) events.zipIdx) := by
  rw [List.zipIdx_append, Nat.zero_add]
  exact latest_append_singleton _ _ _

/-- An event that gives nothing, behind which the settings are the same. -/
theorem Configured.silent (h : Configured ctx env gitRef wasmDir events server) {event : Event}
    (hroot : rootGiven ctx event = none) (hrefresh : refreshGiven event = none)
    (hsettings : settings server' = settings server)
    (hsame : server'.supportsCodelensRefresh = server.supportsCodelensRefresh) :
    Configured ctx env gitRef wasmDir (events ++ [event]) server' := by
  have hconfig : configGiven ctx env (event, events.length) = none := by
    rw [configGiven, hroot, Option.bind_none]
  simp only [settings, Settings.mk.injEq] at hsettings
  obtain ⟨hr, hg, hc, hw⟩ := hsettings
  refine ⟨hg.trans h.gitRef, hw.trans h.wasmDir, ?_, ?_, ?_⟩
  · rw [hr, h.root, latest_append_singleton, hroot, Option.none_or]
  · rw [hc, h.config, latest_zipIdx, hconfig, Option.none_or]
  · rw [hsame, h.refresh, latest_append_singleton, hrefresh, Option.none_or]

theorem Configured.initialized (h : Configured ctx env gitRef wasmDir events server)
    {msg : Value} (hmethod : methodOf msg = some .initializeRequest) (calls : List Call)
    (written : List Value) :
    Configured ctx env gitRef wasmDir (events ++ [⟨.message msg, server, calls, written⟩])
      (initializeServer ctx (env events.length) server (paramsOf msg)) := by
  obtain ⟨hsettings, hrefresh⟩ :=
    initializeServer_eq ctx (env events.length) server (paramsOf msg)
  simp only [settings, Settings.mk.injEq] at hsettings
  obtain ⟨hr, hg, hc, hw⟩ := hsettings
  have hgiven := @rootGiven_message ctx msg server calls written hmethod
  refine ⟨hg.trans h.gitRef, hw.trans h.wasmDir, ?_, ?_, ?_⟩
  · rw [hr, h.root, latest_append_singleton, hgiven]
  · rw [hc, h.config, latest_zipIdx, configGiven, hgiven]
    rcases Option.bind _ (configOf (env events.length)) with _ | config <;> rfl
  · have hsupport : refreshGiven ⟨.message msg, server, calls, written⟩ =
        some (refreshSupport (paramsOf msg)) := if_pos hmethod
    rw [hrefresh, latest_append_singleton, hsupport]
    rfl

theorem Configured.handle {s : Session} (hrunning : s.exited = false)
    (h : Configured ctx env gitRef wasmDir s.trace s.server) (msg : Value) :
    Configured ctx env gitRef wasmDir (s.handle ctx env msg).trace
      (s.handle ctx env msg).server := by
  rw [handle_running hrunning]
  by_cases hmethod : methodOf msg = some .initializeRequest
  · have hserver : (s.dispatch ctx (env s.trace.length) msg).1.server =
        initializeServer ctx (env s.trace.length) s.server (paramsOf msg) := by
      simp only [Session.dispatch, hmethod]
    rw [hserver]
    exact h.initialized hmethod _ _
  · have hsupports := (dispatch_supports ctx (env s.trace.length) s msg).1
    rw [declares_eq, if_neg hmethod] at hsupports
    exact h.silent (if_neg hmethod) (if_neg hmethod) (dispatch_settings hmethod) hsupports

theorem Configured.compute {s : Session}
    (h : Configured ctx env gitRef wasmDir s.trace s.server) (uri : String) :
    Configured ctx env gitRef wasmDir (s.computeAndPush ctx env uri).trace
      (s.computeAndPush ctx env uri).server := by
  refine h.silent rfl rfl (cacheDiff_settings _ _ _) ?_
  show (cacheDiff s.server uri _).supportsCodelensRefresh = _
  unfold cacheDiff
  split <;> rfl

/-- The state that each event found is configured by the events in front of it. -/
structure SetUp (ctx : Context) (env : Nat → Env) (gitRef wasmDir : String) (s : Session) :
    Prop where
  now : Configured ctx env gitRef wasmDir s.trace s.server
  found : Explained (fun front event => Configured ctx env gitRef wasmDir front event.found)
    s.trace

theorem setUp_of_reachable {prog : Program} {p : ServerProcess}
    (h : (process prog).Reachable p) :
    SetUp prog.ctx prog.env prog.gitRef prog.wasmDir p.session := by
  refine session_invariant (P := SetUp prog.ctx prog.env prog.gitRef prog.wasmDir) ?_ ?_ ?_ ?_ h
  · exact ⟨⟨rfl, rfl, rfl, rfl, rfl⟩, explained_nil⟩
  · exact fun s hs => ⟨hs.now, hs.found⟩
  · intro s msg hrunning hs
    refine ⟨hs.now.handle hrunning msg, ?_⟩
    rw [handle_running hrunning]
    exact hs.found.append_singleton hs.now
  · exact fun s uri hs => ⟨hs.now.compute uri, hs.found.append_singleton hs.now⟩

end Settings

/-- Whatever the threads do: at each step of the main loop, and so at each call of the
engine, the ref is the one of the command line and the plugins are those of `WasmDirFrom`;
the root is that of the last initialize request with an acceptable one, and the
configuration is the last one that was loaded for such a root. -/
theorem process_configured (around : Surroundings) (serde : SerdeJson) (bits : Nat)
    (ctx : Context) (env : Nat → Env) (p : ServerProcess)
    (h : (process (around.program serde bits ctx env)).Reachable p) (front : List Event)
    (event : Event) (back : List Event) (hsplit : p.session.trace = front ++ event :: back) :
    ∃ wasmDir, WasmDirFrom around wasmDir ∧
      Configured ctx env ((argValue around.args "--ref").getD "HEAD") wasmDir front event.found :=
  ⟨_, wasmDirFrom_resolveWasmDir around, (setUp_of_reachable h).found front event back hsplit⟩

section Sample

def openSurroundings : Surroundings where
  args := ["intentumdiff-lsp", "--wasm-dir", "plugins", "--ref"]
  wasmDirVar := some "elsewhere"
  currentExe := none
  fs := { isFile := fun _ => false, isExecutable := fun _ => false }

example : argValue openSurroundings.args "--ref" = none := rfl

theorem process_configured_open : ∃ front event, ∃ uri served,
    openRest.session.trace = front ++ [event] ∧ event.cause = .computation uri served ∧
      ∃ wasmDir, WasmDirFrom openSurroundings wasmDir ∧
        Configured echo (fun _ => echoEnv) "HEAD" wasmDir front event.found := by
  have htrace : ∃ root opened computed, ∃ uri served,
      openRest.session.trace = [root, opened] ++ [computed] ∧
        computed.cause = .computation uri served := ⟨_, _, _, _, _, rfl, rfl⟩
  obtain ⟨root, opened, computed, uri, served, hsplit, hcause⟩ := htrace
  exact ⟨_, computed, uri, served, hsplit, hcause, process_configured openSurroundings twoMessages
    64 echo (fun _ => echoEnv) openRest openActions_run.reachable [root, opened] computed []
    hsplit⟩

end Sample

end IntentumdiffLsp.Configuration
