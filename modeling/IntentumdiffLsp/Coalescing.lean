import IntentumdiffLsp.Sessions

/-!
How the messages fall into batches does not change where a session ends.
-/

namespace IntentumdiffLsp.Coalescing

open Foundations
open Foundations.DerivedView
open Foundations.UnixPath
open Function
open IntentumdiffLsp.Json
open IntentumdiffLsp.UriPath
open IntentumdiffLsp.Server
open IntentumdiffLsp.Sessions

def publishedTo (uri : String) (written : Value) : Option Value :=
  if (written.get "method").bind Value.asStr = some "textDocument/publishDiagnostics" ∧
      (written.pointer ["params", "uri"]).bind Value.asStr = some uri
  then written.pointer ["params", "diagnostics"] else none

def published (uri : String) (event : Event) : List Value :=
  event.written.filterMap (publishedTo uri)

def lastPublished (trace : List Event) (uri : String) : Option Value :=
  (trace.flatMap (published uri)).getLast?

def comparisons (trace : List Event) : List (List Value) :=
  trace.filterMap fun event =>
    match event.cause with
    | .message msg => if methodOf msg = some .semanticDiff then some event.written else none
    | .computation _ _ => none

def NeverFallsBack (ctx : Context) (now : Env) : Prop :=
  ∀ root rel gitRef content config wasmDir, ∃ payload parsed diff,
    now.handleDiff root rel gitRef content config wasmDir = .ok payload ∧
      ctx.fromStr payload = some parsed ∧ parsed.get "diff" = some diff

section Published

variable {ctx : Context} {now : Env}

theorem publishedTo_answer (uri : String) (msg result : Value) :
    (answer msg result).filterMap (publishedTo uri) = [] := by
  rw [answer]
  rcases msg.get "id" with _ | id
  · rfl
  · rfl

theorem publishedTo_publishDiagnostics (uri uri' : String) (diagnostics : Value) :
    publishedTo uri' (publishDiagnostics uri diagnostics) =
      if uri = uri' then some diagnostics else none := by
  have hmethod : ((publishDiagnostics uri diagnostics).get "method").bind Value.asStr =
      some "textDocument/publishDiagnostics" := rfl
  have huri : ((publishDiagnostics uri diagnostics).pointer ["params", "uri"]).bind Value.asStr =
      some uri := rfl
  rw [publishedTo, hmethod, huri]
  simp only [true_and, Option.some.injEq]
  rfl

theorem published_dispatch (s : Session) (msg : Value) (uri : String) :
    (s.dispatch ctx now msg).2.2.filterMap (publishedTo uri) = [] := by
  unfold Session.dispatch
  rcases methodOf msg with _ | method
  · rfl
  · cases method with
    | initializeRequest => exact publishedTo_answer uri msg _
    | codeLens => exact publishedTo_answer uri msg _
    | shutdown => exact publishedTo_answer uri msg _
    | semanticDiff =>
        dsimp only
        split
        · exact publishedTo_answer uri msg _
        · rfl
    | unknown name =>
        dsimp only
        rcases msg.get "id" with _ | id <;> rfl
    | initialized | didOpen | didChange | didClose | exit => rfl

theorem published_pushes (server : ServerState) (uri uri' : String) (content : String)
    (diff : Value) :
    (pushes ctx server uri (some (content, diff))).filterMap (publishedTo uri') =
      if uri = uri' then [ctx.diagnostics diff] else [] := by
  have hrefresh : (if server.supportsCodelensRefresh = true
      then [codeLensRefresh server.nextServerId] else []).filterMap (publishedTo uri') = [] := by
    split <;> rfl
  rw [pushes, List.filterMap_cons, publishedTo_publishDiagnostics, hrefresh]
  split_ifs <;> rfl

/-- Diagnostics of a document are pushed by the computation of its diff alone. -/
theorem published_cases {event : Event} (hreacts : Reacts ctx now event) (uri : String) :
    published uri event = [] ∨
      ∃ content diff, event.cause = .computation uri (some (content, diff)) ∧
        published uri event = [ctx.diagnostics diff] := by
  rw [Reacts] at hreacts
  rcases hcause : event.cause with msg | ⟨u, served⟩
  · rw [hcause] at hreacts
    obtain ⟨s, -, hdispatch⟩ := hreacts
    have hwritten : (s.dispatch ctx now msg).2.2 = event.written := congrArg Prod.snd hdispatch
    rw [published, ← hwritten]
    exact .inl (published_dispatch s msg uri)
  · rw [hcause] at hreacts
    rw [published, hreacts.2]
    rcases served with _ | ⟨content, diff⟩
    · exact .inl rfl
    · rw [published_pushes]
      rcases eq_or_ne u uri with rfl | hne
      · exact .inr ⟨content, diff, rfl, if_pos rfl⟩
      · exact .inl (if_neg hne)

theorem lastPublished_append (trace : List Event) (event : Event) (uri : String) :
    lastPublished (trace ++ [event]) uri =
      (published uri event).getLast?.or (lastPublished trace uri) := by
  rw [lastPublished, List.flatMap_append, List.flatMap_singleton, List.getLast?_append]
  rfl

theorem lastPublished_handle (s : Session) (msg : Value) (calls : List Call) :
    lastPublished (s.trace ++
      [⟨.message msg, s.server, calls, (s.dispatch ctx now msg).2.2⟩]) = lastPublished s.trace := by
  funext uri
  rw [lastPublished_append, published, published_dispatch]
  rfl

theorem lastPublished_silent (trace : List Event) (server : ServerState) (uri : String)
    (calls : List Call) :
    lastPublished (trace ++
      [⟨.computation uri none, server, calls, pushes ctx server uri none⟩]) =
      lastPublished trace := by
  funext uri'
  rw [lastPublished_append]
  rfl

theorem lastPublished_computation (trace : List Event) (server : ServerState) (uri : String)
    (calls : List Call) (content : String) (diff : Value) :
    lastPublished (trace ++ [⟨.computation uri (some (content, diff)), server, calls,
      pushes ctx server uri (some (content, diff))⟩]) =
      update (lastPublished trace) uri (some (ctx.diagnostics diff)) := by
  funext uri'
  rw [lastPublished_append, published, published_pushes, update_apply]
  split_ifs with huri huri' huri'
  · rfl
  · exact absurd huri.symm huri'
  · exact absurd huri'.symm huri
  · rfl

end Published

section Refinement

variable {ctx : Context} {now : Env} {base : ServerState} {s : Session}
  {t : Store String String Value Value} {msg : Value}

/-- The diff of a document is derived from its content, its diagnostics are published. -/
def diffRule (ctx : Context) (now : Env) (base : ServerState) : Rule String String Value Value :=
  { derive := diffOf ctx now base, announce := ctx.diagnostics }

/-- Neither sets the server up nor ends it. -/
def Quiet (msg : Value) : Prop :=
  methodOf msg ≠ some .initializeRequest ∧ methodOf msg ≠ some .exit

/-- The session shows the documents, with the settings of the base. -/
structure Refines (base : ServerState) (s : Session) (t : Store String String Value Value) :
    Prop where
  shows : documents s.server (lastPublished s.trace) = t
  settings : settings s.server = settings base
  running : s.exited = false

theorem dispatch_running (hexit : methodOf msg ≠ some .exit) :
    (s.dispatch ctx now msg).1.exited = s.exited := by
  unfold Session.dispatch
  rcases hmethod : methodOf msg with _ | method
  · rfl
  · cases method with
    | exit => exact absurd hmethod hexit
    | didOpen | didChange =>
        dsimp only [Session.store]
        split <;> rfl
    | didClose =>
        dsimp only [Session.close]
        split <;> rfl
    | semanticDiff =>
        dsimp only
        split <;> rfl
    | initializeRequest | initialized | codeLens | shutdown | unknown => rfl

theorem Refines.handle (ctx : Context) (now : Env) (h : Refines base s t) (hquiet : Quiet msg) :
    Refines base (s.handle ctx (fun _ => now) msg) ((editOf msg).elim id Edit.apply t) ∧
      (s.handle ctx (fun _ => now) msg).dirty = (editOf msg).elim id Edit.mark s.dirty := by
  rw [handle_running h.running]
  obtain ⟨hdocuments, hdirty⟩ := dispatch_documents ctx now s msg
    (lastPublished s.trace)
  refine ⟨⟨?_, (dispatch_settings hquiet.1).trans h.settings,
    (dispatch_running hquiet.2).trans h.running⟩, hdirty⟩
  rw [← h.shows, ← hdocuments]
  exact congrArg (documents _) (lastPublished_handle s msg _)

theorem Refines.messages (ctx : Context) (now : Env) (h : Refines base s t) {batch : List Value}
    (hquiet : ∀ msg ∈ batch, Quiet msg) :
    Refines base (batch.foldl (Session.handle ctx fun _ => now) s)
        (t.edits s.dirty (batch.filterMap editOf)).1 ∧
      (batch.foldl (Session.handle ctx fun _ => now) s).dirty =
        (t.edits s.dirty (batch.filterMap editOf)).2 := by
  induction batch generalizing s t with
  | nil => exact ⟨h, rfl⟩
  | cons msg batch ih =>
      obtain ⟨hhandle, hdirty⟩ := h.handle ctx now
        (hquiet msg List.mem_cons_self)
      have hrest := ih hhandle fun msg' hmem => hquiet msg' (List.mem_cons_of_mem _ hmem)
      rw [hdirty] at hrest
      rw [List.foldl_cons, List.filterMap_cons]
      rcases hedit : editOf msg with _ | edit
      · rw [hedit] at hrest
        exact hrest
      · rw [hedit] at hrest
        exact hrest

theorem Refines.compute (h : Refines base s t) (uri : String) :
    Refines base (s.computeAndPush ctx (fun _ => now) uri)
      (t.refresh (diffRule ctx now base) uri) := by
  refine ⟨?_, (cacheDiff_settings ..).trans h.settings, h.running⟩
  have hserved := servedDiff_eq ctx now s.server uri
  have hcontent : t.content uri = s.server.contentCache uri := by
    rw [← h.shows]
    rfl
  rw [diffOf_congr h.settings] at hserved
  -- Either the step is silent, or it caches and publishes one diff.
  rcases hview : (t.content uri).bind ((diffRule ctx now base).derive uri) with _ | diff
  · have hnone : (servedDiff ctx now s.server uri).2 = none := by
      rw [hcontent] at hview
      rw [hserved]
      rcases hcached : s.server.contentCache uri with _ | content
      · rfl
      · rw [hcached, Option.bind_some] at hview
        rw [Option.bind_some]
        exact congrArg _ hview
    rw [Store.refresh_none hview, ← h.shows]
    dsimp only [Session.computeAndPush]
    rw [hnone]
    exact congrArg (documents _) (lastPublished_silent ..)
  · obtain ⟨content, hcached, hdiff⟩ := Option.bind_eq_some_iff.mp hview
    have hsome : (servedDiff ctx now s.server uri).2 = some (content, diff) := by
      rw [hserved, ← hcontent, hcached, Option.bind_some]
      exact congrArg _ hdiff
    rw [Store.refresh_some hview, ← h.shows]
    dsimp only [Session.computeAndPush]
    rw [hsome, lastPublished_computation]
    rfl

theorem Refines.computations (h : Refines base s t) (dirty : List String) :
    Refines base (dirty.foldl (Session.computeAndPush ctx fun _ => now) s)
      (dirty.foldl (Store.refresh (diffRule ctx now base)) t) := by
  induction dirty generalizing s t with
  | nil => exact h
  | cons uri dirty ih => exact ih (h.compute uri)

theorem Refines.processBatch (h : Refines base s t) {batch : List Value}
    (hquiet : ∀ msg ∈ batch, Quiet msg) :
    Refines base (s.processBatch ctx (fun _ => now) batch)
      (t.batch (diffRule ctx now base) (batch.filterMap editOf)) := by
  have hcleared : Refines base { s with dirty := [] } t := ⟨h.shows, h.settings, h.running⟩
  obtain ⟨hmessages, hdirty⟩ := hcleared.messages ctx now hquiet
  rw [Session.processBatch, if_neg (by simp [hmessages.running]), hdirty]
  exact hmessages.computations _

theorem Refines.run (h : Refines base s t) {batches : List (List Value)}
    (hquiet : ∀ batch ∈ batches, ∀ msg ∈ batch, Quiet msg) :
    Refines base (s.run ctx (fun _ => now) batches)
      (t.batches (diffRule ctx now base) (batches.map (List.filterMap editOf))) := by
  induction batches generalizing s t with
  | nil => exact h
  | cons batch batches ih =>
      exact ih (h.processBatch (hquiet batch List.mem_cons_self))
        fun batch' hmem => hquiet batch' (List.mem_cons_of_mem _ hmem)

end Refinement

section Front

variable {ctx : Context} {now : Env} {s s' : Session}

/-- What the computations at the end of a batch leave alone. -/
def front (s : Session) : Settings × (String → Option String) × List (List Value) × Bool :=
  (settings s.server, s.server.contentCache, comparisons s.trace, s.exited)

theorem initializeServer_congr {server server' : ServerState}
    (h : settings server = settings server') (params : Value) :
    settings (initializeServer ctx now server params) =
      settings (initializeServer ctx now server' params) := by
  rcases server with ⟨root, gitRef, configJson, wasmDir, _, _, _, _⟩
  simp only [settings, Settings.mk.injEq] at h
  obtain ⟨rfl, rfl, rfl, rfl⟩ := h
  unfold initializeServer
  dsimp only
  split <;> rfl

theorem semanticDiffRequest_congr {server server' : ServerState}
    (hsettings : settings server = settings server')
    (hcontent : server.contentCache = server'.contentCache) (params : Value) :
    semanticDiffRequest ctx now server params = semanticDiffRequest ctx now server' params := by
  rcases server with ⟨root, gitRef, configJson, wasmDir, _, _, contentCache, _⟩
  simp only [settings, Settings.mk.injEq] at hsettings hcontent
  obtain ⟨rfl, rfl, rfl, rfl⟩ := hsettings
  subst hcontent
  rfl

theorem front_computeAndPush (s : Session) (uri : String) :
    front (s.computeAndPush ctx (fun _ => now) uri) = front s := by
  have hcomparisons : comparisons (s.computeAndPush ctx (fun _ => now) uri).trace =
      comparisons s.trace := by
    dsimp only [Session.computeAndPush, comparisons]
    rw [List.filterMap_append]
    exact List.append_nil _
  rw [front, hcomparisons]
  dsimp only [Session.computeAndPush]
  rw [cacheDiff_settings, cacheDiff_contentCache]
  rfl

theorem dispatch_settings_congr (h : settings s.server = settings s'.server) (msg : Value) :
    settings (s.dispatch ctx now msg).1.server = settings (s'.dispatch ctx now msg).1.server := by
  by_cases hmethod : methodOf msg = some .initializeRequest
  · have hserver : ∀ s : Session, (s.dispatch ctx now msg).1.server =
        initializeServer ctx now s.server (paramsOf msg) := by
      intro s
      simp only [Session.dispatch, hmethod]
    rw [hserver, hserver]
    exact initializeServer_congr h _
  · rw [dispatch_settings hmethod, dispatch_settings hmethod, h]

theorem dispatch_content (s : Session) (msg : Value) :
    (s.dispatch ctx now msg).1.server.contentCache =
      (editOf msg).elim id Edit.write s.server.contentCache := by
  have hdocuments := (dispatch_documents ctx now s msg fun _ => none).1
  refine (congrArg Store.content hdocuments).trans ?_
  rcases editOf msg with _ | edit
  · rfl
  · exact edit.apply_content _

theorem dispatch_exited (s : Session) (msg : Value) :
    (s.dispatch ctx now msg).1.exited = (s.exited || decide (methodOf msg = some .exit)) := by
  by_cases hexit : methodOf msg = some .exit
  · simp [Session.dispatch, hexit]
  · rw [dispatch_running hexit, decide_eq_false hexit, Bool.or_false]

theorem front_handle (h : front s = front s') (msg : Value) :
    front (s.handle ctx (fun _ => now) msg) = front (s'.handle ctx (fun _ => now) msg) := by
  simp only [front, Prod.mk.injEq] at h
  obtain ⟨hsettings, hcontent, hcomparisons, hexited⟩ := h
  rcases hrunning : s.exited with _ | _
  · have hwritten : methodOf msg = some .semanticDiff →
        (s.dispatch ctx now msg).2.2 = (s'.dispatch ctx now msg).2.2 := by
      intro hmethod
      simp only [Session.dispatch, hmethod]
      split
      · rw [semanticDiffRequest_congr hsettings hcontent]
      · rfl
    rw [handle_running hrunning, handle_running (hexited.symm.trans hrunning)]
    simp only [front, Prod.mk.injEq, dispatch_content, dispatch_exited, hcontent, hexited]
    refine ⟨dispatch_settings_congr hsettings msg, trivial, ?_, trivial⟩
    simp only [comparisons, List.filterMap_append] at hcomparisons ⊢
    rw [hcomparisons]
    by_cases hmethod : methodOf msg = some .semanticDiff
    · simp [hmethod, hwritten hmethod]
    · simp [hmethod]
  · rw [Session.handle, if_pos hrunning, Session.handle, if_pos (hexited.symm.trans hrunning)]
    simp only [front, hsettings, hcontent, hcomparisons, hexited]

theorem front_messages (ctx : Context) (now : Env) (h : front s = front s') (batch : List Value) :
    front (batch.foldl (Session.handle ctx fun _ => now) s) =
      front (batch.foldl (Session.handle ctx fun _ => now) s') := by
  induction batch generalizing s s' with
  | nil => exact h
  | cons msg batch ih => exact ih (front_handle h msg)

theorem front_computations (s : Session) (dirty : List String) :
    front (dirty.foldl (Session.computeAndPush ctx fun _ => now) s) = front s := by
  induction dirty generalizing s with
  | nil => rfl
  | cons uri dirty ih => exact (ih _).trans (front_computeAndPush s uri)

theorem front_processBatch (s : Session) (batch : List Value) :
    front (s.processBatch ctx (fun _ => now) batch) =
      front (batch.foldl (Session.handle ctx fun _ => now) s) := by
  have hcleared := front_messages ctx now
    (show front { s with dirty := [] } = front s from rfl) batch
  rw [Session.processBatch]
  split
  · exact hcleared
  · exact (front_computations _ _).trans hcleared

/-- Up to the computations a run is the handling of its messages, one by one. -/
theorem front_run (s : Session) (batches : List (List Value)) :
    front (s.run ctx (fun _ => now) batches) =
      front (batches.flatten.foldl (Session.handle ctx fun _ => now) s) := by
  induction batches generalizing s with
  | nil => rfl
  | cons batch batches ih =>
      rw [List.flatten_cons, List.foldl_append]
      exact (ih _).trans (front_messages ctx now (front_processBatch s batch) _)

end Front

section Outcome

variable {ctx : Context} {now : Env} {server : ServerState}

theorem diffOf_eq_some_iff {uri content : String} {diff : Value} :
    diffOf ctx now server uri content = some diff ↔
      ∃ root path below, server.root = some root ∧
        uriToPath ctx.host uri (some root) = .ok path ∧ stripBase path root = some below ∧
        engineDiff ctx now server root (relOf below) content = some diff := by
  unfold diffOf
  rcases server.root with _ | root
  · simp
  · rcases hpath : uriToPath ctx.host uri (some root) with _ | path
    · simp [hpath]
    · simp [hpath, Option.bind_eq_some_iff]

theorem NeverFallsBack.engineDiff (h : NeverFallsBack ctx now) (server : ServerState)
    (root : Path) (rel content : String) :
    ∃ diff, engineDiff ctx now server root rel content = some diff := by
  obtain ⟨payload, parsed, diff, hserved, hparsed, hdiff⟩ := h (toStringLossy root) rel
    server.gitRef content server.configJson server.wasmDir
  refine ⟨diff, ?_⟩
  simp only [Server.engineDiff, liveDiff, hserved, hparsed, hdiff, Option.bind_some]

theorem NeverFallsBack.uniform (h : NeverFallsBack ctx now) : (diffRule ctx now server).Uniform := by
  intro uri content content' hnone
  rcases hdiff : diffOf ctx now server uri content' with _ | diff
  · exact hdiff
  · obtain ⟨root, path, below, hroot, hpath, hbelow, -⟩ := diffOf_eq_some_iff.mp hdiff
    obtain ⟨diff', hdiff'⟩ := h.engineDiff server root (relOf below) content
    have hsome := diffOf_eq_some_iff.mpr ⟨root, path, below, hroot, hpath, hbelow, hdiff'⟩
    cases hnone.symm.trans hsome

def noDocuments : Store String String Value Value :=
  ⟨fun _ => none, fun _ => none, fun _ => none⟩

theorem synced_noDocuments : Synced (diffRule ctx now server) noDocuments where
  present := nofun
  view := fun _ _ => rfl
  published := fun _ _ _ => rfl
  silent := fun _ _ => ⟨rfl, rfl⟩

variable {gitRef wasmDir : String} {first : Value} {messages : List Value}
  {batches : List (List Value)}

def started (ctx : Context) (now : Env) (gitRef wasmDir : String) (first : Value) : Session :=
  (Session.new gitRef wasmDir).handle ctx (fun _ => now) first

theorem refines_started (hfirst : methodOf first = some .initializeRequest) :
    Refines (started ctx now gitRef wasmDir first).server (started ctx now gitRef wasmDir first)
        noDocuments ∧
      (started ctx now gitRef wasmDir first).dirty = [] := by
  have hedit : editOf first = none := by simp [editOf, hfirst]
  obtain ⟨hdocuments, hdirty⟩ :=
    dispatch_documents ctx now (Session.new gitRef wasmDir) first (lastPublished [])
  rw [hedit] at hdocuments hdirty
  have hstarted : started ctx now gitRef wasmDir first = _ := handle_running rfl first
  rw [hstarted]
  refine ⟨⟨?_, rfl, ?_⟩, hdirty⟩
  · exact (congrArg (documents _) (lastPublished_handle (Session.new gitRef wasmDir) first _)).trans
      hdocuments
  · exact (dispatch_exited _ _).trans (by simp [hfirst, Session.new])

theorem run_started (ctx : Context) (now : Env) (gitRef wasmDir : String)
    (hfirst : methodOf first = some .initializeRequest)
    (hnonempty : [] ∉ batches) (hflatten : batches.flatten = first :: messages) :
    ∃ rest : List (List Value), rest.flatten = messages ∧
      (Session.new gitRef wasmDir).run ctx (fun _ => now) batches =
        (started ctx now gitRef wasmDir first).run ctx (fun _ => now) rest := by
  rcases batches with _ | ⟨batch, batches⟩
  · cases hflatten
  rcases batch with _ | ⟨msg, batch⟩
  · exact absurd List.mem_cons_self hnonempty
  rw [List.flatten_cons, List.cons_append, List.cons.injEq] at hflatten
  obtain ⟨rfl, hrest⟩ := hflatten
  refine ⟨batch :: batches, hrest, ?_⟩
  have hclear : { started ctx now gitRef wasmDir msg with dirty := [] } =
      started ctx now gitRef wasmDir msg := by
    rw [← (refines_started hfirst).2]
  have hbatch : (Session.new gitRef wasmDir).processBatch ctx (fun _ => now) (msg :: batch) =
      (started ctx now gitRef wasmDir msg).processBatch ctx (fun _ => now) batch := by
    rw [Session.processBatch, Session.processBatch, hclear]
    rfl
  rw [Session.run, Session.run, List.foldl_cons, List.foldl_cons, hbatch]

theorem refines_run (ctx : Context) (now : Env) (gitRef wasmDir : String)
    (hfirst : methodOf first = some .initializeRequest)
    (hquiet : ∀ msg ∈ messages, Quiet msg) (hnonempty : [] ∉ batches)
    (hflatten : batches.flatten = first :: messages) :
    ∃ edits : List (List (Edit String String)), edits.flatten = messages.filterMap editOf ∧
      Refines (started ctx now gitRef wasmDir first).server
        ((Session.new gitRef wasmDir).run ctx (fun _ => now) batches)
        (noDocuments.batches (diffRule ctx now (started ctx now gitRef wasmDir first).server)
          edits) := by
  obtain ⟨rest, hrest, hrun⟩ := run_started ctx now gitRef wasmDir hfirst hnonempty hflatten
  refine ⟨rest.map (List.filterMap editOf), ?_, ?_⟩
  · rw [← hrest, List.filterMap_flatten]
  · rw [hrun]
    refine (refines_started hfirst).1.run ?_
    intro batch hbatch msg hmsg
    rw [← hrest] at hquiet
    exact hquiet msg (List.mem_flatten.mpr ⟨batch, hbatch, hmsg⟩)

end Outcome

/-- The diffs are those of the documents: an open one that resolves below the root has
the diff the engine returns for its content, and no other has one. -/
def UpToDate (ctx : Context) (now : Env) (server : ServerState) : Prop :=
  (∀ root uri content path, server.root = some root → server.contentCache uri = some content →
    uriToPath ctx.host uri (some root) = .ok path →
    ∃ below diff, stripBase path root = some below ∧
      engineDiff ctx now server root (relOf below) content = some diff ∧
      server.diffCache uri = some diff) ∧
  ∀ uri, server.diffCache uri ≠ none → ∃ root content path, server.root = some root ∧
    server.contentCache uri = some content ∧ uriToPath ctx.host uri (some root) = .ok path

theorem upToDate_of_synced {ctx : Context} {now : Env} {server : ServerState}
    {published : String → Option Value} {events : List Event} (hengine : NeverFallsBack ctx now)
    (hfollows : Follows ctx events server)
    (hsynced : Synced (diffRule ctx now server) (documents server published)) :
    UpToDate ctx now server := by
  have hview : ∀ uri, server.diffCache uri =
      (server.contentCache uri).bind (diffOf ctx now server uri) :=
    fun uri => hsynced.view uri List.not_mem_nil
  constructor
  · intro root uri content path hroot hcontent hpath
    obtain ⟨rootUri, hrootUri⟩ := hfollows.root root hroot
    have hstarts := uriToPath_startsWith (normalize_uriToPath hrootUri) hpath
    have hbelow : stripBase path root =
        some (collect ((components path).drop (components root).length)) := if_pos hstarts
    obtain ⟨diff, hdiff⟩ := hengine.engineDiff server root _ content
    refine ⟨_, diff, hbelow, hdiff, ?_⟩
    rw [hview, hcontent, Option.bind_some, diffOf_eq_some_iff]
    exact ⟨root, path, _, hroot, hpath, hbelow, hdiff⟩
  · intro uri hcached
    obtain ⟨diff, hdiff⟩ := Option.ne_none_iff_exists'.mp hcached
    rw [hview] at hdiff
    obtain ⟨content, hcontent, hderived⟩ := Option.bind_eq_some_iff.mp hdiff
    obtain ⟨root, path, below, hroot, hpath, -, -⟩ := diffOf_eq_some_iff.mp hderived
    exact ⟨root, content, path, hroot, hcontent, hpath⟩

/-- After the initialize request the outcome does not depend on how the messages fall
into batches, as long as the engine does not fall back. -/
theorem coalescing_invisible (ctx : Context) (now : Env) (gitRef wasmDir : String)
    (first : Value) (messages : List Value) (batches batches' : List (List Value))
    (hfirst : methodOf first = some .initializeRequest)
    (hquiet : ∀ msg ∈ messages, Quiet msg) (hengine : NeverFallsBack ctx now)
    (hnonempty : [] ∉ batches) (hnonempty' : [] ∉ batches')
    (hflatten : batches.flatten = first :: messages)
    (hflatten' : batches'.flatten = first :: messages) :
    let s := (Session.new gitRef wasmDir).run ctx (fun _ => now) batches
    let s' := (Session.new gitRef wasmDir).run ctx (fun _ => now) batches'
    s.server.contentCache = s'.server.contentCache ∧
      s.server.diffCache = s'.server.diffCache ∧
      (∀ uri, s.server.contentCache uri ≠ none →
        lastPublished s.trace uri = lastPublished s'.trace uri) ∧
      comparisons s.trace = comparisons s'.trace ∧
      UpToDate ctx now s.server := by
  intro s s'
  obtain ⟨edits, hedits, hrefines⟩ := refines_run ctx now gitRef wasmDir hfirst hquiet
    hnonempty hflatten
  obtain ⟨edits', hedits', hrefines'⟩ := refines_run ctx now gitRef wasmDir hfirst hquiet
    hnonempty' hflatten'
  -- Both runs refine the library's batches with the settings of the first message.
  let base := (started ctx now gitRef wasmDir first).server
  have hstart : Synced (diffRule ctx now base) noDocuments := synced_noDocuments
  have hsynced := hstart.batches hengine.uniform edits
  obtain ⟨hcontent, hview, hpublished⟩ :=
    hstart.regroup hengine.uniform (hedits.trans hedits'.symm)
  rw [← hrefines.shows, ← hrefines'.shows] at hcontent hview hpublished
  have hfront : front s = front s' := by
    rw [front_run, front_run, hflatten, hflatten']
  simp only [front, Prod.mk.injEq] at hfront
  refine ⟨hcontent, hview, hpublished, hfront.2.2.1, ?_⟩
  have hrule : diffRule ctx now base = diffRule ctx now s.server := by
    rw [diffRule, diffRule, diffOf_congr hrefines.settings]
  rw [← hrefines.shows, hrule] at hsynced
  have hrecorded := recorded_run ctx (fun _ => now) gitRef wasmDir batches
  exact upToDate_of_synced hengine hrecorded.follows hsynced

theorem echo_neverFallsBack : NeverFallsBack echo echoEnv :=
  fun _ _ _ content _ _ => ⟨content, _, .string content, rfl, rfl, rfl⟩

def burst : List Value :=
  [opening "file:///ws/a" "old", changing "file:///ws/a" "new",
    comparing "file:///ws/a" "file:///ws/a", pulling "file:///ws/a"]

theorem burst_invisible :
    let s := (Session.new "HEAD" "").run echo (fun _ => echoEnv) [rootedAt "file:///ws" :: burst]
    let s' := (Session.new "HEAD" "").run echo (fun _ => echoEnv)
      ([rootedAt "file:///ws"] :: burst.map fun msg => [msg])
    s.server.diffCache = s'.server.diffCache ∧ comparisons s.trace = comparisons s'.trace ∧
      UpToDate echo echoEnv s.server := by
  intro s s'
  have hquiet : ∀ msg ∈ burst, Quiet msg := by
    unfold Quiet burst
    decide +kernel
  obtain ⟨-, hdiff, -, hcomparisons, hcurrent⟩ := coalescing_invisible echo echoEnv "HEAD" ""
    (rootedAt "file:///ws") burst [rootedAt "file:///ws" :: burst]
    ([rootedAt "file:///ws"] :: burst.map fun msg => [msg]) (by decide +kernel) hquiet
    echo_neverFallsBack (by simp) (by simp) (by simp) rfl
  exact ⟨hdiff, hcomparisons, hcurrent⟩

end IntentumdiffLsp.Coalescing
