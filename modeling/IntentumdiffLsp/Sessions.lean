import IntentumdiffLsp.Foundations.DerivedView
import IntentumdiffLsp.Foundations.Journal
import IntentumdiffLsp.Server

/-!
What every step of a session leaves in its trace.
-/

namespace IntentumdiffLsp.Sessions

open Foundations
open Foundations.DerivedView
open Foundations.Journal
open Foundations.UnixPath
open Function
open IntentumdiffLsp.Json
open IntentumdiffLsp.UriPath
open IntentumdiffLsp.Server

def editOf (msg : Value) : Option (Edit String String) :=
  let params := paramsOf msg
  match methodOf msg with
  | some .didOpen => (documentUri params).bind fun uri => (openedText params).map (.put uri)
  | some .didChange => (documentUri params).bind fun uri => (changedText params).map (.put uri)
  | some .didClose => (documentUri params).map .remove
  | _ => none

def documents (s : ServerState) (published : String → Option Value) :
    Store String String Value Value :=
  ⟨s.contentCache, s.diffCache, published⟩

/-- What only an initialize request changes. -/
structure Settings where
  root : Option Path
  gitRef : String
  configJson : String
  wasmDir : String

def settings (s : ServerState) : Settings :=
  ⟨s.root, s.gitRef, s.configJson, s.wasmDir⟩

/-- The diff that the engine returns for a content of a document. -/
def diffOf (ctx : Context) (env : Env) (s : ServerState) (uri content : String) : Option Value :=
  match s.root with
  | none => none
  | some root =>
      match uriToPath ctx.host uri (some root) with
      | .error _ => none
      | .ok path =>
          (stripBase path root).bind fun below => engineDiff ctx env s root (relOf below) content

section Steps

variable {ctx : Context} {now : Env} {s : Session} {msg : Value}

theorem store_documents (uri text : Option String) (published : String → Option Value) :
    documents (s.store uri text).server published =
        ((uri.bind fun uri => text.map (Edit.put uri)).elim id Edit.apply)
          (documents s.server published) ∧
      (s.store uri text).dirty =
        ((uri.bind fun uri => text.map (Edit.put uri)).elim id Edit.mark) s.dirty := by
  rcases uri with _ | uri
  · exact ⟨rfl, rfl⟩
  · rcases text with _ | text
    · exact ⟨rfl, rfl⟩
    · exact ⟨rfl, rfl⟩

theorem close_documents (uri : Option String) (published : String → Option Value) :
    documents (s.close uri).server published =
        ((uri.map (Edit.remove : String → Edit String String)).elim id Edit.apply)
          (documents s.server published) ∧
      (s.close uri).dirty =
        ((uri.map (Edit.remove : String → Edit String String)).elim id Edit.mark) s.dirty := by
  rcases uri with _ | uri
  · exact ⟨rfl, rfl⟩
  · exact ⟨rfl, rfl⟩

theorem initializeServer_documents (params : Value) (published : String → Option Value) :
    documents (initializeServer ctx now s.server params) published =
      documents s.server published := by
  unfold initializeServer
  dsimp only
  split <;> rfl

/-- Each message edits the documents as it says, and marks what it edits. -/
theorem dispatch_documents (ctx : Context) (now : Env) (s : Session) (msg : Value)
    (published : String → Option Value) :
    documents (s.dispatch ctx now msg).1.server published =
        ((editOf msg).elim id Edit.apply) (documents s.server published) ∧
      (s.dispatch ctx now msg).1.dirty = ((editOf msg).elim id Edit.mark) s.dirty := by
  unfold Session.dispatch editOf
  rcases methodOf msg with _ | method
  · exact ⟨rfl, rfl⟩
  · cases method with
    | initializeRequest => exact ⟨initializeServer_documents _ _, rfl⟩
    | didOpen => exact store_documents _ _ published
    | didChange => exact store_documents _ _ published
    | didClose => exact close_documents _ published
    | semanticDiff =>
        dsimp only
        split <;> exact ⟨rfl, rfl⟩
    | initialized | codeLens | shutdown | exit | unknown => exact ⟨rfl, rfl⟩

theorem dispatch_settings (h : methodOf msg ≠ some .initializeRequest) :
    settings (s.dispatch ctx now msg).1.server = settings s.server := by
  have hstore : ∀ uri text, settings (s.store uri text).server = settings s.server := by
    intro uri text
    unfold Session.store
    split <;> rfl
  unfold Session.dispatch
  rcases hmethod : methodOf msg with _ | method
  · rfl
  · cases method with
    | initializeRequest => exact absurd hmethod h
    | didOpen => exact hstore _ _
    | didChange => exact hstore _ _
    | didClose =>
        dsimp only [Session.close]
        split <;> rfl
    | semanticDiff =>
        dsimp only
        split <;> rfl
    | initialized | codeLens | shutdown | exit | unknown => rfl

theorem dispatch_root (ctx : Context) (now : Env) (s : Session) (msg : Value) :
    (s.dispatch ctx now msg).1.server.root = s.server.root ∨
      ∃ uri root, uriToPath ctx.host uri none = .ok root ∧
        (s.dispatch ctx now msg).1.server.root = some root := by
  by_cases h : methodOf msg = some .initializeRequest
  · have hroot : (s.dispatch ctx now msg).1.server =
        initializeServer ctx now s.server (paramsOf msg) := by
      simp only [Session.dispatch, h]
    rw [hroot]
    unfold initializeServer
    dsimp only
    split
    · rename_i root huri
      obtain ⟨uri, -, hpath⟩ := Option.map_eq_some_iff.mp huri
      exact .inr ⟨uri, root, hpath, rfl⟩
    · exact .inl rfl
  · exact .inl (congrArg Settings.root (dispatch_settings h))

theorem servedDiff_eq (ctx : Context) (now : Env) (server : ServerState) (uri : String) :
    (servedDiff ctx now server uri).2 =
      (server.contentCache uri).bind fun content =>
        (diffOf ctx now server uri content).map fun diff => (content, diff) := by
  unfold servedDiff diffOf
  rcases server.root with _ | root
  · rcases server.contentCache uri with _ | content <;> rfl
  rcases server.contentCache uri with _ | content
  · rfl
  rcases hpath : uriToPath ctx.host uri (some root) with _ | path
  · simp only [hpath, Option.bind_some, Option.map_none]
  · rcases hbelow : stripBase path root with _ | below
    · simp only [hpath, hbelow, Option.bind_some, Option.bind_none, Option.map_none]
    · simp only [hpath, hbelow, Option.bind_some]

theorem cacheDiff_settings (server : ServerState) (uri : String)
    (served : Option (String × Value)) :
    settings (cacheDiff server uri served) = settings server := by
  unfold cacheDiff
  split <;> rfl

theorem cacheDiff_contentCache (server : ServerState) (uri : String)
    (served : Option (String × Value)) :
    (cacheDiff server uri served).contentCache = server.contentCache := by
  unfold cacheDiff
  split <;> rfl

theorem diffOf_congr {server server' : ServerState} (h : settings server = settings server') :
    diffOf ctx now server = diffOf ctx now server' := by
  rcases server with ⟨root, gitRef, configJson, wasmDir, _, _, _, _⟩
  simp only [settings, Settings.mk.injEq] at h
  obtain ⟨rfl, rfl, rfl, rfl⟩ := h
  rfl

end Steps

section Runs

variable {ctx : Context} {env : Nat → Env}

theorem handle_running {s : Session} (h : s.exited = false) (msg : Value) :
    s.handle ctx env msg =
      { (s.dispatch ctx (env s.trace.length) msg).1 with
        trace := s.trace ++ [⟨.message msg, s.server,
          (s.dispatch ctx (env s.trace.length) msg).2.1,
          (s.dispatch ctx (env s.trace.length) msg).2.2⟩] } := by
  rw [Session.handle, if_neg (by simp [h])]

theorem messages_invariant {P : Session → Prop}
    (hhandle : ∀ s msg, s.exited = false → P s → P (s.handle ctx env msg)) {s : Session} (hs : P s)
    (batch : List Value) : P (batch.foldl (Session.handle ctx env) s) := by
  induction batch generalizing s with
  | nil => exact hs
  | cons msg batch ih =>
      apply ih
      rcases hexited : s.exited with _ | _
      · exact hhandle s msg hexited hs
      · rw [Session.handle, if_pos hexited]
        exact hs

theorem computations_invariant {P : Session → Prop}
    (hcompute : ∀ s uri, P s → P (s.computeAndPush ctx env uri)) {s : Session} (hs : P s)
    (dirty : List String) : P (dirty.foldl (Session.computeAndPush ctx env) s) := by
  induction dirty generalizing s with
  | nil => exact hs
  | cons uri dirty ih => exact ih (hcompute s uri hs)

/-- What clearing the dirty list, handling a message and computing a diff preserve
holds after every run. -/
theorem run_invariant {P : Session → Prop} (hclear : ∀ s, P s → P { s with dirty := [] })
    (hhandle : ∀ s msg, s.exited = false → P s → P (s.handle ctx env msg))
    (hcompute : ∀ s uri, P s → P (s.computeAndPush ctx env uri)) {s : Session} (hs : P s)
    (batches : List (List Value)) : P (s.run ctx env batches) := by
  induction batches generalizing s with
  | nil => exact hs
  | cons batch batches ih =>
      apply ih
      have hbatch := messages_invariant hhandle (hclear s hs) batch
      unfold Session.processBatch
      dsimp only
      split
      · exact hbatch
      · exact computations_invariant hcompute hbatch _

def contentWrite (event : Event) (uri : String) : Option (Option String) :=
  match event.cause with
  | .message msg => (editOf msg).bind fun edit => edit.contentEntry uri
  | .computation _ _ => none

def diffWrite (event : Event) (uri : String) : Option (Option Value) :=
  match event.cause with
  | .message msg => (editOf msg).bind fun edit => edit.viewEntry uri
  | .computation u (some (_, diff)) => if uri = u then some (some diff) else none
  | .computation _ none => none

/-- The server after the events: its caches are what they wrote, its root has come
from a URI. -/
structure Follows (ctx : Context) (events : List Event) (server : ServerState) : Prop where
  content : server.contentCache = replay contentWrite events
  diff : server.diffCache = replay diffWrite events
  root : ∀ root, server.root = some root → ∃ uri, uriToPath ctx.host uri none = .ok root

/-- The event has the calls and the output of its cause. -/
def Reacts (ctx : Context) (now : Env) (event : Event) : Prop :=
  match event.cause with
  | .message msg => ∃ s : Session, s.server = event.found ∧
      (s.dispatch ctx now msg).2 = (event.calls, event.written)
  | .computation uri served =>
      servedDiff ctx now event.found uri = (event.calls, served) ∧
        event.written = pushes ctx event.found uri served

/-- The server follows the trace, and so does the state each event found. -/
structure Recorded (ctx : Context) (env : Nat → Env) (s : Session) : Prop where
  follows : Follows ctx s.trace s.server
  explained : Explained (fun front event =>
    Follows ctx front event.found ∧ Reacts ctx (env front.length) event) s.trace

theorem Follows.handle {s : Session} (h : Follows ctx s.trace s.server) (msg : Value)
    (calls : List Call) (written : List Value) :
    Follows ctx (s.trace ++ [⟨.message msg, s.server, calls, written⟩])
      (s.dispatch ctx (env s.trace.length) msg).1.server := by
  have hdocuments := (dispatch_documents ctx (env s.trace.length) s msg
    fun _ => none).1
  have hcontent := congrArg Store.content hdocuments
  have hdiff := congrArg Store.view hdocuments
  constructor
  · funext uri
    rw [replay_append_singleton, ← h.content]
    refine (congrFun hcontent uri).trans ?_
    change _ = ((editOf msg).bind fun edit => edit.contentEntry uri).getD _
    rcases editOf msg with _ | edit
    · rfl
    · exact edit.content_eq _ uri
  · funext uri
    rw [replay_append_singleton, ← h.diff]
    refine (congrFun hdiff uri).trans ?_
    change _ = ((editOf msg).bind fun edit => edit.viewEntry uri).getD _
    rcases editOf msg with _ | edit
    · rfl
    · exact edit.view_eq _ uri
  · intro root hroot
    rcases dispatch_root ctx (env s.trace.length) s msg with
      hsame | ⟨uri, root', hpath, hnew⟩
    · exact h.root root (hsame.symm.trans hroot)
    · cases hnew.symm.trans hroot
      exact ⟨uri, hpath⟩

theorem Follows.compute {s : Session} (h : Follows ctx s.trace s.server) (uri : String)
    (served : Option (String × Value)) (calls : List Call) (written : List Value) :
    Follows ctx (s.trace ++ [⟨.computation uri served, s.server, calls, written⟩])
      (cacheDiff s.server uri served) := by
  constructor
  · funext key
    rw [replay_append_singleton, ← h.content, cacheDiff_contentCache]
    rfl
  · funext key
    rw [replay_append_singleton, ← h.diff]
    rcases served with _ | ⟨content, diff⟩
    · rfl
    · refine (update_apply ..).trans ?_
      change _ = (if key = uri then some (some diff) else none : Option (Option Value)).getD _
      split <;> rfl
  · have hroot := congrArg Settings.root (cacheDiff_settings s.server uri served)
    exact fun root h' => h.root root (hroot.symm.trans h')

theorem Recorded.handle {s : Session} (hrunning : s.exited = false) (h : Recorded ctx env s)
    (msg : Value) : Recorded ctx env (s.handle ctx env msg) := by
  rw [handle_running hrunning]
  exact ⟨h.follows.handle msg _ _, h.explained.append_singleton ⟨h.follows, s, rfl, rfl⟩⟩

theorem Recorded.compute {s : Session} (h : Recorded ctx env s) (uri : String) :
    Recorded ctx env (s.computeAndPush ctx env uri) :=
  ⟨h.follows.compute uri _ _ _, h.explained.append_singleton ⟨h.follows, rfl, rfl⟩⟩

theorem recorded_run (ctx : Context) (env : Nat → Env) (gitRef wasmDir : String)
    (batches : List (List Value)) :
    Recorded ctx env ((Session.new gitRef wasmDir).run ctx env batches) := by
  refine run_invariant (P := Recorded ctx env) ?_ ?_ ?_ ?_ batches
  · exact fun s hs => ⟨hs.follows, hs.explained⟩
  · exact fun s msg hrunning hs => hs.handle hrunning msg
  · exact fun s uri hs => hs.compute uri
  · exact ⟨⟨rfl, rfl, nofun⟩, explained_nil⟩

end Runs

end IntentumdiffLsp.Sessions
