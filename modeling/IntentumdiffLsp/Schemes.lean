import IntentumdiffLsp.Coalescing

/-!
Which URIs are not taken for local files.
-/

namespace IntentumdiffLsp.Schemes

open Foundations
open Foundations.UnixPath
open IntentumdiffLsp.Json
open IntentumdiffLsp.UriPath
open IntentumdiffLsp.Server
open IntentumdiffLsp.Sessions
open IntentumdiffLsp.Coalescing

def isSchemeChar (c : Char) : Bool :=
  c.isAlphanum || c == '+' || c == '-' || c == '.'

/-- A letter, then letters, digits, plus, minus and dot. -/
def IsScheme (scheme : List Char) : Prop :=
  (∃ c ∈ scheme.head?, c.isAlpha = true) ∧ ∀ c ∈ scheme, isSchemeChar c = true

/-- Not a local file: a scheme of two characters or more that is not the one of
files in any case, with or without slashes behind its colon, or files of a host. -/
inductive Foreign : List Char → Prop where
  | scheme (scheme rest : List Char) : IsScheme scheme → 2 ≤ scheme.length →
      scheme.map Char.toLower ≠ "file".toList → Foreign (scheme ++ ':' :: rest)
  | authority (first : Char) (rest : List Char) : first ∉ ['/', '?', '#'] →
      Foreign (fileScheme ++ first :: rest)

/-- The comparison that a message asks for is about the URI. -/
def ComparesUri (uri : String) (msg : Value) : Prop :=
  methodOf msg = some .semanticDiff ∧
    (uriParam (paramsOf msg) "oldUri" = uri ∨ uriParam (paramsOf msg) "newUri" = uri)

/-- The URI has no path, whatever the root and the directory; no session publishes
anything for it, or answers a comparison with it by anything but an error. -/
structure Refuses (uri : String) : Prop where
  fails : ∀ host workspaceRoot, ∃ e, uriToPath host uri workspaceRoot = .error e
  silent : ∀ ctx env gitRef wasmDir batches,
    ∀ event ∈ ((Session.new gitRef wasmDir).run ctx env batches).trace, published uri event = []
  answered : ∀ ctx env gitRef wasmDir batches,
    ∀ event ∈ ((Session.new gitRef wasmDir).run ctx env batches).trace,
      ∀ msg id, event.cause = .message msg → ComparesUri uri msg → msg.get "id" = some id →
        ∃ message, event.written = [respond id (errorObject message)]

section Refused

variable {ctx : Context} {now : Env} {uri : String}

theorem fails_iff : (∀ host workspaceRoot, ∃ e, uriToPath host uri workspaceRoot = .error e) ↔
    Refused uri := by
  constructor
  · intro hfails
    by_contra hrefused
    obtain ⟨e, herror⟩ := hfails plainHost none
    have hok : uriToPath plainHost uri none =
        .ok (normalize plainHost (driveFix (Utf8.encode (pathText uri)))) :=
      uriToPath_eq_ok.mpr ⟨hrefused, rfl, nofun⟩
    cases herror.symm.trans hok
  · intro hrefused host workspaceRoot
    rcases hpath : uriToPath host uri workspaceRoot with e | path
    · exact ⟨e, rfl⟩
    · exact absurd hrefused (uriToPath_eq_ok.mp hpath).1

variable (hfails : ∀ host workspaceRoot, ∃ e, uriToPath host uri workspaceRoot = .error e)
include hfails

theorem servedDiff_fails (server : ServerState) :
    servedDiff ctx now server uri = ([], none) := by
  unfold servedDiff
  split
  · rename_i root content _ _
    obtain ⟨e, herror⟩ := hfails ctx.host (some root)
    rw [herror]
  · rfl

theorem published_fails {event : Event} (hreacts : Reacts ctx now event) :
    published uri event = [] := by
  rcases published_cases hreacts uri with hnone | ⟨content, diff, hcause, -⟩
  · exact hnone
  · exfalso
    rw [Reacts, hcause] at hreacts
    obtain ⟨hserved, -⟩ := hreacts
    rw [servedDiff_fails hfails] at hserved
    cases congrArg Prod.snd hserved

theorem semanticDiffRequest_fails (server : ServerState) {params : Value}
    (hparams : uriParam params "oldUri" = uri ∨ uriParam params "newUri" = uri) :
    ∃ message, (semanticDiffRequest ctx now server params).2 = errorObject message := by
  unfold semanticDiffRequest
  dsimp only
  split
  · exact ⟨_, rfl⟩
  split
  · exact ⟨_, rfl⟩
  rename_i root _
  obtain ⟨e, herror⟩ := hfails ctx.host (some root)
  split
  · rename_i hsame
    have hnew : uriParam params "newUri" = uri := by
      rw [hsame] at hparams
      exact hparams.elim id id
    refine ⟨e, ?_⟩
    rw [sameFile, hnew, herror]
    rfl
  · unfold twoFiles
    rcases hparams with hold | hnew
    · refine ⟨e, ?_⟩
      rw [hold, herror]
      rfl
    · rw [hnew, herror]
      split <;> exact ⟨_, rfl⟩

theorem answered_fails {event : Event} (hreacts : Reacts ctx now event) {msg id : Value}
    (hcause : event.cause = .message msg) (hcompares : ComparesUri uri msg)
    (hid : msg.get "id" = some id) :
    ∃ message, event.written = [respond id (errorObject message)] := by
  rw [Reacts, hcause] at hreacts
  obtain ⟨s, -, hdispatch⟩ := hreacts
  have hserved : ∃ message,
      (semanticDiffRequest ctx now s.server (paramsOf msg)).2 = errorObject message :=
    semanticDiffRequest_fails hfails s.server hcompares.2
  obtain ⟨message, herror⟩ := hserved
  refine ⟨message, ?_⟩
  have hwritten : (s.dispatch ctx now msg).2.2 = event.written := congrArg Prod.snd hdispatch
  rw [← hwritten]
  simp only [Session.dispatch, hcompares.1, hid, Option.isSome_some, if_true, answer, herror]
  rfl

end Refused

theorem refuses_of_refused {uri : String} (h : Refused uri) : Refuses uri := by
  have hfails := fails_iff.mpr h
  constructor
  · exact hfails
  · intro ctx env gitRef wasmDir batches event hevent
    obtain ⟨front, -, hreacts⟩ :=
      (recorded_run ctx env gitRef wasmDir batches).explained.of_mem hevent
    exact published_fails hfails hreacts
  · intro ctx env gitRef wasmDir batches event hevent msg id hcause hcompares hid
    obtain ⟨front, -, hreacts⟩ :=
      (recorded_run ctx env gitRef wasmDir batches).explained.of_mem hevent
    exact answered_fails hfails hreacts hcause hcompares hid

/-- A URI has no path anywhere exactly when one of the two guards on its text says
so, whatever its scheme or authority. -/
theorem refuses_iff (uri : String) : Refuses uri ↔ Refused uri := by
  constructor
  · exact fun h => fails_iff.mp h.fails
  · exact refuses_of_refused

def workspaceHost : Host :=
  { plainHost with
    currentDir := Utf8.encode "/ws".toList
    currentDir_absolute := .inr (by decide) }

def untitled : List (List Value) :=
  [[rootedAt "file:///ws", opening "untitled:Untitled-1" "draft"]]

def untitledTrace : List Event :=
  ((Session.new "HEAD" "").run { echo with host := workspaceHost } (fun _ => echoEnv) untitled).trace

def untitledComputation : Event :=
  untitledTrace.get ⟨2, by decide +kernel⟩

theorem untitled_taken : ¬∀ uri : String, Foreign uri.toList → Refuses uri := by
  intro hclaim
  have hscheme : IsScheme "untitled".toList :=
    ⟨⟨'u', rfl, by decide⟩, List.all_eq_true.mp (by decide)⟩
  have hforeign : Foreign "untitled:Untitled-1".toList :=
    .scheme "untitled".toList "Untitled-1".toList hscheme (by decide) (by decide)
  have hsilent := (hclaim _ hforeign).silent { echo with host := workspaceHost }
    (fun _ => echoEnv) "HEAD" "" untitled untitledComputation (List.get_mem ..)
  have hpublished :
      (published "untitled:Untitled-1" untitledComputation).isEmpty = false := by decide +kernel
  rw [hsilent] at hpublished
  cases hpublished

end IntentumdiffLsp.Schemes
