import IntentumdiffLsp.Agreement
import IntentumdiffLsp.Lenses

/-!
Nothing of a document outlives its close.
-/

namespace IntentumdiffLsp.Isolation

open Foundations.DerivedView
open Foundations.Journal
open Foundations.UnixPath
open Function
open IntentumdiffLsp.Json
open IntentumdiffLsp.UriPath
open IntentumdiffLsp.Server
open IntentumdiffLsp.Sessions
open IntentumdiffLsp.Lenses
open IntentumdiffLsp.Coalescing
open IntentumdiffLsp.Agreement

/-- The event is a message that brings a text of the document. -/
def Brings (uri text : String) (event : Event) : Prop :=
  ∃ msg, event.cause = .message msg ∧ documentUri (paramsOf msg) = some uri ∧
    ((methodOf msg = some .didOpen ∧ openedText (paramsOf msg) = some text) ∨
      (methodOf msg = some .didChange ∧ changedText (paramsOf msg) = some text))

/-- The text of the document that was received last, and not before its last close. -/
def LastText (trace : List Event) (uri text : String) : Prop :=
  ∃ front received back, trace = front ++ received :: back ∧ Brings uri text received ∧
    ∀ later ∈ back, ¬Closes uri later ∧ ∀ text', ¬Brings uri text' later

/-- The engine returned the diff for the last text of the document, and the document was
not closed since. -/
def Derived (ctx : Context) (env : Nat → Env) (trace : List Event) (uri : String)
    (diff : Value) : Prop :=
  ∃ earlier computed back text, trace = earlier ++ computed :: back ∧
    LastText earlier uri text ∧ computed.cause = .computation uri (some (text, diff)) ∧
    diffOf ctx (env earlier.length) computed.found uri text = some diff ∧
    ∀ later ∈ back, ¬Closes uri later

/-- A request to compare a document of the workspace with itself. -/
structure ComparesItself (ctx : Context) (event : Event) (id : Value) (uri : String)
    (root path : Path) : Prop where
  cause : ∃ msg, event.cause = .message msg ∧ methodOf msg = some .semanticDiff ∧
    msg.get "id" = some id ∧ uriParam (paramsOf msg) "oldUri" = uri ∧
    uriParam (paramsOf msg) "newUri" = uri
  named : uri ≠ ""
  rooted : event.found.root = some root
  located : uriToPath ctx.host uri (some root) = .ok path

/-- What comparing a text of the file with the ref gives. -/
def outcome (ctx : Context) (now : Env) (server : ServerState) (root path : Path)
    (text : String) : Value :=
  semanticDiffResult
    (match stripBase path root with
    | none => .error "file is outside the workspace root"
    | some below => (liveDiff now server root (relOf below) text).map (parsedPayload ctx))

/-- The text of the buffer is compared if there is one, and the file on disk otherwise. -/
structure ComparedBy (ctx : Context) (now : Env) (front : List Event) (event : Event) (id : Value)
    (uri : String) (root path : Path) : Prop where
  buffer : ∀ text, LastText front uri text → (∀ file, .read file ∉ event.calls) ∧
    event.written = [respond id (outcome ctx now event.found root path text)]
  disk : (∀ text, ¬LastText front uri text) → .read path ∈ event.calls ∧
    event.written = [respond id (match now.readToString path with
      | .error e => errorObject e
      | .ok text => outcome ctx now event.found root path text)]

/-- At a point of a session: the three collections fit together, and all that was
answered or pushed goes back to texts that were received since the last close. -/
structure Isolated (ctx : Context) (env : Nat → Env) (s : Session) : Prop where
  covered : ∀ uri, s.server.diffCache uri ≠ none → s.server.contentCache uri ≠ none
  listed : s.dirty.Nodup
  held : ∀ uri ∈ s.dirty, s.server.contentCache uri ≠ none
  cached : ∀ uri diff, s.server.diffCache uri = some diff → Derived ctx env s.trace uri diff
  lenses : ∀ front event back, s.trace = front ++ event :: back →
    ∀ id uri, pullOf event = some (id, uri) → event.written = [respond id (.array [])] ∨
      ∃ diff, Derived ctx env front uri diff ∧
        event.written = [respond id (.array (ctx.codeLens diff))]
  pushed : ∀ front event back, s.trace = front ++ event :: back →
    ∀ uri, ∀ diagnostics ∈ published uri event, ∃ diff, diagnostics = ctx.diagnostics diff ∧
      Derived ctx env (front ++ [event]) uri diff
  compared : ∀ front event back, s.trace = front ++ event :: back →
    ∀ id uri root path, ComparesItself ctx event id uri root path →
      ComparedBy ctx (env front.length) front event id uri root path

section Texts

variable {event : Event} {uri : String}

theorem brings_iff_edit {msg : Value} {text : String} : editOf msg = some (.put uri text) ↔
    documentUri (paramsOf msg) = some uri ∧
      ((methodOf msg = some .didOpen ∧ openedText (paramsOf msg) = some text) ∨
        (methodOf msg = some .didChange ∧ changedText (paramsOf msg) = some text)) := by
  have hput : ∀ u t : Option String,
      (u.bind fun u => t.map (Edit.put u)) = some (Edit.put uri text) ↔
        u = some uri ∧ t = some text := by
    intro u t
    rcases u with _ | u
    · simp
    · rcases t with _ | t
      · simp
      · simp
  unfold editOf
  rcases hmethod : methodOf msg with _ | method
  · simp
  · cases method with
    | didOpen => simp [hput]
    | didChange => simp [hput]
    | didClose => simp
    | initializeRequest | initialized | codeLens | semanticDiff | shutdown | exit | unknown =>
        simp

theorem brings_iff {text : String} : Brings uri text event ↔
    ∃ msg, event.cause = .message msg ∧ editOf msg = some (.put uri text) := by
  simp only [Brings, brings_iff_edit]

theorem closes_iff : Closes uri event ↔
    ∃ msg, event.cause = .message msg ∧ editOf msg = some (.remove uri) := by
  simp only [Closes, closes_iff_edit]

theorem contentWrite_eq_some_iff {entry : Option String} :
    contentWrite event uri = some entry ↔ ∃ msg, event.cause = .message msg ∧
      ∃ edit, editOf msg = some edit ∧ edit.contentEntry uri = some entry := by
  rw [contentWrite]
  rcases event.cause with msg | _
  · simp only [Cause.message.injEq, exists_eq_left', Option.bind_eq_some_iff]
  · simp

theorem contentWrite_eq_text {text : String} :
    contentWrite event uri = some (some text) ↔ Brings uri text event := by
  rw [brings_iff, contentWrite_eq_some_iff]
  simp only [Edit.contentEntry_eq_text, exists_eq_right]

theorem contentWrite_eq_close : contentWrite event uri = some none ↔ Closes uri event := by
  rw [closes_iff, contentWrite_eq_some_iff]
  simp only [Edit.contentEntry_eq_close, exists_eq_right]

theorem contentWrite_eq_none :
    contentWrite event uri = none ↔ ¬Closes uri event ∧ ∀ text, ¬Brings uri text event := by
  rw [← contentWrite_eq_close]
  simp only [← contentWrite_eq_text]
  rcases contentWrite event uri with _ | _ | text
  · simp
  · simp
  · simp

theorem replay_contentWrite {trace : List Event} {text : String} :
    replay contentWrite trace uri = some text ↔ LastText trace uri text := by
  rw [replay_eq_some_iff, LastText]
  simp only [contentWrite_eq_text, contentWrite_eq_none]

end Texts

section Steps

variable {ctx : Context} {now : Env} {event : Event} {uri : String}

theorem derived_of_diffWrite {env : Nat → Env} {front back : List Event} {diff : Value}
    (hfollows : Follows ctx front event.found) (hreacts : Reacts ctx (env front.length) event)
    (hwrite : diffWrite event uri = some (some diff)) (hback : ∀ later ∈ back, ¬Closes uri later) :
    Derived ctx env (front ++ event :: back) uri diff := by
  obtain ⟨text, hcause, hcontent, hdiff⟩ := computed_of_diffWrite hreacts hwrite
  rw [hfollows.content, replay_contentWrite] at hcontent
  exact ⟨front, event, back, text, rfl, hcontent, hcause, hdiff, hback⟩

theorem diffWrite_of_published {diagnostics : Value} (hreacts : Reacts ctx now event)
    (h : diagnostics ∈ published uri event) :
    ∃ diff, diffWrite event uri = some (some diff) ∧ diagnostics = ctx.diagnostics diff := by
  rcases published_cases hreacts uri with hnone | ⟨content, diff, hcause, hpublished⟩
  · rw [hnone] at h
    cases h
  · rw [hpublished] at h
    refine ⟨diff, ?_, List.mem_singleton.mp h⟩
    rw [diffWrite, hcause]
    exact if_pos rfl

theorem sameFile_buffer (now : Env) {server : ServerState} {root path : Path} {text : String}
    (hpath : uriToPath ctx.host uri (some root) = .ok path)
    (htext : server.contentCache uri = some text) :
    (∀ file, .read file ∉ (sameFile ctx now server root uri).1) ∧
      semanticDiffResult (sameFile ctx now server root uri).2 =
        outcome ctx now server root path text := by
  simp only [sameFile, hpath, htext, Option.elim_some, Option.isSome_some, if_true]
  rcases hbelow : stripBase path root with _ | below
  · simp [outcome, hbelow]
  · simp [outcome, hbelow]

theorem sameFile_disk (now : Env) {server : ServerState} {root path : Path}
    (hpath : uriToPath ctx.host uri (some root) = .ok path)
    (hnone : server.contentCache uri = none) :
    .read path ∈ (sameFile ctx now server root uri).1 ∧
      semanticDiffResult (sameFile ctx now server root uri).2 =
        match now.readToString path with
        | .error e => errorObject e
        | .ok text => outcome ctx now server root path text := by
  simp only [sameFile, hpath, hnone, Option.elim_none]
  rcases now.readToString path with e | text
  · simp [semanticDiffResult]
  · rcases hbelow : stripBase path root with _ | below
    · simp [outcome, hbelow]
    · simp [outcome, hbelow]

theorem comparedBy_of_reacts {front : List Event} {id : Value} {root path : Path}
    (hfollows : Follows ctx front event.found) (hreacts : Reacts ctx now event)
    (hcompares : ComparesItself ctx event id uri root path) :
    ComparedBy ctx now front event id uri root path := by
  obtain ⟨⟨msg, hcause, hmethod, hid, hold, hnew⟩, hnamed, hrooted, hlocated⟩ := hcompares
  have hserved : event.calls = (sameFile ctx now event.found root uri).1 ∧
      event.written =
        [respond id (semanticDiffResult (sameFile ctx now event.found root uri).2)] := by
    rw [Reacts, hcause] at hreacts
    obtain ⟨s, hfound, hdispatch⟩ := hreacts
    simp only [Session.dispatch, hmethod, hid, Option.isSome_some, if_true, semanticDiffRequest,
      hold, hnew, hnamed, or_self, if_false, hfound, hrooted, Prod.mk.injEq] at hdispatch
    rw [← hdispatch.1, ← hdispatch.2, answer, hid]
    exact ⟨rfl, rfl⟩
  constructor
  · intro text htext
    rw [← replay_contentWrite, ← hfollows.content] at htext
    obtain ⟨hreads, hresult⟩ := sameFile_buffer now hlocated htext
    rw [hserved.1, hserved.2, hresult]
    exact ⟨hreads, rfl⟩
  · intro hnone
    have hcontent : event.found.contentCache uri = none := by
      rw [hfollows.content, Option.eq_none_iff_forall_ne_some]
      exact fun text htext => hnone text (replay_contentWrite.mp htext)
    obtain ⟨hreads, hresult⟩ := sameFile_disk now hlocated hcontent
    rw [hserved.1, hserved.2, hresult]
    exact ⟨hreads, rfl⟩

end Steps

section Points

variable {ctx : Context} {env : Nat → Env}

/-- What holds at every point, between two messages and between two computations. -/
structure Kept (ctx : Context) (env : Nat → Env) (s : Session) : Prop where
  tidy : Tidy s.dirty (documents s.server fun _ => none)
  recorded : Recorded ctx env s

theorem Kept.clear {s : Session} (h : Kept ctx env s) : Kept ctx env { s with dirty := [] } :=
  ⟨⟨h.tidy.covered, List.nodup_nil, nofun⟩, h.recorded.follows, h.recorded.explained⟩

theorem Kept.handle {s : Session} (hrunning : s.exited = false) (h : Kept ctx env s)
    (msg : Value) : Kept ctx env (s.handle ctx env msg) := by
  constructor
  · obtain ⟨hdocuments, hdirty⟩ :=
      dispatch_documents ctx (env s.trace.length) s msg fun _ => none
    rw [handle_running hrunning]
    dsimp only
    rw [hdocuments, hdirty]
    rcases editOf msg with _ | edit
    · exact h.tidy
    · exact h.tidy.apply edit
  · exact h.recorded.handle hrunning msg

theorem Kept.compute {s : Session} (h : Kept ctx env s) (uri : String) :
    Kept ctx env (s.computeAndPush ctx env uri) := by
  constructor
  · have hserved := servedDiff_eq ctx (env s.trace.length) s.server uri
    rw [Session.computeAndPush]
    dsimp only
    generalize (servedDiff ctx (env s.trace.length) s.server uri).2 = served at hserved ⊢
    rcases served with _ | ⟨content, diff⟩
    · exact h.tidy
    · have hpresent : s.server.contentCache uri ≠ none := by
        obtain ⟨content', hcontent, -⟩ := Option.bind_eq_some_iff.mp hserved.symm
        rw [hcontent]
        exact Option.some_ne_none content'
      refine ⟨?_, h.tidy.listed, h.tidy.held⟩
      intro key hview
      rcases eq_or_ne key uri with rfl | hne
      · exact hpresent
      · apply h.tidy.covered key
        intro hnone
        exact hview ((update_of_ne hne ..).trans hnone)
  · exact h.recorded.compute uri

theorem Kept.isolated {s : Session} (h : Kept ctx env s) : Isolated ctx env s := by
  obtain ⟨hfollows, hexplained⟩ := h.recorded
  have hderived : ∀ trace uri diff, Explained (fun front event =>
      Follows ctx front event.found ∧ Reacts ctx (env front.length) event) trace →
      replay diffWrite trace uri = some diff → Derived ctx env trace uri diff := by
    intro trace uri diff hexplained hreplay
    obtain ⟨earlier, computed, back, rfl, hwrite, hback⟩ := replay_eq_some_iff.mp hreplay
    obtain ⟨hearlier, hreacts⟩ := hexplained earlier computed back rfl
    apply derived_of_diffWrite hearlier hreacts hwrite
    intro later hlater hcloses
    rcases diffWrite_cases later uri with ⟨-, hnone, -⟩ | ⟨hopen, -⟩
    · cases hnone.symm.trans (hback later hlater)
    · exact hopen hcloses
  constructor
  · exact h.tidy.covered
  · exact h.tidy.listed
  · exact h.tidy.held
  · intro uri diff hdiff
    rw [hfollows.diff] at hdiff
    exact hderived _ _ _ hexplained hdiff
  · intro front event back htrace id uri hpull
    obtain ⟨hfound, hreacts⟩ := hexplained front event back htrace
    have hwritten := written_of_pullOf hpull hreacts
    rcases hdiff : event.found.diffCache uri with _ | diff
    · rw [hdiff] at hwritten
      exact .inl hwritten
    · rw [hdiff] at hwritten
      rw [hfound.diff] at hdiff
      refine .inr ⟨diff, hderived _ _ _ ?_ hdiff, hwritten⟩
      rintro earlier event' later rfl
      exact hexplained earlier event' (later ++ event :: back) (by rw [htrace]; simp)
  · intro front event back htrace uri diagnostics hpublished
    obtain ⟨hfound, hreacts⟩ := hexplained front event back htrace
    obtain ⟨diff, hwrite, hdiagnostics⟩ := diffWrite_of_published hreacts hpublished
    exact ⟨diff, hdiagnostics, derived_of_diffWrite hfound hreacts hwrite nofun⟩
  · intro front event back htrace id uri root path hcompares
    obtain ⟨hfound, hreacts⟩ := hexplained front event back htrace
    exact comparedBy_of_reacts hfound hreacts hcompares

end Points

/-- Whatever messages a batch has handled so far, and however many of its documents were
computed since, nothing of a document is left from before its last close. -/
theorem session_isolated (ctx : Context) (env : Nat → Env) (gitRef wasmDir : String)
    (batches : List (List Value)) (batch : List Value) :
    let handled := batch.foldl (Session.handle ctx env)
      { (Session.new gitRef wasmDir).run ctx env batches with dirty := [] }
    Isolated ctx env handled ∧
      ∀ count, Isolated ctx env
        ((handled.dirty.take count).foldl (Session.computeAndPush ctx env) handled) := by
  intro handled
  have hnew : Kept ctx env (Session.new gitRef wasmDir) :=
    ⟨⟨fun _ hview => absurd rfl hview, List.nodup_nil, nofun⟩, ⟨rfl, rfl, nofun⟩, explained_nil⟩
  have hrun : Kept ctx env ((Session.new gitRef wasmDir).run ctx env batches) :=
    run_invariant (fun _ hs => hs.clear) (fun _ msg hrunning hs => hs.handle hrunning msg)
      (fun _ uri hs => hs.compute uri) hnew batches
  have hhandled : Kept ctx env handled :=
    messages_invariant (fun _ msg hrunning hs => hs.handle hrunning msg) hrun.clear batch
  refine ⟨hhandled.isolated, fun count => ?_⟩
  exact (computations_invariant (fun _ uri hs => hs.compute uri) hhandled _).isolated

end IntentumdiffLsp.Isolation
