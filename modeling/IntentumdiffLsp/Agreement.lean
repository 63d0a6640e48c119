import IntentumdiffLsp.Coalescing
import Mathlib.Data.List.Induction

/-!
The diagnostics that are pushed, and the diff that is cached.
-/

namespace IntentumdiffLsp.Agreement

open Foundations.DerivedView
open Foundations.Journal
open IntentumdiffLsp.Json
open IntentumdiffLsp.Server
open IntentumdiffLsp.Sessions
open IntentumdiffLsp.Coalescing

def computedWrite (event : Event) (uri : String) : Option (Option Value) :=
  match event.cause with
  | .computation u (some (_, diff)) => if uri = u then some (some diff) else none
  | _ => none

/-- The diff that was computed last for each document, whatever came of it since. -/
def lastDiff (trace : List Event) : String → Option Value :=
  replay computedWrite trace

def Closes (uri : String) (event : Event) : Prop :=
  ∃ msg, event.cause = .message msg ∧ methodOf msg = some .didClose ∧
    documentUri (paramsOf msg) = some uri

/-- The document was closed after the last diff was computed for it. -/
def ClosedSince (trace : List Event) (uri : String) : Prop :=
  ∃ front closing back, trace = front ++ closing :: back ∧ Closes uri closing ∧
    ∀ later ∈ back, computedWrite later uri = none

/-- What the client was sent last about a document is what is cached, or nothing. -/
def InStep (ctx : Context) (s : Session) (uri : String) : Prop :=
  match s.server.diffCache uri with
  | some diff => lastPublished s.trace uri = some (ctx.diagnostics diff)
  | none => lastPublished s.trace uri = none ∨ lastPublished s.trace uri = some (.array [])

section Traces

variable {trace : List Event} {event : Event} {uri : String}

theorem lastDiff_append_singleton :
    lastDiff (trace ++ [event]) uri = (computedWrite event uri).getD (lastDiff trace uri) :=
  replay_append_singleton trace event uri

theorem closes_iff_edit {msg : Value} : editOf msg = some (.remove uri) ↔
    methodOf msg = some .didClose ∧ documentUri (paramsOf msg) = some uri := by
  unfold editOf
  rcases hmethod : methodOf msg with _ | method
  · simp
  · cases method with
    | didClose => simp
    | didOpen => simp [Option.bind_eq_some_iff]
    | didChange => simp [Option.bind_eq_some_iff]
    | initializeRequest | initialized | codeLens | semanticDiff | shutdown | exit | unknown =>
        simp

/-- A step drops the diff of a document, computes it, or lets it be. -/
theorem diffWrite_cases (event : Event) (uri : String) :
    (Closes uri event ∧ diffWrite event uri = some none ∧ computedWrite event uri = none) ∨
      ¬Closes uri event ∧ diffWrite event uri = computedWrite event uri ∧
        computedWrite event uri ≠ some none := by
  rcases hcause : event.cause with msg | ⟨u, served⟩
  · have hcomputed : computedWrite event uri = none := by
      rw [computedWrite, hcause]
    have hwrite : diffWrite event uri = (editOf msg).bind fun edit => edit.viewEntry uri := by
      rw [diffWrite, hcause]
    have hcloses : Closes uri event ↔ editOf msg = some (.remove uri) := by
      rw [Closes, hcause, closes_iff_edit]
      constructor
      · rintro ⟨msg', hmsg, h⟩
        cases hmsg
        exact h
      · exact fun h => ⟨msg, rfl, h⟩
    rw [hcloses, hwrite, hcomputed]
    rcases hedit : editOf msg with _ | edit
    · exact .inr ⟨nofun, rfl, nofun⟩
    cases edit with
    | put u content => exact .inr ⟨nofun, rfl, nofun⟩
    | remove u =>
        rcases eq_or_ne uri u with rfl | hne
        · exact .inl ⟨rfl, if_pos rfl, rfl⟩
        · right
          refine ⟨?_, if_neg hne, nofun⟩
          rintro ⟨⟩
          exact hne rfl
  · right
    have hcloses : ¬Closes uri event := by
      rintro ⟨msg, hmsg, -⟩
      cases hcause.symm.trans hmsg
    refine ⟨hcloses, ?_⟩
    rcases served with _ | ⟨content, diff⟩
    · rw [diffWrite, computedWrite, hcause]
      exact ⟨rfl, nofun⟩
    · rw [diffWrite, computedWrite, hcause]
      refine ⟨rfl, ?_⟩
      dsimp only
      split
      · nofun
      · nofun

theorem closedSince_append_singleton :
    ClosedSince (trace ++ [event]) uri ↔
      Closes uri event ∨ (ClosedSince trace uri ∧ computedWrite event uri = none) := by
  constructor
  · rintro ⟨front, closing, back, htrace, hcloses, hback⟩
    rcases List.eq_nil_or_concat back with rfl | ⟨back, last, rfl⟩
    · obtain ⟨-, hlast⟩ := List.append_inj' htrace rfl
      cases hlast
      exact .inl hcloses
    · have hsplit : trace ++ [event] = (front ++ closing :: back) ++ [last] := by
        rw [htrace]
        simp
      obtain ⟨rfl, hlast⟩ := List.append_inj' hsplit rfl
      cases hlast
      exact .inr ⟨⟨front, closing, back, rfl, hcloses,
        fun later hlater => hback later (by simp [hlater])⟩, hback event (by simp)⟩
  · rintro (hcloses | ⟨⟨front, closing, back, rfl, hcloses, hback⟩, hevent⟩)
    · exact ⟨trace, event, [], rfl, hcloses, by simp⟩
    · refine ⟨front, closing, back ++ [event], by simp, hcloses, ?_⟩
      intro later hlater
      rcases List.mem_append.mp hlater with hmem | hmem
      · exact hback later hmem
      · rw [List.mem_singleton.mp hmem]
        exact hevent

/-- The cache holds the last diff, and nothing after a close. -/
theorem replay_diffWrite (trace : List Event) (uri : String) :
    (ClosedSince trace uri → replay diffWrite trace uri = none) ∧
      (¬ClosedSince trace uri → replay diffWrite trace uri = lastDiff trace uri) := by
  induction trace using List.reverseRecOn with
  | nil => exact ⟨fun _ => rfl, fun _ => rfl⟩
  | append_singleton trace event ih =>
      rw [lastDiff_append_singleton, replay_append_singleton, closedSince_append_singleton]
      rcases diffWrite_cases event uri with
        ⟨hcloses, hwrite, -⟩ | ⟨hcloses, hwrite, hdiff⟩
      · rw [hwrite]
        exact ⟨fun _ => rfl, fun h => absurd (.inl hcloses) h⟩
      · rw [hwrite]
        rcases hcomputed : computedWrite event uri with _ | diff
        · rw [Option.getD_none, Option.getD_none]
          simp only [hcloses, false_or, and_true]
          exact ih
        · rw [Option.getD_some, Option.getD_some]
          simp [hcloses]

end Traces

section Runs

variable (ctx : Context) (env : Nat → Env) (gitRef wasmDir : String) (batches : List (List Value))

theorem lastPublished_run (uri : String) :
    lastPublished ((Session.new gitRef wasmDir).run ctx env batches).trace uri =
      (lastDiff ((Session.new gitRef wasmDir).run ctx env batches).trace uri).map
        ctx.diagnostics := by
  refine run_invariant (P := fun s =>
    lastPublished s.trace uri = (lastDiff s.trace uri).map ctx.diagnostics) ?_ ?_ ?_ rfl batches
  · exact fun s hs => hs
  · intro s msg hrunning hs
    rw [handle_running hrunning]
    dsimp only
    rw [lastPublished_handle, hs, lastDiff_append_singleton]
    rfl
  · intro s u hs
    rw [Session.computeAndPush]
    dsimp only
    rcases (servedDiff ctx (env s.trace.length) s.server u).2 with _ | ⟨content, diff⟩
    · rw [lastPublished_silent, hs, lastDiff_append_singleton]
      rfl
    · rw [lastPublished_computation, lastDiff_append_singleton, Function.update_apply]
      dsimp only [computedWrite]
      split
      · rfl
      · exact hs

end Runs

/-- The client has the diagnostics of the last diff, the cache has that diff as long as
the document was not closed since; so they part only when it was, over diagnostics that
are not empty. -/
theorem pushed_view (ctx : Context) (env : Nat → Env) (gitRef wasmDir : String)
    (batches : List (List Value)) (uri : String) :
    let s := (Session.new gitRef wasmDir).run ctx env batches
    lastPublished s.trace uri = (lastDiff s.trace uri).map ctx.diagnostics ∧
      (ClosedSince s.trace uri → s.server.diffCache uri = none) ∧
      (¬ClosedSince s.trace uri → s.server.diffCache uri = lastDiff s.trace uri) ∧
      (InStep ctx s uri ↔ (ClosedSince s.trace uri →
        ∀ diff, lastDiff s.trace uri = some diff → ctx.diagnostics diff = .array [])) := by
  intro s
  have hpublished := lastPublished_run ctx env gitRef wasmDir batches uri
  obtain ⟨hclosed, hopen⟩ := replay_diffWrite s.trace uri
  have hfollows := (recorded_run ctx env gitRef wasmDir batches).follows.diff
  have hcache : s.server.diffCache uri = replay diffWrite s.trace uri := congrFun hfollows uri
  rw [← hcache] at hclosed hopen
  refine ⟨hpublished, hclosed, hopen, ?_⟩
  change lastPublished s.trace uri = _ at hpublished
  rw [InStep, hpublished]
  by_cases hsince : ClosedSince s.trace uri
  · rw [hclosed hsince]
    rcases lastDiff s.trace uri with _ | diff
    · simp
    · simp [hsince]
  · rw [hopen hsince]
    rcases lastDiff s.trace uri with _ | diff
    · simp
    · simp [hsince]

def marking : Context :=
  { echo with diagnostics := fun diff => .array [.object [("message", diff)]] }

def closing (uri : String) : Value :=
  Codec.notification "textDocument/didClose" (.object [document uri])

def runOf (batches : List (List Value)) : Session :=
  (Session.new "HEAD" "").run marking (fun _ => echoEnv) batches

def closedApart : List (List Value) :=
  [[rootedAt "file:///ws", opening "file:///ws/a" "text"], [closing "file:///ws/a"]]

/-- A document closed in a later batch keeps its diagnostics; with the close in the same
batch it never gets any. -/
theorem closedApart_differs :
    (¬∀ (ctx : Context) (env : Nat → Env) (gitRef wasmDir : String)
        (batches : List (List Value)) (uri : String),
      InStep ctx ((Session.new gitRef wasmDir).run ctx env batches) uri) ∧
      lastPublished (runOf closedApart).trace "file:///ws/a" ≠
        lastPublished (runOf [closedApart.flatten]).trace "file:///ws/a" := by
  have hkept : (lastPublished (runOf closedApart).trace "file:///ws/a").bind
      (fun diagnostics => diagnostics.asArray.map List.length) = some 1 := by decide +kernel
  constructor
  · intro hclaim
    have hstep := hclaim marking (fun _ => echoEnv) "HEAD" "" closedApart "file:///ws/a"
    change InStep marking (runOf closedApart) _ at hstep
    have hdropped : (runOf closedApart).server.diffCache "file:///ws/a" = none := by
      decide +kernel
    rw [InStep, hdropped] at hstep
    rcases hstep with hnone | hempty
    · rw [hnone] at hkept
      cases hkept
    · rw [hempty] at hkept
      cases hkept
  · intro hsame
    have hnever : (lastPublished (runOf [closedApart.flatten]).trace "file:///ws/a").isNone =
        true := by decide +kernel
    rw [← hsame, Option.isNone_iff_eq_none] at hnever
    rw [hnever] at hkept
    cases hkept

end IntentumdiffLsp.Agreement
