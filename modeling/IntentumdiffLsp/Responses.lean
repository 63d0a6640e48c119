import IntentumdiffLsp.Coalescing
import Mathlib.Data.List.Forall2

/-!
What a session writes: which messages are answered, in which order, and what the
server sends on its own.
-/

namespace IntentumdiffLsp.Responses

open Foundations
open IntentumdiffLsp.Json
open IntentumdiffLsp.Server
open IntentumdiffLsp.Sessions
open IntentumdiffLsp.Coalescing

def methodName (msg : Value) : Option String :=
  (msg.get "method").bind Value.asStr

def notifications : List String :=
  ["initialized", "textDocument/didOpen", "textDocument/didChange", "textDocument/didClose",
    "exit"]

/-- The id that the answer to a message bears; most messages ask for none. -/
def requestId (msg : Value) : Option Value :=
  match methodName msg with
  | none => none
  | some name => if name = "" ∨ name ∈ notifications then none else msg.get "id"

def IsExit (msg : Value) : Prop :=
  methodName msg = some "exit"

/-- One outcome, a result or an error, and no method. -/
structure Answers (id written : Value) : Prop where
  method : written.get "method" = none
  id : written.get "id" = some id
  outcome : (written.get "result").isSome ≠ (written.get "error").isSome

/-- Whether the client supports a refresh of the lenses, as it said last. -/
def declares (supported : Bool) (msg : Value) : Bool :=
  if methodName msg = some "initialize" then refreshSupport (paramsOf msg) else supported

/-- Diagnostics, each directly followed by the next request for a refresh if the
client supports it. -/
inductive Pushes (supported : Bool) : Int → List Value → Int → Prop where
  | nil (next : Int) : Pushes supported next [] next
  | plain (uri : String) (diagnostics : Value) {next next' : Int} {rest : List Value} :
      supported = false → Pushes supported next rest next' →
      Pushes supported next (publishDiagnostics uri diagnostics :: rest) next'
  | refresh (uri : String) (diagnostics : Value) {next next' : Int} {rest : List Value} :
      supported = true → Pushes supported (wrapI64 (next + 1)) rest next' →
      Pushes supported next
        (publishDiagnostics uri diagnostics :: codeLensRefresh next :: rest) next'

/-- The answers of a batch in the order of its requests, then what is pushed; an exit
is the end of it. -/
inductive Responds : Bool → Int → List (List Value) → List Value → Prop where
  | nil (supported : Bool) (next : Int) : Responds supported next [] []
  | batch (batch : List Value) {supported : Bool} {next next' : Int}
      {rest : List (List Value)} {answers pushes output : List Value} :
      (∀ msg ∈ batch, ¬IsExit msg) →
      List.Forall₂ Answers (batch.filterMap requestId) answers →
      Pushes (batch.foldl declares supported) next pushes next' →
      Responds (batch.foldl declares supported) next' rest output →
      Responds supported next (batch :: rest) (answers ++ pushes ++ output)
  | exit (front : List Value) (last : Value) (back : List Value) {supported : Bool} {next : Int}
      {rest : List (List Value)} {answers : List Value} :
      (∀ msg ∈ front, ¬IsExit msg) → IsExit last →
      List.Forall₂ Answers (front.filterMap requestId) answers →
      Responds supported next ((front ++ last :: back) :: rest) answers

def output (s : Session) : List Value :=
  s.trace.flatMap Event.written

/-- The id, when the message is a request of the server for a refresh of the lenses. -/
def refreshId (written : Value) : Option Value :=
  if methodName written = some "workspace/codeLens/refresh" then written.get "id" else none

section Messages

variable {ctx : Context} {now : Env} {msg : Value}

theorem methodOf_cases (msg : Value) :
    (methodOf msg = none ∧ (methodName msg = none ∨ methodName msg = some "")) ∨
      ∃ method name, methodOf msg = some method ∧ methodName msg = some name ∧ name ≠ "" ∧
        (method = .exit ↔ name = "exit") ∧ (method = .initializeRequest ↔ name = "initialize") ∧
        (method ∈ [.initialized, .didOpen, .didChange, .didClose, .exit] ↔
          name ∈ notifications) := by
  unfold methodOf
  rcases hname : methodName msg with _ | name
  · rw [methodName] at hname
    rw [hname]
    exact .inl ⟨rfl, .inl rfl⟩
  rw [methodName] at hname
  rw [hname, Option.getD_some]
  split
  · exact .inl ⟨rfl, .inr rfl⟩
  all_goals right
  case h_11 hempty hinitialize hinitialized hopen hchange hclose hlens hdiff hshutdown hexit =>
    refine ⟨_, _, rfl, rfl, hempty, ?_, ?_, ?_⟩
    · exact ⟨nofun, fun h => absurd h hexit⟩
    · exact ⟨nofun, fun h => absurd h hinitialize⟩
    · simp only [notifications, List.mem_cons, List.not_mem_nil, reduceCtorEq, or_false,
        false_iff, not_or]
      exact ⟨hinitialized, hopen, hchange, hclose, hexit⟩
  all_goals exact ⟨_, _, rfl, rfl, by decide, by decide, by decide, by decide⟩

theorem requestId_of_method {method : Method} (h : methodOf msg = some method) :
    requestId msg =
      if method ∈ [.initialized, .didOpen, .didChange, .didClose, .exit] then none
      else msg.get "id" := by
  rcases methodOf_cases msg with ⟨hnone, -⟩ | ⟨method', name, hmethod, hname, hne, -, -, hmem⟩
  · cases hnone.symm.trans h
  · cases hmethod.symm.trans h
    rw [requestId, hname]
    simp only [hne, false_or, hmem]

theorem isExit_iff : IsExit msg ↔ methodOf msg = some .exit := by
  rw [IsExit]
  rcases methodOf_cases msg with ⟨hnone, hempty⟩ | ⟨method, name, hmethod, hname, -, hexit, -, -⟩
  · rcases hempty with hempty | hempty
    · simp [hnone, hempty]
    · simp [hnone, hempty]
  · rw [hmethod, hname, Option.some.injEq, Option.some.injEq, hexit]

theorem declares_eq (supported : Bool) (msg : Value) :
    declares supported msg =
      if methodOf msg = some .initializeRequest then refreshSupport (paramsOf msg)
      else supported := by
  rw [declares]
  rcases methodOf_cases msg with
    ⟨hnone, hempty⟩ | ⟨method, name, hmethod, hname, -, -, hinitialize, -⟩
  · rcases hempty with hempty | hempty
    · simp [hnone, hempty]
    · simp [hnone, hempty]
  · simp only [hmethod, hname, Option.some.injEq, hinitialize]

theorem answers_respond (id result : Value) : Answers id (respond id result) :=
  ⟨rfl, rfl, Bool.false_ne_true.symm⟩

theorem answers_respondError (id : Value) (code : Int) (message : String) :
    Answers id (respondError id code message) :=
  ⟨rfl, rfl, Bool.false_ne_true⟩

theorem answers_answer (h : requestId msg = msg.get "id") (result : Value) :
    List.Forall₂ Answers (requestId msg).toList (answer msg result) := by
  rw [h, answer]
  rcases msg.get "id" with _ | id
  · exact .nil
  · exact .cons (answers_respond id result) .nil

/-- A message is answered once if it is a request, and not at all otherwise. -/
theorem dispatch_answers (ctx : Context) (now : Env) (s : Session) (msg : Value) :
    List.Forall₂ Answers (requestId msg).toList (s.dispatch ctx now msg).2.2 := by
  unfold Session.dispatch
  rcases hmethod : methodOf msg with _ | method
  · have hnone : requestId msg = none := by
      rcases methodOf_cases msg with ⟨-, hempty | hempty⟩ | ⟨method, name, hsome, -⟩
      · rw [requestId, hempty]
      · rw [requestId, hempty]
        rfl
      · cases hmethod.symm.trans hsome
    rw [hnone]
    exact .nil
  have hid := requestId_of_method hmethod
  cases method with
  | initializeRequest => exact answers_answer hid _
  | codeLens => exact answers_answer hid _
  | shutdown => exact answers_answer hid _
  | semanticDiff =>
      dsimp only
      split
      · exact answers_answer hid _
      · rename_i hnone
        rw [Option.not_isSome_iff_eq_none] at hnone
        rw [hid, hnone]
        exact .nil
  | unknown name =>
      rw [hid]
      dsimp only
      rw [if_neg (by simp)]
      rcases msg.get "id" with _ | id
      · exact .nil
      · exact .cons (answers_respondError id _ _) .nil
  | initialized | didOpen | didChange | didClose | exit =>
      rw [hid]
      exact .nil

theorem dispatch_supports (ctx : Context) (now : Env) (s : Session) (msg : Value) :
    (s.dispatch ctx now msg).1.server.supportsCodelensRefresh =
        declares s.server.supportsCodelensRefresh msg ∧
      (s.dispatch ctx now msg).1.server.nextServerId = s.server.nextServerId := by
  rw [declares_eq]
  unfold Session.dispatch
  rcases methodOf msg with _ | method
  · exact ⟨rfl, rfl⟩
  cases method with
  | initializeRequest =>
      refine ⟨rfl, ?_⟩
      dsimp only [initializeServer]
      split <;> rfl
  | didOpen | didChange =>
      dsimp only [Session.store]
      split <;> exact ⟨rfl, rfl⟩
  | didClose =>
      dsimp only [Session.close]
      split <;> exact ⟨rfl, rfl⟩
  | semanticDiff =>
      dsimp only
      split <;> exact ⟨rfl, rfl⟩
  | initialized | codeLens | shutdown | exit | unknown => exact ⟨rfl, rfl⟩

end Messages

section Batches

variable (ctx : Context) (env : Nat → Env)

theorem output_handle {s : Session} (h : s.exited = false) (msg : Value) :
    output (s.handle ctx env msg) =
      output s ++ (s.dispatch ctx (env s.trace.length) msg).2.2 := by
  rw [handle_running h, output, List.flatMap_append, List.flatMap_singleton]
  rfl

/-- The messages before an exit are answered one by one. -/
theorem messages_answers (batch : List Value) (hbatch : ∀ msg ∈ batch, ¬IsExit msg) (s : Session)
    (hrunning : s.exited = false) :
    let handled := batch.foldl (Session.handle ctx env) s
    handled.exited = false ∧
      handled.server.supportsCodelensRefresh =
        batch.foldl declares s.server.supportsCodelensRefresh ∧
      handled.server.nextServerId = s.server.nextServerId ∧
      ∃ answers, output handled = output s ++ answers ∧
        List.Forall₂ Answers (batch.filterMap requestId) answers := by
  induction batch generalizing s with
  | nil => exact ⟨hrunning, rfl, rfl, [], (List.append_nil _).symm, .nil⟩
  | cons msg batch ih =>
      have hexit : ¬methodOf msg = some .exit := by
        rw [← isExit_iff]
        exact hbatch msg List.mem_cons_self
      have hstep : s.handle ctx env msg = _ := handle_running hrunning msg
      obtain ⟨hsupports, hnext⟩ :=
        dispatch_supports ctx (env s.trace.length) s msg
      have hstill : (s.handle ctx env msg).exited = false := by
        rw [hstep]
        exact (dispatch_running hexit).trans hrunning
      obtain ⟨hexited, hsupported, hnextId, answers, houtput, hanswers⟩ :=
        ih (fun m hm => hbatch m (List.mem_cons_of_mem _ hm)) _ hstill
      have hserver : (s.handle ctx env msg).server =
          (s.dispatch ctx (env s.trace.length) msg).1.server := by
        rw [hstep]
      rw [hserver, hsupports] at hsupported
      rw [hserver, hnext] at hnextId
      refine ⟨hexited, hsupported, hnextId,
        (s.dispatch ctx (env s.trace.length) msg).2.2 ++ answers, ?_, ?_⟩
      · rw [List.foldl_cons, houtput, output_handle ctx env hrunning, List.append_assoc]
      · have hfilter : (msg :: batch).filterMap requestId =
            (requestId msg).toList ++ batch.filterMap requestId := by
          rw [List.filterMap_cons]
          rcases requestId msg <;> rfl
        rw [hfilter]
        exact List.rel_append (dispatch_answers ctx _ s msg) hanswers

theorem exited_messages {s : Session} (h : s.exited = true) (batch : List Value) :
    batch.foldl (Session.handle ctx env) s = s := by
  induction batch with
  | nil => rfl
  | cons msg batch ih => rw [List.foldl_cons, Session.handle, if_pos h, ih]

/-- What is handled up to an exit and with it has been answered; the rest of the batch
leaves no trace. -/
theorem exit_answers (front : List Value) (last : Value) (back : List Value)
    (hfront : ∀ msg ∈ front, ¬IsExit msg) (hlast : IsExit last) (s : Session)
    (hrunning : s.exited = false) :
    let handled := (front ++ last :: back).foldl (Session.handle ctx env) s
    handled.exited = true ∧
      ∃ answers, output handled = output s ++ answers ∧
        List.Forall₂ Answers (front.filterMap requestId) answers := by
  obtain ⟨hstill, -, -, answers, houtput, hanswers⟩ :=
    messages_answers ctx env front hfront s hrunning
  have hmethod := isExit_iff.mp hlast
  rw [List.foldl_append, List.foldl_cons]
  generalize front.foldl (Session.handle ctx env) s = before at hstill houtput
  have hexited : (before.handle ctx env last).exited = true := by
    rw [handle_running hstill]
    exact (dispatch_exited before last).trans (by simp [hmethod])
  have hsilent : (before.dispatch ctx (env before.trace.length) last).2.2 = [] := by
    simp only [Session.dispatch, hmethod]
  rw [exited_messages ctx env hexited]
  refine ⟨hexited, answers, ?_, hanswers⟩
  rw [output_handle ctx env hstill, hsilent, List.append_nil, houtput]

theorem output_computeAndPush (s : Session) (uri : String) :
    ∃ served, output (s.computeAndPush ctx env uri) =
        output s ++ pushes ctx s.server uri served ∧
      (s.computeAndPush ctx env uri).server = cacheDiff s.server uri served ∧
      (s.computeAndPush ctx env uri).exited = s.exited := by
  refine ⟨_, ?_, rfl, rfl⟩
  rw [output, Session.computeAndPush, List.flatMap_append, List.flatMap_singleton]
  rfl

theorem computations_push (dirty : List String) (s : Session) :
    let computed := dirty.foldl (Session.computeAndPush ctx env) s
    computed.exited = s.exited ∧
      computed.server.supportsCodelensRefresh = s.server.supportsCodelensRefresh ∧
      ∃ pushed, output computed = output s ++ pushed ∧
        Pushes s.server.supportsCodelensRefresh s.server.nextServerId pushed
          computed.server.nextServerId := by
  induction dirty generalizing s with
  | nil => exact ⟨rfl, rfl, [], (List.append_nil _).symm, .nil _⟩
  | cons uri dirty ih =>
      obtain ⟨served, houtput, hserver, hexited⟩ :=
        output_computeAndPush ctx env s uri
      obtain ⟨hsame, hsupports, pushed, hpushed, hpushes⟩ := ih (s.computeAndPush ctx env uri)
      rw [hserver] at hsupports hpushes
      refine ⟨hsame.trans hexited, ?_, pushes ctx s.server uri served ++ pushed, ?_, ?_⟩
      · refine hsupports.trans ?_
        unfold cacheDiff
        split <;> rfl
      · rw [List.foldl_cons, hpushed, houtput, List.append_assoc]
      · rcases served with _ | ⟨content, diff⟩
        · exact hpushes
        rcases hsupported : s.server.supportsCodelensRefresh with _ | _
        · simp only [cacheDiff, hsupported, Bool.false_eq_true, if_false] at hpushes
          simp only [pushes, hsupported, Bool.false_eq_true, if_false]
          exact .plain uri _ rfl hpushes
        · simp only [cacheDiff, hsupported, if_true] at hpushes
          simp only [pushes, hsupported, if_true]
          exact .refresh uri _ rfl hpushes

theorem exited_run {s : Session} (h : s.exited = true) (batches : List (List Value)) :
    output (s.run ctx env batches) = output s := by
  induction batches generalizing s with
  | nil => rfl
  | cons batch batches ih =>
      have hbatch : s.processBatch ctx env batch = { s with dirty := [] } := by
        have hcleared : ({ s with dirty := [] } : Session).exited = true := h
        rw [Session.processBatch, exited_messages ctx env hcleared]
        exact if_pos h
      exact (ih (s := s.processBatch ctx env batch) (by rw [hbatch]; exact h)).trans
        (by rw [hbatch]; rfl)

theorem first_exit (batch : List Value) :
    (∀ msg ∈ batch, ¬IsExit msg) ∨
      ∃ front last back, batch = front ++ last :: back ∧ IsExit last ∧
        ∀ msg ∈ front, ¬IsExit msg := by
  induction batch with
  | nil => exact .inl nofun
  | cons msg batch ih =>
      by_cases hexit : IsExit msg
      · exact .inr ⟨[], msg, batch, rfl, hexit, nofun⟩
      rcases ih with hnone | ⟨front, last, back, rfl, hlast, hfront⟩
      · exact .inl (List.forall_mem_cons.mpr ⟨hexit, hnone⟩)
      · exact .inr ⟨msg :: front, last, back, rfl, hlast,
          List.forall_mem_cons.mpr ⟨hexit, hfront⟩⟩

theorem responds_run (batches : List (List Value)) (s : Session) (hrunning : s.exited = false) :
    ∃ written, output (s.run ctx env batches) = output s ++ written ∧
      Responds s.server.supportsCodelensRefresh s.server.nextServerId batches written := by
  induction batches generalizing s with
  | nil => exact ⟨[], (List.append_nil _).symm, .nil _ _⟩
  | cons batch batches ih =>
      have hrun : s.run ctx env (batch :: batches) =
          (s.processBatch ctx env batch).run ctx env batches := rfl
      rw [hrun]
      rcases first_exit batch with hbatch | ⟨front, last, back, rfl, hlast, hfront⟩
      · obtain ⟨hstill, hsupports, hnext, answers, hanswered, hanswers⟩ :=
          messages_answers ctx env batch hbatch { s with dirty := [] } hrunning
        have hprocess : s.processBatch ctx env batch = _ := if_neg (by simp [hstill])
        rw [hprocess]
        generalize batch.foldl (Session.handle ctx env) { s with dirty := [] } = handled
          at hstill hsupports hnext hanswered
        obtain ⟨hexited, hsupported, pushed, hpushed, hpushes⟩ :=
          computations_push ctx env handled.dirty handled
        obtain ⟨written, hwritten, hresponds⟩ := ih _ (hexited.trans hstill)
        rw [hsupports, hnext] at hpushes
        rw [hsupported, hsupports] at hresponds
        refine ⟨answers ++ pushed ++ written, ?_, .batch batch hbatch hanswers hpushes hresponds⟩
        rw [hwritten, hpushed, hanswered]
        simp [output]
      · obtain ⟨hexited, answers, hanswered, hanswers⟩ :=
          exit_answers ctx env front last back hfront hlast
            { s with dirty := [] } hrunning
        have hprocess : s.processBatch ctx env (front ++ last :: back) = _ := if_pos hexited
        rw [hprocess, exited_run ctx env hexited]
        exact ⟨answers, hanswered, .exit front last back hfront hlast hanswers⟩

end Batches

section Refreshes

theorem refreshId_answers {ids answers : List Value} (h : List.Forall₂ Answers ids answers) :
    answers.filterMap refreshId = [] := by
  induction h with
  | nil => rfl
  | @cons id answer ids answers hanswer _ ih =>
      have hnone : refreshId answer = none := by
        rw [refreshId, methodName, hanswer.method]
        rfl
      rw [List.filterMap_cons, hnone, ih]

theorem refreshId_publishDiagnostics (uri : String) (diagnostics : Value) :
    refreshId (publishDiagnostics uri diagnostics) = none := by
  have hmethod : methodName (publishDiagnostics uri diagnostics) =
      some "textDocument/publishDiagnostics" := rfl
  rw [refreshId, hmethod]
  rfl

/-- The numbers that a counter which stands at `next` gives to the next `count` requests. -/
def numbered (next : Int) (count : Nat) : List Value :=
  (List.range count).map fun i : Nat => .ofI64 (wrapI64 (next + i))

theorem numbered_succ (next : Int) (count : Nat) :
    numbered next (count + 1) = .ofI64 (wrapI64 next) :: numbered (wrapI64 (next + 1)) count := by
  rw [numbered, List.range_succ_eq_map, List.map_cons, List.map_map]
  refine congrArg₂ _ (by simp) (List.map_congr_left fun i _ => ?_)
  refine congrArg Value.ofI64 ?_
  rw [wrapI64_wrapI64_add, Nat.cast_succ, add_assoc, add_comm (i : Int)]

theorem numbered_add (next : Int) (count count' : Nat) :
    numbered next (count + count') =
      numbered next count ++ numbered (wrapI64 (next + count)) count' := by
  rw [numbered, List.range_add, List.map_append, List.map_map]
  refine congrArg _ (List.map_congr_left fun i _ => ?_)
  refine congrArg Value.ofI64 ?_
  rw [wrapI64_wrapI64_add, Nat.cast_add, add_assoc]

/-- Before the counter wraps, the numbers are the ones behind each other. -/
theorem numbered_eq {next : Int} {count : Nat} (hnext : 0 ≤ next)
    (hcount : next + count ≤ 2 ^ 63) :
    numbered next count = (List.range count).map fun i : Nat => .ofI64 (next + i) := by
  refine List.map_congr_left fun i hi => congrArg Value.ofI64 ?_
  have hlt := List.mem_range.mp hi
  exact wrapI64_eq_self (by omega) (by omega)

theorem Pushes.refreshIds {supported : Bool} {next next' : Int} {pushed : List Value}
    (h : Pushes supported next pushed next') (hnext : wrapI64 next = next) :
    ∃ count : Nat, next' = wrapI64 (next + count) ∧
      pushed.filterMap refreshId = numbered next count := by
  induction h with
  | nil next => exact ⟨0, by simp [hnext], rfl⟩
  | plain uri diagnostics _ _ ih =>
      obtain ⟨count, hcount, hids⟩ := ih hnext
      refine ⟨count, hcount, ?_⟩
      rw [List.filterMap_cons, refreshId_publishDiagnostics, hids]
  | @refresh uri diagnostics next next' rest _ _ ih =>
      obtain ⟨count, hcount, hids⟩ := ih (wrapI64_wrapI64 _)
      have hrefresh : refreshId (codeLensRefresh next) = some (.ofI64 next) := by
        have hmethod : methodName (codeLensRefresh next) =
            some "workspace/codeLens/refresh" := rfl
        rw [refreshId, if_pos hmethod]
        rfl
      refine ⟨count + 1, ?_, ?_⟩
      · rw [hcount, wrapI64_wrapI64_add, Nat.cast_succ, add_assoc, add_comm (1 : Int)]
      · rw [List.filterMap_cons, refreshId_publishDiagnostics, List.filterMap_cons, hrefresh,
          hids, numbered_succ, hnext]

theorem Responds.refreshIds {supported : Bool} {next : Int} {batches : List (List Value)}
    {written : List Value} (h : Responds supported next batches written)
    (hnext : wrapI64 next = next) :
    ∃ count : Nat, written.filterMap refreshId = numbered next count := by
  induction h with
  | nil => exact ⟨0, rfl⟩
  | @batch batch supported next next' rest answers pushed written _ hanswers hpushes _ ih =>
      obtain ⟨count, rfl, hpushed⟩ := hpushes.refreshIds hnext
      obtain ⟨count', hids⟩ := ih (wrapI64_wrapI64 _)
      refine ⟨count + count', ?_⟩
      rw [List.filterMap_append, List.filterMap_append, refreshId_answers hanswers, hpushed, hids,
        List.nil_append, numbered_add]
  | exit front last back _ _ hanswers => exact ⟨0, refreshId_answers hanswers⟩

theorem refresh_of_reacts {ctx : Context} {now : Env} {event : Event} {written : Value}
    (hreacts : Reacts ctx now event) (hwritten : written ∈ event.written)
    (hrefresh : (refreshId written).isSome = true) :
    ∃ uri content diff, event.cause = .computation uri (some (content, diff)) ∧
      event.written = [publishDiagnostics uri (ctx.diagnostics diff), written] := by
  rw [Reacts] at hreacts
  rcases hcause : event.cause with msg | ⟨uri, served⟩
  · rw [hcause] at hreacts
    obtain ⟨s, -, hdispatch⟩ := hreacts
    have hanswers := dispatch_answers ctx now s msg
    have hnone := List.filterMap_eq_nil_iff.mp (refreshId_answers hanswers) written (by
      rw [hdispatch]
      exact hwritten)
    rw [hnone] at hrefresh
    cases hrefresh
  · rw [hcause] at hreacts
    rw [hreacts.2] at hwritten ⊢
    rcases served with _ | ⟨content, diff⟩
    · cases hwritten
    refine ⟨uri, content, diff, rfl, ?_⟩
    rw [pushes] at hwritten ⊢
    rcases List.mem_cons.mp hwritten with rfl | hlast
    · rw [refreshId_publishDiagnostics] at hrefresh
      cases hrefresh
    · split at hlast
      · rename_i hsupported
        rw [if_pos hsupported, List.mem_singleton.mp hlast]
      · cases hlast

end Refreshes

/-- Every request is answered once and in order, nothing else is, and what the server
asks for itself is numbered from one, in an `i64`; it asks directly behind the diagnostics
of a diff that was computed. -/
theorem session_responds (ctx : Context) (env : Nat → Env) (gitRef wasmDir : String)
    (batches : List (List Value)) :
    Responds false 1 batches (output ((Session.new gitRef wasmDir).run ctx env batches)) ∧
      (∃ count : Nat,
        (output ((Session.new gitRef wasmDir).run ctx env batches)).filterMap refreshId =
            ((List.range count).map fun i : Nat => Value.ofI64 (wrapI64 (1 + i))) ∧
          (count < 2 ^ 63 →
            (output ((Session.new gitRef wasmDir).run ctx env batches)).filterMap refreshId =
              (List.range count).map fun i : Nat => Value.ofI64 (1 + i))) ∧
      ∀ event ∈ ((Session.new gitRef wasmDir).run ctx env batches).trace,
        ∀ written ∈ event.written, (refreshId written).isSome = true →
          ∃ uri content diff, event.cause = .computation uri (some (content, diff)) ∧
            event.written = [publishDiagnostics uri (ctx.diagnostics diff), written] := by
  obtain ⟨written, hwritten, hresponds⟩ :=
    responds_run ctx env batches (Session.new gitRef wasmDir) rfl
  rw [hwritten]
  have hfirst : (Session.new gitRef wasmDir).server.nextServerId = 1 := rfl
  rw [hfirst] at hresponds
  obtain ⟨count, hids⟩ := hresponds.refreshIds rfl
  refine ⟨hresponds, ⟨count, hids, fun hcount => ?_⟩, ?_⟩
  · exact hids.trans (numbered_eq (by decide) (by omega))
  intro event hevent
  obtain ⟨front, -, hreacts⟩ :=
    (recorded_run ctx env gitRef wasmDir batches).explained.of_mem hevent
  exact fun written => refresh_of_reacts hreacts

end IntentumdiffLsp.Responses
