import IntentumdiffLsp.Settling

/-!
What the process has come to when it rests is a function of the messages it has been
sent. No trace is left of the chunks they came in, of the batches, and of the turns that
the threads took.
-/

namespace IntentumdiffLsp.Scheduling

open Foundations
open Foundations.ActionSystem
open Foundations.DerivedView
open IntentumdiffLsp.Json
open IntentumdiffLsp.Codec
open IntentumdiffLsp.RoundTrip
open IntentumdiffLsp.Server
open IntentumdiffLsp.Sessions
open IntentumdiffLsp.Coalescing
open IntentumdiffLsp.Responses
open IntentumdiffLsp.Reading
open IntentumdiffLsp.Process
open IntentumdiffLsp.Serving
open IntentumdiffLsp.Settling

/-- Neither thread can go on without more input. -/
structure AtRest (prog : Program) (p : ServerProcess) : Prop where
  main : Process.step prog p .main = none
  pull : Process.step prog p .pull = none

/-- The documents when the messages have edited them one by one. -/
def edited (messages : List Value) (content : String → Option String) : String → Option String :=
  (messages.filterMap editOf).foldl (fun old edit => edit.write old) content

/-- What the requests for a comparison are answered, each with the documents as the
messages before it have left them. -/
def compared (ctx : Context) (now : Env) (server : ServerState) :
    List Value → (String → Option String) → List (List Value)
  | [], _ => []
  | msg :: rest, content =>
      let here :=
        if methodOf msg = some .semanticDiff then
          [answer msg (semanticDiffRequest ctx now { server with contentCache := content }
            (paramsOf msg)).2]
        else []
      here ++ compared ctx now server rest ((editOf msg).elim id Edit.write content)

/-- The id that is answered, when the message is an answer. -/
def answeredId (written : Value) : Option Value :=
  match written.get "method" with
  | none => written.get "id"
  | some _ => none

def noContent : String → Option String :=
  fun _ => none

/-- The session knows of the documents, and has said, what the messages behind the first
call for. The server is as the first has set it up. -/
structure CaughtUp (ctx : Context) (now : Env) (server : ServerState) (first : Value)
    (messages : List Value) (s : Session) : Prop where
  settings : settings s.server = settings server
  content : s.server.contentCache = edited messages noContent
  diff : ∀ uri, s.server.diffCache uri =
    (edited messages noContent uri).bind (diffOf ctx now server uri)
  pushed : ∀ uri, edited messages noContent uri ≠ none →
    lastPublished s.trace uri = (s.server.diffCache uri).map ctx.diagnostics
  compared : comparisons s.trace = compared ctx now server messages noContent
  answered : (output s).filterMap answeredId = (first :: messages).filterMap requestId

section Answers

theorem answeredId_answers {ids answers : List Value} (h : List.Forall₂ Answers ids answers) :
    answers.filterMap answeredId = ids := by
  induction h with
  | nil => rfl
  | @cons id answer ids answers hanswer _ ih =>
      have hid : answeredId answer = some id := by
        rw [answeredId, hanswer.method]
        exact hanswer.id
      rw [List.filterMap_cons, hid, ih]

theorem answeredId_pushes {supported : Bool} {next next' : Int} {pushed : List Value}
    (h : Pushes supported next pushed next') : pushed.filterMap answeredId = [] := by
  induction h with
  | nil => rfl
  | plain uri diagnostics _ _ ih => exact ih
  | refresh uri diagnostics _ _ ih => exact ih

theorem answeredId_responds {supported : Bool} {next : Int} {batches : List (List Value)}
    {written : List Value} (h : Responds supported next batches written)
    (hexit : ∀ msg ∈ batches.flatten, ¬IsExit msg) :
    written.filterMap answeredId = batches.flatten.filterMap requestId := by
  induction h with
  | nil => rfl
  | @batch batch supported next next' rest answers pushed written _ hanswers hpushes _ ih =>
      have hrest := ih fun msg hmem => hexit msg (List.mem_append_right _ hmem)
      rw [List.flatten_cons, List.filterMap_append, List.filterMap_append, List.filterMap_append,
        answeredId_answers hanswers, answeredId_pushes hpushes, hrest, List.append_nil]
  | @exit front last back supported next rest answers _ hlast =>
      refine absurd hlast (hexit last ?_)
      simp

end Answers

section Sequence

variable {ctx : Context} {now : Env} {server : ServerState}

theorem edited_append_singleton (messages : List Value) (msg : Value)
    (content : String → Option String) :
    edited (messages ++ [msg]) content =
      (editOf msg).elim id Edit.write (edited messages content) := by
  rw [edited, List.filterMap_append, List.foldl_append, List.filterMap_cons]
  rcases editOf msg with _ | edit <;> rfl

theorem comparisons_append_message (trace : List Event) (msg : Value) (found : ServerState)
    (calls : List Call) (written : List Value) :
    comparisons (trace ++ [⟨.message msg, found, calls, written⟩]) = comparisons trace ++
      if methodOf msg = some .semanticDiff then [written] else [] := by
  rw [comparisons, List.filterMap_append]
  apply congrArg
  rw [List.filterMap_cons]
  dsimp only
  split_ifs <;> rfl

theorem written_semanticDiff {msg : Value} (hmethod : methodOf msg = some .semanticDiff)
    (s : Session) : (s.dispatch ctx now msg).2.2 =
      answer msg (semanticDiffRequest ctx now s.server (paramsOf msg)).2 := by
  simp only [Session.dispatch, hmethod]
  split
  · rfl
  · rename_i hid
    rw [answer, Option.not_isSome_iff_eq_none.mp hid]
    rfl

theorem comparisons_handle {s : Session} (hsettings : settings s.server = settings server)
    (hrunning : s.exited = false) (msg : Value) :
    comparisons (s.handle ctx (fun _ => now) msg).trace = comparisons s.trace ++
      if methodOf msg = some .semanticDiff then
        [answer msg (semanticDiffRequest ctx now
          { server with contentCache := s.server.contentCache } (paramsOf msg)).2]
      else [] := by
  have hsame := @semanticDiffRequest_congr ctx now s.server
    { server with contentCache := s.server.contentCache } hsettings rfl (paramsOf msg)
  rw [handle_running hrunning, comparisons_append_message]
  by_cases hmethod : methodOf msg = some .semanticDiff
  · rw [if_pos hmethod, if_pos hmethod, written_semanticDiff hmethod, hsame]
  · rw [if_neg hmethod, if_neg hmethod]

/-- The comparisons are answered in the order of the messages, by what came before. -/
theorem comparisons_messages {messages : List Value} (hquiet : ∀ msg ∈ messages, Quiet msg)
    {s : Session} (hsettings : settings s.server = settings server) (hrunning : s.exited = false) :
    comparisons (messages.foldl (Session.handle ctx fun _ => now) s).trace =
      comparisons s.trace ++ compared ctx now server messages s.server.contentCache := by
  induction messages generalizing s with
  | nil => exact (List.append_nil _).symm
  | cons msg messages ih =>
      have hmsg := hquiet msg List.mem_cons_self
      have hstep : s.handle ctx (fun _ => now) msg = _ := handle_running hrunning msg
      have hsettings' : settings (s.handle ctx (fun _ => now) msg).server = settings server := by
        rw [hstep]
        exact (dispatch_settings hmsg.1).trans hsettings
      have hrunning' : (s.handle ctx (fun _ => now) msg).exited = false := by
        rw [hstep]
        exact (dispatch_running hmsg.2).trans hrunning
      have hcontent : (s.handle ctx (fun _ => now) msg).server.contentCache =
          (editOf msg).elim id Edit.write s.server.contentCache := by
        rw [hstep]
        exact dispatch_content s msg
      have hrest := ih (fun m hm => hquiet m (List.mem_cons_of_mem _ hm)) hsettings' hrunning'
      rw [List.foldl_cons, hrest, hcontent, comparisons_handle hsettings hrunning,
        List.append_assoc]
      rfl

variable {gitRef wasmDir : String} {first : Value} {messages : List Value}
  {batches : List (List Value)}

theorem comparisons_run (hfirst : methodOf first = some .initializeRequest)
    (hquiet : ∀ msg ∈ messages, Quiet msg) (hflatten : batches.flatten = first :: messages) :
    comparisons ((Session.new gitRef wasmDir).run ctx (fun _ => now) batches).trace =
      compared ctx now (started ctx now gitRef wasmDir first).server messages noContent := by
  have hfront := @front_run ctx now (Session.new gitRef wasmDir) batches
  rw [hflatten, List.foldl_cons] at hfront
  simp only [front, Prod.mk.injEq] at hfront
  have hstart := (@refines_started ctx now gitRef wasmDir first hfirst).1
  have hsilent : comparisons (started ctx now gitRef wasmDir first).trace = [] := by
    rw [started, handle_running rfl, comparisons_append_message, if_neg (by simp [hfirst])]
    rfl
  have hcontent : (started ctx now gitRef wasmDir first).server.contentCache = noContent :=
    congrArg Store.content hstart.shows
  rw [hfront.2.2.1]
  refine (comparisons_messages hquiet rfl hstart.running).trans ?_
  rw [hsilent, hcontent, List.nil_append]

end Sequence

section Rest

variable {prog : Program} {p : ServerProcess}

theorem running_run (ctx : Context) (env : Nat → Env) {batches : List (List Value)}
    (hexit : ∀ msg ∈ batches.flatten, ¬IsExit msg) {s : Session} (hrunning : s.exited = false) :
    (s.run ctx env batches).exited = false := by
  induction batches generalizing s with
  | nil => exact hrunning
  | cons batch batches ih =>
      apply ih fun msg hmem => hexit msg (List.mem_append_right _ hmem)
      have hhandled := (messages_answers ctx env batch
        (fun msg hmem => hexit msg (List.mem_append_left _ hmem)) { s with dirty := [] } hrunning).1
      have hprocess : s.processBatch ctx env batch = _ := if_neg (by simp [hhandled])
      rw [hprocess]
      exact (computations_push ctx env _ _).1.trans hhandled

/-- Without an exit the process rests behind the last message of what it has read. -/
theorem AtRest.served (h : AtRest prog p) (hp : (process prog).Reachable p)
    (hexit : ∀ msg ∈ framesOf prog.serde prog.bits p.loop.received, ¬IsExit msg) :
    p.session = served prog p.batches ∧
      p.batches.flatten = framesOf prog.serde prog.bits p.loop.received := by
  have hs := accounts_of_reachable hp
  have htaken : p.batches.flatten <+: framesOf prog.serde prog.bits p.loop.received := by
    obtain ⟨events, hpulled, hsent⟩ := hs.pulled
    exact (hs.taken.trans hsent.isPrefix).trans hpulled.frames_isPrefix
  have hrunning : (Serving.served prog p.batches).exited = false :=
    running_run prog.ctx prog.env (fun msg hmem => hexit msg (htaken.subset hmem)) rfl
  have hover : isOver p.main = true → p.session = Serving.served prog p.batches →
      p.reader = .returned ∧
        p.batches.flatten = framesOf prog.serde prog.bits p.loop.received := by
    intro hover hsession
    refine (hs.finished hover).resolve_left ?_
    rw [hsession, hrunning]
    exact Bool.false_ne_true
  have hstands := hs.stands
  rcases mainStep_eq_none h.main with ⟨hmain, hchannel, hreader⟩ | ⟨hmain, hreader⟩ | hmain
  · rw [hmain] at hstands
    exact ⟨hstands.1, flatten_of_idle hs (pull_eq_none h.pull hreader) hmain hchannel⟩
  · rw [hmain] at hstands hover
    cases hreader.symm.trans (hover rfl hstands).1
  · rw [hmain] at hstands hover
    exact ⟨hstands, (hover rfl hstands).2⟩

theorem AtRest.caughtUp {now : Env} {first : Value} {messages : List Value}
    (h : AtRest prog p) (henv : prog.env = fun _ => now) (hp : (process prog).Reachable p)
    (hframes : framesOf prog.serde prog.bits p.loop.received = first :: messages)
    (hfirst : methodOf first = some .initializeRequest) (hquiet : ∀ msg ∈ messages, Quiet msg)
    (hengine : NeverFallsBack prog.ctx now) :
    CaughtUp prog.ctx now (started prog.ctx now prog.gitRef prog.wasmDir first).server first
      messages p.session := by
  have hexit : ∀ msg ∈ first :: messages, ¬IsExit msg := by
    refine List.forall_mem_cons.mpr ⟨?_, fun msg hmem => ?_⟩
    · rw [isExit_iff, hfirst]
      nofun
    · rw [isExit_iff]
      exact (hquiet msg hmem).2
  obtain ⟨hsession, hflatten⟩ := h.served hp (by rwa [hframes])
  rw [hframes] at hflatten
  have hnonempty := (accounts_of_reachable hp).nonempty
  rw [hsession, Serving.served, henv]
  generalize p.batches = batches at hflatten hnonempty
  -- The run refines the library's batches with the settings of the first message.
  obtain ⟨edits, hedits, hrefines⟩ := refines_run prog.ctx now prog.gitRef prog.wasmDir hfirst
    hquiet hnonempty hflatten
  have hsynced := (@synced_noDocuments prog.ctx now
    (started prog.ctx now prog.gitRef prog.wasmDir first).server).batches hengine.uniform edits
  have hcontent : ((Session.new prog.gitRef prog.wasmDir).run prog.ctx (fun _ => now)
      batches).server.contentCache = edited messages noContent := by
    rw [edited, ← hedits]
    exact (congrArg Store.content hrefines.shows).trans (Store.batches_content _ edits)
  rw [← hrefines.shows] at hsynced
  refine ⟨hrefines.settings, hcontent, fun uri => ?_, fun uri hopen => ?_,
    comparisons_run hfirst hquiet hflatten, ?_⟩
  · rw [← hcontent]
    exact hsynced.view uri List.not_mem_nil
  · rw [← hcontent] at hopen
    exact hsynced.published uri List.not_mem_nil hopen
  · obtain ⟨written, hwritten, hresponds⟩ :=
      responds_run prog.ctx (fun _ => now) batches (.new prog.gitRef prog.wasmDir) rfl
    rw [← hflatten] at hexit ⊢
    rw [hwritten]
    exact answeredId_responds hresponds hexit

end Rest

/-- However the bytes were cut and the threads took turns, the process at rest has
brought every open document up to date with the messages it has been sent, and has
answered them in their order. -/
theorem rest_caughtUp (prog : Program) (now : Env) (p : ServerProcess) (first : Value)
    (messages : List Value) (henv : prog.env = fun _ => now) (hp : (process prog).Reachable p)
    (hrest : AtRest prog p)
    (hframes : framesOf prog.serde prog.bits p.loop.received = first :: messages)
    (hfirst : methodOf first = some .initializeRequest) (hquiet : ∀ msg ∈ messages, Quiet msg)
    (hengine : NeverFallsBack prog.ctx now) :
    CaughtUp prog.ctx now (started prog.ctx now prog.gitRef prog.wasmDir first).server first
      messages p.session :=
  hrest.caughtUp henv hp hframes hfirst hquiet hengine

section Sample

def rootMessage : Value :=
  rootedAt "file:///ws"

def openMessage : Value :=
  opening "file:///ws/a" "text"

/-- JSON cut down to two messages. -/
def twoMessages : SerdeJson where
  toString msg := if methodOf msg = some .initializeRequest then "root" else "open"
  fromSlice body :=
    if body = Utf8.encode "root".toList then some rootMessage
    else if body = Utf8.encode "open".toList then some openMessage
    else none
  toString_size msg := by split <;> decide
  fromSlice_empty := rfl

theorem rootMessage_deliverable : Deliverable twoMessages rootMessage := by
  constructor
  · rfl
  · show (Utf8.encode "root".toList).length ≤ maxBodyBytes
    decide

theorem openMessage_deliverable : Deliverable twoMessages openMessage := by
  constructor
  · rfl
  · show (Utf8.encode "open".toList).length ≤ maxBodyBytes
    decide

def openProgram : Program :=
  { exitProgram with serde := twoMessages }

def bothMessages : List UInt8 :=
  encodeMessage twoMessages rootMessage ++ encodeMessage twoMessages openMessage

/-- The process that has read both messages. -/
def bothRead : ServerProcess :=
  { openProgram.started with loop := ReadLoop.new.feed bothMessages }

/-- The reader thread has sent the first of them. -/
def rootSent : ServerProcess :=
  { bothRead with
    loop := { bothRead.loop with
      decoder := FrameDecoder.new.feed (encodeMessage twoMessages openMessage) }
    channel := [rootMessage]
    sent := [rootMessage] }

/-- The main loop is in the batch of the first message. -/
def rootHandled : ServerProcess :=
  ((process openProgram).play rootSent [.main, .main, .main]).getD rootSent

/-- The reader thread has sent the second message behind this batch. -/
def openSent : ServerProcess :=
  { rootHandled with
    loop := { rootHandled.loop with decoder := FrameDecoder.new }
    channel := [openMessage]
    sent := [rootMessage, openMessage] }

/-- The main loop waits for more behind a batch for each message. -/
def openHandled : ServerProcess :=
  ((process openProgram).play openSent (List.replicate 8 .main)).getD openSent

def openRest : ServerProcess :=
  { openHandled with loop := { openHandled.loop with pulling := false } }

def openActions : List Action :=
  .read bothMessages :: .pull :: ([.main, .main, .main] ++
    .pull :: (List.replicate 8 .main ++ [.pull]))

theorem openActions_run :
    (process openProgram).Run Anything openProgram.started openActions openRest := by
  have hread : (process openProgram).step openProgram.started (.read bothMessages) =
      some bothRead := rfl
  have hfirst : (process openProgram).step bothRead .pull = some rootSent := by
    have hpull : bothRead.loop.pull openProgram.serde openProgram.bits =
        (.ok (some (.frame rootMessage)), rootSent.loop) :=
      pull_message rootMessage_deliverable rfl
    show some (bothRead.pulled openProgram) = _
    rw [ServerProcess.pulled, hpull]
    rfl
  have hroot : (process openProgram).play rootSent [.main, .main, .main] = some rootHandled := rfl
  have hsecond : (process openProgram).step rootHandled .pull = some openSent := by
    have hpull : rootHandled.loop.pull openProgram.serde openProgram.bits =
        (.ok (some (.frame openMessage)), openSent.loop) := by
      apply pull_message openMessage_deliverable
      rw [List.append_nil]
      rfl
    show some (rootHandled.pulled openProgram) = _
    rw [ServerProcess.pulled, hpull]
    rfl
  have hopen : (process openProgram).play openSent (List.replicate 8 .main) =
      some openHandled := rfl
  have hlast : (process openProgram).step openHandled .pull = some openRest := by
    have hpull : openHandled.loop.pull openProgram.serde openProgram.bits =
        (.ok none, openRest.loop) := pull_nothing rfl
    show some (openHandled.pulled openProgram) = _
    rw [ServerProcess.pulled, hpull]
    rfl
  exact .cons trivial hread (.cons trivial hfirst ((run_of_play hroot).append
    (.cons trivial hsecond ((run_of_play hopen).append (.cons trivial hlast .start)))))

theorem openRest_frames :
    framesOf twoMessages 64 openRest.loop.received = [rootMessage, openMessage] :=
  (flatten_of_idle (accounts_of_reachable openActions_run.reachable) rfl rfl rfl).symm

theorem rest_caughtUp_open :
    CaughtUp echo echoEnv (started echo echoEnv "HEAD" "plugins" rootMessage).server rootMessage
      [openMessage] openRest.session := by
  have hquiet : ∀ msg ∈ [openMessage], Quiet msg := by
    unfold Quiet
    decide +kernel
  exact rest_caughtUp openProgram echoEnv openRest rootMessage [openMessage] rfl
    openActions_run.reachable ⟨rfl, rfl⟩ openRest_frames rfl hquiet echo_neverFallsBack

end Sample

end IntentumdiffLsp.Scheduling
