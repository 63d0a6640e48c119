import IntentumdiffLsp.Configuration
import IntentumdiffLsp.Enrich
import IntentumdiffLsp.Lifecycle
import IntentumdiffLsp.Quiescence

/-!
What the server has of a document is what the client has opened: at any time as it was
behind some of the calls, and at rest behind all of them.
-/

namespace IntentumdiffLsp.Mirroring

open Foundations
open Foundations.ActionSystem
open Foundations.DerivedView
open Foundations.Journal
open IntentumdiffLsp.Json
open IntentumdiffLsp.Codec
open IntentumdiffLsp.UriPath
open IntentumdiffLsp.Client
open IntentumdiffLsp.Wire
open IntentumdiffLsp.RoundTrip
open IntentumdiffLsp.Server
open IntentumdiffLsp.Sessions
open IntentumdiffLsp.Coalescing
open IntentumdiffLsp.Reading
open IntentumdiffLsp.Process
open IntentumdiffLsp.Scheduling
open IntentumdiffLsp.Answering
open IntentumdiffLsp.Configuration
open IntentumdiffLsp.Connection
open IntentumdiffLsp.Conversation
open IntentumdiffLsp.EndToEnd
open IntentumdiffLsp.Lifecycle

/-- What can be asked of a connected client. -/
inductive Use where
  | didOpen (uri languageId text : String)
  | didClose (uri : String)
  | hover (uri : String) (line col : UInt32)

def Use.call : Use → Client.Call
  | .didOpen uri languageId text => Enrich.didOpen uri languageId text
  | .didClose uri => Enrich.didClose uri
  | .hover uri line col => Enrich.hover uri line col

/-- What becomes of the open documents. -/
def Use.edit : Use → Option (Edit String String)
  | .didOpen uri _ text => some (.put uri text)
  | .didClose uri => some (.remove uri)
  | .hover .. => none

/-- The calls of a client over its life are the handshake, its uses, and the end. -/
structure Editor where
  launch : Launch
  uses : List Use
  calls : launch.calls = uses.map Use.call

/-- An editor and the server that it talks to. -/
def Editor.setting (e : Editor) (ctx : Context) (env : Nat → Env) (gitRef wasmDir : String) :
    Setting where
  serde := e.launch.serde
  debugStr := e.launch.debugStr
  timeout := e.launch.timeout
  calls := e.launch.session.calls
  ctx := ctx
  env := env
  gitRef := gitRef
  wasmDir := wasmDir

/-- The use that a call is for. -/
def Editor.useOf (e : Editor) : Nat → Option Use
  | i + 4 => e.uses[i]?
  | _ => none

def Editor.writes (e : Editor) (c : Nat) (uri : String) : Option (Option String) :=
  ((e.useOf c).bind Use.edit).bind fun edit => edit.contentEntry uri

/-- The documents that are open behind these calls, with their texts. -/
def Editor.openDocuments (e : Editor) (calls : List Nat) : String → Option String :=
  replay e.writes calls

/-- How many messages have been handled. -/
def handledCount (trace : List Server.Event) : Nat :=
  (trace.filterMap fun event => messageOf event.cause).length

/-- The server has the root that the client was launched with, and of every document what
these calls have left open: its text, the engine's diff of it, and the diagnostics of
that diff as the last that were published. -/
structure Mirrored (e : Editor) (ctx : Context) (now : Env) (calls : List Nat)
    (s : Server.Session) : Prop where
  root : s.server.root = (uriToPath ctx.host e.launch.rootUri none).toOption
  config : s.server.configJson = (s.server.root.bind (configOf now)).getD "\x7b\x7d"
  content : s.server.contentCache = e.openDocuments calls
  diff : ∀ uri, s.server.diffCache uri =
    (e.openDocuments calls uri).bind (diffOf ctx now s.server uri)
  pushed : ∀ uri, e.openDocuments calls uri ≠ none →
    lastPublished s.trace uri = (s.server.diffCache uri).map ctx.diagnostics

def messageWrite (msg : Value) (uri : String) : Option (Option String) :=
  (editOf msg).bind fun edit => edit.contentEntry uri

section Messages

variable {e : Editor} {t : LspClient}

theorem calls_useOf (e : Editor) (i : Nat) :
    e.launch.session.calls (i + 4) =
      ((e.useOf (i + 4)).map Use.call).getD (.notification "" .null) := by
  show (e.launch.calls[i]?).getD _ = _
  rw [e.calls, List.getElem?_map]
  rfl

/-- A use edits the documents of the server as it edits those of the client. -/
theorem editOf_message (e : Editor) (t : LspClient) (c : Nat) :
    editOf (t.message e.launch.session c) = (e.useOf c).bind Use.edit := by
  rcases c with _ | _ | _ | _ | i
  · rfl
  · rfl
  · rfl
  · rfl
  · rw [LspClient.message, calls_useOf]
    generalize e.useOf (i + 4) = use
    rcases use with _ | use
    · rfl
    · cases use with
      | didOpen | didClose | hover => rfl

/-- Only the handshake initializes, and only the end exits. -/
theorem quiet_message {c : Nat} (hfirst : c ≠ initializeCall) (hlast : c ≠ exitCall) :
    Quiet (t.message e.launch.session c) := by
  have hmethod : ∃ method, methodOf (t.message e.launch.session c) = method ∧
      method ≠ some .initializeRequest ∧ method ≠ some .exit := by
    rcases c with _ | _ | _ | _ | i
    · exact absurd rfl hfirst
    · exact ⟨some .initialized, rfl, by decide, by decide⟩
    · exact ⟨some .shutdown, rfl, by decide, by decide⟩
    · exact absurd rfl hlast
    · rw [LspClient.message, calls_useOf]
      generalize e.useOf (i + 4) = use
      rcases use with _ | use
      · exact ⟨none, rfl, by decide, by decide⟩
      · cases use with
        | didOpen => exact ⟨some .didOpen, rfl, by decide, by decide⟩
        | didClose => exact ⟨some .didClose, rfl, by decide, by decide⟩
        | hover => exact ⟨some (.unknown "textDocument/hover"), rfl, by decide, by decide⟩
  obtain ⟨method, hmethod, hquiet⟩ := hmethod
  rw [Quiet, hmethod]
  exact hquiet

theorem replay_messages (e : Editor) (t : LspClient) (calls : List Nat) :
    replay messageWrite (calls.map (t.message e.launch.session)) = e.openDocuments calls := by
  funext uri
  rw [replay_map, Editor.openDocuments]
  apply congrArg fun write => replay write calls uri
  funext c uri
  rw [messageWrite, editOf_message]
  rfl

end Messages

section Documents

theorem replay_trace (trace : List Server.Event) :
    replay contentWrite trace =
      replay messageWrite (trace.filterMap fun event => messageOf event.cause) := by
  funext uri
  rw [replay_filterMap]
  apply congrArg fun write => replay write trace uri
  funext event uri
  rcases event with ⟨msg | ⟨uri', served⟩, found, calls, written⟩ <;> rfl

theorem edited_eq (messages : List Value) :
    edited messages noContent = replay messageWrite messages := by
  funext uri
  induction messages using List.reverseRecOn with
  | nil => rfl
  | append_singleton messages msg ih =>
      rw [edited_append_singleton, replay_append_singleton, ← ih, messageWrite]
      rcases editOf msg with _ | edit
      · rfl
      · exact edit.write_eq (edited messages noContent) uri

end Documents

section Mirror

variable {e : Editor} {ctx : Context} {env : Nat → Env} {now : Env} {gitRef wasmDir : String}
  {s : Peers} {complete : List Nat}

theorem openDocuments_of_prefix {t : LspClient} {known : List Value}
    (h : known <+: complete.map (t.message e.launch.session)) :
    replay messageWrite known = e.openDocuments (complete.take known.length) := by
  have hknown : known = (complete.take known.length).map (t.message e.launch.session) := by
    rw [List.map_take]
    exact List.prefix_iff_eq_take.mp h
  rw [← replay_messages e t, ← hknown]

theorem settings_started {first : Value} (hfirst : methodOf first = some .initializeRequest) :
    let root := (rootUri (paramsOf first)).bind fun uri => (uriToPath ctx.host uri none).toOption
    settings (started ctx now gitRef wasmDir first).server =
      ⟨root, gitRef, (root.bind (configOf now)).getD "\x7b\x7d", wasmDir⟩ := by
  have hserver : (started ctx now gitRef wasmDir first).server =
      initializeServer ctx now (.new gitRef wasmDir) (paramsOf first) := by
    rw [started, handle_running rfl]
    simp only [Session.dispatch, hfirst]
    rfl
  rw [hserver]
  have hsettings := (initializeServer_eq ctx now (.new gitRef wasmDir) (paramsOf first)).1
  refine hsettings.trans ?_
  rw [show (ServerState.new gitRef wasmDir).root = none from rfl, Option.or_none]
  rfl

/-- At rest every frame on the wire has been handled. -/
theorem mirrored_of_rest {calls : List Nat}
    (hjoined : Joined (e.setting ctx (fun _ => now) gitRef wasmDir) s s.client.client)
    (hdeliverable : ∀ c, 0 < s.client.client.accepted c →
      Deliverable e.launch.serde (s.client.client.message e.launch.session c))
    (hframed : Framed e.launch.session s.client.client (initializeCall :: calls))
    (hengine : NeverFallsBack ctx now)
    (hrest : AtRest (e.setting ctx (fun _ => now) gitRef wasmDir).program s.server)
    (hread : s.server.loop.received = s.client.client.wire) (hexit : exitCall ∉ calls) :
    Mirrored e ctx now calls s.server.session := by
  let message := s.client.client.message e.launch.session
  have hframes : framesOf e.launch.serde 64 s.server.loop.received =
      message initializeCall :: calls.map message := by
    rw [hread]
    exact framesOf_wire hframed hdeliverable
  have hquiet : ∀ msg ∈ calls.map message, Quiet msg := by
    rw [List.forall_mem_map]
    intro c hc
    apply quiet_message
    · rintro rfl
      exact (List.nodup_cons.mp hframed.nodup).1 hc
    · rintro rfl
      exact hexit hc
  have hcaught := hrest.caughtUp rfl hjoined.server hframes rfl hquiet hengine
  have hcontent : edited (calls.map message) noContent = e.openDocuments calls := by
    rw [edited_eq]
    exact replay_messages e s.client.client calls
  have hsettings := hcaught.settings.trans (settings_started rfl)
  simp only [settings, Settings.mk.injEq] at hsettings
  obtain ⟨hroot, -, hconfig, -⟩ := hsettings
  refine ⟨hroot, ?_, hcaught.content.trans hcontent, ?_, ?_⟩
  · rw [hconfig, hroot]
  · intro uri
    rw [hcaught.diff uri, hcontent, diffOf_congr hcaught.settings]
    rfl
  · rw [← hcontent]
    exact hcaught.pushed

end Mirror

/-- The client and its server, with any turns and any cuts: the documents of the server
are those that the client had open behind the calls whose messages have been handled,
when anything is compared as well, and at rest everything the server knows and has said of
the documents is up to date with all calls. -/
theorem conversation_mirrors (e : Editor) (ctx : Context) (env : Nat → Env)
    (gitRef wasmDir : String) (actions : List Conversation.Action) (s : Peers)
    (hrun : (conversation (e.setting ctx env gitRef wasmDir)).Run
      (IntactCall (e.setting ctx env gitRef wasmDir))
      (conversation (e.setting ctx env gitRef wasmDir)).init actions s)
    (hdeliverable : ∀ c, 0 < s.client.client.accepted c →
      Deliverable e.launch.serde (s.client.client.message e.launch.session c))
    (complete : List Nat) (hframed : Framed e.launch.session s.client.client complete) :
    s.server.session.server.contentCache =
        e.openDocuments (complete.take (handledCount s.server.session.trace)) ∧
      (∀ front event back, s.server.session.trace = front ++ event :: back →
        event.found.contentCache = e.openDocuments (complete.take (handledCount front))) ∧
      (∀ now calls, env = (fun _ => now) → NeverFallsBack ctx now →
        AtRest (e.setting ctx env gitRef wasmDir).program s.server →
        s.server.loop.received = s.client.client.wire → complete = initializeCall :: calls →
        exitCall ∉ calls → Mirrored e ctx now calls s.server.session) := by
  obtain ⟨hjoined, -⟩ := framed_of_conversation hrun
  have hhandled := handled_isPrefix hjoined hdeliverable hframed
  have hrecorded := recorded_of_reachable hjoined.server
  refine ⟨?_, ?_, ?_⟩
  · rw [hrecorded.follows.content, replay_trace]
    exact openDocuments_of_prefix hhandled
  · intro front event back hsplit
    rw [(hrecorded.explained front event back hsplit).1.content, replay_trace]
    apply openDocuments_of_prefix
    refine List.IsPrefix.trans ?_ hhandled
    rw [handledIn, hsplit, List.filterMap_append]
    exact List.prefix_append _ _
  · rintro now calls rfl hengine hrest hread rfl hexit
    exact mirrored_of_rest hjoined hdeliverable hframed hengine hrest hread hexit

section Sample

def greetingMessage : Value :=
  request "initialize" (initializeParams 1 "file:///ws") 1

def openedMessage : Value :=
  notification "textDocument/didOpen" (.object [("textDocument", .object
    [("uri", .string "file:///ws/a"), ("languageId", .string "plaintext"),
      ("version", .number (.posInt 1)), ("text", .string "text")])])

/-- JSON cut down to the two messages. -/
def editorJson : SerdeJson where
  toString msg := if methodOf msg = some .initializeRequest then "init" else "file"
  fromSlice body :=
    if body = Utf8.encode "init".toList then some greetingMessage
    else if body = Utf8.encode "file".toList then some openedMessage
    else none
  toString_size msg := by split <;> decide
  fromSlice_empty := rfl

/-- A client that opens one document. -/
def openingEditor : Editor where
  launch :=
    { serde := editorJson
      debugStr := shutdownCalls.debugStr
      timeout := "10s"
      processId := 1
      rootUri := "file:///ws"
      spawned := false
      calls := [Enrich.didOpen "file:///ws/a" "plaintext" "text"] }
  uses := [.didOpen "file:///ws/a" "plaintext" "text"]
  calls := rfl

def openingSetting : Setting :=
  openingEditor.setting echo (fun _ => echoEnv) "HEAD" "plugins"

theorem greetingMessage_deliverable : Deliverable editorJson greetingMessage := by
  constructor
  · rfl
  · show (Utf8.encode "init".toList).length ≤ maxBodyBytes
    decide

theorem openedMessage_deliverable : Deliverable editorJson openedMessage := by
  constructor
  · rfl
  · show (Utf8.encode "file".toList).length ≤ maxBodyBytes
    decide

def greetActions : List Conversation.Action :=
  [.client (.call (.takeId 0)), .client (.call (.register 0)), .client (.call (.lock 0))]

/-- The client is about to write `initialize`. -/
def greetingPeers : Peers :=
  ((conversation openingSetting).play (conversation openingSetting).init greetActions).getD
    (conversation openingSetting).init

def openActions : List Conversation.Action :=
  [.client (.call (.flushed 0)), .client (.call (.notify 4)), .client (.call (.lock 4))]

/-- It has written it, and is about to write `didOpen`. -/
def openingPeers : Peers :=
  ((conversation openingSetting).play greetingPeers
    (.client (.call (.accept 0 25)) :: openActions)).getD greetingPeers

def readActions : List Conversation.Action :=
  [.client (.call (.flushed 4)), .serverReads 50]

/-- The server has read both messages. -/
def readPeers : Peers :=
  ((conversation openingSetting).play openingPeers
    (.client (.call (.accept 4 25)) :: readActions)).getD openingPeers

/-- Its reader thread has sent the first of them. -/
def greetedPeers : Peers :=
  { readPeers with
    server := { readPeers.server with
      loop := { readPeers.server.loop with
        decoder := FrameDecoder.new.feed (encodeMessage editorJson openedMessage)
        pulling := true }
      channel := [greetingMessage]
      sent := [greetingMessage] } }

def initializedPeers : Peers :=
  ((conversation openingSetting).play greetedPeers (List.replicate 3 (.server .main))).getD
    greetedPeers

/-- And the second behind the batch of the first. -/
def openedPeers : Peers :=
  { initializedPeers with
    server := { initializedPeers.server with
      loop := { initializedPeers.server.loop with
        decoder := FrameDecoder.new.feed []
        pulling := true }
      channel := [openedMessage]
      sent := [greetingMessage, openedMessage] } }

def comparedPeers : Peers :=
  ((conversation openingSetting).play openedPeers (List.replicate 8 (.server .main))).getD
    openedPeers

/-- The server rests. -/
def mirroredPeers : Peers :=
  { comparedPeers with
    server := { comparedPeers.server with
      loop := { comparedPeers.server.loop with pulling := false } } }

theorem intact_at_openingPeers (a : Conversation.Action) :
    IntactCall openingSetting openingPeers a := by
  intro b _ c n _ c' htorn
  match c' with
  | 0 => exact absurd htorn.1.2 (by decide)
  | c' + 1 => exact absurd htorn.1.1 (Nat.lt_irrefl 0)

theorem intact_at_greetingPeers (a : Conversation.Action) :
    IntactCall openingSetting greetingPeers a := by
  intro b _ c n _ c' htorn
  exact absurd htorn.1.1 (Nat.lt_irrefl 0)

theorem greetedPeers_step :
    (conversation openingSetting).step readPeers (.server .pull) = some greetedPeers := by
  have hpull : readPeers.server.loop.pull openingSetting.program.serde
      openingSetting.program.bits =
        (.ok (some (.frame greetingMessage)), greetedPeers.server.loop) :=
    pull_message greetingMessage_deliverable rfl
  show (some (readPeers.server.pulled openingSetting.program)).map _ = _
  rw [ServerProcess.pulled, hpull]
  rfl

theorem openedPeers_step :
    (conversation openingSetting).step initializedPeers (.server .pull) = some openedPeers := by
  have hpull : initializedPeers.server.loop.pull openingSetting.program.serde
      openingSetting.program.bits =
        (.ok (some (.frame openedMessage)), openedPeers.server.loop) := by
    apply pull_message openedMessage_deliverable
    rw [List.append_nil]
    rfl
  show (some (initializedPeers.server.pulled openingSetting.program)).map _ = _
  rw [ServerProcess.pulled, hpull]
  rfl

theorem mirroredPeers_step :
    (conversation openingSetting).step comparedPeers (.server .pull) = some mirroredPeers := by
  have hpull : comparedPeers.server.loop.pull openingSetting.program.serde
      openingSetting.program.bits = (.ok none, mirroredPeers.server.loop) := pull_nothing rfl
  show (some (comparedPeers.server.pulled openingSetting.program)).map _ = _
  rw [ServerProcess.pulled, hpull]
  rfl

def mirrorActions : List Conversation.Action :=
  greetActions ++ (.client (.call (.accept 0 25)) :: (openActions ++
    .client (.call (.accept 4 25)) :: (readActions ++ .server .pull ::
      (List.replicate 3 (.server .main) ++ .server .pull ::
        (List.replicate 8 (.server .main) ++ [.server .pull])))))

theorem mirrorActions_run : (conversation openingSetting).Run (IntactCall openingSetting)
    (conversation openingSetting).init mirrorActions mirroredPeers := by
  have hserver : ∀ (a : Process.Action) (s : Peers),
      IntactCall openingSetting s (.server a) := fun a s b hb => nomatch hb
  have hgreet : (conversation openingSetting).Run (IntactCall openingSetting)
      (conversation openingSetting).init greetActions greetingPeers := by
    apply (run_of_play rfl).meeting
    simp [greetActions, intactCall_of_callsOf, callsOf, callOf]
  have hgreeted : ∃ s, (conversation openingSetting).step greetingPeers
      (.client (.call (.accept 0 25))) = some s ∧
        (conversation openingSetting).play s openActions = some openingPeers := ⟨_, rfl, rfl⟩
  obtain ⟨greeted, hfirst, hopen⟩ := hgreeted
  have hopening : (conversation openingSetting).Run (IntactCall openingSetting)
      greeted openActions openingPeers := by
    apply (run_of_play hopen).meeting
    simp [openActions, intactCall_of_callsOf, callsOf, callOf]
  have hopened : ∃ s, (conversation openingSetting).step openingPeers
      (.client (.call (.accept 4 25))) = some s ∧
        (conversation openingSetting).play s readActions = some readPeers := ⟨_, rfl, rfl⟩
  obtain ⟨opened, hsecond, hread⟩ := hopened
  have hreading : (conversation openingSetting).Run (IntactCall openingSetting)
      opened readActions readPeers := by
    apply (run_of_play hread).meeting
    simp [readActions, intactCall_of_callsOf, callsOf, callOf]
  have hinitialized : (conversation openingSetting).Run (IntactCall openingSetting)
      greetedPeers (List.replicate 3 (.server .main)) initializedPeers := by
    apply (run_of_play rfl).meeting
    simp [hserver]
  have hcompared : (conversation openingSetting).Run (IntactCall openingSetting)
      openedPeers (List.replicate 8 (.server .main)) comparedPeers := by
    apply (run_of_play rfl).meeting
    simp [hserver]
  have hlast := hcompared.append (.cons (hserver _ _) mirroredPeers_step .start)
  have hback := hinitialized.append (.cons (hserver _ _) openedPeers_step hlast)
  have hmiddle := hreading.append (.cons (hserver _ _) greetedPeers_step hback)
  have hfront := hopening.append (.cons (intact_at_openingPeers _) hsecond hmiddle)
  exact hgreet.append (.cons (intact_at_greetingPeers _) hfirst hfront)

theorem mirroredPeers_deliverable (c : Nat)
    (haccepted : 0 < mirroredPeers.client.client.accepted c) :
    Deliverable editorJson (mirroredPeers.client.client.message openingSetting.session c) := by
  match c with
  | 0 => exact greetingMessage_deliverable
  | 4 => exact openedMessage_deliverable
  | 1 | 2 | 3 | c + 5 => exact absurd haccepted (Nat.lt_irrefl 0)

theorem mirroredPeers_written (c : Nat) :
    mirroredPeers.client.client.accepted c =
      if c ∈ [0, 4] then
        (mirroredPeers.client.client.frame openingSetting.session c).length
      else 0 := by
  match c with
  | 0 | 1 | 2 | 3 | 4 => rfl
  | c + 5 =>
      have hother : c + 5 ∉ [0, 4] := by simp
      rw [if_neg hother]
      rfl

theorem mirroredPeers_framed :
    Framed openingSetting.session mirroredPeers.client.client [0, 4] := by
  have hwhole : ∀ c, ¬PartlyWritten openingSetting.session mirroredPeers.client.client c := by
    rintro c ⟨hpos, hless⟩
    rw [mirroredPeers_written] at hpos hless
    split at hpos
    · rename_i hmem
      rw [if_pos hmem] at hless
      exact Nat.lt_irrefl _ hless
    · exact Nat.lt_irrefl 0 hpos
  refine ⟨by decide, fun c => ?_, fun c _ h => absurd h (hwhole c), fun _ => rfl,
    fun c h => absurd h (hwhole c)⟩
  have hlength := frame_pos openingSetting.session mirroredPeers.client.client c
  rw [mirroredPeers_written]
  split
  · rename_i hmem
    exact ⟨fun _ => rfl, fun _ => hmem⟩
  · rename_i hother
    refine ⟨fun hmem => absurd hmem hother, fun hzero => ?_⟩
    rw [← hzero] at hlength
    exact absurd hlength (Nat.lt_irrefl 0)

theorem conversation_mirrors_opening :
    Mirrored openingEditor echo echoEnv [4] mirroredPeers.server.session ∧
      openingEditor.openDocuments [4] "file:///ws/a" = some "text" := by
  refine ⟨?_, rfl⟩
  exact (conversation_mirrors openingEditor echo (fun _ => echoEnv) "HEAD" "plugins" mirrorActions
    mirroredPeers mirrorActions_run mirroredPeers_deliverable [0, 4] mirroredPeers_framed).2.2
      echoEnv [4] rfl echo_neverFallsBack ⟨rfl, rfl⟩ rfl rfl (by decide)

end Sample

end IntentumdiffLsp.Mirroring
