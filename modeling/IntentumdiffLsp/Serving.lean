import IntentumdiffLsp.Process

/-!
What the process serves: whatever the threads do, the messages in the bytes it has
read are handled in their order, none is lost and none is handled twice.
-/

namespace IntentumdiffLsp.Serving

open Foundations
open Foundations.ActionSystem
open IntentumdiffLsp.Json
open IntentumdiffLsp.Codec
open IntentumdiffLsp.RoundTrip
open IntentumdiffLsp.Server
open IntentumdiffLsp.Responses
open IntentumdiffLsp.Reading
open IntentumdiffLsp.Process

/-- The session after the batches. -/
def served (prog : Program) (batches : List (List Value)) : Session :=
  (Session.new prog.gitRef prog.wasmDir).run prog.ctx prog.env batches

/-- The session after the first messages of one more batch. -/
def afterFront (prog : Program) (batches : List (List Value)) (front : List Value) : Session :=
  front.foldl (Session.handle prog.ctx prog.env) { served prog batches with dirty := [] }

/-- Where the session stands in the last of the batches. -/
def Stands (prog : Program) (batches : List (List Value)) (session : Session) : MainLoop → Prop
  | .receiving | .collecting _ => session = served prog batches ∧ session.exited = false
  | .handling rest => ∃ before front, batches = before ++ [front ++ rest] ∧
      session = afterFront prog before front ∧ session.exited = false
  | .computing rest => ∃ before batch front, batches = before ++ [batch] ∧
      (afterFront prog before batch).exited = false ∧
      (afterFront prog before batch).dirty = front ++ rest ∧
      session = front.foldl (Session.computeAndPush prog.ctx prog.env)
        (afterFront prog before batch)
  | .leaving | .joining | .ended => session = served prog batches

def inHand : MainLoop → List Value
  | .collecting batch => batch
  | _ => []

/-- The main loop has been left. -/
def isOver : MainLoop → Bool
  | .leaving | .joining | .ended => true
  | _ => false

section Batches

variable {prog : Program} {p p' : ServerProcess}

theorem served_append (prog : Program) (batches : List (List Value)) (batch : List Value) :
    served prog (batches ++ [batch]) =
      (served prog batches).processBatch prog.ctx prog.env batch := by
  rw [served, Session.run, List.foldl_append]
  rfl

theorem afterFront_append (prog : Program) (batches : List (List Value)) (front back : List Value) :
    afterFront prog batches (front ++ back) =
      back.foldl (Session.handle prog.ctx prog.env) (afterFront prog batches front) :=
  List.foldl_append

theorem served_of_exited {batches : List (List Value)} {front back : List Value}
    (hexited : (afterFront prog batches front).exited = true) :
    served prog (batches ++ [front ++ back]) = afterFront prog batches front := by
  have hwhole : afterFront prog batches (front ++ back) = afterFront prog batches front := by
    rw [afterFront_append]
    exact exited_messages prog.ctx prog.env hexited back
  rw [served_append]
  exact (if_pos (by rw [← afterFront, hwhole, hexited])).trans hwhole

theorem served_of_running {batches : List (List Value)} {batch : List Value}
    (hrunning : (afterFront prog batches batch).exited = false) :
    served prog (batches ++ [batch]) =
      (afterFront prog batches batch).dirty.foldl (Session.computeAndPush prog.ctx prog.env)
        (afterFront prog batches batch) := by
  rw [served_append]
  exact if_neg (by rw [← afterFront, hrunning]; exact Bool.false_ne_true)

theorem exited_computations (dirty : List String) (s : Session) :
    (dirty.foldl (Session.computeAndPush prog.ctx prog.env) s).exited = s.exited :=
  (computations_push prog.ctx prog.env dirty s).1

/-- The session goes through a batch in the order of its messages and then of its
dirty documents. -/
theorem Stands.step (hs : Stands prog p.batches p.session p.main) (h : MainStep prog p p') :
    Stands prog p'.batches p'.session p'.main := by
  cases h with
  | receive main =>
      rw [main] at hs
      exact hs
  | hangUp main =>
      rw [main] at hs
      exact hs.1
  | collect main =>
      rw [main] at hs
      exact hs
  | @batch batch main =>
      rw [main] at hs
      exact ⟨p.batches, [], rfl, by rw [hs.1]; rfl, hs.2⟩
  | @handle msg rest main running =>
      rw [main] at hs
      obtain ⟨before, front, hbatches, hsession, -⟩ := hs
      refine ⟨before, front ++ [msg], ?_, ?_, running⟩
      · rw [hbatches, List.append_assoc]
        rfl
      · rw [afterFront_append, ← hsession]
        rfl
  | @exit msg rest main exited =>
      rw [main] at hs
      obtain ⟨before, front, hbatches, hsession, -⟩ := hs
      have hfront : p.session.handle prog.ctx prog.env msg =
          afterFront prog before (front ++ [msg]) := by
        rw [afterFront_append, ← hsession]
        rfl
      have hbatch : p.batches = before ++ [(front ++ [msg]) ++ rest] := by
        rw [hbatches, List.append_assoc]
        rfl
      rw [hfront] at exited
      show p.session.handle prog.ctx prog.env msg = served prog p.batches
      rw [hfront, hbatch, served_of_exited exited]
  | handled main =>
      rw [main] at hs
      obtain ⟨before, front, hbatches, hsession, hrunning⟩ := hs
      rw [List.append_nil] at hbatches
      rw [hsession] at hrunning
      exact ⟨before, front, [], hbatches, hrunning, by rw [hsession]; rfl, hsession⟩
  | @compute uri rest main =>
      rw [main] at hs
      obtain ⟨before, batch, front, hbatches, hrunning, hdirty, hsession⟩ := hs
      refine ⟨before, batch, front ++ [uri], hbatches, hrunning, ?_, ?_⟩
      · rw [hdirty, List.append_assoc]
        rfl
      · rw [List.foldl_append, ← hsession]
        rfl
  | computed main =>
      rw [main] at hs
      obtain ⟨before, batch, front, hbatches, hrunning, hdirty, hsession⟩ := hs
      rw [List.append_nil] at hdirty
      have hwhole : p.session = served prog p.batches := by
        rw [hbatches, served_of_running hrunning, hdirty, hsession]
      refine ⟨hwhole, ?_⟩
      rw [hsession, exited_computations, hrunning]
  | leave main =>
      rw [main] at hs
      exact hs
  | join main =>
      rw [main] at hs
      exact hs

theorem output_computations (dirty : List String) (s : Session) :
    output s <+: output (dirty.foldl (Session.computeAndPush prog.ctx prog.env) s) := by
  obtain ⟨-, -, pushed, houtput, -⟩ := computations_push prog.ctx prog.env dirty s
  exact ⟨pushed, houtput.symm⟩

theorem output_messages (batch : List Value) (s : Session) :
    output s <+: output (batch.foldl (Session.handle prog.ctx prog.env) s) := by
  induction batch generalizing s with
  | nil => exact List.prefix_refl _
  | cons msg batch ih =>
      refine List.IsPrefix.trans ?_ (ih (s.handle prog.ctx prog.env msg))
      rcases hexited : s.exited with _ | _
      · rw [output_handle prog.ctx prog.env hexited]
        exact List.prefix_append _ _
      · rw [Session.handle, if_pos hexited]

theorem output_afterFront (prog : Program) (before : List (List Value)) (batch : List Value) :
    output (afterFront prog before batch) <+: output (served prog (before ++ [batch])) := by
  rcases hexited : (afterFront prog before batch).exited with _ | _
  · rw [served_of_running hexited]
    exact output_computations _ _
  · have hwhole : served prog (before ++ [batch ++ []]) = afterFront prog before batch :=
      served_of_exited hexited
    rw [List.append_nil] at hwhole
    rw [hwhole]

/-- In the middle of a batch a part of its output has been written. -/
theorem Stands.output_isPrefix {batches : List (List Value)} {session : Session}
    {main : MainLoop} (hs : Stands prog batches session main) :
    output session <+: output (served prog batches) := by
  cases main with
  | receiving | collecting => rw [hs.1]
  | handling rest =>
      obtain ⟨before, front, rfl, rfl, -⟩ := hs
      have hrest := @output_messages prog rest (afterFront prog before front)
      rw [← afterFront_append] at hrest
      exact hrest.trans (output_afterFront prog before _)
  | computing rest =>
      obtain ⟨before, batch, front, rfl, hrunning, hdirty, rfl⟩ := hs
      rw [served_of_running hrunning, hdirty, List.foldl_append]
      exact output_computations rest _
  | leaving | joining | ended => rw [show session = served prog batches from hs]

end Batches

/-- The frames that have been pulled have been sent, except for one behind the last. -/
inductive Sent (p : ServerProcess) (events : List DecodeEvent) : Prop
  | all (all : p.sent = events.filterMap frameOf)
  | refused (before : List DecodeEvent) (msg : Value) (split : events = before ++ [.frame msg])
      (sent : p.sent = before.filterMap frameOf) (reader : p.reader = .returned)
      (main : p.main.listens = false)

/-- Where the messages are: behind the bytes with the decoder, in the channel, in the
hand of the main loop, or in a batch. -/
structure Accounts (prog : Program) (p : ServerProcess) : Prop where
  stands : Stands prog p.batches p.session p.main
  pulled : ∃ events, Pulled prog.serde prog.bits p.loop events ∧ Sent p events
  channel : p.main.listens = true → p.sent = p.batches.flatten ++ inHand p.main ++ p.channel
  taken : p.batches.flatten <+: p.sent
  nonempty : [] ∉ p.batches
  hand : p.main ≠ .collecting []
  idle : p.reader = .returned → p.main.listens = true → p.loop.pulling = false
  finished : isOver p.main = true → p.session.exited = true ∨
    p.reader = .returned ∧ p.batches.flatten = framesOf prog.serde prog.bits p.loop.received
  joined : p.main = .ended → p.reader = .returned

section Accounting

variable {prog : Program} {p p' : ServerProcess}

theorem accounts_started (prog : Program) : Accounts prog prog.started where
  stands := ⟨rfl, rfl⟩
  pulled := ⟨[], pulled_new, .all rfl⟩
  channel _ := rfl
  taken := List.prefix_refl _
  nonempty := List.not_mem_nil
  hand := MainLoop.noConfusion
  idle h := by cases h
  finished h := by cases h
  joined h := by cases h

theorem filterMap_frameOf (events : List DecodeEvent) (event : DecodeEvent) :
    (events ++ [event]).filterMap frameOf =
      events.filterMap frameOf ++ (frameOf event).toList := by
  rw [List.filterMap_append]
  cases event <;> rfl

theorem Sent.eq_of_listens {events : List DecodeEvent} (h : Sent p events)
    (hlistens : p.main.listens = true) : p.sent = events.filterMap frameOf := by
  cases h with
  | all all => exact all
  | refused before msg split sent reader main => cases main.symm.trans hlistens

theorem Sent.eq_of_running {events : List DecodeEvent} (h : Sent p events)
    (hreader : p.reader = .running) : p.sent = events.filterMap frameOf := by
  cases h with
  | all all => exact all
  | refused before msg split sent reader main => cases reader.symm.trans hreader

theorem Sent.isPrefix {events : List DecodeEvent} (h : Sent p events) :
    p.sent <+: events.filterMap frameOf := by
  cases h with
  | all all => exact all ▸ List.prefix_refl _
  | refused before msg split sent reader main =>
      rw [split, sent, filterMap_frameOf]
      exact List.prefix_append _ _

/-- While the receiver is alive, a reader thread that has returned has sent every
frame of what it has read. -/
theorem Accounts.sent_eq (h : Accounts prog p) (hreader : p.reader = .returned)
    (hlistens : p.main.listens = true) :
    p.sent = framesOf prog.serde prog.bits p.loop.received := by
  obtain ⟨events, hpulled, hsent⟩ := h.pulled
  rw [hsent.eq_of_listens hlistens, hpulled.frames_eq (h.idle hreader hlistens)]

theorem Accounts.read (h : Accounts prog p) (hreader : p.reader = .running)
    (chunk : List UInt8) : Accounts prog { p with loop := p.loop.feed chunk } := by
  have hrunning : p.reader ≠ .returned := by
    rw [hreader]
    exact Reader.noConfusion
  obtain ⟨events, hpulled, hsent⟩ := h.pulled
  refine ⟨h.stands, ⟨events, hpulled.feed chunk, .all (hsent.eq_of_running hreader)⟩, h.channel,
    h.taken, h.nonempty, h.hand, fun hreturned => absurd hreturned hrunning, fun hover => ?_,
    h.joined⟩
  exact (h.finished hover).imp_right fun hdone => absurd hdone.1 hrunning

/-- The reader thread is ahead of the main loop by what is in the channel. -/
theorem Accounts.pull (h : Accounts prog p) (hreader : p.reader = .running)
    (hpull : Pull prog p p') : Accounts prog p' := by
  have hrunning : p.reader ≠ .returned := by
    rw [hreader]
    exact Reader.noConfusion
  have hover : isOver p.main = true → p.session.exited = true := fun hover =>
    (h.finished hover).resolve_right fun hdone => hrunning hdone.1
  have hjoined : p.main ≠ .ended := fun hended => hrunning (h.joined hended)
  obtain ⟨events, hpulled, hsent⟩ := h.pulled
  have hsent := hsent.eq_of_running hreader
  cases hpull with
  | @send msg result listens =>
      refine ⟨h.stands, ⟨_, hpulled.event result, .all ?_⟩, ?_, ?_, h.nonempty, h.hand,
        fun hreturned => absurd hreturned hrunning, fun h => .inl (hover h),
        fun h => absurd h hjoined⟩
      · rw [filterMap_frameOf, ← hsent]
        rfl
      · intro _
        rw [h.channel listens, List.append_assoc]
      · exact h.taken.trans (List.prefix_append _ _)
  | @refused msg result listens =>
      refine ⟨h.stands, ⟨_, hpulled.event result, .refused events msg rfl hsent rfl listens⟩,
        h.channel, h.taken, h.nonempty, h.hand, fun _ hlistens => ?_, fun h => .inl (hover h),
        fun h => absurd h hjoined⟩
      cases listens.symm.trans hlistens
  | malformed result =>
      refine ⟨h.stands, ⟨_, hpulled.event result, .all ?_⟩, h.channel, h.taken, h.nonempty, h.hand,
        fun hreturned => absurd hreturned hrunning, fun h => .inl (hover h),
        fun h => absurd h hjoined⟩
      rw [filterMap_frameOf, frameOf, Option.toList_none, List.append_nil]
      exact hsent
  | drained result =>
      refine ⟨h.stands, ⟨events, hpulled.break (by rw [result]; rfl), .all hsent⟩, h.channel,
        h.taken, h.nonempty, h.hand, fun _ _ => ?_, fun h => .inl (hover h),
        fun h => absurd h hjoined⟩
      rw [pulling_pull, result]
      rfl
  | fatal result =>
      refine ⟨h.stands, ⟨events, hpulled.break (by rw [result]; rfl), .all hsent⟩, h.channel,
        h.taken, h.nonempty, h.hand, fun _ _ => ?_, fun h => .inl (hover h),
        fun h => absurd h hjoined⟩
      rw [pulling_pull, result]
      rfl

/-- What the main loop leaves to the reader thread. -/
theorem main_frame (h : MainStep prog p p') :
    p'.loop = p.loop ∧ p'.reader = p.reader ∧ p'.sent = p.sent ∧
      (p'.main.listens = true → p.main.listens = true) := by
  cases h <;> simp_all [MainLoop.listens]

theorem channel_main (hs : Accounts prog p) (h : MainStep prog p p')
    (hlistens : p'.main.listens = true) :
    p'.sent = p'.batches.flatten ++ inHand p'.main ++ p'.channel := by
  have hchannel := hs.channel ((main_frame h).2.2.2 hlistens)
  cases h with
  | receive main channel | collect main channel =>
      rw [main, channel] at hchannel
      simpa [inHand] using hchannel
  | batch main channel =>
      rw [main, channel] at hchannel
      simpa [inHand, channel] using hchannel
  | hangUp main | handle main | exit main | handled main | compute main | computed main =>
      rw [main] at hchannel
      exact hchannel
  | leave | join => cases hlistens

theorem batches_main (hs : Accounts prog p) (h : MainStep prog p p') :
    p'.batches.flatten <+: p'.sent ∧ [] ∉ p'.batches ∧ p'.main ≠ .collecting [] := by
  cases h with
  | receive => exact ⟨hs.taken, hs.nonempty, nofun⟩
  | @batch batch main channel =>
      have hchannel := hs.channel (by rw [main]; rfl)
      rw [main, channel, List.append_nil] at hchannel
      refine ⟨?_, ?_, nofun⟩
      · rw [List.flatten_append, List.flatten_singleton]
        exact hchannel ▸ List.prefix_refl _
      · rw [List.mem_append, List.mem_singleton, not_or]
        refine ⟨hs.nonempty, ?_⟩
        rintro rfl
        exact hs.hand main
  | collect =>
      refine ⟨hs.taken, hs.nonempty, fun hempty => ?_⟩
      exact List.append_ne_nil_of_right_ne_nil _ (List.cons_ne_nil _ _)
        (MainLoop.collecting.inj hempty)
  | hangUp | handle | exit | handled | compute | computed | leave | join =>
      exact ⟨hs.taken, hs.nonempty, nofun⟩

theorem over_main (hs : Accounts prog p) (h : MainStep prog p p') (hover : isOver p'.main = true) :
    p'.session.exited = true ∨ p'.reader = .returned ∧
      p'.batches.flatten = framesOf prog.serde prog.bits p'.loop.received := by
  cases h with
  | hangUp main channel reader =>
      have hlistens : p.main.listens = true := by
        rw [main]
        rfl
      have hchannel := hs.channel hlistens
      rw [main, channel, hs.sent_eq reader hlistens] at hchannel
      refine .inr ⟨reader, ?_⟩
      simpa [inHand] using hchannel.symm
  | exit main exited => exact .inl exited
  | leave main | join main => exact hs.finished (by rw [main]; rfl)
  | receive | collect | batch | handle | handled | compute | computed => cases hover

theorem Accounts.main (hs : Accounts prog p) (h : MainStep prog p p') : Accounts prog p' := by
  obtain ⟨hloop, hreader, hsent, hlistens⟩ := main_frame h
  obtain ⟨htaken, hnonempty, hhand⟩ := batches_main hs h
  refine ⟨hs.stands.step h, ?_, channel_main hs h, htaken, hnonempty, hhand, ?_, over_main hs h, ?_⟩
  · obtain ⟨events, hpulled, hall⟩ := hs.pulled
    refine ⟨events, hloop ▸ hpulled, ?_⟩
    cases hall with
    | all all => exact .all (hsent.trans all)
    | refused before msg split sent reader main =>
        refine .refused before msg split (hsent.trans sent) (hreader.trans reader) ?_
        exact Bool.eq_false_iff.mpr fun h => Bool.eq_false_iff.mp main (hlistens h)
  · rw [hloop, hreader]
    exact fun hreturned h => hs.idle hreturned (hlistens h)
  · cases h with
    | join main reader => exact fun _ => reader
    | _ => exact nofun

theorem Accounts.step (hs : Accounts prog p) {a : Action} (h : Step prog p a p') :
    Accounts prog p' := by
  cases h with
  | read reader => exact hs.read reader _
  | endOfInput reader idle =>
      obtain ⟨events, hpulled, hsent⟩ := hs.pulled
      refine ⟨hs.stands, ⟨events, hpulled, .all (hsent.eq_of_running reader)⟩, hs.channel,
        hs.taken, hs.nonempty, hs.hand, fun _ _ => idle, fun hover => ?_, fun _ => rfl⟩
      refine .inl ((hs.finished hover).resolve_right fun hdone => ?_)
      cases reader.symm.trans hdone.1
  | pull reader _ pull => exact hs.pull reader pull
  | main main => exact hs.main main

theorem accounts_of_reachable (h : (process prog).Reachable p) : Accounts prog p :=
  h.invariant (accounts_started prog) fun _ _ _ hs hstep => hs.step (step_cases hstep)

end Accounting

/-- However the bytes are cut into chunks and the threads take turns: what the main loop
has taken from the channel are the first messages of the bytes that have been read, in
batches of at least one. The process has written a part of what the session writes that
handles these batches one by one, and all of it between two batches. It ends behind its
reader thread, and without an exit only when every message has been handled. -/
theorem process_serves (prog : Program) (p : ServerProcess) (h : (process prog).Reachable p) :
    [] ∉ p.batches ∧ p.batches.flatten <+: framesOf prog.serde prog.bits p.loop.received ∧
      p.stdout prog <+: (output (served prog p.batches)).flatMap (encodeMessage prog.serde) ∧
      (p.main = .receiving ∨ isOver p.main = true → p.session = served prog p.batches) ∧
      (p.main = .ended → p.reader = .returned) ∧
      (isOver p.main = true → p.session.exited = false →
        p.reader = .returned ∧
          p.batches.flatten = framesOf prog.serde prog.bits p.loop.received) := by
  have hs := accounts_of_reachable h
  obtain ⟨events, hpulled, hsent⟩ := hs.pulled
  refine ⟨hs.nonempty, ?_, ?_, ?_, hs.joined, ?_⟩
  · exact (hs.taken.trans hsent.isPrefix).trans hpulled.frames_isPrefix
  · obtain ⟨rest, hrest⟩ := hs.stands.output_isPrefix
    rw [← hrest, List.flatMap_append]
    exact List.prefix_append _ _
  · have hstands := hs.stands
    intro hmain
    rcases hp : p.main with _ | _ | _ | _ | _ | _ | _ <;> simp_all [Stands, isOver]
  · intro hover hrunning
    refine (hs.finished hover).resolve_left ?_
    rw [hrunning]
    exact Bool.false_ne_true

section Sample

def exitText : String :=
  "\x7b\"jsonrpc\":\"2.0\",\"method\":\"exit\",\"params\":null\x7d"

def exitMessage : Value :=
  notification "exit" .null

/-- JSON cut down to the exit. -/
def exitJson : SerdeJson where
  toString _ := exitText
  fromSlice body := if body = Utf8.encode exitText.toList then some exitMessage else none
  toString_size _ := by decide
  fromSlice_empty := if_neg (by decide)

theorem exitMessage_deliverable : Deliverable exitJson exitMessage := by
  constructor
  · have hsame : Utf8.encode exitText.toList = Utf8.encode exitText.toList := rfl
    exact if_pos (e := none) hsame
  · show (Utf8.encode exitText.toList).length ≤ maxBodyBytes
    decide

def exitProgram : Program where
  serde := exitJson
  bits := 64
  ctx := echo
  env := fun _ => echoEnv
  gitRef := "HEAD"
  wasmDir := "plugins"

/-- The exit, and the same message behind it. -/
def exitTwice : List UInt8 :=
  encodeMessage exitJson exitMessage ++ encodeMessage exitJson exitMessage

/-- The process behind its first read. -/
def exitRead : ServerProcess :=
  { exitProgram.started with loop := ReadLoop.new.feed exitTwice }

/-- The process that has pulled the exit. -/
def exitSent : ServerProcess :=
  { exitRead with
    loop := { exitRead.loop with
      decoder := FrameDecoder.new.feed (encodeMessage exitJson exitMessage) }
    channel := [exitMessage]
    sent := [exitMessage] }

/-- The process whose main loop has dropped the receiver. -/
def exitTaken : ServerProcess :=
  { exitSent with
    channel := []
    main := .joining
    session := exitProgram.started.session.handle echo (fun _ => echoEnv) exitMessage
    batches := [[exitMessage]] }

/-- The process whose reader thread has given up. -/
def exitRefused : ServerProcess :=
  { exitTaken with
    loop := { exitTaken.loop with decoder := FrameDecoder.new }
    reader := .returned }

def exitEnded : ServerProcess :=
  { exitRefused with main := .ended }

def exitActions : List Action :=
  [.read exitTwice, .pull, .main, .main, .main, .main, .pull, .main]

theorem exitActions_run :
    (process exitProgram).Run Anything exitProgram.started exitActions exitEnded := by
  have hread : (process exitProgram).step exitProgram.started (.read exitTwice) =
      some exitRead := rfl
  have hsent : (process exitProgram).step exitRead .pull = some exitSent := by
    have hpull : exitRead.loop.pull exitProgram.serde exitProgram.bits =
        (.ok (some (.frame exitMessage)), exitSent.loop) := pull_message exitMessage_deliverable rfl
    show some (exitRead.pulled exitProgram) = _
    rw [ServerProcess.pulled, hpull]
    rfl
  have htaken : (process exitProgram).play exitSent [.main, .main, .main, .main] =
      some exitTaken := rfl
  have hrefused : (process exitProgram).step exitTaken .pull = some exitRefused := by
    have hpull : exitTaken.loop.pull exitProgram.serde exitProgram.bits =
        (.ok (some (.frame exitMessage)), exitRefused.loop) := by
      apply pull_message exitMessage_deliverable
      rw [List.append_nil]
      rfl
    show some (exitTaken.pulled exitProgram) = _
    rw [ServerProcess.pulled, hpull]
    rfl
  have hended : (process exitProgram).step exitRefused .main = some exitEnded := rfl
  exact .cons trivial hread (.cons trivial hsent (Run.append (run_of_play htaken)
    (.cons trivial hrefused (.cons trivial hended .start))))

theorem process_serves_exit : exitEnded.batches = [[exitMessage]] ∧
    exitEnded.batches.flatten <+:
      framesOf exitJson 64 exitEnded.loop.received ∧
    exitEnded.session = served exitProgram exitEnded.batches ∧ exitEnded.reader = .returned := by
  have h := process_serves exitProgram exitEnded exitActions_run.reachable
  exact ⟨rfl, h.2.1, h.2.2.2.1 (.inr rfl), h.2.2.2.2.1 rfl⟩

end Sample

end IntentumdiffLsp.Serving
