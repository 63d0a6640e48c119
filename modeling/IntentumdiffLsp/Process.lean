import IntentumdiffLsp.Reading
import IntentumdiffLsp.Responses
import IntentumdiffLsp.Foundations.ActionSystem

/-!
The server process: the reader thread, the channel, and the main loop that collects
batches from it. An action is one step of one of the two threads.
-/

namespace IntentumdiffLsp.Process

open Foundations
open IntentumdiffLsp.Json
open IntentumdiffLsp.Codec
open IntentumdiffLsp.Server
open IntentumdiffLsp.Responses
open IntentumdiffLsp.Reading

/-- What the process is started with, and what it finds around it. -/
structure Program where
  serde : SerdeJson
  bits : Nat
  ctx : Context
  env : Nat → Env
  gitRef : String
  wasmDir : String

/-- The reader thread drops its sender when it returns. -/
inductive Reader where
  | running
  | returned

inductive MainLoop where
  | receiving
  | collecting (batch : List Value)
  | handling (rest : List Value)
  | computing (rest : List String)
  | leaving
  | joining
  | ended

/-- The receiver is alive until it is dropped behind the loop. -/
def MainLoop.listens : MainLoop → Bool
  | .joining | .ended => false
  | _ => true

/-- `sent` and `batches` are the history of the channel: what the reader thread put
into it, and what the main loop took out of it. No step looks at them. -/
structure ServerProcess where
  loop : ReadLoop
  reader : Reader
  channel : List Value
  main : MainLoop
  session : Session
  sent : List Value
  batches : List (List Value)

inductive Action where
  | read (chunk : List UInt8)
  | endOfInput
  | pull
  | main

section Steps

variable (prog : Program) (p : ServerProcess)

def Program.started : ServerProcess where
  loop := .new
  reader := .running
  channel := []
  main := .receiving
  session := .new prog.gitRef prog.wasmDir
  sent := []
  batches := []

/-- What has been written to the standard output. -/
def ServerProcess.stdout : List UInt8 :=
  (output p.session).flatMap (encodeMessage prog.serde)

/-- The reader thread gives up as soon as it cannot send. -/
def ServerProcess.send (msg : Value) : ServerProcess :=
  if p.main.listens then
    { p with
      channel := p.channel ++ [msg]
      sent := p.sent ++ [msg] }
  else { p with reader := .returned }

def ServerProcess.pulled : ServerProcess :=
  let result := p.loop.pull prog.serde prog.bits
  let p := { p with loop := result.2 }
  match result.1 with
  | .ok (some (.frame msg)) => p.send msg
  | .ok (some .malformedFrame) => p
  | .ok none => p
  | .error _ => { p with reader := .returned }

def mainStep : Option ServerProcess :=
  match p.main with
  | .receiving =>
      match p.channel, p.reader with
      | first :: rest, _ => some { p with channel := rest, main := .collecting [first] }
      | [], .returned => some { p with main := .leaving }
      | [], .running => none
  | .collecting batch =>
      match p.channel with
      | more :: rest => some { p with channel := rest, main := .collecting (batch ++ [more]) }
      | [] =>
          some { p with
            main := .handling batch
            session := { p.session with dirty := [] }
            batches := p.batches ++ [batch] }
  | .handling [] => some { p with main := .computing p.session.dirty }
  | .handling (msg :: rest) =>
      let session := p.session.handle prog.ctx prog.env msg
      some { p with
        session := session
        main := if session.exited then .leaving else .handling rest }
  | .computing [] => some { p with main := .receiving }
  | .computing (uri :: rest) =>
      some { p with
        session := p.session.computeAndPush prog.ctx prog.env uri
        main := .computing rest }
  -- The channel goes with its receiver.
  | .leaving => some { p with main := .joining, channel := [] }
  | .joining =>
      match p.reader with
      | .returned => some { p with main := .ended }
      | .running => none
  | .ended => none

def step : Action → Option ServerProcess
  | .read chunk =>
      match p.reader with
      | .running =>
          if p.loop.pulling = false ∧ chunk ≠ [] ∧ chunk.length ≤ chunkSize then
            some { p with loop := p.loop.feed chunk }
          else none
      | .returned => none
  | .endOfInput =>
      match p.reader with
      | .running => if p.loop.pulling = false then some { p with reader := .returned } else none
      | .returned => none
  | .pull =>
      match p.reader with
      | .running => if p.loop.pulling = true then some (p.pulled prog) else none
      | .returned => none
  | .main => mainStep prog p

end Steps

def process (prog : Program) : ActionSystem ServerProcess Action where
  init := prog.started
  step := step prog

/-- What a step of the main loop can do, with its guards. -/
inductive MainStep (prog : Program) (p : ServerProcess) : ServerProcess → Prop
  | receive {first rest} (main : p.main = .receiving) (channel : p.channel = first :: rest) :
      MainStep prog p { p with channel := rest, main := .collecting [first] }
  | hangUp (main : p.main = .receiving) (channel : p.channel = [])
      (reader : p.reader = .returned) : MainStep prog p { p with main := .leaving }
  | collect {batch more rest} (main : p.main = .collecting batch)
      (channel : p.channel = more :: rest) :
      MainStep prog p { p with channel := rest, main := .collecting (batch ++ [more]) }
  | batch {batch} (main : p.main = .collecting batch) (channel : p.channel = []) :
      MainStep prog p { p with
        main := .handling batch
        session := { p.session with dirty := [] }
        batches := p.batches ++ [batch] }
  | handle {msg rest} (main : p.main = .handling (msg :: rest))
      (running : (p.session.handle prog.ctx prog.env msg).exited = false) :
      MainStep prog p { p with
        session := p.session.handle prog.ctx prog.env msg
        main := .handling rest }
  | exit {msg rest} (main : p.main = .handling (msg :: rest))
      (exited : (p.session.handle prog.ctx prog.env msg).exited = true) :
      MainStep prog p { p with
        session := p.session.handle prog.ctx prog.env msg
        main := .leaving }
  | handled (main : p.main = .handling []) :
      MainStep prog p { p with main := .computing p.session.dirty }
  | compute {uri rest} (main : p.main = .computing (uri :: rest)) :
      MainStep prog p { p with
        session := p.session.computeAndPush prog.ctx prog.env uri
        main := .computing rest }
  | computed (main : p.main = .computing []) : MainStep prog p { p with main := .receiving }
  | leave (main : p.main = .leaving) :
      MainStep prog p { p with main := .joining, channel := [] }
  | join (main : p.main = .joining) (reader : p.reader = .returned) :
      MainStep prog p { p with main := .ended }

theorem mainStep_iff {prog : Program} {p p' : ServerProcess} :
    mainStep prog p = some p' ↔ MainStep prog p p' := by
  constructor
  · intro h
    unfold mainStep at h
    split at h
    · split at h <;> cases h
      · exact .receive ‹_› ‹_›
      · exact .hangUp ‹_› ‹_› ‹_›
    · split at h <;> cases h
      · exact .collect ‹_› ‹_›
      · exact .batch ‹_› ‹_›
    · cases h
      exact .handled ‹_›
    · cases h
      rename_i msg rest hmain
      rcases hexited : (p.session.handle prog.ctx prog.env msg).exited with _ | _
      · exact .handle hmain hexited
      · exact .exit hmain hexited
    · cases h
      exact .computed ‹_›
    · cases h
      exact .compute ‹_›
    · cases h
      exact .leave ‹_›
    · split at h <;> cases h
      exact .join ‹_› ‹_›
    · cases h
  · intro h
    cases h <;> simp_all [mainStep]

/-- What a turn of the reader thread's inner loop can do, with what it has pulled. -/
inductive Pull (prog : Program) (p : ServerProcess) : ServerProcess → Prop
  | send {msg} (result : (p.loop.pull prog.serde prog.bits).1 = .ok (some (.frame msg)))
      (listens : p.main.listens = true) :
      Pull prog p { p with
        loop := (p.loop.pull prog.serde prog.bits).2
        channel := p.channel ++ [msg]
        sent := p.sent ++ [msg] }
  | refused {msg} (result : (p.loop.pull prog.serde prog.bits).1 = .ok (some (.frame msg)))
      (listens : p.main.listens = false) :
      Pull prog p { p with
        loop := (p.loop.pull prog.serde prog.bits).2
        reader := .returned }
  | malformed (result : (p.loop.pull prog.serde prog.bits).1 = .ok (some .malformedFrame)) :
      Pull prog p { p with loop := (p.loop.pull prog.serde prog.bits).2 }
  | drained (result : (p.loop.pull prog.serde prog.bits).1 = .ok none) :
      Pull prog p { p with loop := (p.loop.pull prog.serde prog.bits).2 }
  | fatal {error} (result : (p.loop.pull prog.serde prog.bits).1 = .error error) :
      Pull prog p { p with
        loop := (p.loop.pull prog.serde prog.bits).2
        reader := .returned }

theorem pulled_cases (prog : Program) (p : ServerProcess) : Pull prog p (p.pulled prog) := by
  unfold ServerProcess.pulled
  dsimp only
  split
  · rename_i msg hresult
    unfold ServerProcess.send
    split
    · exact .send hresult ‹_›
    · rename_i hlistens
      exact .refused hresult (Bool.eq_false_iff.mpr hlistens)
  · exact .malformed ‹_›
  · exact .drained ‹_›
  · exact .fatal ‹_›

/-- What a step can do, with its guards. -/
inductive Step (prog : Program) (p : ServerProcess) : Action → ServerProcess → Prop
  | read {chunk} (reader : p.reader = .running) (idle : p.loop.pulling = false)
      (nonempty : chunk ≠ []) (short : chunk.length ≤ chunkSize) :
      Step prog p (.read chunk) { p with loop := p.loop.feed chunk }
  | endOfInput (reader : p.reader = .running) (idle : p.loop.pulling = false) :
      Step prog p .endOfInput { p with reader := .returned }
  | pull {p'} (reader : p.reader = .running) (pulling : p.loop.pulling = true)
      (pull : Pull prog p p') : Step prog p .pull p'
  | main {p'} (main : MainStep prog p p') : Step prog p .main p'

theorem step_cases {prog : Program} {p p' : ServerProcess} {a : Action}
    (h : step prog p a = some p') : Step prog p a p' := by
  cases a with
  | read chunk =>
      simp only [step] at h
      split at h
      · split at h <;> cases h
        rename_i hreader hguard
        exact .read hreader hguard.1 hguard.2.1 hguard.2.2
      · cases h
  | endOfInput =>
      simp only [step] at h
      split at h
      · split at h <;> cases h
        exact .endOfInput ‹_› ‹_›
      · cases h
  | pull =>
      simp only [step] at h
      split at h
      · split at h <;> cases h
        exact .pull ‹_› ‹_› (pulled_cases prog p)
      · cases h
  | main => exact .main (mainStep_iff.mp h)

end IntentumdiffLsp.Process
