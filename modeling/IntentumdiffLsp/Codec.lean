import IntentumdiffLsp.Json

namespace IntentumdiffLsp.Codec

open Foundations
open Foundations.Utf8
open Foundations.Text
open IntentumdiffLsp.Json

/-- Max bytes for a single header line. -/
def maxHeaderLine : Nat := 4096

/-- Max bytes for the whole header section of one message. -/
def maxHeadersTotal : Nat := 16384

def maxBodyBytes : Nat := 67108864

def cr : UInt8 := 0x0D

def lf : UInt8 := 0x0A

def crlf : List UInt8 := [cr, lf]

/-- The text `Content-Length: n`, without its line terminator. -/
def contentLengthLine (n : Nat) : List UInt8 :=
  encode ("Content-Length: ".toList ++ decimal n)

def encodeMessage (serde : SerdeJson) (msg : Value) : List UInt8 :=
  let body := encode (serde.toString msg).toList
  contentLengthLine body.length ++ crlf ++ crlf ++ body

def request (method : String) (params : Value) (id : Int) : Value :=
  .object [("jsonrpc", .string "2.0"), ("id", .ofI64 id), ("method", .string method),
    ("params", params)]

def notification (method : String) (params : Value) : Value :=
  .object [("jsonrpc", .string "2.0"), ("method", .string method), ("params", params)]

inductive DecodeEvent where
  | frame (msg : Value)
  | malformedFrame

inductive DecodeError where
  | headerLineTooLong
  | headersTooLarge
  | invalidContentLength
  | bodyTooLarge
  deriving DecidableEq, Repr

def DecodeError.display : DecodeError → String
  | .headerLineTooLong => s!"LSP header line exceeds {maxHeaderLine} bytes"
  | .headersTooLarge => s!"LSP header section exceeds {maxHeadersTotal} bytes"
  | .invalidContentLength => "LSP Content-Length is not a valid integer"
  | .bodyTooLarge => s!"LSP Content-Length exceeds {maxBodyBytes} bytes"

/-- A body is only ever awaited with a positive length. -/
inductive DecodeState where
  | headers (headerBytes : Nat) (contentLength : Option Nat)
  | body (length : Nat) (pos : 0 < length)
  | poisoned (error : DecodeError)

structure FrameDecoder where
  buf : List UInt8
  state : DecodeState

def findCrlf : List UInt8 → Option Nat
  | [] => none
  | b :: rest =>
      if b = cr ∧ rest.head? = some lf then some 0
      else (findCrlf rest).map (· + 1)

/-- The cast `as usize` of a nonnegative integer on a target of `bits` bits. -/
def asUsize (bits : Nat) (n : Int) : Nat :=
  n.toNat % 2 ^ bits

namespace FrameDecoder

def new : FrameDecoder :=
  { buf := [], state := .headers 0 none }

def feed (d : FrameDecoder) (bytes : List UInt8) : FrameDecoder :=
  { d with buf := d.buf ++ bytes }

def poison (d : FrameDecoder) (error : DecodeError) : FrameDecoder :=
  { d with state := .poisoned error }

end FrameDecoder

/-- One pass through the loop of `nextEvent`: return, or go round again. -/
inductive Pass where
  | done (result : Except DecodeError (Option DecodeEvent)) (d : FrameDecoder)
  | again (d : FrameDecoder)

namespace FrameDecoder

variable (serde : SerdeJson) (bits : Nat)

def loopBody (d : FrameDecoder) : Pass :=
  match d.state with
  | .poisoned error => .done (.error error) d
  | .headers headerBytes contentLength =>
      match findCrlf d.buf with
      | none =>
          -- A partial line already over the cap can never become valid.
          if d.buf.length > maxHeaderLine then
            .done (.error .headerLineTooLong) (d.poison .headerLineTooLong)
          else .done (.ok none) d
      | some term =>
          let rawLen := term + 2
          if rawLen > maxHeaderLine then
            .done (.error .headerLineTooLong) (d.poison .headerLineTooLong)
          else
            let headerBytes := headerBytes + rawLen
            if headerBytes > maxHeadersTotal then
              .done (.error .headersTooLarge) (d.poison .headersTooLarge)
            else
              let raw := d.buf.take rawLen
              let d := { d with buf := d.buf.drop rawLen }
              let line := decodeLossy (raw.take (raw.length - 2))
              if line.isEmpty then
                match contentLength with
                | some len =>
                    if len > maxBodyBytes then
                      .done (.error .bodyTooLarge) (d.poison .bodyTooLarge)
                    else if h : len > 0 then .again { d with state := .body len h }
                    else .again { d with state := .headers 0 none }
                | none => .again { d with state := .headers 0 none }
              else
                match splitOnce ':' line with
                | some (key, value) =>
                    if eqIgnoreAsciiCase (trim key) "content-length".toList then
                      match parseI64 (trim value) with
                      | some n =>
                          .again { d with
                            state := .headers headerBytes (some (asUsize bits (max n 0))) }
                      | none =>
                          .done (.error .invalidContentLength) (d.poison .invalidContentLength)
                    else .again { d with state := .headers headerBytes contentLength }
                | none => .again { d with state := .headers headerBytes contentLength }
  | .body length _ =>
      if d.buf.length < length then .done (.ok none) d
      else
        let body := d.buf.take length
        let d := { buf := d.buf.drop length, state := .headers 0 none }
        match serde.fromSlice body with
        | some msg => .done (.ok (some (.frame msg))) d
        | none => .done (.ok (some .malformedFrame)) d

end FrameDecoder

theorem findCrlf_bound {buf : List UInt8} {term : Nat} (h : findCrlf buf = some term) :
    term + 2 ≤ buf.length := by
  induction buf generalizing term with
  | nil => simp [findCrlf] at h
  | cons b rest ih =>
      rw [findCrlf] at h
      split at h
      · rename_i hhead
        cases h
        cases rest with
        | nil => simp at hhead
        | cons c rest => simp
      · obtain ⟨term', hterm, rfl⟩ := Option.map_eq_some_iff.mp h
        have := ih hterm
        simp only [List.length_cons]
        omega

inductive HeaderField where
  | other
  | contentLength (n : Int)
  | invalid

def headerField (line : List UInt8) : HeaderField :=
  match splitOnce ':' (decodeLossy line) with
  | some (key, value) =>
      if eqIgnoreAsciiCase (trim key) "content-length".toList then
        match parseI64 (trim value) with
        | some n => .contentLength n
        | none => .invalid
      else .other
  | none => .other

def sectionEnd : Option Nat → Except DecodeError DecodeState
  | none => .ok (.headers 0 none)
  | some len =>
      if len > maxBodyBytes then .error .bodyTooLarge
      else if h : len > 0 then .ok (.body len h)
      else .ok (.headers 0 none)

/-- What one complete line does to the two counters of a section. -/
def lineVerdict (bits headerBytes : Nat) (contentLength : Option Nat) (line : List UInt8) :
    Except DecodeError DecodeState :=
  if line.length + 2 > maxHeaderLine then .error .headerLineTooLong
  else if headerBytes + (line.length + 2) > maxHeadersTotal then .error .headersTooLarge
  else if line.isEmpty then sectionEnd contentLength
  else
    match headerField line with
    | .other => .ok (.headers (headerBytes + (line.length + 2)) contentLength)
    | .contentLength n =>
        .ok (.headers (headerBytes + (line.length + 2)) (some (asUsize bits (max n 0))))
    | .invalid => .error .invalidContentLength

/-- The caps on a line are checked before it is taken out of the buffer. -/
def DecodeError.beforeDrain : DecodeError → Bool
  | .headerLineTooLong | .headersTooLarge => true
  | .invalidContentLength | .bodyTooLarge => false

namespace FrameDecoder

variable (serde : SerdeJson) (bits : Nat)

theorem loopBody_line {buf : List UInt8} {headerBytes term : Nat} {contentLength : Option Nat}
    (hterm : findCrlf buf = some term) :
    loopBody serde bits ⟨buf, .headers headerBytes contentLength⟩ =
      match lineVerdict bits headerBytes contentLength (buf.take term) with
      | .ok state => .again ⟨buf.drop (term + 2), state⟩
      | .error error => .done (.error error)
          ⟨if error.beforeDrain then buf else buf.drop (term + 2), .poisoned error⟩ := by
  have hbound := findCrlf_bound hterm
  have hlength : (buf.take term).length = term := by
    rw [List.length_take]
    omega
  have hline : (buf.take (term + 2)).take ((buf.take (term + 2)).length - 2) =
      buf.take term := by
    rw [List.take_take, List.length_take]
    congr 1
    omega
  simp only [loopBody, hterm, hline, lineVerdict, hlength, decodeLossy_isEmpty, headerField,
    poison]
  split
  · rfl
  split
  · rfl
  split
  · cases contentLength with
    | none => rfl
    | some len =>
        simp only [sectionEnd]
        split
        · rfl
        split <;> rfl
  · cases splitOnce ':' (decodeLossy (buf.take term)) with
    | none => rfl
    | some field =>
        simp only
        split
        · cases parseI64 (trim field.2) <;> rfl
        · rfl

theorem loopBody_unterminated {buf : List UInt8} {headerBytes : Nat} {contentLength : Option Nat}
    (hterm : findCrlf buf = none) :
    loopBody serde bits ⟨buf, .headers headerBytes contentLength⟩ =
      if buf.length > maxHeaderLine then
        .done (.error .headerLineTooLong) ⟨buf, .poisoned .headerLineTooLong⟩
      else .done (.ok none) ⟨buf, .headers headerBytes contentLength⟩ := by
  simp only [loopBody, hterm, poison]

def bodyEvent (body : List UInt8) : DecodeEvent :=
  match serde.fromSlice body with
  | some msg => .frame msg
  | none => .malformedFrame

theorem loopBody_body {buf : List UInt8} {length : Nat} (pos : 0 < length) :
    loopBody serde bits ⟨buf, .body length pos⟩ =
      if buf.length < length then .done (.ok none) ⟨buf, .body length pos⟩
      else .done (.ok (some (bodyEvent serde (buf.take length))))
        ⟨buf.drop length, .headers 0 none⟩ := by
  simp only [loopBody, bodyEvent]
  split
  · rfl
  · cases serde.fromSlice (buf.take length) <;> rfl

theorem loopBody_again_lt {d d' : FrameDecoder} (h : loopBody serde bits d = .again d') :
    d'.buf.length < d.buf.length := by
  obtain ⟨buf, state⟩ := d
  cases state with
  | poisoned error => simp [loopBody] at h
  | body length pos =>
      rw [loopBody_body] at h
      split at h <;> cases h
  | headers headerBytes contentLength =>
      cases hterm : findCrlf buf with
      | none =>
          rw [loopBody_unterminated serde bits hterm] at h
          split at h <;> cases h
      | some term =>
          have hbound := findCrlf_bound hterm
          rw [loopBody_line serde bits hterm] at h
          split at h
          · cases h
            simp only [List.length_drop]
            omega
          · cases h

/-- Pull the next decoded event, if a complete one is buffered. -/
def nextEvent (d : FrameDecoder) : Except DecodeError (Option DecodeEvent) × FrameDecoder :=
  match _h : loopBody serde bits d with
  | .done result d' => (result, d')
  | .again d' => nextEvent d'
termination_by d.buf.length
decreasing_by exact loopBody_again_lt serde bits _h

theorem nextEvent_done {d d' : FrameDecoder} {result : Except DecodeError (Option DecodeEvent)}
    (h : loopBody serde bits d = .done result d') : nextEvent serde bits d = (result, d') := by
  rw [nextEvent]
  split <;> simp_all

theorem nextEvent_again {d d' : FrameDecoder} (h : loopBody serde bits d = .again d') :
    nextEvent serde bits d = nextEvent serde bits d' := by
  rw [nextEvent]
  split <;> simp_all

/-- An event is paid for with at least one byte of the buffer. -/
theorem nextEvent_event_lt {d d' : FrameDecoder} {event : DecodeEvent}
    (h : nextEvent serde bits d = (.ok (some event), d')) : d'.buf.length < d.buf.length := by
  induction hlen : d.buf.length using Nat.strongRecOn generalizing d with
  | ind len ih =>
      subst hlen
      cases hbody : loopBody serde bits d with
      | again d₁ =>
          have hlt := loopBody_again_lt serde bits hbody
          rw [nextEvent_again serde bits hbody] at h
          have := ih _ hlt h rfl
          omega
      | done result d₁ =>
          rw [nextEvent_done serde bits hbody] at h
          cases h
          obtain ⟨buf, state⟩ := d
          cases state with
          | poisoned error => simp [loopBody] at hbody
          | body length pos =>
              rw [loopBody_body] at hbody
              split at hbody
              · cases hbody
              · cases hbody
                simp only [List.length_drop]
                omega
          | headers headerBytes contentLength =>
              cases hterm : findCrlf buf with
              | none =>
                  rw [loopBody_unterminated serde bits hterm] at hbody
                  split at hbody <;> cases hbody
              | some term =>
                  rw [loopBody_line serde bits hterm] at hbody
                  split at hbody <;> cases hbody

end FrameDecoder

/-- The outcome of pulling events until there is none left: `result` is the
return value of the last call. -/
structure Drained where
  events : List DecodeEvent
  result : Except DecodeError Unit
  decoder : FrameDecoder

namespace FrameDecoder

variable (serde : SerdeJson) (bits : Nat)

def drain (d : FrameDecoder) : Drained :=
  match _h : nextEvent serde bits d with
  | (.ok (some event), d') =>
      let r := drain d'
      { r with events := event :: r.events }
  | (.ok none, d') => ⟨[], .ok (), d'⟩
  | (.error error, d') => ⟨[], .error error, d'⟩
termination_by d.buf.length
decreasing_by exact nextEvent_event_lt serde bits _h

def drainChunks (d : FrameDecoder) (chunks : List (List UInt8)) : Drained :=
  chunks.foldl
    (fun r chunk =>
      let r' := drain serde bits (r.decoder.feed chunk)
      { r' with events := r.events ++ r'.events })
    ⟨[], .ok (), d⟩

theorem drain_event {d d' : FrameDecoder} {event : DecodeEvent}
    (h : nextEvent serde bits d = (.ok (some event), d')) :
    drain serde bits d =
      { drain serde bits d' with events := event :: (drain serde bits d').events } := by
  rw [drain]
  split <;> simp_all

theorem drain_none {d d' : FrameDecoder} (h : nextEvent serde bits d = (.ok none, d')) :
    drain serde bits d = ⟨[], .ok (), d'⟩ := by
  rw [drain]
  split <;> simp_all

theorem drain_error {d d' : FrameDecoder} {error : DecodeError}
    (h : nextEvent serde bits d = (.error error, d')) :
    drain serde bits d = ⟨[], .error error, d'⟩ := by
  rw [drain]
  split <;> simp_all

theorem drain_again {d d' : FrameDecoder} (h : loopBody serde bits d = .again d') :
    drain serde bits d = drain serde bits d' := by
  rw [drain, drain, nextEvent_again serde bits h]

end FrameDecoder

end IntentumdiffLsp.Codec
