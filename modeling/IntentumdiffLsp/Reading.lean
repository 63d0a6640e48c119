import IntentumdiffLsp.RoundTrip

/-!
The loop with which both ends read: a chunk is fed to the decoder, and the events
in it are pulled before the next chunk is read.
-/

namespace IntentumdiffLsp.Reading

open Foundations
open IntentumdiffLsp.Json
open IntentumdiffLsp.Codec
open IntentumdiffLsp.Codec.FrameDecoder
open IntentumdiffLsp.Chunking
open IntentumdiffLsp.Grammar
open IntentumdiffLsp.RoundTrip

/-- The most that one read returns. -/
def chunkSize : Nat := 8192

/-- The inner loop is at work while `pulling`. `received` is what has been read so
far, which no step looks at. -/
structure ReadLoop where
  decoder : FrameDecoder
  pulling : Bool
  received : List UInt8

def isEvent : Except DecodeError (Option DecodeEvent) → Bool
  | .ok (some _) => true
  | _ => false

def frameOf : DecodeEvent → Option Value
  | .frame msg => some msg
  | .malformedFrame => none

def framesOf (serde : SerdeJson) (bits : Nat) (bytes : List UInt8) : List Value :=
  (drain serde bits (FrameDecoder.new.feed bytes)).events.filterMap frameOf

namespace ReadLoop

def new : ReadLoop :=
  { decoder := .new, pulling := false, received := [] }

def feed (l : ReadLoop) (chunk : List UInt8) : ReadLoop :=
  { decoder := l.decoder.feed chunk, pulling := true, received := l.received ++ chunk }

variable (serde : SerdeJson) (bits : Nat) (l : ReadLoop)

/-- One turn of the inner loop, which breaks unless there is an event. -/
def pull : Except DecodeError (Option DecodeEvent) × ReadLoop :=
  let result := nextEvent serde bits l.decoder
  (result.1, { l with decoder := result.2, pulling := isEvent result.1 })

/-- What the decoder makes of the bytes that it holds. -/
def rest : List DecodeEvent × Stop DecodeState UInt8 DecodeError :=
  (machine serde bits).drain l.decoder.state l.decoder.buf

end ReadLoop

section Pulling

variable {serde : SerdeJson} {bits : Nat} {l : ReadLoop}

theorem Refines.unique {r : Drained}
    {m m' : List DecodeEvent × Stop DecodeState UInt8 DecodeError} (h : Chunking.Refines r m)
    (h' : Chunking.Refines r m') : m = m' := by
  obtain ⟨events, stop⟩ := m
  obtain ⟨events', stop'⟩ := m'
  obtain ⟨hevents, hends⟩ := h
  obtain ⟨hevents', hends'⟩ := h'
  refine Prod.ext (hevents.symm.trans hevents') ?_
  rcases stop with ⟨state, rest⟩ | error <;> rcases stop' with ⟨state', rest'⟩ | error'
  · cases hends.2.symm.trans hends'.2
    rfl
  · cases hends.1.symm.trans hends'.1
  · cases hends.1.symm.trans hends'.1
  · cases hends.1.symm.trans hends'.1
    rfl

theorem pulling_pull (l : ReadLoop) :
    (l.pull serde bits).2.pulling = isEvent (l.pull serde bits).1 :=
  rfl

/-- An event that is pulled is the first of those the decoder holds; when there is
none it holds none. -/
theorem rest_pull (l : ReadLoop) :
    match (l.pull serde bits).1 with
    | .ok (some event) =>
        l.rest serde bits =
          (event :: ((l.pull serde bits).2.rest serde bits).1,
            ((l.pull serde bits).2.rest serde bits).2)
    | _ => l.rest serde bits = (l.pull serde bits).2.rest serde bits ∧
        ((l.pull serde bits).2.rest serde bits).1 = [] := by
  have hrefines := drain_refines serde bits l.decoder.state l.decoder.buf
  rcases hnext : nextEvent serde bits l.decoder with ⟨result, d⟩
  have hpull : l.pull serde bits =
      (result, { l with decoder := d, pulling := isEvent result }) := by
    rw [ReadLoop.pull, hnext]
  rw [hpull]
  rcases result with error | _ | event
  · rw [drain_error serde bits hnext] at hrefines
    have hfailed := Chunking.Refines.failed hrefines rfl
    have hpoisoned : (machine serde bits).drain d.state d.buf = ([], .failed error) := by
      obtain ⟨buf, state⟩ := l.decoder
      have hstate : d.state = .poisoned error := by
        have hends := hrefines.2
        rw [hfailed] at hends
        exact hends.2
      rw [hstate]
      exact (machine serde bits).drain_fail rfl
    exact ⟨Prod.ext (hrefines.1.symm.trans (congrArg Prod.fst hpoisoned).symm)
      (hfailed.trans (congrArg Prod.snd hpoisoned).symm), congrArg Prod.fst hpoisoned⟩
  · rw [drain_none serde bits hnext] at hrefines
    have hwaiting : l.rest serde bits = ([], .waiting d.state d.buf) :=
      Refines.unique hrefines ⟨rfl, rfl, rfl⟩
    have hdrained : (machine serde bits).drain d.state d.buf = ([], .waiting d.state d.buf) :=
      (machine serde bits).drain_waiting hwaiting
    exact ⟨hwaiting.trans hdrained.symm, congrArg Prod.fst hdrained⟩
  · rw [drain_event serde bits hnext] at hrefines
    have htail := drain_refines serde bits d.state d.buf
    exact Refines.unique hrefines ⟨congrArg (event :: ·) htail.1, htail.2⟩

/-- The events so far are the first ones of what has been read; what is left of them
is with the decoder, and between two chunks nothing is left. -/
structure Pulled (serde : SerdeJson) (bits : Nat) (l : ReadLoop) (events : List DecodeEvent) :
    Prop where
  split : (machine serde bits).drain (.headers 0 none) l.received =
    (events ++ (l.rest serde bits).1, (l.rest serde bits).2)
  idle : l.pulling = false → (l.rest serde bits).1 = []

theorem pulled_new : Pulled serde bits .new [] where
  split := rfl
  idle _ := congrArg Prod.fst ((machine serde bits).drain_wait rfl)

theorem Pulled.feed {events : List DecodeEvent} (h : Pulled serde bits l events)
    (chunk : List UInt8) : Pulled serde bits (l.feed chunk) events where
  split := by
    show (machine serde bits).drain (.headers 0 none) (l.received ++ chunk) = _
    have hrest : (l.feed chunk).rest serde bits =
        (machine serde bits).resume (l.rest serde bits) chunk :=
      (machine serde bits).drain_append l.decoder.state l.decoder.buf chunk
    rw [(machine serde bits).drain_append, h.split, hrest]
    exact (machine serde bits).resume_append_events events (l.rest serde bits) chunk
  idle := nofun

theorem Pulled.event {events : List DecodeEvent} {event : DecodeEvent}
    (h : Pulled serde bits l events) (hpull : (l.pull serde bits).1 = .ok (some event)) :
    Pulled serde bits (l.pull serde bits).2 (events ++ [event]) where
  split := by
    have hrest := @rest_pull serde bits l
    rw [hpull] at hrest
    rw [show (l.pull serde bits).2.received = l.received from rfl, h.split, hrest]
    simp
  idle hidle := by
    rw [pulling_pull, hpull] at hidle
    cases hidle

theorem Pulled.break {events : List DecodeEvent} (h : Pulled serde bits l events)
    (hpull : isEvent (l.pull serde bits).1 = false) :
    Pulled serde bits (l.pull serde bits).2 events := by
  have hrest := @rest_pull serde bits l
  have hsplit := h.split
  rcases hresult : (l.pull serde bits).1 with error | _ | event
  · rw [hresult] at hrest
    exact ⟨by rw [← hrest.1]; exact hsplit, fun _ => hrest.2⟩
  · rw [hresult] at hrest
    exact ⟨by rw [← hrest.1]; exact hsplit, fun _ => hrest.2⟩
  · rw [hresult] at hpull
    cases hpull

/-- A fatal error of the loop is one of the bytes that have been read. -/
theorem Pulled.fatal {events : List DecodeEvent} {error : DecodeError}
    (h : Pulled serde bits l events) (hpull : (l.pull serde bits).1 = .error error) :
    (drain serde bits (FrameDecoder.new.feed l.received)).result = .error error := by
  have hrest := drain_refines serde bits l.decoder.state l.decoder.buf
  rw [drain_error serde bits (Prod.ext hpull rfl)] at hrest
  have hfailed : (l.rest serde bits).2 = .failed error := Chunking.Refines.failed hrest rfl
  have hwhole := drain_feed_refines serde bits l.received
  rw [h.split, hfailed] at hwhole
  exact hwhole.2.1

/-- A loop that waits for the next chunk has met no error. -/
theorem Pulled.drained {events : List DecodeEvent} (h : Pulled serde bits l events)
    (hpull : (l.pull serde bits).1 = .ok none) :
    (drain serde bits (FrameDecoder.new.feed l.received)).result = .ok () := by
  have hrest := drain_refines serde bits l.decoder.state l.decoder.buf
  rw [drain_none serde bits (Prod.ext hpull rfl)] at hrest
  have hwaiting : l.rest serde bits = ([], .waiting _ _) := Refines.unique hrest ⟨rfl, rfl, rfl⟩
  have hwhole := drain_feed_refines serde bits l.received
  rw [h.split, hwaiting] at hwhole
  exact hwhole.2.1

theorem Pulled.frames_isPrefix {events : List DecodeEvent} (h : Pulled serde bits l events) :
    events.filterMap frameOf <+: framesOf serde bits l.received := by
  rw [framesOf, (drain_feed_refines serde bits l.received).1, h.split, List.filterMap_append]
  exact List.prefix_append _ _

/-- Between two chunks every frame of what has been read has been pulled. -/
theorem Pulled.frames_eq {events : List DecodeEvent} (h : Pulled serde bits l events)
    (hidle : l.pulling = false) : events.filterMap frameOf = framesOf serde bits l.received := by
  rw [framesOf, (drain_feed_refines serde bits l.received).1, h.split, h.idle hidle,
    List.append_nil]

end Pulling

section Written

variable {serde : SerdeJson}

theorem framesOf_eq (bits : Nat) (bytes : List UInt8) :
    framesOf serde bits bytes =
      ((machine serde bits).drain (.headers 0 none) bytes).1.filterMap frameOf := by
  rw [framesOf, (drain_feed_refines serde bits bytes).1]

theorem framesOf_isPrefix (bits : Nat) {bytes whole : List UInt8} (h : bytes <+: whole) :
    framesOf serde bits bytes <+: framesOf serde bits whole := by
  obtain ⟨more, rfl⟩ := h
  obtain ⟨events, hevents⟩ :=
    (machine serde bits).drain_events_isPrefix (.headers 0 none) bytes more
  rw [framesOf_eq, framesOf_eq, ← hevents, List.filterMap_append]
  exact List.prefix_append _ _

/-- A stream of messages is read as these messages, up to one that is over the cap, at
which the decoder gives up. -/
theorem framesOf_messages_cases {msgs : List Value} (h : ∀ msg ∈ msgs, serde.Faithful msg) :
    framesOf serde 64 (msgs.flatMap (encodeMessage serde)) = msgs ∨
      framesOf serde 64 (msgs.flatMap (encodeMessage serde)) <+: msgs ∧
        ∃ error, ((machine serde 64).drain (.headers 0 none)
          (msgs.flatMap (encodeMessage serde))).2 = .failed error := by
  induction msgs with
  | nil =>
      left
      rw [framesOf_eq, List.flatMap_nil, (machine serde 64).drain_wait rfl]
      rfl
  | cons msg msgs ih =>
      obtain ⟨hmsg, hmsgs⟩ := List.forall_mem_cons.mp h
      rw [framesOf_eq, List.flatMap_cons]
      rcases Nat.lt_or_ge maxBodyBytes (bodyBytes serde msg).length with hover | hfits
      · right
        rw [drain_oversize hover]
        exact ⟨List.nil_prefix, _, rfl⟩
      · rw [drain_message ⟨hmsg, hfits⟩]
        have hrest := ih hmsgs
        rw [framesOf_eq] at hrest
        rcases hrest with hall | ⟨hfront, hfailed⟩
        · exact .inl (congrArg (msg :: ·) hall)
        · exact .inr ⟨List.cons_prefix_cons.mpr ⟨rfl, hfront⟩, hfailed⟩

theorem framesOf_messages {msgs : List Value} (h : ∀ msg ∈ msgs, serde.Faithful msg) :
    framesOf serde 64 (msgs.flatMap (encodeMessage serde)) <+: msgs := by
  rcases framesOf_messages_cases h with hall | hfront
  · exact ⟨[], by rw [List.append_nil, hall]⟩
  · exact hfront.1

/-- A decoder that has not given up has read all of them. -/
theorem framesOf_whole {msgs : List Value} (h : ∀ msg ∈ msgs, serde.Faithful msg)
    (hresult : (drain serde 64
      (FrameDecoder.new.feed (msgs.flatMap (encodeMessage serde)))).result = .ok ()) :
    framesOf serde 64 (msgs.flatMap (encodeMessage serde)) = msgs := by
  rcases framesOf_messages_cases h with hall | ⟨-, error, hfailed⟩
  · exact hall
  · have hends := (drain_feed_refines serde 64 (msgs.flatMap (encodeMessage serde))).2
    rw [hfailed] at hends
    cases hresult.symm.trans hends.1

theorem lineVerdict_contentLengthLine {n : Nat} (hn : n < 2 ^ 63) :
    lineVerdict 64 0 none (contentLengthLine n) =
      .ok (.headers ((contentLengthLine n).length + 2) (some n)) := by
  obtain ⟨hline, htotal⟩ := contentLengthLine_caps hn
  simp only [sectionSize, List.map_cons, List.map_nil, List.sum_cons, List.sum_nil] at htotal
  have hblank : (contentLengthLine n).isEmpty = false :=
    List.isEmpty_eq_false_iff.mpr (contentLengthLine_ne_nil n)
  have hmax : max (n : Int) 0 = n := by omega
  have hlength : asUsize 64 (max (n : Int) 0) = n := by
    rw [asUsize, hmax, Int.toNat_natCast]
    exact Nat.mod_eq_of_lt (by omega)
  rw [lineVerdict, if_neg (Nat.not_lt.mpr hline), if_neg (by omega), hblank,
    headerField_contentLengthLine hn]
  simp only [Bool.false_eq_true, if_false, hlength, Nat.zero_add]

/-- The next event of a stream that begins with a message is this message. -/
theorem nextEvent_message {msg : Value} (h : Deliverable serde msg) (rest : List UInt8) :
    nextEvent serde 64 (FrameDecoder.new.feed (encodeMessage serde msg ++ rest)) =
      (.ok (some (.frame msg)), FrameDecoder.new.feed rest) := by
  let body := bodyBytes serde msg
  let line := contentLengthLine body.length
  have hbytes : encodeMessage serde msg ++ rest = line ++ crlf ++ (crlf ++ (body ++ rest)) := by
    rw [encodeMessage_eq, messageSection_text]
    simp only [List.append_assoc]
    rfl
  have hterm : findCrlf (line ++ crlf ++ (crlf ++ (body ++ rest))) = some line.length :=
    findCrlf_append_crlf (findCrlf_contentLengthLine body.length) _
  have hcaps := (contentLengthLine_caps (bodyBytes_lt serde msg)).2
  have hline : loopBody serde 64 (FrameDecoder.new.feed (encodeMessage serde msg ++ rest)) =
      .again ⟨crlf ++ (body ++ rest), .headers (line.length + 2) (some body.length)⟩ := by
    have hdrop : (line ++ crlf ++ (crlf ++ (body ++ rest))).drop (line.length + 2) =
        crlf ++ (body ++ rest) := by
      apply List.drop_left'
      rw [List.length_append]
      rfl
    rw [hbytes]
    refine (loopBody_line serde 64 hterm).trans ?_
    rw [hdrop, List.append_assoc, List.take_left,
      lineVerdict_contentLengthLine (bodyBytes_lt serde msg)]
  have hblank : loopBody serde 64
      ⟨crlf ++ (body ++ rest), .headers (line.length + 2) (some body.length)⟩ =
        .again ⟨body ++ rest, .body body.length h.pos⟩ := by
    have hcap : ¬ body.length > maxBodyBytes := Nat.not_lt.mpr h.2
    have hsection : lineVerdict 64 (line.length + 2) (some body.length) [] =
        .ok (.body body.length h.pos) := by
      rw [lineVerdict, if_neg (by decide), if_neg (by simpa [sectionSize] using hcaps),
        if_pos List.isEmpty_nil, sectionEnd, if_neg hcap, dif_pos h.pos]
    have hterm : findCrlf (crlf ++ (body ++ rest)) = some 0 := rfl
    refine (loopBody_line serde 64 hterm).trans ?_
    rw [List.take_zero, hsection]
    rfl
  have hbody : loopBody serde 64 ⟨body ++ rest, .body body.length h.pos⟩ =
      .done (.ok (some (.frame msg))) (FrameDecoder.new.feed rest) := by
    have hframe : bodyEvent serde body = .frame msg := by
      have hparsed : serde.fromSlice body = some msg := h.1
      rw [bodyEvent, hparsed]
    rw [loopBody_body, if_neg (by rw [List.length_append]; omega), List.take_left, List.drop_left,
      hframe]
    rfl
  rw [nextEvent_again serde 64 hline, nextEvent_again serde 64 hblank,
    nextEvent_done serde 64 hbody]

theorem pull_message {msg : Value} (h : Deliverable serde msg) {l : ReadLoop}
    {rest : List UInt8}
    (hdecoder : l.decoder = FrameDecoder.new.feed (encodeMessage serde msg ++ rest)) :
    l.pull serde 64 = (.ok (some (.frame msg)),
      { l with decoder := FrameDecoder.new.feed rest, pulling := true }) := by
  rw [ReadLoop.pull, hdecoder, nextEvent_message h]
  rfl

theorem pull_nothing {bits : Nat} {l : ReadLoop} (hdecoder : l.decoder = FrameDecoder.new) :
    l.pull serde bits = (.ok none, { l with pulling := false }) := by
  have hnext : nextEvent serde bits FrameDecoder.new = (.ok none, FrameDecoder.new) := by
    apply nextEvent_done
    exact (loopBody_unterminated serde bits rfl).trans (if_neg (by decide))
  rw [ReadLoop.pull, hdecoder, hnext, ← hdecoder]
  rfl

end Written

end IntentumdiffLsp.Reading
