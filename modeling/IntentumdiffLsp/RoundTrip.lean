import IntentumdiffLsp.Grammar

namespace IntentumdiffLsp.RoundTrip

open Foundations
open Foundations.Utf8
open Foundations.Text
open IntentumdiffLsp.Json
open IntentumdiffLsp.Codec
open IntentumdiffLsp.Codec.FrameDecoder
open IntentumdiffLsp.Chunking
open IntentumdiffLsp.Grammar

/-- A complete header section that keeps to the caps. -/
structure HeaderSection where
  lines : List (List UInt8)
  terminated : ∀ line ∈ lines, findCrlf line = none
  nonblank : ∀ line ∈ lines, line ≠ []
  lineCap : ∀ line ∈ lines, line.length + 2 ≤ maxHeaderLine
  totalCap : sectionSize lines + 2 ≤ maxHeadersTotal
  numeric : ∀ line ∈ lines, headerField line ≠ .invalid

def linesText (lines : List (List UInt8)) : List UInt8 :=
  lines.flatMap fun line => line ++ crlf

namespace HeaderSection

def text (sec : HeaderSection) : List UInt8 :=
  linesText sec.lines ++ crlf

def length (sec : HeaderSection) : Nat :=
  effectiveLength sec.lines

end HeaderSection

theorem findCrlf_append_crlf {line : List UInt8} (h : findCrlf line = none)
    (rest : List UInt8) : findCrlf (line ++ crlf ++ rest) = some line.length := by
  induction line with
  | nil => rfl
  | cons b line ih =>
      rw [findCrlf] at h
      split at h
      · cases h
      rename_i hhead
      have hline : findCrlf line = none := by simpa using h
      have hskip : ¬(b = cr ∧ (line ++ crlf ++ rest).head? = some lf) := by
        rcases line with _ | ⟨c, line⟩
        · rintro ⟨-, hlf⟩
          cases hlf
        · exact hhead
      rw [List.cons_append, List.cons_append, findCrlf, if_neg hskip, ih hline]
      rfl

theorem findCrlf_eq_none {buf : List UInt8} (h : cr ∉ buf) : findCrlf buf = none := by
  induction buf with
  | nil => rfl
  | cons b rest ih =>
      obtain ⟨hb, hrest⟩ := not_or.mp (mt List.mem_cons.mpr h)
      rw [findCrlf, if_neg fun hcr => hb hcr.1.symm, ih hrest]
      rfl

theorem cutLine_append_crlf {line : List UInt8} (h : findCrlf line = none)
    (rest : List UInt8) : cutLine (line ++ crlf ++ rest) = some (line, rest) := by
  rw [cutLine_eq, findCrlf_append_crlf h, Option.map_some]
  simp [crlf]

theorem cutLine_unterminated {line short more : List UInt8} (h : findCrlf line = none)
    {rest : List UInt8} (heq : short ++ more = line ++ crlf ++ rest)
    (hshort : short.length < line.length + 2) : cutLine short = none := by
  rw [cutLine_eq, Option.map_eq_none_iff]
  rcases hfind : findCrlf short with _ | term
  · rfl
  · have hwhole := findCrlf_append_some hfind more
    rw [heq, findCrlf_append_crlf h] at hwhole
    cases hwhole
    have := findCrlf_bound hfind
    omega

theorem linesText_cons (line : List UInt8) (lines : List (List UInt8)) (rest : List UInt8) :
    linesText (line :: lines) ++ crlf ++ rest =
      line ++ crlf ++ (linesText lines ++ crlf ++ rest) := by
  simp [linesText]

/-- The first lines of a section that keeps to the cap keep to it. -/
theorem sectionSize_front {front lines : List (List UInt8)}
    (h : sectionSize (front ++ lines) + 2 ≤ maxHeadersTotal) :
    sectionSize front ≤ maxHeadersTotal := by
  simp only [sectionSize, List.map_append, List.sum_append] at h ⊢
  omega

/-- Reading a section that keeps to the caps, behind the lines already seen. -/
theorem readSection_lines {seen lines : List (List UInt8)} (rest : List UInt8)
    (hterminated : ∀ line ∈ lines, findCrlf line = none)
    (hnonblank : ∀ line ∈ lines, line ≠ [])
    (hline : ∀ line ∈ lines, line.length + 2 ≤ maxHeaderLine)
    (htotal : sectionSize (seen ++ lines) + 2 ≤ maxHeadersTotal)
    (hnumeric : ∀ line ∈ lines, headerField line ≠ .invalid) :
    readSection seen (linesText lines ++ crlf ++ rest) =
      .closed (effectiveLength (seen ++ lines)) rest := by
  induction lines generalizing seen with
  | nil =>
      have hcut : cutLine (crlf ++ rest) = some ([], rest) :=
        @cutLine_append_crlf [] rfl rest
      have hsize : ¬sectionSize (seen ++ [[]]) > maxHeadersTotal := by
        rw [sectionSize_append]
        simpa using htotal
      rw [List.append_nil]
      simp only [linesText, List.flatMap_nil, List.nil_append]
      rw [readSection_line hcut, if_neg (by decide), if_neg hsize, if_pos rfl]
  | cons line lines ih =>
      simp only [List.forall_mem_cons] at hterminated hnonblank hline hnumeric
      have happend : seen ++ line :: lines = seen ++ [line] ++ lines := by simp
      rw [happend] at htotal ⊢
      have hsize := Nat.not_lt.mpr (sectionSize_front htotal)
      rw [linesText_cons, readSection_line (cutLine_append_crlf hterminated.1 _),
        if_neg (Nat.not_lt.mpr hline.1), if_neg hsize, if_neg hnonblank.1]
      have hrest := ih hterminated.2 hnonblank.2 hline.2 htotal hnumeric.2
      rcases hfield : headerField line with _ | n | _
      · exact hrest
      · exact hrest
      · exact absurd hfield hnumeric.1

theorem HeaderSection.readSection_text (sec : HeaderSection) (rest : List UInt8) :
    readSection [] (sec.text ++ rest) = .closed sec.length rest :=
  readSection_lines rest sec.terminated sec.nonblank sec.lineCap sec.totalCap sec.numeric

theorem contentLengthLine_eq (n : Nat) :
    contentLengthLine n =
      ("Content-Length: ".toList ++ decimal n).map fun c => UInt8.ofNat c.toNat := by
  apply encode_ascii
  intro c hc
  rcases List.mem_append.mp hc with hkey | hdigit
  · have hascii : ("Content-Length: ".toList.all fun c => c.toNat < 0x80) = true := by decide
    exact of_decide_eq_true (List.all_eq_true.mp hascii c hkey)
  · have := isDigit_ascii (mem_decimal hdigit)
    omega

theorem findCrlf_contentLengthLine (n : Nat) : findCrlf (contentLengthLine n) = none := by
  apply findCrlf_eq_none
  rw [contentLengthLine_eq, List.map_append, List.mem_append, not_or]
  constructor
  · decide
  · intro hmem
    obtain ⟨c, hc, heq⟩ := List.mem_map.mp hmem
    have hdigit := isDigit_ascii (mem_decimal hc)
    have hbyte := congrArg UInt8.toNat heq
    rw [toNat_ofNat_of_lt (by omega)] at hbyte
    simp only [cr, UInt8.toNat_ofNat] at hbyte
    omega

theorem length_contentLengthLine {n : Nat} (hn : n < 2 ^ 63) :
    (contentLengthLine n).length ≤ 35 := by
  have hdigits : (decimal n).length ≤ 19 :=
    (Nat.length_toDigits_le_iff (by decide) (by decide)).mpr (by omega)
  have hkey : "Content-Length: ".toList.length = 16 := by decide
  rw [contentLengthLine_eq, List.length_map, List.length_append, hkey]
  omega

theorem headerField_contentLengthLine {n : Nat} (hn : n < 2 ^ 63) :
    headerField (contentLengthLine n) = .contentLength n := by
  have hsplit : splitOnce ':' ("Content-Length: ".toList ++ decimal n) =
      some ("Content-Length".toList, ' ' :: decimal n) := by
    exact @splitOnce_append ':' "Content-Length".toList (by decide) (' ' :: decimal n)
  have hdigits : trim (' ' :: decimal n) = decimal n := by
    rw [trim_cons_whitespace (by decide)]
    exact trim_eq_self fun c hc => isDigit_not_whitespace (mem_decimal hc)
  have hkey : eqIgnoreAsciiCase (trim "Content-Length".toList) "content-length".toList = true := by
    decide
  rw [headerField, contentLengthLine, decodeLossy_encode, hsplit]
  simp only [hkey, hdigits, parseI64_decimal hn, if_true]

theorem contentLengthLine_ne_nil (n : Nat) : contentLengthLine n ≠ [] := by
  rw [contentLengthLine_eq]
  simp

theorem contentLengthLine_caps {n : Nat} (hn : n < 2 ^ 63) :
    (contentLengthLine n).length + 2 ≤ maxHeaderLine ∧
      sectionSize [contentLengthLine n] + 2 ≤ maxHeadersTotal := by
  have := length_contentLengthLine hn
  simp only [sectionSize, List.map_cons, List.map_nil, List.sum_cons, List.sum_nil,
    maxHeaderLine, maxHeadersTotal]
  omega

theorem contentLengthLine_numeric {n : Nat} (hn : n < 2 ^ 63) :
    headerField (contentLengthLine n) ≠ .invalid := by
  rw [headerField_contentLengthLine hn]
  exact HeaderField.noConfusion

def lengthSection (n : Nat) (hn : n < 2 ^ 63) : HeaderSection where
  lines := [contentLengthLine n]
  terminated := List.forall_mem_singleton.mpr (findCrlf_contentLengthLine n)
  nonblank := List.forall_mem_singleton.mpr (contentLengthLine_ne_nil n)
  lineCap := List.forall_mem_singleton.mpr (contentLengthLine_caps hn).1
  totalCap := (contentLengthLine_caps hn).2
  numeric := List.forall_mem_singleton.mpr (contentLengthLine_numeric hn)

theorem lengthSection_length {n : Nat} (hn : n < 2 ^ 63) : (lengthSection n hn).length = n := by
  simp [HeaderSection.length, lengthSection, effectiveLength, lineLength,
    headerField_contentLengthLine hn]

section Blocks

variable (serde : SerdeJson)

def bodyBytes (msg : Value) : List UInt8 :=
  encode (serde.toString msg).toList

theorem bodyBytes_lt (msg : Value) : (bodyBytes serde msg).length < 2 ^ 63 :=
  serde.toString_size msg

def messageSection (msg : Value) : HeaderSection :=
  lengthSection (bodyBytes serde msg).length (bodyBytes_lt serde msg)

theorem messageSection_length (msg : Value) :
    (messageSection serde msg).length = (bodyBytes serde msg).length :=
  lengthSection_length (bodyBytes_lt serde msg)

theorem messageSection_text (msg : Value) :
    (messageSection serde msg).text =
      contentLengthLine (bodyBytes serde msg).length ++ crlf ++ crlf := by
  simp [messageSection, HeaderSection.text, lengthSection, linesText]

theorem encodeMessage_eq (msg : Value) :
    encodeMessage serde msg = (messageSection serde msg).text ++ bodyBytes serde msg := by
  rw [messageSection_text]
  rfl

/-- What may stand in a stream: a message, a section that announces no body, or
a framed body that is not JSON. -/
inductive Block where
  | message (msg : Value)
  | skipped (sec : HeaderSection) (empty : sec.length = 0)
  | malformed (sec : HeaderSection) (body : List UInt8) (announced : sec.length = body.length)
      (nonempty : 0 < body.length) (bodyCap : body.length ≤ maxBodyBytes)
      (notJson : serde.fromSlice body = none)

variable {serde}

def Block.bytes : Block serde → List UInt8
  | .message msg => encodeMessage serde msg
  | .skipped sec _ => sec.text
  | .malformed sec body _ _ _ _ => sec.text ++ body

def Block.events : Block serde → List DecodeEvent
  | .message msg => [.frame msg]
  | .skipped _ _ => []
  | .malformed _ _ _ _ _ _ => [.malformedFrame]

/-- A message that survives its serialisation and fits the cap of a body. -/
def Deliverable (serde : SerdeJson) (msg : Value) : Prop :=
  serde.Faithful msg ∧ (bodyBytes serde msg).length ≤ maxBodyBytes

theorem drain_section_text (sec : HeaderSection) (rest : List UInt8) :
    (machine serde 64).drain (.headers 0 none) (sec.text ++ rest) =
      match sectionEnd (some sec.length) with
      | .ok state => (machine serde 64).drain state rest
      | .error error => ([], .failed error) := by
  have hfollows := drain_section serde [] (sec.text ++ rest)
  rwa [sec.readSection_text] at hfollows

theorem drain_empty_section (sec : HeaderSection) (hempty : sec.length = 0)
    (rest : List UInt8) :
    (machine serde 64).drain (.headers 0 none) (sec.text ++ rest) =
      (machine serde 64).drain (.headers 0 none) rest := by
  rw [drain_section_text, hempty]
  rfl

theorem drain_announced {sec : HeaderSection} {n : Nat} (hlength : sec.length = n)
    (hpos : 0 < n) (hcap : n ≤ maxBodyBytes) (rest : List UInt8) :
    (machine serde 64).drain (.headers 0 none) (sec.text ++ rest) =
      (machine serde 64).drain (.body n hpos) rest := by
  subst hlength
  rw [drain_section_text, sectionEnd, if_neg (Nat.not_lt.mpr hcap), dif_pos hpos]

theorem drain_framed {sec : HeaderSection} {body : List UInt8}
    (hlength : sec.length = body.length) (hpos : 0 < body.length)
    (hcap : body.length ≤ maxBodyBytes) (rest : List UInt8) :
    (machine serde 64).drain (.headers 0 none) (sec.text ++ body ++ rest) =
      (bodyEvent serde body :: ((machine serde 64).drain (.headers 0 none) rest).1,
        ((machine serde 64).drain (.headers 0 none) rest).2) := by
  rw [List.append_assoc, drain_announced hlength hpos hcap, drain_body,
    if_neg (by rw [List.length_append]; omega), List.take_left, List.drop_left]

theorem Deliverable.pos {msg : Value} (h : Deliverable serde msg) :
    0 < (bodyBytes serde msg).length :=
  List.length_pos_iff.mpr h.1.toString_ne_nil

theorem drain_message {msg : Value} (h : Deliverable serde msg) (rest : List UInt8) :
    (machine serde 64).drain (.headers 0 none) (encodeMessage serde msg ++ rest) =
      (.frame msg :: ((machine serde 64).drain (.headers 0 none) rest).1,
        ((machine serde 64).drain (.headers 0 none) rest).2) := by
  have hevent : bodyEvent serde (bodyBytes serde msg) = .frame msg := by
    rw [bodyEvent, bodyBytes, h.1]
  rw [encodeMessage_eq, drain_framed (messageSection_length serde msg) h.pos h.2, hevent]

theorem drain_oversize {msg : Value} (h : maxBodyBytes < (bodyBytes serde msg).length)
    (rest : List UInt8) :
    (machine serde 64).drain (.headers 0 none) (encodeMessage serde msg ++ rest) =
      ([], .failed .bodyTooLarge) := by
  rw [encodeMessage_eq, List.append_assoc, drain_section_text, messageSection_length,
    sectionEnd, if_pos h]

/-- A block leaves the decoder where it found it. -/
theorem drain_block {block : Block serde}
    (h : ∀ msg, block = .message msg → Deliverable serde msg) (rest : List UInt8) :
    (machine serde 64).drain (.headers 0 none) (block.bytes ++ rest) =
      (block.events ++ ((machine serde 64).drain (.headers 0 none) rest).1,
        ((machine serde 64).drain (.headers 0 none) rest).2) := by
  rcases block with msg | ⟨sec, empty⟩ | ⟨sec, body, announced, nonempty, bodyCap, notJson⟩
  · exact drain_message (h msg rfl) rest
  · exact drain_empty_section sec empty rest
  · have hevent : bodyEvent serde body = .malformedFrame := by
      rw [bodyEvent, notJson]
    rw [Block.bytes, drain_framed announced nonempty bodyCap, hevent]
    rfl

theorem drain_blocks {blocks : List (Block serde)}
    (h : ∀ msg, Block.message msg ∈ blocks → Deliverable serde msg) (rest : List UInt8) :
    (machine serde 64).drain (.headers 0 none) (blocks.flatMap Block.bytes ++ rest) =
      (blocks.flatMap Block.events ++ ((machine serde 64).drain (.headers 0 none) rest).1,
        ((machine serde 64).drain (.headers 0 none) rest).2) := by
  induction blocks with
  | nil => rfl
  | cons block blocks ih =>
      have hblock : ∀ msg, block = .message msg → Deliverable serde msg := by
        rintro msg rfl
        exact h msg List.mem_cons_self
      have hblocks := ih fun msg hmsg => h msg (List.mem_cons_of_mem block hmsg)
      rw [List.flatMap_cons, List.append_assoc, drain_block hblock, hblocks,
        List.flatMap_cons, List.append_assoc]

theorem drain_nil {bits : Nat} :
    (machine serde bits).drain (.headers 0 none) [] = ([], .waiting (.headers 0 none) []) :=
  (machine serde bits).drain_wait rfl

theorem readSection_short {msg : Value} {short more : List UInt8}
    (heq : short ++ more = encodeMessage serde msg)
    (hshort : short.length < (messageSection serde msg).text.length) :
    readSection [] short = .unfinished := by
  let line := contentLengthLine (bodyBytes serde msg).length
  have hline : findCrlf line = none := findCrlf_contentLengthLine _
  have hcap : line.length ≤ 35 := length_contentLengthLine (bodyBytes_lt serde msg)
  rw [messageSection_text, List.length_append, List.length_append] at hshort
  change short.length < line.length + 2 + 2 at hshort
  have htext : short ++ more = line ++ crlf ++ (crlf ++ bodyBytes serde msg) := by
    rw [heq, encodeMessage_eq, messageSection_text, List.append_assoc]
  by_cases hfirst : short.length < line.length + 2
  · rw [readSection_no_line (cutLine_unterminated hline htext hfirst), if_neg]
    simp only [maxHeaderLine]
    omega
  · obtain ⟨tail, rfl⟩ : line ++ crlf <+: short := by
      refine List.prefix_of_prefix_length_le ⟨_, htext.symm⟩ ⟨more, rfl⟩ ?_
      rw [List.length_append]
      change line.length + 2 ≤ short.length
      omega
    have htail : tail ++ more = [] ++ crlf ++ bodyBytes serde msg := by
      rw [List.append_assoc] at htext
      exact List.append_cancel_left htext
    have hlength : tail.length < 2 := by
      simp only [List.length_append] at hshort
      change line.length + 2 + tail.length < line.length + 2 + 2 at hshort
      omega
    have hnone : cutLine tail = none :=
      @cutLine_unterminated [] tail _ rfl _ htail hlength
    have hsize : ¬sectionSize ([] ++ [line]) > maxHeadersTotal := by
      simp only [sectionSize, List.nil_append, List.map_cons, List.map_nil, List.sum_cons,
        List.sum_nil, maxHeadersTotal]
      omega
    have hne : line ≠ [] := (messageSection serde msg).nonblank line List.mem_cons_self
    have hlong : ¬line.length + 2 > maxHeaderLine := by
      simp only [maxHeaderLine]
      omega
    have hfield : headerField line = .contentLength (bodyBytes serde msg).length :=
      headerField_contentLengthLine (bodyBytes_lt serde msg)
    rw [readSection_line (cutLine_append_crlf hline tail), if_neg hlong, if_neg hsize,
      if_neg hne, hfield]
    simp only
    rw [readSection_no_line hnone, if_neg]
    simp only [maxHeaderLine]
    omega

/-- A frame that has not arrived completely yields nothing yet. -/
theorem drain_message_short {msg : Value} (h : Deliverable serde msg) {short more : List UInt8}
    (heq : short ++ more = encodeMessage serde msg) (hmore : more ≠ []) :
    ∃ state rest,
      (machine serde 64).drain (.headers 0 none) short = ([], .waiting state rest) := by
  by_cases hheader : short.length < (messageSection serde msg).text.length
  · have hfollows := drain_section serde [] short
    rw [readSection_short heq hheader] at hfollows
    exact hfollows
  · rw [encodeMessage_eq] at heq
    obtain ⟨rest, rfl⟩ : (messageSection serde msg).text <+: short :=
      List.prefix_of_prefix_length_le ⟨_, rfl⟩ ⟨more, heq⟩ (Nat.le_of_not_lt hheader)
    have hrest : rest.length < (bodyBytes serde msg).length := by
      have hpos := List.length_pos_iff.mpr hmore
      have hlength := congrArg List.length heq
      simp only [List.length_append] at hlength
      omega
    rw [drain_announced (messageSection_length serde msg) h.pos h.2, drain_body, if_pos hrest]
    exact ⟨_, _, rfl⟩

end Blocks

/-- Draining a stream of messages and noise yields its events in order and leaves
a fresh decoder; a message over the cap of a body ends the stream for good. -/
theorem drain_stream (serde : SerdeJson) (blocks : List (Block serde))
    (hfaithful : ∀ msg, Block.message msg ∈ blocks → serde.Faithful msg) :
    ((∀ msg, Block.message msg ∈ blocks → (bodyBytes serde msg).length ≤ maxBodyBytes) →
      drain serde 64 (new.feed (blocks.flatMap Block.bytes)) =
        ⟨blocks.flatMap Block.events, .ok (), new⟩) ∧
    ∀ front big back more, blocks = front ++ .message big :: back →
      (∀ msg, Block.message msg ∈ front → (bodyBytes serde msg).length ≤ maxBodyBytes) →
      maxBodyBytes < (bodyBytes serde big).length →
      (drain serde 64 (new.feed (blocks.flatMap Block.bytes ++ more))).events =
          front.flatMap Block.events ∧
        (drain serde 64 (new.feed (blocks.flatMap Block.bytes ++ more))).result =
          .error .bodyTooLarge := by
  constructor
  · intro hcap
    have hrefines := drain_feed_refines serde 64 (blocks.flatMap Block.bytes)
    have hblocks := drain_blocks (fun msg hmsg => ⟨hfaithful msg hmsg, hcap msg hmsg⟩) []
    rw [List.append_nil, drain_nil, List.append_nil] at hblocks
    rw [hblocks] at hrefines
    obtain ⟨hevents, hresult, hdecoder⟩ := hrefines
    rcases hdrained : drain serde 64 (new.feed (blocks.flatMap Block.bytes)) with
      ⟨events, result, decoder⟩
    rw [hdrained] at hevents hresult hdecoder
    cases hevents
    cases hresult
    cases hdecoder
    rfl
  · rintro front big back more rfl hcap hbig
    have hfront := drain_blocks
      (fun msg hmsg => ⟨hfaithful msg (List.mem_append_left _ hmsg), hcap msg hmsg⟩)
      (encodeMessage serde big ++ (back.flatMap Block.bytes ++ more))
    rw [drain_oversize hbig, List.append_nil] at hfront
    have htext : (front ++ Block.message big :: back).flatMap Block.bytes ++ more =
        front.flatMap Block.bytes ++
          (encodeMessage serde big ++ (back.flatMap Block.bytes ++ more)) := by
      simp [Block.bytes]
    have hrefines := drain_feed_refines serde 64
      ((front ++ Block.message big :: back).flatMap Block.bytes ++ more)
    rw [htext, hfront] at hrefines
    rw [htext]
    exact ⟨hrefines.1, hrefines.2.1⟩

def nullJson : SerdeJson where
  toString _ := "null"
  fromSlice body := if body = encode "null".toList then some .null else none
  toString_size _ := by decide
  fromSlice_empty := by decide

theorem nullJson_faithful : nullJson.Faithful .null := by
  change (if encode "null".toList = encode "null".toList then some Value.null else none) = _
  exact if_pos rfl

def noisyNulls : List (Block nullJson) :=
  [.message .null,
    .skipped ⟨[], by simp, by simp, by simp, by decide, by simp⟩ rfl,
    .malformed (lengthSection 1 (by decide)) [0x78] (lengthSection_length (by decide))
      (by decide) (by decide) (by decide),
    .message .null]

theorem drain_noisyNulls :
    drain nullJson 64 (new.feed (noisyNulls.flatMap Block.bytes)) =
      ⟨[.frame .null, .malformedFrame, .frame .null], .ok (), new⟩ := by
  refine (drain_stream nullJson noisyNulls ?_).1 ?_
  · intro msg hmsg
    have hnull : msg = .null := by simpa [noisyNulls] using hmsg
    rw [hnull]
    exact nullJson_faithful
  · intro msg _
    change (encode "null".toList).length ≤ maxBodyBytes
    decide

end IntentumdiffLsp.RoundTrip
