import IntentumdiffLsp.RoundTrip

/-!
The length that a section announces and the length that the decoder uses, on targets
of different widths.
-/

namespace IntentumdiffLsp.Announced

open Foundations
open IntentumdiffLsp.Json
open IntentumdiffLsp.Codec
open IntentumdiffLsp.Codec.FrameDecoder
open IntentumdiffLsp.Chunking
open IntentumdiffLsp.Grammar
open IntentumdiffLsp.RoundTrip

/-- The number of the last Content-Length line. -/
def lastLength (lines : List (List UInt8)) : Option Int :=
  (lines.filterMap lineLength).getLast?

section Section

variable (serde : SerdeJson) (bits : Nat)

/-- The length that the decoder holds at the blank line. -/
def heldLength (lines : List (List UInt8)) : Option Nat :=
  (lastLength lines).map fun n => asUsize bits (max n 0)

theorem heldLength_append (lines : List (List UInt8)) (line : List UInt8) :
    heldLength bits (lines ++ [line]) =
      match lineLength line with
      | some n => some (asUsize bits (max n 0))
      | none => heldLength bits lines := by
  rcases h : lineLength line with _ | n
  · simp [heldLength, lastLength, h]
  · simp [heldLength, lastLength, h]

theorem lineVerdict_blank {seen : List (List UInt8)}
    (htotal : sectionSize seen + 2 ≤ maxHeadersTotal) :
    lineVerdict bits (sectionSize seen) (heldLength bits seen) [] =
      sectionEnd (heldLength bits seen) := by
  have hsize : ¬sectionSize seen + (([] : List UInt8).length + 2) > maxHeadersTotal :=
    Nat.not_lt.mpr htotal
  rw [lineVerdict, if_neg (by decide), if_neg hsize]
  rfl

theorem lineVerdict_kept {seen : List (List UInt8)} {line : List UInt8} (hnonblank : line ≠ [])
    (hline : line.length + 2 ≤ maxHeaderLine)
    (htotal : sectionSize (seen ++ [line]) ≤ maxHeadersTotal)
    (hnumeric : headerField line ≠ .invalid) :
    lineVerdict bits (sectionSize seen) (heldLength bits seen) line =
      .ok (.headers (sectionSize (seen ++ [line])) (heldLength bits (seen ++ [line]))) := by
  rw [sectionSize_append] at htotal
  rw [lineVerdict, if_neg (Nat.not_lt.mpr hline), if_neg (Nat.not_lt.mpr htotal),
    sectionSize_append, heldLength_append, lineLength]
  simp only [List.isEmpty_iff, hnonblank, if_false]
  rcases hfield : headerField line with _ | n | _
  · rfl
  · rfl
  · exact absurd hfield hnumeric

variable {serde bits}

theorem drain_lines {seen lines : List (List UInt8)} (rest : List UInt8)
    (hterminated : ∀ line ∈ lines, findCrlf line = none)
    (hnonblank : ∀ line ∈ lines, line ≠ [])
    (hline : ∀ line ∈ lines, line.length + 2 ≤ maxHeaderLine)
    (htotal : sectionSize (seen ++ lines) + 2 ≤ maxHeadersTotal)
    (hnumeric : ∀ line ∈ lines, headerField line ≠ .invalid) :
    (machine serde bits).drain (.headers (sectionSize seen) (heldLength bits seen))
        (linesText lines ++ crlf ++ rest) =
      match sectionEnd (heldLength bits (seen ++ lines)) with
      | .ok state => (machine serde bits).drain state rest
      | .error error => ([], .failed error) := by
  induction lines generalizing seen with
  | nil =>
      have hcut : cutLine (linesText [] ++ crlf ++ rest) = some ([], rest) :=
        @cutLine_append_crlf [] rfl rest
      rw [List.append_nil] at htotal ⊢
      have hdrain := @drain_line serde bits _ _ _ hcut (sectionSize seen) (heldLength bits seen)
      rw [lineVerdict_blank bits htotal] at hdrain
      exact hdrain
  | cons line lines ih =>
      simp only [List.forall_mem_cons] at hterminated hnonblank hline hnumeric
      have happend : seen ++ line :: lines = seen ++ [line] ++ lines := by simp
      rw [happend] at htotal ⊢
      rw [linesText_cons, drain_line serde (cutLine_append_crlf hterminated.1 _),
        lineVerdict_kept bits hnonblank.1 hline.1 (sectionSize_front htotal) hnumeric.1]
      exact ih hterminated.2 hnonblank.2 hline.2 htotal hnumeric.2

/-- What follows a section is read in the state that its end sets. -/
theorem drain_section_end (sec : HeaderSection) (rest : List UInt8) :
    (machine serde bits).drain (.headers 0 none) (sec.text ++ rest) =
      match sectionEnd (heldLength bits sec.lines) with
      | .ok state => (machine serde bits).drain state rest
      | .error error => ([], .failed error) :=
  @drain_lines serde bits [] sec.lines rest sec.terminated sec.nonblank sec.lineCap sec.totalCap
    sec.numeric

end Section

section Behaviour

variable (serde : SerdeJson) (bits : Nat)

/-- Whatever follows the section and however all of it is cut into chunks, the decoder
fails at the blank line. -/
def Fails (text : List UInt8) : Prop :=
  ∀ chunks rest, chunks.flatten = text ++ rest →
    (drainChunks serde bits new chunks).events = [] ∧
      (drainChunks serde bits new chunks).result = .error .bodyTooLarge

/-- What follows the section is read as if it stood at the front. -/
def Skips (text : List UInt8) : Prop :=
  ∀ chunks rest, chunks.flatten = text ++ rest →
    (drainChunks serde bits new chunks).events = (drain serde bits (new.feed rest)).events ∧
      (drainChunks serde bits new chunks).result = (drain serde bits (new.feed rest)).result

/-- The `length` bytes behind the section are taken as one body, once they are there. -/
def Takes (text : List UInt8) (length : Nat) : Prop :=
  ∀ chunks rest, chunks.flatten = text ++ rest →
    if rest.length < length then
      (drainChunks serde bits new chunks).events = [] ∧
        (drainChunks serde bits new chunks).result = .ok () ∧
        (drainChunks serde bits new chunks).decoder.buf = rest
    else
      (drainChunks serde bits new chunks).events =
          bodyEvent serde (rest.take length) ::
            (drain serde bits (new.feed (rest.drop length))).events ∧
        (drainChunks serde bits new chunks).result =
          (drain serde bits (new.feed (rest.drop length))).result

/-- The announced length is the length used. -/
structure LengthUsed (text : List UInt8) (n : Int) : Prop where
  fails : Fails serde bits text ↔ n > maxBodyBytes
  skips : Skips serde bits text ↔ n ≤ 0
  takes : 0 < n → n ≤ maxBodyBytes → Takes serde bits text n.toNat
  cast : n > maxBodyBytes → asUsize bits (max n 0) > maxBodyBytes

section Outcome

variable {sec : HeaderSection} {length : Nat}

theorem drainChunks_section {chunks : List (List UInt8)} {rest : List UInt8}
    (h : chunks.flatten = sec.text ++ rest) :
    Refines (drainChunks serde bits new chunks)
      (match sectionEnd (heldLength bits sec.lines) with
        | .ok state => (machine serde bits).drain state rest
        | .error error => ([], .failed error)) := by
  have hrefines := drainChunks_refines serde bits chunks
  rwa [h, drain_section_end] at hrefines

variable {serde bits}

theorem fails_of_held (h : heldLength bits sec.lines = some length)
    (hlength : length > maxBodyBytes) : Fails serde bits sec.text := by
  intro chunks rest hchunks
  have hrefines := drainChunks_section serde bits hchunks
  rw [h, sectionEnd, if_pos hlength] at hrefines
  exact ⟨hrefines.1, hrefines.2.1⟩

theorem skips_of_held (h : heldLength bits sec.lines = some 0) : Skips serde bits sec.text := by
  intro chunks rest hchunks
  have hrefines := drainChunks_section serde bits hchunks
  rw [h] at hrefines
  exact hrefines.agree (drain_feed_refines serde bits rest)

theorem takes_of_held (h : heldLength bits sec.lines = some length) (hpos : 0 < length)
    (hlength : length ≤ maxBodyBytes) : Takes serde bits sec.text length := by
  intro chunks rest hchunks
  have hrefines := drainChunks_section serde bits hchunks
  rw [h, sectionEnd, if_neg (Nat.not_lt.mpr hlength), dif_pos hpos] at hrefines
  dsimp only at hrefines
  rw [drain_body] at hrefines
  split
  · rename_i hshort
    rw [if_pos hshort] at hrefines
    obtain ⟨hevents, hresult, hdecoder⟩ := hrefines
    exact ⟨hevents, hresult, congrArg FrameDecoder.buf hdecoder⟩
  · rename_i hlong
    rw [if_neg hlong] at hrefines
    have hback := drain_feed_refines serde bits (rest.drop length)
    refine ⟨?_, (Refines.result_eq hrefines).trans (Refines.result_eq hback).symm⟩
    rw [hrefines.1, hback.1]

end Outcome

section Exclusive

variable {serde bits} {text : List UInt8} {length : Nat}

theorem Skips.not_fails (h : Skips serde bits text) : ¬Fails serde bits text := by
  intro hfails
  have hflat : [text].flatten = text ++ [] := by simp
  have hempty := drain_feed_refines serde bits []
  rw [drain_nil] at hempty
  have hresult := (hfails _ _ hflat).2
  rw [(h _ _ hflat).2, hempty.2.1] at hresult
  cases hresult

theorem Takes.not_fails (h : Takes serde bits text length) (hpos : 0 < length) :
    ¬Fails serde bits text := by
  intro hfails
  have hflat : [text].flatten = text ++ [] := by simp
  have htakes := h _ _ hflat
  have hshort : ([] : List UInt8).length < length := hpos
  rw [if_pos hshort, (hfails _ _ hflat).2] at htakes
  cases htakes.2.1

theorem Takes.not_skips (h : Takes serde bits text length) : ¬Skips serde bits text := by
  intro hskips
  have hflat : [text ++ List.replicate length 0].flatten = text ++ List.replicate length 0 :=
    List.flatten_singleton
  have hcut : cutLine (List.replicate length 0) = none := by
    rw [cutLine_eq, findCrlf_eq_none, Option.map_none]
    exact fun hmem => absurd (List.eq_of_mem_replicate hmem) (by decide)
  have hnone : (drain serde bits (new.feed (List.replicate length 0))).events = [] := by
    have hrefines := drain_feed_refines serde bits (List.replicate length 0)
    rw [drain_no_line serde hcut] at hrefines
    rw [hrefines.1]
    split <;> rfl
  have htakes := h _ _ hflat
  rw [if_neg (by simp), (hskips _ _ hflat).1, hnone] at htakes
  cases htakes.1

end Exclusive

/-- A decoder that fails at the blank line holds a length over the cap there. -/
theorem over_of_fails {bits : Nat} {sec : HeaderSection} {length : Nat}
    (hheld : heldLength bits sec.lines = some length) (hfails : Fails serde bits sec.text) :
    length > maxBodyBytes := by
  by_contra hle
  rcases Nat.eq_zero_or_pos length with rfl | hpos
  · exact (skips_of_held hheld).not_fails hfails
  · exact (takes_of_held hheld hpos (Nat.not_lt.mp hle)).not_fails hpos hfails

/-- The cast is exact on what the cap admits. -/
theorem asUsize_of_le {bits : Nat} (hbits : 32 ≤ bits) {n : Int} (hn : n ≤ maxBodyBytes) :
    asUsize bits (max n 0) = n.toNat := by
  have hpow : 2 ^ 32 ≤ 2 ^ bits := Nat.pow_le_pow_right (by decide) hbits
  have hmax : (max n 0).toNat = n.toNat := by omega
  simp only [maxBodyBytes] at hn
  rw [asUsize, hmax, Nat.mod_eq_of_lt (by omega)]

theorem cast_iff {bits : Nat} (hbits : 32 ≤ bits) (n : Int) :
    (n > maxBodyBytes → asUsize bits (max n 0) > maxBodyBytes) ↔
      n < 2 ^ bits ∨ n % 2 ^ bits > maxBodyBytes := by
  have hpow : 2 ^ 32 ≤ 2 ^ bits := Nat.pow_le_pow_right (by decide) hbits
  have hcast : ((2 ^ bits : Nat) : Int) = 2 ^ bits := by push_cast; rfl
  rw [asUsize, ← hcast]
  generalize 2 ^ bits = p at hpow
  simp only [maxBodyBytes]
  constructor
  · intro h
    by_cases hlt : n < p
    · exact .inl hlt
    · have hover := h (by omega)
      right
      have hmax : (max n 0).toNat = n.toNat := by omega
      rw [hmax] at hover
      have hmod : ((n.toNat % p : Nat) : Int) = n % p := by
        rw [Int.natCast_mod, Int.toNat_of_nonneg (by omega)]
      omega
  · intro h hn
    have hmax : (max n 0).toNat = n.toNat := by omega
    have hmod : ((n.toNat % p : Nat) : Int) = n % p := by
      rw [Int.natCast_mod, Int.toNat_of_nonneg (by omega)]
    rw [hmax]
    rcases h with hlt | hover
    · rw [Nat.mod_eq_of_lt (by omega)]
      omega
    · omega

theorem heldLength_of_last {bits : Nat} {lines : List (List UInt8)} {n : Int}
    (hn : lastLength lines = some n) :
    heldLength bits lines = some (asUsize bits (max n 0)) := by
  rw [heldLength, hn, Option.map_some]

theorem lengthUsed_of_cast {bits : Nat} (hbits : 32 ≤ bits) {sec : HeaderSection} {n : Int}
    (hn : lastLength sec.lines = some n)
    (hcast : n > maxBodyBytes → asUsize bits (max n 0) > maxBodyBytes) :
    LengthUsed serde bits sec.text n := by
  have hheld := @heldLength_of_last bits sec.lines n hn
  by_cases hover : n > maxBodyBytes
  · have hfails : Fails serde bits sec.text := fails_of_held hheld (hcast hover)
    have hpos : ¬n ≤ 0 := by omega
    exact ⟨iff_of_true hfails hover, iff_of_false (fun hskips => hskips.not_fails hfails) hpos,
      fun _ hle => absurd hover (by omega), hcast⟩
  · have hle : n ≤ maxBodyBytes := by omega
    rw [asUsize_of_le hbits hle] at hheld
    by_cases hpos : 0 < n
    · have htakes : Takes serde bits sec.text n.toNat := takes_of_held hheld (by omega) (by omega)
      exact ⟨iff_of_false (htakes.not_fails (by omega)) hover,
        iff_of_false htakes.not_skips (by omega), fun _ _ => htakes, hcast⟩
    · have hzero : n.toNat = 0 := by omega
      rw [hzero] at hheld
      have hskips : Skips serde bits sec.text := skips_of_held hheld
      exact ⟨iff_of_false hskips.not_fails hover, iff_of_true hskips (by omega),
        fun hpos' => absurd hpos' hpos, hcast⟩

/-- Exactly the numbers that wrap to a length within the cap are misread, and only on
targets that are too narrow for them. -/
theorem length_used_iff {bits : Nat} (hbits : 32 ≤ bits) (sec : HeaderSection) {n : Int}
    (hn : lastLength sec.lines = some n) :
    LengthUsed serde bits sec.text n ↔ n < 2 ^ bits ∨ n % 2 ^ bits > maxBodyBytes := by
  rw [← cast_iff hbits]
  constructor
  · intro h hover
    exact over_of_fails serde (heldLength_of_last hn) (h.fails.mpr hover)
  · exact lengthUsed_of_cast serde hbits hn

end Behaviour

theorem lastLength_lengthSection {n : Nat} (hn : n < 2 ^ 63) :
    lastLength (lengthSection n hn).lines = some (n : Int) := by
  simp [lastLength, lengthSection, lineLength, headerField_contentLengthLine hn]

/-- A target as wide as the number itself misreads nothing. -/
theorem lengthUsed_wide (serde : SerdeJson) {bits : Nat} (hbits : 63 ≤ bits) (sec : HeaderSection)
    {n : Int} (hn : lastLength sec.lines = some n) : LengthUsed serde bits sec.text n := by
  obtain ⟨line, -, hline⟩ := List.mem_filterMap.mp (List.mem_of_getLast? hn)
  have hlt := lineLength_lt hline
  have hpow : (2 : Int) ^ 63 ≤ 2 ^ bits := by exact_mod_cast Nat.pow_le_pow_right (by decide) hbits
  exact lengthUsed_of_cast serde (by omega) hn
    ((cast_iff (by omega) n).mpr (.inl (Int.lt_of_lt_of_le hlt hpow)))

def shortSection : HeaderSection :=
  lengthSection 2 (by decide)

theorem length_used_short :
    lastLength shortSection.lines = some 2 ∧
      (LengthUsed nullJson 32 shortSection.text 2 ↔
        (2 : Int) < 2 ^ 32 ∨ (2 : Int) % 2 ^ 32 > maxBodyBytes) :=
  ⟨lastLength_lengthSection _,
    length_used_iff nullJson (by decide) shortSection (lastLength_lengthSection _)⟩

/-- 4 GiB and two bytes. -/
def wrappedSection : HeaderSection :=
  lengthSection 4294967298 (by decide)

/-- A 32-bit target takes a body of two bytes where more than the cap was announced. -/
theorem wrapped_taken :
    lastLength wrappedSection.lines = some 4294967298 ∧
      Takes nullJson 32 wrappedSection.text 2 ∧
      ¬LengthUsed nullJson 32 wrappedSection.text 4294967298 := by
  have hlast : lastLength wrappedSection.lines = some 4294967298 := lastLength_lengthSection _
  have hheld : heldLength 32 wrappedSection.lines = some 2 := by
    rw [heldLength, hlast]
    rfl
  have htakes : Takes nullJson 32 wrappedSection.text 2 :=
    takes_of_held hheld (by decide) (by decide)
  refine ⟨hlast, htakes, fun hused => ?_⟩
  exact htakes.not_fails (by decide) (hused.fails.mpr (by decide))

end IntentumdiffLsp.Announced
