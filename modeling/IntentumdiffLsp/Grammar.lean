import IntentumdiffLsp.Chunking

/-!
The framing grammar as a parser over the whole input, without a decoder state:
a section is judged from the list of its lines.
-/

namespace IntentumdiffLsp.Grammar

open Foundations
open IntentumdiffLsp.Json
open IntentumdiffLsp.Codec
open IntentumdiffLsp.Codec.FrameDecoder
open IntentumdiffLsp.Chunking

/-- The first line of the input, which ends at the first CRLF, and what follows
the terminator. -/
def cutLine : List UInt8 → Option (List UInt8 × List UInt8)
  | [] => none
  | b :: rest =>
      if b = cr ∧ rest.head? = some lf then some ([], rest.tail)
      else (cutLine rest).map fun p => (b :: p.1, p.2)

def sectionSize (lines : List (List UInt8)) : Nat :=
  (lines.map fun line => line.length + 2).sum

def lineLength (line : List UInt8) : Option Int :=
  match headerField line with
  | .contentLength n => some n
  | _ => none

/-- The length that the last Content-Length line announces; no such line and a
negative number count as zero. -/
def effectiveLength (lines : List (List UInt8)) : Nat :=
  ((lines.filterMap lineLength).getLastD 0).toNat

/-- How the text of one header section ends. -/
inductive SectionEnd where
  | unfinished
  | broken (error : DecodeError)
  | closed (length : Nat) (rest : List UInt8)

theorem cutLine_eq (s : List UInt8) :
    cutLine s = (findCrlf s).map fun term => (s.take term, s.drop (term + 2)) := by
  induction s with
  | nil => rfl
  | cons b rest ih =>
      rw [cutLine, findCrlf, ih]
      split
      · cases rest <;> rfl
      · cases findCrlf rest <;> rfl

theorem cutLine_lt {s line rest : List UInt8} (h : cutLine s = some (line, rest)) :
    rest.length < s.length := by
  rw [cutLine_eq] at h
  obtain ⟨term, hterm, heq⟩ := Option.map_eq_some_iff.mp h
  have hbound := findCrlf_bound hterm
  cases heq
  rw [List.length_drop]
  omega

/-- Read lines up to the blank line; `seen` are the lines of the section so far. -/
def readSection (seen : List (List UInt8)) (s : List UInt8) : SectionEnd :=
  match _h : cutLine s with
  | none => if s.length > maxHeaderLine then .broken .headerLineTooLong else .unfinished
  | some (line, rest) =>
      if line.length + 2 > maxHeaderLine then .broken .headerLineTooLong
      else if sectionSize (seen ++ [line]) > maxHeadersTotal then .broken .headersTooLarge
      else if line = [] then .closed (effectiveLength seen) rest
      else
        match headerField line with
        | .invalid => .broken .invalidContentLength
        | _ => readSection (seen ++ [line]) rest
termination_by s.length
decreasing_by all_goals exact cutLine_lt _h

theorem readSection_no_line {s : List UInt8} (h : cutLine s = none)
    (seen : List (List UInt8)) :
    readSection seen s =
      if s.length > maxHeaderLine then .broken .headerLineTooLong else .unfinished := by
  rw [readSection]
  split <;> simp_all

theorem readSection_line {s line rest : List UInt8} (h : cutLine s = some (line, rest))
    (seen : List (List UInt8)) :
    readSection seen s =
      if line.length + 2 > maxHeaderLine then .broken .headerLineTooLong
      else if sectionSize (seen ++ [line]) > maxHeadersTotal then .broken .headersTooLarge
      else if line = [] then .closed (effectiveLength seen) rest
      else
        match headerField line with
        | .invalid => .broken .invalidContentLength
        | _ => readSection (seen ++ [line]) rest := by
  rw [readSection]
  split
  · simp_all
  · rename_i line' rest' hcut
    cases h.symm.trans hcut
    rfl

theorem readSection_closed_lt {seen : List (List UInt8)} {s rest : List UInt8} {length : Nat}
    (h : readSection seen s = .closed length rest) : rest.length < s.length := by
  induction hlen : s.length using Nat.strongRecOn generalizing seen s with
  | ind len ih =>
      subst hlen
      rcases hcut : cutLine s with _ | ⟨line, rest'⟩
      · rw [readSection_no_line hcut] at h
        split at h <;> cases h
      · have hlt := cutLine_lt hcut
        rw [readSection_line hcut] at h
        split_ifs at h
        · cases h
          exact hlt
        · split at h
          · cases h
          · exact (ih _ hlt h rfl).trans hlt

/-- The reference parser: the events of the input and the result at its end. -/
def parse (serde : SerdeJson) (s : List UInt8) :
    List DecodeEvent × Except DecodeError Unit :=
  match _h : readSection [] s with
  | .unfinished => ([], .ok ())
  | .broken error => ([], .error error)
  | .closed length rest =>
      if length > maxBodyBytes then ([], .error .bodyTooLarge)
      else if length = 0 then parse serde rest
      else if rest.length < length then ([], .ok ())
      else
        let body := rest.take length
        let event := match serde.fromSlice body with
          | some msg => DecodeEvent.frame msg
          | none => DecodeEvent.malformedFrame
        let r := parse serde (rest.drop length)
        (event :: r.1, r.2)
termination_by s.length
decreasing_by
  · exact readSection_closed_lt _h
  · have := readSection_closed_lt _h
    rw [List.length_drop]
    omega

theorem lineLength_lt {line : List UInt8} {n : Int} (h : lineLength line = some n) :
    n < 2 ^ 63 := by
  unfold lineLength headerField at h
  split at h
  · rename_i heq
    split at heq
    · split at heq
      · split at heq
        · rename_i hparse
          cases heq
          cases h
          exact Text.parseI64_lt hparse
        · cases heq
      · cases heq
    · cases heq
  · cases h

/-- The length the decoder holds after these lines, on a 64-bit target. -/
def storedLength (lines : List (List UInt8)) : Option Nat :=
  (lines.filterMap lineLength).getLast?.map fun n => asUsize 64 (max n 0)

theorem sectionEnd_storedLength (lines : List (List UInt8)) :
    sectionEnd (storedLength lines) = sectionEnd (some (effectiveLength lines)) := by
  rcases hlast : (lines.filterMap lineLength).getLast? with _ | n
  · rw [storedLength, effectiveLength, List.getLastD_eq_getLast?, hlast]
    rfl
  · have hmem : n ∈ lines.filterMap lineLength := List.mem_of_getLast? hlast
    obtain ⟨line, -, hline⟩ := List.mem_filterMap.mp hmem
    have hlt := lineLength_lt hline
    have hcast : asUsize 64 (max n 0) = n.toNat := by
      unfold asUsize
      omega
    rw [storedLength, effectiveLength, List.getLastD_eq_getLast?, hlast, Option.map_some,
      Option.getD_some, hcast]

theorem sectionSize_append (lines : List (List UInt8)) (line : List UInt8) :
    sectionSize (lines ++ [line]) = sectionSize lines + (line.length + 2) := by
  simp [sectionSize]

theorem storedLength_append (lines : List (List UInt8)) (line : List UInt8) :
    storedLength (lines ++ [line]) =
      match lineLength line with
      | some n => some (asUsize 64 (max n 0))
      | none => storedLength lines := by
  cases h : lineLength line with
  | none => simp [storedLength, h]
  | some n => simp [storedLength, h]

theorem lineVerdict_section (seen : List (List UInt8)) (line : List UInt8) :
    lineVerdict 64 (sectionSize seen) (storedLength seen) line =
      if line.length + 2 > maxHeaderLine then .error .headerLineTooLong
      else if sectionSize (seen ++ [line]) > maxHeadersTotal then .error .headersTooLarge
      else if line = [] then sectionEnd (some (effectiveLength seen))
      else
        match headerField line with
        | .invalid => .error .invalidContentLength
        | _ => .ok (.headers (sectionSize (seen ++ [line])) (storedLength (seen ++ [line]))) := by
  rw [lineVerdict, sectionSize_append, storedLength_append, sectionEnd_storedLength, lineLength]
  simp only [List.isEmpty_iff]
  cases headerField line <;> rfl

section Refinement

variable (serde : SerdeJson) {bits : Nat}

theorem drain_line {s line rest : List UInt8} (hcut : cutLine s = some (line, rest))
    (headerBytes : Nat) (contentLength : Option Nat) :
    (machine serde bits).drain (.headers headerBytes contentLength) s =
      match lineVerdict bits headerBytes contentLength line with
      | .ok state => (machine serde bits).drain state rest
      | .error error => ([], .failed error) := by
  rw [cutLine_eq] at hcut
  obtain ⟨term, hterm, heq⟩ := Option.map_eq_some_iff.mp hcut
  cases heq
  rcases hverdict : lineVerdict bits headerBytes contentLength (s.take term) with error | state
  · have hpoll : (machine serde bits).poll (.headers headerBytes contentLength) s = .fail error := by
      simp only [machine, poll, hterm, hverdict]
    exact (machine serde bits).drain_fail hpoll
  · have hpoll : (machine serde bits).poll (.headers headerBytes contentLength) s =
        .take (term + 2) none state := by
      simp only [machine, poll, hterm, hverdict]
    exact (machine serde bits).drain_take hpoll

theorem drain_no_line {s : List UInt8} (hcut : cutLine s = none)
    (headerBytes : Nat) (contentLength : Option Nat) :
    (machine serde bits).drain (.headers headerBytes contentLength) s =
      if s.length > maxHeaderLine then ([], .failed .headerLineTooLong)
      else ([], .waiting (.headers headerBytes contentLength) s) := by
  rw [cutLine_eq, Option.map_eq_none_iff] at hcut
  have hpoll : (machine serde bits).poll (.headers headerBytes contentLength) s =
      if s.length > maxHeaderLine then .fail .headerLineTooLong else .wait := by
    simp only [machine, poll, hcut]
  by_cases hlong : s.length > maxHeaderLine
  · rw [if_pos hlong] at hpoll ⊢
    exact (machine serde bits).drain_fail hpoll
  · rw [if_neg hlong] at hpoll ⊢
    exact (machine serde bits).drain_wait hpoll

def Follows (m : List DecodeEvent × Stop DecodeState UInt8 DecodeError) : SectionEnd → Prop
  | .unfinished => ∃ state rest, m = ([], .waiting state rest)
  | .broken error => m = ([], .failed error)
  | .closed length rest =>
      m = match sectionEnd (some length) with
        | .ok state => (machine serde 64).drain state rest
        | .error error => ([], .failed error)

/-- Reading one section from the counters of the lines seen so far. -/
theorem drain_section (seen : List (List UInt8)) (s : List UInt8) :
    Follows serde
      ((machine serde 64).drain (.headers (sectionSize seen) (storedLength seen)) s)
      (readSection seen s) := by
  induction hlen : s.length using Nat.strongRecOn generalizing seen s with
  | ind len ih =>
      subst hlen
      rcases hcut : cutLine s with _ | ⟨line, rest⟩
      · rw [readSection_no_line hcut, drain_no_line serde hcut]
        by_cases hlong : s.length > maxHeaderLine
        · rw [if_pos hlong, if_pos hlong]
          rfl
        · rw [if_neg hlong, if_neg hlong]
          exact ⟨_, _, rfl⟩
      · have hrest := ih _ (cutLine_lt hcut) (seen ++ [line]) rest rfl
        rw [readSection_line hcut, drain_line serde hcut, lineVerdict_section]
        by_cases hlong : line.length + 2 > maxHeaderLine
        · rw [if_pos hlong, if_pos hlong]
          rfl
        rw [if_neg hlong, if_neg hlong]
        by_cases hlarge : sectionSize (seen ++ [line]) > maxHeadersTotal
        · rw [if_pos hlarge, if_pos hlarge]
          rfl
        rw [if_neg hlarge, if_neg hlarge]
        by_cases hblank : line = []
        · rw [if_pos hblank, if_pos hblank]
          rfl
        rw [if_neg hblank, if_neg hblank]
        cases headerField line with
        | invalid => rfl
        | other => exact hrest
        | contentLength n => exact hrest

def stopResult : Stop DecodeState UInt8 DecodeError → Except DecodeError Unit
  | .waiting _ _ => .ok ()
  | .failed error => .error error

theorem drain_body {length : Nat} (pos : 0 < length) (s : List UInt8) :
    (machine serde bits).drain (.body length pos) s =
      if s.length < length then ([], .waiting (.body length pos) s)
      else
        (bodyEvent serde (s.take length) ::
            ((machine serde bits).drain (.headers 0 none) (s.drop length)).1,
          ((machine serde bits).drain (.headers 0 none) (s.drop length)).2) := by
  have hpoll : (machine serde bits).poll (.body length pos) s =
      if s.length < length then .wait
      else .take length (some (bodyEvent serde (s.take length))) (.headers 0 none) := rfl
  by_cases hshort : s.length < length
  · rw [if_pos hshort] at hpoll ⊢
    exact (machine serde bits).drain_wait hpoll
  · rw [if_neg hshort] at hpoll ⊢
    exact (machine serde bits).drain_take hpoll

theorem drain_parse (s : List UInt8) :
    ((machine serde 64).drain (.headers 0 none) s).1 = (parse serde s).1 ∧
      stopResult ((machine serde 64).drain (.headers 0 none) s).2 = (parse serde s).2 := by
  induction hlen : s.length using Nat.strongRecOn generalizing s with
  | ind len ih =>
      subst hlen
      have hsection : Follows serde ((machine serde 64).drain (.headers 0 none) s)
          (readSection [] s) := drain_section serde [] s
      rw [parse]
      split
      · rename_i hread
        rw [hread] at hsection
        obtain ⟨state, rest, hdrain⟩ := hsection
        rw [hdrain]
        exact ⟨rfl, rfl⟩
      · rename_i error hread
        rw [hread] at hsection
        rw [hsection]
        exact ⟨rfl, rfl⟩
      · rename_i length rest hread
        have hlt := readSection_closed_lt hread
        rw [hread] at hsection
        simp only [Follows, sectionEnd] at hsection
        rw [hsection]
        by_cases hcap : length > maxBodyBytes
        · rw [if_pos hcap, if_pos hcap]
          exact ⟨rfl, rfl⟩
        rw [if_neg hcap, if_neg hcap]
        by_cases hzero : length = 0
        · rw [dif_neg (by omega), if_pos hzero]
          exact ih _ hlt rest rfl
        rw [dif_pos (by omega : length > 0), if_neg hzero]
        simp only [drain_body]
        by_cases hshort : rest.length < length
        · rw [if_pos hshort, if_pos hshort]
          exact ⟨rfl, rfl⟩
        rw [if_neg hshort, if_neg hshort]
        have hdrop : (rest.drop length).length < s.length := by
          rw [List.length_drop]
          omega
        have hrest := ih _ hdrop (rest.drop length) rfl
        exact ⟨congrArg₂ List.cons rfl hrest.1, hrest.2⟩

end Refinement

theorem Refines.result_eq {r : Drained}
    {m : List DecodeEvent × Stop DecodeState UInt8 DecodeError} (h : Refines r m) :
    r.result = stopResult m.2 := by
  obtain ⟨events, stop⟩ := m
  cases stop with
  | waiting state rest => exact h.2.1
  | failed error => exact h.2.1

/-- Draining a fresh decoder is parsing its input by the grammar. -/
theorem drain_eq_parse (serde : SerdeJson) (s : List UInt8) :
    (drain serde 64 (new.feed s)).events = (parse serde s).1 ∧
      (drain serde 64 (new.feed s)).result = (parse serde s).2 := by
  have hrefines := drain_feed_refines serde 64 s
  have hparse := drain_parse serde s
  exact ⟨hrefines.1.trans hparse.1, (Refines.result_eq hrefines).trans hparse.2⟩

end IntentumdiffLsp.Grammar
