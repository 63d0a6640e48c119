import IntentumdiffLsp.Foundations.Utf8
import IntentumdiffLsp.Foundations.UnixPath
import Mathlib.Data.List.Infix

namespace IntentumdiffLsp.UriPath

open Foundations
open Foundations.Utf8
open Foundations.UnixPath

/-- What the process sees of its surroundings: the current directory, empty when
it cannot be read, and the debug forms of a string and of a path. -/
structure Host where
  currentDir : Path
  currentDir_absolute : currentDir = [] ∨ isAbsolute currentDir = true
  debugStr : String → String
  debugPath : Path → String

def backslash : UInt8 := 0x5C

def hexDigit (b : UInt8) : Option UInt8 :=
  if 0x30 ≤ b ∧ b ≤ 0x39 then some (b - 0x30)
  else if 0x41 ≤ b ∧ b ≤ 0x46 then some (b - 0x41 + 10)
  else if 0x61 ≤ b ∧ b ≤ 0x66 then some (b - 0x61 + 10)
  else none

/-- An escape needs two digits behind its sign. -/
def percentBytes : List UInt8 → List UInt8
  | b :: h :: l :: rest =>
      match b == 0x25, hexDigit h, hexDigit l with
      | true, some hi, some lo => (hi * 16 + lo) :: percentBytes rest
      | _, _, _ => b :: percentBytes (h :: l :: rest)
  | bytes => bytes

def percentDecode (s : List Char) : List Char :=
  decodeLossy (percentBytes (encode s))

/-- Lexical normalization: absolute via the current directory, `.` dropped. -/
def normalize (host : Host) (path : Path) : Path :=
  let absolute := if isAbsolute path then path else push host.currentDir path
  collect ((components absolute).filter fun c => decide (c ≠ .curDir))

def isSeparator (c : Char) : Bool :=
  c == '/' || c == '\\'

def isAsciiAlphabetic (b : UInt8) : Bool :=
  (0x41 ≤ b && b ≤ 0x5A) || (0x61 ≤ b && b ≤ 0x7A)

def driveFix (text : List UInt8) : List UInt8 :=
  match text with
  | b0 :: b1 :: b2 :: rest =>
      if b0 == slash && isAsciiAlphabetic b1 && b2 == 0x3A then b1 :: b2 :: rest else text
  | _ => text

def fileScheme : List Char := "file://".toList

/-- The text behind the scheme; other schemes are refused. -/
def afterScheme (host : Host) (uri : String) : Except String (List Char) :=
  if fileScheme <+: uri.toList then .ok (uri.toList.drop fileScheme.length)
  else if "://".toList <:+: uri.toList then
    .error s!"Only file:// URIs are supported, got: {host.debugStr uri}"
  else .ok uri.toList

def uriToPath (host : Host) (uri : String) (workspaceRoot : Option Path) :
    Except String Path := do
  let rest ← afterScheme host uri
  let rawPath := rest.takeWhile fun c => !(c == '?' || c == '#')
  let decoded := percentDecode rawPath
  if (decoded.splitOnP isSeparator).any (· == ['.', '.']) then
    throw s!"Path traversal rejected in URI: {host.debugStr uri}"
  let resolved := normalize host (driveFix (encode decoded))
  match workspaceRoot with
  | none => return resolved
  | some root =>
      let root := normalize host root
      if StartsWith resolved root then return resolved
      else
        let shown := host.debugPath resolved
        let shownRoot := host.debugPath root
        throw s!"URI {host.debugStr uri} resolves to {shown} which is outside the workspace root {shownRoot}."

def behindScheme (uri : String) : List Char :=
  if fileScheme <+: uri.toList then uri.toList.drop fileScheme.length else uri.toList

/-- What the URI names behind the scheme and before a query or a fragment. -/
def pathText (uri : String) : List Char :=
  percentDecode ((behindScheme uri).takeWhile fun c => !(c == '?' || c == '#'))

def AnotherScheme (uri : String) : Prop :=
  ¬fileScheme <+: uri.toList ∧ "://".toList <:+: uri.toList

def Traverses (uri : String) : Prop :=
  ['.', '.'] ∈ (pathText uri).splitOnP isSeparator

/-- The two guards that look at the URI alone. -/
def Refused (uri : String) : Prop :=
  AnotherScheme uri ∨ Traverses uri

/-- The text of a path below the root, with slashes for backslashes. -/
def relativeText (rel : Path) : List Char :=
  (decodeLossy rel).map fun c => if c = '\\' then '/' else c

/-- No piece between slashes or backslashes is a double dot. -/
def Clean (p : Path) : Prop :=
  [dot, dot] ∉ p.splitOnP fun b => b == slash || b == backslash

theorem splitOnP_or {α : Type*} [DecidableEq α] (a b : α) (s : List α) :
    (s.splitOnP fun c => c == a || c == b) = (s.splitOn a).flatMap fun r => r.splitOn b := by
  induction s with
  | nil => simp
  | cons c s ih =>
      obtain ⟨front, back, hsplit⟩ := List.exists_cons_of_ne_nil (List.splitOn_ne_nil a s)
      obtain ⟨head, tail, hfront⟩ := List.exists_cons_of_ne_nil (List.splitOn_ne_nil b front)
      rw [List.splitOnP_cons_eq_if_modifyHead, ih, List.splitOn_cons_eq_if_modifyHead, hsplit]
      by_cases ha : c = a
      · simp [ha]
      · by_cases hb : c = b
        · subst hb
          simp [ha, List.splitOn_cons_eq_if_modifyHead]
        · simp [ha, hb, List.splitOn_cons_eq_if_modifyHead, hfront]

/-- Turning one separator into the other before the cut is cutting at both. -/
theorem splitOn_map_separator {α : Type*} [DecidableEq α] {a b : α} (s : List α) :
    (s.map fun c => if c = b then a else c).splitOn a = s.splitOnP fun c => c == a || c == b := by
  induction s with
  | nil => simp
  | cons c s ih =>
      rw [List.map_cons, List.splitOn_cons_eq_if_modifyHead, ih,
        List.splitOnP_cons_eq_if_modifyHead]
      by_cases hb : c = b
      · simp [hb]
      · by_cases ha : c = a
        · simp [ha]
        · simp [ha, hb]

theorem splitOn_slash_decodeLossy (p : Path) :
    (decodeLossy p).splitOn '/' = (p.splitOn slash).map decodeLossy :=
  splitOn_decodeLossy p (by decide : slash.toNat < 0x80)

theorem splitOn_slash_encode (s : List Char) :
    (encode s).splitOn slash = (s.splitOn '/').map encode :=
  splitOn_encode s (by decide : slash.toNat < 0x80)

theorem splitOnP_decodeLossy (p : Path) :
    (decodeLossy p).splitOnP isSeparator =
      (p.splitOnP fun b => b == slash || b == backslash).map decodeLossy := by
  have hback : ∀ r, (decodeLossy r).splitOn '\\' = (r.splitOn backslash).map decodeLossy :=
    fun r => splitOn_decodeLossy r (by decide : backslash.toNat < 0x80)
  have hchars : (decodeLossy p).splitOnP isSeparator =
      ((decodeLossy p).splitOn '/').flatMap fun r => r.splitOn '\\' := splitOnP_or _ _ _
  rw [hchars, splitOnP_or, splitOn_slash_decodeLossy, List.flatMap_map, List.map_flatMap]
  exact List.flatMap_congr fun r _ => hback r

theorem clean_iff {p : Path} :
    Clean p ↔ ['.', '.'] ∉ (decodeLossy p).splitOnP isSeparator := by
  rw [splitOnP_decodeLossy, List.mem_map, not_exists, Clean]
  constructor
  · rintro hclean piece ⟨hpiece, htext⟩
    have hbytes : piece = encode ['.', '.'] := by
      rw [← htext]
      refine eq_encode_of_decodeLossy_ascii ?_
      rw [htext]
      simp
    rw [hbytes] at hpiece
    exact hclean hpiece
  · intro hnone hmem
    exact hnone _ ⟨hmem, by decide⟩

theorem clean_iff_pieces {p : Path} : Clean p ↔ ∀ piece ∈ pieces p, Clean piece := by
  have hflat : ∀ r : Path, slash ∉ r → (Clean r ↔ [dot, dot] ∉ r.splitOn backslash) := by
    intro r hr
    rw [Clean, splitOnP_or, List.splitOn_eq_singleton hr, List.flatMap_singleton]
  rw [Clean, splitOnP_or, List.mem_flatMap, not_exists]
  constructor
  · intro h piece hpiece
    have hsplit := (mem_pieces.mp hpiece).1
    rw [hflat piece (not_mem_of_mem_splitOn hsplit)]
    exact fun hmem => h piece ⟨hsplit, hmem⟩
  · rintro h r ⟨hsplit, hmem⟩
    by_cases hname : r ≠ [] ∧ r ≠ [dot]
    · have hclean := h r (mem_pieces.mpr ⟨hsplit, hname⟩)
      rw [hflat r (not_mem_of_mem_splitOn hsplit)] at hclean
      exact hclean hmem
    · rcases Decidable.not_and_iff_not_or_not.mp hname with hnil | hdot
      · rw [Decidable.not_not.mp hnil] at hmem
        revert hmem
        decide
      · rw [Decidable.not_not.mp hdot] at hmem
        revert hmem
        decide

theorem clean_congr {p q : Path} (h : pieces p = pieces q) : Clean p ↔ Clean q := by
  rw [clean_iff_pieces, clean_iff_pieces, h]

section Normalize

variable {host : Host}

theorem filter_components (p : Path) :
    (components p).filter (fun c => decide (c ≠ .curDir)) =
      (if isAbsolute p then [.rootDir] else []) ++ (pieces p).map component := by
  have hnames : ((pieces p).map component).filter (fun c => decide (c ≠ .curDir)) =
      (pieces p).map component := by
    rw [List.filter_eq_self]
    intro c hc
    obtain ⟨piece, -, rfl⟩ := List.mem_map.mp hc
    unfold component
    split <;> simp
  rw [components, List.filter_append, hnames]
  congr 1
  split
  · rfl
  · split <;> rfl

theorem normalize_eq_absolute {path : Path} (h : isAbsolute path = true) :
    normalize host path = collect (.rootDir :: (pieces path).map component) := by
  simp only [normalize, h, if_true, filter_components]
  rfl

theorem normalize_absolute (host : Host) {path : Path} (h : isAbsolute path = true) :
    isAbsolute (normalize host path) = true ∧ pieces (normalize host path) = pieces path := by
  rw [normalize_eq_absolute h]
  exact collect_absolute fun _ => isName_of_mem_pieces

theorem normalize_relative {path : Path} (h : isAbsolute path = false)
    (hcwd : isAbsolute host.currentDir = true) :
    normalize host path = normalize host (push host.currentDir path) := by
  simp only [normalize, h, isAbsolute_push hcwd path, if_true]
  rfl

theorem normalize_relative_bare {path : Path} (h : isAbsolute path = false)
    (hcwd : host.currentDir = []) :
    normalize host path = collect ((pieces path).map component) := by
  have hpush : push [] path = path := by
    rw [push, if_neg (by simp [h]), if_pos (.inl rfl)]
    rfl
  have hif : (if isAbsolute path = true then path else push host.currentDir path) = path := by
    rw [if_neg (by simp [h]), hcwd, hpush]
  simp only [normalize, hif, filter_components]
  rw [if_neg (by simp [h])]
  rfl

theorem normalize_normalize (path : Path) :
    normalize host (normalize host path) = normalize host path := by
  have habsolute : ∀ q, isAbsolute q = true →
      normalize host (normalize host q) = normalize host q := by
    intro q hq
    obtain ⟨hnorm, hpieces⟩ := normalize_absolute host hq
    rw [normalize_eq_absolute hnorm, hpieces, normalize_eq_absolute hq]
  rcases hpath : isAbsolute path with _ | _
  · rcases host.currentDir_absolute with hcwd | hcwd
    · have hnames : ∀ name ∈ pieces path, IsName name := fun _ => isName_of_mem_pieces
      rw [normalize_relative_bare hpath hcwd,
        normalize_relative_bare (isAbsolute_collect hnames) hcwd, pieces_collect hnames]
    · rw [normalize_relative hpath hcwd]
      exact habsolute _ (isAbsolute_push hcwd path)
  · exact habsolute path hpath

theorem pieces_driveFix (text : List UInt8) : pieces (driveFix text) = pieces text := by
  unfold driveFix
  split
  · split
    · rename_i b0 b1 b2 rest hfix
      simp only [Bool.and_eq_true, beq_iff_eq] at hfix
      rw [hfix.1.1, pieces_slash_cons]
    · rfl
  · rfl

/-- The normalized path has the names of the current directory, for a relative
path, and then its own. -/
theorem normalize_pieces (hcwd : isAbsolute host.currentDir = true) (path : Path) :
    isAbsolute (normalize host path) = true ∧
      (pieces (normalize host path) = pieces path ∨
        pieces (normalize host path) = pieces host.currentDir ++ pieces path) := by
  rcases hpath : isAbsolute path with _ | _
  · obtain ⟨hnorm, hpieces⟩ := normalize_absolute host (isAbsolute_push hcwd path)
    rw [normalize_relative hpath hcwd]
    exact ⟨hnorm, .inr (hpieces.trans (pieces_push _ hpath))⟩
  · obtain ⟨hnorm, hpieces⟩ := normalize_absolute host hpath
    exact ⟨hnorm, .inl hpieces⟩

theorem afterScheme_cases (host : Host) (uri : String) :
    (AnotherScheme uri ∧ ∃ e, afterScheme host uri = .error e) ∨
      (¬AnotherScheme uri ∧ afterScheme host uri = .ok (behindScheme uri)) := by
  rw [AnotherScheme, afterScheme, behindScheme]
  split_ifs with hfile hother
  · exact .inr ⟨fun h => h.1 hfile, rfl⟩
  · exact .inl ⟨⟨hfile, hother⟩, _, rfl⟩
  · exact .inr ⟨fun h => hother h.2, rfl⟩

theorem uriToPath_eq_ok {uri : String} {workspaceRoot : Option Path} {p : Path} :
    uriToPath host uri workspaceRoot = .ok p ↔
      ¬Refused uri ∧ p = normalize host (driveFix (encode (pathText uri))) ∧
        ∀ root ∈ workspaceRoot, StartsWith p (normalize host root) := by
  have hguard : ((pathText uri).splitOnP isSeparator).any (· == ['.', '.']) = true ↔
      Traverses uri := by
    rw [List.any_beq', List.contains_iff_mem, Traverses]
  rw [Refused, not_or]
  rcases afterScheme_cases host uri with ⟨hother, e, hscheme⟩ | ⟨hother, hscheme⟩
  · simp only [uriToPath, hscheme, bind, Except.bind, reduceCtorEq, false_iff]
    exact fun h => h.1.1 hother
  have hdecoded : percentDecode ((behindScheme uri).takeWhile fun c => !(c == '?' || c == '#')) =
      pathText uri := rfl
  simp only [uriToPath, hscheme, bind, Except.bind, pure, Except.pure, throw, throwThe,
    MonadExceptOf.throw, hdecoded]
  split
  · rename_i htraverses
    simp only [reduceCtorEq, false_iff]
    exact fun h => h.1.2 (hguard.mp htraverses)
  rename_i htraverses
  rw [hguard] at htraverses
  have hresolved : (Except.ok (normalize host (driveFix (encode (pathText uri)))) :
      Except String Path) = .ok p ↔ p = normalize host (driveFix (encode (pathText uri))) := by
    rw [Except.ok.injEq, eq_comm]
  rcases workspaceRoot with _ | root
  · rw [hresolved]
    exact ⟨fun hp => ⟨⟨hother, htraverses⟩, hp, nofun⟩, fun h => h.2.1⟩
  · dsimp only
    split
    · rename_i hstarts
      rw [hresolved]
      constructor
      · intro hp
        refine ⟨⟨hother, htraverses⟩, hp, ?_⟩
        rintro root' ⟨⟩
        rw [hp]
        exact hstarts
      · exact fun h => h.2.1
    · rename_i houtside
      simp only [reduceCtorEq, false_iff]
      rintro ⟨-, hp, hstarts⟩
      rw [hp] at hstarts
      exact houtside (hstarts root rfl)

theorem clean_pathText {uri : String} : Clean (encode (pathText uri)) ↔ ¬Traverses uri := by
  rw [clean_iff, decodeLossy_encode, Traverses]

/-- An accepted URI is the normal form of a clean text, and within the root. -/
theorem uriToPath_normalize {uri : String} {workspaceRoot : Option Path} {p : Path}
    (h : uriToPath host uri workspaceRoot = .ok p) :
    (∃ text, Clean text ∧ p = normalize host text) ∧
      ∀ root ∈ workspaceRoot, StartsWith p (normalize host root) := by
  obtain ⟨hrefused, hpath, hstarts⟩ := uriToPath_eq_ok.mp h
  have hclean := clean_pathText.mpr fun htraverses => hrefused (.inr htraverses)
  exact ⟨⟨_, (clean_congr (pieces_driveFix _)).mpr hclean, hpath⟩, hstarts⟩

theorem normalize_uriToPath {uri : String} {workspaceRoot : Option Path} {p : Path}
    (h : uriToPath host uri workspaceRoot = .ok p) : normalize host p = p := by
  obtain ⟨⟨text, -, rfl⟩, -⟩ := uriToPath_normalize h
  exact normalize_normalize text

theorem uriToPath_startsWith {uri : String} {root p : Path} (hroot : normalize host root = root)
    (h : uriToPath host uri (some root) = .ok p) : StartsWith p root := by
  have hstarts := (uriToPath_normalize h).2 root rfl
  rwa [hroot] at hstarts

end Normalize

section Join

end Join

end IntentumdiffLsp.UriPath
