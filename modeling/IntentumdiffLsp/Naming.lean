import IntentumdiffLsp.Containment

/-!
The file that a URI names, and the name under which the engine is given it.
-/

namespace IntentumdiffLsp.Naming

open Foundations
open Foundations.Utf8
open Foundations.UnixPath
open IntentumdiffLsp.Json
open IntentumdiffLsp.UriPath
open IntentumdiffLsp.Server
open IntentumdiffLsp.Containment

section Percent

def hexDigits (n : Fin 16) : List UInt8 :=
  [(encode "0123456789abcdef".toList).getD n 0, (encode "0123456789ABCDEF".toList).getD n 0]

/-- Any byte may be escaped; the sign of an escape and what ends a path have to be. -/
inductive Encodes : List UInt8 → List UInt8 → Prop where
  | nil : Encodes [] []
  | literal (b : UInt8) (rest bytes : List UInt8) : b ∉ encode ['%', '?', '#'] →
      Encodes rest bytes → Encodes (b :: rest) (b :: bytes)
  | escaped (high low : Fin 16) (h l : UInt8) (rest bytes : List UInt8) :
      h ∈ hexDigits high → l ∈ hexDigits low → Encodes rest bytes →
      Encodes (0x25 :: h :: l :: rest) (UInt8.ofNat (16 * high + low) :: bytes)

theorem hexDigit_of_mem : ∀ n : Fin 16, ∀ d ∈ hexDigits n, hexDigit d = some (UInt8.ofNat n) := by
  decide +kernel

theorem not_mem_hexDigits :
    ∀ n : Fin 16, (0x3F : UInt8) ∉ hexDigits n ∧ (0x23 : UInt8) ∉ hexDigits n := by
  decide +kernel

theorem percentBytes_literal {b : UInt8} (hb : b ≠ 0x25) (rest : List UInt8) :
    percentBytes (b :: rest) = b :: percentBytes rest := by
  rcases rest with _ | ⟨h, _ | ⟨l, rest⟩⟩
  · rfl
  · rfl
  · rw [percentBytes, beq_false_of_ne hb]

theorem percentBytes_escape {h l hi lo : UInt8} (hhigh : hexDigit h = some hi)
    (hlow : hexDigit l = some lo) (rest : List UInt8) :
    percentBytes (0x25 :: h :: l :: rest) = (hi * 16 + lo) :: percentBytes rest := by
  rw [percentBytes, hhigh, hlow]
  rfl

theorem percentBytes_escaped (high low : Fin 16) {h l : UInt8} (hh : h ∈ hexDigits high)
    (hl : l ∈ hexDigits low) (rest : List UInt8) :
    percentBytes (0x25 :: h :: l :: rest) =
      UInt8.ofNat (16 * high + low) :: percentBytes rest := by
  have hbyte : ∀ high low : Fin 16,
      UInt8.ofNat high * 16 + UInt8.ofNat low = UInt8.ofNat (16 * high + low) := by
    decide +kernel
  rw [percentBytes_escape (hexDigit_of_mem high h hh) (hexDigit_of_mem low l hl), hbyte]

theorem percentBytes_of_encodes {text bytes : List UInt8} (h : Encodes text bytes) :
    percentBytes text = bytes := by
  induction h with
  | nil => rfl
  | literal b rest bytes hb _ ih =>
      have hsign : b ≠ 0x25 := by
        rintro rfl
        exact hb (by decide)
      rw [percentBytes_literal hsign, ih]
  | escaped high low h l rest bytes hh hl _ ih =>
      rw [percentBytes_escaped high low hh hl, ih]

theorem path_of_encodes {text bytes : List UInt8} (h : Encodes text bytes) :
    (0x3F : UInt8) ∉ text ∧ (0x23 : UInt8) ∉ text := by
  induction h with
  | nil => exact ⟨List.not_mem_nil, List.not_mem_nil⟩
  | literal b rest bytes hb _ ih =>
      have hends : b ≠ 0x3F ∧ b ≠ 0x23 := by
        constructor
        · rintro rfl
          exact hb (by decide)
        · rintro rfl
          exact hb (by decide)
      simp only [List.mem_cons, not_or]
      exact ⟨⟨hends.1.symm, ih.1⟩, hends.2.symm, ih.2⟩
  | escaped high low h l rest bytes hh hl _ ih =>
      have hends : ∀ (n : Fin 16) (d : UInt8), d ∈ hexDigits n → 0x3F ≠ d ∧ 0x23 ≠ d := by
        intro n d hd
        constructor
        · rintro rfl
          exact (not_mem_hexDigits n).1 hd
        · rintro rfl
          exact (not_mem_hexDigits n).2 hd
      simp only [List.mem_cons, not_or]
      exact ⟨⟨by decide, (hends high h hh).1, (hends low l hl).1, ih.1⟩,
        by decide, (hends high h hh).2, (hends low l hl).2, ih.2⟩

theorem pathText_of_encodes {text : String} {bytes : List UInt8}
    (h : Encodes (encode text.toList) bytes) :
    pathText ("file://" ++ text) = decodeLossy bytes := by
  have hbehind : behindScheme ("file://" ++ text) = text.toList := by
    have hfile : fileScheme <+: ("file://" ++ text).toList := by
      rw [String.toList_append]
      exact List.prefix_append fileScheme text.toList
    rw [behindScheme, if_pos hfile, String.toList_append]
    exact List.drop_left
  have hmem : ∀ c ∈ text.toList, ∀ b ∈ String.utf8EncodeChar c, b ∈ encode text.toList :=
    fun c hc b hb => List.mem_flatMap.mpr ⟨c, hc, hb⟩
  have hends : (text.toList.takeWhile fun c => !(c == '?' || c == '#')) = text.toList := by
    rw [List.takeWhile_eq_self_iff]
    intro c hc
    have hquery : c ≠ '?' := by
      rintro rfl
      exact (path_of_encodes h).1 (hmem _ hc _ (by decide))
    have hfragment : c ≠ '#' := by
      rintro rfl
      exact (path_of_encodes h).2 (hmem _ hc _ (by decide))
    simp [hquery, hfragment]
  rw [pathText, hbehind, hends, percentDecode, percentBytes_of_encodes h]

end Percent

section Paths

variable {host : Host}

theorem pieces_encode_decodeLossy (p : Path) :
    pieces (encode (decodeLossy p)) = (pieces p).map fun piece => encode (decodeLossy piece) := by
  have hsplit : (encode (decodeLossy p)).splitOn slash =
      (p.splitOn slash).map fun piece => encode (decodeLossy piece) := by
    rw [splitOn_slash_encode, splitOn_slash_decodeLossy, List.map_map]
    rfl
  have hname : ∀ piece : List UInt8,
      (encode (decodeLossy piece) ≠ [] ∧ encode (decodeLossy piece) ≠ [dot]) ↔
        (piece ≠ [] ∧ piece ≠ [dot]) := by
    intro piece
    have hascii : ∀ s : List Char, (∀ c ∈ s, c.toNat < 0x80) →
        (encode (decodeLossy piece) = encode s ↔ piece = encode s) := by
      intro s hs
      constructor
      · intro heq
        have htext := encode_injective heq
        rw [← htext]
        exact eq_encode_of_decodeLossy_ascii (htext ▸ hs)
      · rintro rfl
        rw [decodeLossy_encode]
    exact and_congr (not_congr (hascii [] (by simp))) (not_congr (hascii ['.'] (by simp)))
  rw [pieces, pieces, hsplit, List.filter_map]
  refine congrArg _ (List.filter_congr fun piece _ => ?_)
  exact decide_eq_decide.mpr (hname piece)

/-- The path begins the way the drive of a Windows path does in a URI. -/
def HasDrive (p : Path) : Prop :=
  ∃ letter rest, p = slash :: letter :: 0x3A :: rest ∧ isAsciiAlphabetic letter = true

theorem driveFix_of_not_hasDrive {p : Path} (h : ¬HasDrive p) : driveFix p = p := by
  unfold driveFix
  split
  · rename_i b0 b1 b2 rest
    refine if_neg fun hfix => h ?_
    simp only [Bool.and_eq_true, beq_iff_eq] at hfix
    obtain ⟨⟨rfl, hletter⟩, rfl⟩ := hfix
    exact ⟨b1, rest, rfl, hletter⟩
  · rfl

theorem isAbsolute_driveFix {p : Path} (h : HasDrive p) : isAbsolute (driveFix p) = false := by
  obtain ⟨letter, rest, rfl, hletter⟩ := h
  have hslash : letter ≠ slash := by
    rintro rfl
    cases hletter
  have hfix : driveFix (slash :: letter :: 0x3A :: rest) = letter :: 0x3A :: rest := by
    rw [driveFix, hletter]
    rfl
  rw [hfix, ← Bool.not_eq_true, isAbsolute_iff]
  rintro ⟨q, hq⟩
  exact hslash (List.cons.inj hq).1

def AtRoot (host : Host) : Prop :=
  isAbsolute host.currentDir = true ∧ pieces host.currentDir = []

theorem pieces_normalize (host : Host) (path : Path) :
    pieces (normalize host path) = pieces path ∨
      pieces (normalize host path) = pieces host.currentDir ++ pieces path := by
  rcases host.currentDir_absolute with hcwd | hcwd
  · left
    rcases hpath : isAbsolute path with _ | _
    · rw [normalize_relative_bare hpath hcwd]
      exact pieces_collect fun _ => isName_of_mem_pieces
    · exact (normalize_absolute host hpath).2
  · exact (normalize_pieces hcwd path).2

/-- Taking a slash for the mark of a drive is harmless only in the root directory. -/
theorem normalize_driveFix_iff {text : Path} (h : isAbsolute text = true) :
    normalize host (driveFix text) = collect (.rootDir :: (pieces text).map component) ↔
      ¬HasDrive text ∨ AtRoot host := by
  have hnames : ∀ {p : Path}, ∀ name ∈ pieces p, IsName name := fun _ => isName_of_mem_pieces
  by_cases hdrive : HasDrive text
  · have hrelative := isAbsolute_driveFix hdrive
    rw [or_iff_right (not_not_intro hdrive), AtRoot]
    rcases host.currentDir_absolute with hcwd | hcwd
    · have hbare := normalize_relative_bare hrelative hcwd
      rw [hbare, hcwd]
      constructor
      · intro heq
        have habsolute := (collect_absolute (hnames (p := text))).1
        rw [← heq, isAbsolute_collect hnames] at habsolute
        cases habsolute
      · rintro ⟨habsolute, -⟩
        cases habsolute
    · have hpieces : pieces (push host.currentDir (driveFix text)) =
          pieces host.currentDir ++ pieces text := by
        rw [pieces_push _ hrelative, pieces_driveFix]
      rw [normalize_relative hrelative hcwd, normalize_eq_absolute (isAbsolute_push hcwd _), hpieces]
      constructor
      · intro heq
        have hall : ∀ name ∈ pieces host.currentDir ++ pieces text, IsName name := by
          intro name hname
          exact (List.mem_append.mp hname).elim isName_of_mem_pieces isName_of_mem_pieces
        have hfront := congrArg pieces heq
        rw [(collect_absolute hall).2, (collect_absolute hnames).2] at hfront
        exact ⟨hcwd, List.append_left_eq_self.mp hfront⟩
      · rintro ⟨-, hnone⟩
        rw [hnone, List.nil_append]
  · rw [driveFix_of_not_hasDrive hdrive, normalize_eq_absolute h]
    exact ⟨fun _ => .inl hdrive, fun _ => rfl⟩

theorem collect_encode {names : List (List UInt8)} (h : ∀ name ∈ names, ∃ text, name = encode text) :
    ∃ text, collect (.rootDir :: names.map component) = encode text := by
  have hfold : ∀ (names : List (List UInt8)) (buf : Path),
      (∀ name ∈ names, ∃ text, name = encode text) → (∃ text, buf = encode text) →
      ∃ text, (names.map component).foldl (fun buf c => push buf c.bytes) buf = encode text := by
    intro names
    induction names with
    | nil => exact fun _ _ hbuf => hbuf
    | cons name names ih =>
        intro buf hnames hbuf
        apply ih _ fun n hn => hnames n (List.mem_cons_of_mem _ hn)
        obtain ⟨text, htext⟩ := hnames name List.mem_cons_self
        obtain ⟨front, rfl⟩ := hbuf
        change ∃ text, push (encode front) (component name).bytes = encode text
        rw [component_bytes, htext, push]
        split_ifs
        · exact ⟨text, rfl⟩
        · exact ⟨front ++ text, (encode_append _ _).symm⟩
        · exact ⟨front ++ '/' :: text, by rw [encode_append]; rfl⟩
  exact hfold names _ h ⟨['/'], rfl⟩

/-- The path of a file below the root. -/
def filePath (root : Path) (names : List String) : Path :=
  collect (.rootDir :: (pieces root ++ names.map fun name => encode name.toList).map component)

/-- The URI names the file that the names lead to from the root. -/
structure FileUri (root : Path) (names : List String) (uri : String) : Prop where
  nonempty : names ≠ []
  proper : ∀ name ∈ names, name ≠ "" ∧ name ≠ "." ∧ name ≠ ".." ∧ '/' ∉ name.toList
  encoded : ∃ text, uri = "file://" ++ text ∧ Encodes (encode text.toList) (filePath root names)

variable {root : Path} {names : List String} {uri : String}

theorem FileUri.isName (h : FileUri root names uri) :
    ∀ piece ∈ names.map fun name => encode name.toList, IsName piece := by
  intro piece hpiece
  obtain ⟨name, hname, rfl⟩ := List.mem_map.mp hpiece
  obtain ⟨hempty, hdot, -, hslash⟩ := h.proper name hname
  have htext : ∀ other : String, name ≠ other → encode name.toList ≠ encode other.toList :=
    fun other hne heq => hne (String.toList_injective (encode_injective heq))
  exact ⟨htext "" hempty, htext "." hdot, fun hmem =>
    hslash (mem_of_mem_encode (by decide : slash.toNat < 0x80) hmem)⟩

theorem FileUri.filePath_absolute (h : FileUri root names uri) :
    isAbsolute (filePath root names) = true ∧
      pieces (filePath root names) =
        pieces root ++ names.map fun name => encode name.toList := by
  refine collect_absolute fun piece hpiece => ?_
  exact (List.mem_append.mp hpiece).elim isName_of_mem_pieces (h.isName piece)

theorem FileUri.pathText (h : FileUri root names uri) :
    UriPath.pathText uri = decodeLossy (filePath root names) := by
  obtain ⟨text, rfl, hencodes⟩ := h.encoded
  exact pathText_of_encodes hencodes

theorem FileUri.refused_iff (h : FileUri root names uri) :
    Refused uri ↔ ¬Clean (filePath root names) := by
  have hfile : ¬AnotherScheme uri := by
    rintro ⟨hother, -⟩
    obtain ⟨text, rfl, -⟩ := h.encoded
    rw [String.toList_append] at hother
    exact hother (List.prefix_append fileScheme text.toList)
  rw [Refused, or_iff_right hfile, Traverses, h.pathText, clean_iff, not_not]

theorem encode_filePath {root : Path} {names : List String}
    (hroot : ∀ piece ∈ pieces root, ∃ text, piece = encode text) :
    encode (decodeLossy (filePath root names)) = filePath root names := by
  have hall : ∀ piece ∈ pieces root ++ names.map fun name => encode name.toList,
      ∃ text, piece = encode text := by
    intro piece hpiece
    rcases List.mem_append.mp hpiece with hmem | hname
    · exact hroot piece hmem
    · obtain ⟨name, -, rfl⟩ := List.mem_map.mp hname
      exact ⟨_, rfl⟩
  obtain ⟨text, hencode⟩ := collect_encode hall
  rw [filePath, hencode, decodeLossy_encode]

/-- The names of the decoded path are the decoded names, so there are as many. -/
theorem FileUri.root_text (h : FileUri root names uri)
    (heq : filePath root names =
      normalize host (driveFix (encode (decodeLossy (filePath root names))))) :
    ∀ piece ∈ pieces root, ∃ text, piece = encode text := by
  obtain ⟨-, hpieces⟩ := h.filePath_absolute
  have hdecoded : pieces (filePath root names) =
      (pieces (filePath root names)).map fun piece => encode (decodeLossy piece) := by
    have hnormal := pieces_normalize host
      (driveFix (encode (decodeLossy (filePath root names))))
    rw [← heq, pieces_driveFix, pieces_encode_decodeLossy] at hnormal
    rcases hnormal with hsame | hmore
    · exact hsame
    · have hcount := congrArg List.length hmore
      rw [List.length_append, List.length_map] at hcount
      have hnone : pieces host.currentDir = [] := List.eq_nil_of_length_eq_zero (by omega)
      rwa [hnone, List.nil_append] at hmore
  intro piece hpiece
  have hmem : piece ∈ pieces (filePath root names) := by
    rw [hpieces]
    exact List.mem_append_left _ hpiece
  have hmap := (List.map_id _).trans hdecoded
  exact ⟨_, List.map_inj_left.mp hmap piece hmem⟩

theorem FileUri.normalize_iff (h : FileUri root names uri) :
    filePath root names =
        normalize host (driveFix (encode (decodeLossy (filePath root names)))) ↔
      (∀ piece ∈ pieces root, ∃ text, piece = encode text) ∧
        (¬HasDrive (filePath root names) ∨ AtRoot host) := by
  obtain ⟨habsolute, hpieces⟩ := h.filePath_absolute
  have hself : filePath root names =
      collect (.rootDir :: (pieces (filePath root names)).map component) := by
    rw [hpieces]
    rfl
  have hdrive : filePath root names = normalize host (driveFix (filePath root names)) ↔
      ¬HasDrive (filePath root names) ∨ AtRoot host := by
    rw [← normalize_driveFix_iff habsolute, ← hself, eq_comm]
  constructor
  · intro heq
    have hroot := h.root_text heq
    rw [encode_filePath hroot] at heq
    exact ⟨hroot, hdrive.mp heq⟩
  · rintro ⟨hroot, hfree⟩
    rw [encode_filePath hroot]
    exact hdrive.mpr hfree

theorem clean_name {name : String} (h : name ≠ ".." ∧ '/' ∉ name.toList)
    (hbackslash : '\\' ∉ name.toList) : Clean (encode name.toList) := by
  have hslash : slash ∉ encode name.toList := fun hmem =>
    h.2 (mem_of_mem_encode (by decide : slash.toNat < 0x80) hmem)
  have hother : backslash ∉ encode name.toList := fun hmem =>
    hbackslash (mem_of_mem_encode (by decide : backslash.toNat < 0x80) hmem)
  rw [Clean, splitOnP_or, List.splitOn_eq_singleton hslash, List.flatMap_singleton,
    List.splitOn_eq_singleton hother, List.mem_singleton]
  intro hdots
  have htext : encode ['.', '.'] = encode name.toList := hdots
  exact h.1 (String.toList_injective (encode_injective htext.symm))

theorem FileUri.uriToPath_iff (h : FileUri root names uri) (hroot : isAbsolute root = true) :
    uriToPath host uri (some root) = .ok (filePath root names) ↔
      Clean (filePath root names) ∧ (∀ piece ∈ pieces root, ∃ text, piece = encode text) ∧
        (¬HasDrive (filePath root names) ∨ AtRoot host) := by
  obtain ⟨habsolute, hpieces⟩ := h.filePath_absolute
  have hstarts : StartsWith (filePath root names) (normalize host root) := by
    obtain ⟨hnormal, hsame⟩ := normalize_absolute host hroot
    rw [startsWith_iff habsolute hnormal, hsame, hpieces]
    exact List.prefix_append _ _
  rw [uriToPath_eq_ok, h.refused_iff, not_not, h.pathText, ← h.normalize_iff]
  constructor
  · exact fun hok => ⟨hok.1, hok.2.1⟩
  · rintro ⟨hclean, hpath⟩
    refine ⟨hclean, hpath, ?_⟩
    rintro root' ⟨⟩
    exact hstarts

end Paths

section Names

theorem foldl_push_names {names : List (List UInt8)} (h : ∀ name ∈ names, IsName name)
    {buf : Path} (hbuf : buf ≠ [] ∧ buf.getLast? ≠ some slash) :
    (names.map component).foldl (fun buf c => push buf c.bytes) buf =
      buf ++ names.flatMap (slash :: ·) := by
  induction names generalizing buf with
  | nil => simp
  | cons name names ih =>
      have hname := h name List.mem_cons_self
      have hpush : push buf (component name).bytes = buf ++ slash :: name := by
        rw [component_bytes, push, if_neg (by simp [not_isAbsolute_name hname]),
          if_neg (not_or.mpr hbuf)]
      have hlast : (buf ++ slash :: name).getLast? ≠ some slash := by
        rw [List.getLast?_append_of_ne_nil _ (List.cons_ne_nil _ _), List.getLast?_cons]
        intro heq
        rcases hlast : name.getLast? with _ | b
        · exact hname.1 (List.getLast?_eq_none_iff.mp hlast)
        · rw [hlast] at heq
          cases heq
          exact hname.2.2 (List.mem_of_getLast? hlast)
      rw [List.map_cons, List.foldl_cons, hpush,
        ih (fun n hn => h n (List.mem_cons_of_mem _ hn)) ⟨by simp, hlast⟩, List.flatMap_cons]
      simp

theorem splitOn_collect {names : List (List UInt8)} (h : ∀ name ∈ names, IsName name)
    (hne : names ≠ []) : (collect (names.map component)).splitOn slash = names := by
  obtain ⟨name, names, rfl⟩ := List.exists_cons_of_ne_nil hne
  have hname := h name List.mem_cons_self
  have hfirst : push [] (component name).bytes = name := by
    rw [component_bytes, push, if_neg (by simp [not_isAbsolute_name hname]), if_pos (.inl rfl)]
    rfl
  have hlast : name.getLast? ≠ some slash := fun heq => hname.2.2 (List.mem_of_getLast? heq)
  have hrest : ∀ n ∈ names, IsName n := fun n hn => h n (List.mem_cons_of_mem _ hn)
  rw [List.map_cons, collect, List.foldl_cons, hfirst, foldl_push_names hrest ⟨hname.1, hlast⟩]
  clear hfirst hlast hne h
  induction names generalizing name with
  | nil => rw [List.flatMap_nil, List.append_nil, List.splitOn_eq_singleton hname.2.2]
  | cons next names ih =>
      rw [List.flatMap_cons, List.cons_append, List.splitOn_append_cons_self,
        List.splitOn_eq_singleton hname.2.2,
        ih next (hrest next List.mem_cons_self) fun n hn => hrest n (List.mem_cons_of_mem _ hn)]
      rfl

theorem flatMap_splitOn_iff {α : Type*} [DecidableEq α] {sep : α} {names : List (List α)} :
    (names.flatMap fun name => name.splitOn sep) = names ↔ ∀ name ∈ names, sep ∉ name := by
  constructor
  · intro heq name hname
    rw [← heq] at hname
    obtain ⟨whole, -, hpart⟩ := List.mem_flatMap.mp hname
    exact not_mem_of_mem_splitOn hpart
  · intro hnone
    rw [List.flatMap_congr fun name hname => List.splitOn_eq_singleton (hnone name hname)]
    exact List.flatMap_singleton' names

variable {host : Host} {root : Path} {names : List String} {uri : String}

theorem FileUri.splitOn_rel (h : FileUri root names uri) :
    (relOf (collect ((names.map fun name => encode name.toList).map component))).toList.splitOn '/' =
      (names.map String.toList).flatMap fun name => name.splitOn '\\' := by
  have hne : (names.map fun name => encode name.toList) ≠ [] := by
    simpa using h.nonempty
  have hchars : ∀ s : List Char,
      s.splitOnP isSeparator = (s.splitOn '/').flatMap fun r => r.splitOn '\\' :=
    fun s => splitOnP_or _ _ s
  have htexts : ((names.map fun name => encode name.toList).map decodeLossy) =
      names.map String.toList := by
    rw [List.map_map]
    exact List.map_congr_left fun name _ => decodeLossy_encode name.toList
  rw [relOf, String.toList_ofList, relativeText, splitOn_map_separator]
  refine (hchars _).trans ?_
  rw [splitOn_slash_decodeLossy, splitOn_collect h.isName hne, htexts]

theorem FileUri.stripBase_filePath (h : FileUri root names uri) (hroot : isAbsolute root = true) :
    stripBase (filePath root names) root =
      some (collect ((names.map fun name => encode name.toList).map component)) :=
  stripBase_eq h.filePath_absolute.1 hroot h.filePath_absolute.2

/-- The engine may be asked for a diff of the document with these, after an edit of
it or for a comparison of it with itself. -/
def DiffedUnder (host : Host) (root : Path) (uri : String) (path : Path) (rel : String) : Prop :=
  ∃ (ctx : Context) (now : Env) (s : ServerState), ctx.host = host ∧ s.root = some root ∧
    (.diff path rel ∈ (servedDiff ctx now s uri).1 ∨
      ∃ params, uriParam params "oldUri" = uri ∧ uriParam params "newUri" = uri ∧
        .diff path rel ∈ (semanticDiffRequest ctx now s params).1)

theorem diffedUnder_iff {path : Path} {rel : String} :
    DiffedUnder host root uri path rel ↔
      uriToPath host uri (some root) = .ok path ∧
        ∃ below, stripBase path root = some below ∧ rel = relOf below := by
  constructor
  · rintro ⟨ctx, now, s, rfl, hroot, hcall⟩
    have hjustified : Justified ctx.host root (uri, uri) (.diff path rel) := by
      rcases hcall with hserved | ⟨params, hold, hnew, hrequest⟩
      · obtain ⟨root', hroot', hjustified⟩ := servedDiff_justified hserved
        cases hroot.symm.trans hroot'
        exact hjustified
      · obtain ⟨root', hroot', hjustified⟩ := semanticDiffRequest_justified hrequest
        cases hroot.symm.trans hroot'
        rwa [hold, hnew] at hjustified
    obtain ⟨old, new, -, hnew, hread | hread | ⟨below, hbelow, hdiff⟩⟩ := hjustified
    · cases hread
    · cases hread
    · cases hdiff
      exact ⟨hnew, below, hbelow, rfl⟩
  · rintro ⟨hpath, below, hbelow, rfl⟩
    refine ⟨{ echo with host := host }, echoEnv,
      { ServerState.new "" "" with root := some root, contentCache := fun _ => some "" },
      rfl, rfl, .inl ?_⟩
    simp only [servedDiff, hpath, hbelow]
    exact List.mem_singleton.mpr rfl

/-- The path is the one of the file, and the engine is given the names below the root. -/
structure Faithful (host : Host) (root : Path) (names : List String) (uri : String) : Prop where
  path : uriToPath host uri (some root) = .ok (filePath root names)
  named : ∀ path rel, DiffedUnder host root uri path rel →
    path = filePath root names ∧ rel.toList.splitOn '/' = names.map String.toList

/-- What is read in another way on the way is absent: bytes that are no text, double
dots behind a backslash, the drive of a Windows path, a backslash in a name. -/
structure Ordinary (host : Host) (root : Path) (names : List String) : Prop where
  utf8 : ∀ piece ∈ pieces root, ∃ text, piece = encode text
  clean : Clean root
  drive : ¬HasDrive (filePath root names) ∨ AtRoot host
  slashes : ∀ name ∈ names, '\\' ∉ name.toList

theorem FileUri.clean_iff (h : FileUri root names uri)
    (hslashes : ∀ name ∈ names, '\\' ∉ name.toList) :
    Clean (filePath root names) ↔ Clean root := by
  rw [clean_iff_pieces, h.filePath_absolute.2, clean_iff_pieces]
  constructor
  · exact fun hall piece hpiece => hall piece (List.mem_append_left _ hpiece)
  · intro hroot piece hpiece
    rcases List.mem_append.mp hpiece with hold | hname
    · exact hroot piece hold
    · obtain ⟨name, hmem, rfl⟩ := List.mem_map.mp hname
      exact clean_name (h.proper name hmem).2.2 (hslashes name hmem)

theorem FileUri.named_iff (h : FileUri root names uri) (hroot : isAbsolute root = true)
    (hpath : uriToPath host uri (some root) = .ok (filePath root names)) :
    (∀ path rel, DiffedUnder host root uri path rel →
        path = filePath root names ∧ rel.toList.splitOn '/' = names.map String.toList) ↔
      ∀ name ∈ names, '\\' ∉ name.toList := by
  have hstrip := h.stripBase_filePath hroot
  have hslashes : ((names.map String.toList).flatMap fun name => name.splitOn '\\') =
      names.map String.toList ↔ ∀ name ∈ names, '\\' ∉ name.toList := by
    rw [flatMap_splitOn_iff, List.forall_mem_map]
  rw [← hslashes, ← h.splitOn_rel]
  constructor
  · intro hnamed
    exact (hnamed _ _ (diffedUnder_iff.mpr ⟨hpath, _, hstrip, rfl⟩)).2
  · intro hsplit path rel hdiffed
    obtain ⟨hpath', below, hbelow, rfl⟩ := diffedUnder_iff.mp hdiffed
    cases hpath.symm.trans hpath'
    cases hstrip.symm.trans hbelow
    exact ⟨rfl, hsplit⟩

theorem FileUri.faithful_iff (h : FileUri root names uri) (hroot : isAbsolute root = true) :
    Faithful host root names uri ↔ Ordinary host root names := by
  constructor
  · rintro ⟨hpath, hnamed⟩
    have hslashes := (h.named_iff hroot hpath).mp hnamed
    obtain ⟨hclean, hutf8, hdrive⟩ := (h.uriToPath_iff hroot).mp hpath
    exact ⟨hutf8, (h.clean_iff hslashes).mp hclean, hdrive, hslashes⟩
  · rintro ⟨hutf8, hclean, hdrive, hslashes⟩
    have hpath := (h.uriToPath_iff hroot).mpr ⟨(h.clean_iff hslashes).mpr hclean, hutf8, hdrive⟩
    exact ⟨hpath, (h.named_iff hroot hpath).mpr hslashes⟩

end Names

/-- The file a URI names is the file that is diffed, under its own name, exactly as
long as the names are ordinary; two such files never share a name. -/
theorem file_named (host : Host) (root : Path) (hroot : isAbsolute root = true) :
    (∀ names uri, FileUri root names uri →
      (Faithful host root names uri ↔ Ordinary host root names)) ∧
    ∀ names uri names' uri', FileUri root names uri → FileUri root names' uri' →
      Ordinary host root names → Ordinary host root names' →
      ∀ path path' rel, DiffedUnder host root uri path rel → DiffedUnder host root uri' path' rel →
        names = names' := by
  constructor
  · exact fun names uri h => h.faithful_iff hroot
  · intro names uri names' uri' h h' hordinary hordinary' path path' rel hdiffed hdiffed'
    have hnames := (((h.faithful_iff hroot).mpr hordinary).named path rel hdiffed).2
    have hnames' := (((h'.faithful_iff hroot).mpr hordinary').named path' rel hdiffed').2
    have hinjective : Function.Injective String.toList := fun _ _ => String.toList_injective
    exact List.map_injective_iff.mpr hinjective (hnames.symm.trans hnames')

theorem encodes_literals (plain : List UInt8) {rest bytes : List UInt8}
    (hplain : ∀ b ∈ plain, b ∉ encode ['%', '?', '#']) (h : Encodes rest bytes) :
    Encodes (plain ++ rest) (plain ++ bytes) := by
  induction plain with
  | nil => exact h
  | cons b plain ih =>
      exact .literal b _ _ (hplain b List.mem_cons_self)
        (ih fun b' hb => hplain b' (List.mem_cons_of_mem _ hb))

theorem encodes_one (front back : String) (high low : Fin 16) {h l : UInt8}
    (hh : h ∈ hexDigits high) (hl : l ∈ hexDigits low)
    (hplain : ∀ b ∈ encode front.toList ++ encode back.toList, b ∉ encode ['%', '?', '#']) :
    Encodes (encode front.toList ++ 0x25 :: h :: l :: encode back.toList)
      (encode front.toList ++ UInt8.ofNat (16 * high + low) :: encode back.toList) := by
  have hback := encodes_literals (encode back.toList)
    (fun b hb => hplain b (List.mem_append_right _ hb)) .nil
  rw [List.append_nil] at hback
  exact encodes_literals _ (fun b hb => hplain b (List.mem_append_left _ hb))
    (.escaped high low h l _ _ hh hl hback)

theorem backslashFile : FileUri (encode "/ws".toList) ["a\\b.py"] "file:///ws/a%5Cb.py" := by
  refine ⟨by simp, by decide, "/ws/a%5Cb.py", by decide, ?_⟩
  exact encodes_one "/ws/a" "b.py" 5 12 (h := 0x35) (l := 0x43) (by decide) (by decide)
    (by decide +kernel)

theorem backslashFile_renamed :
    ¬∀ (host : Host) (root : Path) (names : List String) (uri : String), isAbsolute root = true →
      FileUri root names uri → Faithful host root names uri := by
  intro hclaim
  have hfaithful := hclaim plainHost _ _ _ rfl backslashFile
  have hordinary := (backslashFile.faithful_iff rfl).mp hfaithful
  exact hordinary.slashes _ List.mem_cons_self (by decide)

theorem spacedFile : FileUri (encode "/ws".toList) ["a b.py"] "file:///ws/a%20b.py" := by
  refine ⟨by simp, by decide, "/ws/a%20b.py", by decide, ?_⟩
  exact encodes_one "/ws/a" "b.py" 2 0 (h := 0x32) (l := 0x30) (by decide) (by decide)
    (by decide +kernel)

theorem spacedFile_faithful :
    Faithful plainHost (encode "/ws".toList) ["a b.py"] "file:///ws/a%20b.py" := by
  refine ((file_named plainHost (encode "/ws".toList) rfl).1 _ _ spacedFile).mpr ?_
  refine ⟨?_, by unfold Clean; decide, .inr ⟨rfl, by decide⟩, by decide⟩
  intro piece hpiece
  have hname : piece ∈ [encode "ws".toList] := hpiece
  exact ⟨_, List.mem_singleton.mp hname⟩

end IntentumdiffLsp.Naming
