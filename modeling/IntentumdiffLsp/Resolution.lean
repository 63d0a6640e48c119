import IntentumdiffLsp.Spawn

/-!
Which file a bare command is resolved to, against the first file on the PATH that can be
started.
-/

namespace IntentumdiffLsp.Spawn

open Foundations
open Foundations.Utf8
open Foundations.UnixPath

def FileSystem.startable (fs : FileSystem) (file : Path) : Bool :=
  fs.isFile file && fs.isExecutable file

/-- The files that a name can stand for, in the order of the PATH. -/
def candidates (name pathValue : List Char) : List Path :=
  ((pathValue.splitOn ':').filter fun dir => !dir.isEmpty).map fun dir =>
    push (encode dir) (encode name)

/-- The search that the code abbreviates: a file counts when it can be started. -/
def which (fs : FileSystem) (name pathValue : List Char) : Option Path :=
  (candidates name pathValue).find? fs.startable

/-- The system takes a word with a slash as it is, and looks for any other one in every
entry of the PATH; an empty entry is the working directory. -/
def CanStart (fs : FileSystem) (pathValue word : List Char) : Prop :=
  if slash ∈ encode word then fs.startable (encode word)
  else ∃ dir ∈ pathValue.splitOn ':', fs.startable (push (encode dir) (encode word))

structure ResolvesLikeWhich (fs : FileSystem) (first : List Char) (args : List (List Char))
    (pathValue : List Char) : Prop where
  found : ∀ file, which fs first pathValue = some file →
    ∃ word, resolveCommand fs (first :: args) pathValue = word :: args ∧ encode word = file
  missing : which fs first pathValue = none →
    resolveCommand fs (first :: args) pathValue = first :: args
  kept : CanStart fs pathValue first → ∀ word rest,
    resolveCommand fs (first :: args) pathValue = word :: rest → CanStart fs pathValue word

/-- The first candidate that is a file, if there is one, can be executed. -/
def FirstFileExecutable (fs : FileSystem) (name pathValue : List Char) : Prop :=
  ∀ file, (candidates name pathValue).find? fs.isFile = some file → fs.isExecutable file = true

theorem find?_eq_find?_of_imp {α : Type*} {p q : α → Bool} (himp : ∀ a, q a = true → p a = true)
    {as : List α} (hfirst : ∀ a, as.find? p = some a → q a = true) : as.find? p = as.find? q := by
  induction as with
  | nil => rfl
  | cons a as ih =>
      rcases hp : p a with _ | _
      · have hq : q a = false := by
          rw [← Bool.not_eq_true] at hp ⊢
          exact fun hq => hp (himp a hq)
        rw [List.find?_cons, hp] at hfirst
        rw [List.find?_cons, List.find?_cons, hp, hq]
        exact ih hfirst
      · have hhead : (a :: as).find? p = some a := List.find?_cons_of_pos hp
        rw [hhead, List.find?_cons_of_pos (hfirst a hhead)]

variable {fs : FileSystem} {first pathValue : List Char} {args : List (List Char)} {file : Path}

theorem startable_iff :
    fs.startable file = true ↔ fs.isFile file = true ∧ fs.isExecutable file = true :=
  Bool.and_eq_true_iff

/-- The code takes the first candidate that is a file. -/
theorem whichOn_eq (hfirst : (components (encode first)).length = 1) :
    whichOn fs first pathValue = (candidates first pathValue).find? fs.isFile := by
  rw [whichOn, if_neg (by omega), candidates, ← List.findSome?_guard, List.findSome?_map]
  rfl

theorem resolveCommand_found (hfirst : (components (encode first)).length = 1)
    (hfile : (candidates first pathValue).find? fs.isFile = some file) :
    resolveCommand fs (first :: args) pathValue = decodeLossy file :: args := by
  rw [resolveCommand, whichOn_eq hfirst, hfile]

theorem resolveCommand_missing (hfirst : (components (encode first)).length = 1)
    (hnone : (candidates first pathValue).find? fs.isFile = none) :
    resolveCommand fs (first :: args) pathValue = first :: args := by
  rw [resolveCommand, whichOn_eq hfirst, hnone]

theorem exists_dir_of_mem_candidates (h : file ∈ candidates first pathValue) :
    ∃ dir, encode dir ≠ [] ∧ file = push (encode dir) (encode first) := by
  obtain ⟨dir, hdir, rfl⟩ := List.mem_map.mp h
  refine ⟨dir, encode_ne_nil ?_, rfl⟩
  rintro rfl
  simp at hdir

theorem isUtf8_push {buf path : Path} (hbuf : IsUtf8 buf) (hpath : IsUtf8 path) :
    IsUtf8 (push buf path) := by
  rw [push]
  split
  · exact hpath
  split
  · exact hbuf.append hpath
  · have hslash : IsUtf8 [slash] := by decide
    exact hbuf.append (hslash.append hpath)

theorem isUtf8_of_mem_candidates (h : file ∈ candidates first pathValue) : IsUtf8 file := by
  obtain ⟨dir, -, rfl⟩ := exists_dir_of_mem_candidates h
  exact isUtf8_push (isUtf8_encode dir) (isUtf8_encode first)

theorem slash_mem_of_mem_candidates (h : file ∈ candidates first pathValue) : slash ∈ file := by
  obtain ⟨dir, hdir, rfl⟩ := exists_dir_of_mem_candidates h
  exact slash_mem_push hdir _

/-- No directory leads to the name itself, unless the name is a path from the root. -/
theorem ne_of_mem_candidates (h : file ∈ candidates first pathValue)
    (hrel : isAbsolute (encode first) = false) : file ≠ encode first := by
  obtain ⟨dir, hdir, rfl⟩ := exists_dir_of_mem_candidates h
  exact push_ne hdir hrel

theorem eq_of_mem_candidates (h : file ∈ candidates first pathValue)
    (habs : isAbsolute (encode first) = true) : file = encode first := by
  obtain ⟨dir, -, rfl⟩ := exists_dir_of_mem_candidates h
  exact push_absolute _ habs

/-- A word that is searched is either left alone or replaced by the first candidate that
is a file. -/
theorem resolveCommand_cases (hfirst : (components (encode first)).length = 1)
    {word : List Char} {rest : List (List Char)}
    (h : resolveCommand fs (first :: args) pathValue = word :: rest) :
    word = first ∨ (candidates first pathValue).find? fs.isFile = some (encode word) := by
  rcases hfile : (candidates first pathValue).find? fs.isFile with _ | file
  · rw [resolveCommand_missing hfirst hfile] at h
    cases h
    exact Or.inl rfl
  · rw [resolveCommand_found hfirst hfile] at h
    cases h
    right
    rw [isUtf8_of_mem_candidates (List.mem_of_find?_eq_some hfile)]

theorem which_eq (hexec : FirstFileExecutable fs first pathValue) :
    (candidates first pathValue).find? fs.isFile = which fs first pathValue := by
  apply find?_eq_find?_of_imp
  · exact fun file hfile => (startable_iff.mp hfile).1
  · exact fun file hfile => startable_iff.mpr ⟨List.find?_some hfile, hexec file hfile⟩

theorem canStart_of_startable {word : List Char} (hmem : encode word ∈ candidates first pathValue)
    (hword : fs.startable (encode word) = true) : CanStart fs pathValue word := by
  rw [CanStart, if_pos (slash_mem_of_mem_candidates hmem)]
  exact hword

theorem resolves_of_executable (hfirst : (components (encode first)).length = 1)
    (hexec : FirstFileExecutable fs first pathValue) :
    ResolvesLikeWhich fs first args pathValue where
  found := by
    intro file hfile
    rw [← which_eq hexec] at hfile
    refine ⟨decodeLossy file, resolveCommand_found hfirst hfile, ?_⟩
    exact isUtf8_of_mem_candidates (List.mem_of_find?_eq_some hfile)
  missing := by
    intro hnone
    rw [← which_eq hexec] at hnone
    exact resolveCommand_missing hfirst hnone
  kept := by
    intro hstart word rest hword
    rcases resolveCommand_cases hfirst hword with rfl | hfile
    · exact hstart
    · apply canStart_of_startable (List.mem_of_find?_eq_some hfile)
      exact startable_iff.mpr ⟨List.find?_some hfile, hexec _ hfile⟩

/-- From every directory a path from the root leads to itself. -/
theorem resolveCommand_absolute (hfirst : (components (encode first)).length = 1)
    (habs : isAbsolute (encode first) = true) :
    resolveCommand fs (first :: args) pathValue = first :: args := by
  rcases hfile : (candidates first pathValue).find? fs.isFile with _ | file
  · exact resolveCommand_missing hfirst hfile
  · rw [resolveCommand_found hfirst hfile,
      eq_of_mem_candidates (List.mem_of_find?_eq_some hfile) habs, decodeLossy_encode]

theorem resolves_of_absolute (hfirst : (components (encode first)).length = 1)
    (habs : isAbsolute (encode first) = true) : ResolvesLikeWhich fs first args pathValue where
  found := by
    intro file hfile
    refine ⟨first, resolveCommand_absolute hfirst habs, ?_⟩
    exact (eq_of_mem_candidates (List.mem_of_find?_eq_some hfile) habs).symm
  missing := fun _ => resolveCommand_absolute hfirst habs
  kept := by
    intro hstart word rest hword
    rw [resolveCommand_absolute hfirst habs] at hword
    cases hword
    exact hstart

theorem executable_of_resolves (hfirst : (components (encode first)).length = 1)
    (hrel : isAbsolute (encode first) = false)
    (h : ResolvesLikeWhich fs first args pathValue) : FirstFileExecutable fs first pathValue := by
  intro file hfile
  have hmem := List.mem_of_find?_eq_some hfile
  have htext : encode (decodeLossy file) = file := isUtf8_of_mem_candidates hmem
  have hresolved := @resolveCommand_found fs first pathValue args file hfirst hfile
  rcases hwhich : which fs first pathValue with _ | other
  · -- The word is replaced although nothing can be started.
    have hunchanged := h.missing hwhich
    rw [hresolved] at hunchanged
    have hword : decodeLossy file = first := (List.cons.inj hunchanged).1
    rw [hword] at htext
    exact absurd htext.symm (ne_of_mem_candidates hmem hrel)
  · obtain ⟨word, hword, hother⟩ := h.found other hwhich
    rw [hresolved] at hword
    have heq : decodeLossy file = word := (List.cons.inj hword).1
    rw [← heq, htext] at hother
    rw [hother]
    exact (startable_iff.mp (List.find?_some hwhich)).2

theorem resolvesLikeWhich_iff (hfirst : (components (encode first)).length = 1) :
    ResolvesLikeWhich fs first args pathValue ↔
      isAbsolute (encode first) = true ∨ FirstFileExecutable fs first pathValue := by
  constructor
  · intro h
    rcases habs : isAbsolute (encode first) with _ | _
    · exact Or.inr (executable_of_resolves hfirst habs h)
    · exact Or.inl rfl
  · rintro (habs | hexec)
    · exact resolves_of_absolute hfirst habs
    · exact resolves_of_executable hfirst hexec

/-- A regular file on the PATH that may not be executed, before one that may. -/
def shadowed : FileSystem where
  isFile file := decide (file = encode "/a/pylsp".toList ∨ file = encode "/b/pylsp".toList)
  isExecutable file := decide (file = encode "/b/pylsp".toList)

theorem resolvesLikeWhich_ahead :
    ResolvesLikeWhich shadowed "pylsp".toList ["--verbose".toList] "/b:/a".toList := by
  refine (resolvesLikeWhich_iff (by decide)).mpr (Or.inr ?_)
  intro file hfile
  have hahead : (candidates "pylsp".toList "/b:/a".toList).find? shadowed.isFile =
      some (encode "/b/pylsp".toList) := by decide
  rw [hahead] at hfile
  cases hfile
  decide

theorem shadowed_replaced : ¬∀ (fs : FileSystem) (first : List Char) (args : List (List Char))
    (pathValue : List Char), (components (encode first)).length = 1 →
      ResolvesLikeWhich fs first args pathValue := by
  intro h
  have hresolved := h shadowed "pylsp".toList ["--verbose".toList] "/a:/b".toList (by decide)
  obtain ⟨word, hword, hfile⟩ := hresolved.found (encode "/b/pylsp".toList) (by decide)
  have heq : resolveCommand shadowed ["pylsp".toList, "--verbose".toList] "/a:/b".toList =
      ["/a/pylsp".toList, "--verbose".toList] := by decide
  rw [heq] at hword
  cases hword
  exact absurd hfile (by decide)

end IntentumdiffLsp.Spawn
