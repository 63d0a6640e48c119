import IntentumdiffLsp.Spawn

/-!
What `env_with_path_prepend` does to the environment it is given, and on which PATH the
child's command is looked up.
-/

namespace IntentumdiffLsp.Spawn

open Foundations
open Foundations.Utf8
open Foundations.UnixPath
open IntentumdiffLsp.Client

/-- Some entry of the PATH, as bytes, is the directory. -/
def Denotes (dir : Path) (value : OsString) : Prop :=
  ∃ part ∈ value.splitOn colon, components part = components dir

structure PrependsOnly (env : Environment) (dir : Path) : Prop where
  others : ∀ name, name ≠ pathName → (envWithPathPrepend env dir).get name = env.get name
  unset : env.get pathName = none → (envWithPathPrepend env dir).get pathName = some dir
  present : ∀ value, env.get pathName = some value → Denotes dir value →
    (envWithPathPrepend env dir).get pathName = some value
  absent : ∀ value, env.get pathName = some value → ¬Denotes dir value →
    (envWithPathPrepend env dir).get pathName = some (dir ++ colon :: value)
  again : envWithPathPrepend (envWithPathPrepend env dir) dir = envWithPathPrepend env dir
  resolves : ∀ fs command spawned, connectStdio fs env command (some dir) = .ok spawned →
    spawned.env pathName = some (encode spawned.searched)

/-- The code rebuilds a value from its text, and takes the first variable that is PATH up
to case for the PATH. -/
def Prependable (env : Environment) (dir : Path) : Prop :=
  match env.first isPathKey with
  | none => IsUtf8 dir
  | some (key, value) =>
      if already dir (decodeLossy value) then
        env.get pathName = some (encode (decodeLossy value))
      else key = pathName ∧ IsUtf8 value ∧ IsUtf8 dir

variable {env : Environment} {dir : Path} {key value : OsString}

theorem isPathKey_pathName : isPathKey pathName = true := by
  decide

theorem colon_ascii : colon.toNat < 0x80 := by
  decide

theorem envWithPathPrepend_set (h : env.first isPathKey = some (key, value)) :
    envWithPathPrepend env dir = env.modifyFirst isPathKey (joined dir) := by
  unfold envWithPathPrepend
  split
  · rfl
  · rename_i hnone
    rw [h] at hnone
    cases hnone

theorem envWithPathPrepend_unset (h : env.first isPathKey = none) :
    envWithPathPrepend env dir =
      env.push pathName dir (Bindings.not_mem_of_first h isPathKey_pathName) := by
  unfold envWithPathPrepend
  split
  · rename_i hsome
    rw [h] at hsome
    cases hsome
  · rfl

theorem first_set (h : env.first isPathKey = some (key, value)) :
    (envWithPathPrepend env dir).first isPathKey = some (key, joined dir value) := by
  rw [envWithPathPrepend_set h]
  exact Bindings.first_modifyFirst h _

theorem first_unset (h : env.first isPathKey = none) :
    (envWithPathPrepend env dir).first isPathKey = some (pathName, dir) := by
  rw [envWithPathPrepend_unset h]
  exact Bindings.first_push h isPathKey_pathName

theorem get_set (h : env.first isPathKey = some (key, value)) (name : OsString) :
    (envWithPathPrepend env dir).get name =
      if name = key then some (joined dir value) else env.get name := by
  rw [envWithPathPrepend_set h]
  exact Bindings.get_modifyFirst h _ name

theorem get_unset (h : env.first isPathKey = none) (name : OsString) :
    (envWithPathPrepend env dir).get name = if name = pathName then some dir else env.get name := by
  rw [envWithPathPrepend_unset h]
  exact Bindings.get_push name

theorem searchPath_of_first (h : env.first isPathKey = some (key, value)) :
    searchPath env = decodeLossy value := by
  rw [searchPath, h]
  rfl

/-- Every variable is set for the child. -/
theorem get_inherited (name : OsString) :
    ((envWithPathPrepend env dir).get name).or (env.get name) =
      (envWithPathPrepend env dir).get name := by
  rcases hfirst : env.first isPathKey with _ | ⟨key, value⟩
  · rw [get_unset hfirst]
    split
    · rfl
    · exact Option.or_self
  · rw [get_set hfirst]
    split
    · rfl
    · exact Option.or_self

theorem connectStdio_ok (fs : FileSystem) {command : List (List Char)} (hcommand : command ≠ []) :
    ∃ spawned, connectStdio fs env command (some dir) = .ok spawned ∧
      spawned.searched = searchPath (envWithPathPrepend env dir) ∧
      spawned.env = (envWithPathPrepend env dir).get := by
  rw [connectStdio, if_neg (by simpa using hcommand)]
  exact ⟨_, rfl, rfl, funext get_inherited⟩

/-- The PATH that is searched is the one that the child gets. -/
theorem searched_iff : (∀ fs command spawned, connectStdio fs env command (some dir) = .ok spawned →
      spawned.env pathName = some (encode spawned.searched)) ↔
    (envWithPathPrepend env dir).get pathName =
      some (encode (searchPath (envWithPathPrepend env dir))) := by
  constructor
  · intro h
    obtain ⟨spawned, hspawned, hsearched, henv⟩ := @connectStdio_ok env dir
      ⟨fun _ => false, fun _ => false⟩ [[]] (List.cons_ne_nil _ _)
    have hpath := h _ _ _ hspawned
    rwa [hsearched, henv] at hpath
  · intro h fs command spawned hspawned
    have hcommand : command ≠ [] := by
      rintro rfl
      cases hspawned
    obtain ⟨_, hok, hsearched, henv⟩ := @connectStdio_ok env dir fs command hcommand
    rw [hspawned] at hok
    cases hok
    rw [hsearched, henv, h]

theorem joined_present (h : already dir (decodeLossy value) = true) : joined dir value = value :=
  if_pos h

theorem joined_absent (h : already dir (decodeLossy value) = false) :
    joined dir value = dir ++ colon :: encode (decodeLossy value) :=
  if_neg (by simp [h])

/-- A value that gets an entry is another one. -/
theorem joined_ne (h : already dir (decodeLossy value) = false) : joined dir value ≠ value := by
  intro heq
  rw [joined_absent h] at heq
  have htext := congrArg decodeLossy heq
  rw [decodeLossy_append_ascii _ colon_ascii, decodeLossy_encode] at htext
  have hlength := congrArg List.length htext
  rw [List.length_append, List.length_cons] at hlength
  omega

theorem envWithPathPrepend_present (hfirst : env.first isPathKey = some (key, value))
    (h : already dir (decodeLossy value) = true) : envWithPathPrepend env dir = env := by
  rw [envWithPathPrepend_set hfirst]
  exact (Bindings.modifyFirst_eq_self_iff hfirst _).mpr (joined_present h)

/-- On a text the entries are the same before and after decoding. -/
theorem already_iff_denotes (text : List Char) :
    already dir text = true ↔ Denotes dir (encode text) := by
  have hsplit : (encode text).splitOn colon = (text.splitOn ':').map encode :=
    splitOn_encode text colon_ascii
  rw [already, Denotes, hsplit, List.any_eq_true]
  constructor
  · rintro ⟨part, hpart, hsame⟩
    exact ⟨encode part, List.mem_map_of_mem hpart, of_decide_eq_true hsame⟩
  · rintro ⟨_, hmem, hsame⟩
    obtain ⟨part, hpart, rfl⟩ := List.mem_map.mp hmem
    exact ⟨part, hpart, decide_eq_true hsame⟩

theorem denotes_self (hdir : colon ∉ dir) : Denotes dir dir := by
  refine ⟨dir, ?_, rfl⟩
  rw [List.splitOn_eq_singleton hdir]
  exact List.mem_singleton_self dir

theorem denotes_front (hdir : colon ∉ dir) (value : OsString) :
    Denotes dir (dir ++ colon :: value) := by
  refine ⟨dir, ?_, rfl⟩
  rw [List.splitOn_append_cons_self_of_not_mem hdir]
  exact List.mem_cons_self

/-- A text that has the directory as an entry stays as it is. -/
theorem joined_of_denotes (hvalue : IsUtf8 value) (h : Denotes dir value) :
    joined dir value = value := by
  apply joined_present
  rw [already_iff_denotes, hvalue]
  exact h

theorem isUtf8_joined_iff (h : already dir (decodeLossy value) = false) :
    IsUtf8 (joined dir value) ↔ IsUtf8 dir := by
  rw [joined_absent h]
  exact isUtf8_append_ascii colon_ascii (isUtf8_encode _)

theorem again_of_first {value' : OsString}
    (hfirst : (envWithPathPrepend env dir).first isPathKey = some (key, value'))
    (hutf8 : IsUtf8 value') (hdenotes : Denotes dir value') :
    envWithPathPrepend (envWithPathPrepend env dir) dir = envWithPathPrepend env dir := by
  rw [envWithPathPrepend_set hfirst]
  exact (Bindings.modifyFirst_eq_self_iff hfirst _).mpr (joined_of_denotes hutf8 hdenotes)

theorem prependsOnly_unset (hfirst : env.first isPathKey = none) (hdir : colon ∉ dir) :
    PrependsOnly env dir ↔ IsUtf8 dir := by
  have hnone : env.get pathName = none := Bindings.get_of_first_none hfirst isPathKey_pathName
  have hset : (envWithPathPrepend env dir).get pathName = some dir := by
    rw [get_unset hfirst, if_pos rfl]
  have hsearch := searchPath_of_first (@first_unset env dir hfirst)
  constructor
  · intro h
    have hpath := searched_iff.mp h.resolves
    rw [hset, hsearch] at hpath
    exact (Option.some.inj hpath).symm
  · intro hutf8
    refine ⟨?_, fun _ => hset, ?_, ?_, ?_, ?_⟩
    · intro name hname
      rw [get_unset hfirst, if_neg hname]
    · intro value hvalue
      rw [hnone] at hvalue
      cases hvalue
    · intro value hvalue
      rw [hnone] at hvalue
      cases hvalue
    · exact again_of_first (first_unset hfirst) hutf8 (denotes_self hdir)
    · rw [searched_iff, hset, hsearch, hutf8]

theorem prependsOnly_present (hfirst : env.first isPathKey = some (key, value))
    (halready : already dir (decodeLossy value) = true) :
    PrependsOnly env dir ↔ env.get pathName = some (encode (decodeLossy value)) := by
  have hsame := envWithPathPrepend_present hfirst halready
  have hsearch := searchPath_of_first hfirst
  constructor
  · intro h
    have hpath := searched_iff.mp h.resolves
    rwa [hsame, hsearch] at hpath
  · intro hpath
    refine ⟨fun name _ => by rw [hsame], ?_, ?_, ?_, by rw [hsame, hsame], ?_⟩
    · intro hnone
      rw [hpath] at hnone
      cases hnone
    · intro other hother _
      rw [hsame, hother]
    · intro other hother hdenotes
      rw [hpath] at hother
      cases hother
      exact absurd ((already_iff_denotes _).mp halready) hdenotes
    · rw [searched_iff, hsame, hsearch, hpath]

theorem get_first_set (hfirst : env.first isPathKey = some (key, value)) :
    (envWithPathPrepend env dir).get key = some (joined dir value) := by
  rw [get_set hfirst, if_pos rfl]

/-- A variable that gets another value has to be the PATH itself. -/
theorem PrependsOnly.key_eq (h : PrependsOnly env dir)
    (hfirst : env.first isPathKey = some (key, value))
    (habsent : already dir (decodeLossy value) = false) : key = pathName := by
  by_contra hother
  have hsame := h.others key hother
  rw [get_first_set hfirst, Bindings.get_of_first hfirst] at hsame
  exact joined_ne habsent (Option.some.inj hsame)

theorem PrependsOnly.isUtf8 (h : PrependsOnly env dir)
    (hfirst : env.first isPathKey = some (pathName, value))
    (habsent : already dir (decodeLossy value) = false) : IsUtf8 value ∧ IsUtf8 dir := by
  have hnew := @get_first_set env dir _ _ hfirst
  have hold := Bindings.get_of_first hfirst
  have hdenotes : ¬Denotes dir value := by
    intro hdenotes
    have hsame := h.present value hold hdenotes
    rw [hnew] at hsame
    exact joined_ne habsent (Option.some.inj hsame)
  constructor
  · have hfront := h.absent value hold hdenotes
    rw [hnew, joined_absent habsent] at hfront
    have htail := List.append_cancel_left (Option.some.inj hfront)
    exact (List.cons.inj htail).2
  · have hpath := searched_iff.mp h.resolves
    rw [hnew, searchPath_of_first (first_set hfirst)] at hpath
    exact (isUtf8_joined_iff habsent).mp (Option.some.inj hpath).symm

theorem prependsOnly_of_isUtf8 (hfirst : env.first isPathKey = some (pathName, value))
    (habsent : already dir (decodeLossy value) = false) (hdir : colon ∉ dir)
    (hvalue : IsUtf8 value) (hutf8 : IsUtf8 dir) : PrependsOnly env dir := by
  have hnew := @get_first_set env dir _ _ hfirst
  have hold := Bindings.get_of_first hfirst
  have hjoined : joined dir value = dir ++ colon :: value := by
    rw [joined_absent habsent, hvalue]
  have htext : IsUtf8 (joined dir value) := (isUtf8_joined_iff habsent).mpr hutf8
  refine ⟨?_, ?_, ?_, ?_, ?_, ?_⟩
  · intro name hname
    rw [get_set hfirst, if_neg hname]
  · intro hnone
    rw [hold] at hnone
    cases hnone
  · intro other hother hdenotes
    rw [hold] at hother
    cases hother
    exact absurd (joined_of_denotes hvalue hdenotes) (joined_ne habsent)
  · intro other hother _
    rw [hold] at hother
    cases hother
    rw [hnew, hjoined]
  · apply again_of_first (first_set hfirst) htext
    rw [hjoined]
    exact denotes_front hdir value
  · rw [searched_iff, hnew, searchPath_of_first (first_set hfirst), htext]

theorem prependsOnly_absent (hfirst : env.first isPathKey = some (key, value))
    (habsent : already dir (decodeLossy value) = false) (hdir : colon ∉ dir) :
    PrependsOnly env dir ↔ key = pathName ∧ IsUtf8 value ∧ IsUtf8 dir := by
  constructor
  · intro h
    have hname := h.key_eq hfirst habsent
    subst hname
    exact ⟨rfl, h.isUtf8 hfirst habsent⟩
  · rintro ⟨rfl, hvalue, hutf8⟩
    exact prependsOnly_of_isUtf8 hfirst habsent hdir hvalue hutf8

theorem prependable_unset (hfirst : env.first isPathKey = none) :
    Prependable env dir ↔ IsUtf8 dir := by
  rw [Prependable, hfirst]

theorem prependable_set (hfirst : env.first isPathKey = some (key, value)) :
    Prependable env dir ↔
      if already dir (decodeLossy value) then env.get pathName = some (encode (decodeLossy value))
      else key = pathName ∧ IsUtf8 value ∧ IsUtf8 dir := by
  rw [Prependable, hfirst]

theorem prependsOnly_iff (hdir : colon ∉ dir) : PrependsOnly env dir ↔ Prependable env dir := by
  rcases hfirst : env.first isPathKey with _ | ⟨key, value⟩
  · rw [prependable_unset hfirst]
    exact prependsOnly_unset hfirst hdir
  · rw [prependable_set hfirst]
    split
    · rename_i halready
      exact prependsOnly_present hfirst halready
    · rename_i halready
      exact prependsOnly_absent hfirst (Bool.eq_false_iff.mpr halready) hdir

/-- The variables `PATH` and `Path`, where the second is no text. -/
def twoPaths : Environment where
  entries := [(pathName, encode "/usr/bin".toList), (encode "Path".toList, [0xFF])]
  distinct := by decide

theorem prependsOnly_twoPaths : PrependsOnly twoPaths (encode "/venv/bin".toList) := by
  refine (prependsOnly_iff (by decide)).mpr ?_
  have hfirst : twoPaths.first isPathKey = some (pathName, encode "/usr/bin".toList) := by
    decide
  have habsent : ¬already (encode "/venv/bin".toList)
      (decodeLossy (encode "/usr/bin".toList)) = true := by
    rw [decodeLossy_encode]
    decide
  rw [prependable_set hfirst, if_neg habsent]
  exact ⟨rfl, isUtf8_encode _, isUtf8_encode _⟩

/-- A PATH that is no text. -/
def latinPath : Environment where
  entries := [(pathName, encode "/opt/".toList ++ [0xFF])]
  distinct := by decide

theorem latinPath_rebuilt : ¬∀ (env : Environment) (dir : Path), dir ≠ [] → colon ∉ dir →
    PrependsOnly env dir := by
  intro h
  have hprepends := h latinPath (encode "/venv/bin".toList) (by decide) (by decide)
  have hvalue : latinPath.get pathName = some (encode "/opt/".toList ++ [0xFF]) := by
    decide
  have hdenotes : ¬Denotes (encode "/venv/bin".toList) (encode "/opt/".toList ++ [0xFF]) := by
    unfold Denotes
    decide
  have hfront := hprepends.absent _ hvalue hdenotes
  exact absurd hfront (by decide)

end IntentumdiffLsp.Spawn
