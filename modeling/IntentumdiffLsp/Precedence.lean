import IntentumdiffLsp.Specs

/-!
Which of several entries for a language is loaded.
-/

namespace IntentumdiffLsp.Precedence

open Foundations
open Foundations.Fallible
open Function
open IntentumdiffLsp.Json
open IntentumdiffLsp.Specs

section Members

variable (process : Process)

def parseMember (member : String × Value) : Except String ServerEntry :=
  ServerEntry.parse process.debugStr member.1 member.2

def IsValid (member : String × Value) : Prop :=
  ∃ entry, parseMember process member = .ok entry

def languageOf (member : String × Value) : Option String :=
  (parseMember process member).toOption.map ServerEntry.language

/-- The entry of the first of the members with the language. -/
def lookup (members : List (String × Value)) (language : String) : Option ServerEntry :=
  (members.find? fun member => languageOf process member == some language).bind fun member =>
    (parseMember process member).toOption

/-- No member in front of this one has its language. -/
def IsFirst (members : List (String × Value)) (language : String) (member : String × Value) :
    Prop :=
  languageOf process member = some language ∧ ∃ front back, members = front ++ member :: back ∧
    ∀ other ∈ front, languageOf process other ≠ some language

/-- Among the members with this language it has the smallest name. -/
def IsLeast (members : List (String × Value)) (language : String) (member : String × Value) :
    Prop :=
  languageOf process member = some language ∧ member ∈ members ∧
    ∀ other ∈ members, languageOf process other = some language → member.1 ≤ other.1

end Members

section Load

variable {process : Process} {file : ConfigFile} {members written : List (String × Value)}
  {servers result : ServerMap}

theorem languageOf_eq_some {member : String × Value} {language : String} :
    languageOf process member = some language ↔
      ∃ entry, parseMember process member = .ok entry ∧ entry.language = language := by
  rw [languageOf]
  rcases parseMember process member with error | entry
  · simp [Except.toOption]
  · simp [Except.toOption]

theorem lookup_eq_some {language : String} {entry : ServerEntry} :
    lookup process members language = some entry ↔
      ∃ member, IsFirst process members language member ∧
        parseMember process member = .ok entry := by
  have htoOption : ∀ member, (parseMember process member).toOption = some entry ↔
      parseMember process member = .ok entry := by
    intro member
    rcases parseMember process member with error | entry'
    · simp [Except.toOption]
    · simp [Except.toOption]
  simp only [lookup, Option.bind_eq_some_iff, List.find?_eq_some_iff_append, htoOption, IsFirst,
    beq_iff_eq, Bool.not_eq_true', beq_eq_false_iff_ne]

theorem lookup_cons {member : String × Value} {entry : ServerEntry} (language : String)
    (h : parseMember process member = .ok entry) :
    lookup process (member :: members) language =
      if entry.language = language then some entry else lookup process members language := by
  have hlanguage : languageOf process member = some entry.language :=
    languageOf_eq_some.mpr ⟨entry, h, rfl⟩
  rw [lookup, List.find?_cons, hlanguage]
  split
  · rename_i hsame
    simp only [Option.some_beq_some, beq_iff_eq] at hsame
    rw [if_pos hsame, Option.bind_some, h]
    rfl
  · rename_i hother
    simp only [Option.some_beq_some, beq_eq_false_iff_ne] at hother
    rw [if_neg hother]
    rfl

/-- Loading the members needs all of them valid, and adds the first for each language. -/
theorem insertEntries_eq_ok :
    insertEntries process file servers members = .ok result ↔
      (∀ member ∈ members, IsValid process member) ∧
        result = fun language => (servers language).or (lookup process members language) := by
  induction members generalizing servers with
  | nil =>
      simp only [insertEntries, List.not_mem_nil, false_imp_iff, implies_true, true_and,
        Except.ok.injEq]
      have hservers : (fun language => (servers language).or (lookup process [] language)) =
          servers := by
        funext language
        exact Option.or_none
      rw [hservers, eq_comm]
  | cons member rest ih =>
      rw [insertEntries, List.forall_mem_cons]
      rcases hparse : parseMember process member with error | entry
      · have herror : ¬IsValid process member := by
          rintro ⟨entry, hentry⟩
          cases hparse.symm.trans hentry
        rw [parseMember] at hparse
        simp [hparse, herror]
      · have hvalid : IsValid process member := ⟨entry, hparse⟩
        have hinsert : (fun language => ((servers.orInsert entry) language).or
              (lookup process rest language)) =
            fun language => (servers language).or (lookup process (member :: rest) language) := by
          funext language
          rw [lookup_cons language hparse, ServerMap.orInsert, update_apply]
          rcases eq_or_ne language entry.language with rfl | hne
          · rw [if_pos rfl, if_pos rfl]
            rcases servers entry.language with _ | entry' <;> rfl
          · rw [if_neg hne, if_neg hne.symm]
        rw [parseMember] at hparse
        rw [hparse]
        dsimp only
        rw [ih, hinsert]
        simp [hvalid]

theorem sortedMembers_pairwise :
    (sortedMembers written).Pairwise fun member other => member.1 < other.1 := by
  have hordered := Std.TreeMap.ordered_keys_toList
    (t := Std.TreeMap.ofList written compare)
  exact hordered.imp fun hlt => compare_lt_iff_lt.mp hlt

theorem mem_sortedMembers (hdistinct : (written.map Prod.fst).Nodup) {member : String × Value} :
    member ∈ sortedMembers written ↔ member ∈ written := by
  have hpairwise : written.Pairwise fun member other => ¬compare member.1 other.1 = .eq := by
    rw [List.Nodup, List.pairwise_map] at hdistinct
    exact hdistinct.imp fun hne heq => hne (compare_eq_iff_eq.mp heq)
  rcases member with ⟨name, data⟩
  rw [sortedMembers, Std.TreeMap.mem_toList_iff_getElem?_eq_some]
  constructor
  · intro hget
    have hname : name ∈ written.map Prod.fst := by
      by_contra hnot
      have hnone : (Std.TreeMap.ofList written compare)[name]? = none :=
        Std.TreeMap.getElem?_ofList_of_contains_eq_false (by simpa using hnot)
      cases hnone.symm.trans hget
    obtain ⟨⟨name', data'⟩, hmem, rfl⟩ := List.mem_map.mp hname
    have hget' : (Std.TreeMap.ofList written compare)[name']? = some data' :=
      Std.TreeMap.getElem?_ofList_of_mem (compare_eq_iff_eq.mpr rfl) hpairwise hmem
    cases hget'.symm.trans hget
    exact hmem
  · exact Std.TreeMap.getElem?_ofList_of_mem (compare_eq_iff_eq.mpr rfl) hpairwise

theorem isFirst_sortedMembers (hdistinct : (written.map Prod.fst).Nodup) {language : String}
    {member : String × Value} :
    IsFirst process (sortedMembers written) language member ↔
      IsLeast process written language member := by
  have hsorted : (sortedMembers written).Pairwise fun member other => member.1 < other.1 :=
    sortedMembers_pairwise
  rw [IsFirst, IsLeast, ← mem_sortedMembers hdistinct]
  simp only [← mem_sortedMembers hdistinct]
  generalize sortedMembers written = members at hsorted
  refine and_congr_right fun hlanguage => ?_
  constructor
  · rintro ⟨front, back, rfl, hfront⟩
    refine ⟨by simp, ?_⟩
    intro other hmem hother
    rcases List.mem_append.mp hmem with hearlier | hlater
    · exact absurd hother (hfront other hearlier)
    · rcases List.mem_cons.mp hlater with rfl | hback
      · exact le_rfl
      · have hcons := (List.pairwise_append.mp hsorted).2.1
        exact ((List.pairwise_cons.mp hcons).1 other hback).le
  · rintro ⟨hmem, hleast⟩
    obtain ⟨front, back, rfl⟩ := List.append_of_mem hmem
    refine ⟨front, back, rfl, ?_⟩
    intro other hearlier hother
    have hlt := (List.pairwise_append.mp hsorted).2.2 other hearlier member List.mem_cons_self
    exact absurd (hleast other (List.mem_append_left _ hearlier) hother) (not_le.mpr hlt)

theorem lookup_ne_none {language : String} :
    lookup process members language ≠ none ↔
      ∃ member ∈ members, languageOf process member = some language := by
  rw [Option.ne_none_iff_exists']
  constructor
  · rintro ⟨entry, hentry⟩
    obtain ⟨member, ⟨hlanguage, front, back, rfl, -⟩, -⟩ := lookup_eq_some.mp hentry
    exact ⟨member, by simp, hlanguage⟩
  · rintro ⟨member, hmem, hlanguage⟩
    have hfound : (members.find? fun m => languageOf process m == some language).isSome = true := by
      rw [List.find?_isSome]
      exact ⟨member, hmem, by simp [hlanguage]⟩
    obtain ⟨found, hfind⟩ := Option.isSome_iff_exists.mp hfound
    have hsame := List.find?_some hfind
    obtain ⟨entry, hparse, -⟩ := languageOf_eq_some.mp (beq_iff_eq.mp hsame)
    refine ⟨entry, ?_⟩
    rw [lookup, hfind, Option.bind_some, hparse]
    rfl

/-- The file is there, and its text is an object with these members in this order. -/
def Holds (process : Process) (file : ConfigFile) (written : List (String × Value)) : Prop :=
  file.present = true ∧ ∃ raw, file.readToString = .ok raw ∧
    process.readDocument raw = .ok (.object written)

theorem load_eq_ok (h : Holds process file written) (hdistinct : (written.map Prod.fst).Nodup) :
    loadLspServersJson process file = .ok result ↔
      (∀ member ∈ written, IsValid process member) ∧
        result = lookup process (sortedMembers written) := by
  obtain ⟨hpresent, raw, hraw, hdocument⟩ := h
  have hload : loadLspServersJson process file =
      insertEntries process file noServers (sortedMembers written) := by
    simp only [loadLspServersJson, hpresent, hraw, hdocument, Document.toValue, asObject]
    rfl
  rw [hload, insertEntries_eq_ok]
  simp only [mem_sortedMembers hdistinct]
  rfl

end Load

/-- Invalid entries make the load fail, and otherwise the entry for a language is that of
the first member with it. -/
def FirstWins (process : Process) (written : List (String × Value))
    (outcome : Except String ServerMap) : Prop :=
  ((∃ member ∈ written, ¬IsValid process member) → ∃ error, outcome = .error error) ∧
    ((∀ member ∈ written, IsValid process member) → ∃ servers, outcome = .ok servers ∧
      (∀ language, servers language ≠ none ↔
        ∃ member ∈ written, languageOf process member = some language) ∧
      ∀ language member entry, IsFirst process written language member →
        parseMember process member = .ok entry → servers language = some entry)

/-- The load goes by the names: the first member in the file wins exactly as long as the
one with the smallest name gives the same entry. -/
theorem first_wins_iff (process : Process) (file : ConfigFile) (written : List (String × Value))
    (hholds : Holds process file written) (hdistinct : (written.map Prod.fst).Nodup) :
    FirstWins process written (loadLspServersJson process file) ↔
      ((∀ member ∈ written, IsValid process member) → ∀ language first least,
        IsFirst process written language first → IsLeast process written language least →
          parseMember process first = parseMember process least) := by
  have hload : ∀ servers, loadLspServersJson process file = .ok servers ↔
      (∀ member ∈ written, IsValid process member) ∧
        servers = lookup process (sortedMembers written) :=
    fun _ => load_eq_ok hholds hdistinct
  have hleast : ∀ {language least entry}, IsLeast process written language least →
      parseMember process least = .ok entry →
      lookup process (sortedMembers written) language = some entry := by
    intro language least entry hleast hparse
    exact lookup_eq_some.mpr ⟨least, (isFirst_sortedMembers hdistinct).mpr hleast, hparse⟩
  constructor
  · rintro ⟨-, hfirst⟩ hvalid language first least hisFirst hisLeast
    obtain ⟨servers, hservers, -, hwins⟩ := hfirst hvalid
    obtain ⟨entry, hentry, -⟩ := languageOf_eq_some.mp hisFirst.1
    obtain ⟨entry', hentry', -⟩ := languageOf_eq_some.mp hisLeast.1
    have hlookup := hwins language first entry hisFirst hentry
    rw [((hload servers).mp hservers).2, hleast hisLeast hentry'] at hlookup
    rw [hentry, hentry', Option.some.inj hlookup]
  · intro hsame
    constructor
    · rintro ⟨member, hmem, hinvalid⟩
      rcases houtcome : loadLspServersJson process file with error | servers
      · exact ⟨error, rfl⟩
      · exact absurd (((hload servers).mp houtcome).1 member hmem) hinvalid
    · intro hvalid
      refine ⟨_, (hload _).mpr ⟨hvalid, rfl⟩, ?_, ?_⟩
      · intro language
        rw [lookup_ne_none]
        simp only [mem_sortedMembers hdistinct]
      · intro language member entry hisFirst hparse
        have hoccurs : ∃ other ∈ sortedMembers written, languageOf process other = some language := by
          obtain ⟨-, front, back, rfl, -⟩ := id hisFirst
          exact ⟨member, (mem_sortedMembers hdistinct).mpr (by simp), hisFirst.1⟩
        obtain ⟨entry', hentry'⟩ := Option.ne_none_iff_exists'.mp (lookup_ne_none.mpr hoccurs)
        obtain ⟨least, hisLeast, hparse'⟩ := lookup_eq_some.mp hentry'
        have heq := hsame hvalid language member least hisFirst
          ((isFirst_sortedMembers hdistinct).mp hisLeast)
        rw [heq, hparse'] at hparse
        rw [hentry', Except.ok.inj hparse]

/-- Two entries for one language, the first under the greater name. -/
def unordered : List (String × Value) :=
  let entry (command : String) : Value :=
    .object [("language", .string "python"), ("command", .array [.string command])]
  [("z", entry "pylsp"), ("a", entry "other-pylsp")]

def unorderedText : String :=
  "\x7b\"z\": \x7b\"language\": \"python\", \"command\": [\"pylsp\"]\x7d, " ++
    "\"a\": \x7b\"language\": \"python\", \"command\": [\"other-pylsp\"]\x7d\x7d"

def unorderedProcess : Process :=
  { debugStr := id
    pid := 1
    readDocument := fun raw =>
      if raw = unorderedText then .ok (.object unordered) else .error "expected value" }

def unorderedFile : ConfigFile :=
  { display := "lsp_servers.json", present := true, readToString := .ok unorderedText }

theorem holds_unordered : Holds unorderedProcess unorderedFile unordered :=
  ⟨rfl, unorderedText, rfl, by simp [unorderedProcess]⟩

theorem unordered_first_loses :
    ¬∀ process file written, Holds process file written → (written.map Prod.fst).Nodup →
      FirstWins process written (loadLspServersJson process file) := by
  intro hclaim
  obtain ⟨-, hfirst⟩ := hclaim _ _ _ holds_unordered (by decide)
  have hentries : ∀ member ∈ unordered,
      (parseMember unorderedProcess member).toOption.isSome = true := by decide +kernel
  have hvalid : ∀ member ∈ unordered, IsValid unorderedProcess member := by
    intro member hmem
    have hentry := hentries member hmem
    rcases hparse : parseMember unorderedProcess member with error | entry
    · rw [hparse] at hentry
      cases hentry
    · exact ⟨entry, hparse⟩
  obtain ⟨servers, hservers, -, hwins⟩ := hfirst hvalid
  have hlanguage : languageOf unorderedProcess (unordered.get ⟨0, by decide⟩) = some "python" := by
    decide +kernel
  obtain ⟨entry, hentry, -⟩ := languageOf_eq_some.mp hlanguage
  have hfirstEntry := hwins "python" _ entry ⟨hlanguage, [], _, rfl, nofun⟩ hentry
  have hcommand : (parseMember unorderedProcess (unordered.get ⟨0, by decide⟩)).toOption.map
      ServerEntry.command = some ["pylsp"] := by decide +kernel
  have hloaded : ((loadLspServersJson unorderedProcess unorderedFile).toOption.bind fun servers =>
      (servers "python").map ServerEntry.command) = some ["other-pylsp"] := by decide +kernel
  rw [hservers, Except.toOption, Option.bind_some, hfirstEntry, ← Option.map_some] at hloaded
  rw [hentry] at hcommand
  exact absurd (hloaded.symm.trans hcommand) (by decide)

theorem unordered_first_wins_iff :
    FirstWins unorderedProcess unordered (loadLspServersJson unorderedProcess unorderedFile) ↔
      ((∀ member ∈ unordered, IsValid unorderedProcess member) → ∀ language first least,
        IsFirst unorderedProcess unordered language first →
        IsLeast unorderedProcess unordered language least →
          parseMember unorderedProcess first = parseMember unorderedProcess least) :=
  first_wins_iff _ _ _ holds_unordered (by decide)

end IntentumdiffLsp.Precedence
