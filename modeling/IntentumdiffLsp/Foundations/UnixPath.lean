import Mathlib.Data.List.Basic
import Mathlib.Tactic.Common

/-!
Paths of a Unix system as byte strings, and what is lexical about them.
-/

namespace Foundations.UnixPath

abbrev Path := List UInt8

def slash : UInt8 := 0x2F

def dot : UInt8 := 0x2E

inductive Component where
  | rootDir
  | curDir
  | parentDir
  | normal (name : List UInt8)
  deriving DecidableEq

/-- The names between the slashes; nothing and a single dot do not count. -/
def pieces (p : Path) : List (List UInt8) :=
  (p.splitOn slash).filter fun piece => decide (piece ≠ [] ∧ piece ≠ [dot])

def component (piece : List UInt8) : Component :=
  if piece = [dot, dot] then .parentDir else .normal piece

def isAbsolute (p : Path) : Bool :=
  p.head? == some slash

/-- A single dot is a component only at the front of a relative path. -/
def components (p : Path) : List Component :=
  (if isAbsolute p then [.rootDir]
    else if (p.splitOn slash).head? = some [dot] then [.curDir] else []) ++
    (pieces p).map component

def Component.bytes : Component → Path
  | .rootDir => [slash]
  | .curDir => [dot]
  | .parentDir => [dot, dot]
  | .normal name => name

/-- An absolute path replaces the buffer. -/
def push (buf path : Path) : Path :=
  if isAbsolute path then path
  else if buf = [] ∨ buf.getLast? = some slash then buf ++ path
  else buf ++ slash :: path

def collect (cs : List Component) : Path :=
  cs.foldl (fun buf c => push buf c.bytes) []

def StartsWith (p base : Path) : Prop :=
  components base <+: components p

instance (p base : Path) : Decidable (StartsWith p base) :=
  inferInstanceAs (Decidable (components base <+: components p))

def stripBase (p base : Path) : Option Path :=
  if StartsWith p base then some (collect ((components p).drop (components base).length))
  else none

def fileName (p : Path) : Option (List UInt8) :=
  match (components p).getLast? with
  | some (.normal name) => some name
  | _ => none

/-- What is left of the components, given from the last to the first, when the last one is
dropped again and again. -/
def above : List Component → List Path
  | [] | .rootDir :: _ => []
  | _ :: rest => collect rest.reverse :: above rest

def parent (p : Path) : Option Path :=
  (above (components p).reverse).head?

/-- The path itself and what is above it, the nearest first. -/
def ancestors (p : Path) : List Path :=
  p :: above (components p).reverse

/-- A name that a path can have between two slashes. -/
def IsName (piece : List UInt8) : Prop :=
  piece ≠ [] ∧ piece ≠ [dot] ∧ slash ∉ piece

theorem not_mem_of_mem_splitOn {α : Type*} [DecidableEq α] {sep : α} {s piece : List α}
    (h : piece ∈ s.splitOn sep) : sep ∉ piece := by
  induction s generalizing piece with
  | nil =>
      rw [List.splitOn_nil, List.mem_singleton] at h
      rw [h]
      exact List.not_mem_nil
  | cons b s ih =>
      rw [List.splitOn_cons_eq_if_modifyHead] at h
      split at h
      · rcases List.mem_cons.mp h with rfl | hrest
        · exact List.not_mem_nil
        · exact ih hrest
      · rename_i hb
        obtain ⟨front, back, hsplit⟩ := List.exists_cons_of_ne_nil (List.splitOn_ne_nil sep s)
        rw [hsplit, List.modifyHead_cons] at h
        rcases List.mem_cons.mp h with rfl | hback
        · have hfront : sep ∉ front := ih (by rw [hsplit]; exact List.mem_cons_self)
          rw [List.mem_cons, not_or]
          exact ⟨fun heq => hb (by simp [heq]), hfront⟩
        · exact ih (by rw [hsplit]; exact List.mem_cons_of_mem _ hback)

theorem isName_of_mem_pieces {p : Path} {piece : List UInt8} (h : piece ∈ pieces p) :
    IsName piece := by
  obtain ⟨hsplit, hname⟩ := List.mem_filter.mp h
  obtain ⟨hnil, hdot⟩ := of_decide_eq_true hname
  exact ⟨hnil, hdot, not_mem_of_mem_splitOn hsplit⟩

theorem mem_pieces {p : Path} {piece : List UInt8} :
    piece ∈ pieces p ↔ piece ∈ p.splitOn slash ∧ piece ≠ [] ∧ piece ≠ [dot] := by
  simp [pieces]

theorem pieces_append_slash (p q : Path) :
    pieces (p ++ slash :: q) = pieces p ++ pieces q := by
  rw [pieces, List.splitOn_append_cons_self, List.filter_append]
  rfl

@[simp] theorem pieces_nil : pieces [] = [] := by
  decide

theorem pieces_slash_cons (p : Path) : pieces (slash :: p) = pieces p := by
  simpa using pieces_append_slash [] p

theorem pieces_name {name : List UInt8} (h : IsName name) : pieces name = [name] := by
  rw [pieces, List.splitOn_eq_singleton h.2.2]
  simp [h.1, h.2.1]

theorem isAbsolute_iff {p : Path} : isAbsolute p = true ↔ ∃ q, p = slash :: q := by
  rcases p with _ | ⟨b, q⟩
  · simp [isAbsolute]
  · simp [isAbsolute]

theorem not_isAbsolute_name {name : List UInt8} (h : IsName name) : isAbsolute name = false := by
  rw [← Bool.not_eq_true, isAbsolute_iff]
  rintro ⟨q, rfl⟩
  exact h.2.2 List.mem_cons_self

theorem components_absolute {p : Path} (h : isAbsolute p = true) :
    components p = .rootDir :: (pieces p).map component := by
  rw [components, if_pos h]
  rfl

theorem push_absolute (buf : Path) {path : Path} (h : isAbsolute path = true) :
    push buf path = path :=
  if_pos h

theorem pieces_push (buf : Path) {path : Path} (h : isAbsolute path = false) :
    pieces (push buf path) = pieces buf ++ pieces path := by
  rw [push, if_neg (by simp [h])]
  split
  · rename_i hbuf
    rcases hbuf with rfl | hlast
    · rw [pieces_nil]
      rfl
    · obtain ⟨front, rfl⟩ := List.getLast?_eq_some_iff.mp hlast
      rw [List.append_assoc, List.singleton_append, pieces_append_slash, pieces_append_slash,
        pieces_nil, List.append_nil]
  · exact pieces_append_slash buf path

theorem slash_mem_push {buf : Path} (hbuf : buf ≠ []) (path : Path) : slash ∈ push buf path := by
  rw [push]
  split
  · rename_i habs
    obtain ⟨rest, rfl⟩ := isAbsolute_iff.mp habs
    exact List.mem_cons_self
  split
  · rename_i hlast
    exact List.mem_append_left _ (List.mem_of_getLast? (hlast.resolve_left hbuf))
  · exact List.mem_append_right _ List.mem_cons_self

theorem push_ne {buf path : Path} (hbuf : buf ≠ []) (h : isAbsolute path = false) :
    push buf path ≠ path := by
  have hpos : 0 < buf.length := List.length_pos_iff.mpr hbuf
  intro heq
  have hlength := congrArg List.length heq
  rw [push, if_neg (by simp [h])] at hlength
  split at hlength
  · rw [List.length_append] at hlength
    omega
  · rw [List.length_append, List.length_cons] at hlength
    omega

theorem isAbsolute_push {buf : Path} (h : isAbsolute buf = true) (path : Path) :
    isAbsolute (push buf path) = true := by
  rw [push]
  split
  · assumption
  · obtain ⟨rest, rfl⟩ := isAbsolute_iff.mp h
    split <;> rfl

theorem component_bytes (piece : List UInt8) : (component piece).bytes = piece := by
  unfold component
  split
  · rename_i heq
    exact heq.symm
  · rfl

theorem component_injective : Function.Injective component := by
  intro piece piece' h
  rw [← component_bytes piece, h, component_bytes]

theorem pieces_collect_names {names : List (List UInt8)} (h : ∀ name ∈ names, IsName name)
    (buf : Path) :
    pieces ((names.map component).foldl (fun buf c => push buf c.bytes) buf) =
      pieces buf ++ names := by
  induction names generalizing buf with
  | nil => rw [List.append_nil]; rfl
  | cons name names ih =>
      have hname := h name List.mem_cons_self
      rw [List.map_cons, List.foldl_cons, ih (fun n hn => h n (List.mem_cons_of_mem _ hn)),
        component_bytes, pieces_push _ (not_isAbsolute_name hname), pieces_name hname,
        List.append_assoc]
      rfl

theorem isAbsolute_foldl_push {buf : Path} (h : isAbsolute buf = true) (cs : List Component) :
    isAbsolute (cs.foldl (fun buf c => push buf c.bytes) buf) = true := by
  induction cs generalizing buf with
  | nil => exact h
  | cons c cs ih => exact ih (isAbsolute_push h c.bytes)

theorem collect_absolute {names : List (List UInt8)} (h : ∀ name ∈ names, IsName name) :
    isAbsolute (collect (.rootDir :: names.map component)) = true ∧
      pieces (collect (.rootDir :: names.map component)) = names := by
  have hroot : push [] (Component.rootDir).bytes = [slash] := rfl
  rw [collect, List.foldl_cons, hroot]
  refine ⟨isAbsolute_foldl_push rfl _, ?_⟩
  rw [pieces_collect_names h]
  rfl

theorem pieces_collect {names : List (List UInt8)} (h : ∀ name ∈ names, IsName name) :
    pieces (collect (names.map component)) = names := by
  rw [collect, pieces_collect_names h, pieces_nil, List.nil_append]

theorem isPrefix_push (buf : Path) {path : Path} (h : isAbsolute path = false) :
    buf <+: push buf path := by
  rw [push, if_neg (by simp [h])]
  split <;> exact List.prefix_append _ _

theorem isPrefix_foldl_push {names : List (List UInt8)} (h : ∀ name ∈ names, IsName name)
    (buf : Path) : buf <+: (names.map component).foldl (fun buf c => push buf c.bytes) buf := by
  induction names generalizing buf with
  | nil => exact List.prefix_refl buf
  | cons name names ih =>
      have hname := not_isAbsolute_name (h name List.mem_cons_self)
      refine .trans ?_ (ih (fun n hn => h n (List.mem_cons_of_mem _ hn)) _)
      change buf <+: push buf (component name).bytes
      rw [component_bytes]
      exact isPrefix_push buf hname

theorem head?_collect {names : List (List UInt8)} (h : ∀ name ∈ names, IsName name) :
    (collect (names.map component)).head? = names.head?.bind List.head? := by
  rcases names with _ | ⟨name, names⟩
  · rfl
  · have hname := h name List.mem_cons_self
    have hfirst : push [] (component name).bytes = name := by
      rw [component_bytes, push, if_neg (by simp [not_isAbsolute_name hname]), if_pos (.inl rfl)]
      rfl
    obtain ⟨rest, hrest⟩ := isPrefix_foldl_push (fun n hn => h n (List.mem_cons_of_mem _ hn)) name
    rw [List.map_cons, collect, List.foldl_cons, hfirst, ← hrest,
      List.head?_append_of_ne_nil _ hname.1]
    rfl

theorem isAbsolute_collect {names : List (List UInt8)} (h : ∀ name ∈ names, IsName name) :
    isAbsolute (collect (names.map component)) = false := by
  rw [← Bool.not_eq_true, isAbsolute, beq_iff_eq, head?_collect h]
  intro hhead
  obtain ⟨name, hname, hslash⟩ := Option.bind_eq_some_iff.mp hhead
  exact (h name (List.mem_of_mem_head? hname)).2.2 (List.mem_of_mem_head? hslash)

theorem startsWith_iff {p base : Path} (hp : isAbsolute p = true)
    (hbase : isAbsolute base = true) : StartsWith p base ↔ pieces base <+: pieces p := by
  rw [StartsWith, components_absolute hp, components_absolute hbase, List.cons_prefix_cons]
  constructor
  · rintro ⟨-, hprefix⟩
    exact (List.prefix_map_iff_of_injective component_injective).mp hprefix
  · exact fun hprefix => ⟨rfl, hprefix.map component⟩

theorem stripBase_eq {p base : Path} (hp : isAbsolute p = true) (hbase : isAbsolute base = true)
    {names : List (List UInt8)} (hnames : pieces p = pieces base ++ names) :
    stripBase p base = some (collect (names.map component)) := by
  have hstarts : StartsWith p base := (startsWith_iff hp hbase).mpr ⟨names, hnames.symm⟩
  rw [stripBase, if_pos hstarts, components_absolute hp, components_absolute hbase,
    List.length_cons, List.drop_succ_cons, hnames, List.map_append, List.length_map]
  rw [List.drop_append_of_le_length (by simp), List.drop_eq_nil_of_le (by simp)]
  rfl

end Foundations.UnixPath
