import Mathlib.Logic.Relation
import Mathlib.Tactic.ByContra
import Treeprint.Proofs.Location

/-!
# Spellings of one path

A path can be written in many ways.  Slashes can be repeated, a slash can stand at the end, and a
`.` can stand between two slashes or at the end.  `Path.Respelling` has one rule for each of these
and none besides.  The main statements say that this is all that is given up when paths are
compared:

* two path texts have the same parts exactly when they are respellings of each other
  (`parts_eq_iff`), so a leading `.`, a `..` and the place a path starts at are kept;
* two paths spell the same location exactly when they are respellings of each other once relative
  ones are put behind the current directory (`absolute_eq_iff`).

One direction is a matter of the rules one by one.  For the other each path is brought into the form
that its parts are written in (`Path.unparts`): what stands behind a first piece is taken off piece
by piece.
-/

namespace Treeprint.Path

/-! ### Putting a path behind another -/

theorem pieces_append_slash (front back : Bytes) :
    pieces (front ++ slash :: back) = pieces front ++ pieces back := by
  induction front with
  | nil => exact pieces_slash back
  | cons b front ih =>
    by_cases hb : b = slash
    · rw [hb, List.cons_append, pieces_slash, pieces_slash, ih, List.cons_append]
    · obtain ⟨piece, others, hfront⟩ := List.exists_cons_of_ne_nil (pieces_ne_nil front)
      rw [hfront, List.cons_append] at ih
      rw [List.cons_append, pieces, pieces, if_neg hb, if_neg hb, ih, hfront]
      rfl

theorem names_append_slash (front back : Bytes) :
    names (front ++ slash :: back) = names front ++ names back := by
  rw [names, pieces_append_slash, List.filter_append]
  rfl

@[simp] theorem names_nil : names [] = [] := rfl

@[simp] theorem names_here : names here = [] := rfl

theorem names_slash (path : Bytes) : names (slash :: path) = names path :=
  names_append_slash [] path

theorem head?_pieces_append_slash (front back : Bytes) :
    (pieces (front ++ slash :: back)).head? = (pieces front).head? := by
  obtain ⟨piece, others, hfront⟩ := List.exists_cons_of_ne_nil (pieces_ne_nil front)
  rw [pieces_append_slash, hfront]
  rfl

/-- What stands behind a slash adds its names and nothing else. -/
theorem parts_append_slash (front back : Bytes) :
    parts (front ++ slash :: back) = parts (front ++ [slash]) ++ (names back).map Part.name := by
  have hstart : isAbsolute (front ++ slash :: back) = isAbsolute (front ++ [slash]) := by
    cases front <;> rfl
  rw [parts, parts, hstart, head?_pieces_append_slash, head?_pieces_append_slash,
    names_append_slash, names_append_slash, names_nil, List.append_nil, List.map_append,
    List.append_assoc]

theorem parts_append_last {front : Bytes} (hne : front ≠ []) :
    parts (front ++ [slash]) = parts front := by
  have hstart : isAbsolute (front ++ [slash]) = isAbsolute front := by
    cases front with
    | nil => exact absurd rfl hne
    | cons b front => rfl
  rw [parts, parts, hstart, head?_pieces_append_slash, names_append_slash, names_nil,
    List.append_nil]

/-! ### Respellings -/

/-- One path text is written shorter in the other: of two slashes one is left out, or a `.` behind a
    slash, or a slash at the end. -/
inductive Respelling : Bytes → Bytes → Prop
  | repeated (front back : Bytes) :
    Respelling (front ++ slash :: slash :: back) (front ++ slash :: back)
  | dot (front back : Bytes) :
    Respelling (front ++ slash :: (here ++ slash :: back)) (front ++ slash :: back)
  | lastDot (front : Bytes) : Respelling (front ++ slash :: here) (front ++ [slash])
  | lastSlash {front : Bytes} : front ≠ [] → Respelling (front ++ [slash]) front

theorem Respelling.parts_eq {path other : Bytes} (h : Respelling path other) :
    parts path = parts other := by
  cases h with
  | repeated front back => rw [parts_append_slash, names_slash, ← parts_append_slash]
  | dot front back =>
    rw [parts_append_slash, names_append_slash, names_here, List.nil_append, ← parts_append_slash]
  | lastDot front => rw [parts_append_slash, names_here, List.map_nil, List.append_nil]
  | lastSlash hne => exact parts_append_last hne

/-! ### The form that parts are written in -/

def Part.bytes : Part → Bytes
  | root => [slash]
  | current => here
  | .name bytes => bytes

/-- The parts with a slash between each two, also behind the root. -/
def unparts : List Part → Bytes
  | [] => []
  | first :: rest => first.bytes ++ rest.flatMap (fun part => slash :: part.bytes)

open Relation (EqvGen)

/-- What is no name can be taken out from behind a slash. -/
theorem respell_drop {front piece : Bytes} (hfront : front ≠ [])
    (hpiece : ¬ (piece ≠ [] ∧ piece ≠ here)) (rest : List Bytes) :
    EqvGen Respelling (front ++ slash :: (piece ++ rest.flatMap (slash :: ·)))
      (front ++ rest.flatMap (slash :: ·)) := by
  have hkinds : piece = [] ∨ piece = here := by
    by_cases hnil : piece = []
    · exact .inl hnil
    · exact .inr (Decidable.not_not.1 fun hhere => hpiece ⟨hnil, hhere⟩)
  cases rest with
  | nil =>
    have hlast : EqvGen Respelling (front ++ [slash]) front := .rel _ _ (.lastSlash hfront)
    rw [List.flatMap_nil, List.append_nil, List.append_nil]
    rcases hkinds with rfl | rfl
    · exact hlast
    · exact .trans _ _ _ (.rel _ _ (.lastDot front)) hlast
  | cons next rest =>
    rw [List.flatMap_cons, List.cons_append]
    rcases hkinds with rfl | rfl
    · exact .rel _ _ (.repeated front _)
    · exact .rel _ _ (.dot front _)

/-- Behind a first piece only the names are left. -/
theorem respell_names {front : Bytes} (hfront : front ≠ []) (others : List Bytes) :
    EqvGen Respelling (front ++ others.flatMap (slash :: ·))
      (front ++ (others.filter fun piece => piece ≠ [] ∧ piece ≠ here).flatMap (slash :: ·)) := by
  induction others generalizing front with
  | nil => exact .refl _
  | cons piece rest ih =>
    by_cases hpiece : piece ≠ [] ∧ piece ≠ here
    · have hlonger : front ++ slash :: piece ≠ [] := by simp
      have hrest := ih hlonger
      rw [List.filter_cons_of_pos (by simpa using hpiece), List.flatMap_cons, List.flatMap_cons]
      simpa using hrest
    · rw [List.filter_cons_of_neg (by simpa using hpiece), List.flatMap_cons, List.cons_append]
      exact .trans _ _ _ (respell_drop hfront hpiece rest) (ih hfront)

/-- The pieces with a slash between each two are the path again. -/
theorem eq_of_pieces {path first : Bytes} {others : List Bytes}
    (h : pieces path = first :: others) : path = first ++ others.flatMap (slash :: ·) := by
  induction path generalizing first others with
  | nil =>
    cases h
    rfl
  | cons b rest ih =>
    obtain ⟨piece, more, hrest⟩ := List.exists_cons_of_ne_nil (pieces_ne_nil rest)
    by_cases hb : b = slash
    · rw [hb, pieces_slash, hrest] at h
      cases h
      rw [hb, List.nil_append, List.flatMap_cons, List.cons_append, ← ih hrest]
    · rw [pieces, if_neg hb, hrest] at h
      cases h
      rw [List.cons_append, ← ih hrest]

theorem flatMap_bytes_name (names : List Name) :
    (names.map Part.name).flatMap (fun part => slash :: part.bytes)
      = names.flatMap (slash :: ·) := by
  rw [List.flatMap_map]
  rfl

/-- A relative path begins with a piece that is not empty. -/
theorem exists_pieces_of_relative {path : Bytes} (hrelative : ¬ isAbsolute path = true)
    (hne : path ≠ []) : ∃ first others, first ≠ [] ∧ pieces path = first :: others := by
  obtain ⟨first, others, hpieces⟩ := List.exists_cons_of_ne_nil (pieces_ne_nil path)
  refine ⟨first, others, ?_, hpieces⟩
  rintro rfl
  have hpath := eq_of_pieces hpieces
  cases others with
  | nil => exact hne hpath
  | cons piece others =>
    rw [hpath] at hrelative
    exact hrelative rfl

theorem parts_of_relative {path first : Bytes} {others : List Bytes}
    (hrelative : ¬ isAbsolute path = true) (hpieces : pieces path = first :: others)
    (hfirst : first ≠ []) :
    parts path = (if first = here then Part.current else Part.name first) ::
      (others.filter fun piece => piece ≠ [] ∧ piece ≠ here).map Part.name := by
  by_cases hhere : first = here
  · rw [parts, if_neg hrelative, if_pos (by rw [hpieces, hhere]; rfl), if_pos hhere, names, hpieces,
      List.filter_cons_of_neg (by simp [hhere])]
    rfl
  · rw [parts, if_neg hrelative, if_neg (by simpa [hpieces] using hhere), if_neg hhere, names,
      hpieces, List.filter_cons_of_pos (by simpa using ⟨hfirst, hhere⟩)]
    rfl

/-- **Each path can be respelled into the form of its parts.** -/
theorem respell_unparts (path : Bytes) : EqvGen Respelling path (unparts (parts path)) := by
  by_cases habsolute : isAbsolute path = true
  · -- with one more slash in front, all pieces stand behind a first one
    obtain ⟨rest, rfl⟩ : ∃ rest, path = slash :: rest := by
      cases path with
      | nil => cases habsolute
      | cons b rest => exact ⟨rest, by rw [of_decide_eq_true habsolute]⟩
    have hdouble : EqvGen Respelling (slash :: slash :: rest) (slash :: rest) :=
      .rel _ _ (.repeated [] rest)
    have hrest : slash :: rest = (pieces rest).flatMap (slash :: ·) :=
      eq_of_pieces (pieces_slash rest)
    have hnames := respell_names (List.cons_ne_nil slash []) (pieces rest)
    rw [← hrest] at hnames
    rw [parts_of_isAbsolute habsolute, unparts, flatMap_bytes_name, names_slash]
    exact .trans _ _ _ (.symm _ _ hdouble) hnames
  · by_cases hne : path = []
    · subst hne
      exact .refl _
    · obtain ⟨first, others, hfirst, hpieces⟩ := exists_pieces_of_relative habsolute hne
      have hbytes : (if first = here then Part.current else Part.name first).bytes = first := by
        split
        · rename_i hhere
          exact hhere.symm
        · rfl
      have hnames := respell_names hfirst others
      rw [← eq_of_pieces hpieces] at hnames
      rw [parts_of_relative habsolute hpieces hfirst, unparts, hbytes, flatMap_bytes_name]
      exact hnames

/-- **Two path texts have the same parts exactly when they are respellings of each other.** -/
theorem parts_eq_iff {path other : Bytes} :
    parts path = parts other ↔ EqvGen Respelling path other := by
  constructor
  · intro h
    have hother := respell_unparts other
    rw [← h] at hother
    exact .trans _ _ _ (respell_unparts path) (.symm _ _ hother)
  · intro h
    induction h with
    | rel _ _ hstep => exact hstep.parts_eq
    | refl => rfl
    | symm _ _ _ ih => exact ih.symm
    | trans _ _ _ _ _ ih ih' => exact ih.trans ih'

/-! ### Locations -/

/-- The name that a part is. -/
def Part.name? : Part → Option Name
  | .name bytes => some bytes
  | _ => none

/-- The names of a path are among its parts. -/
theorem filterMap_parts (path : Bytes) : (parts path).filterMap Part.name? = names path := by
  have hnames : ((names path).map Part.name).filterMap Part.name? = names path := by
    rw [List.filterMap_map]
    exact List.filterMap_some
  rw [parts, List.filterMap_append, hnames]
  repeat' split
  all_goals rfl

theorem root_mem_parts_iff (path : Bytes) : Part.root ∈ parts path ↔ isAbsolute path = true := by
  have hnames : Part.root ∉ (names path).map Part.name := by simp
  by_cases h : isAbsolute path = true
  · simp [parts, h]
  · rw [parts, if_neg h, List.mem_append, or_iff_left hnames]
    split <;> simp [h]

theorem parts_eq_nil_iff (path : Bytes) : parts path = [] ↔ path = [] := by
  constructor
  · intro h
    by_contra hne
    by_cases habsolute : isAbsolute path = true
    · rw [parts_of_isAbsolute habsolute] at h
      cases h
    · obtain ⟨first, others, hfirst, hpieces⟩ := exists_pieces_of_relative habsolute hne
      rw [parts_of_relative habsolute hpieces hfirst] at h
      cases h
  · rintro rfl
    rfl

/-- Paths with the same parts spell the same location. -/
theorem absolute_congr {current : List Name} {path other : Bytes} (h : parts path = parts other) :
    absolute current path = absolute current other := by
  have hempty : path = [] ↔ other = [] := by rw [← parts_eq_nil_iff, h, parts_eq_nil_iff]
  have hstart : isAbsolute path = true ↔ isAbsolute other = true := by
    rw [← root_mem_parts_iff, h, root_mem_parts_iff]
  have hnames : names path = names other := by rw [← filterMap_parts, h, filterMap_parts]
  simp only [absolute, hempty, hstart, hnames]

/-- A relative path behind the current directory. -/
def behind (current : List Name) (path : Bytes) : Bytes := render current ++ slash :: path

theorem isAbsolute_behind (current : List Name) (path : Bytes) :
    isAbsolute (behind current path) = true := by
  rw [behind]
  cases current <;> rfl

theorem names_behind {current : List Name} (hcurrent : ∀ name ∈ current, name.Plain)
    (path : Bytes) : names (behind current path) = current ++ names path := by
  rw [behind, names_append_slash, names_render hcurrent]

theorem absolute_of_isAbsolute {path : Bytes} (current : List Name) (h : isAbsolute path = true) :
    absolute current path = some (names path) := by
  rw [absolute, if_pos h, if_neg]
  rintro rfl
  cases h

theorem absolute_behind {current : List Name} (hcurrent : ∀ name ∈ current, name.Plain)
    {path : Bytes} (hrelative : ¬ isAbsolute path = true) (hne : path ≠ []) :
    absolute current (behind current path) = absolute current path := by
  rw [absolute_of_isAbsolute current (isAbsolute_behind current path), names_behind hcurrent,
    absolute, if_neg hne, if_neg hrelative]

/-- One path is a respelling of the other, or is relative and the other is the same path behind the
    current directory. -/
inductive Respelled (current : List Name) : Bytes → Bytes → Prop
  | respelling {path other : Bytes} : Respelling path other → Respelled current path other
  | behind {path : Bytes} : ¬ isAbsolute path = true → path ≠ [] →
    Respelled current path (behind current path)

theorem respelled_of_parts_eq {current : List Name} {path other : Bytes}
    (h : parts path = parts other) : EqvGen (Respelled current) path other :=
  (parts_eq_iff.1 h).mono fun _ _ hstep => .respelling hstep

/-- Each path can be respelled into an absolute one. -/
theorem exists_respelled_absolute {current : List Name}
    (hcurrent : ∀ name ∈ current, name.Plain) {path : Bytes} (hne : path ≠ []) :
    ∃ other, isAbsolute other = true ∧ EqvGen (Respelled current) path other ∧
      absolute current other = absolute current path := by
  by_cases habsolute : isAbsolute path = true
  · exact ⟨path, habsolute, .refl _, rfl⟩
  · exact ⟨behind current path, isAbsolute_behind current path, .rel _ _ (.behind habsolute hne),
      absolute_behind hcurrent habsolute hne⟩

/-- **Two paths spell the same location exactly when they are respellings of each other**, with
    relative ones behind the current directory. -/
theorem absolute_eq_iff {current : List Name} (hcurrent : ∀ name ∈ current, name.Plain)
    {path other : Bytes} (hne : path ≠ []) (hne' : other ≠ []) :
    absolute current path = absolute current other ↔ EqvGen (Respelled current) path other := by
  constructor
  · intro h
    obtain ⟨long, hlong, hpath, hsame⟩ := exists_respelled_absolute hcurrent hne
    obtain ⟨long', hlong', hother, hsame'⟩ := exists_respelled_absolute hcurrent hne'
    rw [← hsame, ← hsame', absolute_of_isAbsolute current hlong,
      absolute_of_isAbsolute current hlong', Option.some.injEq] at h
    have hparts : parts long = parts long' := by
      rw [parts_of_isAbsolute hlong, parts_of_isAbsolute hlong', h]
    exact .trans _ _ _ hpath (.trans _ _ _ (respelled_of_parts_eq hparts) (.symm _ _ hother))
  · intro h
    clear hne hne'
    induction h with
    | rel path other hstep =>
      cases hstep with
      | respelling hstep => exact absolute_congr hstep.parts_eq
      | behind hrelative hne => exact (absolute_behind hcurrent hrelative hne).symm
    | refl => rfl
    | symm _ _ _ ih => exact ih.symm
    | trans _ _ _ _ _ ih ih' => exact ih.trans ih'

end Treeprint.Path
