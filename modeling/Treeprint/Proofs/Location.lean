import Treeprint.Disk.Forest
import Treeprint.Proofs.Text

/-!
# Paths as locations, and locations as texts

A location is a list of names.  Three facts about it carry everything that is said of paths
elsewhere:

* writing a location and reading it again gives it back, both as the names that a path spells
  (`names_render`) and as the steps that the disk takes (`steps_render`);
* a location that a UTF-8 path spells is determined by its text (`text_injOn`), so that texts can
  serve as keys;
* one path text lies under another exactly when the locations are prefixes of each other
  (`isUnder_text`, `isUnder_of_text`): the comparison goes by names and not by characters.
-/

namespace Treeprint

/-- The names that a spelled location consists of: neither empty nor `.`, and without a slash. -/
def Name.Plain (name : Name) : Prop := name ≠ [] ∧ name ≠ Path.here ∧ Path.slash ∉ name

theorem Name.Valid.plain {name : Name} (h : name.Valid) : name.Plain := ⟨h.1, h.2.1, h.2.2.2.1⟩

namespace Path

/-- Locations whose names are plain and are text. -/
def IsSpelled (location : List Name) : Prop := ∀ name ∈ location, name.Plain ∧ Utf8.IsText name

theorem IsSpelled.plain {location : List Name} (h : IsSpelled location) :
    ∀ name ∈ location, name.Plain := fun name hname => (h name hname).1

/-! ### Pieces between slashes -/

theorem pieces_slash (rest : Bytes) : pieces (slash :: rest) = [] :: pieces rest := by
  simp [pieces]

/-- Bytes without a slash belong to the first piece. -/
theorem pieces_append {front rest : Bytes} (hfront : slash ∉ front) {piece : Bytes}
    {others : List Bytes} (hrest : pieces rest = piece :: others) :
    pieces (front ++ rest) = (front ++ piece) :: others := by
  induction front with
  | nil => exact hrest
  | cons b front ih =>
    rw [List.mem_cons, not_or] at hfront
    rw [List.cons_append, pieces, if_neg (Ne.symm hfront.1), ih hfront.2]
    rfl

theorem pieces_ne_nil (path : Bytes) : pieces path ≠ [] := by
  cases path with
  | nil => simp [pieces]
  | cons b rest =>
    rw [pieces]
    split
    · simp
    · split <;> simp

theorem slash_not_mem_of_mem_pieces {path piece : Bytes} (h : piece ∈ pieces path) :
    slash ∉ piece := by
  induction path generalizing piece with
  | nil => simp [pieces] at h; simp [h]
  | cons b rest ih =>
    by_cases hb : b = slash
    · rw [hb, pieces_slash, List.mem_cons] at h
      rcases h with rfl | h
      · simp
      · exact ih h
    · obtain ⟨first, others, hrest⟩ := List.exists_cons_of_ne_nil (pieces_ne_nil rest)
      have hfront : slash ∉ [b] := by simpa using Ne.symm hb
      have hpieces : pieces (b :: rest) = ([b] ++ first) :: others := pieces_append hfront hrest
      rw [hpieces, List.mem_cons] at h
      rcases h with rfl | h
      · rw [List.mem_append, not_or]
        exact ⟨by simpa using Ne.symm hb, ih (hrest ▸ List.mem_cons_self)⟩
      · exact ih (hrest ▸ List.mem_cons_of_mem _ h)

theorem pieces_flatMap {names : List Name} (h : ∀ name ∈ names, slash ∉ name) :
    pieces (names.flatMap (slash :: ·)) = [] :: names := by
  induction names with
  | nil => rfl
  | cons name names ih =>
    have hrest := ih (fun other hother => h other (List.mem_cons_of_mem _ hother))
    rw [List.flatMap_cons, List.cons_append, pieces_slash,
      pieces_append (h name List.mem_cons_self) hrest, List.append_nil]

/-! ### Writing a location and reading it again -/

theorem isAbsolute_render (location : List Name) : isAbsolute (render location) = true := by
  cases location <;> simp [render, isAbsolute]

theorem names_render {location : List Name} (h : ∀ name ∈ location, name.Plain) :
    names (render location) = location := by
  cases location with
  | nil => rfl
  | cons name rest =>
    rw [names, render, pieces_flatMap (fun other hother => (h other hother).2.2)]
    · rw [List.filter_cons_of_neg (by simp)]
      exact List.filter_eq_self.2 fun other hother => by
        simpa using ⟨(h other hother).1, (h other hother).2.1⟩
    · simp

theorem getLast?_render {location : List Name} (h : ∀ name ∈ location, name.Plain)
    (hne : location ≠ []) : (render location).getLast? ≠ some slash := by
  obtain ⟨front, last, rfl⟩ : ∃ front last, location = front ++ [last] :=
    ⟨_, _, (List.dropLast_concat_getLast hne).symm⟩
  have hlast := h last (by simp)
  have hrender : render (front ++ [last]) = front.flatMap (slash :: ·) ++ slash :: last := by
    cases front <;> simp [render]
  rw [hrender, List.getLast?_append, List.getLast?_cons]
  obtain ⟨b, hb⟩ := Option.ne_none_iff_exists'.1
    (fun hnone => hlast.1 (List.getLast?_eq_none_iff.1 hnone) : last.getLast? ≠ none)
  rw [hb]
  simp only [Option.getD_some, Option.some_or, ne_eq, Option.some.injEq]
  rintro rfl
  exact hlast.2.2 (List.mem_of_getLast? hb)

theorem steps_render {location : List Name} (h : ∀ name ∈ location, name.Plain) :
    steps (render location) = location := by
  cases hlocation : location with
  | nil => rfl
  | cons name rest =>
    have hpieces : (pieces (render location)).filter (fun piece => piece ≠ []) = location := by
      have hslash : ∀ other ∈ name :: rest, slash ∉ other := by
        intro other hother
        exact (h other (hlocation ▸ hother)).2.2
      rw [hlocation, render, pieces_flatMap hslash]
      · rw [List.filter_cons_of_neg (by simp)]
        exact List.filter_eq_self.2 fun other hother => by
          simpa using (h other (hlocation ▸ hother)).1
      · simp
    have hlast : (render location).getLast? ≠ some slash :=
      getLast?_render h (by rw [hlocation]; simp)
    rw [← hlocation, steps, hpieces]
    simp [hlast]

/-! ### What a path spells -/

theorem plain_of_mem_names {path : Bytes} {name : Name} (h : name ∈ names path) : name.Plain := by
  rw [names, List.mem_filter, decide_eq_true_eq] at h
  exact ⟨h.2.1, h.2.2, slash_not_mem_of_mem_pieces h.1⟩

theorem isText_of_mem_pieces_encode (chars : List Char) {piece : Bytes}
    (h : piece ∈ pieces (chars.flatMap String.utf8EncodeChar)) : Utf8.IsText piece := by
  induction chars generalizing piece with
  | nil =>
    simp [pieces] at h
    exact h ▸ Utf8.isText_nil
  | cons c chars ih =>
    rw [List.flatMap_cons] at h
    by_cases hslash : slash ∈ String.utf8EncodeChar c
    · rw [(Utf8.mem_encodeChar_of_ascii hslash (by decide)).1, List.singleton_append, pieces_slash,
        List.mem_cons] at h
      rcases h with rfl | h
      · exact Utf8.isText_nil
      · exact ih h
    · obtain ⟨first, others, hrest⟩ :=
        List.exists_cons_of_ne_nil (pieces_ne_nil (chars.flatMap String.utf8EncodeChar))
      rw [pieces_append hslash hrest, List.mem_cons] at h
      rcases h with rfl | h
      · exact Utf8.isText_append (Utf8.isText_char c) (ih (hrest ▸ List.mem_cons_self))
      · exact ih (hrest ▸ List.mem_cons_of_mem _ h)

theorem isText_of_mem_names {path : Bytes} (hpath : Utf8.IsText path) {name : Name}
    (h : name ∈ names path) : Utf8.IsText name := by
  obtain ⟨text, rfl⟩ := hpath
  exact isText_of_mem_pieces_encode text.toList (List.mem_filter.1 h).1

theorem isSpelled_names {path : Bytes} (hpath : Utf8.IsText path) : IsSpelled (names path) := by
  intro name hname
  exact ⟨plain_of_mem_names hname, isText_of_mem_names hpath hname⟩

/-- What a UTF-8 path spells, seen from a current directory with UTF-8 names. -/
theorem isSpelled_absolute {current location : List Name} {path : Bytes}
    (hcurrent : IsSpelled current) (hpath : Utf8.IsText path)
    (h : absolute current path = some location) : IsSpelled location := by
  unfold absolute at h
  split at h
  · cases h
  · split at h
    · cases h
      exact isSpelled_names hpath
    · cases h
      intro name hname
      rcases List.mem_append.1 hname with hname | hname
      · exact hcurrent name hname
      · exact isSpelled_names hpath name hname

/-! ### Locations as texts -/

theorem isText_render {location : List Name} (h : IsSpelled location) :
    Utf8.IsText (render location) := by
  have hslash : Utf8.IsText [slash] := ⟨"/", rfl⟩
  have hnames : Utf8.IsText (location.flatMap (slash :: ·)) := by
    induction location with
    | nil => exact Utf8.isText_nil
    | cons name rest ih =>
      rw [List.flatMap_cons, ← List.singleton_append]
      have hname := Utf8.isText_append hslash (h name List.mem_cons_self).2
      have hrest := ih fun other hother => h other (List.mem_cons_of_mem _ hother)
      exact Utf8.isText_append hname hrest
  cases location with
  | nil => exact hslash
  | cons name rest => exact hnames

theorem encode_text {location : List Name} (h : IsSpelled location) :
    Utf8.encode (text location) = render location := Utf8.encode_decode (isText_render h)

/-- **A spelled location is determined by its text.** -/
theorem text_injOn {location other : List Name} (h : IsSpelled location) (hother : IsSpelled other)
    (heq : text location = text other) : location = other := by
  have hrender : render location = render other :=
    Utf8.decode_injOn (isText_render h) (isText_render hother) heq
  rw [← names_render h.plain, hrender, names_render hother.plain]

/-- A rendered location spells itself, wherever one looks from. -/
theorem absolute_render (current : List Name) {location : List Name}
    (h : ∀ name ∈ location, name.Plain) : absolute current (render location) = some location := by
  rw [absolute, if_pos (isAbsolute_render location), names_render h, if_neg]
  cases location <;> simp [render]

/-- Reading the text of a location gives the location, wherever one looks from. -/
theorem absolute_text {current location : List Name} (h : IsSpelled location) :
    absolute current (Utf8.encode (text location)) = some location := by
  rw [encode_text h, absolute_render current h.plain]

/-! ### Comparing path texts -/

theorem parts_of_isAbsolute {path : Bytes} (h : isAbsolute path = true) :
    parts path = Part.root :: (names path).map Part.name := by
  rw [parts, if_pos h]
  rfl

theorem parts_text {location : List Name} (h : IsSpelled location) :
    parts (Utf8.encode (text location)) = Part.root :: location.map Part.name := by
  rw [encode_text h, parts_of_isAbsolute (isAbsolute_render location), names_render h.plain]

theorem root_map_isPrefixOf {front names : List Name} :
    (Part.root :: front.map Part.name).isPrefixOf (Part.root :: names.map Part.name) = true
      ↔ front <+: names := by
  have hinj : Function.Injective Part.name := fun _ _ heq => Part.name.inj heq
  rw [List.isPrefixOf_iff_prefix, List.cons_prefix_cons, List.prefix_map_iff_of_injective hinj]
  exact and_iff_right rfl

/-- A spelled location lies under an absolute path text exactly when the names say so. -/
theorem isUnder_text {top : String} {location : List Name}
    (htop : isAbsolute (Utf8.encode top) = true) (h : IsSpelled location) :
    isUnder top (text location) = true ↔ names (Utf8.encode top) <+: location := by
  rw [isUnder, parts_of_isAbsolute htop, parts_text h, root_map_isPrefixOf]

theorem isUnder_of_text {below : String} {location : List Name}
    (hbelow : isAbsolute (Utf8.encode below) = true) (h : IsSpelled location) :
    isUnder (text location) below = true ↔ location <+: names (Utf8.encode below) := by
  rw [isUnder, parts_of_isAbsolute hbelow, parts_text h, root_map_isPrefixOf]

end Path

end Treeprint
