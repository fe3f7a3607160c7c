import Mathlib.Tactic.ByContra
import Treeprint.Proofs.Coherence

/-!
# Locations as they are shown

A text shows a location, and what is no text is shown by replacement characters.  Since no character
reaches across a slash, showing the whole path and showing it name by name come to the same
(`text_append`), and two locations share a text exactly when their names are shown alike
(`text_eq_iff`).

So different locations may share a key.  UTF-8 paths spell locations that are told apart **when the
current directory is text as well, or when all the paths start at the same place**
(`tellsApart_spelledBy`), but not in general: a directory whose name is no text can stand beside one
that is named by the replacement character.  The comparison of path texts misses nothing by this.
What lies at or below an absolute path is shown at or below it (`isUnder_text_of_below`), and what
lies above it is shown above it.
-/

namespace Treeprint

/-! ### The text of a location, name by name -/

theorem Utf8.toList_decode_intercalate (names : List Name) :
    (Utf8.decode (List.intercalate [Path.slash] names)).toList
      = List.intercalate ['/'] (names.map fun name => (Utf8.decode name).toList) := by
  induction names with
  | nil => rfl
  | cons name rest ih =>
    cases rest with
    | nil => simp
    | cons second rest =>
      rw [List.intercalate_cons_cons, List.map_cons, List.map_cons, List.intercalate_cons_cons,
        ← List.map_cons (f := fun name => (Utf8.decode name).toList), ← ih, List.append_assoc,
        List.singleton_append, Utf8.toList_decode_append_ascii (by decide)]
      simp [Path.slash]

namespace Path

/-- **The text of a path is the text of its top, a slash, and the names below as they are
    shown.** -/
theorem text_append (top : List Name) {way : List Name} (hne : way ≠ []) (endsWithFile : Bool) :
    text (top ++ way) = (if top = [] then "" else text top) ++ "/"
      ++ RelativePath.text ⟨way.map Utf8.decode, endsWithFile⟩ := by
  have hbelow : (Utf8.decode (List.intercalate [slash] way)).toList
      = (RelativePath.text ⟨way.map Utf8.decode, endsWithFile⟩).toList := by
    rw [Utf8.toList_decode_intercalate, RelativePath.text, String.toList_ofList, List.map_map]
    rfl
  have hrender : render (top ++ way)
      = top.flatMap (slash :: ·) ++ slash :: List.intercalate [slash] way := by
    obtain ⟨name, rest, rfl⟩ := List.exists_cons_of_ne_nil hne
    rw [render, List.flatMap_append, intercalate_cons_eq_flatMap]
    · simp
    · simp
  have htop : (Utf8.decode (top.flatMap (slash :: ·))).toList
      = (if top = [] then "" else text top).toList := by
    cases top with
    | nil => rfl
    | cons name rest => rfl
  rw [← String.toList_inj, text, hrender, Utf8.toList_decode_append_ascii (by decide), htop, hbelow]
  simp [slash]

/-- The characters that a name is shown by. -/
def shown (name : Name) : List Char := (Utf8.decode name).toList

theorem shown_of_plain {name : Name} (h : name.Plain) : shown name ≠ [] ∧ '/' ∉ shown name :=
  ⟨Utf8.toList_decode_ne_nil h.1,
    fun hmem => h.2.2 (Utf8.mem_of_mem_decode (by decide) (by decide) hmem)⟩

theorem toList_text (location : List Name) :
    (text location).toList = '/' :: List.intercalate ['/'] (location.map shown) := by
  by_cases hne : location = []
  · subst hne
    rfl
  · have h := text_append [] hne false
    have hshown : String.toList ∘ Utf8.decode = shown := rfl
    rw [List.nil_append, if_pos rfl] at h
    rw [h, RelativePath.text, List.map_map, hshown]
    simp

theorem isAbsolute_encode_text (location : List Name) :
    isAbsolute (Utf8.encode (text location)) = true := by
  have hencode : Utf8.encode (text location)
      = slash :: (List.intercalate ['/'] (location.map shown)).flatMap String.utf8EncodeChar := by
    rw [Utf8.encode, toList_text]
    rfl
  rw [hencode]
  rfl

/-- What stands between the slashes can be read off. -/
theorem filter_splitOn_intercalate {parts : List (List Char)}
    (h : ∀ part ∈ parts, part ≠ [] ∧ '/' ∉ part) :
    ((List.intercalate ['/'] parts).splitOn '/').filter (· ≠ []) = parts := by
  by_cases hne : parts = []
  · subst hne
    rfl
  · rw [List.splitOn_intercalate _ (fun part hpart => (h part hpart).2) hne]
    exact List.filter_eq_self.2 fun part hpart => by simpa using (h part hpart).1

/-- **Two locations share a text exactly when their names are shown alike.** -/
theorem text_eq_iff {location other : List Name} (h : ∀ name ∈ location, name.Plain)
    (hother : ∀ name ∈ other, name.Plain) :
    text location = text other ↔ location.map Utf8.decode = other.map Utf8.decode := by
  have hshown {names : List Name} (hnames : ∀ name ∈ names, name.Plain) :
      ∀ part ∈ names.map shown, part ≠ [] ∧ '/' ∉ part := by
    intro part hpart
    obtain ⟨name, hname, rfl⟩ := List.mem_map.1 hpart
    exact shown_of_plain (hnames name hname)
  have hlists : location.map Utf8.decode = other.map Utf8.decode ↔
      location.map shown = other.map shown := by
    rw [← List.map_inj_right fun _ _ => String.toList_inj.1, List.map_map, List.map_map]
    rfl
  rw [hlists, ← String.toList_inj, toList_text, toList_text, List.cons_inj_right]
  constructor
  · intro htext
    rw [← filter_splitOn_intercalate (hshown h), htext, filter_splitOn_intercalate (hshown hother)]
  · exact congrArg _

/-! ### Where a path leads -/

/-- The location that a path spells; a relative path starts from the current directory. -/
def located (current : List Name) (path : Bytes) : List Name :=
  (if isAbsolute path then [] else current) ++ names path

variable {current : List Name} {path other : Bytes}

theorem plain_absolute {location : List Name} (hcurrent : ∀ name ∈ current, name.Plain)
    (h : absolute current path = some location) : ∀ name ∈ location, name.Plain := by
  unfold absolute at h
  split at h
  · cases h
  · split at h
    · cases h
      exact fun _ => plain_of_mem_names
    · cases h
      intro name hname
      exact (List.mem_append.1 hname).elim (hcurrent name) plain_of_mem_names

theorem absolute_eq_located (hne : path ≠ []) :
    absolute current path = some (located current path) := by
  rw [absolute, if_neg hne, located]
  split <;> rfl

theorem plain_located (hcurrent : ∀ name ∈ current, name.Plain) (hne : path ≠ []) :
    ∀ name ∈ located current path, name.Plain :=
  plain_absolute hcurrent (absolute_eq_located hne)

/-- Nothing is lost in a text where the current directory is text, or where it is the same part of
    both locations. -/
theorem text_located_eq_iff (hcurrent : ∀ name ∈ current, name.Plain) (hne : path ≠ [])
    (hne' : other ≠ []) (hpath : Utf8.IsText path) (hother : Utf8.IsText other)
    (h : (∀ name ∈ current, Utf8.IsText name) ∨ isAbsolute path = isAbsolute other) :
    text (located current path) = text (located current other) ↔
      located current path = located current other := by
  refine ⟨?_, congrArg text⟩
  intro htext
  rcases h with htexts | hstart
  · have hspelled : IsSpelled current := fun name hname => ⟨hcurrent name hname, htexts name hname⟩
    exact text_injOn (isSpelled_absolute hspelled hpath (absolute_eq_located hne))
      (isSpelled_absolute hspelled hother (absolute_eq_located hne')) htext
  · -- the part that may be no text is the same in both locations and is taken off
    have hshown :=
      (text_eq_iff (plain_located hcurrent hne) (plain_located hcurrent hne')).1 htext
    rw [located, located, hstart, List.map_append, List.map_append, List.append_cancel_left_eq,
      ← text_eq_iff (fun _ => plain_of_mem_names) fun _ => plain_of_mem_names] at hshown
    rw [located, located, hstart,
      text_injOn (isSpelled_names hpath) (isSpelled_names hother) hshown]

end Path

/-! ### Which paths are told apart -/

/-- The locations that some paths spell. -/
def Path.SpelledBy (current : List Name) (paths : Bytes → Prop) (location : List Name) : Prop :=
  ∃ path, paths path ∧ Path.absolute current path = some location

theorem Root.spells_spelledBy {current : List Name} {paths : Bytes → Prop} {root : Root}
    (h : ∀ path ∈ root.paths, paths path) : root.Spells current (Path.SpelledBy current paths) :=
  fun path hpath _ hlocation => ⟨path, h path hpath, hlocation⟩

/-- **UTF-8 paths spell locations that are told apart when the current directory is text, and when
    they are all absolute or all relative.** -/
theorem tellsApart_spelledBy {current : List Name} (hcurrent : ∀ name ∈ current, name.Plain)
    {paths : Bytes → Prop} (hpaths : ∀ path, paths path → Utf8.IsText path)
    (h : (∀ name ∈ current, Utf8.IsText name) ∨
      ∀ path other, paths path → paths other → Path.isAbsolute path = Path.isAbsolute other) :
    TellsApart (Path.SpelledBy current paths) := by
  rintro location location' ⟨path, hpath, hlocation⟩ ⟨other, hother, hlocation'⟩ htext
  have hne : path ≠ [] := by
    rintro rfl
    cases hlocation
  have hne' : other ≠ [] := by
    rintro rfl
    cases hlocation'
  obtain rfl : Path.located current path = location :=
    Option.some.inj ((Path.absolute_eq_located hne).symm.trans hlocation)
  obtain rfl : Path.located current other = location' :=
    Option.some.inj ((Path.absolute_eq_located hne').symm.trans hlocation')
  have hstart := h.imp_right fun hsame => hsame path other hpath hother
  exact (Path.text_located_eq_iff hcurrent hne hne' (hpaths path hpath) (hpaths other hother)
    hstart).1 htext

/-- Where the current directory is no text a relative path and an absolute one can be shown
    alike. -/
example : Path.text (Path.located [[0xFE]] (Utf8.encode "x"))
      = Path.text (Path.located [[0xFE]] (Utf8.encode "/\uFFFD/x")) ∧
    Path.located [[0xFE]] (Utf8.encode "x")
      ≠ Path.located [[0xFE]] (Utf8.encode "/\uFFFD/x") := by
  decide

/-! ### Comparing what is shown -/

namespace Utf8

/-- Only a dot is shown as a dot. -/
theorem eq_here_of_decode {bytes : Bytes} (h : decode bytes = ".") : bytes = Path.here := by
  have hmem : (0x2E : UInt8) ∈ bytes := by
    apply mem_of_mem_decode (by decide) (by decide)
    rw [h]
    decide
  obtain ⟨front, back, rfl⟩ := List.append_of_mem hmem
  have hdot : (decode front).toList ++ '.' :: (decode back).toList = ['.'] := by
    have hshown := toList_decode_append_ascii (b := 0x2E) (by decide) front back
    rw [h] at hshown
    exact hshown.symm
  rcases List.append_eq_singleton_iff.1 hdot with ⟨hfront, hback⟩ | ⟨-, hback⟩
  · have hfront : front = [] := by
      by_contra hne
      exact toList_decode_ne_nil hne hfront
    have hback : back = [] := by
      by_contra hne
      exact toList_decode_ne_nil hne (List.cons.inj hback).2
    rw [hfront, hback]
    rfl
  · cases hback

end Utf8

namespace Path

/-- The bytes that show a name spell a name themselves. -/
theorem plain_encode_decode {name : Name} (h : name.Plain) :
    Name.Plain (Utf8.encode (Utf8.decode name)) := by
  refine ⟨?_, ?_, ?_⟩
  · intro hnil
    have hshown := Utf8.decode_encode (Utf8.decode name)
    rw [hnil] at hshown
    exact (shown_of_plain h).1 (by rw [shown, ← hshown]; rfl)
  · intro hhere
    have hshown := Utf8.decode_encode (Utf8.decode name)
    rw [hhere] at hshown
    exact h.2.1 (Utf8.eq_here_of_decode hshown.symm)
  · intro hslash
    obtain ⟨c, hc, hslash⟩ := List.mem_flatMap.1 hslash
    obtain rfl : c = '/' := Char.toNat_inj.1 (Utf8.mem_encodeChar_of_ascii hslash (by decide)).2
    exact (shown_of_plain h).2 hc

/-- A location at or below an absolute path is shown at or below it. -/
theorem isUnder_text_of_below {top : String} {location : List Name}
    (htop : isAbsolute (Utf8.encode top) = true) (h : ∀ name ∈ location, name.Plain)
    (hway : names (Utf8.encode top) <+: location) : isUnder top (text location) = true := by
  -- the names as they are shown make up a location that is text
  let reshown : Name → Name := fun name => Utf8.encode (Utf8.decode name)
  have hspelled : IsSpelled (location.map reshown) := by
    intro name hname
    obtain ⟨other, hother, rfl⟩ := List.mem_map.1 hname
    exact ⟨plain_encode_decode (h other hother), ⟨Utf8.decode other, rfl⟩⟩
  have htext : text (location.map reshown) = text location := by
    rw [text_eq_iff hspelled.plain h, List.map_map]
    apply List.map_congr_left
    intro name _
    exact Utf8.decode_encode _
  have hnames : (names (Utf8.encode top)).map reshown = names (Utf8.encode top) := by
    conv_rhs => rw [← List.map_id (names (Utf8.encode top))]
    apply List.map_congr_left
    intro name hname
    exact Utf8.encode_decode (isText_of_mem_names ⟨top, rfl⟩ hname)
  rw [← htext, isUnder_text htop hspelled, ← hnames]
  exact hway.map reshown

/-- A location at or above an absolute path is shown at or above it. -/
theorem isUnder_text_of_above {below : String} {location : List Name}
    (hbelow : isAbsolute (Utf8.encode below) = true)
    (hway : location <+: names (Utf8.encode below)) : isUnder (text location) below = true := by
  have hspelled : IsSpelled location := by
    intro name hname
    exact isSpelled_names ⟨below, rfl⟩ name (hway.subset hname)
  exact (isUnder_of_text hbelow hspelled).2 hway

end Path

end Treeprint
