import Treeprint.Proofs.Spelling
import Treeprint.Proofs.Store

/-!
# What is dropped with a path

Invalidating a path drops the observations at or below it, and the listings at, below or above it.
Where a path is is told by its parts: one text is at or below another when its parts begin with the
parts of the other (`Path.Under`).  The main statement, `invalidate_drops_exactly`, says that
**nothing else is dropped and nothing is changed**, and what follows from it for spellings, for
names that begin alike, and for several paths after each other.

Being at or below is reflexive and transitive, and two texts that a third is below lie below one
another.  That is all that is needed of paths where invalidations meet: each of them keeps the keys
that pass a test, and the tests are compared key by key.
-/

namespace Treeprint

theorem Utf8.encode_append (front back : String) :
    encode (front ++ back) = encode front ++ encode back := by
  simp [encode]

theorem Utf8.encode_ne_nil {text : String} (h : text ≠ "") : encode text ≠ [] := by
  intro hnil
  apply h
  rw [← decode_encode text, hnil]
  rfl

namespace Path

/-! ### Being at or below -/

/-- The text `text` is at the text `top` or below it. -/
def Under (top text : String) : Prop := parts (Utf8.encode top) <+: parts (Utf8.encode text)

theorem isUnder_iff {top text : String} : isUnder top text = true ↔ Under top text :=
  List.isPrefixOf_iff_prefix

theorem Under.refl (text : String) : Under text text := List.prefix_rfl

theorem Under.trans {top middle text : String} (h : Under top middle) (h' : Under middle text) :
    Under top text := List.IsPrefix.trans h h'

/-- What is above one text is in line. -/
theorem Under.total {top middle text : String} (h : Under top text) (h' : Under middle text) :
    Under top middle ∨ Under middle top := List.prefix_or_prefix_of_prefix h h'

/-! ### Names that begin alike -/

/-- The text `key` goes on in the middle of the last name of `path`. -/
def RunsOn (path key : String) : Prop :=
  ∃ front name more : String, path = front ++ name ∧ key = front ++ name ++ more ∧
    (front = "" ∨ (Utf8.encode front).getLast? = some slash) ∧ Name.Plain (Utf8.encode name) ∧
    more ≠ "" ∧ (Utf8.encode more).head? ≠ some slash

/-- A last name is a part of its own. -/
theorem exists_parts_last (front : Bytes) (hfront : front = [] ∨ front.getLast? = some slash) :
    ∃ base, ∀ name : Name, name.Plain → parts (front ++ name) = base ++ [Part.name name] := by
  rcases hfront with rfl | hlast
  · refine ⟨[], ?_⟩
    intro name hname
    have hpieces : pieces (name ++ []) = (name ++ []) :: [] := pieces_append hname.2.2 rfl
    rw [List.append_nil] at hpieces
    have hrelative : ¬ isAbsolute name = true := by
      cases name with
      | nil => simp [isAbsolute]
      | cons b rest => simpa [isAbsolute] using fun hb : b = slash => hname.2.2 (by simp [hb])
    rw [List.nil_append, parts_of_relative hrelative hpieces hname.1, if_neg hname.2.1]
    rfl
  · obtain ⟨rest, rfl⟩ := List.getLast?_eq_some_iff.1 hlast
    refine ⟨parts (rest ++ [slash]), ?_⟩
    intro name hname
    have hpieces : pieces (name ++ []) = (name ++ []) :: [] := pieces_append hname.2.2 rfl
    rw [List.append_nil] at hpieces
    have hnames : names name = [name] := by
      rw [names, hpieces, List.filter_cons_of_pos (by simpa using ⟨hname.1, hname.2.1⟩)]
      rfl
    rw [List.append_assoc, List.singleton_append, parts_append_slash, hnames]
    rfl

/-- What follows behind a slash comes after the parts before it. -/
theorem parts_prefix_append {front rest : Bytes} (hfront : front ≠ [])
    (hrest : rest = [] ∨ rest.head? = some slash) : parts front <+: parts (front ++ rest) := by
  rcases hrest with rfl | hhead
  · simp
  · obtain ⟨back, rfl⟩ := List.head?_eq_some_iff.1 hhead
    rw [parts_append_slash, parts_append_last hfront]
    exact List.prefix_append _ _

/-- Bytes that go on before a slash comes have more to their last name. -/
theorem exists_name_of_not_slash {more : Bytes} (hne : more ≠ [])
    (hhead : more.head? ≠ some slash) :
    ∃ longer rest, more = longer ++ rest ∧ longer ≠ [] ∧ slash ∉ longer ∧
      (rest = [] ∨ rest.head? = some slash) := by
  obtain ⟨piece, others, hpieces⟩ := List.exists_cons_of_ne_nil (pieces_ne_nil more)
  have hmore := eq_of_pieces hpieces
  have hslash : slash ∉ piece :=
    slash_not_mem_of_mem_pieces (by rw [hpieces]; exact List.mem_cons_self)
  refine ⟨piece, others.flatMap (slash :: ·), hmore, ?_, hslash, ?_⟩
  · rintro rfl
    cases others with
    | nil => exact hne hmore
    | cons next others =>
      rw [hmore] at hhead
      exact hhead rfl
  · cases others with
    | nil => exact .inl rfl
    | cons next others => exact .inr rfl

/-- Of texts that only begin alike neither is below the other. -/
theorem RunsOn.not_under {path key : String} (h : RunsOn path key) :
    ¬ Under path key ∧ ¬ Under key path := by
  obtain ⟨front, name, more, rfl, rfl, hfront, hname, hne, hhead⟩ := h
  obtain ⟨base, hbase⟩ := exists_parts_last (Utf8.encode front)
    (hfront.imp_left fun hempty => by rw [hempty]; rfl)
  have hmore : Utf8.encode more ≠ [] := Utf8.encode_ne_nil hne
  obtain ⟨longer, rest, hsplit, hlonger, hslash, hrest⟩ := exists_name_of_not_slash hmore hhead
  -- the last name of the one text is the beginning of a longer name in the other
  have hlong : Name.Plain (Utf8.encode name ++ longer) := by
    refine ⟨by simp [hlonger], ?_, ?_⟩
    · intro hhere
      have hlength := congrArg List.length hhere
      have hpos := List.length_pos_iff.2 hname.1
      have hpos' := List.length_pos_iff.2 hlonger
      rw [List.length_append, here, List.length_singleton] at hlength
      omega
    · rw [List.mem_append, not_or]
      exact ⟨hname.2.2, hslash⟩
  have hnonempty : Utf8.encode front ++ (Utf8.encode name ++ longer) ≠ [] := by simp [hlonger]
  obtain ⟨extra, hextra⟩ := parts_prefix_append hnonempty hrest
  have hdiffers : Utf8.encode name ≠ Utf8.encode name ++ longer := by simpa using hlonger.symm
  rw [hbase _ hlong, List.append_assoc, List.singleton_append] at hextra
  have hkey : parts (Utf8.encode (front ++ name ++ more))
      = base ++ Part.name (Utf8.encode name ++ longer) :: extra := by
    rw [hextra, Utf8.encode_append, Utf8.encode_append, hsplit]
    simp only [List.append_assoc]
  rw [Under, Under, hkey, Utf8.encode_append, hbase _ hname, List.prefix_append_right_inj,
    List.prefix_append_right_inj, List.cons_prefix_cons, List.cons_prefix_cons]
  exact ⟨fun hway => hdiffers (Part.name.inj hway.1),
    fun hway => hdiffers (Part.name.inj hway.1).symm⟩

end Path

/-! ### Keeping keys -/

namespace Table

variable {α : Type}

theorem filterKeys_filterKeys (table : Table α) (keep keep' : String → Bool) :
    (table.filterKeys keep).filterKeys keep'
      = table.filterKeys fun key => keep key && keep' key := by
  simp only [filterKeys, List.filter_filter, Bool.and_comm]

end Table

namespace Cache

variable (cache : Cache)

theorem path?_invalidate_eq_some (path key : String) (observation : Observation) :
    (cache.invalidate path).path? key = some observation ↔
      cache.path? key = some observation ∧ ¬ Path.Under path key := by
  rw [path?_invalidate, ← Path.isUnder_iff]
  split <;> simp [*]

theorem listing?_invalidate_eq_some (path key : String) (listing : Listing) :
    (cache.invalidate path).listing? key = some listing ↔
      cache.listing? key = some listing ∧ ¬ Path.Under path key ∧ ¬ Path.Under key path := by
  rw [listing?_invalidate, ← not_or, ← Path.isUnder_iff, ← Path.isUnder_iff, ← Bool.or_eq_true]
  split <;> simp [*]

/-- Texts with the same parts are invalidated alike. -/
theorem invalidate_congr {path other : String}
    (h : Path.parts (Utf8.encode path) = Path.parts (Utf8.encode other)) :
    cache.invalidate path = cache.invalidate other := by
  have hunder (key : String) : Path.isUnder path key = Path.isUnder other key := by
    rw [Path.isUnder, Path.isUnder, h]
  have hunder' (key : String) : Path.isUnder key path = Path.isUnder key other := by
    rw [Path.isUnder, Path.isUnder, h]
  simp only [invalidate, hunder, hunder']

theorem invalidate_comm (path other : String) :
    (cache.invalidate path).invalidate other = (cache.invalidate other).invalidate path := by
  simp only [invalidate, Table.filterKeys_filterKeys, Bool.and_comm]

/-- What a path below would drop is dropped with what is above it: of two texts that the path is
    below, one is below the other. -/
theorem invalidate_below {top path : String} (h : Path.Under top path) :
    (cache.invalidate top).invalidate path = cache.invalidate top := by
  have hunder (key : String) (hkey : Path.isUnder path key = true) :
      Path.isUnder top key = true :=
    Path.isUnder_iff.2 (h.trans (Path.isUnder_iff.1 hkey))
  have hinline (key : String) (hkey : Path.isUnder key path = true) :
      Path.isUnder top key = true ∨ Path.isUnder key top = true :=
    (h.total (Path.isUnder_iff.1 hkey)).imp Path.isUnder_iff.2 Path.isUnder_iff.2
  have hpaths (key : String) :
      (!Path.isUnder top key && !Path.isUnder path key) = !Path.isUnder top key := by
    specialize hunder key
    revert hunder
    cases Path.isUnder top key <;> cases Path.isUnder path key <;> simp
  have hlistings (key : String) : ((!Path.isUnder top key && !Path.isUnder key top) &&
      (!Path.isUnder path key && !Path.isUnder key path))
        = (!Path.isUnder top key && !Path.isUnder key top) := by
    specialize hunder key
    specialize hinline key
    revert hunder hinline
    cases Path.isUnder top key <;> cases Path.isUnder path key <;>
      cases Path.isUnder key top <;> cases Path.isUnder key path <;> simp
  -- both sides keep keys by a test, and the tests agree on every key
  simp only [invalidate, Table.filterKeys_filterKeys, hpaths, hlistings]

/-- **Invalidating a path drops the observations at or below it and the listings at, below or above
    it, and nothing else.**  So what counts of the path is its parts; a text that only begins like
    it stays; paths can be invalidated in any order and again; and what is below a path that is
    invalidated need not be. -/
theorem invalidate_drops_exactly (path : String) :
    (∀ key observation, (cache.invalidate path).path? key = some observation ↔
      cache.path? key = some observation ∧
        ¬ Path.parts (Utf8.encode path) <+: Path.parts (Utf8.encode key)) ∧
    (∀ key listing, (cache.invalidate path).listing? key = some listing ↔
      cache.listing? key = some listing ∧
        ¬ Path.parts (Utf8.encode path) <+: Path.parts (Utf8.encode key) ∧
        ¬ Path.parts (Utf8.encode key) <+: Path.parts (Utf8.encode path)) ∧
    (∀ other, Path.parts (Utf8.encode path) = Path.parts (Utf8.encode other) →
      cache.invalidate path = cache.invalidate other) ∧
    (∀ key, Path.RunsOn path key → (cache.invalidate path).path? key = cache.path? key ∧
      (cache.invalidate path).listing? key = cache.listing? key) ∧
    (∀ other, (cache.invalidate path).invalidate other
      = (cache.invalidate other).invalidate path) ∧
    (cache.invalidate path).invalidate path = cache.invalidate path ∧
    (∀ top, Path.parts (Utf8.encode top) <+: Path.parts (Utf8.encode path) →
      (cache.invalidate top).invalidate path = cache.invalidate top ∧
      (cache.invalidate path).invalidate top = cache.invalidate top) := by
  refine ⟨cache.path?_invalidate_eq_some path, cache.listing?_invalidate_eq_some path,
    fun other => cache.invalidate_congr, ?_, cache.invalidate_comm path,
    cache.invalidate_below (.refl path), ?_⟩
  · intro key hkey
    obtain ⟨hunder, hunder'⟩ := hkey.not_under
    rw [← Path.isUnder_iff] at hunder hunder'
    rw [path?_invalidate, listing?_invalidate, if_neg hunder, if_neg (by simp [hunder, hunder'])]
    exact ⟨rfl, rfl⟩
  · intro top htop
    exact ⟨cache.invalidate_below htop,
      by rw [cache.invalidate_comm, cache.invalidate_below htop]⟩

end Cache

/-! ### A sibling whose name begins alike -/

/-- Observations of `/ws/out` and `/ws/outside`, and listings of `/ws` and `/ws/out/classes`. -/
def siblingCache : Cache :=
  ((((Cache.empty.putPath ⟨"/ws/out", .ofName false "out", true, .directory⟩).putPath
    ⟨"/ws/outside", .ofName false "outside", true, .directory⟩).putListing ⟨"/ws", []⟩).putListing
      ⟨"/ws/out/classes", []⟩)

theorem invalidate_drops_exactly_sibling :
    siblingCache.pathCount = 2 ∧ siblingCache.listingCount = 2 ∧
    siblingCache.invalidate ".//ws/out" = siblingCache ∧
    siblingCache.invalidate "//ws/./out/" = siblingCache.invalidate "/ws/out" ∧
    (siblingCache.invalidate "/ws/out").path? "/ws/out" = none ∧
    (siblingCache.invalidate "/ws/out").path? "/ws/outside" = siblingCache.path? "/ws/outside" ∧
    (siblingCache.invalidate "/ws/out").invalidate "/ws" = siblingCache.invalidate "/ws" := by
  obtain ⟨-, -, hspellings, hsiblings, -, -, habove⟩ :=
    siblingCache.invalidate_drops_exactly "/ws/out"
  have hruns : Path.RunsOn "/ws/out" "/ws/outside" :=
    ⟨"/ws/", "out", "side", rfl, rfl, .inr rfl, ⟨by decide, by decide, by decide⟩, by decide,
      by decide⟩
  exact ⟨rfl, rfl, rfl, (hspellings "//ws/./out/" (by decide)).symm, by decide,
    (hsiblings "/ws/outside" hruns).1, (habove "/ws" (by decide)).2⟩

end Treeprint
