import Mathlib.Data.List.Basic
import Mathlib.Data.List.Induction
import Mathlib.Tactic.Tauto
import Treeprint.Proofs.Eviction

/-!
# What a cache holds after any history

A cache is changed in six ways (`Cache.Change`).  What it holds after a history of changes can be
read off the history: under a key it has what was put there last, unless that came to an end later
(`Cache.Change.EndsPath`, `Cache.Change.EndsListing`).  `Live` is that reading, and the main
statement, `holds_what_is_live`, has the look-ups, the answers of removals, the counts and the
independence of the two tables in its terms.

The observations and the listings are two instances of one argument, `Slot`: what one change does to
what is found under one key.  The induction over histories is made once, for a slot, and takes the
changes from the last one back.
-/

namespace Treeprint

namespace Cache

/-- One change of a cache. -/
inductive Change
  | putPath (observation : Observation)
  | putListing (listing : Listing)
  | removePath (path : String)
  | removeListing (path : String)
  | invalidate (path : String)
  | clear

namespace Change

/-- The cache after one change. -/
def on (cache : Cache) : Change → Cache
  | putPath observation => cache.putPath observation
  | putListing listing => cache.putListing listing
  | removePath path => (cache.removePath path).2
  | removeListing path => (cache.removeListing path).2
  | invalidate path => cache.invalidate path
  | clear => .empty

/-- The change ends what was observed at `key` before. -/
def EndsPath (key : String) : Change → Prop
  | putPath observation => observation.path = key
  | removePath path => path = key
  | invalidate path => Path.Under path key
  | clear => True
  | putListing _ | removeListing _ => False

/-- The change ends what was listed at `key` before. -/
def EndsListing (key : String) : Change → Prop
  | putListing listing => listing.path = key
  | removeListing path => path = key
  | invalidate path => Path.Under path key ∨ Path.Under key path
  | clear => True
  | putPath _ | removePath _ => False

/-- The change is one of observations. -/
def isOfPaths : Change → Bool
  | putListing _ | removeListing _ => false
  | _ => true

/-- The change is one of listings. -/
def isOfListings : Change → Bool
  | putPath _ | removePath _ => false
  | _ => true

end Change

/-- The cache after a history, oldest change first. -/
def after (history : List Change) : Cache := history.foldl Change.on .empty

theorem after_concat (history : List Change) (change : Change) :
    after (history ++ [change]) = change.on (after history) := by
  rw [after, List.foldl_concat]
  rfl

/-! ### Reading a history -/

/-- The change `put` is in the history, and nothing after it ends it. -/
def Live (ends : Change → Prop) (put : Change) (history : List Change) : Prop :=
  ∃ before later, history = before ++ put :: later ∧ ∀ change ∈ later, ¬ ends change

theorem not_live_nil {ends : Change → Prop} {put : Change} : ¬ Live ends put [] := by
  rintro ⟨before, later, h, -⟩
  simp at h

theorem live_concat_iff {ends : Change → Prop} {put change : Change} {history : List Change} :
    Live ends put (history ++ [change]) ↔
      change = put ∨ (¬ ends change ∧ Live ends put history) := by
  constructor
  · rintro ⟨before, later, h, hlater⟩
    -- either the last change is the put itself, or it is the last of those that do not end it
    rcases List.eq_nil_or_concat later with rfl | ⟨later, last, rfl⟩
    · exact .inl (List.singleton_inj.1 (List.append_inj' h rfl).2)
    · have hends : history ++ [change] = (before ++ put :: later) ++ [last] := by simpa using h
      obtain ⟨rfl, hlast⟩ := List.append_inj' hends rfl
      cases hlast
      exact .inr ⟨hlater change (by simp),
        before, later, rfl, fun other hother => hlater other (by simp [hother])⟩
  · rintro (rfl | ⟨hends, before, later, rfl, hlater⟩)
    · exact ⟨history, [], rfl, by simp⟩
    · refine ⟨before, later ++ [change], by simp, ?_⟩
      intro other hother
      rcases List.mem_append.1 hother with hother | hother
      · exact hlater other hother
      · rwa [List.mem_singleton.1 hother]

/-- What is found at one place of a cache, told by what one change does to it: the change puts it
    there, or it was there and the change does not end it. -/
structure Slot {α : Type} (read : Cache → Option α) (own : α → Prop) (put : α → Change)
    (ends : Change → Prop) : Prop where
  empty : read .empty = none
  step (cache : Cache) (change : Change) (value : α) :
    read (change.on cache) = some value ↔
      (own value ∧ change = put value) ∨ (¬ ends change ∧ read cache = some value)

/-- After a history there is what was put there and lives. -/
theorem Slot.read_after_iff {α : Type} {read : Cache → Option α} {own : α → Prop}
    {put : α → Change} {ends : Change → Prop} (h : Slot read own put ends)
    (history : List Change) (value : α) :
    read (after history) = some value ↔ own value ∧ Live ends (put value) history := by
  induction history using List.reverseRecOn with
  | nil =>
    rw [after, List.foldl_nil, h.empty]
    simp [not_live_nil]
  | append_singleton history change ih =>
    rw [after_concat, h.step, ih, live_concat_iff]
    tauto

/-! ### The two tables -/

/-- What is found under a key once a value was put under its own key. -/
theorem found_put_iff {α : Type} {own : α → String} {key : String} {new value : α}
    {found : Option α} :
    (if key = own new then some new else found) = some value ↔
      (own value = key ∧ new = value) ∨ (¬ own new = key ∧ found = some value) := by
  by_cases hkey : own new = key
  · rw [if_pos hkey.symm, Option.some.injEq]
    constructor
    · rintro rfl
      exact .inl ⟨hkey, rfl⟩
    · rintro (⟨-, rfl⟩ | ⟨hends, -⟩)
      · rfl
      · exact absurd hkey hends
  · rw [if_neg (Ne.symm hkey)]
    constructor
    · exact fun h => .inr ⟨hkey, h⟩
    · rintro (⟨hown, rfl⟩ | ⟨-, h⟩)
      · exact absurd hown hkey
      · exact h

variable (history : List Change) (key : String)

theorem pathSlot : Slot (·.path? key) (·.path = key) .putPath (Change.EndsPath key) where
  empty := rfl
  step := by
    intro cache change value
    cases change with
    | putPath observation =>
      simp only [Change.on, path?_putPath, Change.EndsPath, Change.putPath.injEq, found_put_iff]
    | removePath path =>
      simp [Change.on, Change.EndsPath, path?_removePath, eq_comm]
    | invalidate path =>
      simp [Change.on, Change.EndsPath, path?_invalidate_eq_some, and_comm]
    | _ => simp [Change.on, Change.EndsPath]

theorem listingSlot :
    Slot (·.listing? key) (·.path = key) .putListing (Change.EndsListing key) where
  empty := rfl
  step := by
    intro cache change value
    cases change with
    | putListing listing =>
      simp only [Change.on, listing?_putListing, Change.EndsListing, Change.putListing.injEq,
        found_put_iff]
    | removeListing path =>
      simp [Change.on, Change.EndsListing, listing?_removeListing, eq_comm]
    | invalidate path =>
      simp [Change.on, Change.EndsListing, listing?_invalidate_eq_some, and_comm]
    | _ => simp [Change.on, Change.EndsListing]

/-- An observation lives at the key. -/
def PathLive (observation : Observation) : Prop :=
  observation.path = key ∧ Live (Change.EndsPath key) (.putPath observation) history

/-- A listing lives at the key. -/
def ListingLive (listing : Listing) : Prop :=
  listing.path = key ∧ Live (Change.EndsListing key) (.putListing listing) history

theorem path?_after (observation : Observation) :
    (after history).path? key = some observation ↔ PathLive history key observation :=
  (pathSlot key).read_after_iff history observation

theorem listing?_after (listing : Listing) :
    (after history).listing? key = some listing ↔ ListingLive history key listing :=
  (listingSlot key).read_after_iff history listing

/-! ### What is apart -/

/-- Changes that leave a part of the cache alone, and work on it by itself, can be left out. -/
theorem part_after_filter {β : Type} {part : Cache → β} {isOf : Change → Bool}
    (hskip : ∀ (cache : Cache) (change : Change), isOf change = false →
      part (change.on cache) = part cache)
    (hsame : ∀ (cache cache' : Cache) (change : Change), part cache = part cache' →
      part (change.on cache) = part (change.on cache')) :
    part (after history) = part (after (history.filter isOf)) := by
  induction history using List.reverseRecOn with
  | nil => rfl
  | append_singleton history change ih =>
    rw [List.filter_append, after_concat]
    cases hof : isOf change with
    | true => rw [List.filter_singleton, hof, cond_true, after_concat, hsame _ _ change ih]
    | false => rw [List.filter_singleton, hof, cond_false, List.append_nil, hskip _ _ hof, ih]

theorem paths_after_filter :
    (after history).paths = (after (history.filter Change.isOfPaths)).paths := by
  refine part_after_filter history ?_ ?_
  · intro cache change hof
    cases change with
    | putListing _ | removeListing _ => rfl
    | _ => cases hof
  · intro cache cache' change h
    cases change <;> simp [Change.on, putPath, putListing, removePath, removeListing, invalidate, h]

theorem listings_after_filter :
    (after history).listings = (after (history.filter Change.isOfListings)).listings := by
  refine part_after_filter history ?_ ?_
  · intro cache change hof
    cases change with
    | putPath _ | removePath _ => rfl
    | _ => cases hof
  · intro cache cache' change h
    cases change <;> simp [Change.on, putPath, putListing, removePath, removeListing, invalidate, h]

end Cache

/-- The keys of a table, without repetition, are those that something is found under. -/
theorem Table.exists_keys {α : Type} (table : Table α) :
    ∃ keys : List String, keys.Nodup ∧ (∀ key, key ∈ keys ↔ ∃ value, table.get? key = some value) ∧
      table.size = keys.length :=
  ⟨table.keys, table.nodup, fun _ => exists_get?_iff.symm, (List.length_map _).symm⟩

namespace Cache

/-- **After any history a cache holds what was put last and has not come to an end.** -/
theorem holds_what_is_live (history : List Change) :
    (∀ key observation, (after history).path? key = some observation ↔
      PathLive history key observation) ∧
    (∀ key listing, (after history).listing? key = some listing ↔
      ListingLive history key listing) ∧
    (∀ key, ((after history).removePath key).1 = true ↔
      ∃ observation, PathLive history key observation) ∧
    (∀ key, ((after history).removeListing key).1 = true ↔
      ∃ listing, ListingLive history key listing) ∧
    (after history).paths = (after (history.filter Change.isOfPaths)).paths ∧
    (after history).listings = (after (history.filter Change.isOfListings)).listings ∧
    (∃ keys : List String, keys.Nodup ∧
      (∀ key, key ∈ keys ↔ ∃ observation, PathLive history key observation) ∧
      (after history).pathCount = keys.length) ∧
    (∃ keys : List String, keys.Nodup ∧
      (∀ key, key ∈ keys ↔ ∃ listing, ListingLive history key listing) ∧
      (after history).listingCount = keys.length) ∧
    ((after history).isEmpty = true ↔
      (after history).pathCount = 0 ∧ (after history).listingCount = 0) := by
  have hpath (key : String) : (∃ observation, (after history).paths.get? key = some observation) ↔
      ∃ observation, PathLive history key observation :=
    exists_congr (path?_after history key)
  have hlisting (key : String) : (∃ listing, (after history).listings.get? key = some listing) ↔
      ∃ listing, ListingLive history key listing :=
    exists_congr (listing?_after history key)
  refine ⟨path?_after history, listing?_after history, ?_, ?_, paths_after_filter history,
    listings_after_filter history, ?_, ?_, by simp [isEmpty]⟩
  · intro key
    rw [← hpath, removePath, Table.contains, Option.isSome_iff_exists]
  · intro key
    rw [← hlisting, removeListing, Table.contains, Option.isSome_iff_exists]
  · obtain ⟨keys, hnodup, hmem, hsize⟩ := (after history).paths.exists_keys
    exact ⟨keys, hnodup, fun key => (hmem key).trans (hpath key), hsize⟩
  · obtain ⟨keys, hnodup, hmem, hsize⟩ := (after history).listings.exists_keys
    exact ⟨keys, hnodup, fun key => (hmem key).trans (hlisting key), hsize⟩

end Cache

end Treeprint
