import Treeprint.Cache

/-!
# What is stored where

Each operation of a table and of a cache, told by what is found afterwards under each key.
-/

namespace Treeprint

namespace Table

variable {α : Type}

theorem get?_filterKeys (table : Table α) (keep : String → Bool) (key : String) :
    (table.filterKeys keep).get? key = if keep key then table.get? key else none := by
  simp only [get?, filterKeys, List.find?_filter]
  by_cases h : keep key
  · rw [if_pos h]
    congr 2
    funext item
    by_cases hitem : item.1 = key
    · simp [hitem, h]
    · simp [hitem]
  · rw [if_neg h, List.find?_eq_none.2, Option.map_none]
    rintro item - hitem
    simp only [decide_eq_true_eq, Bool.decide_and, Bool.and_eq_true] at hitem
    exact h (hitem.2 ▸ hitem.1)

theorem get?_erase (table : Table α) (key other : String) :
    (table.erase key).get? other = if other = key then none else table.get? other := by
  rw [erase, get?_filterKeys]
  by_cases h : other = key <;> simp [h]

theorem get?_eq_none_iff (table : Table α) (key : String) :
    table.get? key = none ↔ key ∉ table.keys := by
  rw [get?, Option.map_eq_none_iff, List.find?_eq_none, keys, List.mem_map]
  constructor
  · rintro h ⟨item, hitem, rfl⟩
    exact h item hitem (by simp)
  · intro h item hitem heq
    exact h ⟨item, hitem, by simpa using heq⟩

theorem exists_get?_iff {table : Table α} {key : String} :
    (∃ value, table.get? key = some value) ↔ key ∈ table.keys := by
  rw [← Option.ne_none_iff_exists', ne_eq, get?_eq_none_iff, Decidable.not_not]

private theorem find?_replace (items : List (String × α)) (key other : String) (value : α) :
    (items.map (fun item => if item.1 = key then (key, value) else item)).find?
        (fun item => item.1 = other)
      = (items.find? (fun item => item.1 = other)).map
          (fun item => if item.1 = key then (key, value) else item) := by
  rw [List.find?_map]
  congr 2
  funext item
  by_cases h : item.1 = key <;> simp [h]

theorem get?_insert (table : Table α) (key other : String) (value : α) :
    (table.insert key value).get? other = if other = key then some value else table.get? other := by
  unfold insert
  split
  · -- the key is there: its value is replaced
    rename_i hmem
    simp only [get?, find?_replace]
    by_cases h : other = key
    · subst h
      have hsome : table.get? other ≠ none := by
        intro hnone
        exact (get?_eq_none_iff table other).1 hnone hmem
      rcases hfind : table.items.find? (fun item => item.1 = other) with _ | item
      · exact absurd (by rw [get?, hfind]; rfl) hsome
      · have hitem : item.1 = other := by simpa using List.find?_some hfind
        rw [hfind]
        simp [hitem]
    · rw [if_neg h]
      rcases hfind : table.items.find? (fun item => item.1 = other) with _ | item
      · rw [hfind]
        rfl
      · have hitem : item.1 = other := by simpa using List.find?_some hfind
        rw [hfind]
        simp [hitem, h]
  · -- the key is new and comes last
    rename_i hmem
    simp only [get?, List.find?_append]
    by_cases h : other = key
    · subst h
      have hnone := (get?_eq_none_iff table other).2 hmem
      rw [get?, Option.map_eq_none_iff] at hnone
      simp [hnone]
    · simp [h, Ne.symm h]

end Table

namespace Cache

variable (cache : Cache)

@[simp] theorem path?_empty (key : String) : empty.path? key = none := rfl

@[simp] theorem listing?_empty (key : String) : empty.listing? key = none := rfl

theorem path?_putPath (observation : Observation) (key : String) :
    (cache.putPath observation).path? key
      = if key = observation.path then some observation else cache.path? key :=
  Table.get?_insert ..

@[simp] theorem listing?_putPath (observation : Observation) (key : String) :
    (cache.putPath observation).listing? key = cache.listing? key := rfl

@[simp] theorem path?_putListing (listing : Listing) (key : String) :
    (cache.putListing listing).path? key = cache.path? key := rfl

theorem listing?_putListing (listing : Listing) (key : String) :
    (cache.putListing listing).listing? key
      = if key = listing.path then some listing else cache.listing? key :=
  Table.get?_insert ..

theorem path?_removePath (path key : String) :
    (cache.removePath path).2.path? key = if key = path then none else cache.path? key :=
  Table.get?_erase ..

@[simp] theorem listing?_removePath (path key : String) :
    (cache.removePath path).2.listing? key = cache.listing? key := rfl

@[simp] theorem path?_removeListing (path key : String) :
    (cache.removeListing path).2.path? key = cache.path? key := rfl

theorem listing?_removeListing (path key : String) :
    (cache.removeListing path).2.listing? key = if key = path then none else cache.listing? key :=
  Table.get?_erase ..

theorem path?_invalidate (path key : String) :
    (cache.invalidate path).path? key
      = if Path.isUnder path key then none else cache.path? key := by
  simp only [path?, invalidate, Table.get?_filterKeys]
  cases Path.isUnder path key <;> rfl

theorem listing?_invalidate (path key : String) :
    (cache.invalidate path).listing? key
      = if Path.isUnder path key || Path.isUnder key path then none else cache.listing? key := by
  simp only [listing?, invalidate, Table.get?_filterKeys]
  cases Path.isUnder path key <;> cases Path.isUnder key path <;> rfl

end Cache

end Treeprint
