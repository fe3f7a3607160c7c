/-!
# Tables keyed by text

A finite map from texts to values that remembers the order in which its keys came in.  Inserting
under a key that is there replaces the value and keeps the place.  Each key occurs once, which is
part of the type.
-/

namespace Treeprint

structure Table (α : Type) where
  items : List (String × α)
  nodup : (items.map Prod.fst).Nodup

namespace Table

variable {α : Type}

def empty : Table α := ⟨[], List.nodup_nil⟩

instance : Inhabited (Table α) := ⟨empty⟩

instance : EmptyCollection (Table α) := ⟨empty⟩

def keys (table : Table α) : List String := table.items.map Prod.fst

def size (table : Table α) : Nat := table.items.length

def isEmpty (table : Table α) : Bool := table.size = 0

def get? (table : Table α) (key : String) : Option α :=
  (table.items.find? (fun item => item.1 = key)).map Prod.snd

def contains (table : Table α) (key : String) : Bool := (table.get? key).isSome

private theorem keys_replace (items : List (String × α)) (key : String) (value : α) :
    (items.map (fun item => if item.1 = key then (key, value) else item)).map Prod.fst
      = items.map Prod.fst := by
  rw [List.map_map]
  apply List.map_congr_left
  intro item _
  by_cases h : item.1 = key <;> simp [h]

/-- Put a value under a key; a value that was there before is given up. -/
def insert (table : Table α) (key : String) (value : α) : Table α :=
  if h : key ∈ table.keys then
    ⟨table.items.map (fun item => if item.1 = key then (key, value) else item), by
      rw [keys_replace]; exact table.nodup⟩
  else
    ⟨table.items ++ [(key, value)], by
      rw [List.map_append, List.nodup_append]
      refine ⟨table.nodup, by simp, ?_⟩
      intro x hx y hy hxy
      simp only [List.map_cons, List.map_nil, List.mem_singleton] at hy
      exact h (hy ▸ hxy ▸ hx)⟩

/-- Keep the values whose keys pass a test. -/
def filterKeys (table : Table α) (keep : String → Bool) : Table α :=
  ⟨table.items.filter (fun item => keep item.1),
    (List.Sublist.map Prod.fst List.filter_sublist).nodup table.nodup⟩

def erase (table : Table α) (key : String) : Table α := table.filterKeys (fun other => other ≠ key)

end Table

end Treeprint
