import Treeprint.Path

/-!
# Directories as forests

The entries of a directory form a forest: a list of leaves and directories, each directory holding a
forest of its own.  In a well-formed forest the names are those a disk allows and stand in
increasing order of their bytes, so that each name occurs once and listing a directory in order is
reading the forest from the front.

The forest is one plain inductive type, so that walking it is structural recursion.
-/

namespace Treeprint

inductive Device
  | block
  | character
  /-- Of neither sort. -/
  | other
  deriving DecidableEq, Repr

/-- What is not a directory. -/
inductive Leaf
  /-- A regular file, with its modification time in nanoseconds since the epoch. -/
  | file (data : Bytes) (modified : Int)
  | link (target : Bytes)
  | fifo
  | socket
  /-- A device, with the bytes that a reader gets from it. -/
  | device (sort : Device) (data : Bytes)
  deriving DecidableEq, Repr

/-- How an object that is no regular file is described. -/
def Leaf.description : Leaf → String
  | file .. => "file"
  | link _ => "symlink"
  | fifo => "fifo"
  | socket => "socket"
  | device .block _ => "block device"
  | device .character _ => "char device"
  | device .other _ => "other"

inductive Forest
  | nil
  | leaf (name : Name) (leaf : Leaf) (rest : Forest)
  | directory (name : Name) (inside rest : Forest)
  deriving DecidableEq, Repr

inductive Node
  | leaf (leaf : Leaf)
  | directory (inside : Forest)
  deriving DecidableEq, Repr

/-- The names that an entry can have. -/
def Name.Valid (name : Name) : Prop :=
  name ≠ [] ∧ name ≠ Path.here ∧ name ≠ Path.above ∧ Path.slash ∉ name ∧ (0 : UInt8) ∉ name
    ∧ name.length ≤ 255

instance (name : Name) : Decidable name.Valid := by unfold Name.Valid; infer_instance

namespace Forest

/-- The names of the entries, from the front. -/
def names : Forest → List Name
  | nil => []
  | leaf name _ rest => name :: rest.names
  | directory name _ rest => name :: rest.names

/-- Valid names in increasing order, here and in every directory below. -/
def WellFormed : Forest → Prop
  | nil => True
  | leaf name _ rest => name.Valid ∧ (∀ other ∈ rest.names, name < other) ∧ rest.WellFormed
  | directory name inside rest =>
    name.Valid ∧ (∀ other ∈ rest.names, name < other) ∧ inside.WellFormed ∧ rest.WellFormed

def cons (name : Name) : Node → Forest → Forest
  | .leaf value, rest => leaf name value rest
  | .directory inside, rest => directory name inside rest

/-- What a name stands for in this directory. -/
def find? (name : Name) : Forest → Option Node
  | nil => none
  | leaf other value rest => if name = other then some (.leaf value) else rest.find? name
  | directory other inside rest =>
    if name = other then some (.directory inside) else rest.find? name

/-- What stands at the end of a list of names. -/
def descend? (forest : Forest) : List Name → Option Node
  | [] => some (.directory forest)
  | name :: names =>
    match forest.find? name with
    | some (.directory inside) => inside.descend? names
    | some (.leaf value) => if names = [] then some (.leaf value) else none
    | none => none

/-- The directory at the end of a list of names. -/
def directory? (forest : Forest) (names : List Name) : Option Forest :=
  match forest.descend? names with
  | some (.directory inside) => some inside
  | _ => none

/-! ### Changing a forest -/

/-- Put an entry in its place, in exchange for one of the same name. -/
def put (name : Name) (node : Node) : Forest → Forest
  | nil => cons name node nil
  | leaf other value rest =>
    if name < other then cons name node (leaf other value rest)
    else if name = other then cons name node rest
    else leaf other value (rest.put name node)
  | directory other inside rest =>
    if name < other then cons name node (directory other inside rest)
    else if name = other then cons name node rest
    else directory other inside (rest.put name node)

def remove (name : Name) : Forest → Forest
  | nil => nil
  | leaf other value rest => if name = other then rest else leaf other value (rest.remove name)
  | directory other inside rest =>
    if name = other then rest else directory other inside (rest.remove name)

/-- Change the inside of the directory of one name. -/
def within (name : Name) (change : Forest → Forest) : Forest → Forest
  | nil => nil
  | leaf other value rest => leaf other value (rest.within name change)
  | directory other inside rest =>
    if name = other then directory other (change inside) rest
    else directory other inside (rest.within name change)

/-- Change the directory at the end of a list of names. -/
def changeAt (change : Forest → Forest) : List Name → Forest → Forest
  | [], forest => change forest
  | name :: names, forest => forest.within name (changeAt change names)

/-! ### Changes keep a forest well formed -/

theorem name_lt_of_not_lt {x y : Name} (hlt : ¬ x < y) (hne : x ≠ y) : y < x := by
  have hle : y ≤ x := List.not_lt.1 hlt
  rcases Decidable.em (y < x) with h | h
  · exact h
  · exact absurd (List.le_antisymm (List.not_lt.1 h) hle) hne

theorem names_cons (name : Name) (node : Node) (rest : Forest) :
    (cons name node rest).names = name :: rest.names := by
  cases node <;> rfl

theorem wellFormed_cons {name : Name} {node : Node} {rest : Forest} (hname : name.Valid)
    (hnode : ∀ inside, node = .directory inside → inside.WellFormed)
    (hfirst : ∀ other ∈ rest.names, name < other) (hrest : rest.WellFormed) :
    (cons name node rest).WellFormed := by
  cases node with
  | leaf value => exact ⟨hname, hfirst, hrest⟩
  | directory inside => exact ⟨hname, hfirst, hnode inside rfl, hrest⟩

theorem mem_names_put {name other : Name} {node : Node} {forest : Forest}
    (h : other ∈ (forest.put name node).names) : other = name ∨ other ∈ forest.names := by
  induction forest with
  | nil => simpa [put, names_cons, names] using h
  | leaf first value rest ih =>
    unfold put at h
    split at h
    · simpa [names_cons] using h
    · split at h
      · rw [names_cons] at h
        rcases List.mem_cons.1 h with h | h
        · exact .inl h
        · exact .inr (List.mem_cons_of_mem _ h)
      · rcases List.mem_cons.1 h with h | h
        · exact .inr (h ▸ List.mem_cons_self)
        · exact (ih h).imp id (List.mem_cons_of_mem _)
  | directory first inside rest _ ih =>
    unfold put at h
    split at h
    · simpa [names_cons] using h
    · split at h
      · rw [names_cons] at h
        rcases List.mem_cons.1 h with h | h
        · exact .inl h
        · exact .inr (List.mem_cons_of_mem _ h)
      · rcases List.mem_cons.1 h with h | h
        · exact .inr (h ▸ List.mem_cons_self)
        · exact (ih h).imp id (List.mem_cons_of_mem _)

theorem wellFormed_put {name : Name} {node : Node} {forest : Forest} (hname : name.Valid)
    (hnode : ∀ inside, node = .directory inside → inside.WellFormed) (h : forest.WellFormed) :
    (forest.put name node).WellFormed := by
  induction forest with
  | nil => exact wellFormed_cons hname hnode (by simp [names]) trivial
  | leaf first value rest ih =>
    obtain ⟨hfirst, hless, hrest⟩ := h
    unfold put
    split
    · rename_i hlt
      refine wellFormed_cons hname hnode ?_ ⟨hfirst, hless, hrest⟩
      intro other hother
      rcases List.mem_cons.1 hother with rfl | hother
      · exact hlt
      · exact List.lt_trans hlt (hless other hother)
    · split
      · rename_i heq
        exact wellFormed_cons hname hnode (heq ▸ hless) hrest
      · rename_i hlt hne
        refine ⟨hfirst, ?_, ih hrest⟩
        intro other hother
        rcases mem_names_put hother with rfl | hother
        · exact name_lt_of_not_lt hlt hne
        · exact hless other hother
  | directory first inside rest _ ih =>
    obtain ⟨hfirst, hless, hinside, hrest⟩ := h
    unfold put
    split
    · rename_i hlt
      refine wellFormed_cons hname hnode ?_ ⟨hfirst, hless, hinside, hrest⟩
      intro other hother
      rcases List.mem_cons.1 hother with rfl | hother
      · exact hlt
      · exact List.lt_trans hlt (hless other hother)
    · split
      · rename_i heq
        exact wellFormed_cons hname hnode (heq ▸ hless) hrest
      · rename_i hlt hne
        refine ⟨hfirst, ?_, hinside, ih hrest⟩
        intro other hother
        rcases mem_names_put hother with rfl | hother
        · exact name_lt_of_not_lt hlt hne
        · exact hless other hother

theorem mem_names_remove {name other : Name} {forest : Forest}
    (h : other ∈ (forest.remove name).names) : other ∈ forest.names := by
  induction forest with
  | nil => simp [remove, names] at h
  | leaf first value rest ih =>
    unfold remove at h
    split at h
    · exact List.mem_cons_of_mem _ h
    · exact (List.mem_cons.1 h).elim (· ▸ List.mem_cons_self) (List.mem_cons_of_mem _ ∘ ih)
  | directory first inside rest _ ih =>
    unfold remove at h
    split at h
    · exact List.mem_cons_of_mem _ h
    · exact (List.mem_cons.1 h).elim (· ▸ List.mem_cons_self) (List.mem_cons_of_mem _ ∘ ih)

theorem wellFormed_remove {name : Name} {forest : Forest} (h : forest.WellFormed) :
    (forest.remove name).WellFormed := by
  induction forest with
  | nil => trivial
  | leaf first value rest ih =>
    unfold remove
    split
    · exact h.2.2
    · exact ⟨h.1, fun other hother => h.2.1 other (mem_names_remove hother), ih h.2.2⟩
  | directory first inside rest _ ih =>
    unfold remove
    split
    · exact h.2.2.2
    · exact ⟨h.1, fun other hother => h.2.1 other (mem_names_remove hother), h.2.2.1, ih h.2.2.2⟩

theorem names_within (name : Name) (change : Forest → Forest) (forest : Forest) :
    (forest.within name change).names = forest.names := by
  induction forest with
  | nil => rfl
  | leaf first value rest ih => simp [within, names, ih]
  | directory first inside rest _ ih =>
    unfold within
    split
    · rfl
    · simp [names, ih]

theorem wellFormed_within {name : Name} {change : Forest → Forest} {forest : Forest}
    (hchange : ∀ inside : Forest, inside.WellFormed → (change inside).WellFormed)
    (h : forest.WellFormed) : (forest.within name change).WellFormed := by
  induction forest with
  | nil => trivial
  | leaf first value rest ih =>
    exact ⟨h.1, fun other hother => h.2.1 other (names_within name change rest ▸ hother), ih h.2.2⟩
  | directory first inside rest _ ih =>
    unfold within
    split
    · exact ⟨h.1, h.2.1, hchange inside h.2.2.1, h.2.2.2⟩
    · exact ⟨h.1, fun other hother => h.2.1 other (names_within name change rest ▸ hother),
        h.2.2.1, ih h.2.2.2⟩

theorem wellFormed_changeAt {change : Forest → Forest}
    (hchange : ∀ inside : Forest, inside.WellFormed → (change inside).WellFormed)
    (names : List Name) {forest : Forest} (h : forest.WellFormed) :
    (changeAt change names forest).WellFormed := by
  induction names generalizing forest with
  | nil => exact hchange forest h
  | cons name names ih => exact wellFormed_within (fun _ hinside => ih hinside) h

end Forest

end Treeprint
