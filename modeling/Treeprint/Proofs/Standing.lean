import Mathlib.Tactic.ByContra
import Treeprint.Disk.Basic

/-!
# What stands where

A forest can be asked what stands at a location: a directory, a leaf, or nothing.  That is less than
it says by `Forest.descend?`, since the inside of a directory is left out, and yet it is all there
is: **two well-formed forests with the same things standing at all locations are equal**
(`Forest.ext_shape?`).  So a change of a disk can be described by the locations where something
else stands afterwards.

`Forest.Linkless` says that no symbolic link stands anywhere.
-/

namespace Treeprint

/-- What stands at a location, without what a directory there holds. -/
inductive Shape
  | directory
  | leaf (leaf : Leaf)
  deriving DecidableEq, Repr

def Node.shape : Node → Shape
  | .directory _ => .directory
  | .leaf value => .leaf value

namespace Forest

/-- What stands at a location. -/
def shape? (forest : Forest) (location : List Name) : Option Shape :=
  (forest.descend? location).map Node.shape

/-! ### Finding and descending -/

theorem exists_cons (forest : Forest) :
    forest = nil ∨ ∃ name node rest, forest = cons name node rest := by
  cases forest with
  | nil => exact .inl rfl
  | leaf name value rest => exact .inr ⟨name, .leaf value, rest, rfl⟩
  | directory name inside rest => exact .inr ⟨name, .directory inside, rest, rfl⟩

/-- Induction on the entries of a forest, whatever they are. -/
@[elab_as_elim]
theorem cons_induction {motive : Forest → Prop} (forest : Forest) (nil : motive nil)
    (cons : ∀ name node rest, motive rest → motive (cons name node rest)) : motive forest := by
  induction forest with
  | nil => exact nil
  | leaf name value rest ih => exact cons name (.leaf value) rest ih
  | directory name inside rest _ ih => exact cons name (.directory inside) rest ih

theorem find?_cons (name : Name) (node : Node) (rest : Forest) (other : Name) :
    (cons name node rest).find? other = if other = name then some node else rest.find? other := by
  cases node <;> rfl

theorem wellFormed_cons_iff {name : Name} {node : Node} {rest : Forest} :
    (cons name node rest).WellFormed ↔ name.Valid ∧ (∀ other ∈ rest.names, name < other) ∧
      (∀ inside, node = .directory inside → inside.WellFormed) ∧ rest.WellFormed := by
  cases node with
  | leaf value => simp [cons, WellFormed]
  | directory inside => simp [cons, WellFormed]

theorem find?_eq_none_iff {forest : Forest} {name : Name} :
    forest.find? name = none ↔ name ∉ forest.names := by
  induction forest using cons_induction with
  | nil => simp [find?, names]
  | cons first node rest ih =>
    rw [find?_cons, names_cons, List.mem_cons, not_or, ← ih]
    by_cases h : name = first <;> simp [h]

/-- What is found stands first in some end of the forest. -/
theorem exists_of_find? {property : Forest → Prop}
    (hrest : ∀ {name node rest}, property (cons name node rest) → property rest) {forest : Forest}
    (h : property forest) {name : Name} {node : Node} (hfind : forest.find? name = some node) :
    ∃ rest, property (cons name node rest) := by
  induction forest using cons_induction with
  | nil => cases hfind
  | cons first value rest ih =>
    rw [find?_cons] at hfind
    split at hfind
    · rename_i heq
      cases hfind
      exact ⟨rest, heq ▸ h⟩
    · exact ih (hrest h) hfind

/-- What is found in a well-formed forest has a valid name, and a directory is well formed. -/
theorem WellFormed.find? {forest : Forest} (h : forest.WellFormed) {name : Name} {node : Node}
    (hfind : forest.find? name = some node) :
    name.Valid ∧ ∀ inside, node = .directory inside → inside.WellFormed := by
  obtain ⟨rest, hcons⟩ := exists_of_find? (fun h => (wellFormed_cons_iff.1 h).2.2.2) h hfind
  obtain ⟨hname, -, hinside, -⟩ := wellFormed_cons_iff.1 hcons
  exact ⟨hname, hinside⟩

theorem descend?_cons (forest : Forest) (name : Name) (names : List Name) :
    forest.descend? (name :: names) = match forest.find? name with
      | some (.directory inside) => inside.descend? names
      | some (.leaf value) => if names = [] then some (.leaf value) else none
      | none => none := by
  rcases hfind : forest.find? name with _ | ⟨value⟩ | ⟨inside⟩ <;> simp only [descend?, hfind]

theorem descend?_append (forest : Forest) (front back : List Name) :
    forest.descend? (front ++ back) = match forest.descend? front with
      | some (.directory inside) => inside.descend? back
      | some (.leaf value) => if back = [] then some (.leaf value) else none
      | none => none := by
  induction front generalizing forest with
  | nil => rfl
  | cons name front ih =>
    rw [List.cons_append, descend?_cons, descend?_cons]
    rcases forest.find? name with _ | ⟨value⟩ | ⟨inside⟩
    · rfl
    · cases front with
      | nil => simp
      | cons other front => simp
    · exact ih inside

theorem WellFormed.descend? {forest : Forest} (h : forest.WellFormed) {location : List Name}
    {node : Node} (hnode : forest.descend? location = some node) :
    (∀ name ∈ location, name.Valid) ∧ ∀ inside, node = .directory inside → inside.WellFormed := by
  induction location generalizing forest with
  | nil =>
    cases hnode
    refine ⟨by simp, ?_⟩
    intro inside hinside
    cases hinside
    exact h
  | cons name names ih =>
    rw [descend?_cons] at hnode
    rcases hfind : forest.find? name with _ | ⟨value⟩ | ⟨inside⟩
    · rw [hfind] at hnode
      cases hnode
    · rw [hfind] at hnode
      simp only [Option.ite_none_right_eq_some, Option.some.injEq] at hnode
      obtain ⟨rfl, rfl⟩ := hnode
      refine ⟨by simpa using (h.find? hfind).1, ?_⟩
      intro inside hinside
      cases hinside
    · rw [hfind] at hnode
      obtain ⟨hnames, hinside⟩ := ih ((h.find? hfind).2 inside rfl) hnode
      refine ⟨?_, hinside⟩
      intro other hother
      rcases List.mem_cons.1 hother with rfl | hother
      · exact (h.find? hfind).1
      · exact hnames other hother

/-! ### Shapes -/

theorem shape?_singleton (forest : Forest) (name : Name) :
    forest.shape? [name] = (forest.find? name).map Node.shape := by
  rw [shape?, descend?_cons]
  rcases forest.find? name with _ | ⟨value⟩ | ⟨inside⟩ <;> rfl

theorem shape?_append_of_directory {forest inside : Forest} {front : List Name}
    (h : forest.descend? front = some (.directory inside)) (back : List Name) :
    forest.shape? (front ++ back) = inside.shape? back := by
  rw [shape?, descend?_append, h]
  rfl

theorem descend?_of_shape?_directory {forest : Forest} {location : List Name}
    (h : forest.shape? location = some .directory) :
    ∃ inside, forest.descend? location = some (.directory inside) := by
  rcases hnode : forest.descend? location with _ | ⟨value⟩ | ⟨inside⟩
  · rw [shape?, hnode] at h
    cases h
  · rw [shape?, hnode] at h
    cases h
  · exact ⟨inside, rfl⟩

theorem descend?_of_shape?_leaf {forest : Forest} {location : List Name} {value : Leaf}
    (h : forest.shape? location = some (.leaf value)) :
    forest.descend? location = some (.leaf value) := by
  rcases hnode : forest.descend? location with _ | ⟨value⟩ | ⟨inside⟩
  · rw [shape?, hnode] at h
    cases h
  · rw [shape?, hnode] at h
    cases h
    rfl
  · rw [shape?, hnode] at h
    cases h

/-- What something stands below is a directory. -/
theorem shape?_of_append {forest : Forest} {front : List Name} {name : Name} {back : List Name}
    {shape : Shape} (h : forest.shape? (front ++ name :: back) = some shape) :
    forest.shape? front = some .directory := by
  unfold shape? at h ⊢
  rw [descend?_append] at h
  rcases hfront : forest.descend? front with _ | ⟨value⟩ | ⟨inside⟩
  · rw [hfront] at h
    cases h
  · rw [hfront] at h
    simp at h
  · rfl

/-- Below nothing stands nothing. -/
theorem shape?_append_eq_none {forest : Forest} {front : List Name}
    (h : forest.shape? front = none) (back : List Name) :
    forest.shape? (front ++ back) = none := by
  cases back with
  | nil => rw [List.append_nil, h]
  | cons name back =>
    rcases hshape : forest.shape? (front ++ name :: back) with _ | shape
    · rfl
    · rw [shape?_of_append hshape] at h
      cases h

/-! ### Shapes determine a forest -/

theorem head_eq_of_shape? {name name' : Name} {node node' : Node} {rest rest' : Forest}
    (h : (cons name node rest).WellFormed) (h' : (cons name' node' rest').WellFormed)
    (hshape : ∀ other, (cons name node rest).shape? [other]
      = (cons name' node' rest').shape? [other]) :
    name = name' := by
  simp only [shape?_singleton, find?_cons] at hshape
  rw [wellFormed_cons_iff] at h h'
  by_contra hne
  -- each first name is found in the other rest, so each comes after the other
  have hmem : name ∈ rest'.names := by
    have hname := hshape name
    rw [if_pos rfl, if_neg hne] at hname
    by_contra hnot
    rw [find?_eq_none_iff.2 hnot] at hname
    cases hname
  have hmem' : name' ∈ rest.names := by
    have hname := hshape name'
    rw [if_pos rfl, if_neg (Ne.symm hne)] at hname
    by_contra hnot
    rw [find?_eq_none_iff.2 hnot] at hname
    cases hname
  exact List.lt_asymm (h.2.1 name' hmem') (h'.2.1 name hmem)

/-- In the rest of a forest stands what stands in the forest, but nothing under the first name. -/
theorem shape?_rest {name : Name} {node : Node} {rest : Forest}
    (h : (cons name node rest).WellFormed) (other : Name) (back : List Name) :
    rest.shape? (other :: back)
      = if other = name then none else (cons name node rest).shape? (other :: back) := by
  split
  · rename_i heq
    subst heq
    have hnone : rest.find? other = none :=
      find?_eq_none_iff.2 fun hmem => List.lt_irrefl _ ((wellFormed_cons_iff.1 h).2.1 other hmem)
    simp [shape?, descend?_cons, hnone]
  · rename_i hne
    simp [shape?, descend?_cons, find?_cons, hne]

theorem rest_shape?_of_cons {name : Name} {node node' : Node} {rest rest' : Forest}
    (h : (cons name node rest).WellFormed) (h' : (cons name node' rest').WellFormed)
    (hshape : ∀ location, (cons name node rest).shape? location
      = (cons name node' rest').shape? location) (location : List Name) :
    rest.shape? location = rest'.shape? location := by
  cases location with
  | nil => rfl
  | cons other back => rw [shape?_rest h, shape?_rest h', hshape (other :: back)]

/-- **Well-formed forests with the same things standing at all locations are equal.** -/
theorem ext_shape? {forest other : Forest} (h : forest.WellFormed) (h' : other.WellFormed)
    (hshape : ∀ location, forest.shape? location = other.shape? location) : forest = other := by
  induction forest generalizing other with
  | nil =>
    rcases exists_cons other with rfl | ⟨name, node, rest, rfl⟩
    · rfl
    · have hname := hshape [name]
      simp [shape?_singleton, find?_cons, find?] at hname
  | leaf name value rest ih =>
    rcases exists_cons other with rfl | ⟨name', node', rest', rfl⟩
    · have hname := hshape [name]
      simp [shape?_singleton, find?] at hname
    · have hcons : (cons name (.leaf value) rest).WellFormed := h
      obtain rfl : name = name' := head_eq_of_shape? hcons h' fun other => hshape [other]
      have hrest := rest_shape?_of_cons hcons h' hshape
      have hname := hshape [name]
      rw [ih h.2.2 (wellFormed_cons_iff.1 h').2.2.2 hrest]
      cases node' with
      | leaf value' =>
        simp [shape?_singleton, find?, find?_cons, Node.shape] at hname
        rw [hname]
        rfl
      | directory inside' => simp [shape?_singleton, find?, find?_cons, Node.shape] at hname
  | directory name inside rest ihinside ih =>
    rcases exists_cons other with rfl | ⟨name', node', rest', rfl⟩
    · have hname := hshape [name]
      simp [shape?_singleton, find?] at hname
    · have hcons : (cons name (.directory inside) rest).WellFormed := h
      obtain rfl : name = name' := head_eq_of_shape? hcons h' fun other => hshape [other]
      have hrest := rest_shape?_of_cons hcons h' hshape
      have hname := hshape [name]
      rw [ih h.2.2.2 (wellFormed_cons_iff.1 h').2.2.2 hrest]
      cases node' with
      | leaf value' => simp [shape?_singleton, find?, find?_cons, Node.shape] at hname
      | directory inside' =>
        have hinside : inside = inside' := by
          apply ihinside h.2.2.1 ((wellFormed_cons_iff.1 h').2.2.1 inside' rfl)
          intro location
          have hbelow := hshape (name :: location)
          simpa [shape?, descend?_cons, find?, find?_cons] using hbelow
        rw [hinside]
        rfl

/-- What stands at and below a location determines the node there. -/
theorem descend?_congr {forest forest' : Forest} (h : forest.WellFormed) (h' : forest'.WellFormed)
    {top : List Name}
    (hshape : ∀ below, forest.shape? (top ++ below) = forest'.shape? (top ++ below)) :
    forest.descend? top = forest'.descend? top := by
  have htop := hshape []
  rw [List.append_nil] at htop
  rcases hnode : forest.descend? top with _ | ⟨value⟩ | ⟨inside⟩
  · rw [shape?, hnode] at htop
    exact (Option.map_eq_none_iff.1 htop.symm).symm
  · rw [shape?, hnode] at htop
    exact (descend?_of_shape?_leaf htop.symm).symm
  · rw [shape?, hnode] at htop
    obtain ⟨inside', hnode'⟩ := descend?_of_shape?_directory htop.symm
    have hinside : inside = inside' := by
      apply ext_shape? ((h.descend? hnode).2 inside rfl) ((h'.descend? hnode').2 inside' rfl)
      intro below
      rw [← shape?_append_of_directory hnode, ← shape?_append_of_directory hnode', hshape below]
    rw [hnode', hinside]

instance decidableWellFormed : (forest : Forest) → Decidable forest.WellFormed
  | nil => .isTrue trivial
  | leaf name _ rest =>
    have := decidableWellFormed rest
    inferInstanceAs (Decidable (name.Valid ∧ (∀ other ∈ rest.names, name < other) ∧
      rest.WellFormed))
  | directory name inside rest =>
    have := decidableWellFormed inside
    have := decidableWellFormed rest
    inferInstanceAs (Decidable (name.Valid ∧ (∀ other ∈ rest.names, name < other) ∧
      inside.WellFormed ∧ rest.WellFormed))

/-! ### What a change leaves standing -/

theorem find?_within_self (forest : Forest) (name : Name) (change : Forest → Forest) :
    (forest.within name change).find? name = match forest.find? name with
      | some (.directory inside) => some (.directory (change inside))
      | some (.leaf value) => some (.leaf value)
      | none => none := by
  induction forest with
  | nil => rfl
  | leaf first value rest ih =>
    by_cases h : name = first
    · simp [within, find?, h]
    · simp [within, find?, h, ih]
  | directory first inside rest _ ih =>
    by_cases h : name = first
    · simp [within, find?, h]
    · simp [within, find?, h, ih]

theorem find?_within_of_ne {name other : Name} (hne : other ≠ name) (forest : Forest)
    (change : Forest → Forest) : (forest.within name change).find? other = forest.find? other := by
  induction forest with
  | nil => rfl
  | leaf first value rest ih => simp [within, find?, ih]
  | directory first inside rest _ ih =>
    by_cases h : name = first
    · subst h
      simp [within, find?, hne]
    · simp [within, find?, h, ih]

theorem find?_put_of_ne {name other : Name} (hne : other ≠ name) (forest : Forest) (node : Node) :
    (forest.put name node).find? other = forest.find? other := by
  induction forest with
  | nil => simp [put, find?_cons, find?, hne]
  | leaf first value rest ih =>
    unfold put
    split
    · simp [find?_cons, hne]
    · split
      · rename_i heq
        simp [find?_cons, find?, hne, ← heq]
      · simp [find?, ih]
  | directory first inside rest _ ih =>
    unfold put
    split
    · simp [find?_cons, hne]
    · split
      · rename_i heq
        simp [find?_cons, find?, hne, ← heq]
      · simp [find?, ih]

theorem find?_remove_of_ne {name other : Name} (hne : other ≠ name) (forest : Forest) :
    (forest.remove name).find? other = forest.find? other := by
  induction forest with
  | nil => rfl
  | leaf first value rest ih =>
    unfold remove
    split
    · rename_i heq
      simp [find?, hne, ← heq]
    · simp [find?, ih]
  | directory first inside rest _ ih =>
    unfold remove
    split
    · rename_i heq
      simp [find?, hne, ← heq]
    · simp [find?, ih]

/-- A change of one entry of a directory leaves standing what is not at or below the entry. -/
theorem shape?_changeAt {change : Forest → Forest} {name : Name}
    (hchange : ∀ inside other, other ≠ name → (change inside).find? other = inside.find? other)
    {location other : List Name} (hother : ¬ location ++ [name] <+: other) (forest : Forest) :
    (changeAt change location forest).shape? other = forest.shape? other := by
  induction location generalizing forest other with
  | nil =>
    cases other with
    | nil => rfl
    | cons first rest =>
      have hfirst : first ≠ name := by
        rintro rfl
        exact hother (List.prefix_append [first] rest)
      simp only [changeAt, shape?, descend?_cons, hchange forest first hfirst]
  | cons step names ih =>
    cases other with
    | nil => rfl
    | cons first rest =>
      by_cases hfirst : first = step
      · subst hfirst
        have hrest : ¬ names ++ [name] <+: rest := by
          intro hway
          exact hother (List.cons_prefix_cons.2 ⟨rfl, hway⟩)
        simp only [changeAt, shape?, descend?_cons, find?_within_self]
        rcases forest.find? first with _ | ⟨value⟩ | ⟨inside⟩
        · rfl
        · rfl
        · exact ih hrest inside
      · simp only [changeAt, shape?, descend?_cons, find?_within_of_ne hfirst]
/-! ### Forests without links -/

/-- No symbolic link stands in the forest, at any depth. -/
def Linkless : Forest → Prop
  | nil => True
  | leaf _ value rest => (∀ target, value ≠ .link target) ∧ rest.Linkless
  | directory _ inside rest => inside.Linkless ∧ rest.Linkless

theorem linkless_cons_iff {name : Name} {node : Node} {rest : Forest} :
    (cons name node rest).Linkless ↔ (∀ target, node ≠ .leaf (.link target)) ∧
      (∀ inside, node = .directory inside → inside.Linkless) ∧ rest.Linkless := by
  cases node with
  | leaf value => simp [cons, Linkless]
  | directory inside => simp [cons, Linkless]

theorem Linkless.find? {forest : Forest} (h : forest.Linkless) {name : Name} {node : Node}
    (hfind : forest.find? name = some node) :
    (∀ target, node ≠ .leaf (.link target)) ∧ ∀ inside, node = .directory inside →
      inside.Linkless := by
  obtain ⟨rest, hcons⟩ := exists_of_find? (fun h => (linkless_cons_iff.1 h).2.2) h hfind
  obtain ⟨hnode, hinside, -⟩ := linkless_cons_iff.1 hcons
  exact ⟨hnode, hinside⟩

theorem Linkless.descend? {forest : Forest} (h : forest.Linkless) {location : List Name}
    {node : Node} (hnode : forest.descend? location = some node) :
    (∀ target, node ≠ .leaf (.link target)) ∧ ∀ inside, node = .directory inside →
      inside.Linkless := by
  induction location generalizing forest with
  | nil =>
    cases hnode
    constructor
    · intro target htarget
      cases htarget
    · intro inside hinside
      cases hinside
      exact h
  | cons name names ih =>
    rw [descend?_cons] at hnode
    rcases hfind : forest.find? name with _ | ⟨value⟩ | ⟨inside⟩
    · rw [hfind] at hnode
      cases hnode
    · rw [hfind] at hnode
      simp only [Option.ite_none_right_eq_some, Option.some.injEq] at hnode
      obtain ⟨rfl, rfl⟩ := hnode
      exact h.find? hfind
    · rw [hfind] at hnode
      exact ih ((h.find? hfind).2 inside rfl) hnode

/-- A well-formed forest is without links when no link stands anywhere. -/
theorem linkless_of_shape? {forest : Forest} (h : forest.WellFormed)
    (hshape : ∀ location target, forest.shape? location ≠ some (.leaf (.link target))) :
    forest.Linkless := by
  -- the first name does not come again, so what stands in the rest stands in the forest
  have hrest : ∀ {name node rest}, (cons name node rest).WellFormed →
      (∀ location target, (cons name node rest).shape? location ≠ some (.leaf (.link target))) →
      ∀ location target, rest.shape? location ≠ some (.leaf (.link target)) := by
    intro name node rest hcons hall location target hlink
    cases location with
    | nil => cases hlink
    | cons other back =>
      rw [shape?_rest hcons] at hlink
      split at hlink
      · cases hlink
      · exact hall _ _ hlink
  induction forest with
  | nil => trivial
  | leaf name value rest ih =>
    constructor
    · rintro target rfl
      apply hshape [name] target
      simp [shape?_singleton, find?, Node.shape]
    · have hcons : (cons name (.leaf value) rest).WellFormed := h
      exact ih h.2.2 (hrest hcons hshape)
  | directory name inside rest ihinside ih =>
    constructor
    · apply ihinside h.2.2.1
      intro location target hlink
      apply hshape (name :: location) target
      simpa [shape?, descend?_cons, find?] using hlink
    · have hcons : (cons name (.directory inside) rest).WellFormed := h
      exact ih h.2.2.2 (hrest hcons hshape)

end Forest

end Treeprint
