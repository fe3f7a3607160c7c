import Mathlib.Data.List.Infix
import Treeprint.Observer
import Treeprint.Proofs.Following
import Treeprint.Survey

/-!
# What there is to see below a directory

This is the reference for surveys, and it knows nothing of the order in which a survey looks or of
where it stands.  A *way* below a directory is a list of names, each of which is an entry of the
directory that the names before it lead to when all links are followed (`Disk.Way`).  What a way
shows is what its path is followed to (`Disk.Shows`): a directory or a file, unless the way ends in
a link that closes a loop (`Disk.ClosesLoop`).  A way that shows nothing is blocked, and
`Disk.Blocks` says what is told of it.

Ways are ordered like lists of names, so a way comes after those that it begins with
(`not_lt_of_prefix`), and what lies below one entry comes before what lies below a later one
(`lt_of_prefixes`).
-/

namespace Treeprint

/-! ### The order of ways -/

/-- No way comes before one that it begins with. -/
theorem not_lt_of_prefix {front way : List Name} (h : front <+: way) : ¬ way < front :=
  List.not_lt.2 h.le

theorem lt_of_prefixes {names : List Name} {name other : Name} {way way' : List Name}
    (hlt : name < other) (h : names ++ [name] <+: way) (h' : names ++ [other] <+: way') :
    way < way' := by
  obtain ⟨back, rfl⟩ := h
  obtain ⟨back', rfl⟩ := h'
  rw [List.append_assoc, List.append_assoc]
  apply List.append_left_lt
  exact List.cons_lt_cons_iff.2 (.inl hlt)

theorem lt_of_prefix {names : List Name} {name : Name} {way : List Name}
    (h : names ++ [name] <+: way) : names < way := by
  obtain ⟨back, rfl⟩ := h
  have hbefore : names ++ [] < names ++ (name :: back) := List.append_left_lt (by simp)
  simpa using hbefore

/-! ### What a path is followed to -/

/-- What is seen at a place, if it can be observed. -/
def Place.sight? : Place → Option Sight
  | .directory .. => some .directory
  | .leaf _ (.file data modified) => some (.file data modified)
  | _ => none

def Obstacle.names : Obstacle → List Name
  | lost names _ => names
  | loop names => names
  | unrecognized names _ => names

namespace Disk

variable {disk : Disk} {top : List Name}

/-- The ways below a directory: each name is an entry of the directory that the names before it
    lead to, links followed. -/
inductive Way (disk : Disk) (top : List Name) : List Name → Prop
  | top : disk.Way top []
  | entry {names : List Name} {name : Name} {location : List Name} {inside : Forest} :
    disk.Way top names → disk.follow [] (top ++ names) = .ok (.directory location inside) →
    name ∈ inside.names → disk.Way top (names ++ [name])

/-- The way ends in an entry that is a symbolic link. -/
def IsLink (disk : Disk) (top way : List Name) : Prop :=
  ∃ names name location inside target, way = names ++ [name] ∧
    disk.follow [] (top ++ names) = .ok (.directory location inside) ∧
    inside.find? name = some (.leaf (.link target))

/-- The directory at `location` is `top` or is passed on the way down, where the way itself leads
    included. -/
def PassedOn (disk : Disk) (top way location : List Name) : Prop :=
  ∃ front, front <+: way ∧
    ∃ inside, disk.follow [] (top ++ front) = .ok (.directory location inside)

/-- The way ends in a link that leads to a directory passed on the way down to it. -/
def ClosesLoop (disk : Disk) (top way : List Name) : Prop :=
  disk.IsLink top way ∧ ∃ location inside,
    disk.follow [] (top ++ way) = .ok (.directory location inside) ∧
    disk.PassedOn top way.dropLast location

/-- What can be observed at the end of a way. -/
def Shows (disk : Disk) (top way : List Name) (sight : Sight) : Prop :=
  (∃ place, disk.follow [] (top ++ way) = .ok place ∧ place.sight? = some sight) ∧
    ¬ disk.ClosesLoop top way

/-- What is told of a way at whose end nothing can be observed. -/
inductive Blocks (disk : Disk) (top : List Name) : Obstacle → Prop
  | lost {way : List Name} {trouble : Trouble} :
    disk.follow [] (top ++ way) = .error trouble → disk.Blocks top (.lost way trouble)
  | vacant {way location : List Name} :
    disk.follow [] (top ++ way) = .ok (.vacant location) → disk.Blocks top (.lost way .missing)
  | loop {way : List Name} : disk.ClosesLoop top way → disk.Blocks top (.loop way)
  | linked {way location : List Name} {value : Leaf} : disk.IsLink top way →
    disk.follow [] (top ++ way) = .ok (.leaf location value) →
    (∀ data modified, value ≠ .file data modified) → disk.Blocks top (.unrecognized way "symlink")
  | entry {way location : List Name} {value : Leaf} : ¬ disk.IsLink top way →
    disk.follow [] (top ++ way) = .ok (.leaf location value) →
    (∀ data modified, value ≠ .file data modified) →
    disk.Blocks top (.unrecognized way value.description)

/-! ### Ways and their beginnings -/

namespace Way

theorem inv {names : List Name} {name : Name} (h : disk.Way top (names ++ [name])) :
    disk.Way top names ∧ ∃ location inside,
      disk.follow [] (top ++ names) = .ok (.directory location inside) ∧ name ∈ inside.names := by
  generalize hway : names ++ [name] = way at h
  cases h with
  | top => simp at hway
  | entry hnames hfollow hname =>
    obtain ⟨rfl, heq⟩ := List.append_inj' hway rfl
    cases heq
    exact ⟨hnames, _, _, hfollow, hname⟩

theorem of_prefix {front way : List Name} (h : disk.Way top way) (hfront : front <+: way) :
    disk.Way top front := by
  induction h with
  | top => rw [List.prefix_nil.1 hfront]; exact .top
  | entry hnames hfollow hname ih =>
    rcases List.prefix_concat_iff.1 hfront with rfl | hfront
    · exact .entry hnames hfollow hname
    · exact ih hfront

theorem directory_of_prefix {front way : List Name} {name : Name} (h : disk.Way top way)
    (hfront : front ++ [name] <+: way) : ∃ location inside,
      disk.follow [] (top ++ front) = .ok (.directory location inside) ∧ name ∈ inside.names :=
  (h.of_prefix hfront).inv.2

end Way

theorem prefix_cases {front way : List Name} (h : front <+: way) :
    way = front ∨ ∃ name, front ++ [name] <+: way := by
  obtain ⟨back, rfl⟩ := h
  cases back with
  | nil => exact .inl (List.append_nil front)
  | cons name back => exact .inr ⟨name, back, by simp⟩

theorem Way.exists_directory {way : List Name} (h : disk.Way top way) (hne : way ≠ []) :
    ∃ location inside, disk.follow [] top = .ok (.directory location inside) := by
  obtain ⟨name, hname⟩ := (prefix_cases (List.nil_prefix (l := way))).resolve_left hne
  obtain ⟨location, inside, hfollow, -⟩ := h.directory_of_prefix hname
  exact ⟨location, inside, by rw [← hfollow, List.append_nil]⟩

/-! ### Directories on the way -/

theorem passedOn_nil {location : List Name} {inside : Forest}
    (h : disk.follow [] top = .ok (.directory location inside)) (other : List Name) :
    disk.PassedOn top [] other ↔ other = location := by
  constructor
  · rintro ⟨front, hfront, inner, hinner⟩
    rw [List.prefix_nil.1 hfront, List.append_nil, h] at hinner
    cases hinner
    rfl
  · rintro rfl
    exact ⟨[], List.prefix_rfl, inside, by rw [List.append_nil, h]⟩

theorem passedOn_entry {names : List Name} {name : Name} {reached : List Name} {inner : Forest}
    (h : disk.follow [] (top ++ (names ++ [name])) = .ok (.directory reached inner))
    (other : List Name) :
    disk.PassedOn top (names ++ [name]) other ↔
      other = reached ∨ disk.PassedOn top names other := by
  constructor
  · rintro ⟨front, hfront, inside, hinside⟩
    rcases List.prefix_concat_iff.1 hfront with rfl | hfront
    · rw [h] at hinside
      cases hinside
      exact .inl rfl
    · exact .inr ⟨front, hfront, inside, hinside⟩
  · rintro (rfl | ⟨front, hfront, inside, hinside⟩)
    · exact ⟨_, List.prefix_rfl, inner, h⟩
    · exact ⟨front, hfront.trans (List.prefix_append names [name]), inside, hinside⟩

/-! ### What a way shows -/

theorem isLink_entry_iff {names location : List Name} {inside : Forest} {name : Name}
    (h : disk.follow [] (top ++ names) = .ok (.directory location inside)) :
    disk.IsLink top (names ++ [name]) ↔
      ∃ target, inside.find? name = some (.leaf (.link target)) := by
  constructor
  · rintro ⟨names', name', location', inside', target, hway, hfollow, hfind⟩
    obtain ⟨rfl, heq⟩ := List.append_inj' hway rfl
    cases heq
    rw [h] at hfollow
    cases hfollow
    exact ⟨target, hfind⟩
  · rintro ⟨target, hfind⟩
    exact ⟨names, name, location, inside, target, rfl, h, hfind⟩

/-- A way that is blocked shows nothing. -/
theorem Blocks.not_shows {obstacle : Obstacle} (h : disk.Blocks top obstacle) (sight : Sight) :
    ¬ disk.Shows top obstacle.names sight := by
  rintro ⟨⟨place, hplace, hsight⟩, hloop⟩
  cases h with
  | lost hfollow =>
    rw [Obstacle.names, hfollow] at hplace
    cases hplace
  | vacant hfollow =>
    rw [Obstacle.names, hfollow] at hplace
    cases hplace
    cases hsight
  | loop hcloses => exact hloop hcloses
  | linked hlink hfollow hvalue | entry hlink hfollow hvalue =>
    rw [Obstacle.names, hfollow] at hplace
    cases hplace
    rename_i value
    cases value with
    | file data modified => exact hvalue data modified rfl
    | _ => cases hsight

/-- Of a way that closes a loop nothing else is told. -/
theorem Blocks.eq_loop {obstacle : Obstacle} (h : disk.Blocks top obstacle)
    (hcloses : disk.ClosesLoop top obstacle.names) : obstacle = .loop obstacle.names := by
  obtain ⟨-, location, inside, hfollow, -⟩ := hcloses
  cases h with
  | loop => rfl
  | lost hother | vacant hother | linked _ hother | entry _ hother =>
    rw [Obstacle.names, hother] at hfollow
    cases hfollow

end Disk

end Treeprint
