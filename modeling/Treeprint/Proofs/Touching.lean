import Treeprint.Proofs.Ways

/-!
# Modification times lead nowhere

`Forest.untimed` is a forest with all modification times set back.  Following a path reads names,
targets of links, and what is a directory, but never a time.  So **on disks that differ in times
alone a path leads to the same place** (`Disk.follow_untimed`), what is there differs in times
alone, and the same ways lead below a directory (`Disk.Way.of_untimed`).
-/

namespace Treeprint

/-! ### Setting times back -/

def Leaf.untimed : Leaf → Leaf
  | .file data _ => .file data 0
  | value => value

def Forest.untimed : Forest → Forest
  | .nil => .nil
  | .leaf name value rest => .leaf name value.untimed rest.untimed
  | .directory name inside rest => .directory name inside.untimed rest.untimed

def Node.untimed : Node → Node
  | .leaf value => .leaf value.untimed
  | .directory inside => .directory inside.untimed

def Place.untimed : Place → Place
  | .directory location inside => .directory location inside.untimed
  | .leaf location value => .leaf location value.untimed
  | .vacant location => .vacant location

/-! ### Standing in a forest without times -/

namespace Forest

theorem names_untimed (forest : Forest) : forest.untimed.names = forest.names := by
  induction forest with
  | nil => rfl
  | leaf name value rest ih => simp [untimed, names, ih]
  | directory name inside rest _ ih => simp [untimed, names, ih]

theorem find?_untimed (forest : Forest) (name : Name) :
    forest.untimed.find? name = (forest.find? name).map Node.untimed := by
  induction forest with
  | nil => rfl
  | leaf other value rest ih =>
    rw [untimed, find?, find?]
    split
    · rfl
    · exact ih
  | directory other inside rest _ ih =>
    rw [untimed, find?, find?]
    split
    · rfl
    · exact ih

theorem descend?_untimed (forest : Forest) (location : List Name) :
    forest.untimed.descend? location = (forest.descend? location).map Node.untimed := by
  induction location generalizing forest with
  | nil => rfl
  | cons name names ih =>
    rw [descend?_cons, descend?_cons, find?_untimed]
    rcases forest.find? name with _ | ⟨value⟩ | ⟨inside⟩
    · rfl
    · by_cases hnames : names = [] <;> simp [Node.untimed, hnames]
    · exact ih inside

theorem directory?_untimed (forest : Forest) (location : List Name) :
    forest.untimed.directory? location = (forest.directory? location).map untimed := by
  unfold directory?
  rw [descend?_untimed]
  rcases forest.descend? location with _ | ⟨value⟩ | ⟨inside⟩ <;> rfl

end Forest

/-! ### Following a path -/

namespace Disk

variable {root : Forest}

theorem followWith_untimed {expand expand' : List Name → List Name → Except Trouble Place}
    (hexpand : ∀ location steps, expand' location steps
      = (expand location steps).map Place.untimed) (location steps : List Name) :
    followWith root.untimed expand' location steps
      = (followWith root expand location steps).map Place.untimed := by
  induction steps generalizing location with
  | nil =>
    rw [followWith, followWith, Forest.directory?_untimed]
    rcases root.directory? location with _ | inside <;> rfl
  | cons step rest ih =>
    unfold followWith
    by_cases hhere : step = Path.here
    · rw [if_pos hhere, if_pos hhere, ih]
    rw [if_neg hhere, if_neg hhere]
    by_cases habove : step = Path.above
    · rw [if_pos habove, if_pos habove, ih]
    rw [if_neg habove, if_neg habove]
    by_cases hlong : longestName < step.length
    · rw [if_pos hlong, if_pos hlong]
      rfl
    rw [if_neg hlong, if_neg hlong, Forest.descend?_untimed]
    rcases root.descend? (location ++ [step]) with _ | ⟨value⟩ | ⟨inside⟩
    · by_cases hrest : rest = []
      · simp [hrest, Except.map, Place.untimed]
      · simp [hrest, Except.map]
    · cases value with
      | link target =>
        by_cases htarget : target = []
        · simp [Node.untimed, Leaf.untimed, htarget, Except.map]
        · simp [Node.untimed, Leaf.untimed, htarget, hexpand]
      | _ =>
        by_cases hrest : rest = [] <;>
          simp [Node.untimed, Leaf.untimed, hrest, Except.map, Place.untimed]
    · simp [Node.untimed, ih]

theorem followUpTo_untimed (links : Nat) (location steps : List Name) :
    followUpTo root.untimed links location steps
      = (followUpTo root links location steps).map Place.untimed := by
  induction links generalizing location steps with
  | zero =>
    rw [followUpTo, followUpTo]
    apply followWith_untimed
    intro _ _
    rfl
  | succ links ih => exact followWith_untimed ih location steps

/-- **On disks that differ in times alone a path leads to the same place.** -/
theorem follow_untimed {disk other : Disk} (h : disk.root.untimed = other.root.untimed)
    (location steps : List Name) :
    (disk.follow location steps).map Place.untimed
      = (other.follow location steps).map Place.untimed := by
  unfold follow
  split
  · rfl
  · rw [← followUpTo_untimed, ← followUpTo_untimed, h]

/-! ### Ways below a directory -/

variable {disk other : Disk}

theorem exists_directory_of_untimed {location reached : List Name} {inside : Forest}
    (h : disk.root.untimed = other.root.untimed)
    (hfollow : disk.follow [] location = .ok (.directory reached inside)) :
    ∃ inside', other.follow [] location = .ok (.directory reached inside') ∧
      inside'.names = inside.names := by
  have hsame := follow_untimed h [] location
  rw [hfollow] at hsame
  rcases hother : other.follow [] location with
    trouble | ⟨reached', inside'⟩ | ⟨reached', value⟩ | reached' <;> rw [hother] at hsame
  · cases hsame
  · obtain ⟨rfl, huntimed⟩ := Place.directory.inj (Except.ok.inj hsame)
    exact ⟨inside', rfl, by rw [← inside'.names_untimed, ← huntimed, inside.names_untimed]⟩
  · cases hsame
  · cases hsame

theorem Way.of_untimed {top way : List Name} (h : disk.root.untimed = other.root.untimed)
    (hway : disk.Way top way) : other.Way top way := by
  induction hway with
  | top => exact .top
  | entry _ hfollow hname ih =>
    obtain ⟨inside', hother, hnames⟩ := exists_directory_of_untimed h hfollow
    exact .entry ih hother (hnames ▸ hname)

end Disk

end Treeprint
