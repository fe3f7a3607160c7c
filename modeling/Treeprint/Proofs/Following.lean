import Treeprint.Proofs.Standing

/-!
# Following a way step by step

A path is followed as a whole, and every link on it counts towards one limit.  A survey goes on from
where it stands.  Here the two are brought together: **a path that ends in a directory can be
followed further from that directory on**, with the links that are left (`followUpTo_append`).

`Disk.Reaches` says where a survey stands: in which directory the names below its top end, and how
many links are left there.  An entry of that directory is then followed in one step, and only a link
costs one of the links that are left.
-/

namespace Treeprint

theorem Forest.directory?_eq_some {forest inside : Forest} {location : List Name} :
    forest.directory? location = some inside ↔
      forest.descend? location = some (.directory inside) := by
  unfold Forest.directory?
  rcases forest.descend? location with _ | ⟨value⟩ | ⟨inner⟩ <;> simp

theorem Forest.descend?_entry {forest inside : Forest} {location : List Name}
    (h : forest.directory? location = some inside) (name : Name) :
    forest.descend? (location ++ [name]) = inside.find? name := by
  rw [descend?_append, directory?_eq_some.1 h]
  show inside.descend? [name] = _
  rw [descend?_cons]
  rcases inside.find? name with _ | ⟨value⟩ | ⟨inner⟩ <;> rfl

namespace Disk

variable {root : Forest}

/-! ### A way that ends in a directory -/

/-- A way that ends in a directory meets no link, or is handed on at the first one.  What is put
    behind it is followed from there on. -/
theorem followWith_append {expand : List Name → List Name → Except Trouble Place}
    {location front reached : List Name} {inside : Forest}
    (h : followWith root expand location front = .ok (.directory reached inside)) :
    (root.directory? reached = some inside ∧ ∀ back,
      followWith root expand location (front ++ back) = followWith root expand reached back) ∨
    ∃ start steps, expand start steps = .ok (.directory reached inside) ∧ ∀ back,
      followWith root expand location (front ++ back) = expand start (steps ++ back) := by
  induction front generalizing location with
  | nil =>
    rw [followWith] at h
    rcases hlocation : root.directory? location with _ | inner
    · rw [hlocation] at h
      cases h
    · rw [hlocation] at h
      cases h
      exact .inl ⟨hlocation, fun back => rfl⟩
  | cons step rest ih =>
    simp only [List.cons_append, followWith]
    rw [followWith] at h
    by_cases hhere : step = Path.here
    · rw [if_pos hhere] at h
      simp only [if_pos hhere]
      exact ih h
    by_cases habove : step = Path.above
    · rw [if_neg hhere, if_pos habove] at h
      simp only [if_neg hhere, if_pos habove]
      exact ih h
    by_cases hlong : longestName < step.length
    · rw [if_neg hhere, if_neg habove, if_pos hlong] at h
      cases h
    simp only [if_neg hhere, if_neg habove, if_neg hlong] at h ⊢
    rcases hnode : root.descend? (location ++ [step]) with _ | ⟨value⟩ | ⟨inner⟩
    · by_cases hlast : rest = [] <;> simp [hnode, hlast] at h
    · cases value with
      | link target =>
        by_cases htarget : target = []
        · simp [hnode, htarget] at h
        · simp only [hnode, if_neg htarget] at h ⊢
          exact .inr ⟨_, _, h, fun back => by rw [List.append_assoc]⟩
      | _ => by_cases hlast : rest = [] <;> simp [hnode, hlast] at h
    · simp only [hnode] at h ⊢
      exact ih h

/-- **What is put behind a way that ends in a directory is followed from that directory on**, with
    the links that are left. -/
theorem followUpTo_append {links : Nat} {location front reached : List Name} {inside : Forest}
    (h : followUpTo root links location front = .ok (.directory reached inside)) :
    root.directory? reached = some inside ∧ ∃ left ≤ links, ∀ back,
      followUpTo root links location (front ++ back) = followUpTo root left reached back := by
  induction links generalizing location front with
  | zero =>
    rcases followWith_append h with ⟨hinside, honward⟩ | ⟨start, steps, hexpand, -⟩
    · exact ⟨hinside, 0, Nat.le_refl _, honward⟩
    · cases hexpand
  | succ links ih =>
    rcases followWith_append h with ⟨hinside, honward⟩ | ⟨start, steps, hexpand, honward⟩
    · exact ⟨hinside, links + 1, Nat.le_refl _, honward⟩
    · obtain ⟨hinside, left, hleft, hrest⟩ := ih hexpand
      refine ⟨hinside, left, Nat.le_succ_of_le hleft, ?_⟩
      intro back
      exact (honward back).trans (hrest back)

/-! ### One entry further -/

variable {location : List Name} {inside : Forest} {name : Name}

theorem followWith_entry {expand : List Name → List Name → Except Trouble Place}
    (hinside : root.directory? location = some inside) (hname : name.Valid) (back : List Name) :
    followWith root expand location (name :: back) = match inside.find? name with
      | some (.directory _) => followWith root expand (location ++ [name]) back
      | some (.leaf (.link target)) =>
        if target = [] then .error .missing
        else expand (if Path.isAbsolute target then [] else location) (Path.steps target ++ back)
      | some (.leaf leaf) =>
        if back = [] then .ok (.leaf (location ++ [name]) leaf) else .error .notDirectory
      | none => if back = [] then .ok (.vacant (location ++ [name])) else .error .missing := by
  obtain ⟨-, hhere, habove, -, -, hlength⟩ := hname
  have hlong : ¬ longestName < name.length := by
    unfold longestName
    omega
  have hnode := Forest.descend?_entry hinside name
  rcases hfind : inside.find? name with _ | ⟨value⟩ | ⟨inner⟩
  · simp [followWith, hhere, habove, hlong, hnode, hfind]
  · cases value <;> simp [followWith, hhere, habove, hlong, hnode, hfind]
  · simp [followWith, hhere, habove, hlong, hnode, hfind]

/-- A plain directory is entered at no cost. -/
theorem followUpTo_directory {links : Nat} {inner : Forest}
    (hinside : root.directory? location = some inside) (hname : name.Valid)
    (hfind : inside.find? name = some (.directory inner)) (back : List Name) :
    followUpTo root links location (name :: back)
      = followUpTo root links (location ++ [name]) back := by
  cases links <;> rw [followUpTo, followWith_entry hinside hname, hfind]

theorem followUpTo_leaf {links : Nat} {value : Leaf}
    (hinside : root.directory? location = some inside) (hname : name.Valid)
    (hfind : inside.find? name = some (.leaf value)) (hvalue : ∀ target, value ≠ .link target) :
    followUpTo root links location [name] = .ok (.leaf (location ++ [name]) value) := by
  cases value with
  | link target => exact absurd rfl (hvalue target)
  | _ => cases links <;> rw [followUpTo, followWith_entry hinside hname, hfind] <;> rfl

/-- A link that leads to a directory costs a link. -/
theorem followUpTo_link {links : Nat} {target : Bytes} {reached : List Name} {inner : Forest}
    (hinside : root.directory? location = some inside) (hname : name.Valid)
    (hfind : inside.find? name = some (.leaf (.link target)))
    (h : followUpTo root links location [name] = .ok (.directory reached inner)) :
    root.directory? reached = some inner ∧ ∃ left < links, ∀ back,
      followUpTo root links location (name :: back) = followUpTo root left reached back := by
  cases links with
  | zero =>
    rw [followUpTo, followWith_entry hinside hname, hfind] at h
    by_cases htarget : target = [] <;> simp [htarget] at h
  | succ links =>
    simp only [followUpTo, followWith_entry hinside hname, hfind] at h ⊢
    by_cases htarget : target = []
    · simp [htarget] at h
    · simp only [if_neg htarget, List.append_nil] at h ⊢
      obtain ⟨hinner, left, hleft, honward⟩ := followUpTo_append h
      exact ⟨hinner, left, Nat.lt_succ_of_le hleft, honward⟩

/-! ### Where a survey stands -/

variable {disk : Disk} {top names : List Name} {left : Nat}

/-- The names below `top` lead to the directory at `location`, and `left` links are left there. -/
structure Reaches (disk : Disk) (top names location : List Name) (inside : Forest) (left : Nat) :
    Prop where
  inside : disk.root.directory? location = some inside
  /-- No zero byte spoils the way. -/
  clean : ∀ name ∈ top ++ names, (0 : UInt8) ∉ name
  onward : ∀ back, followUpTo disk.root linkLimit [] (top ++ names ++ back)
    = followUpTo disk.root left location back

theorem follow_of_clean {steps : List Name} (h : ∀ step ∈ steps, (0 : UInt8) ∉ step)
    (location : List Name) :
    disk.follow location steps = followUpTo disk.root linkLimit location steps := by
  rw [follow, if_neg]
  simpa using h

theorem exists_reaches (h : disk.follow [] top = .ok (.directory location inside)) :
    ∃ left ≤ linkLimit, disk.Reaches top [] location inside left := by
  have hclean : ∀ name ∈ top, (0 : UInt8) ∉ name := by
    by_contra hnot
    rw [follow, if_pos (by simpa using hnot)] at h
    cases h
  rw [follow_of_clean hclean] at h
  obtain ⟨hinside, left, hleft, honward⟩ := followUpTo_append h
  exact ⟨left, hleft, hinside, by simpa using hclean, by simpa using honward⟩

namespace Reaches

theorem wellFormed (h : disk.Reaches top names location inside left) : inside.WellFormed :=
  (disk.wellFormed.descend? (Forest.directory?_eq_some.1 h.inside)).2 inside rfl

theorem valid (h : disk.Reaches top names location inside left) {node : Node}
    (hfind : inside.find? name = some node) : name.Valid := (h.wellFormed.find? hfind).1

theorem follow (h : disk.Reaches top names location inside left) :
    disk.follow [] (top ++ names) = .ok (.directory location inside) := by
  have hend := h.onward []
  rw [List.append_nil] at hend
  rw [follow_of_clean h.clean, hend]
  cases left <;> rw [followUpTo, followWith, h.inside]

theorem clean_entry (h : disk.Reaches top names location inside left) (hname : name.Valid) :
    ∀ step ∈ top ++ (names ++ [name]), (0 : UInt8) ∉ step := by
  intro step hstep
  rw [← List.append_assoc, List.mem_append, List.mem_singleton] at hstep
  rcases hstep with hstep | rfl
  · exact h.clean step hstep
  · exact hname.2.2.2.2.1

theorem follow_entry (h : disk.Reaches top names location inside left) (hname : name.Valid) :
    disk.follow [] (top ++ (names ++ [name])) = followUpTo disk.root left location [name] := by
  rw [follow_of_clean (h.clean_entry hname), ← List.append_assoc, h.onward]

theorem directory (h : disk.Reaches top names location inside left) {inner : Forest}
    (hfind : inside.find? name = some (.directory inner)) :
    disk.Reaches top (names ++ [name]) (location ++ [name]) inner left where
  inside := Forest.directory?_eq_some.2 (by rw [Forest.descend?_entry h.inside, hfind])
  clean := h.clean_entry (h.valid hfind)
  onward back := by
    have hback := h.onward (name :: back)
    rw [followUpTo_directory h.inside (h.valid hfind) hfind] at hback
    simpa using hback

theorem leaf (h : disk.Reaches top names location inside left) {value : Leaf}
    (hfind : inside.find? name = some (.leaf value)) (hvalue : ∀ target, value ≠ .link target) :
    disk.follow [] (top ++ (names ++ [name])) = .ok (.leaf (location ++ [name]) value) := by
  rw [h.follow_entry (h.valid hfind), followUpTo_leaf h.inside (h.valid hfind) hfind hvalue]

/-- Behind a link fewer links are left. -/
theorem link (h : disk.Reaches top names location inside left) {target : Bytes}
    (hfind : inside.find? name = some (.leaf (.link target))) {reached : List Name} {inner : Forest}
    (hfollow : disk.follow [] (top ++ (names ++ [name])) = .ok (.directory reached inner)) :
    ∃ fewer < left, disk.Reaches top (names ++ [name]) reached inner fewer := by
  rw [h.follow_entry (h.valid hfind)] at hfollow
  obtain ⟨hinner, fewer, hfewer, honward⟩ :=
    followUpTo_link h.inside (h.valid hfind) hfind hfollow
  refine ⟨fewer, hfewer, hinner, h.clean_entry (h.valid hfind), ?_⟩
  intro back
  have hback := h.onward (name :: back)
  rw [honward] at hback
  simpa using hback

end Reaches

end Disk

end Treeprint
