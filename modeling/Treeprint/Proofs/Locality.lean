import Treeprint.Proofs.Fresh
import Treeprint.Proofs.Standing

/-!
# What a look depends on

On a disk without links, following a location without `..` only meets what stands at the prefixes of
the location, and a survey of a directory only meets what is in it.  So a look is *local*: **where
two disks agree along a location, they show the same there** (`probe_congr`), and where they agree
along a directory and in it, they show the same below it (`scan_congr`).

Following is first brought into a form that has the disk only as a function from locations to shapes
(`lookAlong`); whatever holds of looks is then a matter of that function.
-/

namespace Treeprint

/-- Locations that are followed name by name: their names are plain and none is `..`. -/
def Path.IsDirect (location : List Name) : Prop := ∀ name ∈ location, name.Plain ∧ name ≠ Path.above

theorem Path.IsDirect.plain {location : List Name} (h : Path.IsDirect location) :
    ∀ name ∈ location, name.Plain := fun name hname => (h name hname).1

/-- What stands at a place. -/
def Place.shape? : Place → Option Shape
  | .directory .. => some .directory
  | .leaf _ value => some (.leaf value)
  | .vacant _ => none

namespace Disk

/-! ### Following without links -/

/-- Take the steps from a location on, when all that is known is what stands where. -/
def lookAlong (shapeAt : List Name → Option Shape) :
    List Name → List Name → Except Trouble (Option Shape)
  | location, [] =>
    match shapeAt location with
    | some .directory => .ok (some .directory)
    | _ => .error .missing
  | location, step :: rest =>
    if longestName < step.length then .error .nameTooLong
    else match shapeAt (location ++ [step]) with
      | some .directory => lookAlong shapeAt (location ++ [step]) rest
      | some (.leaf value) => if rest = [] then .ok (some (.leaf value)) else .error .notDirectory
      | none => if rest = [] then .ok none else .error .missing

/-- Only what stands along the way counts. -/
theorem lookAlong_congr {shapeAt shapeAt' : List Name → Option Shape} {location steps : List Name}
    (h : ∀ front, front <+: steps → shapeAt (location ++ front) = shapeAt' (location ++ front)) :
    lookAlong shapeAt location steps = lookAlong shapeAt' location steps := by
  induction steps generalizing location with
  | nil =>
    have hhere := h [] List.nil_prefix
    rw [List.append_nil] at hhere
    simp only [lookAlong, hhere]
  | cons step rest ih =>
    have hstep := h [step] ((List.cons_prefix_cons).2 ⟨rfl, List.nil_prefix⟩)
    have hrest : lookAlong shapeAt (location ++ [step]) rest
        = lookAlong shapeAt' (location ++ [step]) rest := by
      apply ih
      intro front hfront
      have hfront' := h (step :: front) ((List.cons_prefix_cons).2 ⟨rfl, hfront⟩)
      simpa using hfront'
    simp only [lookAlong, hstep, hrest]

theorem followWith_linkless {root : Forest} (hroot : root.Linkless)
    (expand : List Name → List Name → Except Trouble Place) (location steps : List Name)
    (hsteps : ∀ step ∈ steps, step ≠ Path.here ∧ step ≠ Path.above) :
    (followWith root expand location steps).map Place.shape?
      = lookAlong root.shape? location steps := by
  induction steps generalizing location with
  | nil =>
    simp only [followWith, lookAlong, Forest.directory?, Forest.shape?]
    rcases root.descend? location with _ | ⟨value⟩ | ⟨inside⟩ <;> rfl
  | cons step rest ih =>
    obtain ⟨hhere, habove⟩ := hsteps step List.mem_cons_self
    have hrest := ih (location ++ [step]) fun other hother =>
      hsteps other (List.mem_cons_of_mem _ hother)
    rw [followWith, if_neg hhere, if_neg habove, lookAlong, Forest.shape?]
    split
    · rfl
    · rcases hnode : root.descend? (location ++ [step]) with _ | ⟨value⟩ | ⟨inside⟩
      · by_cases hlast : rest = [] <;> simp [hlast, Except.map, Place.shape?]
      · cases value with
        | link target => exact absurd rfl ((hroot.descend? hnode).1 target)
        | _ => by_cases hlast : rest = [] <;> simp [hlast, Except.map, Place.shape?, Node.shape]
      · exact hrest

/-- A directory that is reached without links is the one at the location. -/
theorem followWith_directory {root : Forest} (hroot : root.Linkless)
    (expand : List Name → List Name → Except Trouble Place) {location steps reached : List Name}
    {inside : Forest} (hsteps : ∀ step ∈ steps, step ≠ Path.here ∧ step ≠ Path.above)
    (h : followWith root expand location steps = .ok (.directory reached inside)) :
    reached = location ++ steps ∧ root.descend? (location ++ steps) = some (.directory inside) := by
  induction steps generalizing location with
  | nil =>
    simp only [followWith, Forest.directory?] at h
    rcases hnode : root.descend? location with _ | ⟨value⟩ | ⟨inner⟩
    · simp [hnode] at h
    · simp [hnode] at h
    · simp only [hnode, Except.ok.injEq, Place.directory.injEq] at h
      rw [List.append_nil, hnode, h.1, h.2]
      exact ⟨rfl, rfl⟩
  | cons step rest ih =>
    obtain ⟨hhere, habove⟩ := hsteps step List.mem_cons_self
    rw [followWith, if_neg hhere, if_neg habove] at h
    split at h
    · cases h
    · rcases hnode : root.descend? (location ++ [step]) with _ | ⟨value⟩ | ⟨inner⟩
      · rw [hnode] at h
        by_cases hlast : rest = [] <;> simp [hlast] at h
      · rw [hnode] at h
        cases value with
        | link target => exact absurd rfl ((hroot.descend? hnode).1 target)
        | _ => by_cases hlast : rest = [] <;> simp [hlast] at h
      · rw [hnode] at h
        have hrest := ih (fun other hother => hsteps other (List.mem_cons_of_mem _ hother)) h
        simpa using hrest

variable {disk disk' : Disk} {location : List Name}

theorem steps_of_isDirect (h : Path.IsDirect location) :
    ∀ step ∈ location, step ≠ Path.here ∧ step ≠ Path.above := by
  intro step hstep
  obtain ⟨hplain, habove⟩ := h step hstep
  exact ⟨hplain.2.1, habove⟩

/-- What a location is followed to, from what stands along it. -/
def look (disk : Disk) (location : List Name) : Except Trouble (Option Shape) :=
  if location.any (fun name => (0 : UInt8) ∈ name) then .error .nulByte
  else lookAlong disk.root.shape? [] location

theorem follow_linkless (hdisk : disk.root.Linkless) (h : Path.IsDirect location) :
    (disk.follow [] location).map Place.shape? = disk.look location := by
  unfold follow look
  split
  · rfl
  · exact followWith_linkless hdisk _ [] location (steps_of_isDirect h)

theorem follow_directory (hdisk : disk.root.Linkless) (h : Path.IsDirect location)
    {reached : List Name} {inside : Forest}
    (hfollow : disk.follow [] location = .ok (.directory reached inside)) :
    disk.root.descend? location = some (.directory inside) := by
  unfold follow at hfollow
  split at hfollow
  · cases hfollow
  · exact (followWith_directory hdisk _ (steps_of_isDirect h) hfollow).2

theorem resolve_render (h : ∀ name ∈ location, name.Plain) :
    disk.resolve [] (Path.render location) = disk.follow [] location := by
  rw [resolve, if_neg, if_pos (Path.isAbsolute_render location), Path.steps_render h]
  cases location <;> simp [Path.render]

/-! ### Questions about a location -/

/-- What is told of what a location is followed to. -/
def metadataOfLook : Except Trouble (Option Shape) → Except IoKind Metadata
  | .ok (some .directory) => .ok .directory
  | .ok (some (.leaf value)) => .ok value.metadata
  | .ok none | .error .missing => .ok .missing
  | .error trouble => .error trouble.kind

theorem stat_linkless (hdisk : disk.root.Linkless) (h : Path.IsDirect location) :
    disk.stat [] (Path.render location) = metadataOfLook (disk.look location) := by
  rw [stat, resolve_render h.plain, ← follow_linkless hdisk h]
  rcases disk.follow [] location with trouble | ⟨_, _⟩ | ⟨_, value⟩ | ⟨_⟩
  · cases trouble <;> rfl
  · rfl
  · rfl
  · rfl

/-- What is read of what a location is followed to. -/
def dataOfLook : Except Trouble (Option Shape) → Except Trouble Bytes
  | .ok (some (.leaf (.file data _))) => .ok data
  | .ok (some (.leaf (.device _ data))) => .ok data
  | .ok (some (.leaf _)) => .error .noDevice
  | .ok (some .directory) => .error .isDirectory
  | .ok none => .error .missing
  | .error trouble => .error trouble

theorem read_linkless (hdisk : disk.root.Linkless) (h : Path.IsDirect location) :
    disk.read [] (Path.render location) = dataOfLook (disk.look location) := by
  rw [read, resolve_render h.plain, ← follow_linkless hdisk h]
  rcases disk.follow [] location with trouble | ⟨_, _⟩ | ⟨_, value⟩ | ⟨_⟩
  · rfl
  · rfl
  · cases value <;> rfl
  · rfl

/-! ### Two disks that agree along a location -/

/-- Along the location the same things stand on both disks. -/
def AgreeAlong (disk disk' : Disk) (location : List Name) : Prop :=
  ∀ front, front <+: location → disk.root.shape? front = disk'.root.shape? front

theorem look_congr (hagree : AgreeAlong disk disk' location) :
    disk.look location = disk'.look location := by
  have halong : lookAlong disk.root.shape? [] location
      = lookAlong disk'.root.shape? [] location := by
    apply lookAlong_congr
    intro front hfront
    exact hagree front hfront
  rw [look, look, halong]

theorem metadata_congr (hdisk : disk.root.Linkless) (hdisk' : disk'.root.Linkless)
    (h : Path.IsDirect location) (hagree : AgreeAlong disk disk' location) :
    disk.metadata location = disk'.metadata location := by
  rw [metadata, metadata, stat_linkless hdisk h, stat_linkless hdisk' h, look_congr hagree]

theorem content_congr (hdisk : disk.root.Linkless) (hdisk' : disk'.root.Linkless)
    (h : Path.IsDirect location) (hagree : AgreeAlong disk disk' location) (metadata : Metadata) :
    disk.content location metadata = disk'.content location metadata := by
  rw [content, content, hash, hash, read_linkless hdisk h, read_linkless hdisk' h,
    look_congr hagree]

/-- **A probe depends on nothing but what stands along the location.** -/
theorem probe_congr (hdisk : disk.root.Linkless) (hdisk' : disk'.root.Linkless)
    (h : Path.IsDirect location) (hagree : AgreeAlong disk disk' location) :
    disk.probe location = disk'.probe location := by
  unfold probe
  rw [metadata_congr hdisk hdisk' h hagree]
  simp only [content_congr hdisk hdisk' h hagree]

end Disk

/-! ### Surveys -/

namespace Survey

theorem mem_seen_andThen {first : Survey} {second : Unit → Survey} {sighting : Sighting}
    (h : sighting ∈ (first.andThen second).seen) :
    sighting ∈ first.seen ∨ sighting ∈ (second ()).seen := by
  unfold andThen at h
  split at h
  · exact .inl h
  · exact List.mem_append.1 h

variable {top : List Name} {filter : Filter}

/-- A survey of a forest without links reads nothing but the forest. -/
theorem ofForest_linkless {forest : Forest} (h : forest.Linkless) (disk disk' : Disk)
    (top top' : List Name) (enter enter' : Entering) (passed passed' : List (List Name))
    (location location' names : List Name) :
    ofForest disk top filter enter passed location names forest
      = ofForest disk' top' filter enter' passed' location' names forest := by
  induction forest generalizing passed passed' location location' names with
  | nil => rfl
  | leaf name value rest ih =>
    rw [ofForest, ofForest, ih h.2 passed passed' location location' names]
    cases value with
    | link target => exact absurd rfl (h.1 target)
    | _ => rfl
  | directory name inside rest ihinside ih =>
    rw [ofForest, ofForest, ih h.2 passed passed' location location' names,
      ihinside h.1 _ ((location' ++ [name]) :: passed') _ (location' ++ [name]) _]

theorem names_of_mem_one {names : List Name} {sight : Sight} {sighting : Sighting}
    (h : sighting ∈ (one names sight).seen) : sighting.names = names := by
  rw [one, List.mem_singleton] at h
  rw [h]

theorem names_of_mem_ofLeaf {disk : Disk} {enter : Entering} {passed : List (List Name)}
    {names : List Name} {value : Leaf} (hvalue : ∀ target, value ≠ .link target)
    {sighting : Sighting} (h : sighting ∈ (ofLeaf disk top filter enter passed names value).seen) :
    sighting.names = names := by
  cases value with
  | link target => exact absurd rfl (hvalue target)
  | file data modified =>
    simp only [ofLeaf] at h
    split at h
    · exact names_of_mem_one h
    · cases h
  | _ =>
    simp only [ofLeaf] at h
    split at h <;> cases h

/-- What is seen in a forest without links is named by valid names below the names that the forest
    is entered under. -/
theorem names_of_mem_ofForest {forest : Forest} (h : forest.Linkless) (hforest : forest.WellFormed)
    {disk : Disk} {enter : Entering} {passed : List (List Name)} {location names : List Name}
    {sighting : Sighting}
    (hseen : sighting ∈ (ofForest disk top filter enter passed location names forest).seen) :
    ∃ below, sighting.names = names ++ below ∧ ∀ name ∈ below, name.Valid := by
  induction forest generalizing passed location names with
  | nil => cases hseen
  | leaf name value rest ih =>
    rcases mem_seen_andThen hseen with hleaf | hrest
    · exact ⟨[name], names_of_mem_ofLeaf h.1 hleaf, by simpa using hforest.1⟩
    · exact ih h.2 hforest.2.2 hrest
  | directory name inside rest ihinside ih =>
    rcases mem_seen_andThen hseen with hdirectory | hrest
    · split at hdirectory
      · rcases mem_seen_andThen hdirectory with hself | hinside
        · exact ⟨[name], names_of_mem_one hself, by simpa using hforest.1⟩
        · obtain ⟨below, hnames, hvalid⟩ := ihinside h.1 hforest.2.2.1 hinside
          refine ⟨name :: below, by rw [hnames]; simp, ?_⟩
          intro other hother
          rcases List.mem_cons.1 hother with rfl | hother
          · exact hforest.1
          · exact hvalid other hother
      · cases hdirectory
    · exact ih h.2 hforest.2.2.2 hrest

end Survey

namespace Disk

variable {disk disk' : Disk} {top : List Name} {filter : Survey.Filter}

/-- A survey below a location without links: of a directory it is that of the forest inside. -/
theorem below_congr (hdisk : disk.root.Linkless) (hdisk' : disk'.root.Linkless)
    (h : Path.IsDirect top) (hagree : AgreeAlong disk disk' top)
    (hnode : disk.root.descend? top = disk'.root.descend? top) :
    Survey.below disk top filter = Survey.below disk' top filter := by
  have hlook : (disk.follow [] top).map Place.shape? = (disk'.follow [] top).map Place.shape? := by
    rw [follow_linkless hdisk h, follow_linkless hdisk' h, look_congr hagree]
  unfold Survey.below
  rcases hfollow : disk.follow [] top with trouble | ⟨_, inside⟩ | ⟨_, value⟩ | ⟨_⟩ <;>
    rcases hfollow' : disk'.follow [] top with trouble' | ⟨_, inside'⟩ | ⟨_, value'⟩ | ⟨_⟩ <;>
    rw [hfollow, hfollow'] at hlook <;>
    simp only [Except.map, Place.shape?, Except.ok.injEq, Except.error.injEq, Option.some.injEq,
      reduceCtorEq] at hlook
  · rw [hlook]
  · have hinside := follow_directory hdisk h hfollow
    have hinside' := follow_directory hdisk' h hfollow'
    rw [hnode, hinside', Option.some.injEq, Node.directory.injEq] at hinside
    rw [← hinside]
    exact Survey.ofForest_linkless ((hdisk'.descend? hinside').2 inside' rfl) ..

/-- What is seen below a location has valid names. -/
theorem valid_of_mem_below (hdisk : disk.root.Linkless) (h : Path.IsDirect top)
    {sighting : Sighting} (hseen : sighting ∈ (Survey.below disk top filter).seen) :
    ∀ name ∈ sighting.names, name.Valid := by
  unfold Survey.below at hseen
  rcases hfollow : disk.follow [] top with trouble | ⟨location, inside⟩ | ⟨_, value⟩ | ⟨_⟩
  · rw [hfollow] at hseen
    cases hseen
  · rw [hfollow] at hseen
    have hinside := follow_directory hdisk h hfollow
    have hlinkless := (hdisk.descend? hinside).2 inside rfl
    have hwellFormed := (disk.wellFormed.descend? hinside).2 inside rfl
    obtain ⟨below, hnames, hvalid⟩ := Survey.names_of_mem_ofForest hlinkless hwellFormed hseen
    rw [hnames, List.nil_append]
    exact hvalid
  · rw [hfollow] at hseen
    cases hseen
  · rw [hfollow] at hseen
    cases hseen

theorem observeAll_congr {sightings : List Sighting}
    (h : ∀ sighting ∈ sightings, ∀ metadata, disk.content (top ++ sighting.names) metadata
      = disk'.content (top ++ sighting.names) metadata) :
    disk.observeAll top sightings = disk'.observeAll top sightings := by
  induction sightings with
  | nil => rfl
  | cons sighting rest ih =>
    have hsighting := h sighting List.mem_cons_self
    have hobserve : disk.observe top sighting = disk'.observe top sighting := by
      simp only [observe, hsighting]
    rw [observeAll, observeAll, hobserve,
      ih fun other hother => h other (List.mem_cons_of_mem _ hother)]

/-- **A scan depends on nothing but what stands along its top and below it.** -/
theorem scan_congr (hdisk : disk.root.Linkless) (hdisk' : disk'.root.Linkless)
    (h : Path.IsDirect top) (hagree : AgreeAlong disk disk' top)
    (hbelow : ∀ below, disk.root.shape? (top ++ below) = disk'.root.shape? (top ++ below)) :
    disk.scan top filter = disk'.scan top filter := by
  have hnode : disk.root.descend? top = disk'.root.descend? top :=
    Forest.descend?_congr disk.wellFormed disk'.wellFormed hbelow
  have hobserve : disk.observeAll top (Survey.below disk top filter).seen
      = disk'.observeAll top (Survey.below disk top filter).seen := by
    apply observeAll_congr
    intro sighting hsighting metadata
    have hvalid := valid_of_mem_below hdisk h hsighting
    refine content_congr hdisk hdisk' ?_ ?_ metadata
    · intro name hname
      rcases List.mem_append.1 hname with hname | hname
      · exact h name hname
      · have hv := hvalid name hname
        exact ⟨⟨hv.1, hv.2.1, hv.2.2.2.1⟩, hv.2.2.1⟩
    · intro front hfront
      rcases List.prefix_or_prefix_of_prefix hfront (List.prefix_append top _) with
        hfront | ⟨back, rfl⟩
      · exact hagree front hfront
      · exact hbelow back
  unfold scan
  rw [hobserve, below_congr hdisk hdisk' h hagree hnode]

end Disk

end Treeprint
