import Treeprint.Proofs.Detection
import Treeprint.Proofs.Locality
import Treeprint.Proofs.Routes

/-!
# A directory that lies somewhere else

One tree without links lies at two places, on one disk or on two.  The main statement,
`fingerprints_relocate`, says that a snapshot of it does not tell where it lies: **the fingerprints
are the same in the same order, and only the keys differ**, or both snapshots fail in the same way.
This is so for the strategies that do not keep absolute paths, and for each way in which one
directory can be named (`Root.Shape`).

The two runs are compared step by step.  A survey of a forest without links reads nothing but the
forest, so both directories show the same, up to times.  The entries correspond (`Twin`): they have
the same way below their tops and are judged alike.  The fold passes over paths that are taken, and
here the places could come in, since different ways can have the same text.  But what two ways have
in common as texts they have in common below any top that is not the root (`corresponds_biUnique`).
-/

namespace Treeprint

/-! ### What is seen, apart from times -/

namespace Sight

def untimed : Sight → Sight
  | directory => directory
  | file data _ => file data 0

theorem kind_content (sight : Sight) : sight.content.kind = sight.kind := by
  cases sight <;> rfl

theorem eq_directory_iff (sight : Sight) : sight = .directory ↔ sight.kind = .directory := by
  cases sight <;> simp [kind]

end Sight

def Sighting.untimed (sighting : Sighting) : Sighting :=
  ⟨sighting.names, sighting.sight.untimed⟩

namespace Survey

def untimed (survey : Survey) : Survey := ⟨survey.seen.map Sighting.untimed, survey.obstacle⟩

theorem untimed_andThen (first : Survey) (second : Unit → Survey) :
    (first.andThen second).untimed = first.untimed.andThen fun _ => (second ()).untimed := by
  rcases first with ⟨seen, _ | obstacle⟩
  · simp [andThen, untimed]
  · rfl

variable {disk : Disk} {top : List Name} {filter : Filter} {enter : Entering}

theorem ofLeaf_untimed {value : Leaf} (hvalue : ∀ target, value ≠ .link target)
    (passed : List (List Name)) (names : List Name) :
    ofLeaf disk top filter enter passed names value.untimed
      = (ofLeaf disk top filter enter passed names value).untimed := by
  cases value with
  | link target => exact absurd rfl (hvalue target)
  | _ =>
    simp only [ofLeaf, Leaf.untimed]
    split <;> rfl

/-- In a forest without links times are read off and nothing else. -/
theorem ofForest_untimed {forest : Forest} (h : forest.Linkless) (passed : List (List Name))
    (location names : List Name) :
    ofForest disk top filter enter passed location names forest.untimed
      = (ofForest disk top filter enter passed location names forest).untimed := by
  induction forest generalizing passed location names with
  | nil => rfl
  | leaf name value rest ih =>
    rw [Forest.untimed, ofForest, ofForest, untimed_andThen, ofLeaf_untimed h.1, ih h.2]
  | directory name inside rest ihinside ih =>
    rw [Forest.untimed, ofForest, ofForest, untimed_andThen, ih h.2, ihinside h.1]
    split
    · rw [untimed_andThen]
      rfl
    · rfl

end Survey

theorem Forest.linkless_untimed (forest : Forest) : forest.untimed.Linkless ↔ forest.Linkless := by
  induction forest with
  | nil => exact Iff.rfl
  | leaf name value rest ih =>
    refine and_congr ?_ ih
    cases value <;> simp [Leaf.untimed]
  | directory name inside rest ihinside ih => exact and_congr ihinside ih

/-! ### Two directories with the same tree -/

/-- What is seen at two places: under the same names, of the same kind, and with contents that are
    the same. -/
structure Sighting.Same (same : Content → Content → Prop) (sighting sighting' : Sighting) :
    Prop where
  names : sighting.names = sighting'.names
  kind : sighting.sight.kind = sighting'.sight.kind
  content : same sighting.sight.content sighting'.sight.content

/-- Two surveys show the same and meet the same obstacle. -/
structure Survey.Same (same : Content → Content → Prop) (survey survey' : Survey) : Prop where
  seen : List.Forall₂ (Sighting.Same same) survey.seen survey'.seen
  obstacle : survey.obstacle = survey'.obstacle

theorem Sighting.same_of_untimed {sighting sighting' : Sighting}
    (h : sighting.untimed = sighting'.untimed) :
    Sighting.Same (fun content content' => (content == content') = true) sighting sighting' := by
  obtain ⟨names, sight⟩ := sighting
  obtain ⟨names', sight'⟩ := sighting'
  obtain ⟨rfl, hsight⟩ := Sighting.mk.inj h
  cases sight with
  | directory =>
    cases sight' with
    | directory => exact ⟨rfl, rfl, Content.beq_iff.2 ⟨rfl, rfl⟩⟩
    | file => cases hsight
  | file data modified =>
    cases sight' with
    | directory => cases hsight
    | file data' modified' =>
      cases hsight
      exact ⟨rfl, rfl, Content.beq_iff.2 ⟨rfl, rfl⟩⟩

namespace Survey

theorem same_of_untimed {survey survey' : Survey} (h : survey.untimed = survey'.untimed) :
    survey.Same (fun content content' => (content == content') = true) survey' := by
  obtain ⟨hseen, hobstacle⟩ := Survey.mk.inj h
  refine ⟨?_, hobstacle⟩
  rw [← List.forall₂_eq_eq_eq, List.forall₂_map_left_iff, List.forall₂_map_right_iff] at hseen
  exact hseen.imp fun _ _ => Sighting.same_of_untimed

theorem Same.refl (survey : Survey) : survey.Same (· = ·) survey :=
  ⟨List.forall₂_same.2 fun _ _ => ⟨rfl, rfl, rfl⟩, rfl⟩

variable {disk disk' : Disk} {top top' location location' : List Name} {inside inside' : Forest}

/-- Below a directory without links a survey shows the forest inside. -/
theorem below_eq_ofForest (hfollow : disk.follow [] top = .ok (.directory location inside))
    (hlinkless : inside.Linkless) (filter : Filter) :
    below disk top filter = ofForest .empty [] filter (fun _ _ _ _ => nothing) [] [] [] inside := by
  rw [below, hfollow]
  exact ofForest_linkless hlinkless ..

/-- **Two directories with the same tree show the same**, whatever the filter is; up to times, if
    the times are not the same. -/
theorem below_same (hfollow : disk.follow [] top = .ok (.directory location inside))
    (hfollow' : disk'.follow [] top' = .ok (.directory location' inside'))
    (hlinkless : inside.Linkless) (htree : inside.untimed = inside'.untimed) (filter : Filter) :
    (below disk top filter).Same (fun content content' => (content == content') = true)
        (below disk' top' filter) ∧
      (inside = inside' → (below disk top filter).Same (· = ·) (below disk' top' filter)) := by
  have hlinkless' : inside'.Linkless := by
    rwa [← Forest.linkless_untimed, ← htree, Forest.linkless_untimed]
  rw [below_eq_ofForest hfollow hlinkless, below_eq_ofForest hfollow' hlinkless']
  constructor
  · -- both surveys are brought to the one tree without times
    apply same_of_untimed
    rw [← ofForest_untimed hlinkless, ← ofForest_untimed hlinkless', htree]
  · rintro rfl
    exact Same.refl _

end Survey

namespace Survey

theorem obstacle_of_andThen {first : Survey} {second : Unit → Survey} {obstacle : Obstacle}
    (h : (first.andThen second).obstacle = some obstacle) :
    first.obstacle = some obstacle ∨ (second ()).obstacle = some obstacle := by
  rcases first with ⟨seen, _ | other⟩
  · exact .inr h
  · exact .inl h

variable {disk : Disk} {top : List Name} {filter : Filter} {enter : Entering}

theorem obstacle_of_ofLeaf {value : Leaf} (hvalue : ∀ target, value ≠ .link target)
    {passed : List (List Name)} {names : List Name} {obstacle : Obstacle}
    (h : (ofLeaf disk top filter enter passed names value).obstacle = some obstacle) :
    ∃ description, obstacle = .unrecognized names description := by
  cases value with
  | link target => exact absurd rfl (hvalue target)
  | file data modified =>
    rw [ofLeaf] at h
    split at h <;> cases h
  | fifo | socket | device =>
    simp only [ofLeaf] at h
    split at h
    · cases h
      exact ⟨_, rfl⟩
    · cases h

/-- In a forest without links the one obstacle is something that is no file and no directory. -/
theorem obstacle_of_ofForest {forest : Forest} (h : forest.Linkless) {passed : List (List Name)}
    {location names : List Name} {obstacle : Obstacle}
    (hobstacle : (ofForest disk top filter enter passed location names forest).obstacle
      = some obstacle) :
    ∃ below description, below ≠ [] ∧ obstacle = .unrecognized (names ++ below) description := by
  induction forest generalizing passed location names with
  | nil => cases hobstacle
  | leaf name value rest ih =>
    rcases obstacle_of_andThen hobstacle with hleaf | hrest
    · obtain ⟨description, rfl⟩ := obstacle_of_ofLeaf h.1 hleaf
      exact ⟨[name], description, List.cons_ne_nil _ _, rfl⟩
    · exact ih h.2 hrest
  | directory name inside rest ihinside ih =>
    rcases obstacle_of_andThen hobstacle with hdirectory | hrest
    · split at hdirectory
      · rcases obstacle_of_andThen hdirectory with hself | hinside
        · cases hself
        · obtain ⟨below, description, -, rfl⟩ := ihinside h.1 hinside
          exact ⟨name :: below, description, List.cons_ne_nil _ _, by simp⟩
      · cases hdirectory
    · exact ih h.2 hrest

end Survey

/-! ### Keys below two tops -/

namespace Path

/-- The keys of one way below two tops. -/
def Corresponds (top top' : List Name) (key key' : String) : Prop :=
  ∃ way, key = text (top ++ way) ∧ key' = text (top' ++ way)

/-- A top that is not the root has another text than what is below it. -/
theorem text_ne_text_append {top way : List Name} (htop : top ≠ []) (hway : way ≠ []) :
    text top ≠ text (top ++ way) := by
  intro h
  have hlength := congrArg (·.toList.length) h
  rw [text_append top hway false, if_neg htop] at hlength
  simp only [String.toList_append, List.length_append] at hlength
  have hslash : "/".toList.length = 1 := rfl
  omega

/-- **What two ways have in common below one top they have in common below the other.** -/
theorem text_append_congr {top top' way other : List Name} (htop : top ≠ [])
    (h : text (top ++ way) = text (top ++ other)) : text (top' ++ way) = text (top' ++ other) := by
  by_cases hway : way = []
  · subst hway
    by_cases hother : other = []
    · rw [hother]
    · rw [List.append_nil] at h
      exact absurd h (text_ne_text_append htop hother)
  · by_cases hother : other = []
    · subst hother
      rw [List.append_nil] at h
      exact absurd h.symm (text_ne_text_append htop hway)
    · -- behind the top there are the names as they are shown, and these are the same below both
      rw [text_append top hway false, text_append top hother false, String.append_right_inj] at h
      rw [text_append top' hway false, text_append top' hother false, h]

theorem corresponds_biUnique {top top' : List Name} (htop : top ≠ []) (htop' : top' ≠ []) :
    Relator.BiUnique (Corresponds top top') := by
  constructor
  · rintro _ _ _ ⟨way, rfl, rfl⟩ ⟨other, rfl, hkey⟩
    exact text_append_congr htop' hkey
  · rintro _ _ _ ⟨way, rfl, rfl⟩ ⟨other, hkey, rfl⟩
    exact text_append_congr htop hkey

end Path

/-! ### Entries that are judged alike -/

/-- Two entries with the same way below their tops, and the same in all that is kept of them.  The
    directory that is named as a member is the one entry that has a name of its own. -/
structure Observation.Twin (same : Content → Content → Prop) (top top' : List Name)
    (entry entry' : Observation) : Prop where
  path : Path.Corresponds top top' entry.path entry'.path
  isRoot : entry.isRoot = entry'.isRoot
  kind : entry.kind = entry'.kind
  content : same entry.content entry'.content
  relative : entry.relative = entry'.relative ∨ Strategy.isRootDirectory entry = true

/-- Lines of two snapshots: keys of one way, and fingerprints with the same path and contents that
    are the same. -/
structure Fingerprint.Twin (same : Content → Content → Prop) (top top' : List Name)
    (line line' : String × Fingerprint) : Prop where
  path : Path.Corresponds top top' line.1 line'.1
  normalized : line.2.path = line'.2.path
  content : same line.2.content line'.2.content

namespace Strategy

variable {same : Content → Content → Prop} {top top' : List Name}

/-- Verdicts that leave out both entries, or take both under the same path. -/
inductive SameVerdict (same : Content → Content → Prop) :
    Except Failure (Option Fingerprint) → Except Failure (Option Fingerprint) → Prop
  | leftOut : SameVerdict same (.ok none) (.ok none)
  | taken {path : NormalizedPath} {content content' : Content} : same content content' →
    SameVerdict same (.ok (some ⟨path, content⟩)) (.ok (some ⟨path, content'⟩))

/-- The strategy judges entries by what is not the place. -/
def Unplaced (strategy : Strategy) : Prop :=
  ∀ same top top' entry entry', Observation.Twin same top top' entry entry' →
    SameVerdict same (strategy.judge entry) (strategy.judge entry')

theorem unplaced_named {text : Observation → String} (label : RelativePath → String)
    (htext : ∀ entry, text entry = label entry.relative) : (named text).Unplaced := by
  intro same top top' entry entry' h
  have hroot : isRootDirectory entry = isRootDirectory entry' := by
    rw [isRootDirectory, isRootDirectory, h.isRoot, h.kind]
  simp only [named]
  by_cases hdirectory : isRootDirectory entry = true
  · rw [← hroot, if_pos hdirectory, if_pos hdirectory]
    exact .taken h.content
  · rw [← hroot, if_neg hdirectory, if_neg hdirectory, htext, htext,
      h.relative.resolve_right hdirectory]
    exact .taken h.content

theorem unplaced_contentOnly : contentOnly.Unplaced := by
  intro same top top' entry entry' h
  simp only [contentOnly]
  rw [← h.kind]
  split
  · exact .leftOut
  · exact .taken h.content

/-- The strategies that keep no absolute paths. -/
theorem unplaced_of_mem {strategy : Strategy}
    (h : strategy = .relative ∨ strategy = .nameOnly ∨ strategy = .contentOnly) :
    strategy.Unplaced := by
  obtain rfl | rfl | rfl := h
  · exact unplaced_named RelativePath.text fun _ => rfl
  · exact unplaced_named RelativePath.lastName fun _ => rfl
  · exact unplaced_contentOnly

/-- **Of corresponding entries corresponding lines are chosen.** -/
theorem Unplaced.choose {strategy : Strategy} (h : strategy.Unplaced)
    (htop : top ≠ []) (htop' : top' ≠ []) {entries entries' : List Observation}
    (hentries : List.Forall₂ (Observation.Twin same top top') entries entries')
    {taken taken' : List String} (htaken : List.Forall₂ (Path.Corresponds top top') taken taken') :
    ∃ chosen chosen', strategy.choose taken entries = .ok chosen ∧
      strategy.choose taken' entries' = .ok chosen' ∧
      List.Forall₂ (Fingerprint.Twin same top top') chosen chosen' := by
  -- along the entries the paths that are taken keep corresponding
  induction hentries generalizing taken taken' with
  | nil => exact ⟨[], [], rfl, rfl, .nil⟩
  | @cons entry entry' rest rest' hentry _ ih =>
    have hmem : entry.path ∈ taken ↔ entry'.path ∈ taken' :=
      List.rel_mem (Path.corresponds_biUnique htop htop') hentry.path htaken
    rw [Strategy.choose, Strategy.choose]
    by_cases hpassed : entry.path ∈ taken
    · rw [if_pos hpassed, if_pos (hmem.1 hpassed)]
      exact ih htaken
    · rw [if_neg hpassed, if_neg fun hpassed' => hpassed (hmem.2 hpassed')]
      have hverdict := h same top top' entry entry' hentry
      -- only the verdicts matter from here on
      generalize strategy.judge entry = verdict at hverdict
      generalize strategy.judge entry' = verdict' at hverdict
      cases hverdict with
      | leftOut => exact ih htaken
      | taken hcontent =>
        obtain ⟨chosen, chosen', hchosen, hchosen', hlines⟩ := ih (.cons hentry.path htaken)
        rw [hchosen, hchosen']
        exact ⟨_, _, rfl, rfl, .cons ⟨hentry.path, rfl, hcontent⟩ hlines⟩

end Strategy

/-! ### One directory, named in three ways -/

/-- How a collection can name one directory with what is below it. -/
inductive Root.Shape
  | tree
  | member
  | filtered (restriction : Restriction)

namespace Root.Shape

def root (path : Bytes) : Shape → Root
  | tree => .tree path
  | member => .members [path]
  | filtered restriction => .filtered path restriction

theorem paths_root (shape : Shape) (path : Bytes) : (shape.root path).paths = [path] := by
  cases shape <;> rfl

def filter : Shape → Except Failure Survey.Filter
  | filtered restriction => restriction.filter
  | tree | member => .ok .all

/-- What stands before the contents: the directory itself, when it is named as a member. -/
def front (top : List Name) : Shape → List Observation
  | member => [⟨Path.text top, .ofName false (Path.lastName top), true, .directory⟩]
  | tree | filtered _ => []

theorem failure_of_filter {shape : Shape} {failure : Failure}
    (h : shape.filter = .error failure) : ∃ pattern reason, failure = .pattern pattern reason := by
  cases shape with
  | tree | member => cases h
  | filtered restriction =>
    have hnone := Restriction.path?_of_filter_error h
    cases failure with
    | pattern pattern reason => exact ⟨pattern, reason, rfl⟩
    | _ => cases hnone

theorem twin_front {same : Content → Content → Prop} {top top' : List Name}
    (h : same .directory .directory) (shape : Shape) :
    List.Forall₂ (Observation.Twin same top top') (shape.front top) (shape.front top') := by
  cases shape with
  | tree | filtered => exact .nil
  | member =>
    exact .cons ⟨⟨[], by rw [List.append_nil], by rw [List.append_nil]⟩, rfl, rfl, h, .inr rfl⟩ .nil

end Root.Shape

/-- Outcomes at two places: results that are related, or failures that correspond.  A pattern that
    cannot be read is the same failure at both, and what is no file and no directory is at the same
    way below both tops. -/
inductive Relocated {α : Type} (related : α → α → Prop) (top top' : List Name) :
    Except Failure α → Except Failure α → Prop
  | ok {result result' : α} : related result result' →
    Relocated related top top' (.ok result) (.ok result')
  | unreadable {pattern reason : String} :
    Relocated related top top' (.error (.pattern pattern reason)) (.error (.pattern pattern reason))
  | unrecognized {way : List Name} {description : String} : way ≠ [] →
    Relocated related top top' (.error (.unrecognized (Path.render (top ++ way)) description))
      (.error (.unrecognized (Path.render (top' ++ way)) description))

theorem Relocated.map {α β : Type} {related : α → α → Prop} {related' : β → β → Prop}
    {top top' : List Name} {outcome outcome' : Except Failure α} {f f' : α → β}
    (h : Relocated related top top' outcome outcome')
    (hmap : ∀ {result result'}, related result result' → related' (f result) (f' result')) :
    Relocated related' top top' (outcome.map f) (outcome'.map f') := by
  cases h with
  | ok hresult => exact .ok (hmap hresult)
  | unreadable => exact .unreadable
  | unrecognized hne => exact .unrecognized hne

/-- Two snapshots with the same fingerprints in the same order, under the keys of the same ways. -/
structure Snapshot.Twin (same : Content → Content → Prop) (top top' : List Name)
    (snapshot snapshot' : Snapshot) : Prop where
  entries : List.Forall₂ (Fingerprint.Twin same top top') snapshot.entries snapshot'.entries
  compareStrategy : snapshot.compareStrategy = snapshot'.compareStrategy
  isAbsolute : snapshot.isAbsolute = snapshot'.isAbsolute

namespace Disk

variable {disk disk' : Disk} {current current' top top' location location' : List Name}
  {path path' : Bytes} {inside inside' : Forest} {same : Content → Content → Prop}

theorem gather_shape (hplain : ∀ name ∈ top, name.Plain)
    (hpath : Path.absolute current path = some top)
    (hfollow : disk.follow [] top = .ok (.directory location inside)) (shape : Root.Shape) :
    disk.gather current .identity [shape.root path] = match shape.filter with
      | .error failure => .error failure
      | .ok filter => (disk.scan top filter).map (shape.front top ++ ·) := by
  have hmetadata : disk.metadata top = .ok .directory := by
    rw [metadata_eq disk hplain, hfollow]
  cases shape with
  | tree =>
    rw [Root.Shape.root, gather_tree hpath ⟨.directory, hmetadata, rfl⟩]
    simp only [Root.Shape.filter, Root.Shape.front, List.nil_append]
    rcases disk.scan top .all with failure | entries <;> rfl
  | member =>
    rw [Root.Shape.root, gather_root, expand_member hpath, probe_of_sight hplain hfollow rfl]
    simp only [bind, Except.bind, Observation.kind, Sight.content, Content.kind, Root.Shape.filter]
    rcases disk.scan top .all with failure | entries
    · rfl
    · simp [pure, Except.pure, Except.map, Expansion.entries, Root.Shape.front]
  | filtered restriction =>
    rw [Root.Shape.root, gather_root, expand_filtered restriction hpath, expandFiltered, hmetadata]
    simp only [bind, Except.bind, Metadata.directory, Root.Shape.filter]
    rcases restriction.filter with failure | filter
    · rfl
    · dsimp only
      rcases disk.scan top filter with failure | entries
      · rfl
      · simp [pure, Except.pure, Except.map, Expansion.entries, Root.Shape.front]

theorem twin_entry {sighting sighting' : Sighting} (h : Sighting.Same same sighting sighting') :
    Observation.Twin same top top' (sighting.entry top) (sighting'.entry top') where
  path := ⟨sighting.names, rfl, by rw [h.names]; rfl⟩
  isRoot := rfl
  kind := by
    rw [Observation.kind, Observation.kind, Sighting.entry, Sighting.entry, Sight.kind_content,
      Sight.kind_content, h.kind]
  content := h.content
  relative := by
    left
    simp only [Sighting.entry, ne_eq, Sight.eq_directory_iff, h.names, h.kind]

/-- Scans of directories that show the same correspond. -/
theorem relocated_scan (hplain : ∀ name ∈ top, name.Plain) (hplain' : ∀ name ∈ top', name.Plain)
    (hfollow : disk.follow [] top = .ok (.directory location inside)) (hlinkless : inside.Linkless)
    {filter : Survey.Filter}
    (h : (Survey.below disk top filter).Same same (Survey.below disk' top' filter)) :
    Relocated (List.Forall₂ (Observation.Twin same top top')) top top'
      (disk.scan top filter) (disk'.scan top' filter) := by
  rw [scan_eq hplain, scan_eq hplain', ← h.obstacle]
  rcases hobstacle : (Survey.below disk top filter).obstacle with _ | obstacle
  · apply Relocated.ok
    rw [List.forall₂_map_left_iff, List.forall₂_map_right_iff]
    exact h.seen.imp fun _ _ => twin_entry
  · rw [Survey.below_eq_ofForest hfollow hlinkless] at hobstacle
    obtain ⟨way, description, hne, rfl⟩ := Survey.obstacle_of_ofForest hlinkless hobstacle
    exact .unrecognized hne

theorem relocated_gather (hplain : ∀ name ∈ top, name.Plain) (hplain' : ∀ name ∈ top', name.Plain)
    (hpath : Path.absolute current path = some top)
    (hpath' : Path.absolute current' path' = some top')
    (hfollow : disk.follow [] top = .ok (.directory location inside))
    (hfollow' : disk'.follow [] top' = .ok (.directory location' inside'))
    (hlinkless : inside.Linkless) (shape : Root.Shape) (hdirectory : same .directory .directory)
    (h : ∀ filter, (Survey.below disk top filter).Same same (Survey.below disk' top' filter)) :
    Relocated (List.Forall₂ (Observation.Twin same top top')) top top'
      (disk.gather current .identity [shape.root path])
      (disk'.gather current' .identity [shape.root path']) := by
  rw [gather_shape hplain hpath hfollow, gather_shape hplain' hpath' hfollow']
  rcases hfilter : shape.filter with failure | filter
  · obtain ⟨pattern, reason, rfl⟩ := Root.Shape.failure_of_filter hfilter
    exact .unreadable
  · have hfront : List.Forall₂ (Observation.Twin same top top') (shape.front top)
        (shape.front top') := Root.Shape.twin_front hdirectory shape
    exact (relocated_scan hplain hplain' hfollow hlinkless (h filter)).map
      fun hentries => List.rel_append hfront hentries

/-- What is gathered at two places is folded into snapshots that correspond. -/
theorem relocated_snapshot {recipe : Recipe} {roots roots' : List Root} {strategy : Strategy}
    (htop : top ≠ []) (htop' : top' ≠ []) (hstrategy : strategy.Unplaced)
    (compareStrategy : CompareStrategy)
    (h : Relocated (List.Forall₂ (Observation.Twin same top top')) top top'
      (disk.gather current recipe roots) (disk'.gather current' recipe roots')) :
    Relocated (Snapshot.Twin same top top') top top'
      (disk.snapshot current recipe roots compareStrategy strategy)
      (disk'.snapshot current' recipe roots' compareStrategy strategy) := by
  unfold Disk.snapshot
  generalize disk.gather current recipe roots = gathered at h
  generalize disk'.gather current' recipe roots' = gathered' at h
  cases h with
  | ok hentries =>
    obtain ⟨chosen, chosen', hchosen, hchosen', hlines⟩ := hstrategy.choose htop htop' hentries .nil
    simp only [bind, Except.bind, hchosen, hchosen']
    apply Relocated.ok
    cases hlines with
    | nil => exact ⟨.nil, rfl, rfl⟩
    | cons hline hlines => exact ⟨.cons hline hlines, rfl, rfl⟩
  | unreadable => exact .unreadable
  | unrecognized hne => exact .unrecognized hne

end Disk

/-- **A snapshot of a tree does not tell where the tree lies.**  At two directories that hold the
    same tree without links, the snapshots have the same fingerprints in the same order, or they
    fail in the same way; only the keys are those of the one or the other place.  Fingerprints are
    compared as snapshots compare them, without modification times, and where the times are the same
    too they are equal. -/
theorem fingerprints_relocate {disk disk' : Disk} {current current' top top' : List Name}
    {path path' : Bytes} (hcurrent : ∀ name ∈ current, name.Plain)
    (hcurrent' : ∀ name ∈ current', name.Plain)
    (hpath : Path.absolute current path = some top)
    (hpath' : Path.absolute current' path' = some top') (htop : top ≠ []) (htop' : top' ≠ [])
    {location location' : List Name} {inside inside' : Forest}
    (hfollow : disk.follow [] top = .ok (.directory location inside))
    (hfollow' : disk'.follow [] top' = .ok (.directory location' inside'))
    (hlinkless : inside.Linkless) (htree : inside.untimed = inside'.untimed) {strategy : Strategy}
    (hstrategy : strategy = .relative ∨ strategy = .nameOnly ∨ strategy = .contentOnly)
    (shape : Root.Shape) (compareStrategy : CompareStrategy) (pool pool' : TextPool)
    (asked asked' : List Question) :
    Relocated (Snapshot.Twin (fun content content' => (content == content') = true) top top')
      top top'
      (((Vantage.plain disk current).snapshot .identity [shape.root path] compareStrategy
        strategy).on ⟨.empty, pool, asked⟩).1
      (((Vantage.plain disk' current').snapshot .identity [shape.root path'] compareStrategy
        strategy).on ⟨.empty, pool', asked'⟩).1 ∧
    (inside = inside' → Relocated (Snapshot.Twin (· = ·) top top') top top'
      (((Vantage.plain disk current).snapshot .identity [shape.root path] compareStrategy
        strategy).on ⟨.empty, pool, asked⟩).1
      (((Vantage.plain disk' current').snapshot .identity [shape.root path'] compareStrategy
        strategy).on ⟨.empty, pool', asked'⟩).1) := by
  have hplain := Path.plain_absolute hcurrent hpath
  have hplain' := Path.plain_absolute hcurrent' hpath'
  have hshown := Survey.below_same hfollow hfollow' hlinkless htree
  rw [Vantage.on_snapshot_root hpath (shape.paths_root path),
    Vantage.on_snapshot_root hpath' (shape.paths_root path')]
  constructor
  · exact Disk.relocated_snapshot htop htop' (Strategy.unplaced_of_mem hstrategy) compareStrategy
      (Disk.relocated_gather hplain hplain' hpath hpath' hfollow hfollow' hlinkless shape
        (Content.beq_iff.2 ⟨rfl, rfl⟩) fun filter => (hshown filter).1)
  · intro hsame
    exact Disk.relocated_snapshot htop htop' (Strategy.unplaced_of_mem hstrategy) compareStrategy
      (Disk.relocated_gather hplain hplain' hpath hpath' hfollow hfollow' hlinkless shape rfl
        fun filter => (hshown filter).2 hsame)

/-! ### A tree with two names that are shown alike -/

/-- A directory `a` with a file `b` in it, a file named by the byte `FE` and a directory named by
    `FF`; all files were modified at one time. -/
def unshownTree (modified : Int) : Forest :=
  .directory [0x61] (.leaf [0x62] (.file [] modified) .nil)
    (.leaf [0xFE] (.file [] modified) (.directory [0xFF] .nil .nil))

/-- The tree at `/p`. -/
def placedDisk : Disk where
  root := .directory [0x70] (unshownTree 0) .nil
  wellFormed := by decide

/-- The tree at `/q/r`, five milliseconds later. -/
def replacedDisk : Disk where
  root := .directory [0x71] (.directory [0x72] (unshownTree 5000000) .nil) .nil
  wellFormed := by decide

/-- The tree without the file that is `a/b` from its top. -/
def withoutFile : Root.Shape := .filtered ⟨⟨[], ["/a/b"]⟩, none⟩

def placedSnapshot : Snapshot :=
  .ofEntries [("/p/a", ⟨.path "a", .directory⟩),
    ("/p/\uFFFD", ⟨.path "\uFFFD", .regularFile ⟨Sha256.digest []⟩ 0⟩)] .ordered false

def replacedSnapshot : Snapshot :=
  .ofEntries [("/q/r/a", ⟨.path "a", .directory⟩),
    ("/q/r/\uFFFD", ⟨.path "\uFFFD", .regularFile ⟨Sha256.digest []⟩ 5⟩)] .ordered false

theorem fingerprints_relocate_unshown :
    (((Vantage.plain placedDisk []).snapshot .identity [withoutFile.root (Utf8.encode "/p")]
      .ordered .relative).on ⟨.empty, .empty, []⟩).1 = .ok placedSnapshot ∧
    (((Vantage.plain replacedDisk [[0x71]]).snapshot .identity
      [withoutFile.root (Utf8.encode "r/.")] .ordered .relative).on ⟨.empty, .empty, []⟩).1
        = .ok replacedSnapshot ∧
    Relocated (Snapshot.Twin (fun content content' => (content == content') = true)
      [[0x70]] [[0x71], [0x72]]) [[0x70]] [[0x71], [0x72]]
      (.ok placedSnapshot) (.ok replacedSnapshot) := by
  have hplaced : (((Vantage.plain placedDisk []).snapshot .identity
      [withoutFile.root (Utf8.encode "/p")] .ordered .relative).on ⟨.empty, .empty, []⟩).1
        = .ok placedSnapshot := rfl
  have hreplaced : (((Vantage.plain replacedDisk [[0x71]]).snapshot .identity
      [withoutFile.root (Utf8.encode "r/.")] .ordered .relative).on ⟨.empty, .empty, []⟩).1
        = .ok replacedSnapshot := rfl
  have hcurrent : ∀ name ∈ ([[0x71]] : List Name), name.Plain := by
    intro name hname
    rw [List.mem_singleton.1 hname]
    exact ⟨by decide, by decide, by decide⟩
  obtain ⟨hrelocated, -⟩ := fingerprints_relocate (by simp) hcurrent
    (show Path.absolute [] (Utf8.encode "/p") = some [[0x70]] from rfl)
    (show Path.absolute [[0x71]] (Utf8.encode "r/.") = some [[0x71], [0x72]] from rfl)
    (by simp) (by simp)
    (show placedDisk.follow [] [[0x70]] = .ok (.directory [[0x70]] (unshownTree 0)) from rfl)
    (show replacedDisk.follow [] [[0x71], [0x72]]
      = .ok (.directory [[0x71], [0x72]] (unshownTree 5000000)) from rfl)
    (by simp [unshownTree, Forest.Linkless]) rfl (.inl rfl) withoutFile .ordered .empty .empty [] []
  rw [hplaced, hreplaced] at hrelocated
  exact ⟨hplaced, hreplaced, hrelocated⟩

end Treeprint
