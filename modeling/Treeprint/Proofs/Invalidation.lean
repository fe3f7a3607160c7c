import Treeprint.Disk.Edit
import Treeprint.Proofs.Locality
import Treeprint.Proofs.Transparency

/-!
# Invalidation is sound

Snapshots fill a cache while the disk changes.  Each change touches nothing but what is at or below
one path, and the cache is told of the path right after the change.  The main statement is
`snapshot_eq_on_empty_after_changes`: **without symbolic links, nothing stale is ever served**, as
long as the locations that come up are told apart by their texts.  Where they are not, one location
is served what was remembered of another (`snapshot_stale_of_lookalike`).

The invariant is coherence with the disk as it is now.  That a snapshot keeps it is known; a change
keeps it because of two things that come together (`Cache.Coherent.change`).  What is dropped covers
what is touched: a path that stays in the cache is not below the change, and a directory whose
listing stays is neither below nor above it.  And looks are local: a probe that meets nothing below
the change and a scan that meets nothing below it show what they showed before.
-/

namespace Treeprint

/-- Locations that UTF-8 paths without `..` spell. -/
def Path.IsStraight (location : List Name) : Prop := Path.IsSpelled location ∧ Path.above ∉ location

theorem Path.IsStraight.direct {location : List Name} (h : Path.IsStraight location) :
    Path.IsDirect location := by
  intro name hname
  refine ⟨h.1.plain name hname, ?_⟩
  rintro rfl
  exact h.2 hname

theorem tellsApart_isStraight : TellsApart Path.IsStraight := by
  intro location other hlocation hother htext
  exact Path.text_injOn hlocation.1 hother.1 htext

theorem Path.isStraight_absolute {current location : List Name} {path : Bytes}
    (hcurrent : Path.IsStraight current) (hpath : Utf8.IsText path)
    (habove : Path.above ∉ Path.names path) (h : Path.absolute current path = some location) :
    Path.IsStraight location := by
  refine ⟨Path.isSpelled_absolute hcurrent.1 hpath h, ?_⟩
  unfold Path.absolute at h
  split at h
  · cases h
  · split at h
    · cases h
      exact habove
    · cases h
      rw [List.mem_append, not_or]
      exact ⟨hcurrent.2, habove⟩

theorem Root.spells_isStraight {current : List Name} (hcurrent : Path.IsStraight current)
    {root : Root} (hpaths : ∀ path ∈ root.paths, Utf8.IsText path ∧ Path.above ∉ Path.names path) :
    root.Spells current Path.IsStraight := by
  intro path hpath location hlocation
  obtain ⟨htext, habove⟩ := hpaths path hpath
  exact Path.isStraight_absolute hcurrent htext habove hlocation

/-! ### Changes below a location -/

/-- From one disk to the other nothing changes but at or below a location.  In particular the
    directories above the location are not touched: they stand on both disks or on neither. -/
def Disk.ChangesUnder (location : List Name) (disk disk' : Disk) : Prop :=
  ∀ other, ¬ location <+: other → disk.root.shape? other = disk'.root.shape? other

namespace Disk.ChangesUnder

variable {location other : List Name} {disk disk' : Disk}

theorem agreeAlong (h : ChangesUnder location disk disk') (hother : ¬ location <+: other) :
    AgreeAlong disk disk' other := by
  intro front hfront
  apply h
  intro hlocation
  exact hother (hlocation.trans hfront)

theorem agreeBelow (h : ChangesUnder location disk disk') (hother : ¬ location <+: other)
    (hlocation : ¬ other <+: location) (below : List Name) :
    disk.root.shape? (other ++ below) = disk'.root.shape? (other ++ below) := by
  apply h
  intro hbelow
  rcases List.prefix_or_prefix_of_prefix hbelow (List.prefix_append other below) with hway | hway
  · exact hother hway
  · exact hlocation hway

end Disk.ChangesUnder

/-! Taking an entry out of a directory and putting a leaf into one are such changes. -/

theorem Disk.changesUnder_removeAt (disk : Disk) (location : List Name) (name : Name) :
    disk.ChangesUnder (location ++ [name]) (disk.removeAt location name) := by
  intro other hother
  symm
  apply Forest.shape?_changeAt ?_ hother
  intro inside first hne
  exact Forest.find?_remove_of_ne hne inside

theorem Disk.changesUnder_putLeafAt (disk : Disk) (location : List Name) (name : Name)
    (leaf : Leaf) : disk.ChangesUnder (location ++ [name]) (disk.putLeafAt location name leaf) := by
  intro other hother
  unfold Disk.putLeafAt
  split
  · symm
    apply Forest.shape?_changeAt ?_ hother
    intro inside first hne
    exact Forest.find?_put_of_ne hne inside _
  · rfl

/-- **Telling the cache of a change keeps it coherent.**  Locations at, below and above the change
    are shown so, also those that are no text. -/
theorem Cache.Coherent.change {disk disk' : Disk} {spelled : List Name → Prop}
    (hdirect : ∀ location, spelled location → Path.IsDirect location) {cache : Cache}
    {path : String} (h : cache.Coherent disk spelled) (hdisk : disk.root.Linkless)
    (hdisk' : disk'.root.Linkless) (habsolute : Path.isAbsolute (Utf8.encode path) = true)
    (hchange : disk.ChangesUnder (Path.names (Utf8.encode path)) disk') :
    (cache.invalidate path).Coherent disk' spelled := by
  constructor
  · intro key observation hkey
    rw [path?_invalidate] at hkey
    split at hkey
    · cases hkey
    · rename_i hunder
      obtain ⟨location, hlocation, rfl, hprobe⟩ := h.paths key observation hkey
      have hdirect := hdirect location hlocation
      have hnot := mt (Path.isUnder_text_of_below habsolute hdirect.plain) hunder
      have hsame := Disk.probe_congr hdisk hdisk' hdirect (hchange.agreeAlong hnot)
      exact ⟨location, hlocation, rfl, hsame ▸ hprobe⟩
  · intro key listing hkey
    rw [listing?_invalidate] at hkey
    split at hkey
    · cases hkey
    · rename_i hunder
      obtain ⟨location, hlocation, rfl, ⟨metadata, hmetadata, htype⟩, hscan⟩ :=
        h.listings key listing hkey
      have hdirect := hdirect location hlocation
      rw [Bool.or_eq_true, not_or] at hunder
      have hbeside := mt (Path.isUnder_text_of_below habsolute hdirect.plain) hunder.1
      have habove := mt (Path.isUnder_text_of_above habsolute) hunder.2
      have halong := hchange.agreeAlong hbeside
      have hsame := Disk.metadata_congr hdisk hdisk' hdirect halong
      have hbelow := hchange.agreeBelow hbeside habove
      refine ⟨location, hlocation, rfl, ⟨metadata, hsame ▸ hmetadata, htype⟩, ?_⟩
      rw [← Disk.scan_congr hdisk hdisk' hdirect halong hbelow]
      exact hscan

/-! ### Runs -/

/-- What happens to a disk and the cache that goes with it: a snapshot by a plain observer that
    names only locations of a kind (`spelled`), or a change of the disk at or below a path, after
    which the path is invalidated. -/
inductive Watched.Step (current : List Name) (spelled : List Name → Prop) :
    Disk × Cache → Disk × Cache → Prop
  | snapshot (disk : Disk) (recipe : Recipe) (roots : List Root) (compareStrategy : CompareStrategy)
      (strategy : Strategy) (ledger : Ledger) :
      (∀ root ∈ roots, root.Spells current spelled) →
      Step current spelled (disk, ledger.cache) (disk,
        (((Vantage.plain disk current).snapshot recipe roots compareStrategy strategy).on
          ledger).2.cache)
  | change (disk disk' : Disk) (cache : Cache) (path : String) :
      Path.isAbsolute (Utf8.encode path) = true → Path.above ∉ Path.names (Utf8.encode path) →
      disk.ChangesUnder (Path.names (Utf8.encode path)) disk' → disk'.root.Linkless →
      Step current spelled (disk, cache) (disk', cache.invalidate path)

/-- The invariant of a run. -/
structure Watched.Sound (spelled : List Name → Prop) (state : Disk × Cache) : Prop where
  linkless : state.1.root.Linkless
  coherent : state.2.Coherent state.1 spelled

section Runs

variable {current : List Name} {spelled : List Name → Prop} (htexts : TellsApart spelled)
  (hdirect : ∀ location, spelled location → Path.IsDirect location)
include htexts hdirect

theorem Watched.Step.sound {state after : Disk × Cache}
    (hstep : Watched.Step current spelled state after) (h : Watched.Sound spelled state) :
    Watched.Sound spelled after := by
  cases hstep with
  | snapshot disk recipe roots compareStrategy strategy ledger hroots =>
    have hagrees := Vantage.agrees_snapshot (Vantage.faithful_plain disk current) htexts recipe
      hroots compareStrategy strategy
    exact ⟨h.linkless, hagrees.kept h.coherent⟩
  | change disk disk' cache path habsolute _ hchange hdisk' =>
    exact ⟨hdisk', h.coherent.change hdirect h.linkless hdisk' habsolute hchange⟩

theorem Watched.sound_of_run {start state : Disk × Cache} (hstart : Watched.Sound spelled start)
    (hrun : Relation.ReflTransGen (Watched.Step current spelled) start state) :
    Watched.Sound spelled state := by
  induction hrun with
  | refl => exact hstart
  | tail _ hstep ih => exact hstep.sound htexts hdirect ih

/-- **Nothing stale is ever served.**  After any run of snapshots and invalidated changes from an
    empty cache, a snapshot gives what it gives on the empty cache.  The locations that are named
    have no `..` and are told apart by their texts. -/
theorem snapshot_eq_on_empty_after_changes {start disk : Disk} {cache : Cache}
    (hstart : start.root.Linkless)
    (hrun : Relation.ReflTransGen (Watched.Step current spelled) (start, .empty) (disk, cache))
    (recipe : Recipe) {roots : List Root} (hroots : ∀ root ∈ roots, root.Spells current spelled)
    (compareStrategy : CompareStrategy) (strategy : Strategy) (pool poolOnEmpty : TextPool)
    (asked askedOnEmpty : List Question) :
    (((Vantage.plain disk current).snapshot recipe roots compareStrategy strategy).on
        ⟨cache, pool, asked⟩).1
      = (((Vantage.plain disk current).snapshot recipe roots compareStrategy strategy).on
        ⟨.empty, poolOnEmpty, askedOnEmpty⟩).1 := by
  have hsound : Watched.Sound spelled (disk, cache) :=
    Watched.sound_of_run htexts hdirect ⟨hstart, .empty⟩ hrun
  rw [hsound.coherent.snapshot htexts recipe hroots,
    Cache.Coherent.empty.snapshot htexts recipe hroots]

end Runs

/-! ### Two directories that are shown alike -/

/-- UTF-8 paths without `..`. -/
def Path.IsStraightText (path : Bytes) : Prop := Utf8.IsText path ∧ Path.above ∉ Path.names path

/-- The disk after a file `y` has been put beside the two directories. -/
def lookalikeChanged : Disk := lookalikeDisk.putLeafAt [] [0x79] (.file [] 0)

/-- Where two locations share a text something stale is served, although the cache was told of the
    change: it belongs to the other location. -/
theorem snapshot_stale_of_lookalike :
    lookalikeDisk.root.Linkless ∧
    Relation.ReflTransGen
      (Watched.Step [[0xFE]] (Path.SpelledBy [[0xFE]] Path.IsStraightText))
      (lookalikeDisk, .empty) (lookalikeChanged, lookalikeHeld.invalidate "/y") ∧
    Path.IsStraightText (Utf8.encode "/\uFFFD/x") ∧
    lookalikeCall lookalikeChanged (lookalikeHeld.invalidate "/y") = .ok lookalikeStale ∧
    lookalikeCall lookalikeChanged .empty = .ok lookalikeFresh ∧
    lookalikeStale ≠ lookalikeFresh := by
  have hsnapshot : Watched.Step [[0xFE]] (Path.SpelledBy [[0xFE]] Path.IsStraightText)
      (lookalikeDisk, .empty) (lookalikeDisk, lookalikeHeld) :=
    .snapshot lookalikeDisk .identity [.members [Utf8.encode "x"]] .ordered .absolute
      ⟨.empty, .empty, []⟩ (spells_lookalike ⟨⟨"x", rfl⟩, by decide⟩)
  have hchange : Watched.Step [[0xFE]] (Path.SpelledBy [[0xFE]] Path.IsStraightText)
      (lookalikeDisk, lookalikeHeld) (lookalikeChanged, lookalikeHeld.invalidate "/y") := by
    apply Watched.Step.change
    · decide
    · decide
    · exact lookalikeDisk.changesUnder_putLeafAt [] [0x79] (.file [] 0)
    · exact ⟨nofun, ⟨⟨trivial, trivial⟩, trivial⟩, ⟨trivial, trivial⟩, trivial⟩
  have hlinkless : lookalikeDisk.root.Linkless :=
    ⟨⟨⟨trivial, trivial⟩, trivial⟩, ⟨trivial, trivial⟩, trivial⟩
  exact ⟨hlinkless, (Relation.ReflTransGen.single hsnapshot).tail hchange,
    ⟨⟨"/\uFFFD/x", rfl⟩, by decide⟩, rfl, rfl, lookalikeStale_ne_fresh⟩

/-! ### A directory that is removed -/

/-- A directory `d` that holds a directory `e`. -/
def nestedDisk : Disk where
  root := .directory [0x64] (.directory [0x65] .nil .nil) .nil
  wellFormed := by decide

def nestedMembers : Root := .members [Utf8.encode "/d", Utf8.encode "/d/e"]

/-- The cache after a snapshot of both directories. -/
def nestedCache : Cache :=
  (((Vantage.plain nestedDisk []).snapshot .identity [nestedMembers] .ordered .absolute).on
    ⟨.empty, .empty, []⟩).2.cache

theorem snapshot_eq_on_empty_after_removal :
    nestedCache.pathCount = 2 ∧ (nestedCache.invalidate "/d//./e/").pathCount = 1 ∧
    (((Vantage.plain (nestedDisk.removeAt [[0x64]] [0x65]) []).snapshot .identity [nestedMembers]
        .ordered .absolute).on ⟨nestedCache.invalidate "/d//./e/", .empty, []⟩).1
      = (((Vantage.plain (nestedDisk.removeAt [[0x64]] [0x65]) []).snapshot .identity
        [nestedMembers] .ordered .absolute).on ⟨.empty, .empty, []⟩).1 := by
  have hspells : ∀ root ∈ [nestedMembers], root.Spells [] Path.IsStraight := by
    intro root hroot
    rw [List.mem_singleton] at hroot
    subst hroot
    apply Root.spells_isStraight (by simp [Path.IsStraight, Path.IsSpelled])
    intro path hpath
    simp only [nestedMembers, Root.paths, List.mem_cons, List.not_mem_nil, or_false] at hpath
    rcases hpath with rfl | rfl
    · exact ⟨⟨"/d", rfl⟩, by decide⟩
    · exact ⟨⟨"/d/e", rfl⟩, by decide⟩
  have hsnapshot : Watched.Step [] Path.IsStraight (nestedDisk, .empty) (nestedDisk, nestedCache) :=
    .snapshot nestedDisk .identity [nestedMembers] .ordered .absolute ⟨.empty, .empty, []⟩ hspells
  have hchange : Watched.Step [] Path.IsStraight (nestedDisk, nestedCache)
      (nestedDisk.removeAt [[0x64]] [0x65], nestedCache.invalidate "/d//./e/") := by
    apply Watched.Step.change
    · decide
    · decide
    · exact nestedDisk.changesUnder_removeAt [[0x64]] [0x65]
    · exact ⟨trivial, trivial⟩
  have hlinkless : nestedDisk.root.Linkless := ⟨⟨trivial, trivial⟩, trivial⟩
  refine ⟨by decide, by decide, ?_⟩
  exact snapshot_eq_on_empty_after_changes tellsApart_isStraight (fun _ => Path.IsStraight.direct)
    hlinkless ((Relation.ReflTransGen.single hsnapshot).tail hchange)
    .identity hspells .ordered .absolute .empty .empty [] []

end Treeprint
