import Mathlib.Data.List.Nodup
import Treeprint.Proofs.Comparing
import Treeprint.Proofs.Completeness
import Treeprint.Proofs.Touching
import Treeprint.Proofs.Transparency

/-!
# Which changes a snapshot tells of

Two disks are looked at through the same collection, one directory with all that is below it.  The
main statement is `snapshots_agree_iff`: **the snapshots agree exactly when the same ways lead below
the directory on both disks, with the same kind at the end of each and the same hash of each file**.
What else the disks hold, and when anything was modified, does not show.

A snapshot is made of the ways below the directory in order, each with its key and its content
(`Disk.snapshot_tree`).  Where all names are text a way is determined by its key, so snapshots with
the same keys have the same ways; and since the ways stand in order, the same ways in any order are
the same list (`Disk.Lists.ext`).
-/

namespace Treeprint

/-! ### What there is at a location -/

namespace Sight

def kind : Sight → Kind
  | .directory => .directory
  | .file .. => .regularFile

def data? : Sight → Option Bytes
  | .directory => none
  | .file data _ => some data

end Sight

/-- What a place shows apart from a time. -/
theorem Place.shown_untimed (place : Place) :
    place.untimed.sight?.map Sight.kind = place.sight?.map Sight.kind ∧
      place.untimed.sight?.bind Sight.data? = place.sight?.bind Sight.data? := by
  rcases place with ⟨location, inside⟩ | ⟨location, value⟩ | location
  · exact ⟨rfl, rfl⟩
  · cases value <;> exact ⟨rfl, rfl⟩
  · exact ⟨rfl, rfl⟩

namespace Disk

/-- What can be seen at a location, links followed. -/
def sight? (disk : Disk) (location : List Name) : Option Sight :=
  match disk.follow [] location with
  | .ok place => place.sight?
  | .error _ => none

def kind? (disk : Disk) (location : List Name) : Option Kind :=
  (disk.sight? location).map Sight.kind

/-- The bytes of the regular file at a location. -/
def data? (disk : Disk) (location : List Name) : Option Bytes :=
  (disk.sight? location).bind Sight.data?

/-- Two disks are the same below a location, as far as files are told apart by what `read` makes of
    their bytes. -/
structure SameBelow {α : Type} (read : Bytes → α) (disk other : Disk) (top : List Name) : Prop where
  ways : ∀ way, disk.Way top way ↔ other.Way top way
  kinds : ∀ way, disk.Way top way → disk.kind? (top ++ way) = other.kind? (top ++ way)
  files : ∀ way, disk.Way top way →
    (disk.data? (top ++ way)).map read = (other.data? (top ++ way)).map read

/-- All names below a location are text. -/
def TextBelow (disk : Disk) (top : List Name) : Prop :=
  ∀ way, disk.Way top way → ∀ name ∈ way, Utf8.IsText name

/-- Files that are in the same place on two disks have the same digest only when they have the same
    bytes. -/
def NoCollision (disk other : Disk) (top : List Name) : Prop :=
  ∀ way data data', disk.Way top way → disk.data? (top ++ way) = some data →
    other.data? (top ++ way) = some data' → Sha256.digest data = Sha256.digest data' → data = data'

/-- The content that is told of a location. -/
def contentAt (disk : Disk) (location : List Name) : Content :=
  match disk.sight? location with
  | some sight => sight.content
  | none => .missing

variable {disk other : Disk} {top : List Name}

theorem Shows.sight?_eq {way : List Name} {sight : Sight} (h : disk.Shows top way sight) :
    disk.sight? (top ++ way) = some sight := by
  obtain ⟨⟨place, hplace, hsight⟩, -⟩ := h
  rw [sight?, hplace]
  exact hsight

/-- Contents agree when kinds and digests do. -/
theorem contentAt_beq_iff {location : List Name} :
    (disk.contentAt location == other.contentAt location) = true ↔
      disk.kind? location = other.kind? location ∧
      (disk.data? location).map Sha256.digest = (other.data? location).map Sha256.digest := by
  rw [Content.beq_iff, contentAt, contentAt, kind?, kind?, data?, data?]
  rcases disk.sight? location with _ | ⟨⟩ | ⟨data, modified⟩ <;>
    rcases other.sight? location with _ | ⟨⟩ | ⟨data', modified'⟩ <;>
      simp [Sight.content, Sight.kind, Sight.data?, Content.kind, Content.hash?]

theorem SameBelow.noCollision (h : disk.SameBelow Sha256.digest other top)
    (hdistinct : disk.NoCollision other top) : disk.SameBelow id other top where
  ways := h.ways
  kinds := h.kinds
  files way hway := by
    have hfiles := h.files way hway
    rcases hdata : disk.data? (top ++ way) with _ | data <;>
      rcases hdata' : other.data? (top ++ way) with _ | data' <;>
        rw [hdata, hdata'] at hfiles
    · cases hfiles
    · cases hfiles
    · rw [hdistinct way data data' hway hdata hdata' (Option.some.inj hfiles)]

theorem SameBelow.map {α : Type} (read : Bytes → α) (h : disk.SameBelow id other top) :
    disk.SameBelow read other top where
  ways := h.ways
  kinds := h.kinds
  files way hway := by
    have hfiles := h.files way hway
    rw [Option.map_id_fun, id, id] at hfiles
    rw [hfiles]

end Disk

/-! ### Ways and their keys -/

/-- Below one location a way whose names are text is determined by its key; the location itself need
    not be text. -/
theorem Path.text_append_injOn {top way other : List Name} (hway : IsSpelled way)
    (hother : IsSpelled other) (hne : way ≠ []) (hne' : other ≠ [])
    (h : text (top ++ way) = text (top ++ other)) : way = other := by
  rw [text_append top hne false, text_append top hne' false, String.append_right_inj] at h
  apply text_injOn hway hother
  rw [← List.nil_append way, ← List.nil_append other, text_append [] hne false,
    text_append [] hne' false, h]

namespace Disk

variable {disk other : Disk} {top : List Name} {ways : List (List Name)}

theorem TextBelow.isSpelled (h : disk.TextBelow top) {way : List Name} (hway : disk.Way top way) :
    Path.IsSpelled way := by
  intro name hname
  exact ⟨(hway.valid name hname).plain, h way hway name hname⟩

theorem Lists.nodup (h : disk.Lists top ways) : ways.Nodup := by
  apply h.increasing.imp
  rintro way _ hlt rfl
  exact List.lt_irrefl way hlt

/-- The ways below a directory stand in order, so which there are says all. -/
theorem Lists.ext (h : disk.Lists top ways) {ways' : List (List Name)}
    (h' : other.Lists top ways') :
    ways = ways' ↔ ∀ way, disk.Way top way ↔ other.Way top way := by
  constructor
  · rintro rfl way
    by_cases hne : way = []
    · rw [hne]
      exact ⟨fun _ => .top, fun _ => .top⟩
    · have hcomplete := (h.complete way).symm.trans (h'.complete way)
      simpa [hne] using hcomplete
  · intro hways
    have hperm : ways.Perm ways' := by
      apply (List.perm_ext_iff_of_nodup h.nodup h'.nodup).2
      intro way
      rw [h.complete, h'.complete, hways]
    refine hperm.eq_of_pairwise ?_ h.increasing h'.increasing
    intro way way' _ _ hlt hgt
    exact absurd hgt (List.lt_asymm hlt)

/-- Different ways have different keys. -/
theorem Lists.text_injOn (h : disk.Lists top ways) (htexts : disk.TextBelow top)
    {ways' : List (List Name)} (h' : other.Lists top ways') (htexts' : other.TextBelow top)
    {way way' : List Name} (hway : way ∈ ways) (hway' : way' ∈ ways')
    (heq : Path.text (top ++ way) = Path.text (top ++ way')) : way = way' := by
  obtain ⟨hgoes, hne⟩ := (h.complete way).1 hway
  obtain ⟨hgoes', hne'⟩ := (h'.complete way').1 hway'
  exact Path.text_append_injOn (htexts.isSpelled hgoes) (htexts'.isSpelled hgoes') hne hne' heq

end Disk

/-! ### Strategies that label every entry -/

/-- The strategy takes whatever is found below a directory, under a label that is made of the path
    and of the names below the directory. -/
def Strategy.Labels (strategy : Strategy) (label : String → List String → NormalizedPath) : Prop :=
  ∀ entry : Observation, entry.isRoot = false → strategy.judge entry
    = .ok (some ⟨label entry.path entry.relative.segments, entry.content⟩)

namespace Strategy

theorem labels_absolute : absolute.Labels fun path _ => .path path :=
  fun _ _ => rfl

theorem labels_named {text : Observation → String} (label : List String → String)
    (htext : ∀ entry, text entry = label entry.relative.segments) :
    (named text).Labels fun _ segments => .path (label segments) := by
  intro entry hroot
  simp [named, isRootDirectory, hroot, htext]

theorem exists_labels {strategy : Strategy}
    (h : strategy = .absolute ∨ strategy = .relative ∨ strategy = .nameOnly) :
    ∃ label, strategy.Labels label := by
  obtain rfl | rfl | rfl := h
  · exact ⟨_, labels_absolute⟩
  · exact ⟨_, labels_named (fun segments => RelativePath.text ⟨segments, false⟩) fun _ => rfl⟩
  · exact ⟨_, labels_named (fun segments => RelativePath.lastName ⟨segments, false⟩) fun _ => rfl⟩

/-- Entries with different paths are all chosen. -/
theorem Labels.choose {strategy : Strategy} {label : String → List String → NormalizedPath}
    (h : strategy.Labels label) {entries : List Observation}
    (hroot : ∀ entry ∈ entries, entry.isRoot = false)
    (hnodup : (entries.map Observation.path).Nodup) {taken : List String}
    (htaken : ∀ entry ∈ entries, entry.path ∉ taken) :
    strategy.choose taken entries = .ok (entries.map fun entry =>
      (entry.path, ⟨label entry.path entry.relative.segments, entry.content⟩)) := by
  induction entries generalizing taken with
  | nil => rfl
  | cons entry rest ih =>
    obtain ⟨hfirst, hrest⟩ := List.forall_mem_cons.1 hroot
    obtain ⟨hfree, hlater⟩ := List.forall_mem_cons.1 htaken
    obtain ⟨hnew, hnodup⟩ := List.nodup_cons.1 hnodup
    have hothers : ∀ other ∈ rest, other.path ∉ entry.path :: taken := by
      intro other hother hmem
      rcases List.mem_cons.1 hmem with heq | hmem
      · exact hnew (heq ▸ List.mem_map_of_mem hother)
      · exact hlater other hother hmem
    rw [Strategy.choose, if_neg hfree, h entry hfirst]
    simp only [ih hrest hnodup hothers]
    rfl

end Strategy

/-! ### What a snapshot of a directory is made of -/

namespace Disk

variable {disk other : Disk} {current top : List Name} {path : Bytes} {strategy : Strategy}
  {label : String → List String → NormalizedPath} {compareStrategy : CompareStrategy}

/-- The entry that a snapshot has for a way. -/
def line (disk : Disk) (label : String → List String → NormalizedPath) (top way : List Name) :
    String × Fingerprint :=
  (Path.text (top ++ way),
    ⟨label (Path.text (top ++ way)) (way.map Utf8.decode), disk.contentAt (top ++ way)⟩)

theorem gather_root (root : Root) : disk.gather current .identity [root]
    = (disk.expand current root).map (·.flatMap Expansion.entries) := by
  have hreshape : Recipe.identity.reshape = Expansion.entries := by
    have hrun : Recipe.runOne [] = id := rfl
    funext expansion
    cases expansion <;> simp [Recipe.reshape, Recipe.run, Recipe.treeHook, Recipe.rootHook,
      Recipe.identity, Expansion.entries, hrun]
  rw [gather, hreshape]
  rcases disk.expand current root with failure | expansions
  · rfl
  · simp [gather, bind, Except.bind, pure, Except.pure, Except.map]

theorem gather_tree (hpath : Path.absolute current path = some top)
    (hdirectory : disk.IsDirectory top) :
    disk.gather current .identity [.tree path] = disk.scan top .all := by
  obtain ⟨metadata, hmetadata, htype⟩ := hdirectory
  have htree : disk.expandTree top = disk.scan top .all := by
    rw [expandTree, hmetadata]
    simp only [bind, Except.bind, withoutDirectory, htype]
  have hlocate : locate current path = .ok top := by
    rw [locate, hpath]
  rw [gather_root, expand, hlocate]
  simp only [bind, Except.bind, htree]
  rcases disk.scan top .all with failure | entries
  · rfl
  · simp [pure, Except.pure, Except.map, Expansion.entries]

/-- **A snapshot of a directory has one entry for each way below it, in order.** -/
theorem snapshot_tree {snapshot : Snapshot} (htop : ∀ name ∈ top, name.Plain)
    (hpath : Path.absolute current path = some top) (hdirectory : disk.IsDirectory top)
    (htexts : disk.TextBelow top) (hlabels : strategy.Labels label)
    (h : disk.snapshot current .identity [.tree path] compareStrategy strategy = .ok snapshot) :
    ∃ ways, disk.Lists top ways ∧
      snapshot = .ofAccepted (ways.map (disk.line label top)) compareStrategy
        strategy.isAbsolute := by
  obtain ⟨entries, chosen, hgather, hchoose, rfl⟩ := snapshot_eq_ok h
  rw [gather_tree hpath hdirectory, scan_eq htop] at hgather
  rcases hobstacle : (Survey.below disk top .all).obstacle with _ | obstacle
  · rw [hobstacle] at hgather
    cases hgather
    have hlists := Survey.lists_below hobstacle
    refine ⟨_, hlists, ?_⟩
    have hnodup : (((Survey.below disk top .all).seen.map (Sighting.entry top)).map
        Observation.path).Nodup := by
      have hkeys := List.Nodup.map_on
        (fun way hway way' hway' => hlists.text_injOn htexts hlists htexts hway hway') hlists.nodup
      rwa [List.map_map] at hkeys ⊢
    -- no path occurs twice, so the fold passes nothing over
    have hall := hlabels.choose (fun entry hentry => by
      obtain ⟨sighting, -, rfl⟩ := List.mem_map.1 hentry
      rfl) hnodup (fun _ _ => List.not_mem_nil)
    rw [hall] at hchoose
    cases hchoose
    congr 1
    rw [List.map_map, List.map_map]
    apply List.map_congr_left
    intro sighting hsighting
    have hsight := (Survey.shown_below hsighting).2.sight?_eq
    simp only [Function.comp_apply, line, contentAt, hsight]
    rfl
  · rw [hobstacle] at hgather
    cases hgather

/-- Entries for the same ways are compared by what there is at the ends of the ways. -/
theorem alike_lines_iff {ways ways' : List (List Name)} (h : disk.Lists top ways)
    (htexts : disk.TextBelow top) (h' : other.Lists top ways') (htexts' : other.TextBelow top) :
    List.Forall₂ Fingerprint.Alike (ways.map (disk.line label top))
        (ways'.map (other.line label top)) ↔
      ways = ways' ∧ ∀ way ∈ ways,
        (disk.contentAt (top ++ way) == other.contentAt (top ++ way)) = true := by
  rw [List.forall₂_map_left_iff, List.forall₂_map_right_iff]
  constructor
  · intro halike
    -- place by place the keys are the same, so the ways are
    have hways : ways = ways' := by
      obtain ⟨hlength, hget⟩ := List.forall₂_iff_get.1 halike
      apply List.ext_getElem hlength
      intro i hi hi'
      exact h.text_injOn htexts h' htexts' (List.getElem_mem hi) (List.getElem_mem hi')
        (hget i hi hi').1
    subst hways
    rw [List.forall₂_same] at halike
    exact ⟨rfl, fun way hway => (Fingerprint.beq_iff.1 (halike way hway).2).2⟩
  · rintro ⟨rfl, hcontents⟩
    rw [List.forall₂_same]
    intro way hway
    exact ⟨rfl, Fingerprint.beq_iff.2 ⟨rfl, hcontents way hway⟩⟩

theorem IsDirectory.sight?_eq (h : disk.IsDirectory top) (htop : ∀ name ∈ top, name.Plain) :
    disk.sight? top = some .directory := by
  obtain ⟨metadata, hmetadata, htype⟩ := h
  rw [Disk.metadata, stat, resolve_render htop] at hmetadata
  rw [sight?]
  rcases hfollow : disk.follow [] top with
    trouble | ⟨location, inside⟩ | ⟨location, value⟩ | location <;> rw [hfollow] at hmetadata
  · cases trouble <;> cases hmetadata
    cases htype
  · rfl
  · cases hmetadata
    cases value <;> cases htype
  · cases hmetadata
    cases htype

/-- Two disks are the same below a directory when the same ways are listed and the contents at their
    ends agree. -/
theorem sameBelow_iff {ways ways' : List (List Name)} (htop : ∀ name ∈ top, name.Plain)
    (hdirectory : disk.IsDirectory top) (hother : other.IsDirectory top)
    (h : disk.Lists top ways) (h' : other.Lists top ways') :
    disk.SameBelow Sha256.digest other top ↔
      ways = ways' ∧ ∀ way ∈ ways,
        (disk.contentAt (top ++ way) == other.contentAt (top ++ way)) = true := by
  simp only [contentAt_beq_iff, h.ext h']
  constructor
  · intro hsame
    refine ⟨hsame.ways, ?_⟩
    intro way hway
    have hgoes : disk.Way top way := ((h.complete way).1 hway).1
    exact ⟨hsame.kinds way hgoes, hsame.files way hgoes⟩
  · rintro ⟨hways, hcontents⟩
    have hends (way : List Name) (hway : disk.Way top way) :
        disk.kind? (top ++ way) = other.kind? (top ++ way) ∧
        (disk.data? (top ++ way)).map Sha256.digest
          = (other.data? (top ++ way)).map Sha256.digest := by
      by_cases hne : way = []
      · -- at the end of the empty way both have a directory
        rw [hne, List.append_nil, kind?, kind?, data?, data?, hdirectory.sight?_eq htop,
          hother.sight?_eq htop]
        exact ⟨rfl, rfl⟩
      · exact hcontents way ((h.complete way).2 ⟨hway, hne⟩)
    exact ⟨hways, fun way hway => (hends way hway).1, fun way hway => (hends way hway).2⟩

/-! ### Disks that differ in times alone -/

theorem sight?_of_untimed (h : disk.root.untimed = other.root.untimed) (location : List Name) :
    disk.kind? location = other.kind? location ∧ disk.data? location = other.data? location := by
  have hsame := follow_untimed h [] location
  rw [kind?, kind?, data?, data?, sight?, sight?]
  rcases hfollow : disk.follow [] location with trouble | place <;>
    rcases hfollow' : other.follow [] location with trouble' | place' <;>
      rw [hfollow, hfollow'] at hsame
  · exact ⟨rfl, rfl⟩
  · cases hsame
  · cases hsame
  · have huntimed : place.untimed = place'.untimed := Except.ok.inj hsame
    obtain ⟨hkind, hdata⟩ := Place.shown_untimed place
    obtain ⟨hkind', hdata'⟩ := Place.shown_untimed place'
    exact ⟨by rw [← hkind, ← hkind', huntimed], by rw [← hdata, ← hdata', huntimed]⟩

theorem sameBelow_of_untimed (h : disk.root.untimed = other.root.untimed) (top : List Name) :
    disk.SameBelow id other top where
  ways _ := ⟨Way.of_untimed h, Way.of_untimed h.symm⟩
  kinds way _ := (sight?_of_untimed h (top ++ way)).1
  files way _ := by rw [(sight?_of_untimed h (top ++ way)).2]

end Disk

/-! ### The main statement -/

/-- A plain snapshot of a root that names one path is the reference on the empty cache, whatever
    bytes the path has: the one location that comes up is told apart from no other. -/
theorem Vantage.on_snapshot_root {disk : Disk} {current top : List Name} {path : Bytes}
    (hpath : Path.absolute current path = some top) {root : Root} (hroot : root.paths = [path])
    (compareStrategy : CompareStrategy) (strategy : Strategy) (pool : TextPool)
    (asked : List Question) :
    (((Vantage.plain disk current).snapshot .identity [root] compareStrategy strategy).on
        ⟨.empty, pool, asked⟩).1
      = disk.snapshot current .identity [root] compareStrategy strategy := by
  have hspells : ∀ one ∈ [root], one.Spells current (· = top) := by
    intro one hone other hother location hlocation
    rw [List.mem_singleton.1 hone, hroot, List.mem_singleton] at hother
    rw [hother, hpath] at hlocation
    exact (Option.some.inj hlocation).symm
  exact Cache.Coherent.empty.snapshot (tellsApart_eq top) .identity hspells compareStrategy strategy
    pool asked

/-- **A snapshot of a directory tells of exactly the changes that it should.**  On two disks that
    have the directory, with text for all names below it, the snapshots agree exactly when the same
    ways lead below it, with the same kind at the end of each and the same digest of each file; or
    with the same bytes, where digests do not collide.  Times alone make no difference. -/
theorem snapshots_agree_iff {disk other : Disk} {current top : List Name} {path : Bytes}
    (hcurrent : ∀ name ∈ current, name.Plain) (hpath : Path.absolute current path = some top)
    (hdirectory : disk.IsDirectory top) (hotherDirectory : other.IsDirectory top)
    (htexts : disk.TextBelow top) (hotherTexts : other.TextBelow top)
    {strategy : Strategy}
    (hstrategy : strategy = .absolute ∨ strategy = .relative ∨ strategy = .nameOnly)
    {compareStrategy : CompareStrategy} {pool otherPool : TextPool}
    {asked otherAsked : List Question} {snapshot otherSnapshot : Snapshot}
    (hsnapshot : (((Vantage.plain disk current).snapshot .identity [.tree path] compareStrategy
      strategy).on ⟨.empty, pool, asked⟩).1 = .ok snapshot)
    (hotherSnapshot : (((Vantage.plain other current).snapshot .identity [.tree path]
      compareStrategy strategy).on ⟨.empty, otherPool, otherAsked⟩).1 = .ok otherSnapshot) :
    ((snapshot == otherSnapshot) = true ↔ disk.SameBelow Sha256.digest other top) ∧
    (disk.NoCollision other top →
      ((snapshot == otherSnapshot) = true ↔ disk.SameBelow id other top)) ∧
    (disk.root.untimed = other.root.untimed → (snapshot == otherSnapshot) = true) := by
  have htop := Path.plain_absolute hcurrent hpath
  obtain ⟨label, hlabels⟩ := Strategy.exists_labels hstrategy
  rw [Vantage.on_snapshot_root hpath rfl] at hsnapshot hotherSnapshot
  obtain ⟨ways, hlists, rfl⟩ := Disk.snapshot_tree htop hpath hdirectory htexts hlabels hsnapshot
  obtain ⟨otherWays, hotherLists, rfl⟩ :=
    Disk.snapshot_tree htop hpath hotherDirectory hotherTexts hlabels hotherSnapshot
  rw [Snapshot.ofAccepted_beq_iff, Disk.alike_lines_iff hlists htexts hotherLists hotherTexts,
    ← Disk.sameBelow_iff htop hdirectory hotherDirectory hlists hotherLists]
  refine ⟨Iff.rfl, ?_, ?_⟩
  · intro hdistinct
    exact ⟨fun hsame => hsame.noCollision hdistinct, fun hsame => hsame.map Sha256.digest⟩
  · intro huntimed
    exact (Disk.sameBelow_of_untimed huntimed top).map Sha256.digest

/-! ### A file that is written again as it was -/

/-- A directory `d` with an empty file `f` and a link `l` to it. -/
def stampedDisk : Disk where
  root := .directory [0x64] (.leaf [0x66] (.file [] 0) (.leaf [0x6C] (.link [0x66]) .nil)) .nil
  wellFormed := by decide

/-- The same, with the file written five milliseconds later. -/
def restampedDisk : Disk where
  root :=
    .directory [0x64] (.leaf [0x66] (.file [] 5000000) (.leaf [0x6C] (.link [0x66]) .nil)) .nil
  wellFormed := by decide

/-- The snapshot of the directory, with the time of the file. -/
def stampedSnapshot (modified : UInt64) : Snapshot :=
  .ofEntries [("/d/f", ⟨.path "f", .regularFile ⟨Sha256.digest []⟩ modified⟩),
    ("/d/l", ⟨.path "l", .regularFile ⟨Sha256.digest []⟩ modified⟩)] .ordered false

theorem snapshots_agree_iff_restamped :
    stampedSnapshot 0 ≠ stampedSnapshot 5 ∧ (stampedSnapshot 0 == stampedSnapshot 5) = true ∧
      stampedDisk.SameBelow Sha256.digest restampedDisk [[0x64]] := by
  have htext (disk : Disk) (hlists : disk.Lists [[0x64]] [[[0x66]], [[0x6C]]]) :
      disk.TextBelow [[0x64]] := by
    intro way hway name hname
    by_cases hne : way = []
    · simp [hne] at hname
    · have hmem := (hlists.complete way).2 ⟨hway, hne⟩
      simp only [List.mem_cons, List.not_mem_nil, or_false] at hmem
      rcases hmem with rfl | rfl
      · exact ⟨"f", (List.mem_singleton.1 hname).symm⟩
      · exact ⟨"l", (List.mem_singleton.1 hname).symm⟩
  have hsnapshot : (((Vantage.plain stampedDisk []).snapshot .identity [.tree (Utf8.encode "/d")]
      .ordered .relative).on ⟨.empty, .empty, []⟩).1 = .ok (stampedSnapshot 0) := rfl
  have hlater : (((Vantage.plain restampedDisk []).snapshot .identity [.tree (Utf8.encode "/d")]
      .ordered .relative).on ⟨.empty, .empty, []⟩).1 = .ok (stampedSnapshot 5) := rfl
  obtain ⟨hagree, -, htimes⟩ := snapshots_agree_iff (by simp) (show Path.absolute [] _ = _ from rfl)
    ⟨_, rfl, rfl⟩ ⟨_, rfl, rfl⟩ (htext stampedDisk (Survey.lists_below rfl))
    (htext restampedDisk (Survey.lists_below rfl)) (.inr (.inl rfl)) hsnapshot hlater
  have hsame : (stampedSnapshot 0 == stampedSnapshot 5) = true := htimes rfl
  refine ⟨?_, hsame, hagree.1 hsame⟩
  intro heq
  have hentries := congrArg Snapshot.entries heq
  simp [stampedSnapshot, Snapshot.ofEntries] at hentries

end Treeprint
