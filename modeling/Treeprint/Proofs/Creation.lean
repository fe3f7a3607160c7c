import Treeprint.Proofs.Invalidation

/-!
# Writes that make directories

A write of a file may have to make directories above it.  Invalidating the path of the file drops
the listings of those directories and of all above them, but it does not drop the paths above the
file: a directory that was looked for before the write, and was missing, stays in the cache as
missing.

`probe_eq_cached_iff` says exactly what is stale after the invalidation: **a path that is left in
the cache is as a fresh probe finds it unless the write has overtaken it** (`Disk.Overtaken`).
Overtaken are the directories that were made.  There is one more case, at the edge of what can be
looked up: a name that is too long is reported as missing where the directory it is looked for in is
missing, and is an error as soon as the directory is there.
-/

namespace Treeprint

/-- A file is written at a location.  The directories above it that are missing are made, and
    nothing else changes but what was at or below the location. -/
structure Disk.Writes (location : List Name) (disk disk' : Disk) : Prop where
  file : ∃ data modified, disk'.root.shape? location = some (.leaf (.file data modified))
  kept : ∀ other shape, ¬ location <+: other → disk.root.shape? other = some shape →
    disk'.root.shape? other = some shape
  made : ∀ other, ¬ location <+: other → disk.root.shape? other = none →
    disk'.root.shape? other = none ∨ other <+: location

/-- What a write at a location turns into something else although it is not at or below it: the
    directories that have to be made, and what lies in them under a name that is too long. -/
def Disk.Overtaken (disk : Disk) (location other : List Name) : Prop :=
  ∃ made back, other = made ++ back ∧ made <+: location ∧ disk.root.shape? made = none ∧
    ∀ name ∈ back.head?, longestName < name.length

namespace Disk

variable {disk disk' : Disk} {location other : List Name}

/-! ### Looks along standing directories -/

/-- Directories that stand along the way are passed through. -/
theorem lookAlong_append {shapeAt : List Name → Option Shape} {start front back : List Name}
    (hnames : ∀ name ∈ front, name.length ≤ longestName)
    (hshape : ∀ way, way <+: front → shapeAt (start ++ way) = some .directory) :
    lookAlong shapeAt start (front ++ back) = lookAlong shapeAt (start ++ front) back := by
  induction front generalizing start with
  | nil => simp
  | cons name front ih =>
    have hname := hnames name List.mem_cons_self
    have hfirst := hshape [name] (List.cons_prefix_cons.2 ⟨rfl, List.nil_prefix⟩)
    have hrest : lookAlong shapeAt (start ++ [name]) (front ++ back)
        = lookAlong shapeAt (start ++ [name] ++ front) back := by
      apply ih
      · intro other hother
        exact hnames other (List.mem_cons_of_mem _ hother)
      · intro way hway
        have hstands := hshape (name :: way) (List.cons_prefix_cons.2 ⟨rfl, hway⟩)
        simpa using hstands
    rw [List.cons_append, lookAlong, if_neg (by omega), hfirst]
    simpa using hrest

/-- What a look finds stands at the end of the way. -/
theorem shapeAt_of_lookAlong {shapeAt : List Name → Option Shape} {start steps : List Name}
    {shape : Shape} (h : lookAlong shapeAt start steps = .ok (some shape)) :
    shapeAt (start ++ steps) = some shape := by
  induction steps generalizing start with
  | nil =>
    unfold lookAlong at h
    split at h
    · rename_i hstart
      cases h
      rw [List.append_nil, hstart]
    · cases h
  | cons step rest ih =>
    unfold lookAlong at h
    split at h
    · cases h
    · split at h
      · have hrest := ih h
        simpa using hrest
      · split at h
        · rename_i hlast
          cases h
          rw [hlast]
          assumption
        · cases h
      · split at h <;> cases h

/-- A directory that stands is reached. -/
theorem look_directory (h : disk.root.shape? location = some .directory) (back : List Name)
    (hback : ∀ name ∈ back, (0 : UInt8) ∉ name) :
    disk.look (location ++ back) = lookAlong disk.root.shape? location back := by
  obtain ⟨inside, hinside⟩ := Forest.descend?_of_shape?_directory h
  have hvalid := (disk.wellFormed.descend? hinside).1
  have hnul : (location ++ back).any (fun name => (0 : UInt8) ∈ name) = false := by
    rw [List.any_eq_false]
    intro name hname
    rcases List.mem_append.1 hname with hname | hname
    · simpa using (hvalid name hname).2.2.2.2.1
    · simpa using hback name hname
  unfold look
  have hnames : ∀ name ∈ location, name.length ≤ longestName := by
    intro name hname
    exact (hvalid name hname).2.2.2.2.2
  rw [hnul, if_neg Bool.false_ne_true, lookAlong_append hnames]
  · rfl
  · intro way hway
    obtain ⟨rest, rfl⟩ := hway
    cases rest with
    | nil => simpa using h
    | cons name rest => exact Forest.shape?_of_append h

/-! ### Probes where nothing stands -/

theorem nul_not_mem_of_metadata (hdisk : disk.root.Linkless) (h : Path.IsDirect other)
    {metadata : Metadata} (hmetadata : disk.metadata other = .ok metadata) :
    ∀ name ∈ other, (0 : UInt8) ∉ name := by
  intro name hname hnul
  have hany : other.any (fun name => (0 : UInt8) ∈ name) = true := by
    rw [List.any_eq_true]
    exact ⟨name, hname, by simpa using hnul⟩
  rw [Disk.metadata, stat_linkless hdisk h, look, if_pos hany] at hmetadata
  cases hmetadata

theorem metadata_of_vacant (hdisk : disk.root.Linkless) (h : Path.IsDirect other)
    (hvacant : disk.root.shape? other = none) {metadata : Metadata}
    (hmetadata : disk.metadata other = .ok metadata) : metadata = .missing := by
  rw [Disk.metadata, stat_linkless hdisk h] at hmetadata
  rcases hlook : disk.look other with trouble | _ | shape
  · rw [hlook] at hmetadata
    cases trouble <;> cases hmetadata
    rfl
  · rw [hlook] at hmetadata
    cases hmetadata
    rfl
  · -- a look that finds something contradicts that nothing stands
    unfold look at hlook
    split at hlook
    · cases hlook
    · have hshape := shapeAt_of_lookAlong hlook
      rw [List.nil_append, hvacant] at hshape
      cases hshape

theorem probe_of_missing (hmetadata : disk.metadata other = .ok .missing) :
    disk.probe other
      = .ok ⟨Path.text other, .ofName true (Path.lastName other), true, .missing⟩ := by
  rw [Disk.probe, hmetadata]
  rfl

/-! ### What a write overtakes -/

/-- The last location on the way from `front` to `location` that lies on a second way as well. -/
theorem exists_last_common {front location : List Name} (back : List Name)
    (hfront : front <+: location) :
    ∃ made rest, front ++ back = made ++ rest ∧ front <+: made ∧ made <+: location ∧
      ∀ name ∈ rest.head?, ¬ made ++ [name] <+: location := by
  induction back generalizing front with
  | nil => exact ⟨front, [], rfl, List.prefix_refl front, hfront, by simp⟩
  | cons name back ih =>
    by_cases hname : front ++ [name] <+: location
    · obtain ⟨made, rest, heq, hmade, hlocation, hlast⟩ := ih hname
      refine ⟨made, rest, ?_, (List.prefix_append front [name]).trans hmade, hlocation, hlast⟩
      rw [← heq, List.append_assoc, List.singleton_append]
    · exact ⟨front, name :: back, rfl, List.prefix_refl front, hfront, by simpa using hname⟩

namespace Writes

variable (hwrites : disk.Writes location disk')
include hwrites

/-- Above the file stand directories. -/
theorem directory_above {above : List Name} (habove : above <+: location) (hne : above ≠ location) :
    disk'.root.shape? above = some .directory := by
  obtain ⟨back, rfl⟩ := habove
  obtain ⟨data, modified, hfile⟩ := hwrites.file
  cases back with
  | nil => exact absurd (List.append_nil above).symm hne
  | cons name back => exact Forest.shape?_of_append hfile

theorem linkless (hdisk : disk.root.Linkless) :
    disk'.root.Linkless := by
  apply Forest.linkless_of_shape? disk'.wellFormed
  intro other target hlink
  obtain ⟨data, modified, hfile⟩ := hwrites.file
  by_cases hother : location <+: other
  · -- a file has nothing below it
    obtain ⟨back, rfl⟩ := hother
    cases back with
    | nil => simp [hfile] at hlink
    | cons name back =>
      have hdirectory := Forest.shape?_of_append hlink
      rw [hfile] at hdirectory
      cases hdirectory
  · rcases hshape : disk.root.shape? other with _ | shape
    · rcases hwrites.made other hother hshape with hnone | habove
      · rw [hlink] at hnone
        cases hnone
      · have hne : other ≠ location := by
          rintro rfl
          exact hother (List.prefix_refl other)
        rw [hwrites.directory_above habove hne] at hlink
        cases hlink
    · rw [hwrites.kept other shape hother hshape] at hlink
      obtain rfl : shape = .leaf (.link target) := Option.some.inj hlink
      exact (hdisk.descend? (Forest.descend?_of_shape?_leaf hshape)).1 target rfl
/-- Along a way where nothing has to be made nothing changes. -/
theorem agreeAlong (hother : ¬ location <+: other)
    (hstands : ∀ front, front <+: other → front <+: location → disk.root.shape? front ≠ none) :
    AgreeAlong disk disk' other := by
  intro front hfront
  have hlocation : ¬ location <+: front := by
    intro hway
    exact hother (hway.trans hfront)
  rcases hshape : disk.root.shape? front with _ | shape
  · rcases hwrites.made front hlocation hshape with hnone | hway
    · exact hnone.symm
    · exact absurd hshape (hstands front hfront hway)
  · exact (hwrites.kept front shape hlocation hshape).symm

/-- Past the last directory that was made nothing is found, as long as the name can be looked up. -/
theorem metadata_past_made {made rest : List Name} (hdisk' : disk'.root.Linkless)
    (h : Path.IsDirect (made ++ rest)) (hother : ¬ location <+: made ++ rest)
    (hmade : made <+: location) (hvacant : disk.root.shape? made = none)
    (hnul : ∀ name ∈ made ++ rest, (0 : UInt8) ∉ name) {name : Name} {back : List Name}
    (hrest : rest = name :: back) (hlength : name.length ≤ longestName)
    (hlast : ¬ made ++ [name] <+: location) :
    disk'.metadata (made ++ rest) = .ok .missing := by
  subst hrest
  have hne : made ≠ location := by
    rintro rfl
    exact hother (List.prefix_append made _)
  have hbeyond : ¬ location <+: made ++ [name] := by
    intro hway
    exact hother (hway.trans (by simp))
  have hnone : disk'.root.shape? (made ++ [name]) = none := by
    have hbefore := Forest.shape?_append_eq_none hvacant [name]
    exact (hwrites.made _ hbeyond hbefore).resolve_right hlast
  have hlook : disk'.look (made ++ name :: back)
      = if back = [] then .ok none else .error .missing := by
    have hback : ∀ other ∈ name :: back, (0 : UInt8) ∉ other := by
      intro other hother
      exact hnul other (List.mem_append_right made hother)
    rw [look_directory (hwrites.directory_above hmade hne) (name :: back) hback]
    rw [lookAlong, if_neg (by omega), hnone]
  rw [Disk.metadata, stat_linkless hdisk' h, hlook]
  by_cases hback : back = []
  · rw [if_pos hback]
    rfl
  · rw [if_neg hback]
    rfl

/-- Where a path was overtaken, a probe shows something else or fails. -/
theorem probe_ne_of_overtaken (hdisk : disk.root.Linkless) (hdisk' : disk'.root.Linkless)
    (h : Path.IsDirect other) (hother : ¬ location <+: other) {observation : Observation}
    (hprobe : disk.probe other = .ok observation) (hovertaken : disk.Overtaken location other) :
    disk'.probe other ≠ .ok observation := by
  intro hprobe'
  obtain ⟨made, back, rfl, hmade, hvacant, hlong⟩ := hovertaken
  -- before the write the path was missing
  obtain ⟨-, metadata, hmetadata, -, hmissing⟩ := Disk.probe_ok hprobe
  have hnul := nul_not_mem_of_metadata hdisk h hmetadata
  have hbefore := Forest.shape?_append_eq_none hvacant back
  rw [metadata_of_vacant hdisk h hbefore hmetadata] at hmissing
  have hkind : observation.kind = .missing := hmissing.2 rfl
  -- after it there is a directory, or the look ends with an error
  obtain ⟨-, metadata', hmetadata', -, hmissing'⟩ := Disk.probe_ok hprobe'
  have hne : made ≠ location := by
    rintro rfl
    exact hother (List.prefix_append made _)
  have hstands := hwrites.directory_above hmade hne
  have hback : ∀ name ∈ back, (0 : UInt8) ∉ name := by
    intro name hname
    exact hnul name (List.mem_append_right made hname)
  rw [Disk.metadata, stat_linkless hdisk' h, look_directory hstands back hback] at hmetadata'
  cases back with
  | nil =>
    rw [lookAlong, hstands] at hmetadata'
    cases hmetadata'
    cases hmissing'.1 hkind
  | cons name back =>
    have hname : longestName < name.length := hlong name rfl
    rw [lookAlong, if_pos hname] at hmetadata'
    cases hmetadata'

/-- Where a path was not overtaken, a probe shows the same again. -/
theorem probe_of_not_overtaken (hdisk : disk.root.Linkless) (hdisk' : disk'.root.Linkless)
    (h : Path.IsDirect other) (hother : ¬ location <+: other) {observation : Observation}
    (hprobe : disk.probe other = .ok observation) (hnot : ¬ disk.Overtaken location other) :
    disk'.probe other = .ok observation := by
  by_cases hfront : ∃ front, front <+: other ∧ front <+: location ∧ disk.root.shape? front = none
  · -- something was made on the way: past it the path is still missing
    obtain ⟨-, metadata, hmetadata, -, -⟩ := Disk.probe_ok hprobe
    have hnul := nul_not_mem_of_metadata hdisk h hmetadata
    obtain ⟨front, ⟨back, rfl⟩, hlocation, hvacant⟩ := hfront
    obtain ⟨made, rest, heq, ⟨more, rfl⟩, hmade, hlast⟩ := exists_last_common back hlocation
    rw [heq] at h hother hprobe hmetadata hnul hnot ⊢
    have hvacant' := Forest.shape?_append_eq_none hvacant more
    have hbefore := Forest.shape?_append_eq_none hvacant' rest
    rw [metadata_of_vacant hdisk h hbefore hmetadata] at hmetadata
    rw [probe_of_missing hmetadata] at hprobe
    rcases hrest : rest with _ | ⟨name, back⟩
    · exact absurd ⟨_, rest, rfl, hmade, hvacant', by simp [hrest]⟩ hnot
    · have hlength : name.length ≤ longestName := by
        by_contra hlong
        apply hnot
        refine ⟨_, rest, rfl, hmade, hvacant', ?_⟩
        simpa [hrest] using hlong
      have hafter := hwrites.metadata_past_made hdisk' h hother hmade hvacant' hnul hrest hlength
        (hlast name (by simp [hrest]))
      rw [← hrest, probe_of_missing hafter]
      exact hprobe
  · -- nothing was made on the way
    have hagree : AgreeAlong disk disk' other := by
      apply hwrites.agreeAlong hother
      intro front hother' hlocation hvacant
      exact hfront ⟨front, hother', hlocation, hvacant⟩
    rw [← probe_congr hdisk hdisk' h hagree]
    exact hprobe

/-- **What a probe showed before the write it shows after it, unless the path was overtaken.** -/
theorem probe_iff (hdisk : disk.root.Linkless) (hdisk' : disk'.root.Linkless)
    (h : Path.IsDirect other) (hother : ¬ location <+: other) {observation : Observation}
    (hprobe : disk.probe other = .ok observation) :
    disk'.probe other = .ok observation ↔ ¬ disk.Overtaken location other := by
  constructor
  · intro hprobe' hovertaken
    exact hwrites.probe_ne_of_overtaken hdisk hdisk' h hother hprobe hovertaken hprobe'
  · intro hnot
    exact hwrites.probe_of_not_overtaken hdisk hdisk' h hother hprobe hnot

end Writes

end Disk

/-- **What an invalidation leaves in the cache is what a fresh probe shows, unless the write has
    overtaken it.** -/
theorem probe_eq_cached_iff {start disk disk' : Disk} {current : List Name} {cache : Cache}
    {path : String} (hstart : start.root.Linkless)
    (hrun : Relation.ReflTransGen (Watched.Step current Path.IsStraight) (start, .empty)
      (disk, cache))
    (habsolute : Path.isAbsolute (Utf8.encode path) = true)
    (hwrites : disk.Writes (Path.names (Utf8.encode path)) disk') {key : String}
    {observation : Observation} (hkey : (cache.invalidate path).path? key = some observation)
    (ledger : Ledger) :
    ∃ other, Path.absolute current (Utf8.encode key) = some other ∧
      ((((Vantage.plain disk' current).probe other key).on ledger).1 = .ok observation ↔
        ¬ disk.Overtaken (Path.names (Utf8.encode path)) other) := by
  have hsound : Watched.Sound Path.IsStraight (disk, cache) :=
    Watched.sound_of_run tellsApart_isStraight (fun _ => Path.IsStraight.direct) ⟨hstart, .empty⟩
      hrun
  rw [Cache.path?_invalidate] at hkey
  split at hkey
  · cases hkey
  · rename_i hunder
    obtain ⟨other, hother, rfl, hprobe⟩ := hsound.coherent.paths key observation hkey
    rw [Path.isUnder_text habsolute hother.1] at hunder
    refine ⟨other, Path.absolute_text hother.1, ?_⟩
    have hagrees : Work.Agrees (fun _ => True) (Vantage.plain disk' current).MayFail
        ((Vantage.plain disk' current).probe other (Path.text other)) (disk'.probe other) :=
      Vantage.agrees_probe (Vantage.faithful_plain disk' current) other
    rw [hagrees.outcome (fun hmay => hmay rfl) trivial]
    exact hwrites.probe_iff hsound.linkless (hwrites.linkless hsound.linkless) hother.direct hunder
      hprobe

/-! ### A directory that was looked for -/

/-- The cache after a snapshot that looks for `a` on the empty disk. -/
def missingCache : Cache :=
  (((Vantage.plain .empty []).snapshot .identity [.members [Utf8.encode "/a"]] .ordered
    .absolute).on ⟨.empty, .empty, []⟩).2.cache

/-- The disk with a file `b` in a directory `a` that was made for it. -/
def writtenDisk : Disk := Disk.empty.writeFile [] (Utf8.encode "/a/b") [] 0

theorem run_missingCache :
    Relation.ReflTransGen (Watched.Step [] Path.IsStraight) (.empty, .empty)
      (.empty, missingCache) := by
  apply Relation.ReflTransGen.single
  apply Watched.Step.snapshot .empty .identity [.members [Utf8.encode "/a"]] .ordered .absolute
    ⟨.empty, .empty, []⟩
  intro root hroot
  rw [List.mem_singleton] at hroot
  subst hroot
  apply Root.spells_isStraight (by simp [Path.IsStraight, Path.IsSpelled])
  intro path hpath
  rw [Root.paths, List.mem_singleton] at hpath
  subst hpath
  exact ⟨⟨"/a", rfl⟩, by decide⟩

theorem writes_writtenDisk :
    Disk.empty.Writes (Path.names (Utf8.encode "/a/b")) writtenDisk := by
  have hroot : writtenDisk.root
      = .directory [0x61] (.leaf [0x62] (.file [] 0) .nil) .nil := by decide
  have hlocation : Path.names (Utf8.encode "/a/b") = [[0x61], [0x62]] := by decide
  rw [hlocation]
  refine ⟨⟨[], 0, by rw [hroot]; rfl⟩, ?_, ?_⟩
  · intro other shape _ hshape
    cases other with
    | nil => exact hshape
    | cons name back => cases hshape
  · intro other hother _
    rw [hroot]
    rcases other with _ | ⟨name, _ | ⟨second, back⟩⟩
    · exact .inr List.nil_prefix
    · by_cases hname : name = [0x61]
      · exact .inr (by simp [hname])
      · exact .inl (by simp [Forest.shape?, Forest.descend?_cons, Forest.find?, hname])
    · by_cases hname : name = [0x61]
      · by_cases hsecond : second = [0x62]
        · exact absurd (by simp [hname, hsecond]) hother
        · exact .inl (by
            simp [Forest.shape?, Forest.descend?_cons, Forest.find?, hname, hsecond])
      · exact .inl (by simp [Forest.shape?, Forest.descend?_cons, Forest.find?, hname])

theorem probe_eq_cached_iff_of_missing_directory :
    ∃ other, Path.absolute [] (Utf8.encode "/a") = some other ∧
      ((((Vantage.plain writtenDisk []).probe other "/a").on ⟨.empty, .empty, []⟩).1
          = .ok ⟨"/a", .ofName true "a", true, .missing⟩ ↔
        ¬ Disk.empty.Overtaken (Path.names (Utf8.encode "/a/b")) other) := by
  have hempty : Disk.empty.root.Linkless := trivial
  exact probe_eq_cached_iff hempty run_missingCache (by decide) writes_writtenDisk (by decide)
    ⟨.empty, .empty, []⟩

/-- A directory that was missing stays in the cache as missing although the write has made it. -/
theorem missing_directory_survives :
    Relation.ReflTransGen (Watched.Step [] Path.IsStraight) (.empty, .empty)
      (.empty, missingCache) ∧
    Disk.empty.Writes (Path.names (Utf8.encode "/a/b")) writtenDisk ∧
    (missingCache.invalidate "/a/b").path? "/a" = some ⟨"/a", .ofName true "a", true, .missing⟩ ∧
    (((Vantage.plain writtenDisk []).probe [[0x61]] "/a").on ⟨.empty, .empty, []⟩).1
      = .ok ⟨"/a", .ofName false "a", true, .directory⟩ :=
  ⟨run_missingCache, writes_writtenDisk, by decide, rfl⟩

end Treeprint
