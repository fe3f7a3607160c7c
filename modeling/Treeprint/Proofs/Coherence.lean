import Treeprint.Proofs.Fresh

/-!
# Coherent caches, and calls on them

A cache is *coherent* with a disk when all that it holds is what a fresh look would give now.  Its
keys are texts, so coherence speaks of the locations that they are the texts of; which locations
come up is left open (`spelled`), as long as different ones have different texts.

Every call keeps a cache coherent, whether it succeeds or not, and on a coherent cache it ends as
the reference of `Fresh` does.  A faithful observer may fail now and then: a call may then fail as
well, but what it leaves in the cache is right.
-/

namespace Treeprint

/-- An observer that tells of a disk what is there, whenever it answers at all. -/
structure Observer.Faithful (observer : Observer) (disk : Disk) : Prop where
  stat : ∀ count path, observer.stat count path = disk.stat [] path ∨
    ∃ kind, observer.stat count path = .error kind
  hash : ∀ count path metadata, observer.hash count path metadata = disk.hash [] path ∨
    ∃ kind, observer.hash count path metadata = .error kind

theorem Observer.faithful_ofDisk (disk : Disk) : (Observer.ofDisk disk).Faithful disk :=
  ⟨fun _ _ => .inl rfl, fun _ _ _ => .inl rfl⟩

/-- All that a cache holds is what a fresh look at the disk gives. -/
structure Cache.Coherent (disk : Disk) (spelled : List Name → Prop) (cache : Cache) : Prop where
  paths : ∀ key observation, cache.path? key = some observation →
    ∃ location, spelled location ∧ Path.text location = key ∧
      disk.probe location = .ok observation
  listings : ∀ key listing, cache.listing? key = some listing →
    ∃ location, spelled location ∧ Path.text location = key ∧ disk.IsDirectory location ∧
      disk.scan location .all = .ok listing.entries

/-- The paths that a root names. -/
def Root.paths : Root → List Bytes
  | .members paths => paths
  | .filtered directory _ => [directory]
  | .tree directory => [directory]

/-- All that a root's paths spell has a property. -/
def Root.Spells (current : List Name) (spelled : List Name → Prop) (root : Root) : Prop :=
  ∀ path ∈ root.paths, ∀ location, Path.absolute current path = some location → spelled location

/-- Different locations that come up have different texts. -/
def TellsApart (spelled : List Name → Prop) : Prop :=
  ∀ location other, spelled location → spelled other →
    Path.text location = Path.text other → location = other

/-- One location is told apart from no other. -/
theorem tellsApart_eq (top : List Name) : TellsApart (· = top) := by
  rintro location other rfl rfl -
  rfl

/-! ### Probing shows the path that was probed -/

theorem Disk.content_kind {disk : Disk} {location : List Name} {metadata : Metadata}
    {content : Content} (h : disk.content location metadata = .ok content) :
    content.kind = .regularFile := by
  unfold Disk.content at h
  split at h
  · cases h
    rfl
  · cases h

/-- A probe tells of the path that was probed, and of the kind that is there. -/
theorem Disk.probe_ok {disk : Disk} {location : List Name} {observation : Observation}
    (h : disk.probe location = .ok observation) :
    observation.path = Path.text location ∧ ∃ metadata, disk.metadata location = .ok metadata ∧
      (observation.kind = .directory ↔ metadata.type = .directory) ∧
      (observation.kind = .missing ↔ metadata.type = .missing) := by
  unfold Disk.probe at h
  rcases hmetadata : disk.metadata location with failure | metadata
  · rw [hmetadata] at h
    cases h
  · rw [hmetadata] at h
    simp only [bind, Except.bind] at h
    split at h
    · rename_i htype
      cases h
      refine ⟨rfl, metadata, rfl, ?_⟩
      simp [htype, Observation.kind, Content.kind]
    · rename_i htype
      cases h
      refine ⟨rfl, metadata, rfl, ?_⟩
      simp [htype, Observation.kind, Content.kind]
    · rename_i htype
      rcases hcontent : disk.content location metadata with failure | content
      · rw [hcontent] at h
        cases h
      · rw [hcontent] at h
        cases h
        have hfile : content.kind = .regularFile := Disk.content_kind hcontent
        refine ⟨rfl, metadata, rfl, ?_⟩
        simp [htype, Observation.kind, hfile]
    · cases h

/-! ### Coherence through single operations -/

namespace Cache.Coherent

variable {disk : Disk} {spelled : List Name → Prop} {cache : Cache}

theorem empty : Coherent disk spelled .empty := by
  constructor
  · intro key observation hkey
    rw [path?_empty] at hkey
    cases hkey
  · intro key listing hkey
    rw [listing?_empty] at hkey
    cases hkey

/-- A cache that holds less is coherent too. -/
theorem mono {less : Cache} (h : Coherent disk spelled cache)
    (hpaths : ∀ key, less.path? key = none ∨ less.path? key = cache.path? key)
    (hlistings : ∀ key, less.listing? key = none ∨ less.listing? key = cache.listing? key) :
    Coherent disk spelled less := by
  constructor
  · intro key observation hkey
    rcases hpaths key with hnone | hsame
    · rw [hnone] at hkey
      cases hkey
    · exact h.paths key observation (hsame ▸ hkey)
  · intro key listing hkey
    rcases hlistings key with hnone | hsame
    · rw [hnone] at hkey
      cases hkey
    · exact h.listings key listing (hsame ▸ hkey)

theorem removePath (path : String) (h : Coherent disk spelled cache) :
    Coherent disk spelled (cache.removePath path).2 := by
  apply h.mono
  · intro key
    rw [path?_removePath]
    split <;> simp
  · intro key
    exact .inr (cache.listing?_removePath path key)

theorem removeListing (path : String) (h : Coherent disk spelled cache) :
    Coherent disk spelled (cache.removeListing path).2 := by
  apply h.mono
  · intro key
    exact .inr (cache.path?_removeListing path key)
  · intro key
    rw [listing?_removeListing]
    split <;> simp

theorem invalidate (path : String) (h : Coherent disk spelled cache) :
    Coherent disk spelled (cache.invalidate path) := by
  apply h.mono
  · intro key
    rw [path?_invalidate]
    split <;> simp
  · intro key
    rw [listing?_invalidate]
    split <;> simp

theorem putPath {location : List Name} {observation : Observation}
    (h : Coherent disk spelled cache) (hspelled : spelled location)
    (hprobe : disk.probe location = .ok observation) :
    Coherent disk spelled (cache.putPath observation) := by
  constructor
  · intro key other hkey
    rw [path?_putPath] at hkey
    split at hkey
    · rename_i heq
      cases hkey
      exact ⟨location, hspelled, by rw [heq, (Disk.probe_ok hprobe).1], hprobe⟩
    · exact h.paths key other hkey
  · intro key listing hkey
    rw [listing?_putPath] at hkey
    exact h.listings key listing hkey

theorem putListing {location : List Name} {entries : List Observation}
    (h : Coherent disk spelled cache) (hspelled : spelled location)
    (hdirectory : disk.IsDirectory location) (hscan : disk.scan location .all = .ok entries) :
    Coherent disk spelled (cache.putListing ⟨Path.text location, entries⟩) := by
  constructor
  · intro key observation hkey
    rw [path?_putListing] at hkey
    exact h.paths key observation hkey
  · intro key listing hkey
    rw [listing?_putListing] at hkey
    split at hkey
    · rename_i heq
      cases hkey
      exact ⟨location, hspelled, heq.symm, hdirectory, hscan⟩
    · exact h.listings key listing hkey

end Cache.Coherent

/-! ### Looking at the disk -/

namespace Vantage

variable {vantage : Vantage}

/-- Out-of-turn failures are allowed to all observers but the plain one. -/
def MayFail (vantage : Vantage) : Prop := vantage.observer ≠ .ofDisk vantage.disk

theorem stat_faithful (h : vantage.observer.Faithful vantage.disk) (count : Nat) (path : Bytes) :
    vantage.observer.stat count path = vantage.disk.stat [] path ∨
      vantage.MayFail ∧ ∃ kind, vantage.observer.stat count path = .error kind := by
  by_cases hplain : vantage.observer = .ofDisk vantage.disk
  · exact .inl (by rw [hplain]; rfl)
  · exact (h.stat count path).imp_right fun herror => ⟨hplain, herror⟩

theorem hash_faithful (h : vantage.observer.Faithful vantage.disk) (count : Nat) (path : Bytes)
    (metadata : Metadata) :
    vantage.observer.hash count path metadata = vantage.disk.hash [] path ∨
      vantage.MayFail ∧ ∃ kind, vantage.observer.hash count path metadata = .error kind := by
  by_cases hplain : vantage.observer = .ofDisk vantage.disk
  · exact .inl (by rw [hplain]; rfl)
  · exact (h.hash count path metadata).imp_right fun herror => ⟨hplain, herror⟩

theorem on_stat (vantage : Vantage) (location : List Name) (ledger : Ledger) :
    (vantage.stat location).on ledger =
      (match vantage.observer.stat ledger.asked.length (Path.render location) with
        | .ok metadata => .ok metadata
        | .error kind => .error (.io (Path.render location) kind),
      { ledger with asked := ledger.asked ++ [.stat (Path.render location)] }) := by
  rw [stat, Work.on_bind_ok (Work.on_get ledger), Work.on_bind_ok (Work.on_ask _ ledger)]
  rcases vantage.observer.stat ledger.asked.length (Path.render location) with kind | metadata <;>
    rfl

theorem on_content (vantage : Vantage) (location : List Name) (metadata : Metadata)
    (ledger : Ledger) :
    (vantage.content location metadata).on ledger =
      (match vantage.observer.hash ledger.asked.length (Path.render location) metadata with
        | .ok hash => .ok (.regularFile hash metadata.modified)
        | .error kind => .error (.io (Path.render location) kind),
      { ledger with asked := ledger.asked ++ [.hash (Path.render location)] }) := by
  rw [content, Work.on_bind_ok (Work.on_get ledger), Work.on_bind_ok (Work.on_ask _ ledger)]
  rcases vantage.observer.hash ledger.asked.length (Path.render location) metadata with
    kind | hash <;> rfl

variable {keeps : Cache → Prop}

theorem agrees_stat (h : vantage.observer.Faithful vantage.disk) (location : List Name) :
    Work.Agrees keeps vantage.MayFail (vantage.stat location) (vantage.disk.metadata location) := by
  intro ledger hledger
  rw [on_stat]
  refine ⟨hledger, ?_⟩
  rcases stat_faithful h ledger.asked.length (Path.render location) with heq | ⟨hmay, kind, heq⟩
  · exact .inl (by rw [heq]; rfl)
  · exact .inr ⟨hmay, .io (Path.render location) kind, by rw [heq]⟩

theorem agrees_content (h : vantage.observer.Faithful vantage.disk) (location : List Name)
    (metadata : Metadata) :
    Work.Agrees keeps vantage.MayFail (vantage.content location metadata)
      (vantage.disk.content location metadata) := by
  intro ledger hledger
  rw [on_content]
  refine ⟨hledger, ?_⟩
  rcases hash_faithful h ledger.asked.length (Path.render location) metadata with
    heq | ⟨hmay, kind, heq⟩
  · exact .inl (by rw [heq]; rfl)
  · exact .inr ⟨hmay, .io (Path.render location) kind, by rw [heq]⟩

theorem agrees_probe (h : vantage.observer.Faithful vantage.disk) (location : List Name) :
    Work.Agrees keeps vantage.MayFail (vantage.probe location (Path.text location))
      (vantage.disk.probe location) := by
  apply Work.Agrees.bind (agrees_stat h location)
  intro metadata _
  cases metadata.type with
  | missing => exact Work.agrees_pure _
  | directory => exact Work.agrees_pure _
  | regularFile =>
    apply Work.Agrees.bind (agrees_content h location metadata)
    intro content _
    exact Work.agrees_pure _
  | unrecognized description => exact Work.agrees_throw _

theorem agrees_observe (h : vantage.observer.Faithful vantage.disk) (top : List Name)
    (sighting : Sighting) :
    Work.Agrees keeps vantage.MayFail (vantage.observe top sighting)
      (vantage.disk.observe top sighting) := by
  unfold Vantage.observe Disk.observe
  cases sighting.sight with
  | directory =>
    apply Work.Agrees.after_intern
    exact Work.agrees_pure _
  | file data modified =>
    apply Work.Agrees.bind (agrees_content h _ _)
    intro content _
    apply Work.Agrees.after_intern
    exact Work.agrees_pure _

theorem agrees_observeAll (h : vantage.observer.Faithful vantage.disk) (top : List Name)
    (sightings : List Sighting) :
    Work.Agrees keeps vantage.MayFail (vantage.observeAll top sightings)
      (vantage.disk.observeAll top sightings) := by
  induction sightings with
  | nil => exact Work.agrees_pure _
  | cons sighting rest ih =>
    apply Work.Agrees.bind (agrees_observe h top sighting)
    intro entry _
    apply Work.Agrees.bind ih
    intro entries _
    exact Work.agrees_pure _

theorem agrees_scan (h : vantage.observer.Faithful vantage.disk) (top : List Name)
    (filter : Survey.Filter) :
    Work.Agrees keeps vantage.MayFail (vantage.scan top filter)
      (vantage.disk.scan top filter) := by
  apply Work.Agrees.bind (agrees_observeAll h top _)
  intro entries _
  cases (Survey.below vantage.disk top filter).obstacle with
  | some obstacle => exact Work.agrees_throw _
  | none => exact Work.agrees_pure _

/-! ### Members and trees on a coherent cache -/

variable {spelled : List Name → Prop}

theorem agrees_member (h : vantage.observer.Faithful vantage.disk) (htexts : TellsApart spelled)
    {location : List Name} (hlocation : spelled location) :
    Work.Agrees (Cache.Coherent vantage.disk spelled) vantage.MayFail
      (vantage.member location (Path.text location)) (vantage.disk.probe location) := by
  apply Work.Agrees.after_get
  intro ledger hledger
  rcases hkey : ledger.cache.path? (Path.text location) with _ | observation
  · -- not remembered: probed, and put into the cache
    have hprobed : Work.Agrees (Cache.Coherent vantage.disk spelled) vantage.MayFail
        (vantage.probe location (Path.text location)) (vantage.disk.probe location) :=
      agrees_probe h location
    refine hprobed.remembered ?_ ledger hledger
    intro observation cache hprobe hcache
    exact hcache.putPath hlocation hprobe
  · -- remembered: the observation of a fresh look
    obtain ⟨other, hother, htext, hprobe⟩ := hledger.paths _ _ hkey
    rw [htexts other location hother hlocation htext] at hprobe
    exact ⟨hledger, .inl hprobe.symm⟩

theorem agrees_contents (h : vantage.observer.Faithful vantage.disk) (htexts : TellsApart spelled)
    {location : List Name} (hlocation : spelled location)
    (hdirectory : vantage.disk.IsDirectory location) :
    Work.Agrees (Cache.Coherent vantage.disk spelled) vantage.MayFail
      (vantage.contents location (Path.text location)) (vantage.disk.scan location .all) := by
  apply Work.Agrees.after_get
  intro ledger hledger
  rcases hkey : ledger.cache.listing? (Path.text location) with _ | listing
  · have hscanned : Work.Agrees (Cache.Coherent vantage.disk spelled) vantage.MayFail
        (vantage.scan location .all) (vantage.disk.scan location .all) :=
      agrees_scan h location .all
    refine hscanned.remembered ?_ ledger hledger
    intro entries cache hscan hcache
    exact hcache.putListing hlocation hdirectory hscan
  · obtain ⟨other, hother, htext, -, hscan⟩ := hledger.listings _ _ hkey
    rw [htexts other location hother hlocation htext] at hscan
    exact ⟨hledger, .inl hscan.symm⟩

theorem agrees_absolute (path : Bytes) :
    Work.Agrees keeps vantage.MayFail (vantage.absolute path)
      (Disk.locate vantage.current path) := by
  unfold Vantage.absolute Disk.locate
  cases Path.absolute vantage.current path with
  | some location => exact Work.agrees_pure _
  | none => exact Work.agrees_throw _

theorem absolute_of_locate {current location : List Name} {path : Bytes}
    (h : Disk.locate current path = .ok location) :
    Path.absolute current path = some location := by
  unfold Disk.locate at h
  split at h
  · rename_i heq
    cases h
    exact heq
  · cases h

theorem agrees_expandMember (h : vantage.observer.Faithful vantage.disk)
    (htexts : TellsApart spelled) {path : Bytes}
    (hpath : ∀ location, Path.absolute vantage.current path = some location → spelled location) :
    Work.Agrees (Cache.Coherent vantage.disk spelled) vantage.MayFail (vantage.expandMember path)
      (vantage.disk.expandMember vantage.current path) := by
  apply Work.Agrees.bind (agrees_absolute path)
  intro location hlocate
  have hlocation := hpath location (absolute_of_locate hlocate)
  apply Work.Agrees.after_intern
  apply Work.Agrees.bind (agrees_member h htexts hlocation)
  intro observation hprobe
  cases hkind : observation.kind with
  | missing => exact Work.agrees_pure _
  | regularFile => exact Work.agrees_pure _
  | directory =>
    obtain ⟨-, metadata, hmetadata, hdirectory, -⟩ := Disk.probe_ok hprobe
    have hdirectory : vantage.disk.IsDirectory location := ⟨metadata, hmetadata, hdirectory.1 hkind⟩
    apply Work.Agrees.bind (agrees_contents h htexts hlocation hdirectory)
    intro contents _
    exact Work.agrees_pure _

theorem agrees_expandMembers (h : vantage.observer.Faithful vantage.disk)
    (htexts : TellsApart spelled) {paths : List Bytes}
    (hpaths : ∀ path ∈ paths, ∀ location,
      Path.absolute vantage.current path = some location → spelled location) :
    Work.Agrees (Cache.Coherent vantage.disk spelled) vantage.MayFail
      (vantage.expandMembers paths) (vantage.disk.expandMembers vantage.current paths) := by
  induction paths with
  | nil => exact Work.agrees_pure _
  | cons path paths ih =>
    have hrest := ih fun other hother => hpaths other (List.mem_cons_of_mem _ hother)
    apply Work.Agrees.bind (agrees_expandMember h htexts (hpaths path List.mem_cons_self))
    intro expansion _
    apply Work.Agrees.bind hrest
    intro expansions _
    exact Work.agrees_pure _

theorem agrees_withoutDirectory (h : vantage.observer.Faithful vantage.disk)
    (location : List Name) (metadata : Metadata) :
    Work.Agrees keeps vantage.MayFail (vantage.withoutDirectory location metadata)
      (vantage.disk.withoutDirectory location metadata) := by
  unfold Vantage.withoutDirectory Disk.withoutDirectory
  cases metadata.type with
  | missing => exact Work.agrees_pure _
  | directory => exact agrees_scan h location .all
  | regularFile =>
    apply Work.Agrees.bind (agrees_content h location metadata)
    intro content _
    apply Work.Agrees.after_intern
    exact Work.agrees_pure _
  | unrecognized description => exact Work.agrees_throw _

theorem agrees_expandTree (h : vantage.observer.Faithful vantage.disk)
    (htexts : TellsApart spelled) {location : List Name} (hlocation : spelled location) :
    Work.Agrees (Cache.Coherent vantage.disk spelled) vantage.MayFail
      (vantage.expandTree location) (vantage.disk.expandTree location) := by
  apply Work.Agrees.after_intern
  apply Work.Agrees.after_get
  intro ledger hledger
  rcases hkey : ledger.cache.listing? (Path.text location) with _ | listing
  · refine Work.Agrees.bind (agrees_stat h location) (fun metadata hmetadata => ?_) ledger hledger
    cases htype : metadata.type with
    | directory =>
      have hscan := agrees_contents h htexts hlocation ⟨metadata, hmetadata, htype⟩
      simpa only [Disk.withoutDirectory, htype] using hscan
    | missing => exact agrees_withoutDirectory h location metadata
    | regularFile => exact agrees_withoutDirectory h location metadata
    | unrecognized description => exact agrees_withoutDirectory h location metadata
  · -- a listing is kept only of what is a directory
    obtain ⟨other, hother, htext, ⟨metadata, hmetadata, htype⟩, hscan⟩ :=
      hledger.listings _ _ hkey
    rw [htexts other location hother hlocation htext] at hscan hmetadata
    have htree : vantage.disk.expandTree location = .ok listing.entries := by
      unfold Disk.expandTree Disk.withoutDirectory
      rw [hmetadata]
      simp only [bind, Except.bind, htype, hscan]
    exact ⟨hledger, .inl htree.symm⟩

theorem agrees_expandFiltered (h : vantage.observer.Faithful vantage.disk) (location : List Name)
    (restriction : Restriction) :
    Work.Agrees keeps vantage.MayFail (vantage.expandFiltered location restriction)
      (vantage.disk.expandFiltered location restriction) := by
  apply Work.Agrees.bind (agrees_stat h location)
  intro metadata _
  cases metadata.type with
  | directory =>
    cases restriction.filter with
    | ok filter => exact agrees_scan h location filter
    | error failure => exact Work.agrees_throw _
  | missing => exact agrees_withoutDirectory h location metadata
  | regularFile => exact agrees_withoutDirectory h location metadata
  | unrecognized description => exact agrees_withoutDirectory h location metadata

/-- **Expanding a root on a coherent cache shows what a fresh look shows.** -/
theorem agrees_expand (h : vantage.observer.Faithful vantage.disk) (htexts : TellsApart spelled)
    {root : Root} (hroot : root.Spells vantage.current spelled) :
    Work.Agrees (Cache.Coherent vantage.disk spelled) vantage.MayFail (vantage.expand root)
      (vantage.disk.expand vantage.current root) := by
  cases root with
  | members paths => exact agrees_expandMembers h htexts hroot
  | filtered directory restriction =>
    apply Work.Agrees.bind (agrees_absolute directory)
    intro location _
    apply Work.Agrees.bind (agrees_expandFiltered h location restriction)
    intro entries _
    exact Work.agrees_pure _
  | tree directory =>
    apply Work.Agrees.bind (agrees_absolute directory)
    intro location hlocate
    have hlocation := hroot directory (by simp [Root.paths]) location (absolute_of_locate hlocate)
    apply Work.Agrees.bind (agrees_expandTree h htexts hlocation)
    intro entries _
    exact Work.agrees_pure _

/-! ### Snapshots on a coherent cache -/

theorem agrees_gather (h : vantage.observer.Faithful vantage.disk) (htexts : TellsApart spelled)
    (recipe : Recipe) {roots : List Root}
    (hroots : ∀ root ∈ roots, root.Spells vantage.current spelled) :
    Work.Agrees (Cache.Coherent vantage.disk spelled) vantage.MayFail
      (vantage.gather recipe roots) (vantage.disk.gather vantage.current recipe roots) := by
  induction roots with
  | nil => exact Work.agrees_pure _
  | cons root roots ih =>
    have hrest := ih fun other hother => hroots other (List.mem_cons_of_mem _ hother)
    apply Work.Agrees.bind (agrees_expand h htexts (hroots root List.mem_cons_self))
    intro expansions _
    apply Work.Agrees.bind hrest
    intro entries _
    exact Work.agrees_pure _

end Vantage

theorem Strategy.agrees_fold {keeps : Cache → Prop} {mayFail : Prop} (strategy : Strategy)
    (taken : List String) (entries : List Observation) :
    Work.Agrees keeps mayFail (strategy.fold taken entries) (strategy.choose taken entries) := by
  induction entries generalizing taken with
  | nil => exact Work.agrees_pure _
  | cons entry rest ih =>
    unfold Strategy.fold Strategy.choose
    by_cases htaken : entry.path ∈ taken
    · rw [if_pos htaken, if_pos htaken]
      exact ih taken
    · rw [if_neg htaken, if_neg htaken]
      refine .after_step (a := ()) ?_ ?_
      · intro ledger
        obtain ⟨pool, hpool⟩ := Work.on_internAll (strategy.pooled entry) ledger
        exact ⟨_, hpool, rfl⟩
      · rcases strategy.judge entry with failure | _ | fingerprint
        · exact Work.agrees_throw _
        · exact ih taken
        · apply Work.Agrees.bind (ih _)
          intro entries _
          exact Work.agrees_pure _

/-- **A snapshot on a coherent cache is what a fresh look gives.** -/
theorem Vantage.agrees_snapshot {vantage : Vantage} {spelled : List Name → Prop}
    (h : vantage.observer.Faithful vantage.disk) (htexts : TellsApart spelled) (recipe : Recipe)
    {roots : List Root} (hroots : ∀ root ∈ roots, root.Spells vantage.current spelled)
    (compareStrategy : CompareStrategy) (strategy : Strategy) :
    Work.Agrees (Cache.Coherent vantage.disk spelled) vantage.MayFail
      (vantage.snapshot recipe roots compareStrategy strategy)
      (vantage.disk.snapshot vantage.current recipe roots compareStrategy strategy) := by
  unfold Vantage.snapshot Disk.snapshot
  cases roots with
  | nil => exact Work.agrees_pure _
  | cons root roots =>
    apply Work.Agrees.bind (agrees_gather h htexts recipe hroots)
    intro entries _
    apply Work.Agrees.bind (strategy.agrees_fold [] entries)
    intro fingerprints _
    unfold Snapshot.ofAccepted
    split
    · exact Work.agrees_pure _
    · exact Work.agrees_pure _

end Treeprint
