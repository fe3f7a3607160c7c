import Treeprint.Proofs.Inventory
import Treeprint.Proofs.Pruning
import Treeprint.Proofs.Reporting

/-!
# What is asked, exactly

Asking too much would not show in what a call gives, so here it is said which questions a call puts
to its observer, and in which order.  A collection is taken apart into its members and trees, and
each of these is *visited*.  What a visit asks is told by the ledger that it begins with
(`Visit.questions`), and the code asks just this on each of its three routes
(`Vantage.leaves_visit`).  The visits of a run follow each other (`Vantage.Course`): each begins
with the ledger that the one before it has left, and by induction so does what is remembered.

The main statement is `snapshot_asks_exactly`.
-/

namespace Treeprint

/-! ### Questions -/

namespace Question

/-- The path that is looked at. -/
def stat? : Question → Option Bytes
  | .stat path => some path
  | .hash _ => none

/-- The path that is hashed. -/
def hash? : Question → Option Bytes
  | .stat _ => none
  | .hash path => some path

theorem filterMap_stat?_hash (paths : List Bytes) :
    (paths.map Question.hash).filterMap stat? = [] := by
  simp [List.filterMap_map, Function.comp_def, stat?]

theorem filterMap_hash?_hash (paths : List Bytes) :
    (paths.map Question.hash).filterMap hash? = paths := by
  simp [List.filterMap_map, Function.comp_def, hash?]

end Question

/-! ### What is remembered -/

namespace Cache

theorem path?_putPath_eq_none_iff {cache : Cache} {observation : Observation} {key : String} :
    (cache.putPath observation).path? key = none ↔
      cache.path? key = none ∧ key ≠ observation.path := by
  rw [path?_putPath]
  by_cases h : key = observation.path <;> simp [h]

theorem listing?_putListing_eq_none_iff {cache : Cache} {listing : Listing} {key : String} :
    (cache.putListing listing).listing? key = none ↔
      cache.listing? key = none ∧ key ≠ listing.path := by
  rw [listing?_putListing]
  by_cases h : key = listing.path <;> simp [h]

end Cache

/-! ### Below a directory -/

/-- The paths of the files among what was seen below `top`. -/
def filePaths (top : List Name) (sightings : List Sighting) : List Bytes :=
  (sightings.filter Sighting.isFile).map fun sighting => Path.render (top ++ sighting.names)

/-- The texts of the entries that are regular files. -/
def fileKeys (entries : List Observation) : List String :=
  (entries.filter fun entry => entry.kind = .regularFile).map Observation.path

namespace Vantage

variable {vantage : Vantage} {location top : List Name} {key : String} {ledger after : Ledger}

/-- A file is asked about once, a directory never. -/
theorem asked_of_observe {sighting : Sighting} {entry : Observation}
    (h : (vantage.observe top sighting).on ledger = (.ok entry, after)) :
    after.asked = ledger.asked ++ (filePaths top [sighting]).map .hash ∧
      after.cache = ledger.cache ∧
      fileKeys [entry] = (filePaths top [sighting]).map Utf8.decode := by
  obtain ⟨names, sight⟩ := sighting
  cases sight with
  | directory =>
    cases h
    exact ⟨(List.append_nil _).symm, rfl, rfl⟩
  | file data modified =>
    obtain ⟨content, middle, hcontent, hrest⟩ := Work.on_bind_eq_ok h
    rw [on_content] at hcontent
    rcases hhash : vantage.observer.hash ledger.asked.length (Path.render (top ++ names))
      (Leaf.metadata (.file data modified)) with kind | hash
    · rw [hhash] at hcontent
      cases hcontent
    · rw [hhash] at hcontent
      cases hcontent
      rw [Work.on_bind_ok (Work.on_intern _ _)] at hrest
      cases hrest
      exact ⟨rfl, rfl, rfl⟩

theorem filePaths_cons (top : List Name) (sighting : Sighting) (rest : List Sighting) :
    filePaths top (sighting :: rest) = filePaths top [sighting] ++ filePaths top rest := by
  rw [filePaths, ← List.singleton_append, List.filter_append, List.map_append]
  rfl

theorem fileKeys_cons (entry : Observation) (rest : List Observation) :
    fileKeys (entry :: rest) = fileKeys [entry] ++ fileKeys rest := by
  rw [fileKeys, ← List.singleton_append, List.filter_append, List.map_append]
  rfl

theorem asked_of_observeAll {sightings : List Sighting} {entries : List Observation}
    (h : (vantage.observeAll top sightings).on ledger = (.ok entries, after)) :
    after.asked = ledger.asked ++ (filePaths top sightings).map .hash ∧
      after.cache = ledger.cache ∧
      fileKeys entries = (filePaths top sightings).map Utf8.decode := by
  induction sightings generalizing ledger entries with
  | nil =>
    cases h
    exact ⟨(List.append_nil _).symm, rfl, rfl⟩
  | cons sighting rest ih =>
    obtain ⟨entry, middle, hfirst, hnext⟩ := Work.on_bind_eq_ok h
    obtain ⟨others, last, hrest, hpure⟩ := Work.on_bind_eq_ok hnext
    cases hpure
    obtain ⟨hasked, hcache, hkeys⟩ := asked_of_observe hfirst
    obtain ⟨hasked', hcache', hkeys'⟩ := ih hrest
    rw [filePaths_cons, fileKeys_cons, List.map_append, List.map_append]
    exact ⟨by rw [hasked', hasked, List.append_assoc], hcache'.trans hcache, by rw [hkeys, hkeys']⟩

/-- A scan asks for the hashes of the files that it gives, in their order, and for nothing else. -/
theorem asked_of_scan {filter : Survey.Filter} {entries : List Observation}
    (h : (vantage.scan top filter).on ledger = (.ok entries, after)) :
    after.asked
        = ledger.asked ++ (filePaths top (Survey.below vantage.disk top filter).seen).map .hash ∧
      after.cache = ledger.cache ∧
      fileKeys entries
        = (filePaths top (Survey.below vantage.disk top filter).seen).map Utf8.decode := by
  obtain ⟨found, middle, hfound, hrest⟩ := Work.on_bind_eq_ok h
  rcases hobstacle : (Survey.below vantage.disk top filter).obstacle with _ | obstacle
  · rw [hobstacle] at hrest
    cases hrest
    exact asked_of_observeAll hfound
  · rw [hobstacle] at hrest
    cases hrest

/-! ### At the top -/

theorem asked_of_content {metadata : Metadata} {content : Content}
    (h : (vantage.content location metadata).on ledger = (.ok content, after)) :
    after = { ledger with asked := ledger.asked ++ [.hash (Path.render location)] } ∧
      content.kind = .regularFile := by
  rw [on_content] at h
  rcases hhash : vantage.observer.hash ledger.asked.length (Path.render location) metadata with
    kind | hash
  · rw [hhash] at h
    cases h
  · rw [hhash] at h
    cases h
    exact ⟨rfl, rfl⟩

theorem asked_of_stat {metadata : Metadata}
    (h : (vantage.stat location).on ledger = (.ok metadata, after)) :
    vantage.observer.stat ledger.asked.length (Path.render location) = .ok metadata ∧
      after = { ledger with asked := ledger.asked ++ [.stat (Path.render location)] } := by
  rw [on_stat] at h
  rcases hstat : vantage.observer.stat ledger.asked.length (Path.render location) with
    kind | found
  · rw [hstat] at h
    cases h
  · rw [hstat] at h
    cases h
    exact ⟨rfl, rfl⟩

/-- What is asked about a path by itself: a look, and the hash of a regular file. -/
def topQuestions (location : List Name) (type : FileType) : List Question :=
  .stat (Path.render location) ::
    if type = .regularFile then [.hash (Path.render location)] else []

theorem asked_of_probe {observation : Observation}
    (h : (vantage.probe location key).on ledger = (.ok observation, after)) :
    ∃ metadata, vantage.observer.stat ledger.asked.length (Path.render location) = .ok metadata ∧
      after.asked = ledger.asked ++ topQuestions location metadata.type ∧
      after.cache = ledger.cache ∧
      (observation.kind = .directory ↔ metadata.type = .directory) := by
  obtain ⟨metadata, middle, hstat, hrest⟩ := Work.on_bind_eq_ok h
  obtain ⟨hanswer, rfl⟩ := asked_of_stat hstat
  refine ⟨metadata, hanswer, ?_⟩
  rw [topQuestions]
  cases htype : metadata.type with
  | missing | directory =>
    rw [htype] at hrest
    cases hrest
    exact ⟨rfl, rfl, by simp [Observation.kind, Content.kind]⟩
  | regularFile =>
    rw [htype] at hrest
    obtain ⟨content, last, hcontent, hpure⟩ := Work.on_bind_eq_ok hrest
    obtain ⟨rfl, hkind⟩ := asked_of_content hcontent
    cases hpure
    exact ⟨by simp, rfl, by simp [Observation.kind, hkind]⟩
  | unrecognized description =>
    rw [htype] at hrest
    cases hrest

/-- A tree whose top is no directory is asked about like a path by itself. -/
theorem asked_of_withoutDirectory {metadata : Metadata} (htype : metadata.type ≠ .directory)
    {entries : List Observation}
    (h : (vantage.withoutDirectory location metadata).on ledger = (.ok entries, after)) :
    after.asked = ledger.asked
        ++ (if metadata.type = .regularFile then [.hash (Path.render location)] else []) ∧
      after.cache = ledger.cache := by
  unfold withoutDirectory at h
  cases hmetadata : metadata.type with
  | missing =>
    rw [hmetadata] at h
    cases h
    exact ⟨by simp, rfl⟩
  | directory => exact absurd hmetadata htype
  | regularFile =>
    rw [hmetadata] at h
    obtain ⟨content, last, hcontent, hpure⟩ := Work.on_bind_eq_ok h
    obtain ⟨rfl, -⟩ := asked_of_content hcontent
    cases hpure
    exact ⟨by simp, rfl⟩
  | unrecognized description =>
    rw [hmetadata] at h
    cases h

end Vantage

/-! ### Visits -/

/-- The entries of an expansion apart from a directory that was named itself. -/
def Expansion.below : Expansion → List Observation
  | .member _ => []
  | .directory _ contents => contents
  | .tree entries => entries

/-- The visit of one part of a collection, which names one location: the ledger when it begins, and
    what comes out. -/
structure Visit where
  part : Root
  location : List Name
  before : Ledger
  expansion : Expansion

namespace Visit

variable (vantage : Vantage) (visit : Visit)

def key : String := Path.text visit.location

def path : Bytes := Path.render visit.location

/-- Whether the observer is asked what is at the location.  It is not when a member is remembered,
    or the listing of a tree; a tree with patterns is looked at in any case. -/
def looks : Bool :=
  match visit.part with
  | .members _ => (visit.before.cache.path? visit.key).isNone
  | .filtered .. => true
  | .tree _ => (visit.before.cache.listing? visit.key).isNone

/-- What the observer says is at the location, if it is asked. -/
def found? : Option FileType :=
  if visit.looks then
    (vantage.observer.stat visit.before.asked.length visit.path).toOption.map Metadata.type
  else none

/-- What a member is remembered to be. -/
def remembered? : Option Kind :=
  match visit.part with
  | .members _ => (visit.before.cache.path? visit.key).map Observation.kind
  | _ => none

/-- The filter that the directory at the location is scanned with.  A directory is not scanned when
    its listing is remembered, unless there are patterns. -/
def scan? : Option Survey.Filter :=
  if visit.found? vantage = some .directory ∨ visit.remembered? = some .directory then
    match visit.part with
    | .filtered _ restriction => restriction.filter.toOption
    | _ => if (visit.before.cache.listing? visit.key).isNone then some .all else none
  else none

/-- The files of the scan, in walk order. -/
def scanned : List Bytes :=
  match visit.scan? vantage with
  | some filter => filePaths visit.location (Survey.below vantage.disk visit.location filter).seen
  | none => []

/-- All that is hashed: a regular file at the location, or the files of the scan. -/
def hashed : List Bytes :=
  (if visit.found? vantage = some .regularFile then [visit.path] else []) ++ visit.scanned vantage

def questions : List Question :=
  (if visit.looks then [.stat visit.path] else []) ++ (visit.hashed vantage).map .hash

/-- Whether the location is remembered as a member from then on. -/
def keepsPath : Bool :=
  match visit.part with
  | .members _ => true
  | _ => false

/-- Whether the scan is remembered as the listing of the location. -/
def keepsListing : Bool :=
  match visit.part with
  | .filtered .. => false
  | _ => (visit.scan? vantage).isSome

/-- What a visit leaves behind: its questions, what is remembered then, and entries for the files
    that it has scanned. -/
structure Leaves (after : Ledger) : Prop where
  asked : after.asked = visit.before.asked ++ visit.questions vantage
  path : ∀ key, after.cache.path? key = none ↔
    visit.before.cache.path? key = none ∧ ¬ (visit.keepsPath = true ∧ key = visit.key)
  listing : ∀ key, after.cache.listing? key = none ↔
    visit.before.cache.listing? key = none ∧ ¬ (visit.keepsListing vantage = true ∧ key = visit.key)
  files : ∀ filter, visit.scan? vantage = some filter →
    fileKeys visit.expansion.below = (visit.scanned vantage).map Utf8.decode

variable {vantage visit}

theorem found?_of_answer (hlooks : visit.looks = true) {metadata : Metadata}
    (h : vantage.observer.stat visit.before.asked.length visit.path = .ok metadata) :
    visit.found? vantage = some metadata.type := by
  rw [found?, if_pos hlooks, h]
  rfl

theorem found?_of_not_looks (hlooks : visit.looks = false) : visit.found? vantage = none := by
  rw [found?, hlooks]
  rfl

/-- The three parts of what a visit asks: a look, the hash of a regular file, and a scan. -/
theorem questions_eq : visit.questions vantage = (if visit.looks then [.stat visit.path] else [])
    ++ (if visit.found? vantage = some .regularFile then [.hash visit.path] else [])
    ++ (visit.scanned vantage).map .hash := by
  rw [questions, hashed, List.map_append, List.append_assoc]
  congr 2
  split <;> rfl

theorem filterMap_stat?_questions :
    (visit.questions vantage).filterMap Question.stat?
      = if visit.looks then [visit.path] else [] := by
  rw [questions, List.filterMap_append, Question.filterMap_stat?_hash, List.append_nil]
  split <;> rfl

theorem filterMap_hash?_questions :
    (visit.questions vantage).filterMap Question.hash? = visit.hashed vantage := by
  rw [questions, List.filterMap_append, Question.filterMap_hash?_hash]
  split <;> rfl

/-- The looks of several visits. -/
theorem flatMap_looks (visits : List Visit) :
    (visits.flatMap fun visit => if visit.looks then [visit.path] else [])
      = (visits.filter looks).map path := by
  induction visits with
  | nil => rfl
  | cons visit visits ih =>
    rw [List.flatMap_cons, ih, List.filter_cons]
    split <;> rfl

theorem scanned_of_scan {filter : Survey.Filter} (hscan : visit.scan? vantage = some filter) :
    visit.scanned vantage
      = filePaths visit.location (Survey.below vantage.disk visit.location filter).seen := by
  rw [scanned, hscan]

theorem scanned_of_not_scan (hscan : visit.scan? vantage = none) : visit.scanned vantage = [] := by
  rw [scanned, hscan]

/-- What is no directory is not scanned. -/
theorem scan?_of_not_directory (hfound : visit.found? vantage ≠ some .directory)
    (hremembered : visit.remembered? ≠ some .directory) : visit.scan? vantage = none := by
  rw [scan?, if_neg (not_or.2 ⟨hfound, hremembered⟩)]

theorem keepsListing_of_not_scan (hscan : visit.scan? vantage = none) :
    visit.keepsListing vantage = false := by
  unfold keepsListing
  split
  · rfl
  · rw [hscan]
    rfl

/-- The pool that a visit begins with makes no difference. -/
theorem Leaves.of_pool (pool : TextPool) {part : Root} {location : List Name}
    {before after : Ledger} {expansion : Expansion}
    (h : Leaves vantage ⟨part, location, { before with pool }, expansion⟩ after) :
    Leaves vantage ⟨part, location, before, expansion⟩ after :=
  ⟨h.asked, h.path, h.listing, h.files⟩

/-- Where the cache is left alone, nothing is remembered that was not. -/
theorem Leaves.of_cache {after : Ledger}
    (hasked : after.asked = visit.before.asked ++ visit.questions vantage)
    (hcache : after.cache = visit.before.cache) (hpath : visit.keepsPath = false)
    (hlisting : visit.keepsListing vantage = false)
    (hfiles : ∀ filter, visit.scan? vantage = some filter →
      fileKeys visit.expansion.below = (visit.scanned vantage).map Utf8.decode) :
    visit.Leaves vantage after where
  asked := hasked
  path key := by simp [hcache, hpath]
  listing key := by simp [hcache, hlisting]
  files := hfiles

end Visit

namespace Vantage

variable {vantage : Vantage} {location : List Name} {ledger after : Ledger}

theorem asked_of_contents {key : String} (hkey : ledger.cache.listing? key = none)
    {entries : List Observation}
    (h : (vantage.contents location key).on ledger = (.ok entries, after)) :
    after.asked = ledger.asked
        ++ (filePaths location (Survey.below vantage.disk location .all).seen).map .hash ∧
      after.cache = ledger.cache.putListing ⟨key, entries⟩ ∧
      fileKeys entries
        = (filePaths location (Survey.below vantage.disk location .all).seen).map Utf8.decode := by
  rw [on_contents_of_none hkey] at h
  rcases hscan : (vantage.scan location .all).on ledger with ⟨failure | found, last⟩
  · rw [hscan] at h
    cases h
  · rw [hscan] at h
    cases h
    obtain ⟨hasked, hcache, hkeys⟩ := asked_of_scan hscan
    exact ⟨hasked, by rw [hcache], hkeys⟩

/-! ### Visits of trees -/

/-- A tree whose top turns out to be no directory. -/
theorem leaves_withoutDirectory {visit : Visit} (hlooks : visit.looks = true)
    (hremembered : visit.remembered? = none) (hpath : visit.keepsPath = false) {metadata : Metadata}
    (hanswer : vantage.observer.stat visit.before.asked.length visit.path = .ok metadata)
    (htype : metadata.type ≠ .directory) {entries : List Observation}
    (h : (vantage.withoutDirectory visit.location metadata).on
      { visit.before with asked := visit.before.asked ++ [.stat visit.path] }
        = (.ok entries, after)) : visit.Leaves vantage after := by
  have hfound := Visit.found?_of_answer hlooks hanswer
  have hscan : visit.scan? vantage = none :=
    Visit.scan?_of_not_directory (by simpa [hfound] using htype) (by simp [hremembered])
  obtain ⟨hasked, hcache⟩ := asked_of_withoutDirectory htype h
  refine .of_cache ?_ hcache hpath (Visit.keepsListing_of_not_scan hscan) ?_
  · rw [hasked, Visit.questions_eq, Visit.scanned_of_not_scan hscan, hfound, hlooks]
    simp [Visit.path]
  · intro filter hsome
    cases hscan.symm.trans hsome

theorem leaves_filtered {directory : Bytes} {restriction : Restriction}
    {entries : List Observation}
    (h : (vantage.expandFiltered location restriction).on ledger = (.ok entries, after)) :
    Visit.Leaves vantage ⟨.filtered directory restriction, location, ledger, .tree entries⟩
      after := by
  obtain ⟨metadata, middle, hstat, hrest⟩ := Work.on_bind_eq_ok h
  obtain ⟨hanswer, rfl⟩ := asked_of_stat hstat
  let visit : Visit := ⟨.filtered directory restriction, location, ledger, .tree entries⟩
  by_cases htype : metadata.type = .directory
  · have hfound : visit.found? vantage = some .directory :=
      htype ▸ Visit.found?_of_answer rfl hanswer
    simp only [htype] at hrest
    rcases hfilter : restriction.filter with failure | filter
    · rw [hfilter] at hrest
      cases hrest
    · rw [hfilter] at hrest
      obtain ⟨hasked, hcache, hkeys⟩ := asked_of_scan hrest
      have hscan : visit.scan? vantage = some filter := by
        rw [Visit.scan?, if_pos (.inl hfound)]
        exact congrArg Except.toOption hfilter
      refine .of_cache ?_ hcache rfl rfl fun _ _ => ?_
      · rw [hasked, Visit.questions_eq, Visit.scanned_of_scan hscan, hfound]
        simp [visit, Visit.looks, Visit.path]
      · rw [Visit.scanned_of_scan hscan]
        exact hkeys
  · have hwithout : (vantage.withoutDirectory location metadata).on
        { ledger with asked := ledger.asked ++ [.stat (Path.render location)] }
          = (.ok entries, after) := by
      rw [← hrest]
      cases hmetadata : metadata.type <;> simp_all
    exact leaves_withoutDirectory rfl rfl rfl hanswer htype hwithout

/-- The visit of a tree. -/
theorem leaves_tree {directory : Bytes} {entries : List Observation}
    (h : (vantage.expandTree location).on ledger = (.ok entries, after)) :
    Visit.Leaves vantage ⟨.tree directory, location, ledger, .tree entries⟩ after := by
  rw [expandTree, Work.on_bind_ok (Work.on_intern _ _), Work.on_bind_ok (Work.on_get _)] at h
  apply Visit.Leaves.of_pool (ledger.pool.intern (Path.text location)).2
  generalize { ledger with pool := (ledger.pool.intern (Path.text location)).2 } = ledger at h ⊢
  let visit : Visit := ⟨.tree directory, location, ledger, .tree entries⟩
  rcases hkey : ledger.cache.listing? (Path.text location) with _ | listing
  · have hlooks : visit.looks = true := congrArg Option.isNone hkey
    simp only [hkey] at h
    obtain ⟨metadata, middle, hstat, hrest⟩ := Work.on_bind_eq_ok h
    obtain ⟨hanswer, rfl⟩ := asked_of_stat hstat
    by_cases htype : metadata.type = .directory
    · have hfound : visit.found? vantage = some .directory :=
        htype ▸ Visit.found?_of_answer hlooks hanswer
      simp only [htype] at hrest
      obtain ⟨hasked, hcache, hkeys⟩ := asked_of_contents (by exact hkey) hrest
      have hscan : visit.scan? vantage = some .all := by
        rw [Visit.scan?, if_pos (.inl hfound)]
        exact if_pos (congrArg Option.isNone hkey)
      have hkeeps : visit.keepsListing vantage = true := congrArg Option.isSome hscan
      constructor
      · rw [hasked, Visit.questions_eq, Visit.scanned_of_scan hscan, hfound, hlooks]
        simp [visit, Visit.path]
      · intro key
        simp [hcache, Visit.keepsPath]
      · intro key
        rw [hcache, Cache.listing?_putListing_eq_none_iff, hkeeps]
        simp [Visit.key]
      · intro _ _
        rw [Visit.scanned_of_scan hscan]
        exact hkeys
    · have hwithout : (vantage.withoutDirectory location metadata).on
          { ledger with asked := ledger.asked ++ [.stat (Path.render location)] }
            = (.ok entries, after) := by
        rw [← hrest]
        cases hmetadata : metadata.type <;> simp_all
      exact leaves_withoutDirectory hlooks rfl rfl hanswer htype hwithout
  · -- the listing is there, and nothing is asked
    have hlooks : visit.looks = false := congrArg Option.isNone hkey
    have hfound : visit.found? vantage = none := Visit.found?_of_not_looks hlooks
    have hscan : visit.scan? vantage = none :=
      Visit.scan?_of_not_directory (by simp [hfound]) (by simp [visit, Visit.remembered?])
    simp only [hkey] at h
    cases h
    refine .of_cache ?_ rfl rfl (Visit.keepsListing_of_not_scan hscan) ?_
    · rw [Visit.questions_eq, Visit.scanned_of_not_scan hscan, hfound, hlooks]
      simp
    · intro filter hsome
      cases hscan.symm.trans hsome

/-! ### Visits of members -/

/-- A member is looked at and hashed by itself, unless it is remembered; then it is remembered, and
    listings are as before. -/
theorem asked_of_member {visit : Visit} {paths : List Bytes} (hpart : visit.part = .members paths)
    {observation : Observation}
    (h : (vantage.member visit.location visit.key).on visit.before = (.ok observation, after)) :
    after.asked = visit.before.asked ++ ((if visit.looks then [.stat visit.path] else [])
        ++ (if visit.found? vantage = some .regularFile then [.hash visit.path] else [])) ∧
      (∀ key, after.cache.path? key = none ↔
        visit.before.cache.path? key = none ∧ key ≠ visit.key) ∧
      (∀ key, after.cache.listing? key = visit.before.cache.listing? key) ∧
      (observation.kind = .directory ↔
        visit.found? vantage = some .directory ∨ visit.remembered? = some .directory) := by
  rcases hkey : visit.before.cache.path? visit.key with _ | remembered
  · have hlooks : visit.looks = true := by rw [Visit.looks, hpart, hkey]; rfl
    have hremembered : visit.remembered? = none := by rw [Visit.remembered?, hpart, hkey]; rfl
    rw [on_member_of_none hkey] at h
    rcases hprobe : (vantage.probe visit.location visit.key).on visit.before with
      ⟨failure | found, last⟩
    · rw [hprobe] at h
      cases h
    rw [hprobe] at h
    cases h
    obtain ⟨metadata, hanswer, hasked, hcache, hkind⟩ := asked_of_probe hprobe
    have hfound := Visit.found?_of_answer hlooks hanswer
    refine ⟨?_, ?_, ?_, ?_⟩
    · rw [hlooks, hfound]
      simp only [Option.some.injEq]
      exact hasked
    · intro key
      simp only [Cache.path?_putPath_eq_none_iff, hcache, path_of_probe hprobe]
    · intro key
      simp only [Cache.listing?_putPath, hcache]
    · rw [hkind, hfound, hremembered]
      simp
  · have hlooks : visit.looks = false := by rw [Visit.looks, hpart, hkey]; rfl
    have hremembered : visit.remembered? = some remembered.kind := by
      rw [Visit.remembered?, hpart, hkey]; rfl
    have hfound : visit.found? vantage = none := Visit.found?_of_not_looks hlooks
    rw [on_member_of_some hkey] at h
    cases h
    refine ⟨?_, ?_, fun _ => rfl, ?_⟩
    · rw [hlooks, hfound]
      simp
    · intro key
      refine ⟨fun hnone => ⟨hnone, ?_⟩, And.left⟩
      rintro rfl
      rw [hkey] at hnone
      cases hnone
    · rw [hfound, hremembered]
      simp

/-- The visit of a member. -/
theorem leaves_member {path : Bytes}
    (hlocation : Path.absolute vantage.current path = some location)
    {expansion : Expansion}
    (h : (vantage.expandMember path).on ledger = (.ok expansion, after)) :
    Visit.Leaves vantage ⟨.members [path], location, ledger, expansion⟩ after := by
  rw [expandMember, absolute_of_some hlocation, pure_bind,
    Work.on_bind_ok (Work.on_intern _ _)] at h
  apply Visit.Leaves.of_pool (ledger.pool.intern (Path.text location)).2
  generalize { ledger with pool := (ledger.pool.intern (Path.text location)).2 } = ledger at h ⊢
  let visit : Visit := ⟨.members [path], location, ledger, expansion⟩
  obtain ⟨observation, middle, hmember, hrest⟩ := Work.on_bind_eq_ok h
  obtain ⟨hasked, hpath, hlisting, hkind⟩ :=
    asked_of_member (show visit.part = .members [path] from rfl) hmember
  have hkept (key : String) : middle.cache.path? key = none ↔
      ledger.cache.path? key = none ∧ ¬ (visit.keepsPath = true ∧ key = visit.key) := by
    rw [hpath]
    simp [visit, Visit.keepsPath]
  -- what is asked and remembered where nothing is scanned
  have hunscanned (hscan : visit.scan? vantage = none) : visit.Leaves vantage middle := by
    refine ⟨?_, hkept, ?_, ?_⟩
    · rw [hasked, Visit.questions_eq, Visit.scanned_of_not_scan hscan]
      simp
    · intro key
      rw [hlisting, Visit.keepsListing_of_not_scan hscan]
      simp
    · intro filter hsome
      cases hscan.symm.trans hsome
  by_cases hdirectory : observation.kind = .directory
  · have hwhere := hkind.1 hdirectory
    simp only [hdirectory] at hrest
    obtain ⟨contents, last, hcontents, hpure⟩ := Work.on_bind_eq_ok hrest
    cases hpure
    rcases hkey : middle.cache.listing? (Path.text location) with _ | listing
    · obtain ⟨hscanned, hcache, hkeys⟩ := asked_of_contents hkey hcontents
      rw [hlisting] at hkey
      have hscan : visit.scan? vantage = some .all := by
        rw [Visit.scan?, if_pos hwhere]
        exact if_pos (congrArg Option.isNone hkey)
      have hkeeps : visit.keepsListing vantage = true := congrArg Option.isSome hscan
      refine ⟨?_, ?_, ?_, ?_⟩
      · rw [hscanned, hasked, Visit.questions_eq, Visit.scanned_of_scan hscan]
        simp [visit]
      · intro key
        rw [hcache, Cache.path?_putListing]
        exact hkept key
      · intro key
        rw [hcache, Cache.listing?_putListing_eq_none_iff, hlisting, hkeeps]
        simp [visit, Visit.key]
      · intro _ _
        rw [Visit.scanned_of_scan hscan]
        exact hkeys
    · rw [on_contents_of_some hkey] at hcontents
      cases hcontents
      apply hunscanned
      rw [hlisting] at hkey
      rw [Visit.scan?, if_pos hwhere]
      exact if_neg (by simp [visit, Visit.key, hkey])
  · have hsingle : middle = after := by
      cases hshown : observation.kind <;> simp_all
    rw [← hsingle]
    apply hunscanned
    rw [Visit.scan?, if_neg]
    rwa [← hkind]

/-- Each visit of one part leaves behind what is said of it. -/
theorem leaves_visit {visit : Visit} {path : Bytes} (hpart : visit.part.paths = [path])
    (hlocation : Path.absolute vantage.current path = some visit.location)
    (h : (vantage.expand visit.part).on visit.before = (.ok [visit.expansion], after)) :
    visit.Leaves vantage after := by
  obtain ⟨part, location, before, expansion⟩ := visit
  cases part with
  | members paths =>
    obtain rfl : paths = [path] := hpart
    obtain ⟨found, middle, hmember, hpure⟩ := Work.on_bind_eq_ok h
    cases hpure
    exact leaves_member hlocation hmember
  | filtered directory restriction =>
    obtain rfl : directory = path := List.singleton_inj.1 hpart
    simp only [expand, absolute_of_some hlocation, pure_bind] at h
    obtain ⟨entries, middle, hentries, hpure⟩ := Work.on_bind_eq_ok h
    cases hpure
    exact leaves_filtered hentries
  | tree directory =>
    obtain rfl : directory = path := List.singleton_inj.1 hpart
    simp only [expand, absolute_of_some hlocation, pure_bind] at h
    obtain ⟨entries, middle, hentries, hpure⟩ := Work.on_bind_eq_ok h
    cases hpure
    exact leaves_tree hentries

/-! ### One visit after another -/

/-- The visits of a run: each begins with the ledger that the one before it has left. -/
inductive Course (vantage : Vantage) : Ledger → List Visit → Ledger → Prop
  | done (ledger : Ledger) : Course vantage ledger [] ledger
  | visit (visit : Visit) {path : Bytes} {middle after : Ledger} {visits : List Visit} :
      visit.part.paths = [path] → Path.absolute vantage.current path = some visit.location →
      (vantage.expand visit.part).on visit.before = (.ok [visit.expansion], middle) →
      Course vantage middle visits after → Course vantage visit.before (visit :: visits) after

namespace Course

variable {middle : Ledger} {visits others : List Visit}

theorem append (h : vantage.Course ledger visits middle) (h' : vantage.Course middle others after) :
    vantage.Course ledger (visits ++ others) after := by
  induction h with
  | done => exact h'
  | visit _ hpart hlocation hexpand _ ih => exact .visit _ hpart hlocation hexpand (ih h')

theorem asked (h : vantage.Course ledger visits after) :
    after.asked = ledger.asked ++ visits.flatMap (Visit.questions vantage) := by
  induction h with
  | done => simp
  | visit _ hpart hlocation hexpand _ ih =>
    rw [ih, (leaves_visit hpart hlocation hexpand).asked, List.flatMap_cons, List.append_assoc]

theorem files (h : vantage.Course ledger visits after) :
    ∀ visit ∈ visits, ∀ filter, visit.scan? vantage = some filter →
      fileKeys visit.expansion.below = (visit.scanned vantage).map Utf8.decode := by
  induction h with
  | done => simp
  | visit _ hpart hlocation hexpand _ ih =>
    exact List.forall_mem_cons.2 ⟨(leaves_visit hpart hlocation hexpand).files, ih⟩

/-- When a visit begins, what is remembered is what was remembered before the run, and what the
    visits before it have kept. -/
theorem memory {front back : List Visit} {visit : Visit}
    (h : vantage.Course ledger (front ++ visit :: back) after) (key : String) :
    (visit.before.cache.path? key = none ↔ ledger.cache.path? key = none ∧
      ∀ other ∈ front, ¬ (other.keepsPath = true ∧ key = other.key)) ∧
    (visit.before.cache.listing? key = none ↔ ledger.cache.listing? key = none ∧
      ∀ other ∈ front, ¬ (other.keepsListing vantage = true ∧ key = other.key)) := by
  induction front generalizing ledger with
  | nil =>
    cases h
    simp
  | cons first front ih =>
    cases h with
    | visit _ hpart hlocation hexpand hrest =>
      have hleaves := leaves_visit hpart hlocation hexpand
      obtain ⟨hpath, hlisting⟩ := ih hrest
      rw [List.forall_mem_cons, List.forall_mem_cons, hpath, hlisting, hleaves.path,
        hleaves.listing, and_assoc, and_assoc]
      exact ⟨Iff.rfl, Iff.rfl⟩

end Course

theorem course_of_expandMembers {paths : List Bytes} {expansions : List Expansion}
    (h : (vantage.expandMembers paths).on ledger = (.ok expansions, after)) :
    ∃ visits, vantage.Course ledger visits after ∧
      visits.map Visit.part = paths.map (fun path => .members [path]) ∧
      visits.map Visit.expansion = expansions := by
  induction paths generalizing ledger expansions with
  | nil =>
    cases h
    exact ⟨[], .done _, rfl, rfl⟩
  | cons path paths ih =>
    obtain ⟨expansion, middle, hfirst, hnext⟩ := Work.on_bind_eq_ok h
    obtain ⟨others, last, hrest, hpure⟩ := Work.on_bind_eq_ok hnext
    cases hpure
    obtain ⟨visits, hcourse, hparts, hexpansions⟩ := ih hrest
    rcases hlocation : Path.absolute vantage.current path with _ | location
    · rw [expandMember, absolute_of_none hlocation] at hfirst
      cases hfirst
    have hexpand : (vantage.expand (.members [path])).on ledger = (.ok [expansion], middle) := by
      rw [expand, expandMembers, Work.on_bind_ok hfirst]
      rfl
    let visit : Visit := ⟨.members [path], location, ledger, expansion⟩
    exact ⟨visit :: visits, .visit visit rfl hlocation hexpand hcourse,
      by rw [List.map_cons, hparts]; rfl, by rw [List.map_cons, hexpansions]⟩

/-- A root that is walked is visited part by part. -/
theorem course_of_expand {root : Root} {expansions : List Expansion}
    (h : (vantage.expand root).on ledger = (.ok expansions, after)) :
    ∃ visits, vantage.Course ledger visits after ∧ visits.map Visit.part = root.parts ∧
      visits.map Visit.expansion = expansions := by
  cases root with
  | members paths => exact course_of_expandMembers h
  | filtered directory restriction =>
    rcases hlocation : Path.absolute vantage.current directory with _ | location
    · rw [expand, absolute_of_none hlocation] at h
      cases h
    have hrun := h
    simp only [expand, absolute_of_some hlocation, pure_bind] at h
    obtain ⟨entries, middle, -, hpure⟩ := Work.on_bind_eq_ok h
    cases hpure
    let visit : Visit := ⟨.filtered directory restriction, location, ledger, .tree entries⟩
    exact ⟨[visit], .visit visit rfl hlocation hrun (.done _), rfl, rfl⟩
  | tree directory =>
    rcases hlocation : Path.absolute vantage.current directory with _ | location
    · rw [expand, absolute_of_none hlocation] at h
      cases h
    have hrun := h
    simp only [expand, absolute_of_some hlocation, pure_bind] at h
    obtain ⟨entries, middle, -, hpure⟩ := Work.on_bind_eq_ok h
    cases hpure
    let visit : Visit := ⟨.tree directory, location, ledger, .tree entries⟩
    exact ⟨[visit], .visit visit rfl hlocation hrun (.done _), rfl, rfl⟩

/-- Roots that are walked are visited part by part, in their order. -/
theorem course_of_walks {roots : List Root} {walks : List (List Expansion)}
    (h : (roots.mapM vantage.expand).on ledger = (.ok walks, after)) :
    ∃ visits, vantage.Course ledger visits after ∧
      visits.map Visit.part = roots.flatMap Root.parts ∧
      visits.map Visit.expansion = walks.flatten := by
  induction roots generalizing ledger walks with
  | nil =>
    cases h
    exact ⟨[], .done _, rfl, rfl⟩
  | cons root roots ih =>
    rw [List.mapM_cons] at h
    obtain ⟨walk, middle, hfirst, hnext⟩ := Work.on_bind_eq_ok h
    obtain ⟨others, last, hrest, hpure⟩ := Work.on_bind_eq_ok hnext
    cases hpure
    obtain ⟨visits, hcourse, hparts, hexpansions⟩ := course_of_expand hfirst
    obtain ⟨more, hcourse', hparts', hexpansions'⟩ := ih hrest
    refine ⟨visits ++ more, hcourse.append hcourse', ?_, ?_⟩
    · rw [List.map_append, hparts, hparts', List.flatMap_cons]
    · rw [List.map_append, hexpansions, hexpansions', List.flatten_cons]

end Vantage

/-! ### The files of a scan -/

/-- Below one location a way is determined by its path. -/
theorem Path.render_append_injOn {top way other : List Name} (hway : ∀ name ∈ way, name.Plain)
    (hother : ∀ name ∈ other, name.Plain) (hne : way ≠ []) (hne' : other ≠ [])
    (h : render (top ++ way) = render (top ++ other)) : way = other := by
  have hrender (names : List Name) (hnames : names ≠ []) :
      render (top ++ names) = top.flatMap (slash :: ·) ++ render names := by
    have hflat (some : List Name) (hsome : some ≠ []) :
        render some = some.flatMap (slash :: ·) := by
      cases some with
      | nil => exact absurd rfl hsome
      | cons => rfl
    rw [hflat _ (by simp [hnames]), hflat names hnames, List.flatMap_append]
  rw [hrender way hne, hrender other hne', List.append_cancel_left_eq] at h
  rw [← names_render hway, ← names_render hother, h]

/-- The files of a scan are hashed once each, and the filter lets each of them pass, by itself and
    by the directories above it. -/
theorem Survey.filePaths_below (disk : Disk) (top : List Name) (filter : Survey.Filter) :
    (filePaths top (Survey.below disk top filter).seen).Nodup ∧
    ∀ path ∈ filePaths top (Survey.below disk top filter).seen, ∃ way data modified,
      disk.Way top way ∧ path = Path.render (top ++ way) ∧
      disk.sight? (top ++ way) = some (.file data modified) ∧
      filter.admits 0 ⟨way, .file data modified⟩ = true := by
  have hordered := Survey.orderly_below disk top filter
  have htrue := Survey.truthful_below disk top filter
  constructor
  · have hways : (((Survey.below disk top filter).seen.filter Sighting.isFile).map
        Sighting.names).Nodup := by
      have hseen : ((Survey.below disk top filter).seen.map Sighting.names).Nodup := by
        apply hordered.increasing.imp
        rintro way _ hlt rfl
        exact List.lt_irrefl way hlt
      exact (List.filter_sublist.map _).nodup hseen
    have hplain : ∀ way ∈ ((Survey.below disk top filter).seen.filter Sighting.isFile).map
        Sighting.names, way ≠ [] ∧ ∀ name ∈ way, name.Plain := by
      intro way hway
      obtain ⟨sighting, hsighting, rfl⟩ := List.mem_map.1 hway
      have hseen := (List.mem_filter.1 hsighting).1
      obtain ⟨name, -, hprefix⟩ := hordered.inside sighting hseen
      refine ⟨?_, fun name hname => ((htrue.seen sighting hseen).1.valid name hname).plain⟩
      intro hnil
      simp [hnil] at hprefix
    have hpaths := hways.map_on fun way hway other hother heq =>
      Path.render_append_injOn (hplain way hway).2 (hplain other hother).2 (hplain way hway).1
        (hplain other hother).1
        (show Path.render (top ++ way) = Path.render (top ++ other) from heq)
    rwa [List.map_map] at hpaths
  · intro path hpath
    obtain ⟨⟨way, sight⟩, hsighting, rfl⟩ := List.mem_map.1 hpath
    obtain ⟨hseen, hfile⟩ := List.mem_filter.1 hsighting
    obtain ⟨data, modified, rfl⟩ := Sighting.isFile_iff.1 hfile
    obtain ⟨hway, place, hplace, hsight⟩ := htrue.seen _ hseen
    refine ⟨way, data, modified, hway, rfl, ?_, hordered.admitted _ hseen⟩
    rw [Disk.sight?, hplace]
    exact hsight

/-! ### The main statement -/

/-- **A call asks exactly what it has to.**  The parts of the collection are visited one after the
    other.  Looked at are the members that are not remembered when their visit begins, the trees
    with patterns, and the trees whose listing is not remembered.  Hashed are the regular files
    among what is looked at, and the files of each scan in walk order.  A directory is scanned when
    it has patterns or no remembered listing; then the files of the scan are those of its result,
    each of them once, and the filter lets each of them pass.  What is remembered at a visit is what
    was remembered before the call or kept by a visit before. -/
theorem snapshot_asks_exactly {vantage : Vantage} {roots : List Root} {ledger after : Ledger}
    {walks : List (List Expansion)}
    (hwalks : (roots.mapM vantage.expand).on ledger = (.ok walks, after)) (recipe : Recipe)
    (compareStrategy : CompareStrategy) (strategy : Strategy) :
    ∃ visits asked, vantage.Course ledger visits after ∧
      visits.map Visit.part = roots.flatMap Root.parts ∧
      visits.map Visit.expansion = walks.flatten ∧
      ((vantage.snapshot recipe roots compareStrategy strategy).on ledger).2.asked
        = ledger.asked ++ asked ∧
      asked = visits.flatMap (Visit.questions vantage) ∧
      asked.filterMap Question.stat? = (visits.filter Visit.looks).map Visit.path ∧
      asked.filterMap Question.hash? = visits.flatMap (Visit.hashed vantage) ∧
      (∀ front visit back, visits = front ++ visit :: back → ∀ key,
        (visit.before.cache.path? key = none ↔ ledger.cache.path? key = none ∧
          ∀ other ∈ front, ¬ (other.keepsPath = true ∧ key = other.key)) ∧
        (visit.before.cache.listing? key = none ↔ ledger.cache.listing? key = none ∧
          ∀ other ∈ front, ¬ (other.keepsListing vantage = true ∧ key = other.key))) ∧
      ∀ visit ∈ visits, ∀ filter, visit.scan? vantage = some filter →
        (visit.scanned vantage).map Utf8.decode = fileKeys visit.expansion.below ∧
        (visit.scanned vantage).Nodup ∧
        ∀ path ∈ visit.scanned vantage, ∃ way data modified,
          vantage.disk.Way visit.location way ∧ path = Path.render (visit.location ++ way) ∧
          vantage.disk.sight? (visit.location ++ way) = some (.file data modified) ∧
          filter.admits 0 ⟨way, .file data modified⟩ = true := by
  obtain ⟨visits, hcourse, hparts, hexpansions⟩ := Vantage.course_of_walks hwalks
  have hlevel := vantage.level_of_snapshot recipe roots compareStrategy strategy ledger
  rw [hwalks] at hlevel
  refine ⟨visits, _, hcourse, hparts, hexpansions, ?_, rfl, ?_, ?_, ?_, ?_⟩
  · rw [hlevel.asked, hcourse.asked]
  · rw [List.filterMap_flatMap]
    simp only [Visit.filterMap_stat?_questions, Visit.flatMap_looks]
  · rw [List.filterMap_flatMap]
    simp only [Visit.filterMap_hash?_questions]
  · rintro front visit back rfl key
    exact hcourse.memory key
  · intro visit hvisit filter hscan
    rw [hcourse.files visit hvisit filter hscan, Visit.scanned_of_scan hscan]
    exact ⟨rfl, Survey.filePaths_below _ _ _⟩

/-! ### A file that is named twice -/

/-- A file that is named twice, and its directory with patterns that pass over it. -/
def overlappingRoots : List Root :=
  [.members [Utf8.encode "/d/c", Utf8.encode "/d/c"], .filtered (Utf8.encode "/d") prunedPatterns]

def overlappingWalk : Except Failure (List (List Expansion)) × Ledger :=
  (overlappingRoots.mapM prunedVantage.expand).on ⟨.empty, .empty, []⟩

def overlappingExpansions : List (List Expansion) :=
  let named : Expansion :=
    .member ⟨"/d/c", .ofName true "c", true, .regularFile ⟨Sha256.digest []⟩ 0⟩
  [[named, named], [.tree [⟨"/d/b", ⟨["b"], true⟩, false, .regularFile ⟨Sha256.digest []⟩ 0⟩]]]

theorem snapshot_asks_exactly_overlapping :
    overlappingWalk.2.asked = [.stat (Utf8.encode "/d/c"), .hash (Utf8.encode "/d/c"),
      .stat (Utf8.encode "/d"), .hash (Utf8.encode "/d/b")] ∧
    ∃ (visits : List Visit) (asked : List Question),
      visits.map Visit.expansion = overlappingExpansions.flatten ∧
      ((prunedVantage.snapshot .identity overlappingRoots .ordered .absolute).on
        ⟨.empty, .empty, []⟩).2.asked = asked ∧
      asked.filterMap Question.stat? = (visits.filter Visit.looks).map Visit.path ∧
      asked.filterMap Question.hash? = visits.flatMap (Visit.hashed prunedVantage) := by
  have houtcome : overlappingWalk.1 = .ok overlappingExpansions := rfl
  have hwalks : (overlappingRoots.mapM prunedVantage.expand).on ⟨.empty, .empty, []⟩
      = (.ok overlappingExpansions, overlappingWalk.2) := Prod.ext houtcome rfl
  obtain ⟨visits, asked, -, -, hexpansions, hasked, -, hstats, hhashes, -⟩ :=
    snapshot_asks_exactly hwalks .identity .ordered .absolute
  exact ⟨rfl, visits, asked, hexpansions, hasked, hstats, hhashes⟩

end Treeprint
