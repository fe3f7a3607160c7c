import Treeprint.Proofs.Composing

/-!
# What calls put into a cache

A call adds to the cache and takes nothing from it: what is found under a key stays there, whatever
is found on the disk later on.  `Cache.Extends` says this of two caches, with the keys under which
there may be something new, and `Work.Adds` says it of work that may fail half-way.  No property of
the observer is needed for it.

The keys come from what is named: a call adds observations of members and listings of members and of
unfiltered trees, and nothing besides (`Call.adds_work`).
-/

namespace Treeprint

/-! ### Caches that are added to -/

/-- Nothing is lost or replaced from one cache to another.  New observations stand under keys in
    `paths`, and new listings under keys in `listings`, which are also their own paths. -/
structure Cache.Extends (paths listings : String → Prop) (before after : Cache) : Prop where
  path : ∀ key, after.path? key = before.path? key ∨ before.path? key = none ∧ paths key
  listing : ∀ key, after.listing? key = before.listing? key ∨
    before.listing? key = none ∧ listings key ∧ ∃ entries, after.listing? key = some ⟨key, entries⟩

namespace Cache.Extends

variable {paths listings : String → Prop} {before middle after : Cache}

theorem refl (paths listings : String → Prop) (cache : Cache) :
    Extends paths listings cache cache :=
  ⟨fun _ => .inl rfl, fun _ => .inl rfl⟩

theorem path?_of_some (h : Extends paths listings before after) {key : String}
    {observation : Observation} (hkey : before.path? key = some observation) :
    after.path? key = some observation := by
  rcases h.path key with hsame | ⟨hnone, -⟩
  · rw [hsame, hkey]
  · rw [hnone] at hkey
    cases hkey

theorem listing?_of_some (h : Extends paths listings before after) {key : String}
    {listing : Listing} (hkey : before.listing? key = some listing) :
    after.listing? key = some listing := by
  rcases h.listing key with hsame | ⟨hnone, -⟩
  · rw [hsame, hkey]
  · rw [hnone] at hkey
    cases hkey

theorem trans (h : Extends paths listings before middle)
    (h' : Extends paths listings middle after) : Extends paths listings before after := by
  constructor
  · intro key
    rcases h.path key with hsame | hnew
    · rw [← hsame]
      exact h'.path key
    · exact .inr hnew
  · intro key
    rcases h.listing key with hsame | ⟨hnone, hnew, entries, hkey⟩
    · rw [← hsame]
      exact h'.listing key
    · exact .inr ⟨hnone, hnew, entries, h'.listing?_of_some hkey⟩

theorem mono {morePaths moreListings : String → Prop} (h : Extends paths listings before after)
    (hpaths : ∀ key, paths key → morePaths key)
    (hlistings : ∀ key, listings key → moreListings key) :
    Extends morePaths moreListings before after := by
  constructor
  · intro key
    exact (h.path key).imp_right fun hnew => ⟨hnew.1, hpaths key hnew.2⟩
  · intro key
    exact (h.listing key).imp_right fun hnew => ⟨hnew.1, hlistings key hnew.2.1, hnew.2.2⟩

theorem putPath {observation : Observation} (hnone : before.path? observation.path = none)
    (hkey : paths observation.path) :
    Extends paths listings before (before.putPath observation) := by
  constructor
  · intro key
    rw [path?_putPath]
    split
    · rename_i heq
      exact .inr (heq ▸ ⟨hnone, hkey⟩)
    · exact .inl rfl
  · intro key
    exact .inl (before.listing?_putPath observation key)

theorem putListing {listing : Listing} (hnone : before.listing? listing.path = none)
    (hkey : listings listing.path) :
    Extends paths listings before (before.putListing listing) := by
  constructor
  · intro key
    exact .inl (before.path?_putListing listing key)
  · intro key
    rw [listing?_putListing]
    split
    · rename_i heq
      subst heq
      exact .inr ⟨hnone, hkey, listing.entries, rfl⟩
    · exact .inl rfl

end Cache.Extends

/-! ### Work that adds to the cache -/

namespace Work

variable {α β : Type} {paths listings : String → Prop}

/-- However it ends, the work leaves a cache that extends the one that it began with. -/
def Adds (paths listings : String → Prop) (work : Work α) : Prop :=
  ∀ ledger, Cache.Extends paths listings ledger.cache (work.on ledger).2.cache

theorem adds_pure (a : α) : Adds paths listings (pure a : Work α) :=
  fun _ => .refl ..

theorem adds_throw (failure : Failure) : Adds paths listings (throw failure : Work α) :=
  fun _ => .refl ..

theorem Adds.bind {work : Work α} {next : α → Work β} (hwork : Adds paths listings work)
    (hnext : ∀ a, Adds paths listings (next a)) : Adds paths listings (work >>= next) := by
  intro ledger
  apply after_bind (fun after => Cache.Extends paths listings ledger.cache after.cache)
    (hwork ledger)
  intro a after hadded
  exact hadded.trans (hnext a after)

theorem adds_intern (text : String) : Adds paths listings (intern text) := by
  intro ledger
  rw [on_intern]
  exact .refl ..

theorem Adds.after_intern {text : String} {next : String → Work β}
    (hnext : Adds paths listings (next text)) : Adds paths listings (intern text >>= next) := by
  intro ledger
  rw [on_bind_ok (on_intern text ledger)]
  exact hnext { ledger with pool := (ledger.pool.intern text).2 }

/-- The ledger may be read, when what follows adds to the ledger that was read. -/
theorem Adds.after_get {next : Ledger → Work β}
    (hnext : ∀ ledger, Cache.Extends paths listings ledger.cache
      ((next ledger).on ledger).2.cache) : Adds paths listings (get >>= next) := by
  intro ledger
  rw [on_bind_ok (on_get ledger)]
  exact hnext ledger

theorem Adds.mono {morePaths moreListings : String → Prop} {work : Work α}
    (h : Adds paths listings work) (hpaths : ∀ key, paths key → morePaths key)
    (hlistings : ∀ key, listings key → moreListings key) : Adds morePaths moreListings work :=
  fun ledger => (h ledger).mono hpaths hlistings

end Work

/-! ### Looking adds nothing -/

namespace Vantage

variable (vantage : Vantage) {paths listings : String → Prop}

theorem adds_stat (location : List Name) : Work.Adds paths listings (vantage.stat location) := by
  intro ledger
  rw [on_stat]
  exact .refl ..

theorem adds_content (location : List Name) (metadata : Metadata) :
    Work.Adds paths listings (vantage.content location metadata) := by
  intro ledger
  rw [on_content]
  exact .refl ..

/-- Whatever looks without the cache adds nothing to it. -/
theorem composes_adds : vantage.Composes (fun _ => True) fun _ => Work.Adds paths listings where
  pure := Work.adds_pure
  throw _ := Work.adds_throw _
  bind := Work.Adds.bind
  intern := Work.adds_intern
  stat _ := vantage.adds_stat _
  content _ := vantage.adds_content _

theorem adds_scan (top : List Name) (filter : Survey.Filter) :
    Work.Adds paths listings (vantage.scan top filter) :=
  vantage.composes_adds.scan (fun _ _ => trivial) filter

theorem adds_probe (location : List Name) (key : String) :
    Work.Adds paths listings (vantage.probe location key) :=
  vantage.composes_adds.probe trivial key

theorem adds_withoutDirectory (location : List Name) (metadata : Metadata) :
    Work.Adds paths listings (vantage.withoutDirectory location metadata) :=
  vantage.composes_adds.withoutDirectory (fun _ _ => trivial) metadata

/-- A probe tells of the key that it is given. -/
theorem path_of_probe {vantage : Vantage} {location : List Name} {key : String}
    {ledger after : Ledger} {observation : Observation}
    (h : (vantage.probe location key).on ledger = (.ok observation, after)) :
    observation.path = key := by
  obtain ⟨metadata, middle, -, hrest⟩ := Work.on_bind_eq_ok h
  cases htype : metadata.type with
  | missing | directory =>
    rw [htype] at hrest
    cases hrest
    rfl
  | regularFile =>
    rw [htype] at hrest
    obtain ⟨content, last, -, hpure⟩ := Work.on_bind_eq_ok hrest
    cases hpure
    rfl
  | unrecognized description =>
    rw [htype] at hrest
    cases hrest

/-! ### Members and listings, remembered or not -/

variable {vantage} {location : List Name} {key : String} {ledger : Ledger}

theorem on_member_of_some {observation : Observation}
    (hkey : ledger.cache.path? key = some observation) :
    (vantage.member location key).on ledger = (.ok observation, ledger) := by
  rw [member, Work.on_bind_ok (Work.on_get ledger), hkey, Work.on_pure]

theorem on_member_of_none (hkey : ledger.cache.path? key = none) :
    (vantage.member location key).on ledger
      = match (vantage.probe location key).on ledger with
        | (.ok observation, after) =>
          (.ok observation, { after with cache := after.cache.putPath observation })
        | (.error failure, after) => (.error failure, after) := by
  rw [member, Work.on_bind_ok (Work.on_get ledger), hkey, Work.on_bind]
  rcases (vantage.probe location key).on ledger with ⟨failure | observation, after⟩ <;> rfl

theorem on_contents_of_some {listing : Listing}
    (hkey : ledger.cache.listing? key = some listing) :
    (vantage.contents location key).on ledger = (.ok listing.entries, ledger) := by
  rw [contents, Work.on_bind_ok (Work.on_get ledger), hkey, Work.on_pure]

theorem on_contents_of_none (hkey : ledger.cache.listing? key = none) :
    (vantage.contents location key).on ledger
      = match (vantage.scan location .all).on ledger with
        | (.ok entries, after) =>
          (.ok entries, { after with cache := after.cache.putListing ⟨key, entries⟩ })
        | (.error failure, after) => (.error failure, after) := by
  rw [contents, Work.on_bind_ok (Work.on_get ledger), hkey, Work.on_bind]
  rcases (vantage.scan location .all).on ledger with ⟨failure | entries, after⟩ <;> rfl

theorem adds_member (location : List Name) (key : String) :
    Work.Adds (· = key) listings (vantage.member location key) := by
  intro ledger
  rcases hkey : ledger.cache.path? key with _ | observation
  · have hlooked : Cache.Extends (fun _ => False) listings ledger.cache
        ((vantage.probe location key).on ledger).2.cache := vantage.adds_probe location key ledger
    rw [on_member_of_none hkey]
    rcases hrun : (vantage.probe location key).on ledger with ⟨failure | observation, after⟩
    · rw [hrun] at hlooked
      exact hlooked.mono (fun _ hfalse => hfalse.elim) fun _ hlisting => hlisting
    · rw [hrun] at hlooked
      have hpath : observation.path = key := path_of_probe hrun
      -- probing adds nothing, so the key is still free
      have hnone : after.cache.path? observation.path = none := by
        rw [hpath, (hlooked.path key).resolve_right And.right, hkey]
      exact (hlooked.mono (fun _ hfalse => hfalse.elim) fun _ hlisting => hlisting).trans
        (.putPath hnone hpath)
  · rw [on_member_of_some hkey]
    exact .refl ..

theorem adds_contents (location : List Name) (key : String) :
    Work.Adds paths (· = key) (vantage.contents location key) := by
  intro ledger
  rcases hkey : ledger.cache.listing? key with _ | listing
  · have hlooked : Cache.Extends paths (fun _ => False) ledger.cache
        ((vantage.scan location .all).on ledger).2.cache := vantage.adds_scan location .all ledger
    rw [on_contents_of_none hkey]
    rcases hrun : (vantage.scan location .all).on ledger with ⟨failure | entries, after⟩
    · rw [hrun] at hlooked
      exact hlooked.mono (fun _ hpath => hpath) fun _ hfalse => hfalse.elim
    · rw [hrun] at hlooked
      have hnone : after.cache.listing? key = none := by
        rw [(hlooked.listing key).resolve_right fun hnew => hnew.2.1, hkey]
      exact (hlooked.mono (fun _ hpath => hpath) fun _ hfalse => hfalse.elim).trans
        (.putListing hnone rfl)
  · rw [on_contents_of_some hkey]
    exact .refl ..

end Vantage

/-! ### Roots and the keys that they name -/

/-- The paths that a root names as members. -/
def Root.named : Root → List Bytes
  | .members paths => paths
  | .filtered .. => []
  | .tree _ => []

/-- The paths that a root names for all that is below them. -/
def Root.listed : Root → List Bytes
  | .members paths => paths
  | .filtered .. => []
  | .tree directory => [directory]

namespace Path

/-- The locations that paths spell, seen from a current directory. -/
def locations (current : List Name) (paths : List Bytes) : List (List Name) :=
  paths.filterMap (absolute current)

/-- The text of a location that one of the paths spells. -/
def KeyOf (current : List Name) (paths : List Bytes) (key : String) : Prop :=
  ∃ location ∈ locations current paths, text location = key

theorem KeyOf.mono {current : List Name} {paths morePaths : List Bytes} {key : String}
    (h : KeyOf current paths key) (hpaths : paths ⊆ morePaths) : KeyOf current morePaths key := by
  obtain ⟨location, hlocation, hkey⟩ := h
  obtain ⟨path, hpath, hspells⟩ := List.mem_filterMap.1 hlocation
  exact ⟨location, List.mem_filterMap.2 ⟨path, hpaths hpath, hspells⟩, hkey⟩

theorem keyOf_text {current location : List Name} {path : Bytes}
    (h : absolute current path = some location) : KeyOf current [path] (text location) :=
  ⟨location, by simp [locations, h], rfl⟩

end Path

namespace Vantage

variable (vantage : Vantage) {paths listings : String → Prop}

theorem absolute_of_some {vantage : Vantage} {path : Bytes} {location : List Name}
    (h : Path.absolute vantage.current path = some location) :
    vantage.absolute path = pure location := by
  rw [absolute, h]

theorem absolute_of_none {vantage : Vantage} {path : Bytes}
    (h : Path.absolute vantage.current path = none) :
    vantage.absolute path = throw (.io path .invalidInput) := by
  rw [absolute, h]

theorem adds_expandMember (path : Bytes) :
    Work.Adds (Path.KeyOf vantage.current [path]) (Path.KeyOf vantage.current [path])
      (vantage.expandMember path) := by
  rcases hlocation : Path.absolute vantage.current path with _ | location
  · intro ledger
    rw [expandMember, absolute_of_none hlocation]
    exact .refl ..
  · have hkey : ∀ key, key = Path.text location → Path.KeyOf vantage.current [path] key := by
      rintro key rfl
      exact Path.keyOf_text hlocation
    rw [expandMember, absolute_of_some hlocation, pure_bind]
    apply Work.Adds.after_intern
    apply ((vantage.adds_member location (Path.text location)).mono hkey fun _ h => h).bind
    intro observation
    cases observation.kind with
    | missing | regularFile => exact Work.adds_pure _
    | directory =>
      apply ((vantage.adds_contents location (Path.text location)).mono (fun _ h => h) hkey).bind
      intro contents
      exact Work.adds_pure _

theorem adds_expandMembers (paths : List Bytes) :
    Work.Adds (Path.KeyOf vantage.current paths) (Path.KeyOf vantage.current paths)
      (vantage.expandMembers paths) := by
  induction paths with
  | nil => exact Work.adds_pure _
  | cons path paths ih =>
    have hfirst : ∀ key, Path.KeyOf vantage.current [path] key →
        Path.KeyOf vantage.current (path :: paths) key := fun _ h => h.mono (by simp)
    have hrest : ∀ key, Path.KeyOf vantage.current paths key →
        Path.KeyOf vantage.current (path :: paths) key := fun _ h => h.mono (by simp)
    apply ((vantage.adds_expandMember path).mono hfirst hfirst).bind
    intro expansion
    apply (ih.mono hrest hrest).bind
    intro expansions
    exact Work.adds_pure _

theorem adds_expandTree (location : List Name) :
    Work.Adds paths (· = Path.text location) (vantage.expandTree location) := by
  apply Work.Adds.after_intern
  apply Work.Adds.after_get
  intro ledger
  rcases ledger.cache.listing? (Path.text location) with _ | listing
  · refine Work.Adds.bind (vantage.adds_stat location) (fun metadata => ?_) ledger
    cases metadata.type with
    | directory => exact vantage.adds_contents location (Path.text location)
    | missing | regularFile | unrecognized =>
      exact vantage.adds_withoutDirectory location metadata
  · exact .refl ..

/-- **Expanding a root adds observations of its members, and listings of its members and of an
    unfiltered tree.** -/
theorem adds_expand (root : Root) :
    Work.Adds (Path.KeyOf vantage.current root.named) (Path.KeyOf vantage.current root.listed)
      (vantage.expand root) := by
  cases root with
  | members paths => exact vantage.adds_expandMembers paths
  | filtered directory restriction =>
    apply vantage.composes_adds.located fun _ => trivial
    intro location _
    apply (vantage.composes_adds.expandFiltered (fun _ _ => trivial) restriction).bind
    intro entries
    exact Work.adds_pure _
  | tree directory =>
    rcases hlocation : Path.absolute vantage.current directory with _ | location
    · intro ledger
      rw [expand, absolute_of_none hlocation]
      exact .refl ..
    · have hkey : ∀ key, key = Path.text location → Path.KeyOf vantage.current [directory] key := by
        rintro key rfl
        exact Path.keyOf_text hlocation
      rw [expand, absolute_of_some hlocation, pure_bind]
      apply ((vantage.adds_expandTree location).mono (fun _ h => h) hkey).bind
      intro entries
      exact Work.adds_pure _

theorem adds_gather (recipe : Recipe) (roots : List Root) :
    Work.Adds (Path.KeyOf vantage.current (roots.flatMap Root.named))
      (Path.KeyOf vantage.current (roots.flatMap Root.listed)) (vantage.gather recipe roots) := by
  induction roots with
  | nil => exact Work.adds_pure _
  | cons root roots ih =>
    have hroot := (vantage.adds_expand root).mono
      (fun _ h => h.mono (List.subset_append_left _ (roots.flatMap Root.named)))
      (fun _ h => h.mono (List.subset_append_left _ (roots.flatMap Root.listed)))
    have hroots := ih.mono (fun _ h => h.mono (List.subset_append_right root.named _))
      (fun _ h => h.mono (List.subset_append_right root.listed _))
    apply hroot.bind
    intro expansions
    apply hroots.bind
    intro entries
    exact Work.adds_pure _

end Vantage

/-- Folding entries into fingerprints asks nothing and changes nothing but the pool. -/
theorem Strategy.on_fold (strategy : Strategy) (taken : List String) (entries : List Observation)
    (ledger : Ledger) :
    ∃ pool, (strategy.fold taken entries).on ledger
      = (strategy.choose taken entries, { ledger with pool }) := by
  induction entries generalizing taken ledger with
  | nil => exact ⟨ledger.pool, rfl⟩
  | cons entry rest ih =>
    unfold fold choose
    by_cases htaken : entry.path ∈ taken
    · simp only [if_pos htaken]
      exact ih taken ledger
    · obtain ⟨pool, hpool⟩ := Work.on_internAll (strategy.pooled entry) ledger
      simp only [if_neg htaken, Work.on_bind_ok hpool]
      rcases strategy.judge entry with failure | _ | fingerprint
      · exact ⟨pool, rfl⟩
      · exact ih taken _
      · obtain ⟨last, hrest⟩ := ih (entry.path :: taken) { ledger with pool }
        refine ⟨last, ?_⟩
        rcases hchoose : strategy.choose (entry.path :: taken) rest with failure | entries
        · rw [hchoose] at hrest
          rw [Work.on_bind_error hrest]
          rfl
        · rw [hchoose] at hrest
          rw [Work.on_bind_ok hrest]
          rfl

namespace Vantage

variable (vantage : Vantage) (recipe : Recipe) (roots : List Root)
  (compareStrategy : CompareStrategy) (strategy : Strategy)

/-- Where the roots can be walked, a snapshot is the fold over their entries, and beyond the walk it
    changes nothing but the pool. -/
theorem on_snapshot_of_gather {ledger middle : Ledger} {entries : List Observation}
    (h : (vantage.gather recipe roots).on ledger = (.ok entries, middle)) :
    ∃ pool, (vantage.snapshot recipe roots compareStrategy strategy).on ledger
      = ((strategy.choose [] entries).map
          (Snapshot.ofAccepted · compareStrategy strategy.isAbsolute), { middle with pool }) := by
  unfold snapshot
  cases roots with
  | nil =>
    cases h
    exact ⟨ledger.pool, rfl⟩
  | cons root roots =>
    obtain ⟨pool, hfold⟩ := strategy.on_fold [] entries middle
    refine ⟨pool, ?_⟩
    rw [if_neg (by simp), Work.on_bind_ok h]
    rcases hchoose : strategy.choose [] entries with failure | fingerprints
    · rw [hchoose] at hfold
      rw [Work.on_bind_error hfold]
      rfl
    · rw [hchoose] at hfold
      rw [Work.on_bind_ok hfold]
      cases fingerprints <;> rfl

theorem on_snapshot_of_gather_error {ledger middle : Ledger} {failure : Failure}
    (h : (vantage.gather recipe roots).on ledger = (.error failure, middle)) :
    (vantage.snapshot recipe roots compareStrategy strategy).on ledger
      = (.error failure, middle) := by
  unfold snapshot
  cases roots with
  | nil => cases h
  | cons root roots => rw [if_neg (by simp), Work.on_bind_error h]

/-- A snapshot leaves in the cache what walking its roots leaves there. -/
theorem cache_of_snapshot (ledger : Ledger) :
    ((vantage.snapshot recipe roots compareStrategy strategy).on ledger).2.cache
      = ((vantage.gather recipe roots).on ledger).2.cache := by
  rcases hrun : (vantage.gather recipe roots).on ledger with ⟨failure | entries, middle⟩
  · rw [on_snapshot_of_gather_error vantage recipe roots compareStrategy strategy hrun]
  · obtain ⟨pool, hsnapshot⟩ :=
      on_snapshot_of_gather vantage recipe roots compareStrategy strategy hrun
    rw [hsnapshot]

end Vantage

/-! ### Calls -/

/-- A call of a snapshotter: the walk of a root, or the snapshot of a collection. -/
inductive Call
  | walk (root : Root)
  | snapshot (recipe : Recipe) (roots : List Root) (compareStrategy : CompareStrategy)
      (strategy : Strategy)

namespace Call

/-- The roots that a call walks. -/
def roots : Call → List Root
  | walk root => [root]
  | snapshot _ roots _ _ => roots

/-- What is made of the entries; a walk takes them as they are. -/
def recipe : Call → Recipe
  | walk _ => .identity
  | snapshot recipe _ _ _ => recipe

/-- A call as work, whatever it answers. -/
def work (vantage : Vantage) : Call → Work Unit
  | walk root => do
    let _ ← vantage.expand root
    return
  | snapshot recipe roots compareStrategy strategy => do
    let _ ← vantage.snapshot recipe roots compareStrategy strategy
    return

variable (vantage : Vantage) (call : Call)

/-- A call leaves in the cache what walking its roots leaves there, and it succeeds only where its
    roots can be walked. -/
theorem on_work (ledger : Ledger) :
    ((call.work vantage).on ledger).2.cache
        = ((vantage.gather call.recipe call.roots).on ledger).2.cache ∧
      (((call.work vantage).on ledger).1 = .ok () →
        ∃ entries, ((vantage.gather call.recipe call.roots).on ledger).1 = .ok entries) := by
  cases call with
  | walk root =>
    show ((vantage.expand root >>= fun _ => pure ()).on ledger).2.cache
        = ((vantage.gather .identity [root]).on ledger).2.cache ∧
      (((vantage.expand root >>= fun _ => pure ()).on ledger).1 = .ok () →
        ∃ entries, ((vantage.gather .identity [root]).on ledger).1 = .ok entries)
    rw [Vantage.gather, Work.on_bind, Work.on_bind]
    rcases (vantage.expand root).on ledger with ⟨failure | expansions, after⟩
    · exact ⟨rfl, fun hok => nomatch hok⟩
    · exact ⟨rfl, fun _ => ⟨_, rfl⟩⟩
  | snapshot recipe roots compareStrategy strategy =>
    show ((vantage.snapshot recipe roots compareStrategy strategy >>= fun _ => pure ()).on
          ledger).2.cache = ((vantage.gather recipe roots).on ledger).2.cache ∧
      (((vantage.snapshot recipe roots compareStrategy strategy >>= fun _ => pure ()).on
          ledger).1 = .ok () →
        ∃ entries, ((vantage.gather recipe roots).on ledger).1 = .ok entries)
    rw [← vantage.cache_of_snapshot recipe roots compareStrategy strategy, Work.on_bind]
    rcases hrun : (vantage.gather recipe roots).on ledger with ⟨failure | entries, middle⟩
    · rw [vantage.on_snapshot_of_gather_error recipe roots compareStrategy strategy hrun]
      exact ⟨rfl, fun hok => nomatch hok⟩
    · refine ⟨?_, fun _ => ⟨entries, rfl⟩⟩
      rcases (vantage.snapshot recipe roots compareStrategy strategy).on ledger with
        ⟨failure | snapshot, after⟩ <;> rfl

/-- **A call adds observations of the members that it names, and listings of the members and
    unfiltered trees that it names, and takes nothing away.** -/
theorem adds_work :
    Work.Adds (Path.KeyOf vantage.current (call.roots.flatMap Root.named))
      (Path.KeyOf vantage.current (call.roots.flatMap Root.listed)) (call.work vantage) := by
  intro ledger
  rw [(call.on_work vantage ledger).1]
  exact vantage.adds_gather call.recipe call.roots ledger

end Call

end Treeprint
