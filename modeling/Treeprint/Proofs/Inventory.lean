import Mathlib.Data.List.Dedup
import Treeprint.Disk.Edit
import Treeprint.Proofs.Recalling
import Treeprint.Proofs.Transparency

/-!
# What is in the cache, exactly

Calls of plain snapshotters fill a cache over a disk that stays as it is, and nothing is evicted.
The main statement is `cached_exactly_named`: **the cache holds one observation for each location
that was named as a member, one listing for each directory that was named as a member or as an
unfiltered tree, and nothing else**.  So the order of the calls, of their roots and of the members
does not matter, and neither does naming something twice.  The locations that are named have to be
told apart by their texts; where they are not, the first one is kept
(`cached_by_order_of_lookalikes`).

Three facts about a run come together.  All that is cached is right, which is coherence.  Nothing is
cached but under the keys of what was named, since each call adds only these (`Call.adds_work`).
And all that was named is cached: a walk that succeeds leaves its answers behind, and answers stay.
-/

namespace Treeprint

/-! ### Locations that roots name -/

namespace Root

/-- The locations that roots name as members. -/
def membersOf (current : List Name) (roots : List Root) : List (List Name) :=
  Path.locations current (roots.flatMap named)

/-- The locations that roots name for all that is below them. -/
def listedOf (current : List Name) (roots : List Root) : List (List Name) :=
  Path.locations current (roots.flatMap listed)

/-- A root taken apart: members one by one, and each tree as it is. -/
def parts : Root → List Root
  | .members paths => paths.map fun path => .members [path]
  | .filtered directory restriction => [.filtered directory restriction]
  | .tree directory => [.tree directory]

theorem named_parts (root : Root) : root.parts.flatMap named = root.named := by
  cases root with
  | members paths => simp [parts, named, List.flatMap_map]
  | filtered | tree => rfl

theorem listed_parts (root : Root) : root.parts.flatMap listed = root.listed := by
  cases root with
  | members paths => simp [parts, listed, List.flatMap_map]
  | filtered | tree => rfl

theorem paths_parts (root : Root) : root.parts.flatMap paths = root.paths := by
  cases root with
  | members paths => simp [parts, Root.paths, List.flatMap_map]
  | filtered | tree => rfl

theorem named_subset_paths (root : Root) : root.named ⊆ root.paths := by
  cases root with
  | members | tree => simp [named, paths]
  | filtered => simp [named]

theorem listed_subset_paths (root : Root) : root.listed ⊆ root.paths := by
  cases root with
  | members | tree => simp [listed, paths]
  | filtered => simp [listed]

/-- Roots that have the same parts have the same of all that is told by parts. -/
theorem mem_flatMap_of_parts {f : Root → List Bytes}
    (hf : ∀ root : Root, root.parts.flatMap f = f root) {roots others : List Root}
    (hparts : ∀ part, part ∈ others.flatMap parts ↔ part ∈ roots.flatMap parts) (path : Bytes) :
    path ∈ others.flatMap f ↔ path ∈ roots.flatMap f := by
  have hsplit (some : List Root) : some.flatMap f = (some.flatMap parts).flatMap f := by
    rw [List.flatMap_assoc]
    simp only [hf]
  rw [hsplit others, hsplit roots, List.mem_flatMap, List.mem_flatMap]
  simp only [hparts]

end Root

theorem Path.mem_locations {current location : List Name} {paths : List Bytes} :
    location ∈ Path.locations current paths ↔
      ∃ path ∈ paths, Path.absolute current path = some location :=
  List.mem_filterMap

/-- Whether all that roots spell has a property depends on their parts alone. -/
theorem Root.spells_of_parts {current : List Name} {spelled : List Name → Prop}
    {roots others : List Root}
    (hparts : ∀ part, part ∈ others.flatMap parts ↔ part ∈ roots.flatMap parts)
    (hspells : ∀ root ∈ roots, root.Spells current spelled) :
    ∀ root ∈ others, root.Spells current spelled := by
  intro root hroot path hpath
  have hmem : path ∈ roots.flatMap paths :=
    (mem_flatMap_of_parts paths_parts hparts path).1 (List.mem_flatMap.2 ⟨root, hroot, hpath⟩)
  obtain ⟨whole, hwhole, hpath⟩ := List.mem_flatMap.1 hmem
  exact hspells whole hwhole path hpath

theorem Root.mem_locations_spelled {current : List Name} {spelled : List Name → Prop}
    {roots : List Root} (h : ∀ root ∈ roots, root.Spells current spelled)
    {f : Root → List Bytes} (hf : ∀ root : Root, f root ⊆ root.paths) {location : List Name}
    (hlocation : location ∈ Path.locations current (roots.flatMap f)) : spelled location := by
  obtain ⟨path, hpath, habsolute⟩ := Path.mem_locations.1 hlocation
  obtain ⟨root, hroot, hmem⟩ := List.mem_flatMap.1 hpath
  exact h root hroot path (hf root hmem) location habsolute

/-! ### Which roots can be walked -/

namespace Disk

variable (disk : Disk) (current : List Name)

/-- A fresh walk of the root succeeds. -/
def Walks (root : Root) : Prop := ∃ expansions, disk.expand current root = .ok expansions

variable {disk current}

theorem walks_members_iff {paths : List Bytes} :
    disk.Walks current (.members paths) ↔
      ∀ path ∈ paths, ∃ expansion, disk.expandMember current path = .ok expansion := by
  induction paths with
  | nil => simp [Walks, expand, expandMembers]
  | cons path paths ih =>
    rw [List.forall_mem_cons, ← ih]
    constructor
    · rintro ⟨expansions, hexpand⟩
      rw [expand, expandMembers] at hexpand
      rcases hfirst : disk.expandMember current path with failure | expansion
      · rw [hfirst] at hexpand
        cases hexpand
      rw [hfirst] at hexpand
      rcases hrest : disk.expandMembers current paths with failure | others
      · rw [hrest] at hexpand
        cases hexpand
      · exact ⟨⟨expansion, rfl⟩, others, hrest⟩
    · rintro ⟨⟨expansion, hfirst⟩, others, hrest⟩
      rw [expand] at hrest
      exact ⟨expansion :: others, by rw [expand, expandMembers, hfirst, hrest]; rfl⟩

/-- A root can be walked when its parts can. -/
theorem walks_iff_parts {root : Root} :
    disk.Walks current root ↔ ∀ part ∈ root.parts, disk.Walks current part := by
  cases root with
  | members paths => simp [Root.parts, walks_members_iff]
  | filtered | tree => simp [Root.parts]

/-- Whether roots can be walked depends on their parts alone. -/
theorem walks_of_parts {roots others : List Root}
    (hparts : ∀ part, part ∈ others.flatMap Root.parts ↔ part ∈ roots.flatMap Root.parts)
    (hwalks : ∀ root ∈ roots, disk.Walks current root) :
    ∀ root ∈ others, disk.Walks current root := by
  intro root hroot
  apply walks_iff_parts.2
  intro part hpart
  obtain ⟨whole, hwhole, hmem⟩ :=
    List.mem_flatMap.1 ((hparts part).1 (List.mem_flatMap.2 ⟨root, hroot, hpart⟩))
  exact walks_iff_parts.1 (hwalks whole hwhole) part hmem

theorem gather_ok_iff {recipe : Recipe} {roots : List Root} :
    (∃ entries, disk.gather current recipe roots = .ok entries) ↔
      ∀ root ∈ roots, disk.Walks current root := by
  induction roots with
  | nil => simp [gather]
  | cons root roots ih =>
    rw [List.forall_mem_cons, ← ih]
    constructor
    · rintro ⟨entries, hgather⟩
      rw [gather] at hgather
      rcases hfirst : disk.expand current root with failure | expansions
      · rw [hfirst] at hgather
        cases hgather
      rw [hfirst] at hgather
      rcases hrest : disk.gather current recipe roots with failure | others
      · rw [hrest] at hgather
        cases hgather
      · exact ⟨⟨expansions, hfirst⟩, others, rfl⟩
    · rintro ⟨⟨expansions, hfirst⟩, others, hrest⟩
      exact ⟨_, by rw [gather, hfirst, hrest]; rfl⟩

/-- Whether a look says that there is a directory can be computed. -/
instance (disk : Disk) (location : List Name) : Decidable (disk.IsDirectory location) :=
  match h : disk.metadata location with
  | .ok metadata =>
    decidable_of_iff (metadata.type = .directory) (by simp [IsDirectory, h])
  | .error _ => isFalse (by simp [IsDirectory, h])

end Disk

/-! ### Walks on a coherent cache -/

namespace Cache.Coherent

variable {disk : Disk} {current : List Name} {spelled : List Name → Prop} {ledger : Ledger}

theorem expand (htexts : TellsApart spelled) {root : Root} (hspells : root.Spells current spelled)
    (h : ledger.cache.Coherent disk spelled) :
    (((Vantage.plain disk current).expand root).on ledger).2.cache.Coherent disk
      spelled := by
  exact (Vantage.agrees_expand (Vantage.faithful_plain disk current) htexts hspells).kept h

/-- The plain walk of some roots ends as the reference does, and leaves a coherent cache. -/
theorem gather (htexts : TellsApart spelled) (recipe : Recipe) {roots : List Root}
    (hspells : ∀ root ∈ roots, root.Spells current spelled)
    (h : ledger.cache.Coherent disk spelled) :
    (((Vantage.plain disk current).gather recipe roots).on ledger).1
        = disk.gather current recipe roots ∧
      (((Vantage.plain disk current).gather recipe roots).on ledger).2.cache.Coherent disk
        spelled := by
  have hagrees := Vantage.agrees_gather (Vantage.faithful_plain disk current) htexts recipe hspells
  exact ⟨hagrees.outcome (fun hmay => hmay rfl) h, hagrees.kept h⟩

end Cache.Coherent

/-! ### All that is named is cached -/

/-- What the roots name is in the cache: each member, and each directory among the members and
    unfiltered trees. -/
structure Cache.HasAll (disk : Disk) (current : List Name) (roots : List Root) (cache : Cache) :
    Prop where
  path : ∀ location ∈ Root.membersOf current roots,
    ∃ observation, cache.path? (Path.text location) = some observation
  listing : ∀ location ∈ Root.listedOf current roots, disk.IsDirectory location →
    ∃ listing, cache.listing? (Path.text location) = some listing

namespace Cache.HasAll

variable {disk : Disk} {current : List Name} {roots others : List Root} {before cache : Cache}

theorem nil : cache.HasAll disk current [] :=
  ⟨fun _ hmem => (nomatch hmem), fun _ hmem => (nomatch hmem)⟩

theorem append (h : cache.HasAll disk current roots) (h' : cache.HasAll disk current others) :
    cache.HasAll disk current (roots ++ others) := by
  constructor
  · intro location hlocation
    rw [Root.membersOf, List.flatMap_append, Path.locations, List.filterMap_append,
      List.mem_append] at hlocation
    exact hlocation.elim (h.path location) (h'.path location)
  · intro location hlocation
    rw [Root.listedOf, List.flatMap_append, Path.locations, List.filterMap_append,
      List.mem_append] at hlocation
    exact hlocation.elim (h.listing location) (h'.listing location)

theorem mono {paths listings : String → Prop} (h : before.HasAll disk current roots)
    (hextends : Extends paths listings before cache) : cache.HasAll disk current roots := by
  constructor
  · intro location hlocation
    obtain ⟨observation, hkey⟩ := h.path location hlocation
    exact ⟨observation, hextends.path?_of_some hkey⟩
  · intro location hlocation hdirectory
    obtain ⟨listing, hkey⟩ := h.listing location hlocation hdirectory
    exact ⟨listing, hextends.listing?_of_some hkey⟩

end Cache.HasAll

namespace Vantage

variable {disk : Disk} {current : List Name} {spelled : List Name → Prop} {ledger after : Ledger}

/-- A cached member that is a directory has its listing cached as well. -/
theorem hasAll_of_forall₂ (htexts : TellsApart spelled) {paths : List Bytes}
    {expansions : List Expansion} {cache : Cache}
    (hheld : List.Forall₂ (cache.HasPath current) paths expansions)
    (hcoherent : cache.Coherent disk spelled)
    (hspells : (Root.members paths).Spells current spelled) :
    cache.HasAll disk current [.members paths] := by
  have hmember : ∀ location ∈ Path.locations current ([Root.members paths].flatMap Root.named),
      spelled location ∧ ∃ expansion, cache.HasMember (Path.text location) expansion := by
    intro location hlocation
    obtain ⟨path, hpath, habsolute⟩ := Path.mem_locations.1 hlocation
    have hpath : path ∈ paths := by simpa [Root.named] using hpath
    obtain ⟨index, hindex, rfl⟩ := List.mem_iff_getElem.1 hpath
    obtain ⟨other, hother, hmember⟩ :=
      (List.forall₂_iff_get.1 hheld).2 index hindex ((hheld.length_eq) ▸ hindex)
    obtain rfl : other = location := Option.some.inj (hother.symm.trans habsolute)
    exact ⟨hspells _ hpath other habsolute, _, hmember⟩
  constructor
  · intro location hlocation
    obtain ⟨-, expansion, hmember⟩ := hmember location hlocation
    cases hmember with
    | single hpath | directory hpath => exact ⟨_, hpath⟩
  · intro location hlocation hdirectory
    obtain ⟨hspelled, expansion, hmember⟩ := hmember location hlocation
    cases hmember with
    | directory _ _ hlisting => exact ⟨_, hlisting⟩
    | @single observation hpath hkind =>
      -- a coherent cache does not show a directory as anything else
      obtain ⟨other, hother, htext, hprobe⟩ := hcoherent.paths _ _ hpath
      rw [htexts other location hother hspelled htext] at hprobe
      obtain ⟨-, metadata, hmetadata, hshown, -⟩ := Disk.probe_ok hprobe
      obtain ⟨found, hfound, htype⟩ := hdirectory
      obtain rfl : metadata = found := Except.ok.inj (hmetadata.symm.trans hfound)
      exact absurd (hshown.2 htype) hkind

/-- A root that is expanded leaves in the cache all that it names. -/
theorem hasAll_of_expand (htexts : TellsApart spelled) {root : Root} {expansions : List Expansion}
    (h : ((Vantage.plain disk current).expand root).on ledger = (.ok expansions, after))
    (hcoherent : ledger.cache.Coherent disk spelled)
    (hspells : root.Spells current spelled) : after.cache.HasAll disk current [root] := by
  have hkept := hcoherent.expand htexts hspells
  rw [h] at hkept
  cases root with
  | members paths => exact hasAll_of_forall₂ htexts (hasPath_of_expandMembers h) hkept hspells
  | filtered directory restriction =>
    exact ⟨fun _ hmem => (nomatch hmem), fun _ hmem => (nomatch hmem)⟩
  | tree directory =>
    refine ⟨fun _ hmem => (nomatch hmem), ?_⟩
    intro location hlocation hdirectory
    obtain ⟨path, hpath, habsolute⟩ := Path.mem_locations.1 hlocation
    obtain rfl : path = directory := by simpa [Root.listed] using hpath
    rw [expand, absolute_of_some habsolute, pure_bind] at h
    obtain ⟨entries, middle, htree, hpure⟩ := Work.on_bind_eq_ok h
    cases hpure
    obtain ⟨metadata, hmetadata, htype⟩ := hdirectory
    have hstat : disk.stat [] (Path.render location) = .ok metadata := by
      unfold Disk.metadata at hmetadata
      split at hmetadata
      · rename_i hstat
        rw [hstat, Except.ok.inj hmetadata]
      · cases hmetadata
    obtain ⟨listing, hlisting, -⟩ := listing?_of_expandTree htree (.inr ⟨metadata, hstat, htype⟩)
    exact ⟨listing, hlisting⟩

theorem hasAll_of_gather (htexts : TellsApart spelled) {recipe : Recipe} {roots : List Root}
    {entries : List Observation}
    (h : ((Vantage.plain disk current).gather recipe roots).on ledger = (.ok entries, after))
    (hcoherent : ledger.cache.Coherent disk spelled)
    (hspells : ∀ root ∈ roots, root.Spells current spelled) :
    after.cache.HasAll disk current roots := by
  induction roots generalizing ledger entries with
  | nil => exact .nil
  | cons root roots ih =>
    obtain ⟨expansions, middle, hroot, hrest⟩ := Work.on_bind_eq_ok h
    obtain ⟨others, last, hothers, hpure⟩ := Work.on_bind_eq_ok hrest
    cases hpure
    obtain ⟨hfirst, hlater⟩ := List.forall_mem_cons.1 hspells
    have hkept := hcoherent.expand htexts hfirst
    rw [hroot] at hkept
    have hadded := (Vantage.plain disk current).adds_gather recipe roots middle
    rw [hothers] at hadded
    exact ((hasAll_of_expand htexts hroot hcoherent hfirst).mono hadded).append
      (ih hothers hkept hlater)

end Vantage

/-! ### Runs of calls -/

/-- What calls make of the empty cache, with all roots that they walk.  Each call takes the cache as
    it is and any pool.  The calls succeed, unless they are said to be free to fail. -/
inductive Cache.After (vantage : Vantage) (mayFail : Prop) : List Root → Cache → Prop
  | nothing : After vantage mayFail [] .empty
  | call {roots : List Root} {ledger : Ledger} (call : Call) :
      After vantage mayFail roots ledger.cache →
      (((call.work vantage).on ledger).1 = .ok () ∨ mayFail) →
      After vantage mayFail (roots ++ call.roots) ((call.work vantage).on ledger).2.cache

namespace Cache.After

variable {disk : Disk} {current : List Name} {spelled : List Name → Prop} {mayFail : Prop}
  {roots : List Root} {cache : Cache}

/-- Nothing gets into the cache but under the key of something named. -/
theorem extends_empty {vantage : Vantage} (h : After vantage mayFail roots cache) :
    Extends (Path.KeyOf vantage.current (roots.flatMap Root.named))
      (Path.KeyOf vantage.current (roots.flatMap Root.listed)) .empty cache := by
  induction h with
  | nothing => exact .refl ..
  | @call roots ledger call _ _ ih =>
    have hbefore := ih.mono
      (fun _ hkey => hkey.mono (List.subset_append_left _ (call.roots.flatMap Root.named)))
      (fun _ hkey => hkey.mono (List.subset_append_left _ (call.roots.flatMap Root.listed)))
    have hadded := (call.adds_work vantage ledger).mono
      (fun _ hkey => hkey.mono (List.subset_append_right (roots.flatMap Root.named) _))
      (fun _ hkey => hkey.mono (List.subset_append_right (roots.flatMap Root.listed) _))
    rw [List.flatMap_append, List.flatMap_append]
    exact hbefore.trans hadded

theorem coherent (h : After (Vantage.plain disk current) mayFail roots cache)
    (htexts : TellsApart spelled) (hspells : ∀ root ∈ roots, root.Spells current spelled) :
    cache.Coherent disk spelled := by
  induction h with
  | nothing => exact .empty
  | @call roots ledger call _ _ ih =>
    obtain ⟨hbefore, hcall⟩ := List.forall_mem_append.1 hspells
    rw [(call.on_work _ ledger).1]
    exact ((ih hbefore).gather htexts call.recipe hcall).2

/-- The roots of calls that succeed can be walked. -/
theorem walks (h : After (Vantage.plain disk current) False roots cache)
    (htexts : TellsApart spelled) (hspells : ∀ root ∈ roots, root.Spells current spelled) :
    ∀ root ∈ roots, disk.Walks current root := by
  induction h with
  | nothing => simp
  | @call roots ledger call hrun hok ih =>
    -- on a coherent cache the walk of the call is the reference, so its roots can be walked
    obtain ⟨hbefore, hcall⟩ := List.forall_mem_append.1 hspells
    have houtcome := ((hrun.coherent htexts hbefore).gather htexts call.recipe hcall).1
    obtain ⟨entries, hentries⟩ := (call.on_work _ ledger).2 (hok.resolve_right id)
    rw [hentries] at houtcome
    exact List.forall_mem_append.2
      ⟨ih hbefore, Disk.gather_ok_iff.1 ⟨entries, houtcome.symm⟩⟩

/-- Where the roots can be walked, all that they name gets into the cache, also from calls that fail
    later on. -/
theorem hasAll (h : After (Vantage.plain disk current) mayFail roots cache)
    (htexts : TellsApart spelled) (hspells : ∀ root ∈ roots, root.Spells current spelled)
    (hwalks : ∀ root ∈ roots, disk.Walks current root) : cache.HasAll disk current roots := by
  induction h with
  | nothing => exact .nil
  | @call roots ledger call hrun _ ih =>
    obtain ⟨hbefore, hcall⟩ := List.forall_mem_append.1 hspells
    obtain ⟨hwalked, hwalk⟩ := List.forall_mem_append.1 hwalks
    have hcoherent := hrun.coherent htexts hbefore
    have houtcome := (hcoherent.gather htexts call.recipe hcall).1
    obtain ⟨entries, hentries⟩ := Disk.gather_ok_iff.2 hwalk
    have hgather : ((Vantage.plain disk current).gather call.recipe call.roots).on ledger
        = (.ok entries, (((Vantage.plain disk current).gather call.recipe call.roots).on
            ledger).2) :=
      Prod.ext (houtcome.trans hentries) rfl
    have hadded := call.adds_work (Vantage.plain disk current) ledger
    have hcalled := Vantage.hasAll_of_gather htexts hgather hcoherent hcall
    rw [← (call.on_work _ ledger).1] at hcalled
    exact ((ih hbefore hwalked).mono hadded).append hcalled

end Cache.After

/-! ### The main statement -/

/-- The cache holds an observation for each of these members and a listing for each of these
    locations that is a directory, all as a fresh look gives them, and nothing else. -/
structure Cache.HoldsExactly (disk : Disk) (members listed : List (List Name)) (cache : Cache) :
    Prop where
  path : ∀ key observation, cache.path? key = some observation ↔
    ∃ location ∈ members, Path.text location = key ∧ disk.probe location = .ok observation
  listing : ∀ key listing, cache.listing? key = some listing ↔
    ∃ location ∈ listed, Path.text location = key ∧ disk.IsDirectory location ∧
      listing.path = key ∧ disk.scan location .all = .ok listing.entries
  observed : ∀ location ∈ members, ∃ observation, disk.probe location = .ok observation
  scanned : ∀ location ∈ listed, disk.IsDirectory location →
    ∃ entries, disk.scan location .all = .ok entries

namespace Cache.After

variable {disk : Disk} {current : List Name} {spelled : List Name → Prop} {mayFail : Prop}
  {roots : List Root} {cache : Cache}

/-- Cached observations are of members, and are what a fresh look gives. -/
theorem named_of_path? (h : After (Vantage.plain disk current) mayFail roots cache)
    (htexts : TellsApart spelled) (hspells : ∀ root ∈ roots, root.Spells current spelled)
    {key : String}
    {observation : Observation} (hkey : cache.path? key = some observation) :
    ∃ location ∈ Root.membersOf current roots, Path.text location = key ∧
      disk.probe location = .ok observation := by
  obtain ⟨location, hspelled, htext, hprobe⟩ :=
    (h.coherent htexts hspells).paths key observation hkey
  rcases h.extends_empty.path key with hsame | ⟨-, other, hother, hname⟩
  · rw [hkey, Cache.path?_empty] at hsame
    cases hsame
  · have hotherSpelled := Root.mem_locations_spelled hspells Root.named_subset_paths hother
    have hsame : other = location :=
      htexts other location hotherSpelled hspelled (hname.trans htext.symm)
    exact ⟨location, hsame ▸ hother, htext, hprobe⟩

/-- Cached listings are of directories that are members or unfiltered trees. -/
theorem listed_of_listing? (h : After (Vantage.plain disk current) mayFail roots cache)
    (htexts : TellsApart spelled) (hspells : ∀ root ∈ roots, root.Spells current spelled)
    {key : String}
    {listing : Listing} (hkey : cache.listing? key = some listing) :
    ∃ location ∈ Root.listedOf current roots, Path.text location = key ∧
      disk.IsDirectory location ∧ listing.path = key ∧
      disk.scan location .all = .ok listing.entries := by
  obtain ⟨location, hspelled, htext, hdirectory, hscan⟩ :=
    (h.coherent htexts hspells).listings key listing hkey
  rcases h.extends_empty.listing key with hsame | ⟨-, ⟨other, hother, hname⟩, entries, hnew⟩
  · rw [hkey, Cache.listing?_empty] at hsame
    cases hsame
  · have hotherSpelled := Root.mem_locations_spelled hspells Root.listed_subset_paths hother
    have hsame : other = location :=
      htexts other location hotherSpelled hspelled (hname.trans htext.symm)
    have hpath : listing.path = key := by
      rw [Option.some.inj (hkey.symm.trans hnew)]
    exact ⟨location, hsame ▸ hother, htext, hdirectory, hpath, hscan⟩

/-- Members are cached. -/
theorem path?_of_named (h : After (Vantage.plain disk current) mayFail roots cache)
    (htexts : TellsApart spelled) (hspells : ∀ root ∈ roots, root.Spells current spelled)
    (hwalks : ∀ root ∈ roots, disk.Walks current root) {location : List Name}
    (hlocation : location ∈ Root.membersOf current roots) :
    ∃ observation, cache.path? (Path.text location) = some observation ∧
      disk.probe location = .ok observation := by
  obtain ⟨observation, hkey⟩ := (h.hasAll htexts hspells hwalks).path location hlocation
  obtain ⟨other, hother, htext, hprobe⟩ := (h.coherent htexts hspells).paths _ _ hkey
  have hspelled := Root.mem_locations_spelled hspells Root.named_subset_paths hlocation
  rw [htexts other location hother hspelled htext] at hprobe
  exact ⟨observation, hkey, hprobe⟩

/-- Directories among members and unfiltered trees have their listings cached. -/
theorem listing?_of_listed (h : After (Vantage.plain disk current) mayFail roots cache)
    (htexts : TellsApart spelled) (hspells : ∀ root ∈ roots, root.Spells current spelled)
    (hwalks : ∀ root ∈ roots, disk.Walks current root) {location : List Name}
    (hlocation : location ∈ Root.listedOf current roots) (hdirectory : disk.IsDirectory location) :
    ∃ entries, cache.listing? (Path.text location) = some ⟨Path.text location, entries⟩ ∧
      disk.scan location .all = .ok entries := by
  obtain ⟨listing, hkey⟩ := (h.hasAll htexts hspells hwalks).listing location hlocation hdirectory
  obtain ⟨other, hother, htext, -, hpath, hscan⟩ := h.listed_of_listing? htexts hspells hkey
  have hspelled := Root.mem_locations_spelled hspells Root.listed_subset_paths hlocation
  have hotherSpelled := Root.mem_locations_spelled hspells Root.listed_subset_paths hother
  rw [htexts other location hotherSpelled hspelled htext] at hscan
  exact ⟨listing.entries, by rw [hkey, ← hpath], hscan⟩

/-- **Where the roots can be walked, the cache holds exactly what they name.** -/
theorem holdsExactly (h : After (Vantage.plain disk current) mayFail roots cache)
    (htexts : TellsApart spelled) (hspells : ∀ root ∈ roots, root.Spells current spelled)
    (hwalks : ∀ root ∈ roots, disk.Walks current root) :
    cache.HoldsExactly disk (Root.membersOf current roots) (Root.listedOf current roots) := by
  constructor
  · intro key observation
    constructor
    · exact h.named_of_path? htexts hspells
    · rintro ⟨location, hlocation, rfl, hprobe⟩
      obtain ⟨found, hkey, hfound⟩ := h.path?_of_named htexts hspells hwalks hlocation
      rw [hkey, Except.ok.inj (hfound.symm.trans hprobe)]
  · intro key listing
    constructor
    · exact h.listed_of_listing? htexts hspells
    · rintro ⟨location, hlocation, htext, hdirectory, hpath, hscan⟩
      obtain ⟨entries, hkey, hentries⟩ :=
        h.listing?_of_listed htexts hspells hwalks hlocation hdirectory
      rw [← htext, hkey, htext, ← hpath, Except.ok.inj (hentries.symm.trans hscan)]
  · intro location hlocation
    obtain ⟨observation, -, hprobe⟩ := h.path?_of_named htexts hspells hwalks hlocation
    exact ⟨observation, hprobe⟩
  · intro location hlocation hdirectory
    obtain ⟨entries, -, hscan⟩ := h.listing?_of_listed htexts hspells hwalks hlocation hdirectory
    exact ⟨entries, hscan⟩

end Cache.After

/-! ### How much is cached -/

/-- Tables that have the same values under the same keys are equally large. -/
theorem Table.size_congr {α : Type} {table other : Table α}
    (h : ∀ key, other.get? key = table.get? key) : other.size = table.size := by
  have hkeys : table.keys.Nodup := table.nodup
  have hotherKeys : other.keys.Nodup := other.nodup
  have hperm : other.keys.Perm table.keys := by
    apply (List.perm_ext_iff_of_nodup hotherKeys hkeys).2
    intro key
    rw [← exists_get?_iff, ← exists_get?_iff, h]
  have hlength := hperm.length_eq
  rwa [Table.keys, Table.keys, List.length_map, List.length_map] at hlength

/-- A table that has a value for the text of each of these locations, and no other value, has as
    many as there are different locations. -/
theorem Table.size_eq_of_texts {α : Type} {table : Table α} {spelled : List Name → Prop}
    (htexts : TellsApart spelled) {locations : List (List Name)}
    (hspelled : ∀ location ∈ locations, spelled location)
    (h : ∀ key, (∃ value, table.get? key = some value) ↔
      ∃ location ∈ locations, Path.text location = key) :
    table.size = locations.dedup.length := by
  have hnodup : (locations.dedup.map Path.text).Nodup := by
    apply List.Nodup.map_on _ locations.nodup_dedup
    intro location hlocation other hother htext
    exact htexts location other (hspelled location (List.mem_dedup.1 hlocation))
      (hspelled other (List.mem_dedup.1 hother)) htext
  have hkeys : table.keys.Nodup := table.nodup
  have hperm : table.keys.Perm (locations.dedup.map Path.text) := by
    apply (List.perm_ext_iff_of_nodup hkeys hnodup).2
    intro key
    have hkey : key ∈ table.keys ↔ ∃ location ∈ locations, Path.text location = key := by
      rw [← h key, Table.exists_get?_iff]
    rw [hkey, List.mem_map]
    simp only [List.mem_dedup]
  have hlength := hperm.length_eq
  rwa [Table.keys, List.length_map, List.length_map] at hlength

namespace Cache.HoldsExactly

variable {disk : Disk} {spelled : List Name → Prop} {members listed : List (List Name)}
  {cache other : Cache}

theorem pathCount_eq (h : cache.HoldsExactly disk members listed)
    (htexts : TellsApart spelled) (hspelled : ∀ location ∈ members, spelled location) :
    cache.pathCount = members.dedup.length := by
  apply Table.size_eq_of_texts htexts hspelled
  intro key
  constructor
  · rintro ⟨observation, hkey⟩
    obtain ⟨location, hlocation, htext, -⟩ := (h.path key observation).1 hkey
    exact ⟨location, hlocation, htext⟩
  · rintro ⟨location, hlocation, htext⟩
    obtain ⟨observation, hprobe⟩ := h.observed location hlocation
    exact ⟨observation, (h.path key observation).2 ⟨location, hlocation, htext, hprobe⟩⟩

theorem listingCount_eq (h : cache.HoldsExactly disk members listed)
    (htexts : TellsApart spelled) (hspelled : ∀ location ∈ listed, spelled location) :
    cache.listingCount = (listed.filter (disk.IsDirectory ·)).dedup.length := by
  apply Table.size_eq_of_texts htexts
    fun location hlocation => hspelled location (List.mem_filter.1 hlocation).1
  intro key
  constructor
  · rintro ⟨listing, hkey⟩
    obtain ⟨location, hlocation, htext, hdirectory, -⟩ := (h.listing key listing).1 hkey
    exact ⟨location, List.mem_filter.2 ⟨hlocation, decide_eq_true hdirectory⟩, htext⟩
  · rintro ⟨location, hlocation, htext⟩
    obtain ⟨hlocation, hdirectory⟩ := List.mem_filter.1 hlocation
    have hdirectory : disk.IsDirectory location := of_decide_eq_true hdirectory
    obtain ⟨entries, hscan⟩ := h.scanned location hlocation hdirectory
    exact ⟨⟨key, entries⟩,
      (h.listing key ⟨key, entries⟩).2 ⟨location, hlocation, htext, hdirectory, rfl, hscan⟩⟩

/-- What is held depends on what is named, and not on how often or in which order. -/
theorem ext {otherMembers otherListed : List (List Name)}
    (h : cache.HoldsExactly disk members listed)
    (hother : other.HoldsExactly disk otherMembers otherListed)
    (hmembers : ∀ location, location ∈ otherMembers ↔ location ∈ members)
    (hlisted : ∀ location, location ∈ otherListed ↔ location ∈ listed) :
    (∀ key, other.path? key = cache.path? key) ∧
      ∀ key, other.listing? key = cache.listing? key := by
  constructor
  · intro key
    apply Option.ext
    intro observation
    simp only [hother.path, h.path, hmembers]
  · intro key
    apply Option.ext
    intro listing
    simp only [hother.listing, h.listing, hlisted]

end Cache.HoldsExactly

/-- **The cache holds exactly what was named.**  After a run of calls that succeed there is one
    observation for each location named as a member, and one listing for each location that is a
    directory and was named as a member or as an unfiltered tree.  Any other run that names the
    same, in any order and as often as it likes, leaves the same.  The locations that are named are
    told apart by their texts. -/
theorem cached_exactly_named {disk : Disk} {current : List Name} {spelled : List Name → Prop}
    (htexts : TellsApart spelled) {roots : List Root} {cache : Cache}
    (hspells : ∀ root ∈ roots, root.Spells current spelled)
    (hrun : Cache.After (Vantage.plain disk current) False roots cache) :
    cache.HoldsExactly disk (Root.membersOf current roots) (Root.listedOf current roots) ∧
    cache.pathCount = (Root.membersOf current roots).dedup.length ∧
    cache.listingCount
      = ((Root.listedOf current roots).filter (disk.IsDirectory ·)).dedup.length ∧
    ∀ others after, Cache.After (Vantage.plain disk current) True others after →
      (∀ part, part ∈ others.flatMap Root.parts ↔ part ∈ roots.flatMap Root.parts) →
      (∀ key, after.path? key = cache.path? key) ∧
      (∀ key, after.listing? key = cache.listing? key) ∧
      after.pathCount = cache.pathCount ∧ after.listingCount = cache.listingCount := by
  have hwalks := hrun.walks htexts hspells
  have hexact := hrun.holdsExactly htexts hspells hwalks
  refine ⟨hexact, ?_, ?_, ?_⟩
  · exact hexact.pathCount_eq htexts
      fun _ => Root.mem_locations_spelled hspells Root.named_subset_paths
  · exact hexact.listingCount_eq htexts
      fun _ => Root.mem_locations_spelled hspells Root.listed_subset_paths
  · intro others after hother hparts
    have hsame := hother.holdsExactly htexts (Root.spells_of_parts hparts hspells)
      (Disk.walks_of_parts hparts hwalks)
    have hmembers (location : List Name) :
        location ∈ Root.membersOf current others ↔ location ∈ Root.membersOf current roots := by
      simp only [Root.membersOf, Path.mem_locations,
        Root.mem_flatMap_of_parts Root.named_parts hparts]
    have hlisted (location : List Name) :
        location ∈ Root.listedOf current others ↔ location ∈ Root.listedOf current roots := by
      simp only [Root.listedOf, Path.mem_locations,
        Root.mem_flatMap_of_parts Root.listed_parts hparts]
    obtain ⟨hpaths, hlistings⟩ := hexact.ext hsame hmembers hlisted
    exact ⟨hpaths, hlistings, Table.size_congr hpaths, Table.size_congr hlistings⟩

/-! ### Two directories that are shown alike -/

/-- The snapshot of both directories `x` as members, in one order or the other. -/
def lookalikeOrder (paths : List String) : Call :=
  .snapshot .identity [.members (paths.map Utf8.encode)] .ordered .absolute

/-- What the snapshot of the empty cache leaves behind. -/
def lookalikeLeft (paths : List String) : Cache :=
  (((lookalikeOrder paths).work lookalikeInside).on ⟨.empty, .empty, []⟩).2.cache

/-- Where two locations share a text, one observation and one listing are kept for both, those of
    the location that was named first. -/
theorem cached_by_order_of_lookalikes :
    Cache.After lookalikeInside False [.members (["x", "/\uFFFD/x"].map Utf8.encode)]
      (lookalikeLeft ["x", "/\uFFFD/x"]) ∧
    Cache.After lookalikeInside False [.members (["/\uFFFD/x", "x"].map Utf8.encode)]
      (lookalikeLeft ["/\uFFFD/x", "x"]) ∧
    (lookalikeLeft ["x", "/\uFFFD/x"]).listing? "/\uFFFD/x" = some ⟨"/\uFFFD/x", []⟩ ∧
    (lookalikeLeft ["/\uFFFD/x", "x"]).listing? "/\uFFFD/x" ≠ some ⟨"/\uFFFD/x", []⟩ ∧
    (lookalikeLeft ["x", "/\uFFFD/x"]).pathCount = 1 ∧
    (Path.locations [[0xFE]] (["x", "/\uFFFD/x"].map Utf8.encode)).dedup.length = 2 := by
  have hempty : Cache.After lookalikeInside False [] .empty := .nothing
  have hleft (paths : List String)
      (hruns : (((lookalikeOrder paths).work lookalikeInside).on ⟨.empty, .empty, []⟩).1 = .ok ()) :
      Cache.After lookalikeInside False [.members (paths.map Utf8.encode)] (lookalikeLeft paths) :=
    .call (lookalikeOrder paths) hempty (.inl hruns)
  exact ⟨hleft _ rfl, hleft _ rfl, rfl, by decide, by decide, by decide⟩

/-! ### The same things named twice -/

/-- A directory that is named through a link and with a slash behind, and a path that is missing. -/
def linkedNames : Root := .members [Utf8.encode "/s/", Utf8.encode "/m"]

/-- Both of them as trees. -/
def linkedTrees : List Root := [.tree (Utf8.encode "/s"), .tree (Utf8.encode "/m")]

def linkedWalk : Call := .walk linkedNames

def linkedSnapshot (roots : List Root) : Call := .snapshot .identity roots .ordered .absolute

def linkedStart : Ledger := ⟨.empty, .empty, []⟩

/-- The cache after the members have been walked and the snapshot of the trees been taken. -/
def linkedHeld : Cache :=
  (((linkedSnapshot linkedTrees).work (.plain linkedDisk [])).on
    ((linkedWalk.work (.plain linkedDisk [])).on linkedStart).2).2.cache

/-- The cache after one snapshot of the trees and then of the members, twice. -/
def linkedReordered : Cache :=
  (((linkedSnapshot (linkedTrees ++ [linkedNames, linkedNames])).work (.plain linkedDisk [])).on
    linkedStart).2.cache

theorem cached_exactly_named_linked :
    linkedHeld.pathCount = 2 ∧ linkedHeld.listingCount = 1 ∧
    (∀ key, linkedReordered.path? key = linkedHeld.path? key) ∧
    (∀ key, linkedReordered.listing? key = linkedHeld.listing? key) := by
  have hspells : ∀ root ∈ linkedNames :: linkedTrees, root.Spells [] Path.IsSpelled := by
    intro root hroot
    apply Root.spells_isSpelled (by simp [Path.IsSpelled])
    intro path hpath
    have hmem : path ∈ (linkedNames :: linkedTrees).flatMap Root.paths :=
      List.mem_flatMap.2 ⟨root, hroot, hpath⟩
    simp only [linkedNames, linkedTrees, List.flatMap_cons, List.flatMap_nil, Root.paths,
      List.cons_append, List.nil_append, List.mem_cons, List.not_mem_nil, or_false] at hmem
    rcases hmem with rfl | rfl | rfl | rfl
    · exact ⟨"/s/", rfl⟩
    · exact ⟨"/m", rfl⟩
    · exact ⟨"/s", rfl⟩
    · exact ⟨"/m", rfl⟩
  have hwalk : Cache.After (.plain linkedDisk []) False [linkedNames]
      ((linkedWalk.work (.plain linkedDisk [])).on linkedStart).2.cache :=
    have hstart : Cache.After (.plain linkedDisk []) False [] linkedStart.cache := .nothing
    hstart.call linkedWalk (.inl rfl)
  have hrun : Cache.After (.plain linkedDisk []) False (linkedNames :: linkedTrees)
      linkedHeld :=
    hwalk.call (linkedSnapshot linkedTrees) (.inl rfl)
  have hreordered : Cache.After (.plain linkedDisk []) True
      (linkedTrees ++ [linkedNames, linkedNames]) linkedReordered :=
    have hstart : Cache.After (.plain linkedDisk []) True [] linkedStart.cache := .nothing
    hstart.call (linkedSnapshot (linkedTrees ++ [linkedNames, linkedNames])) (.inr trivial)
  obtain ⟨-, hpathCount, hlistingCount, hsame⟩ :=
    cached_exactly_named tellsApart_isSpelled hspells hrun
  have hparts (part : Root) :
      part ∈ (linkedTrees ++ [linkedNames, linkedNames]).flatMap Root.parts ↔
        part ∈ (linkedNames :: linkedTrees).flatMap Root.parts := by
    simp only [List.flatMap_append, List.flatMap_cons, List.flatMap_nil, List.append_nil,
      List.mem_append]
    tauto
  obtain ⟨hpaths, hlistings, -⟩ := hsame _ _ hreordered hparts
  exact ⟨hpathCount, hlistingCount, hpaths, hlistings⟩

end Treeprint
