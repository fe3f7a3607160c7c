import Mathlib.Data.List.Forall2
import Mathlib.Logic.Relation
import Treeprint.Disk.Edit
import Treeprint.Proofs.Keeping
import Treeprint.Proofs.Standing

/-!
# What was answered once is answered from memory

A collection of members and unfiltered trees is asked about once.  When its snapshot has succeeded,
the cache holds an answer for each root, `Cache.HasRoot`; calls only add to the cache, so the
answers stay whatever happens to the disk; and a root whose answer is held is expanded without a
question.  The main statement is `snapshot_recalled`: **until something is evicted, the same call
gives the same snapshot and asks nothing**.

Nothing is assumed of the paths.  Two locations may share a text; then they share an answer, the
first time as well as later.  A tree whose top is no directory is the one root that leaves no answer
behind, so it is asked for that each tree is settled (`Vantage.Settles`).
-/

namespace Treeprint

/-! ### Answers that a cache holds -/

/-- The cache holds what the member under this key is expanded to. -/
inductive Cache.HasMember (cache : Cache) (key : String) : Expansion → Prop
  | single {observation : Observation} : cache.path? key = some observation →
    observation.kind ≠ .directory → cache.HasMember key (.member observation)
  | directory {observation : Observation} {listing : Listing} :
    cache.path? key = some observation → observation.kind = .directory →
    cache.listing? key = some listing →
    cache.HasMember key (.directory observation listing.entries)

/-- The cache holds what the path is expanded to as a member. -/
def Cache.HasPath (cache : Cache) (current : List Name) (path : Bytes) (expansion : Expansion) :
    Prop :=
  ∃ location, Path.absolute current path = some location ∧
    cache.HasMember (Path.text location) expansion

/-- The cache holds what the root is expanded to. -/
inductive Cache.HasRoot (cache : Cache) (current : List Name) : Root → List Expansion → Prop
  | members {paths : List Bytes} {expansions : List Expansion} :
    List.Forall₂ (cache.HasPath current) paths expansions →
    cache.HasRoot current (.members paths) expansions
  | tree {directory : Bytes} {location : List Name} {listing : Listing} :
    Path.absolute current directory = some location →
    cache.listing? (Path.text location) = some listing →
    cache.HasRoot current (.tree directory) [.tree listing.entries]

namespace Cache

variable {before after : Cache} {current : List Name}

/-- What is held under these keys stays. -/
structure Retains (keys : String → Prop) (before after : Cache) : Prop where
  path? {key : String} {observation : Observation} : keys key →
    before.path? key = some observation → after.path? key = some observation
  listing? {key : String} {listing : Listing} : keys key →
    before.listing? key = some listing → after.listing? key = some listing

/-- What is only added to keeps all it holds. -/
theorem Extends.retains {paths listings : String → Prop}
    (h : Extends paths listings before after) : Retains (fun _ => True) before after where
  path? _ := h.path?_of_some
  listing? _ := h.listing?_of_some

variable {keys : String → Prop}

theorem HasMember.mono {key : String} {expansion : Expansion}
    (h : before.HasMember key expansion) (hkey : keys key) (hretains : Retains keys before after) :
    after.HasMember key expansion := by
  cases h with
  | single hpath hkind => exact .single (hretains.path? hkey hpath) hkind
  | directory hpath hkind hlisting =>
    exact .directory (hretains.path? hkey hpath) hkind (hretains.listing? hkey hlisting)

theorem HasPath.mono {path : Bytes} {expansion : Expansion}
    (h : before.HasPath current path expansion) (hkeys : ∀ location, keys (Path.text location))
    (hretains : Retains keys before after) : after.HasPath current path expansion := by
  obtain ⟨location, hlocation, hmember⟩ := h
  exact ⟨location, hlocation, hmember.mono (hkeys location) hretains⟩

/-- Answers last as long as what is held for locations stays. -/
theorem HasRoot.mono {root : Root} {expansions : List Expansion}
    (h : before.HasRoot current root expansions) (hkeys : ∀ location, keys (Path.text location))
    (hretains : Retains keys before after) : after.HasRoot current root expansions := by
  cases h with
  | members hmembers => exact .members (hmembers.imp fun _ _ hpath => hpath.mono hkeys hretains)
  | tree hlocation hlisting => exact .tree hlocation (hretains.listing? (hkeys _) hlisting)

end Cache

/-! ### A success leaves its answers behind -/

namespace Vantage

variable {vantage : Vantage} {location : List Name} {key : String} {ledger after : Ledger}

theorem path?_of_member {observation : Observation}
    (h : (vantage.member location key).on ledger = (.ok observation, after)) :
    after.cache.path? key = some observation := by
  rcases hkey : ledger.cache.path? key with _ | found
  · rw [on_member_of_none hkey] at h
    rcases hrun : (vantage.probe location key).on ledger with ⟨failure | probed, middle⟩
    · rw [hrun] at h
      cases h
    · rw [hrun] at h
      cases h
      rw [Cache.path?_putPath, if_pos (path_of_probe hrun).symm]
  · rw [on_member_of_some hkey] at h
    cases h
    exact hkey

theorem listing?_of_contents {entries : List Observation}
    (h : (vantage.contents location key).on ledger = (.ok entries, after)) :
    ∃ listing, after.cache.listing? key = some listing ∧ listing.entries = entries := by
  rcases hkey : ledger.cache.listing? key with _ | listing
  · rw [on_contents_of_none hkey] at h
    rcases hrun : (vantage.scan location .all).on ledger with ⟨failure | scanned, middle⟩
    · rw [hrun] at h
      cases h
    · rw [hrun] at h
      cases h
      exact ⟨⟨key, entries⟩, by rw [Cache.listing?_putListing, if_pos rfl], rfl⟩
  · rw [on_contents_of_some hkey] at h
    cases h
    exact ⟨listing, hkey, rfl⟩

theorem hasPath_of_expandMember {path : Bytes} {expansion : Expansion}
    (h : (vantage.expandMember path).on ledger = (.ok expansion, after)) :
    after.cache.HasPath vantage.current path expansion := by
  rcases hlocation : Path.absolute vantage.current path with _ | location
  · rw [expandMember, absolute_of_none hlocation] at h
    cases h
  · rw [expandMember, absolute_of_some hlocation, pure_bind,
      Work.on_bind_ok (Work.on_intern _ ledger)] at h
    obtain ⟨observation, middle, hmember, hrest⟩ := Work.on_bind_eq_ok h
    have hpath := path?_of_member hmember
    refine ⟨location, hlocation, ?_⟩
    cases hkind : observation.kind with
    | missing | regularFile =>
      rw [hkind] at hrest
      cases hrest
      exact .single hpath (by simp [hkind])
    | directory =>
      rw [hkind] at hrest
      obtain ⟨entries, last, hcontents, hpure⟩ := Work.on_bind_eq_ok hrest
      cases hpure
      obtain ⟨listing, hlisting, rfl⟩ := listing?_of_contents hcontents
      -- the listing comes after the observation, and leaves it there
      have hadded : Cache.Extends (fun _ => False) (· = Path.text location) middle.cache
          ((vantage.contents location (Path.text location)).on middle).2.cache :=
        vantage.adds_contents location (Path.text location) middle
      rw [hcontents] at hadded
      exact .directory (hadded.path?_of_some hpath) hkind hlisting

theorem hasPath_of_expandMembers {paths : List Bytes} {expansions : List Expansion}
    (h : (vantage.expandMembers paths).on ledger = (.ok expansions, after)) :
    List.Forall₂ (after.cache.HasPath vantage.current) paths expansions := by
  induction paths generalizing ledger expansions with
  | nil =>
    cases h
    exact .nil
  | cons path paths ih =>
    obtain ⟨expansion, middle, hfirst, hrest⟩ := Work.on_bind_eq_ok h
    obtain ⟨others, last, hothers, hpure⟩ := Work.on_bind_eq_ok hrest
    cases hpure
    have hadded := vantage.adds_expandMembers paths middle
    rw [hothers] at hadded
    exact .cons ((hasPath_of_expandMember hfirst).mono (fun _ => trivial) hadded.retains)
      (ih hothers)

/-- A root leaves an answer: patterns do not, and a tree does when it is answered from the cache or
    when its top turns out to be a directory. -/
def SettlesRoot (vantage : Vantage) (ledger : Ledger) : Root → Prop
  | .members _ => True
  | .filtered .. => False
  | .tree directory => ∀ location, Path.absolute vantage.current directory = some location →
    (∃ listing, ledger.cache.listing? (Path.text location) = some listing) ∨
    ∃ metadata, vantage.observer.stat ledger.asked.length (Path.render location) = .ok metadata ∧
      metadata.type = .directory

theorem listing?_of_expandTree {entries : List Observation}
    (h : (vantage.expandTree location).on ledger = (.ok entries, after))
    (hsettled : (∃ listing, ledger.cache.listing? (Path.text location) = some listing) ∨
      ∃ metadata, vantage.observer.stat ledger.asked.length (Path.render location) = .ok metadata ∧
        metadata.type = .directory) :
    ∃ listing, after.cache.listing? (Path.text location) = some listing ∧
      listing.entries = entries := by
  rw [expandTree, Work.on_bind_ok (Work.on_intern _ ledger), Work.on_bind_ok (Work.on_get _)] at h
  rcases hkey : ledger.cache.listing? (Path.text location) with _ | listing
  · obtain ⟨metadata, hmetadata, htype⟩ := hsettled.resolve_left (by simp [hkey])
    simp only [hkey] at h
    have hstat := vantage.on_stat location
      { ledger with pool := (ledger.pool.intern (Path.text location)).2 }
    simp only [hmetadata] at hstat
    rw [Work.on_bind_ok hstat, htype] at h
    exact listing?_of_contents h
  · simp only [hkey] at h
    cases h
    exact ⟨listing, hkey, rfl⟩

/-- **A root that is expanded and leaves an answer leaves the right one.** -/
theorem hasRoot_of_expand {root : Root} {expansions : List Expansion}
    (h : (vantage.expand root).on ledger = (.ok expansions, after))
    (hsettled : vantage.SettlesRoot ledger root) :
    after.cache.HasRoot vantage.current root expansions := by
  cases root with
  | members paths => exact .members (hasPath_of_expandMembers h)
  | filtered directory restriction => exact hsettled.elim
  | tree directory =>
    rcases hlocation : Path.absolute vantage.current directory with _ | location
    · rw [expand, absolute_of_none hlocation] at h
      cases h
    · rw [expand, absolute_of_some hlocation, pure_bind] at h
      obtain ⟨entries, middle, htree, hpure⟩ := Work.on_bind_eq_ok h
      cases hpure
      obtain ⟨listing, hlisting, rfl⟩ := listing?_of_expandTree htree (hsettled location hlocation)
      exact .tree hlocation hlisting

/-- Each root of a collection leaves an answer, on the ledger that it is expanded on. -/
def Settles (vantage : Vantage) : List Root → Ledger → Prop
  | [], _ => True
  | root :: roots, ledger =>
    vantage.SettlesRoot ledger root ∧ vantage.Settles roots ((vantage.expand root).on ledger).2

theorem hasRoot_of_gather {recipe : Recipe} {roots : List Root} {entries : List Observation}
    (h : (vantage.gather recipe roots).on ledger = (.ok entries, after))
    (hsettled : vantage.Settles roots ledger) :
    ∃ walks : List (List Expansion),
      List.Forall₂ (after.cache.HasRoot vantage.current) roots walks ∧
      entries = walks.flatten.flatMap recipe.reshape := by
  induction roots generalizing ledger entries with
  | nil =>
    cases h
    exact ⟨[], .nil, rfl⟩
  | cons root roots ih =>
    obtain ⟨expansions, middle, hroot, hrest⟩ := Work.on_bind_eq_ok h
    obtain ⟨others, last, hothers, hpure⟩ := Work.on_bind_eq_ok hrest
    cases hpure
    obtain ⟨hfirst, hlater⟩ := hsettled
    rw [hroot] at hlater
    obtain ⟨walks, hwalks, rfl⟩ := ih hothers hlater
    have hadded := vantage.adds_gather recipe roots middle
    rw [hothers] at hadded
    refine ⟨expansions :: walks, ?_, by simp⟩
    exact .cons ((hasRoot_of_expand hroot hfirst).mono (fun _ => trivial) hadded.retains) hwalks

end Vantage

/-! ### Expanding from memory -/

namespace Work

variable {α β : Type} {cache : Cache}

/-- With this cache the work is done from memory: it ends as given, asks nothing, and leaves the
    cache as it is. -/
def FromMemory (cache : Cache) (work : Work α) (outcome : Except Failure α) : Prop :=
  ∀ ledger, ledger.cache = cache → ∃ pool, work.on ledger = (outcome, { ledger with pool })

theorem fromMemory_pure (a : α) : FromMemory cache (pure a : Work α) (.ok a) :=
  fun ledger _ => ⟨ledger.pool, rfl⟩

theorem FromMemory.bind {work : Work α} {a : α} {next : α → Work β}
    {outcome : Except Failure β} (hwork : FromMemory cache work (.ok a))
    (hnext : FromMemory cache (next a) outcome) : FromMemory cache (work >>= next) outcome := by
  intro ledger hledger
  obtain ⟨pool, hrun⟩ := hwork ledger hledger
  obtain ⟨last, hrest⟩ := hnext { ledger with pool } hledger
  exact ⟨last, by rw [on_bind_ok hrun, hrest]⟩

theorem fromMemory_intern (text : String) : FromMemory cache (intern text) (.ok text) :=
  fun ledger _ => ⟨(ledger.pool.intern text).2, on_intern text ledger⟩

end Work

namespace Vantage

variable {vantage : Vantage} {cache : Cache} {location : List Name} {key : String}

theorem fromMemory_member {observation : Observation}
    (h : cache.path? key = some observation) :
    Work.FromMemory cache (vantage.member location key) (.ok observation) := by
  rintro ledger rfl
  exact ⟨ledger.pool, on_member_of_some h⟩

theorem fromMemory_contents {listing : Listing} (h : cache.listing? key = some listing) :
    Work.FromMemory cache (vantage.contents location key) (.ok listing.entries) := by
  rintro ledger rfl
  exact ⟨ledger.pool, on_contents_of_some h⟩

theorem fromMemory_expandMember {path : Bytes} {expansion : Expansion}
    (h : cache.HasPath vantage.current path expansion) :
    Work.FromMemory cache (vantage.expandMember path) (.ok expansion) := by
  obtain ⟨location, hlocation, hmember⟩ := h
  rw [expandMember, absolute_of_some hlocation, pure_bind]
  apply (Work.fromMemory_intern _).bind
  cases hmember with
  | @single observation hpath hkind =>
    apply (fromMemory_member hpath).bind
    cases hobserved : observation.kind with
    | missing | regularFile => exact Work.fromMemory_pure _
    | directory => exact absurd hobserved hkind
  | directory hpath hkind hlisting =>
    apply (fromMemory_member hpath).bind
    rw [hkind]
    exact (fromMemory_contents hlisting).bind (Work.fromMemory_pure _)

theorem fromMemory_expandMembers {paths : List Bytes} {expansions : List Expansion}
    (h : List.Forall₂ (cache.HasPath vantage.current) paths expansions) :
    Work.FromMemory cache (vantage.expandMembers paths) (.ok expansions) := by
  induction h with
  | nil => exact Work.fromMemory_pure _
  | cons hpath _ ih =>
    exact (fromMemory_expandMember hpath).bind (ih.bind (Work.fromMemory_pure _))

theorem fromMemory_expandTree {listing : Listing}
    (h : cache.listing? (Path.text location) = some listing) :
    Work.FromMemory cache (vantage.expandTree location) (.ok listing.entries) := by
  apply (Work.fromMemory_intern _).bind
  rintro ledger rfl
  refine ⟨ledger.pool, ?_⟩
  rw [Work.on_bind_ok (Work.on_get ledger), h, Work.on_pure]

theorem fromMemory_expand {root : Root} {expansions : List Expansion}
    (h : cache.HasRoot vantage.current root expansions) :
    Work.FromMemory cache (vantage.expand root) (.ok expansions) := by
  cases h with
  | members hmembers => exact fromMemory_expandMembers hmembers
  | tree hlocation hlisting =>
    rw [expand, absolute_of_some hlocation, pure_bind]
    exact (fromMemory_expandTree hlisting).bind (Work.fromMemory_pure _)

theorem fromMemory_gather {recipe : Recipe} {roots : List Root} {walks : List (List Expansion)}
    (h : List.Forall₂ (cache.HasRoot vantage.current) roots walks) :
    Work.FromMemory cache (vantage.gather recipe roots)
      (.ok (walks.flatten.flatMap recipe.reshape)) := by
  induction h with
  | nil => exact Work.fromMemory_pure _
  | @cons root expansions roots walks hroot _ ih =>
    rw [List.flatten_cons, List.flatMap_append]
    exact (fromMemory_expand hroot).bind (ih.bind (Work.fromMemory_pure _))

end Vantage

/-! ### The same call again -/

/-- What calls make of a cache.  Each of them may look at another disk with another observer, and
    may fail. -/
inductive Cache.Called : Cache → Cache → Prop
  | call (vantage : Vantage) (call : Call) (ledger : Ledger) :
    Called ledger.cache ((call.work vantage).on ledger).2.cache

theorem Cache.extends_of_calls {before after : Cache}
    (h : Relation.ReflTransGen Cache.Called before after) :
    Cache.Extends (fun _ => True) (fun _ => True) before after := by
  induction h with
  | refl => exact .refl ..
  | tail _ hcall ih =>
    obtain ⟨vantage, call, ledger⟩ := hcall
    have hadded := call.adds_work vantage ledger
    exact ih.trans (hadded.mono (fun _ _ => trivial) fun _ _ => trivial)

/-- What a snapshot of members and settled trees leaves behind is enough: whoever holds it gives the
    same snapshot, asks nothing and leaves the cache alone. -/
theorem Vantage.exists_held {vantage : Vantage} {recipe : Recipe} {roots : List Root}
    {compareStrategy : CompareStrategy} {strategy : Strategy} {ledger after : Ledger}
    {snapshot : Snapshot}
    (hsnapshot : (vantage.snapshot recipe roots compareStrategy strategy).on ledger
      = (.ok snapshot, after)) (hsettled : vantage.Settles roots ledger) :
    ∃ walks, List.Forall₂ (after.cache.HasRoot vantage.current) roots walks ∧
      ∀ {later : Vantage} {again : Ledger},
        List.Forall₂ (again.cache.HasRoot later.current) roots walks →
        ∃ pool, (later.snapshot recipe roots compareStrategy strategy).on again
          = (.ok snapshot, { again with pool }) := by
  rcases hrun : (vantage.gather recipe roots).on ledger with ⟨failure | entries, middle⟩
  · rw [vantage.on_snapshot_of_gather_error recipe roots compareStrategy strategy hrun] at hsnapshot
    cases hsnapshot
  · obtain ⟨pool, hfolded⟩ :=
      vantage.on_snapshot_of_gather recipe roots compareStrategy strategy hrun
    rw [hfolded] at hsnapshot
    obtain ⟨houtcome, rfl⟩ := Prod.mk.inj hsnapshot
    obtain ⟨walks, hwalks, rfl⟩ := hasRoot_of_gather hrun hsettled
    refine ⟨walks, hwalks, fun {later again} hheld => ?_⟩
    have hmemory : Work.FromMemory again.cache (later.gather recipe roots)
        (.ok (walks.flatten.flatMap recipe.reshape)) := fromMemory_gather hheld
    obtain ⟨between, hgather⟩ := hmemory again rfl
    obtain ⟨last, hlast⟩ :=
      later.on_snapshot_of_gather recipe roots compareStrategy strategy hgather
    exact ⟨last, by rw [hlast, houtcome]⟩

/-- **What was answered once is answered from memory.**  After a snapshot of members and settled
    trees, and any calls by anyone on any disks, the same call gives the same snapshot, asks nothing
    and leaves the cache alone. -/
theorem snapshot_recalled {vantage : Vantage} {recipe : Recipe} {roots : List Root}
    {compareStrategy : CompareStrategy} {strategy : Strategy} {ledger after : Ledger}
    {snapshot : Snapshot}
    (hsnapshot : (vantage.snapshot recipe roots compareStrategy strategy).on ledger
      = (.ok snapshot, after))
    (hsettled : vantage.Settles roots ledger) {later : Vantage} {again : Ledger}
    (hcalls : Relation.ReflTransGen Cache.Called after.cache again.cache)
    (hcurrent : later.current = vantage.current) :
    ∃ pool, (later.snapshot recipe roots compareStrategy strategy).on again
      = (.ok snapshot, { again with pool }) := by
  obtain ⟨walks, hwalks, hheld⟩ := Vantage.exists_held hsnapshot hsettled
  apply hheld
  rw [hcurrent]
  exact hwalks.imp fun _ _ hroot =>
    hroot.mono (fun _ => trivial) (Cache.extends_of_calls hcalls).retains

/-! ### Two names that are shown alike -/

/-- A directory named by the byte `FE`, and in it a directory `x`. -/
def unshownDisk : Disk where
  root := .directory [0xFE] (.directory [0x78] .nil .nil) .nil
  wellFormed := by decide

/-- The directory, a path that is shown alike and is missing, and the directory as a tree. -/
def unshownRoots : List Root := [.members [[0x2F, 0xFE], [0x2F, 0xFF]], .tree [0x2F, 0xFE]]

def unshownVantage : Vantage := ⟨unshownDisk, [], .ofDisk unshownDisk⟩

def unshownCall : Except Failure Snapshot × Ledger :=
  (unshownVantage.snapshot .identity unshownRoots .ordered .relative).on ⟨.empty, .empty, []⟩

def unshownSnapshot : Snapshot :=
  .ofEntries [("/\uFFFD", ⟨.ignored, .directory⟩), ("/\uFFFD/x", ⟨.path "x", .directory⟩)]
    .ordered false

/-- A later look: the disk is empty by then, and the observer answers nothing. -/
def muteVantage : Vantage := ⟨.empty, [], ⟨fun _ _ => .error .other, fun _ _ _ => .error .other⟩⟩

/-- A walk of the root and of a path that is missing, over an empty disk. -/
def strangerCall : Call := .walk (.members [[0x2F], [0x2F, 0x79]])

/-- The ledger after the call of a stranger. -/
def strangerLedger : Ledger :=
  ((strangerCall.work ⟨.empty, [], .ofDisk .empty⟩).on unshownCall.2).2

theorem snapshot_recalled_unshown :
    unshownCall.1 = .ok unshownSnapshot ∧ strangerLedger.cache.pathCount = 3 ∧
    ∃ pool, (muteVantage.snapshot .identity unshownRoots .ordered .relative).on strangerLedger
      = (.ok unshownSnapshot, { strangerLedger with pool }) := by
  have hcall : (unshownVantage.snapshot .identity unshownRoots .ordered .relative).on
      ⟨.empty, .empty, []⟩ = (.ok unshownSnapshot, unshownCall.2) := rfl
  have hsettled : unshownVantage.Settles unshownRoots ⟨.empty, .empty, []⟩ := by
    refine ⟨trivial, ?_, trivial⟩
    intro location hlocation
    cases hlocation
    exact .inl ⟨_, rfl⟩
  have hcalls : Relation.ReflTransGen Cache.Called unshownCall.2.cache strangerLedger.cache :=
    .single (.call ⟨.empty, [], .ofDisk .empty⟩ strangerCall unshownCall.2)
  refine ⟨rfl, by decide, ?_⟩
  exact snapshot_recalled hcall hsettled hcalls rfl

end Treeprint
