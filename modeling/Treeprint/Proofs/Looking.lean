import Treeprint.Proofs.Keeping
import Treeprint.Proofs.Standing

/-!
# The cache does not see what is made of a walk

A call walks its roots, reshapes what it finds and folds it into a snapshot, root by root and in one
go.  The main statement is `snapshots_leave_same_cache`: **what the call leaves in the cache is
determined by the walk alone**.  Recipes, strategies and pools of texts have no part in it, not even
when a strategy refuses an entry and the call fails.

Two properties of work carry this, each with a rule for every way in which work is put together.
Work that *looks* (`Work.Looks`) is determined by the questions that were asked before it, and
leaves the cache alone; the expansion of a filtered tree is of this kind.  Work that *gathers*
(`Work.Gathers`) reads the cache and adds to it, but it does not read the pool, and every listing
that it adds is what a scan of the directory gave in its course.
-/

namespace Treeprint

/-- The two ledgers differ at most in their pools of texts. -/
structure Ledger.Level (ledger other : Ledger) : Prop where
  cache : other.cache = ledger.cache
  asked : other.asked = ledger.asked

/-- Between the two ledgers a listing was made by a scan of its directory, and put under its key. -/
def Vantage.Scanned (vantage : Vantage) (listed : List Name → Prop) (ledger after : Ledger)
    (key : String) (listing : Listing) : Prop :=
  ∃ location, listed location ∧ Path.text location = key ∧ listing.path = key ∧
    ∃ start last, (vantage.scan location .all).on start = (.ok listing.entries, last) ∧
      ledger.asked <+: start.asked ∧ last.asked <+: after.asked

theorem Vantage.Scanned.widen {vantage : Vantage} {listed : List Name → Prop}
    {first ledger after last : Ledger} {key : String} {listing : Listing}
    (h : vantage.Scanned listed ledger after key listing) (hfirst : first.asked <+: ledger.asked)
    (hlast : after.asked <+: last.asked) : vantage.Scanned listed first last key listing := by
  obtain ⟨location, hlisted, htext, hpath, start, stop, hscan, hstart, hstop⟩ := h
  exact ⟨location, hlisted, htext, hpath, start, stop, hscan, hfirst.trans hstart,
    hstop.trans hlast⟩

namespace Work

variable {α β : Type}

/-! ### Work on two ledgers -/

/-- On ledgers that are related the work ends alike, and it leaves related ledgers behind. -/
def Respects (related : Ledger → Ledger → Prop) (work : Work α) : Prop :=
  ∀ ledger other, related ledger other → (work.on other).1 = (work.on ledger).1 ∧
    related (work.on ledger).2 (work.on other).2

variable {related : Ledger → Ledger → Prop}

theorem respects_pure (a : α) : Respects related (pure a : Work α) :=
  fun _ _ h => ⟨rfl, h⟩

theorem respects_throw (failure : Failure) : Respects related (throw failure : Work α) :=
  fun _ _ h => ⟨rfl, h⟩

theorem Respects.bind {work : Work α} {next : α → Work β} (hwork : Respects related work)
    (hnext : ∀ a, Respects related (next a)) : Respects related (work >>= next) := by
  intro ledger other h
  have hfirst := hwork ledger other h
  rw [on_bind, on_bind]
  rcases hrun : work.on ledger with ⟨outcome, after⟩
  rcases hother : work.on other with ⟨outcome', after'⟩
  rw [hrun, hother] at hfirst
  obtain ⟨houtcome, hafter⟩ := hfirst
  simp only at houtcome hafter
  subst houtcome
  cases outcome' with
  | error failure => exact ⟨rfl, hafter⟩
  | ok a => exact hnext a after after' hafter

/-- The questions are only added to. -/
def Grows (work : Work α) : Prop := ∀ ledger, ledger.asked <+: (work.on ledger).2.asked

theorem grows_pure (a : α) : Grows (pure a : Work α) := fun _ => List.prefix_rfl

theorem grows_throw (failure : Failure) : Grows (throw failure : Work α) :=
  fun _ => List.prefix_rfl

theorem Grows.bind {work : Work α} {next : α → Work β} (hwork : Grows work)
    (hnext : ∀ a, Grows (next a)) : Grows (work >>= next) := by
  intro ledger
  apply after_bind (fun after => ledger.asked <+: after.asked) (hwork ledger)
  intro a after hasked
  exact hasked.trans (hnext a after)

theorem grows_changeCache (change : Cache → Cache) : Grows (changeCache change) :=
  fun _ => List.prefix_rfl

theorem respects_changeCache (change : Cache → Cache) :
    Respects Ledger.Level (changeCache change) :=
  fun _ _ h => ⟨rfl, congrArg change h.cache, h.asked⟩

/-- What is made of a result afterwards does not show in the ledger. -/
theorem ledger_of_bind_pure (work : Work α) (f : α → β) (ledger : Ledger) :
    ((work >>= fun a => pure (f a)).on ledger).2 = (work.on ledger).2 := by
  rw [on_bind]
  rcases work.on ledger with ⟨failure | a, after⟩ <;> rfl

/-! ### Work that looks -/

/-- Work that looks: how it ends and what it asks is determined by the questions before it, and it
    leaves the cache alone. -/
structure Looks (work : Work α) : Prop where
  same : Respects (fun ledger other => other.asked = ledger.asked) work
  cache : ∀ ledger, (work.on ledger).2.cache = ledger.cache
  asked : Grows work

theorem looks_pure (a : α) : Looks (pure a : Work α) :=
  ⟨respects_pure a, fun _ => rfl, grows_pure a⟩

theorem looks_throw (failure : Failure) : Looks (throw failure : Work α) :=
  ⟨respects_throw failure, fun _ => rfl, grows_throw failure⟩

theorem looks_intern (text : String) : Looks (intern text) where
  same ledger other h := by
    rw [on_intern, on_intern]
    exact ⟨rfl, h⟩
  cache ledger := by rw [on_intern]
  asked ledger := ⟨[], by rw [on_intern, List.append_nil]⟩

theorem Looks.bind {work : Work α} {next : α → Work β} (hwork : Looks work)
    (hnext : ∀ a, Looks (next a)) : Looks (work >>= next) where
  same := hwork.same.bind fun a => (hnext a).same
  cache ledger := by
    apply after_bind (fun after => after.cache = ledger.cache) (hwork.cache ledger)
    intro a after hcache
    exact ((hnext a).cache after).trans hcache
  asked := hwork.asked.bind fun a => (hnext a).asked

/-! ### Work that gathers -/

/-- Work that gathers: the pool has no part in how it ends, in what it asks and in what it leaves in
    the cache, and the listings that it adds come from scans of listed directories. -/
structure Gathers (vantage : Vantage) (listed : List Name → Prop) (work : Work α) : Prop where
  same : Respects Ledger.Level work
  asked : Grows work
  scanned : ∀ ledger key listing, (work.on ledger).2.cache.listing? key = some listing →
    ledger.cache.listing? key = some listing ∨
      vantage.Scanned listed ledger (work.on ledger).2 key listing

variable {vantage : Vantage} {listed : List Name → Prop}

theorem Looks.gathers {work : Work α} (h : Looks work) : Gathers vantage listed work where
  same ledger other hlevel := by
    obtain ⟨houtcome, hasked⟩ := h.same ledger other hlevel.asked
    exact ⟨houtcome, by rw [h.cache, h.cache, hlevel.cache], hasked⟩
  asked := h.asked
  scanned ledger key listing hkey := by
    rw [h.cache] at hkey
    exact .inl hkey

theorem Gathers.bind {work : Work α} {next : α → Work β} (hwork : Gathers vantage listed work)
    (hnext : ∀ a, Gathers vantage listed (next a)) : Gathers vantage listed (work >>= next) where
  same := hwork.same.bind fun a => (hnext a).same
  asked := hwork.asked.bind fun a => (hnext a).asked
  scanned ledger key listing hkey := by
    have hfirst := hwork.scanned ledger key listing
    have hasked := hwork.asked ledger
    rcases hrun : work.on ledger with ⟨failure | a, after⟩
    · rw [on_bind_error hrun] at hkey ⊢
      rw [hrun] at hfirst
      exact hfirst hkey
    · rw [on_bind_ok hrun] at hkey ⊢
      rw [hrun] at hfirst hasked
      have hlater := (hnext a).asked after
      rcases (hnext a).scanned after key listing hkey with hkey | hscanned
      · exact (hfirst hkey).imp_right fun hscanned => hscanned.widen List.prefix_rfl hlater
      · exact .inr (hscanned.widen hasked List.prefix_rfl)

/-- The ledger may be read, when what follows goes by the cache alone. -/
theorem Gathers.after_get {next : Ledger → Work β}
    (hnext : ∀ ledger, Gathers vantage listed (next ledger))
    (hcache : ∀ ledger other, other.cache = ledger.cache → next other = next ledger) :
    Gathers vantage listed (get >>= next) where
  same ledger other hlevel := by
    rw [on_bind_ok (on_get ledger), on_bind_ok (on_get other), hcache ledger other hlevel.cache]
    exact (hnext ledger).same ledger other hlevel
  asked ledger := by
    rw [on_bind_ok (on_get ledger)]
    exact (hnext ledger).asked ledger
  scanned ledger := by
    rw [on_bind_ok (on_get ledger)]
    exact (hnext ledger).scanned ledger

theorem gathers_putPath (observation : Observation) :
    Gathers vantage listed (changeCache (·.putPath observation)) where
  same := respects_changeCache _
  asked := grows_changeCache _
  scanned ledger key listing hkey := by
    rw [on_changeCache, Cache.listing?_putPath] at hkey
    exact .inl hkey

theorem Gathers.after_intern {text : String} {next : String → Work β}
    (hnext : Gathers vantage listed (next text)) :
    Gathers vantage listed (intern text >>= next) where
  same ledger other hlevel := by
    rw [on_bind_ok (on_intern text ledger), on_bind_ok (on_intern text other)]
    exact hnext.same _ _ ⟨hlevel.cache, hlevel.asked⟩
  asked ledger := by
    rw [on_bind_ok (on_intern text ledger)]
    exact hnext.asked { ledger with pool := (ledger.pool.intern text).2 }
  scanned ledger := by
    rw [on_bind_ok (on_intern text ledger)]
    exact hnext.scanned { ledger with pool := (ledger.pool.intern text).2 }

end Work

/-! ### Which parts of a walk only look -/

namespace Vantage

variable (vantage : Vantage)

theorem looks_stat (location : List Name) : Work.Looks (vantage.stat location) where
  same ledger other h := by
    rw [on_stat, on_stat, h]
    exact ⟨rfl, rfl⟩
  cache ledger := by rw [on_stat]
  asked ledger := by
    rw [on_stat]
    exact List.prefix_append _ _

theorem looks_content (location : List Name) (metadata : Metadata) :
    Work.Looks (vantage.content location metadata) where
  same ledger other h := by
    rw [on_content, on_content, h]
    exact ⟨rfl, rfl⟩
  cache ledger := by rw [on_content]
  asked ledger := by
    rw [on_content]
    exact List.prefix_append _ _

/-- Whatever is walked without the cache only looks. -/
theorem composes_looks : vantage.Composes (fun _ => True) fun _ => Work.Looks where
  pure := Work.looks_pure
  throw _ := Work.looks_throw _
  bind := Work.Looks.bind
  intern := Work.looks_intern
  stat _ := vantage.looks_stat _
  content _ := vantage.looks_content _

theorem looks_scan (top : List Name) (filter : Survey.Filter) :
    Work.Looks (vantage.scan top filter) :=
  vantage.composes_looks.scan (fun _ _ => trivial) filter

theorem looks_probe (location : List Name) (key : String) :
    Work.Looks (vantage.probe location key) :=
  vantage.composes_looks.probe trivial key

theorem looks_withoutDirectory (location : List Name) (metadata : Metadata) :
    Work.Looks (vantage.withoutDirectory location metadata) :=
  vantage.composes_looks.withoutDirectory (fun _ _ => trivial) metadata

/-- **A filtered tree is expanded without a glance at the cache.** -/
theorem looks_expand_filtered (directory : Bytes) (restriction : Restriction) :
    Work.Looks (vantage.expand (.filtered directory restriction)) := by
  apply vantage.composes_looks.located fun _ => trivial
  intro location _
  apply (vantage.composes_looks.expandFiltered (fun _ _ => trivial) restriction).bind
  intro entries
  exact Work.looks_pure _

/-! ### Walks gather -/

variable {listed : List Name → Prop}

theorem gathers_member (location : List Name) (key : String) :
    Work.Gathers vantage listed (vantage.member location key) := by
  apply Work.Gathers.after_get
  · intro ledger
    cases ledger.cache.path? key with
    | some observation => exact (Work.looks_pure _).gathers
    | none =>
      apply (vantage.looks_probe location key).gathers.bind
      intro observation
      exact (Work.gathers_putPath observation).bind fun _ => (Work.looks_pure _).gathers
  · intro ledger other hcache
    rw [hcache]

/-- A scan may be put under its key. -/
theorem gathers_scan {location : List Name} (hlisted : listed location) :
    Work.Gathers vantage listed (do
      let entries ← vantage.scan location .all
      Work.changeCache (·.putListing ⟨Path.text location, entries⟩)
      return entries) where
  same := by
    have hscan : Work.Gathers vantage listed (vantage.scan location .all) :=
      (vantage.looks_scan location .all).gathers
    apply hscan.same.bind
    intro entries
    exact (Work.respects_changeCache _).bind fun _ => Work.respects_pure _
  asked := by
    apply (vantage.looks_scan location .all).asked.bind
    intro entries
    exact (Work.grows_changeCache _).bind fun _ => Work.grows_pure _
  scanned ledger key listing hkey := by
    have hcache := (vantage.looks_scan location .all).cache ledger
    rcases hrun : (vantage.scan location .all).on ledger with ⟨failure | entries, after⟩
    · rw [hrun] at hcache
      rw [Work.on_bind_error hrun] at hkey
      exact .inl (hcache ▸ hkey)
    · rw [hrun] at hcache
      rw [Work.on_bind_ok hrun, Work.on_bind_ok (Work.on_changeCache _ after),
        Work.on_pure] at hkey ⊢
      simp only [Cache.listing?_putListing] at hkey
      split at hkey
      · rename_i hsame
        cases hkey
        exact .inr ⟨location, hlisted, hsame.symm, hsame.symm, ledger, after, hrun,
          List.prefix_rfl, List.prefix_rfl⟩
      · exact .inl (hcache ▸ hkey)

/-- The contents of a directory come from the cache, or from a scan that is put there. -/
theorem gathers_contents {location : List Name} (hlisted : listed location) :
    Work.Gathers vantage listed (vantage.contents location (Path.text location)) := by
  apply Work.Gathers.after_get
  · intro ledger
    cases ledger.cache.listing? (Path.text location) with
    | some listing => exact (Work.looks_pure _).gathers
    | none => exact vantage.gathers_scan hlisted
  · intro ledger other hcache
    rw [hcache]

theorem gathers_expandMember {path : Bytes}
    (hlisted : ∀ location, Path.absolute vantage.current path = some location → listed location) :
    Work.Gathers vantage listed (vantage.expandMember path) := by
  rcases hlocation : Path.absolute vantage.current path with _ | location
  · rw [expandMember, absolute_of_none hlocation]
    exact (Work.looks_throw _).gathers
  · rw [expandMember, absolute_of_some hlocation, pure_bind]
    apply Work.Gathers.after_intern
    apply (vantage.gathers_member location (Path.text location)).bind
    intro observation
    cases observation.kind with
    | missing | regularFile => exact (Work.looks_pure _).gathers
    | directory =>
      apply (vantage.gathers_contents (hlisted location hlocation)).bind
      intro contents
      exact (Work.looks_pure _).gathers

theorem gathers_expandMembers {paths : List Bytes}
    (hlisted : ∀ location ∈ Path.locations vantage.current paths, listed location) :
    Work.Gathers vantage listed (vantage.expandMembers paths) := by
  induction paths with
  | nil => exact (Work.looks_pure _).gathers
  | cons path paths ih =>
    have hfirst : ∀ location, Path.absolute vantage.current path = some location →
        listed location := by
      intro location hlocation
      exact hlisted location (List.mem_filterMap.2 ⟨path, List.mem_cons_self, hlocation⟩)
    have hrest := ih fun location hlocation => by
      obtain ⟨other, hother, hspells⟩ := List.mem_filterMap.1 hlocation
      exact hlisted location (List.mem_filterMap.2 ⟨other, List.mem_cons_of_mem _ hother, hspells⟩)
    apply (vantage.gathers_expandMember hfirst).bind
    intro expansion
    apply hrest.bind
    intro expansions
    exact (Work.looks_pure _).gathers

theorem gathers_expandTree {location : List Name} (hlisted : listed location) :
    Work.Gathers vantage listed (vantage.expandTree location) := by
  apply Work.Gathers.after_intern
  apply Work.Gathers.after_get
  · intro ledger
    cases ledger.cache.listing? (Path.text location) with
    | some listing => exact (Work.looks_pure _).gathers
    | none =>
      apply (vantage.looks_stat location).gathers.bind
      intro metadata
      cases metadata.type with
      | directory => exact vantage.gathers_contents hlisted
      | missing | regularFile | unrecognized =>
        exact (vantage.looks_withoutDirectory location metadata).gathers
  · intro ledger other hcache
    rw [hcache]

/-- **Expanding a root gathers**, whatever its shape. -/
theorem gathers_expand {root : Root}
    (hlisted : ∀ location ∈ Path.locations vantage.current root.listed, listed location) :
    Work.Gathers vantage listed (vantage.expand root) := by
  cases root with
  | members paths => exact vantage.gathers_expandMembers hlisted
  | filtered directory restriction =>
    exact (vantage.looks_expand_filtered directory restriction).gathers
  | tree directory =>
    rcases hlocation : Path.absolute vantage.current directory with _ | location
    · rw [expand, absolute_of_none hlocation]
      exact (Work.looks_throw _).gathers
    · have hmem : location ∈ Path.locations vantage.current [directory] := by
        simp [Path.locations, hlocation]
      rw [expand, absolute_of_some hlocation, pure_bind]
      apply (vantage.gathers_expandTree (hlisted location hmem)).bind
      intro entries
      exact (Work.looks_pure _).gathers

theorem gathers_walks {roots : List Root}
    (hlisted : ∀ location ∈ Path.locations vantage.current (roots.flatMap Root.listed),
      listed location) :
    Work.Gathers vantage listed (roots.mapM vantage.expand) := by
  induction roots with
  | nil => exact (Work.looks_pure _).gathers
  | cons root roots ih =>
    rw [List.flatMap_cons, Path.locations, List.filterMap_append] at hlisted
    rw [List.mapM_cons]
    apply (vantage.gathers_expand fun location hlocation =>
      hlisted location (List.mem_append_left _ hlocation)).bind
    intro expansions
    apply (ih fun location hlocation => hlisted location (List.mem_append_right _ hlocation)).bind
    intro others
    exact (Work.looks_pure _).gathers

/-! ### What is made of a walk leaves no trace -/

/-- Reshaping what was found leaves no trace in the ledger. -/
theorem ledger_of_gather (recipe : Recipe) (roots : List Root) (ledger : Ledger) :
    ((vantage.gather recipe roots).on ledger).2 = ((roots.mapM vantage.expand).on ledger).2 := by
  induction roots generalizing ledger with
  | nil => rfl
  | cons root roots ih =>
    rw [gather, List.mapM_cons]
    rcases hrun : (vantage.expand root).on ledger with ⟨failure | expansions, middle⟩
    · rw [Work.on_bind_error hrun, Work.on_bind_error hrun]
    · rw [Work.on_bind_ok hrun, Work.on_bind_ok hrun, Work.ledger_of_bind_pure,
        Work.ledger_of_bind_pure, ih]

/-- Folding what was found leaves no trace but in the pool. -/
theorem level_of_snapshot (recipe : Recipe) (roots : List Root) (compareStrategy : CompareStrategy)
    (strategy : Strategy) (ledger : Ledger) :
    ((roots.mapM vantage.expand).on ledger).2.Level
      ((vantage.snapshot recipe roots compareStrategy strategy).on ledger).2 := by
  rw [← vantage.ledger_of_gather recipe]
  rcases hrun : (vantage.gather recipe roots).on ledger with ⟨failure | entries, middle⟩
  · rw [on_snapshot_of_gather_error vantage recipe roots compareStrategy strategy hrun]
    exact ⟨rfl, rfl⟩
  · obtain ⟨pool, hsnapshot⟩ :=
      on_snapshot_of_gather vantage recipe roots compareStrategy strategy hrun
    rw [hsnapshot]
    exact ⟨rfl, rfl⟩

end Vantage

/-- **What a call leaves in the cache is determined by the walk of its roots.**  Two snapshotters
    with one observer leave the same cache, whatever they make of what they find and whether or not
    their strategies refuse it.  What was cached stays as it was, a listing that is new is what a
    scan gave in the course of the call, and a filtered tree neither reads the cache nor changes
    it. -/
theorem snapshots_leave_same_cache (vantage : Vantage) (roots : List Root) (cache : Cache)
    (asked : List Question) :
    (∀ recipe other compareStrategy otherCompareStrategy strategy otherStrategy pool otherPool,
      ((vantage.snapshot other roots otherCompareStrategy otherStrategy).on
          ⟨cache, otherPool, asked⟩).2.cache
        = ((vantage.snapshot recipe roots compareStrategy strategy).on
          ⟨cache, pool, asked⟩).2.cache) ∧
    (∀ recipe compareStrategy strategy pool after,
      ((vantage.snapshot recipe roots compareStrategy strategy).on ⟨cache, pool, asked⟩).2
        = after →
      (∀ key observation, cache.path? key = some observation →
        after.cache.path? key = some observation) ∧
      (∀ key listing, cache.listing? key = some listing →
        after.cache.listing? key = some listing) ∧
      ∀ key listing, after.cache.listing? key = some listing →
        cache.listing? key = some listing ∨
          vantage.Scanned (· ∈ Path.locations vantage.current (roots.flatMap Root.listed))
            ⟨cache, pool, asked⟩ after key listing) ∧
    ∀ directory restriction pool otherCache otherPool,
      ((vantage.expand (.filtered directory restriction)).on ⟨otherCache, otherPool, asked⟩).1
          = ((vantage.expand (.filtered directory restriction)).on ⟨cache, pool, asked⟩).1 ∧
        ((vantage.expand (.filtered directory restriction)).on ⟨cache, pool, asked⟩).2.cache
          = cache := by
  have hwalks : Work.Gathers vantage
      (· ∈ Path.locations vantage.current (roots.flatMap Root.listed))
      (roots.mapM vantage.expand) := vantage.gathers_walks fun _ hlocation => hlocation
  refine ⟨?_, ?_, ?_⟩
  · intro recipe other compareStrategy otherCompareStrategy strategy otherStrategy pool otherPool
    have hcall := vantage.level_of_snapshot recipe roots compareStrategy strategy
      ⟨cache, pool, asked⟩
    have hother := vantage.level_of_snapshot other roots otherCompareStrategy otherStrategy
      ⟨cache, otherPool, asked⟩
    have hlevel := (hwalks.same ⟨cache, pool, asked⟩ ⟨cache, otherPool, asked⟩ ⟨rfl, rfl⟩).2
    rw [hother.cache, hlevel.cache, hcall.cache]
  · rintro recipe compareStrategy strategy pool after rfl
    have hlevel := vantage.level_of_snapshot recipe roots compareStrategy strategy
      ⟨cache, pool, asked⟩
    have hadded := vantage.adds_gather recipe roots ⟨cache, pool, asked⟩
    rw [← vantage.cache_of_snapshot recipe roots compareStrategy strategy] at hadded
    refine ⟨fun _ _ => hadded.path?_of_some, fun _ _ => hadded.listing?_of_some, ?_⟩
    intro key listing hkey
    rw [hlevel.cache] at hkey
    rcases hwalks.scanned ⟨cache, pool, asked⟩ key listing hkey with hkept | hscanned
    · exact .inl hkept
    · exact .inr (hscanned.widen List.prefix_rfl (hlevel.asked ▸ List.prefix_rfl))
  · intro directory restriction pool otherCache otherPool
    have hlooks := vantage.looks_expand_filtered directory restriction
    exact ⟨(hlooks.same ⟨cache, pool, asked⟩ ⟨otherCache, otherPool, asked⟩ rfl).1,
      hlooks.cache ⟨cache, pool, asked⟩⟩

/-! ### A refusal, and a hook that drops everything -/

/-- A directory `d` that holds a directory `x`. -/
def refusedDisk : Disk where
  root := .directory [0x64] (.directory [0x78] .nil .nil) .nil
  wellFormed := by decide

def refusedVantage : Vantage := ⟨refusedDisk, [], .ofDisk refusedDisk⟩

def refusedRoots : List Root := [.tree (Utf8.encode "/d")]

/-- A snapshot whose strategy refuses what is named `x`. -/
def refusedCall : Except Failure Snapshot × Ledger :=
  (refusedVantage.snapshot .identity refusedRoots .ordered
    (.guarded .absolute (some "x") [] true)).on ⟨.empty, .empty, []⟩

/-- A snapshot whose hook drops all contents. -/
def droppedCall : Except Failure Snapshot × Ledger :=
  (refusedVantage.snapshot ⟨none, some fun _ => [], []⟩ refusedRoots .output .nameOnly).on
    ⟨.empty, .empty, []⟩

theorem snapshots_leave_same_cache_refused :
    refusedCall.1 = .error (.refused (Utf8.encode "/d/x") "refused x") ∧
    droppedCall.1 = .ok .empty ∧ droppedCall.2.cache = refusedCall.2.cache ∧
    droppedCall.2.cache.listing? "/d" = some ⟨"/d", [⟨"/d/x", ⟨["x"], false⟩, false, .directory⟩]⟩ ∧
    refusedVantage.Scanned (· ∈ Path.locations [] [Utf8.encode "/d"]) ⟨.empty, .empty, []⟩
      droppedCall.2 "/d" ⟨"/d", [⟨"/d/x", ⟨["x"], false⟩, false, .directory⟩]⟩ := by
  obtain ⟨hsame, hleft, -⟩ := snapshots_leave_same_cache refusedVantage refusedRoots .empty []
  have hlisting : droppedCall.2.cache.listing? "/d"
      = some ⟨"/d", [⟨"/d/x", ⟨["x"], false⟩, false, .directory⟩]⟩ := rfl
  obtain ⟨-, -, hnew⟩ := hleft ⟨none, some fun _ => [], []⟩ .output .nameOnly .empty _ rfl
  refine ⟨rfl, rfl, hsame _ _ _ _ _ _ _ _, hlisting, ?_⟩
  exact (hnew _ _ hlisting).resolve_left nofun

end Treeprint
