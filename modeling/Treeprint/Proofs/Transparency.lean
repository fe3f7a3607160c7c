import Mathlib.Logic.Relation
import Treeprint.Proofs.Shown
import Treeprint.Proofs.Standing

/-!
# A shared cache cannot be seen

Several snapshotters share a cache over a disk that stays as it is.  They walk roots and take
snapshots, with observers that may fail now and then, and things are dropped from the cache at any
time.  The main statement is `snapshot_eq_on_empty`: **whatever has happened to the cache, a
snapshot by a plain observer is what it would be with nothing remembered**, entry by entry, with all
modification times, or with the same failure.

The invariant that carries it is `Cache.Coherent`.  It holds of the empty cache, each step keeps it
(`Cache.Step.coherent`), also a call that stops half-way, and on a coherent cache a snapshot ends as
the reference does.

All this needs that the locations which the roots name are told apart by their texts, since these
are the keys.  UTF-8 paths see to that in a current directory that is UTF-8 itself, and anywhere
when all are absolute or all are relative (`tellsApart_spelledBy`).  In another current directory a
relative path may be shown like an absolute one, and then the one is answered with what is
remembered of the other (`snapshot_ne_on_empty_of_lookalike`).
-/

namespace Treeprint

/-- What can happen to a shared cache over a disk that stays as it is.  A call names only locations
    of a kind (`spelled`).  It starts from any ledger that has the cache, so any pool may be in use,
    and what it leaves in the cache counts whether it succeeds or not. -/
inductive Cache.Step (disk : Disk) (current : List Name) (spelled : List Name → Prop) :
    Cache → Cache → Prop
  | walk (observer : Observer) (root : Root) (ledger : Ledger) :
      observer.Faithful disk → root.Spells current spelled →
      Step disk current spelled ledger.cache
        (((⟨disk, current, observer⟩ : Vantage).expand root).on ledger).2.cache
  | snapshot (observer : Observer) (recipe : Recipe) (roots : List Root)
      (compareStrategy : CompareStrategy) (strategy : Strategy) (ledger : Ledger) :
      observer.Faithful disk → (∀ root ∈ roots, root.Spells current spelled) →
      Step disk current spelled ledger.cache
        (((⟨disk, current, observer⟩ : Vantage).snapshot recipe roots compareStrategy strategy).on
          ledger).2.cache
  | removePath (path : String) (cache : Cache) :
      Step disk current spelled cache (cache.removePath path).2
  | removeListing (path : String) (cache : Cache) :
      Step disk current spelled cache (cache.removeListing path).2
  | invalidate (path : String) (cache : Cache) :
      Step disk current spelled cache (cache.invalidate path)
  | clear (cache : Cache) : Step disk current spelled cache .empty

theorem tellsApart_isSpelled : TellsApart Path.IsSpelled := by
  intro location other hlocation hother htext
  exact Path.text_injOn hlocation hother htext

/-- UTF-8 paths spell locations with UTF-8 names, where the current directory has such names. -/
theorem Root.spells_isSpelled {current : List Name} (hcurrent : Path.IsSpelled current)
    {root : Root} (hpaths : ∀ path ∈ root.paths, Utf8.IsText path) :
    root.Spells current Path.IsSpelled := by
  intro path hpath location hlocation
  exact Path.isSpelled_absolute hcurrent (hpaths path hpath) hlocation

theorem Cache.Step.coherent {disk : Disk} {current : List Name} {spelled : List Name → Prop}
    (htexts : TellsApart spelled) {cache after : Cache}
    (hstep : Cache.Step disk current spelled cache after) (h : cache.Coherent disk spelled) :
    after.Coherent disk spelled := by
  cases hstep with
  | walk observer root ledger hobserver hroot =>
    let vantage : Vantage := ⟨disk, current, observer⟩
    have hfaithful : vantage.observer.Faithful vantage.disk := hobserver
    exact (Vantage.agrees_expand hfaithful htexts hroot).kept h
  | snapshot observer recipe roots compareStrategy strategy ledger hobserver hroots =>
    let vantage : Vantage := ⟨disk, current, observer⟩
    have hfaithful : vantage.observer.Faithful vantage.disk := hobserver
    exact (Vantage.agrees_snapshot hfaithful htexts recipe hroots compareStrategy strategy).kept h
  | removePath path => exact h.removePath path
  | removeListing path => exact h.removeListing path
  | invalidate path => exact h.invalidate path
  | clear => exact .empty

theorem coherent_of_run {disk : Disk} {current : List Name} {spelled : List Name → Prop}
    (htexts : TellsApart spelled) {cache : Cache}
    (hrun : Relation.ReflTransGen (Cache.Step disk current spelled) .empty cache) :
    cache.Coherent disk spelled := by
  induction hrun with
  | refl => exact .empty
  | tail _ hstep ih => exact hstep.coherent htexts ih

/-- The vantage of a snapshotter that looks at a disk without a script. -/
def Vantage.plain (disk : Disk) (current : List Name) : Vantage := ⟨disk, current, .ofDisk disk⟩

theorem Vantage.faithful_plain (disk : Disk) (current : List Name) :
    (plain disk current).observer.Faithful (plain disk current).disk :=
  Observer.faithful_ofDisk disk

/-- On a coherent cache a plain snapshot is the reference. -/
theorem Cache.Coherent.snapshot {disk : Disk} {spelled : List Name → Prop} {cache : Cache}
    (h : cache.Coherent disk spelled) (htexts : TellsApart spelled) {current : List Name}
    (recipe : Recipe) {roots : List Root} (hroots : ∀ root ∈ roots, root.Spells current spelled)
    (compareStrategy : CompareStrategy) (strategy : Strategy) (pool : TextPool)
    (asked : List Question) :
    (((Vantage.plain disk current).snapshot recipe roots compareStrategy strategy).on
        ⟨cache, pool, asked⟩).1
      = disk.snapshot current recipe roots compareStrategy strategy := by
  have hagrees := Vantage.agrees_snapshot (Vantage.faithful_plain disk current) htexts recipe hroots
    compareStrategy strategy
  exact hagrees.outcome (fun hmay => hmay rfl) h

/-- **A shared cache cannot be seen.**  After any run of calls and evictions from the empty cache, a
    plain snapshot gives what it gives on the empty cache, with any pools of texts in use.  The
    locations that are named, in the run and by the snapshot, are told apart by their texts. -/
theorem snapshot_eq_on_empty {disk : Disk} {current : List Name} {spelled : List Name → Prop}
    (htexts : TellsApart spelled) {cache : Cache}
    (hrun : Relation.ReflTransGen (Cache.Step disk current spelled) .empty cache) (recipe : Recipe)
    {roots : List Root} (hroots : ∀ root ∈ roots, root.Spells current spelled)
    (compareStrategy : CompareStrategy) (strategy : Strategy) (pool poolOnEmpty : TextPool)
    (asked askedOnEmpty : List Question) :
    (((Vantage.plain disk current).snapshot recipe roots compareStrategy strategy).on
        ⟨cache, pool, asked⟩).1
      = (((Vantage.plain disk current).snapshot recipe roots compareStrategy strategy).on
        ⟨.empty, poolOnEmpty, askedOnEmpty⟩).1 := by
  have hcache : cache.Coherent disk spelled := coherent_of_run htexts hrun
  rw [hcache.snapshot htexts recipe hroots, Cache.Coherent.empty.snapshot htexts recipe hroots]

/-! ### Two directories that are shown alike -/

/-- A directory named by the byte `FE`, and one that is named by the character that this byte is
    shown by.  Both hold a directory `x`, and in the second `x` there is a directory `f`. -/
def lookalikeDisk : Disk where
  root := .directory [0xEF, 0xBF, 0xBD] (.directory [0x78] (.directory [0x66] .nil .nil) .nil)
    (.directory [0xFE] (.directory [0x78] .nil .nil) .nil)
  wellFormed := by decide

/-- The view from inside the directory `FE`. -/
def lookalikeInside : Vantage := .plain lookalikeDisk [[0xFE]]

/-- The cache after a snapshot of the `x` in the current directory. -/
def lookalikeHeld : Cache :=
  ((lookalikeInside.snapshot .identity [.members [Utf8.encode "x"]] .ordered .absolute).on
    ⟨.empty, .empty, []⟩).2.cache

/-- The snapshot of the other `x`, from inside the directory `FE` as well. -/
def lookalikeCall (disk : Disk) (cache : Cache) : Except Failure Snapshot :=
  (((Vantage.plain disk [[0xFE]]).snapshot .identity [.members [Utf8.encode "/\uFFFD/x"]] .ordered
    .absolute).on ⟨cache, .empty, []⟩).1

/-- What the snapshot gives when the directory is taken for empty. -/
def lookalikeStale : Snapshot :=
  .ofEntries [("/\uFFFD/x", ⟨.path "/\uFFFD/x", .directory⟩)] .ordered true

/-- What is there. -/
def lookalikeFresh : Snapshot :=
  .ofEntries [("/\uFFFD/x", ⟨.path "/\uFFFD/x", .directory⟩),
    ("/\uFFFD/x/f", ⟨.path "/\uFFFD/x/f", .directory⟩)] .ordered true

theorem lookalikeStale_ne_fresh : lookalikeStale ≠ lookalikeFresh := by
  intro hsame
  have hentries : [_] = [_, _] := congrArg Snapshot.entries hsame
  cases hentries

/-- Whatever kind of path `x` is, the root that names it has paths of that kind only. -/
theorem spells_lookalike {paths : Bytes → Prop} (hpath : paths (Utf8.encode "x")) :
    ∀ root ∈ [Root.members [Utf8.encode "x"]],
      root.Spells [[0xFE]] (Path.SpelledBy [[0xFE]] paths) := by
  intro root hroot
  apply Root.spells_spelledBy
  intro path hmem
  rw [List.mem_singleton.1 hroot, Root.paths, List.mem_singleton] at hmem
  rwa [hmem]

/-- Where two locations share a text the cache is seen: a snapshot of the one gives what is
    remembered of the other, although all paths are UTF-8. -/
theorem snapshot_ne_on_empty_of_lookalike :
    Relation.ReflTransGen (Cache.Step lookalikeDisk [[0xFE]] (Path.SpelledBy [[0xFE]] Utf8.IsText))
      .empty lookalikeHeld ∧
    Utf8.IsText (Utf8.encode "/\uFFFD/x") ∧
    lookalikeCall lookalikeDisk lookalikeHeld = .ok lookalikeStale ∧
    lookalikeCall lookalikeDisk .empty = .ok lookalikeFresh ∧ lookalikeStale ≠ lookalikeFresh := by
  have hstep : Cache.Step lookalikeDisk [[0xFE]] (Path.SpelledBy [[0xFE]] Utf8.IsText)
      .empty lookalikeHeld :=
    .snapshot (.ofDisk lookalikeDisk) .identity [.members [Utf8.encode "x"]] .ordered .absolute
      ⟨.empty, .empty, []⟩ (Observer.faithful_ofDisk lookalikeDisk) (spells_lookalike ⟨"x", rfl⟩)
  exact ⟨.single hstep, ⟨"/\uFFFD/x", rfl⟩, rfl, rfl, lookalikeStale_ne_fresh⟩

/-! ### A walk that stops half-way -/

/-- A directory `d` that holds a directory `e`, a link `s` to `d`, and an empty directory that is
    named by the byte `FE`. -/
def linkedDisk : Disk where
  root := .directory [0x64] (.directory [0x65] .nil .nil)
    (.leaf [0x73] (.link [0x64]) (.directory [0xFE] .nil .nil))
  wellFormed := by decide

/-- An observer of a disk that does not answer its second question. -/
def Observer.faltering (disk : Disk) : Observer where
  stat count path := if count = 1 then .error .other else disk.stat [] path
  hash count path _ := if count = 1 then .error .other else disk.hash [] path

theorem Observer.faithful_faltering (disk : Disk) : (Observer.faltering disk).Faithful disk := by
  constructor
  · intro count path
    by_cases h : count = 1
    · exact .inr ⟨.other, by simp [faltering, h]⟩
    · exact .inl (by simp [faltering, h])
  · intro count path metadata
    by_cases h : count = 1
    · exact .inr ⟨.other, by simp [faltering, h]⟩
    · exact .inl (by simp [faltering, h])

/-- The link, and then a path where the observer falters. -/
def linkedMembers : Root := .members [Utf8.encode "/s", Utf8.encode "/d"]

/-- What the walk leaves behind: the link with its listing.  The current directory is no text, but
    all paths are absolute. -/
def linkedLeftover : Cache :=
  (((⟨linkedDisk, [[0xFE]], .faltering linkedDisk⟩ : Vantage).expand linkedMembers).on
    ⟨.empty, .empty, []⟩).2.cache

theorem snapshot_eq_on_linkedLeftover :
    linkedLeftover.pathCount = 1 ∧ linkedLeftover.listingCount = 1 ∧
    (((Vantage.plain linkedDisk [[0xFE]]).snapshot .identity
        [.tree (Utf8.encode "/s"), linkedMembers] .ordered .absolute).on
          ⟨(linkedLeftover.removePath "/s").2, .empty, []⟩).1
      = (((Vantage.plain linkedDisk [[0xFE]]).snapshot .identity
        [.tree (Utf8.encode "/s"), linkedMembers] .ordered .absolute).on
          ⟨.empty, .empty, []⟩).1 := by
  let spelled : List Name → Prop :=
    Path.SpelledBy [[0xFE]] fun path => Utf8.IsText path ∧ Path.isAbsolute path = true
  have htexts : TellsApart spelled := by
    apply tellsApart_spelledBy
    · intro name hname
      rw [List.mem_singleton.1 hname]
      exact ⟨by decide, by decide, by decide⟩
    · exact fun path hpath => hpath.1
    · exact .inr fun path other hpath hother => hpath.2.trans hother.2.symm
  have hspells : ∀ root ∈ [.tree (Utf8.encode "/s"), linkedMembers],
      root.Spells [[0xFE]] spelled := by
    intro root hroot
    apply Root.spells_spelledBy
    intro path hpath
    simp only [List.mem_cons, List.not_mem_nil, or_false] at hroot
    rcases hroot with rfl | rfl
    · rw [Root.paths, List.mem_singleton] at hpath
      exact ⟨⟨"/s", hpath.symm⟩, by rw [hpath]; rfl⟩
    · simp only [linkedMembers, Root.paths, List.mem_cons, List.not_mem_nil, or_false] at hpath
      rcases hpath with rfl | rfl
      · exact ⟨⟨"/s", rfl⟩, rfl⟩
      · exact ⟨⟨"/d", rfl⟩, rfl⟩
  have hwalk : Cache.Step linkedDisk [[0xFE]] spelled .empty linkedLeftover :=
    .walk (.faltering linkedDisk) linkedMembers ⟨.empty, .empty, []⟩
      (Observer.faithful_faltering linkedDisk) (hspells linkedMembers (by simp))
  refine ⟨by decide, by decide, ?_⟩
  exact snapshot_eq_on_empty htexts
    ((Relation.ReflTransGen.single hwalk).tail (.removePath "/s" _)) .identity hspells .ordered
    .absolute .empty .empty [] []

end Treeprint
