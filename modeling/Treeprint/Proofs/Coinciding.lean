import Mathlib.Data.List.Dedup
import Mathlib.Data.List.Perm.Basic
import Treeprint.Proofs.Folding
import Treeprint.Proofs.Routes

/-!
# Names that are shown alike

A snapshot knows a path by its text, and bytes that are no text are shown by replacement characters.
So different ways below a directory may be shown alike, and of those the snapshot keeps the first
and drops the others without a word.

The main statement is `snapshot_keeps_first_shown`: **a snapshot of a directory has one entry for
each text that a way below it is shown as, with the content of the first such way**.  It has one for
each way exactly when no two ways are shown alike, which is so where all names are text.
`coinciding_names_lose_an_entry` is a directory in which an entry is lost.
-/

namespace Treeprint

/-! ### What is found with nothing remembered -/

/-- A tree that is walked with nothing remembered gives what its directory holds. -/
theorem Disk.scan_of_expand {disk : Disk} {current top : List Name} {path : Bytes}
    (hpath : Path.absolute current path = some top) (hdirectory : disk.IsDirectory top)
    {pool : TextPool} {asked : List Question} {walk : List Expansion}
    (hwalk : (((Vantage.plain disk current).expand (.tree path)).on ⟨.empty, pool, asked⟩).1
      = .ok walk) :
    disk.scan top .all = .ok (walk.flatMap Expansion.entries) := by
  have hafresh : disk.WalksAfresh current fun root =>
      ((Vantage.plain disk current).expand root).on ⟨.empty, pool, asked⟩ :=
    fun _ => ⟨pool, asked, rfl⟩
  have hexpand : disk.expand current (.tree path) = .ok walk := by
    rw [← hafresh.outcome (show (Root.tree path).paths = [path] from rfl)]
    exact hwalk
  rw [← Disk.gather_tree hpath hdirectory, Disk.gather_root, hexpand]
  rfl

/-- The plain strategy accepts everything, so the first entry of each path stands. -/
theorem Strategy.mem_choose_absolute (entries : List Observation) :
    ∃ chosen, absolute.choose [] entries = .ok chosen ∧ (chosen.map Prod.fst).Nodup ∧
      ∀ key fingerprint, (key, fingerprint) ∈ chosen ↔
        ∃ front entry back, entries = front ++ entry :: back ∧ entry.path = key ∧
          (∀ other ∈ front, other.path ≠ key) ∧ fingerprint = ⟨.path key, entry.content⟩ := by
  have htracks : absolute.Tracks [] [] := by
    intro path
    simp
  have haccepts : absolute.NoRefusal [] entries := by
    rintro front entry back - failure ⟨-, hjudge⟩
    cases hjudge
  obtain ⟨chosen, hchosen⟩ := (choose_ok_iff htracks).2 haccepts
  obtain rfl := accepted_of_choose htracks hchosen
  refine ⟨_, hchosen, nodup_accepted, ?_⟩
  intro key fingerprint
  rw [mem_accepted_iff_first]
  constructor
  · rintro ⟨front, entry, back, rfl, rfl, hjudge, hfirst⟩
    refine ⟨front, entry, back, rfl, rfl, ?_, ?_⟩
    · intro other hother hpath
      exact hfirst other hother hpath _ rfl
    · exact (Option.some.inj (Except.ok.inj hjudge)).symm
  · rintro ⟨front, entry, back, rfl, rfl, hfirst, rfl⟩
    exact ⟨front, entry, back, rfl, rfl, rfl, fun other hother hpath => absurd hpath
      (hfirst other hother)⟩

/-! ### The entries of the ways -/

namespace Disk

variable {disk : Disk} {top : List Name} {ways : List (List Name)}

/-- The text that a way below `top` is shown as. -/
def keyOf (top way : List Name) : String := Path.text (top ++ way)

/-- What a walk tells of a way. -/
def entryAt (disk : Disk) (top way : List Name) : Observation where
  path := keyOf top way
  relative := ⟨way.map Utf8.decode, disk.kind? (top ++ way) ≠ some .directory⟩
  isRoot := false
  content := disk.contentAt (top ++ way)

theorem entry_of_seen {sighting : Sighting} (h : sighting ∈ (Survey.below disk top .all).seen) :
    sighting.entry top = disk.entryAt top sighting.names := by
  have hsight := (Survey.shown_below h).2.sight?_eq
  have hkind : (sighting.sight ≠ .directory) ↔ disk.kind? (top ++ sighting.names)
      ≠ some .directory := by
    rw [kind?, hsight]
    cases sighting.sight <;> simp [Sight.kind]
  simp only [Sighting.entry, entryAt, contentAt, hsight, hkind]
  rfl

/-- A walk that succeeds tells of each way below its directory. -/
theorem exists_ways_of_scan (htop : ∀ name ∈ top, name.Plain) {entries : List Observation}
    (hscan : disk.scan top .all = .ok entries) :
    ∃ ways, disk.Lists top ways ∧ entries = ways.map (disk.entryAt top) := by
  rw [scan_eq htop] at hscan
  rcases hobstacle : (Survey.below disk top .all).obstacle with _ | obstacle
  · rw [hobstacle] at hscan
    cases hscan
    refine ⟨_, Survey.lists_below hobstacle, ?_⟩
    rw [List.map_map]
    exact List.map_congr_left fun sighting hsighting => entry_of_seen hsighting
  · rw [hobstacle] at hscan
    cases hscan

/-- Where all names are text, no two ways are shown alike. -/
theorem Lists.nodup_keys (h : disk.Lists top ways) (htexts : disk.TextBelow top) :
    (ways.map (keyOf top)).Nodup := by
  apply List.Nodup.map_on _ h.nodup
  intro way hway other hother heq
  exact h.text_injOn htexts h htexts hway hother heq

/-- Of the ways that are shown as a text, this is the first. -/
def FirstShown (top : List Name) (ways : List (List Name)) (key : String) (way : List Name) :
    Prop :=
  ∃ front back, ways = front ++ way :: back ∧ keyOf top way = key ∧
    ∀ other ∈ front, keyOf top other ≠ key

theorem exists_firstShown {key : String} :
    key ∈ ways.map (keyOf top) ↔ ∃ way, FirstShown top ways key way := by
  constructor
  · intro hkey
    obtain ⟨front, back, hways, hfront⟩ := List.eq_append_cons_of_mem hkey
    obtain ⟨before, others, rfl, rfl, hothers⟩ := List.map_eq_append_iff.1 hways
    obtain ⟨way, after, rfl, rfl, -⟩ := List.map_eq_cons_iff.1 hothers
    refine ⟨way, before, after, rfl, rfl, ?_⟩
    intro other hother heq
    exact hfront (heq ▸ List.mem_map_of_mem hother)
  · rintro ⟨way, front, back, rfl, rfl, -⟩
    exact List.mem_map_of_mem (by simp)

/-- The first entries of their paths are those of the ways that are shown first. -/
theorem first_entry_iff {key : String} {fingerprint : Fingerprint} :
    (∃ front entry back, ways.map (disk.entryAt top) = front ++ entry :: back ∧ entry.path = key ∧
      (∀ other ∈ front, other.path ≠ key) ∧ fingerprint = ⟨.path key, entry.content⟩) ↔
    ∃ way, FirstShown top ways key way ∧
      fingerprint = ⟨.path key, disk.contentAt (top ++ way)⟩ := by
  constructor
  · rintro ⟨front, entry, back, hways, rfl, hfirst, rfl⟩
    obtain ⟨before, others, rfl, rfl, hothers⟩ := List.map_eq_append_iff.1 hways
    obtain ⟨way, after, rfl, rfl, -⟩ := List.map_eq_cons_iff.1 hothers
    refine ⟨way, ⟨before, after, rfl, rfl, ?_⟩, rfl⟩
    intro other hother
    exact hfirst (disk.entryAt top other) (List.mem_map_of_mem hother)
  · rintro ⟨way, ⟨front, back, rfl, rfl, hfirst⟩, rfl⟩
    refine ⟨front.map (disk.entryAt top), disk.entryAt top way, back.map (disk.entryAt top),
      by simp, rfl, ?_, rfl⟩
    rw [List.forall_mem_map]
    exact hfirst

end Disk

/-! ### The main statement -/

/-- **A snapshot of a directory has one entry for each text that a way below it is shown as**, with
    the content of the first such way.  Ways that are shown alike share an entry, so the entries are
    as many as the ways exactly when no two ways are shown alike; where all names are text no two
    are. -/
theorem snapshot_keeps_first_shown {disk : Disk} {current top : List Name} {path : Bytes}
    (hcurrent : ∀ name ∈ current, name.Plain) (hpath : Path.absolute current path = some top)
    (hdirectory : disk.IsDirectory top) {pool : TextPool} {asked : List Question}
    {walk : List Expansion}
    (hwalk : (((Vantage.plain disk current).expand (.tree path)).on ⟨.empty, pool, asked⟩).1
      = .ok walk) (compareStrategy : CompareStrategy) :
    ∃ ways snapshot, disk.Lists top ways ∧
      (((Vantage.plain disk current).snapshot .identity [.tree path] compareStrategy .absolute).on
        ⟨.empty, pool, asked⟩).1 = .ok snapshot ∧
      (∀ key fingerprint, (key, fingerprint) ∈ snapshot.entries ↔
        ∃ way, Disk.FirstShown top ways key way ∧
          fingerprint = ⟨.path key, disk.contentAt (top ++ way)⟩) ∧
      snapshot.size = (ways.map (Disk.keyOf top)).dedup.length ∧
      (snapshot.size = ways.length ↔ (ways.map (Disk.keyOf top)).Nodup) ∧
      (disk.TextBelow top → snapshot.size = ways.length) := by
  have hscan := Disk.scan_of_expand hpath hdirectory hwalk
  obtain ⟨ways, hlists, hentries⟩ :=
    Disk.exists_ways_of_scan (Path.plain_absolute hcurrent hpath) hscan
  rw [hentries] at hscan
  obtain ⟨chosen, hchoose, hnodup, hchosen⟩ :=
    Strategy.mem_choose_absolute (ways.map (disk.entryAt top))
  have hsnapshot : (((Vantage.plain disk current).snapshot .identity [.tree path] compareStrategy
      .absolute).on ⟨.empty, pool, asked⟩).1 = .ok (.ofAccepted chosen compareStrategy true) := by
    rw [Vantage.on_snapshot_root hpath rfl, Disk.snapshot, Disk.gather_tree hpath hdirectory, hscan]
    simp only [bind, Except.bind, hchoose]
    rfl
  have hmem : ∀ key fingerprint, (key, fingerprint) ∈ chosen ↔
      ∃ way, Disk.FirstShown top ways key way ∧
        fingerprint = ⟨.path key, disk.contentAt (top ++ way)⟩ := by
    intro key fingerprint
    rw [hchosen, Disk.first_entry_iff]
  have hkeys : (chosen.map Prod.fst).Perm (ways.map (Disk.keyOf top)).dedup := by
    apply (List.perm_ext_iff_of_nodup hnodup (List.nodup_dedup _)).2
    intro key
    rw [List.mem_dedup, Disk.exists_firstShown, List.mem_map]
    constructor
    · rintro ⟨⟨key, fingerprint⟩, hentry, rfl⟩
      obtain ⟨way, hway, -⟩ := (hmem _ _).1 hentry
      exact ⟨way, hway⟩
    · rintro ⟨way, hway⟩
      exact ⟨_, (hmem key _).2 ⟨way, hway, rfl⟩, rfl⟩
  have hsize : chosen.length = (ways.map (Disk.keyOf top)).dedup.length := by
    rw [← hkeys.length_eq, List.length_map]
  have hall : chosen.length = ways.length ↔ (ways.map (Disk.keyOf top)).Nodup := by
    have hlength : (ways.map (Disk.keyOf top)).length = ways.length := List.length_map _
    rw [hsize, ← hlength, ← List.dedup_eq_self]
    exact ⟨(List.dedup_sublist _).eq_of_length, congrArg List.length⟩
  refine ⟨ways, _, hlists, hsnapshot, ?_⟩
  rw [Snapshot.size, Snapshot.entries_ofAccepted]
  exact ⟨hmem, hsize, hall, fun htexts => hall.2 (hlists.nodup_keys htexts)⟩

/-- The directory with a link and a name that is no text: three ways, three texts. -/
theorem snapshot_keeps_first_shown_beside :
    ∃ ways snapshot, besideDisk.Lists [[0x64]] ways ∧
      (((Vantage.plain besideDisk []).snapshot .identity [.tree (Utf8.encode "/d")] .ordered
        .absolute).on ⟨.empty, .empty, []⟩).1 = .ok snapshot ∧
      snapshot.size = (ways.map (Disk.keyOf [[0x64]])).dedup.length := by
  have hwalk : (((Vantage.plain besideDisk []).expand (.tree (Utf8.encode "/d"))).on
      ⟨.empty, .empty, []⟩).1 = .ok [.tree besideEntries] := rfl
  obtain ⟨ways, snapshot, hlists, hsnapshot, -, hsize, -⟩ :=
    snapshot_keeps_first_shown (by simp) (show Path.absolute [] _ = some [[0x64]] from rfl)
      ⟨_, rfl, rfl⟩ hwalk .ordered
  exact ⟨ways, snapshot, hlists, hsnapshot, hsize⟩

/-! ### An entry that is lost -/

/-- `/d` holds a directory whose name is the byte `FE` and a file whose name is the byte `FF`. -/
def coincidingDisk : Disk where
  root := .directory [0x64] (.directory [0xFE] .nil (.leaf [0xFF] (.file [0x62] 0) .nil)) .nil
  wellFormed := by decide

/-- Both names are shown as the replacement character, so the file is lost. -/
theorem coinciding_names_lose_an_entry :
    coincidingDisk.Lists [[0x64]] [[[0xFE]], [[0xFF]]] ∧
      (((Vantage.plain coincidingDisk []).expand (.tree (Utf8.encode "/d"))).on
        ⟨.empty, .empty, []⟩).1.isOk ∧
      (((Vantage.plain coincidingDisk []).snapshot .identity [.tree (Utf8.encode "/d")] .ordered
        .absolute).on ⟨.empty, .empty, []⟩).1
          = .ok (.ofEntries [("/d/\uFFFD", ⟨.path "/d/\uFFFD", .directory⟩)] .ordered true) :=
  ⟨Survey.lists_below rfl, rfl, rfl⟩

end Treeprint
