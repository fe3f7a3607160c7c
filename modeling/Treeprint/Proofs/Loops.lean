import Treeprint.Proofs.Scanning

/-!
# Walks end, and loops are reported exactly

Links make a graph of the disk: they may lead up, in a circle, or nowhere.  Still every walk ends:
a link is followed only along a path that the disk follows, and only when it does not lead back to
a directory that is being walked.  Plain directories are entered without being compared with
anything, so a walk may well meet a directory again that is above its own top.

A walk fails with a loop exactly when, in the order of the ways, the first that cannot be observed
is a link to a directory passed on the way down to it.  Any other link to a directory is entered
where it stands.  The main statement is `walk_ends_and_reports_loops`.
-/

namespace Treeprint

namespace Disk

variable {disk : Disk} {top : List Name}

def Observable (disk : Disk) (top way : List Name) : Prop := ∃ sight, disk.Shows top way sight

/-- In the order of the ways, the first at whose end nothing can be observed. -/
structure FirstBlocked (disk : Disk) (top way : List Name) : Prop where
  below : disk.Way top way ∧ way ≠ []
  blocked : ¬ disk.Observable top way
  first : ∀ other, disk.Way top other → other ≠ [] → other < way → disk.Observable top other

end Disk

namespace Survey.Covers

variable {disk : Disk} {top : List Name} {survey : Survey}

theorem observable_of_mem {scope : List Name → Prop} (h : Covers disk top scope survey)
    {way : List Name} (hway : way ∈ survey.seen.map Sighting.names) : disk.Observable top way := by
  obtain ⟨sighting, hsighting, rfl⟩ := List.mem_map.1 hway
  exact ⟨sighting.sight, (h.shown sighting hsighting).2⟩

/-- The obstacle of a survey of all ways is at the first of them that is blocked. -/
theorem firstBlocked_iff (h : Covers disk top (fun way => disk.Way top way ∧ way ≠ []) survey)
    (way : List Name) :
    disk.FirstBlocked top way ↔ ∃ obstacle ∈ survey.obstacle, obstacle.names = way := by
  constructor
  · intro hfirst
    rcases hobstacle : survey.obstacle with _ | obstacle
    · -- without an obstacle the way would have been listed
      have hlisted := h.complete way hfirst.below (by simp [hobstacle])
      exact absurd (h.observable_of_mem hlisted) hfirst.blocked
    · obtain ⟨hscope, hblocks, -⟩ := h.blocked obstacle hobstacle
      refine ⟨obstacle, rfl, ?_⟩
      have hbefore : ¬ obstacle.names < way := by
        intro hlt
        obtain ⟨sight, hshows⟩ := hfirst.first _ hscope.1 hscope.2 hlt
        exact hblocks.not_shows sight hshows
      have hafter : ¬ way < obstacle.names := by
        intro hlt
        have hlisted := h.complete way hfirst.below (by simpa [hobstacle] using hlt)
        exact hfirst.blocked (h.observable_of_mem hlisted)
      exact List.le_antisymm (List.not_lt.1 hafter) (List.not_lt.1 hbefore)
  · rintro ⟨obstacle, hobstacle, rfl⟩
    obtain ⟨hscope, hblocks, -⟩ := h.blocked obstacle hobstacle
    refine ⟨hscope, ?_, ?_⟩
    · rintro ⟨sight, hshows⟩
      exact hblocks.not_shows sight hshows
    · intro other hother hne hlt
      refine h.observable_of_mem (h.complete other ⟨hother, hne⟩ ?_)
      intro obstacle' hobstacle'
      obtain rfl : obstacle = obstacle' := Option.mem_unique hobstacle hobstacle'
      exact hlt

theorem mem_of_observable (h : Covers disk top (fun way => disk.Way top way ∧ way ≠ []) survey)
    {way : List Name} (hway : disk.Way top way) (hne : way ≠ [])
    (hclear : ∀ other, disk.Way top other → other ≠ [] → other ≤ way → disk.Observable top other) :
    way ∈ survey.seen.map Sighting.names := by
  refine h.complete way ⟨hway, hne⟩ ?_
  intro obstacle hobstacle
  obtain ⟨hscope, hblocks, -⟩ := h.blocked obstacle hobstacle
  by_contra hnot
  obtain ⟨sight, hshows⟩ := hclear _ hscope.1 hscope.2 (List.not_lt.1 hnot)
  exact hblocks.not_shows sight hshows

end Survey.Covers

namespace Disk

variable {disk : Disk} {top : List Name}

/-- **A scan fails with a loop exactly when the first way that is blocked closes one.** -/
theorem scan_linkLoop_iff (htop : ∀ name ∈ top, name.Plain) (path : Bytes) :
    disk.scan top .all = .error (.linkLoop path) ↔
      ∃ way, path = Path.render (top ++ way) ∧ disk.FirstBlocked top way ∧
        disk.ClosesLoop top way := by
  rw [scan_eq htop]
  by_cases hdirectory : ∃ location inside, disk.follow [] top = .ok (.directory location inside)
  · obtain ⟨location, inside, hfollow⟩ := hdirectory
    have hcovers := Survey.covers_below hfollow
    constructor
    · intro hfails
      rcases hobstacle : (Survey.below disk top .all).obstacle with _ | obstacle
      · rw [hobstacle] at hfails
        cases hfails
      · rw [hobstacle] at hfails
        cases obstacle with
        | loop way =>
          cases hfails
          refine ⟨way, rfl, (hcovers.firstBlocked_iff way).2 ⟨_, hobstacle, rfl⟩, ?_⟩
          obtain ⟨-, hblocks, -⟩ := hcovers.blocked _ hobstacle
          cases hblocks
          assumption
        | _ => cases hfails
    · rintro ⟨way, rfl, hfirst, hcloses⟩
      obtain ⟨obstacle, hobstacle, rfl⟩ := (hcovers.firstBlocked_iff way).1 hfirst
      obtain ⟨-, hblocks, -⟩ := hcovers.blocked obstacle hobstacle
      rw [Option.mem_def.1 hobstacle, hblocks.eq_loop hcloses]
      rfl
  · constructor
    · -- what is no directory is lost or has nothing below it
      have hlost := (Survey.below_of_not_directory (by simpa using hdirectory) .all).2
      intro hfails
      rcases hobstacle : (Survey.below disk top .all).obstacle with _ | obstacle
      · rw [hobstacle] at hfails
        cases hfails
      · obtain ⟨trouble, rfl⟩ := hlost obstacle hobstacle
        rw [hobstacle] at hfails
        cases hfails
    · rintro ⟨way, -, hfirst, -⟩
      exact absurd (hfirst.below.1.exists_directory hfirst.below.2) hdirectory

end Disk

/-- **Every walk of a directory ends.  It fails with a loop at a link exactly when the link is the
    first way that cannot be observed and leads back to a directory passed on the way down to it.**
    A link to any other directory is not reported, and is listed with what is below it. -/
theorem walk_ends_and_reports_loops (disk : Disk) (current : List Name) {top : List Name}
    (htop : ∀ name ∈ top, name.Plain) {location : List Name} {inside : Forest}
    (hdirectory : disk.follow [] top = .ok (.directory location inside)) (ledger : Ledger) :
    (∀ survey, Survey.Ends disk top [location] location [] inside survey ↔
      survey = Survey.below disk top .all) ∧
    (∀ path, (((⟨disk, current, .ofDisk disk⟩ : Vantage).scan top .all).on ledger).1
        = .error (.linkLoop path) ↔
      ∃ way, path = Path.render (top ++ way) ∧ disk.FirstBlocked top way ∧
        disk.ClosesLoop top way) ∧
    (∀ way reached inner, disk.IsLink top way →
      disk.follow [] (top ++ way) = .ok (.directory reached inner) →
      ¬ disk.PassedOn top way.dropLast reached →
      (Survey.below disk top .all).obstacle ≠ some (.loop way) ∧
      ∀ back, disk.Way top (way ++ back) →
        (∀ other, disk.Way top other → other ≠ [] → other ≤ way ++ back →
          disk.Observable top other) →
        way ++ back ∈ (Survey.below disk top .all).seen.map Sighting.names) := by
  have hcovers := Survey.covers_below hdirectory
  refine ⟨Survey.ends_below_iff hdirectory, ?_, ?_⟩
  · intro path
    have hobserver := Observer.faithful_ofDisk disk
    have hagrees : Work.Agrees (fun _ => True) (Vantage.MayFail ⟨disk, current, .ofDisk disk⟩)
      ((⟨disk, current, .ofDisk disk⟩ : Vantage).scan top .all) (disk.scan top .all) :=
      Vantage.agrees_scan hobserver top .all
    rw [hagrees.outcome (fun hmay => hmay rfl) trivial]
    exact Disk.scan_linkLoop_iff htop path
  · intro way reached inner hlink hfollow hpassed
    constructor
    · intro hloop
      obtain ⟨-, hblocks, -⟩ := hcovers.blocked _ hloop
      cases hblocks with
      | loop hcloses =>
        obtain ⟨-, location', inside', hfollow', hon⟩ := hcloses
        rw [hfollow] at hfollow'
        cases hfollow'
        exact hpassed hon
    · intro back hway hclear
      refine hcovers.mem_of_observable hway ?_ hclear
      obtain ⟨names, name, -, -, -, rfl, -⟩ := hlink
      simp

/-! ### A link beside and a link up -/

/-- `/d` holds a link to `/e` and a link to `/` that leads back above; `/e` holds a directory. -/
def upwardDisk : Disk where
  root := .directory [0x64] (.leaf [0x6C] (.link [0x2F, 0x65]) (.leaf [0x6D] (.link [0x2F]) .nil))
    (.directory [0x65] (.directory [0x78] .nil .nil) .nil)
  wellFormed := by decide

/-- From `/d` the link `m` leads to the root, which is not being walked, and from there plainly to
    `/d` again; only there `m` closes a loop. -/
theorem walk_ends_and_reports_loops_upward :
    (((⟨upwardDisk, [], .ofDisk upwardDisk⟩ : Vantage).scan [[0x64]] .all).on
        ⟨.empty, .empty, []⟩).1 = .error (.linkLoop (Utf8.encode "/d/m/d/m")) ∧
      ∃ way, Utf8.encode "/d/m/d/m" = Path.render ([[0x64]] ++ way) ∧
        upwardDisk.FirstBlocked [[0x64]] way ∧ upwardDisk.ClosesLoop [[0x64]] way := by
  have htop : ∀ name ∈ ([[0x64]] : List Name), name.Plain := by
    simp [Name.Plain, Path.here, Path.slash]
  have hends := walk_ends_and_reports_loops upwardDisk [] htop rfl ⟨.empty, .empty, []⟩
  exact ⟨rfl, (hends.2.1 _).1 rfl⟩

end Treeprint
