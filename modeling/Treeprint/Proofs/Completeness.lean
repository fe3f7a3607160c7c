import Mathlib.Data.List.Forall2
import Treeprint.Proofs.Scanning

/-!
# A walk lists everything once, in order

What an unfiltered walk of a directory gives when it succeeds.  The ways that its entries stand for
are all ways below the directory, in strictly increasing order; since a way comes after those that
it begins with, a directory comes before what is below it, and nothing comes twice.  Each entry
tells of its way what the way shows, under the text of the whole path.

The main statement is `walk_lists_all_ways`.
-/

namespace Treeprint

/-- An entry tells what a way below `top` shows, links followed. -/
structure Disk.Describes (disk : Disk) (top way : List Name) (entry : Observation) : Prop where
  content : ∃ place sight, disk.follow [] (top ++ way) = .ok place ∧ place.sight? = some sight ∧
    entry.content = sight.content
  isRoot : entry.isRoot = false
  endsWithFile : entry.relative.endsWithFile = true ↔ entry.kind = .regularFile
  segments : entry.relative.segments = way.map Utf8.decode
  path : entry.path = (if top = [] then "" else Path.text top) ++ "/" ++ entry.relative.text

theorem Disk.Shows.describes {disk : Disk} {top : List Name} {sighting : Sighting}
    (h : disk.Shows top sighting.names sighting.sight) (hne : sighting.names ≠ []) :
    disk.Describes top sighting.names (sighting.entry top) where
  content := by
    obtain ⟨⟨place, hplace, hsight⟩, -⟩ := h
    exact ⟨place, sighting.sight, hplace, hsight, rfl⟩
  isRoot := rfl
  endsWithFile := by
    obtain ⟨names, sight⟩ := sighting
    cases sight <;> simp [Sighting.entry, Observation.kind, Sight.content, Content.kind]
  segments := rfl
  path := Path.text_append top hne _

theorem Disk.Describes.kind_of_directory {disk : Disk} {top way location : List Name}
    {inside : Forest} {entry : Observation} (h : disk.Describes top way entry)
    (hfollow : disk.follow [] (top ++ way) = .ok (.directory location inside)) :
    entry.kind = .directory := by
  obtain ⟨place, sight, hplace, hsight, hcontent⟩ := h.content
  rw [hfollow] at hplace
  cases hplace
  cases hsight
  rw [Observation.kind, hcontent]
  rfl

/-- All ways below a directory, in order. -/
structure Disk.Lists (disk : Disk) (top : List Name) (ways : List (List Name)) : Prop where
  increasing : ways.Pairwise (· < ·)
  complete : ∀ way, way ∈ ways ↔ disk.Way top way ∧ way ≠ []

/-- What a way begins with is listed before it. -/
theorem Disk.Lists.front_before {disk : Disk} {top : List Name} {ways : List (List Name)}
    (h : disk.Lists top ways) {front : List Name} {name : Name} {i : Nat}
    (hway : ways[i]? = some (front ++ [name])) (hne : front ≠ []) :
    ∃ j < i, ways[j]? = some front := by
  have hmem := ((h.complete _).1 (List.mem_of_getElem? hway)).1
  obtain ⟨j, hfront⟩ := List.mem_iff_getElem?.1 ((h.complete front).2 ⟨hmem.inv.1, hne⟩)
  refine ⟨j, ?_, hfront⟩
  have hlt : front < front ++ [name] := lt_of_prefix List.prefix_rfl
  obtain ⟨hi, hwayi⟩ := List.getElem?_eq_some_iff.1 hway
  obtain ⟨hj, hfrontj⟩ := List.getElem?_eq_some_iff.1 hfront
  by_contra hnot
  rcases Nat.lt_or_eq_of_le (Nat.le_of_not_lt hnot) with hij | rfl
  · have hbefore := List.pairwise_iff_getElem.1 h.increasing i j hi hj hij
    rw [hwayi, hfrontj] at hbefore
    exact List.lt_asymm hlt hbefore
  · rw [hwayi] at hfrontj
    rw [hfrontj] at hlt
    exact List.lt_irrefl _ hlt

theorem Survey.lists_below {disk : Disk} {top : List Name}
    (hnone : (Survey.below disk top .all).obstacle = none) :
    disk.Lists top ((Survey.below disk top .all).seen.map Sighting.names) := by
  by_cases hdirectory : ∃ location inside, disk.follow [] top = .ok (.directory location inside)
  · obtain ⟨location, inside, hfollow⟩ := hdirectory
    have hcovers := Survey.covers_below hfollow
    refine ⟨hcovers.increasing, ?_⟩
    intro way
    constructor
    · intro hway
      obtain ⟨sighting, hsighting, rfl⟩ := List.mem_map.1 hway
      exact (hcovers.shown sighting hsighting).1
    · intro hway
      exact hcovers.complete way hway (by simp [hnone])
  · rw [(below_of_not_directory (by simpa using hdirectory) .all).1]
    refine ⟨.nil, ?_⟩
    intro way
    simp only [List.map_nil, List.not_mem_nil, false_iff, not_and_not_right]
    intro hway
    by_contra hne
    exact hdirectory (hway.exists_directory hne)

theorem Disk.lists_of_scan {disk : Disk} {top : List Name} (htop : ∀ name ∈ top, name.Plain)
    {entries : List Observation} (hscan : disk.scan top .all = .ok entries) :
    ∃ ways, disk.Lists top ways ∧ List.Forall₂ (disk.Describes top) ways entries := by
  rw [Disk.scan_eq htop] at hscan
  rcases hobstacle : (Survey.below disk top .all).obstacle with _ | obstacle
  · rw [hobstacle] at hscan
    cases hscan
    refine ⟨_, Survey.lists_below hobstacle, ?_⟩
    rw [List.forall₂_map_left_iff, List.forall₂_map_right_iff, List.forall₂_same]
    intro sighting hsighting
    obtain ⟨hway, hshows⟩ := Survey.shown_below hsighting
    exact hshows.describes hway.2
  · rw [hobstacle] at hscan
    cases hscan

/-- **A walk that succeeds lists all ways below its directory, once and in order**, and each entry
    tells what its way shows.  The directory that an entry is in is the walked one or the entry of a
    directory before it. -/
theorem walk_lists_all_ways {vantage : Vantage} (hobserver : vantage.observer.Faithful vantage.disk)
    {top : List Name} (htop : ∀ name ∈ top, name.Plain) {ledger after : Ledger}
    {entries : List Observation}
    (hwalk : (vantage.scan top .all).on ledger = (.ok entries, after)) :
    ∃ ways, vantage.disk.Lists top ways ∧
      (∀ i front name, ways[i]? = some (front ++ [name]) → front = [] ∨
        ∃ (j : Nat) (entry : Observation), j < i ∧ ways[j]? = some front ∧
          entries[j]? = some entry ∧ entry.kind = .directory) ∧
      List.Forall₂ (vantage.disk.Describes top) ways entries := by
  have hscan : vantage.disk.scan top .all = .ok entries := by
    have hagrees : Work.Agrees (fun _ => True) vantage.MayFail (vantage.scan top .all)
      (vantage.disk.scan top .all) := Vantage.agrees_scan hobserver top .all
    have houtcome := (hagrees ledger trivial).2
    rw [hwalk] at houtcome
    rcases houtcome with heq | ⟨-, failure, heq⟩
    · exact heq.symm
    · cases heq
  obtain ⟨ways, hlists, hdescribes⟩ := Disk.lists_of_scan htop hscan
  refine ⟨ways, hlists, ?_, hdescribes⟩
  intro i front name hway
  by_cases hne : front = []
  · exact .inl hne
  obtain ⟨j, hji, hfront⟩ := hlists.front_before hway hne
  obtain ⟨hj, hfrontj⟩ := List.getElem?_eq_some_iff.1 hfront
  have hlength := hdescribes.length_eq
  have hentry : vantage.disk.Describes top front entries[j] := by
    rw [← hfrontj]
    exact hdescribes.get hj (hlength ▸ hj)
  have hgoes := ((hlists.complete _).1 (List.mem_of_getElem? hway)).1
  obtain ⟨location, inside, hfollow, -⟩ := hgoes.inv.2
  exact .inr ⟨j, entries[j], hji, hfront, List.getElem?_eq_getElem _,
    hentry.kind_of_directory hfollow⟩

/-! ### A link to the directory beside, and a name that is no text -/

/-- `/d` holds a link to `/e` and a file whose name is the byte `FF`; `/e` holds a directory. -/
def besideDisk : Disk where
  root := .directory [0x64] (.leaf [0x6C] (.link [0x2F, 0x65]) (.leaf [0xFF] (.file [] 0) .nil))
    (.directory [0x65] (.directory [0x78] .nil .nil) .nil)
  wellFormed := by decide

def besideEntries : List Observation :=
  [⟨"/d/l", ⟨["l"], false⟩, false, .directory⟩, ⟨"/d/l/x", ⟨["l", "x"], false⟩, false, .directory⟩,
    ⟨"/d/\uFFFD", ⟨["\uFFFD"], true⟩, false, .regularFile ⟨Sha256.digest []⟩ 0⟩]

def besideVantage : Vantage := ⟨besideDisk, [], .ofDisk besideDisk⟩

def besideWalk : Except Failure (List Observation) × Ledger :=
  (besideVantage.scan [[0x64]] .all).on ⟨.empty, .empty, []⟩

theorem walk_lists_all_ways_beside :
    besideWalk.1 = .ok besideEntries ∧
      ∃ ways, besideDisk.Lists [[0x64]] ways ∧
        (∀ i front name, ways[i]? = some (front ++ [name]) → front = [] ∨
          ∃ (j : Nat) (entry : Observation), j < i ∧ ways[j]? = some front ∧
            besideEntries[j]? = some entry ∧ entry.kind = .directory) ∧
        List.Forall₂ (besideDisk.Describes [[0x64]]) ways besideEntries := by
  have hobserver : besideVantage.observer.Faithful besideVantage.disk :=
    Observer.faithful_ofDisk besideDisk
  have hwalk : (besideVantage.scan [[0x64]] .all).on ⟨.empty, .empty, []⟩
      = (.ok besideEntries, besideWalk.2) := rfl
  refine ⟨rfl, ?_⟩
  exact walk_lists_all_ways hobserver (by simp [Name.Plain, Path.here, Path.slash]) hwalk

end Treeprint
