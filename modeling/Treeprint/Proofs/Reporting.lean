import Mathlib.Data.Set.Card
import Treeprint.Proofs.Routes
import Treeprint.Proofs.Stopping

/-!
# Which failure a walk reports

A walk of a directory can fail at many places: at a link that leads nowhere or back, at an object
that is neither a file nor a directory, and at a file that cannot be hashed.  The main statement is
`walk_reports_first_miss`: **a walk fails exactly when there is a way that cannot be observed, and
it reports the first of them in the order of the ways**, under the path of that way.

The hasher may answer as it likes, and its answers may depend on how many questions were asked
before.  So the turn at which a file is hashed has to be known, and it is: below a directory nothing
is asked but hashes, one for each file in the order of the ways (`Disk.filesBefore`).
-/

namespace Treeprint

/-- Whether a file was seen. -/
def Sighting.isFile (sighting : Sighting) : Bool :=
  match sighting.sight with
  | .directory => false
  | .file .. => true

theorem Sighting.isFile_iff {sighting : Sighting} :
    sighting.isFile = true ↔ ∃ data modified, sighting.sight = .file data modified := by
  obtain ⟨names, sight⟩ := sighting
  cases sight <;> simp [isFile]

namespace Disk

variable {disk : Disk} {top way : List Name}

/-! ### What is told of a way is determined by it -/

theorem Shows.unique {sight other : Sight} (h : disk.Shows top way sight)
    (hother : disk.Shows top way other) : other = sight := by
  obtain ⟨⟨place, hplace, hsight⟩, -⟩ := h
  obtain ⟨⟨place', hplace', hsight'⟩, -⟩ := hother
  rw [hplace] at hplace'
  cases hplace'
  rw [hsight] at hsight'
  exact (Option.some.inj hsight').symm

theorem Blocks.unique {obstacle other : Obstacle} (h : disk.Blocks top obstacle)
    (hother : disk.Blocks top other) (hnames : other.names = obstacle.names) :
    other = obstacle := by
  by_cases hcloses : disk.ClosesLoop top obstacle.names
  · rw [h.eq_loop hcloses, hother.eq_loop (hnames ▸ hcloses), hnames]
  -- without a loop, what the path is followed to tells the two apart
  cases h with
  | loop hloop => exact absurd hloop hcloses
  | lost hfollow =>
    cases hother with
    | loop hloop => exact absurd (hnames ▸ hloop) hcloses
    | lost hfollow' =>
      cases hnames
      cases hfollow.symm.trans hfollow'
      rfl
    | vacant hfollow' | linked _ hfollow' | entry _ hfollow' =>
      cases hnames
      cases hfollow.symm.trans hfollow'
  | vacant hfollow =>
    cases hother with
    | loop hloop => exact absurd (hnames ▸ hloop) hcloses
    | vacant _ =>
      cases hnames
      rfl
    | lost hfollow' | linked _ hfollow' | entry _ hfollow' =>
      cases hnames
      cases hfollow.symm.trans hfollow'
  | linked hlink hfollow =>
    cases hother with
    | loop hloop => exact absurd (hnames ▸ hloop) hcloses
    | linked _ _ =>
      cases hnames
      rfl
    | entry hplain _ =>
      cases hnames
      exact absurd hlink hplain
    | lost hfollow' | vacant hfollow' =>
      cases hnames
      cases hfollow.symm.trans hfollow'
  | entry hplain hfollow =>
    cases hother with
    | loop hloop => exact absurd (hnames ▸ hloop) hcloses
    | linked hlink _ =>
      cases hnames
      exact absurd hlink hplain
    | entry _ hfollow' =>
      cases hnames
      cases hfollow.symm.trans hfollow'
      rfl
    | lost hfollow' | vacant hfollow' =>
      cases hnames
      cases hfollow.symm.trans hfollow'

/-- How many files are at ways that come before a way. -/
noncomputable def filesBefore (disk : Disk) (top way : List Name) : Nat :=
  Set.ncard {other | disk.Way top other ∧ other < way ∧
    ∃ data modified, disk.Shows top other (.file data modified)}

end Disk

namespace Vantage

variable {vantage : Vantage} {top : List Name} {start : Nat}

/-- The files of a list can be hashed when their turns come, after `start` other questions. -/
def Hashes (vantage : Vantage) (top : List Name) (start : Nat) (sightings : List Sighting) : Prop :=
  ∀ front sighting rest data modified, sightings = front ++ sighting :: rest →
    sighting.sight = .file data modified →
    ∃ code, vantage.observer.hash (start + front.countP Sighting.isFile)
      (Path.render (top ++ sighting.names)) (Leaf.metadata (.file data modified)) = .ok code

theorem hashes_cons {sighting : Sighting} {rest : List Sighting}
    (hfirst : ∀ data modified, sighting.sight = .file data modified →
      ∃ code, vantage.observer.hash start (Path.render (top ++ sighting.names))
        (Leaf.metadata (.file data modified)) = .ok code)
    (hrest : vantage.Hashes top (start + [sighting].countP Sighting.isFile) rest) :
    vantage.Hashes top start (sighting :: rest) := by
  intro front other back data modified hsplit hsight
  cases front with
  | nil =>
    cases hsplit
    exact hfirst data modified hsight
  | cons first front =>
    cases hsplit
    obtain ⟨code, hcode⟩ := hrest front other back data modified rfl hsight
    refine ⟨code, ?_⟩
    rw [← hcode, ← List.singleton_append, List.countP_append, ← Nat.add_assoc]

/-- A sighting is told of, and a file takes one question for it, or a file cannot be hashed. -/
theorem on_observe (vantage : Vantage) (top : List Name) (sighting : Sighting) (ledger : Ledger) :
    (∃ entry after, (vantage.observe top sighting).on ledger = (.ok entry, after) ∧
      after.asked.length = ledger.asked.length + [sighting].countP Sighting.isFile ∧
      ∀ data modified, sighting.sight = .file data modified →
        ∃ code, vantage.observer.hash ledger.asked.length (Path.render (top ++ sighting.names))
          (Leaf.metadata (.file data modified)) = .ok code) ∨
    ∃ data modified kind after, sighting.sight = .file data modified ∧
      vantage.observer.hash ledger.asked.length (Path.render (top ++ sighting.names))
        (Leaf.metadata (.file data modified)) = .error kind ∧
      (vantage.observe top sighting).on ledger
        = (.error (.io (Path.render (top ++ sighting.names)) kind), after) := by
  obtain ⟨names, sight⟩ := sighting
  cases sight with
  | directory => exact .inl ⟨_, _, rfl, rfl, fun _ _ hsight => nomatch hsight⟩
  | file data modified =>
    have hcontent := vantage.on_content (top ++ names) (Leaf.metadata (.file data modified)) ledger
    rcases hhash : vantage.observer.hash ledger.asked.length (Path.render (top ++ names))
      (Leaf.metadata (.file data modified)) with kind | code
    · rw [hhash] at hcontent
      exact .inr ⟨data, modified, kind, _, rfl, hhash, Work.on_bind_error hcontent⟩
    · rw [hhash] at hcontent
      refine .inl ⟨_, _, Work.on_bind_ok hcontent, ?_, ?_⟩
      · simp [Sighting.isFile]
      · intro _ _ hsight
        cases hsight
        exact ⟨code, hhash⟩

/-- All sightings are told of, or there is a first file that cannot be hashed, and its failure is
    the outcome. -/
theorem observeAll_cases (vantage : Vantage) (top : List Name) (sightings : List Sighting)
    (ledger : Ledger) :
    (vantage.Hashes top ledger.asked.length sightings ∧
      ∃ entries after, (vantage.observeAll top sightings).on ledger = (.ok entries, after)) ∨
    ∃ front sighting rest data modified kind after, sightings = front ++ sighting :: rest ∧
      vantage.Hashes top ledger.asked.length front ∧ sighting.sight = .file data modified ∧
      vantage.observer.hash (ledger.asked.length + front.countP Sighting.isFile)
        (Path.render (top ++ sighting.names)) (Leaf.metadata (.file data modified)) = .error kind ∧
      (vantage.observeAll top sightings).on ledger
        = (.error (.io (Path.render (top ++ sighting.names)) kind), after) := by
  induction sightings generalizing ledger with
  | nil => exact .inl ⟨fun front _ _ _ _ hsplit => by simp at hsplit, [], ledger, rfl⟩
  | cons sighting rest ih =>
    rcases vantage.on_observe top sighting ledger with
      ⟨entry, middle, hrun, hlength, hfirst⟩ | ⟨data, modified, kind, after, hsight, hhash, hrun⟩
    · rcases ih middle with ⟨hrest, entries, last, hentries⟩ |
        ⟨front, other, back, data, modified, kind, last, rfl, hfront, hsight, hhash, hfails⟩
      · refine .inl ⟨hashes_cons hfirst (hlength ▸ hrest), entry :: entries, last, ?_⟩
        rw [observeAll, Work.on_bind_ok hrun, Work.on_bind_ok hentries, Work.on_pure]
      · refine .inr ⟨sighting :: front, other, back, data, modified, kind, last, rfl,
          hashes_cons hfirst (hlength ▸ hfront), hsight, ?_, ?_⟩
        · rw [← hhash, hlength, ← List.singleton_append, List.countP_append, Nat.add_assoc]
        · rw [observeAll, Work.on_bind_ok hrun, Work.on_bind_error hfails]
    · refine .inr ⟨[], sighting, rest, data, modified, kind, after, rfl, ?_, hsight, hhash, ?_⟩
      · intro front _ _ _ _ hsplit
        simp at hsplit
      · rw [observeAll, Work.on_bind_error hrun]

/-! ### What cannot be observed -/

/-- A way that cannot be observed, in a walk before which `start` questions were asked, and the
    failure that stands for it: there is nothing to be seen, or a file that is not hashed when its
    turn comes. -/
inductive Misses (vantage : Vantage) (top : List Name) (start : Nat) (way : List Name) :
    Failure → Prop
  | blocked {obstacle : Obstacle} : obstacle.names = way → vantage.disk.Blocks top obstacle →
    vantage.Misses top start way (obstacle.failure top)
  | unhashed {data : Bytes} {modified : Int} {kind : IoKind} :
    vantage.disk.Shows top way (.file data modified) →
    vantage.observer.hash (start + vantage.disk.filesBefore top way) (Path.render (top ++ way))
      (Leaf.metadata (.file data modified)) = .error kind →
    vantage.Misses top start way (.io (Path.render (top ++ way)) kind)

/-- In the order of the ways, the first that cannot be observed. -/
structure FirstMissed (vantage : Vantage) (top : List Name) (start : Nat) (way : List Name)
    (failure : Failure) : Prop where
  below : vantage.disk.Way top way ∧ way ≠ []
  misses : vantage.Misses top start way failure
  first : ∀ other, vantage.disk.Way top other → other ≠ [] → other < way →
    ∀ failure, ¬ vantage.Misses top start other failure

variable {way other : List Name} {failure failure' : Failure}

theorem Misses.path? (h : vantage.Misses top start way failure) :
    failure.path? = some (Path.render (top ++ way)) := by
  cases h with
  | blocked hnames hblocks => rw [Obstacle.path?_failure, hnames]
  | unhashed => rfl

theorem Misses.unique (h : vantage.Misses top start way failure)
    (h' : vantage.Misses top start way failure') : failure' = failure := by
  cases h with
  | blocked hnames hblocks =>
    cases h' with
    | blocked hnames' hblocks' => rw [hblocks.unique hblocks' (hnames'.trans hnames.symm)]
    | unhashed hshows' _ => exact absurd (hnames ▸ hshows') (hblocks.not_shows _)
  | unhashed hshows hhash =>
    cases h' with
    | blocked hnames' hblocks' => exact absurd (hnames' ▸ hshows) (hblocks'.not_shows _)
    | unhashed hshows' hhash' =>
      cases hshows.unique hshows'
      rw [hhash] at hhash'
      cases hhash'
      rfl

theorem FirstMissed.unique (h : vantage.FirstMissed top start way failure)
    (h' : vantage.FirstMissed top start other failure') : other = way ∧ failure' = failure := by
  have hbefore : ¬ way < other := fun hlt => h'.first way h.below.1 h.below.2 hlt _ h.misses
  have hafter : ¬ other < way := fun hlt => h.first other h'.below.1 h'.below.2 hlt _ h'.misses
  obtain rfl : other = way := List.le_antisymm (List.not_lt.1 hbefore) (List.not_lt.1 hafter)
  exact ⟨rfl, h.misses.unique h'.misses⟩

end Vantage

/-! ### The turns of the files -/

namespace Survey.Covers

variable {disk : Disk} {top : List Name} {survey : Survey} {front rest : List Sighting}
  {sighting : Sighting}

/-- What was seen before a sighting is what there is to be seen at earlier ways. -/
theorem mem_front_iff (h : Covers disk top (fun way => disk.Way top way ∧ way ≠ []) survey)
    (hseen : survey.seen = front ++ sighting :: rest) (other : List Name) :
    other ∈ front.map Sighting.names ↔
      disk.Way top other ∧ other ≠ [] ∧ other < sighting.names := by
  have horder := h.increasing
  rw [hseen, List.map_append, List.map_cons, List.pairwise_append, List.pairwise_cons] at horder
  obtain ⟨-, ⟨hlater, -⟩, hearlier⟩ := horder
  constructor
  · intro hother
    have hbefore := hearlier other hother sighting.names List.mem_cons_self
    obtain ⟨sighting', hsighting', rfl⟩ := List.mem_map.1 hother
    have hshown := h.shown sighting' (hseen ▸ List.mem_append_left _ hsighting')
    exact ⟨hshown.1.1, hshown.1.2, hbefore⟩
  · rintro ⟨hway, hne, hbefore⟩
    have hlisted : other ∈ survey.seen.map Sighting.names := by
      refine h.complete other ⟨hway, hne⟩ ?_
      intro obstacle hobstacle
      have hlast := (h.blocked obstacle hobstacle).2.2 sighting (by simp [hseen])
      exact List.lt_trans hbefore hlast
    rw [hseen, List.map_append, List.map_cons, List.mem_append, List.mem_cons] at hlisted
    rcases hlisted with hfront | rfl | hrest
    · exact hfront
    · exact absurd hbefore (List.lt_irrefl _)
    · exact absurd hbefore (List.lt_asymm (hlater other hrest))

/-- A file is hashed after those that were seen before it. -/
theorem filesBefore_eq (h : Covers disk top (fun way => disk.Way top way ∧ way ≠ []) survey)
    (htop : ∀ data modified, ¬ disk.Shows top [] (.file data modified))
    (hseen : survey.seen = front ++ sighting :: rest) :
    disk.filesBefore top sighting.names = front.countP Sighting.isFile := by
  have hincreasing : (front.map Sighting.names).Pairwise (· < ·) := by
    have horder := h.increasing
    rw [hseen, List.map_append, List.pairwise_append] at horder
    exact horder.1
  have hnodup : ((front.filter Sighting.isFile).map Sighting.names).Nodup := by
    have hdistinct : (front.map Sighting.names).Nodup := by
      refine hincreasing.imp ?_
      rintro way _ hlt rfl
      exact List.lt_irrefl _ hlt
    exact hdistinct.sublist (List.filter_sublist.map _)
  have hset : {other | disk.Way top other ∧ other < sighting.names ∧
      ∃ data modified, disk.Shows top other (.file data modified)}
      = ↑((front.filter Sighting.isFile).map Sighting.names).toFinset := by
    ext other
    rw [List.coe_toFinset, Set.mem_ofPred_eq, Set.mem_ofPred_eq, List.mem_map]
    constructor
    · rintro ⟨hway, hbefore, data, modified, hshows⟩
      have hne : other ≠ [] := by
        rintro rfl
        exact htop data modified hshows
      obtain ⟨sighting', hsighting', rfl⟩ :=
        List.mem_map.1 ((h.mem_front_iff hseen other).2 ⟨hway, hne, hbefore⟩)
      have hshown := (h.shown sighting' (hseen ▸ List.mem_append_left _ hsighting')).2
      refine ⟨sighting', List.mem_filter.2 ⟨hsighting', ?_⟩, rfl⟩
      exact Sighting.isFile_iff.2 ⟨data, modified, hshows.unique hshown⟩
    · rintro ⟨sighting', hsighting', rfl⟩
      obtain ⟨hfront, hfile⟩ := List.mem_filter.1 hsighting'
      obtain ⟨data, modified, hsight⟩ := Sighting.isFile_iff.1 hfile
      have hshown := (h.shown sighting' (hseen ▸ List.mem_append_left _ hfront)).2
      obtain ⟨hway, -, hbefore⟩ :=
        (h.mem_front_iff hseen sighting'.names).1 (List.mem_map_of_mem hfront)
      exact ⟨hway, hbefore, data, modified, hsight ▸ hshown⟩
  rw [Disk.filesBefore, hset, Set.ncard_coe_finset, List.toFinset_card_of_nodup hnodup,
    List.length_map, List.countP_eq_length_filter]

end Survey.Covers

/-! ### A scan reports the first miss -/

namespace Vantage

variable {vantage : Vantage} {top : List Name} {start : Nat}

/-- Nothing is amiss at a way that was seen, if it is a file that is hashed or a directory. -/
theorem not_misses {survey : Survey}
    (h : survey.Covers vantage.disk top (fun way => vantage.disk.Way top way ∧ way ≠ []))
    (htop : ∀ data modified, ¬ vantage.disk.Shows top [] (.file data modified))
    {front rest : List Sighting} (hseen : survey.seen = front ++ rest)
    (hhashes : vantage.Hashes top start front) {way : List Name}
    (hway : way ∈ front.map Sighting.names) (failure : Failure) :
    ¬ vantage.Misses top start way failure := by
  obtain ⟨sighting, hsighting, rfl⟩ := List.mem_map.1 hway
  have hshown := (h.shown sighting (hseen ▸ List.mem_append_left _ hsighting)).2
  intro hmisses
  cases hmisses with
  | blocked hnames hblocks => exact hblocks.not_shows _ (hnames ▸ hshown)
  | unhashed hshows hhash =>
    obtain ⟨before, after, rfl⟩ := List.append_of_mem hsighting
    obtain ⟨code, hcode⟩ :=
      hhashes before sighting after _ _ rfl (hshows.unique hshown)
    rw [List.append_assoc, List.cons_append] at hseen
    rw [h.filesBefore_eq htop hseen, hcode] at hhash
    cases hhash

/-- A scan succeeds and nothing is amiss, or it reports the first miss. -/
theorem scan_cases {location : List Name} {inside : Forest}
    (hdirectory : vantage.disk.follow [] top = .ok (.directory location inside))
    (ledger : Ledger) :
    (∃ entries after, (vantage.scan top .all).on ledger = (.ok entries, after) ∧
      ∀ way, vantage.disk.Way top way → way ≠ [] →
        ∀ failure, ¬ vantage.Misses top ledger.asked.length way failure) ∨
    ∃ way failure after, (vantage.scan top .all).on ledger = (.error failure, after) ∧
      vantage.FirstMissed top ledger.asked.length way failure := by
  have hcovers := Survey.covers_below hdirectory
  have htop : ∀ data modified, ¬ vantage.disk.Shows top [] (.file data modified) := by
    rintro data modified ⟨⟨place, hplace, hsight⟩, -⟩
    rw [List.append_nil, hdirectory] at hplace
    cases hplace
    cases hsight
  rcases vantage.observeAll_cases top (Survey.below vantage.disk top .all).seen ledger with
    ⟨hhashes, entries, after, hentries⟩ |
    ⟨front, sighting, rest, data, modified, kind, after, hseen, hfront, hsight, hhash, hfails⟩
  · have hclear {way : List Name}
        (hway : way ∈ (Survey.below vantage.disk top .all).seen.map Sighting.names) :=
      not_misses hcovers htop (List.append_nil _).symm hhashes hway
    rcases hobstacle : (Survey.below vantage.disk top .all).obstacle with _ | obstacle
    · refine .inl ⟨entries, after, ?_, ?_⟩
      · rw [scan, Work.on_bind_ok hentries, hobstacle, Work.on_pure]
      · intro way hway hne
        exact hclear (hcovers.complete way ⟨hway, hne⟩ (by simp [hobstacle]))
    · obtain ⟨hbelow, hblocks, -⟩ := hcovers.blocked obstacle hobstacle
      refine .inr ⟨obstacle.names, obstacle.failure top, after, ?_, hbelow,
        .blocked rfl hblocks, ?_⟩
      · rw [scan, Work.on_bind_ok hentries, hobstacle]
        rfl
      · intro other hother hne hlt
        exact hclear (hcovers.complete other ⟨hother, hne⟩ (by simpa [hobstacle] using hlt))
  · obtain ⟨hbelow, hshown⟩ := hcovers.shown sighting (by simp [hseen])
    rw [hsight] at hshown
    refine .inr ⟨sighting.names, _, after, Work.on_bind_error hfails, hbelow,
      .unhashed hshown ?_, ?_⟩
    · rw [hcovers.filesBefore_eq htop hseen, hhash]
    · intro other hother hne hlt
      have hmem := (hcovers.mem_front_iff hseen other).2 ⟨hother, hne, hlt⟩
      exact not_misses hcovers htop hseen hfront hmem

/-- **A scan fails where there is a miss, and with the first one.** -/
theorem scan_error_iff {location : List Name} {inside : Forest}
    (hdirectory : vantage.disk.follow [] top = .ok (.directory location inside))
    (ledger : Ledger) :
    ((∃ failure, ((vantage.scan top .all).on ledger).1 = .error failure) ↔
      ∃ way failure, vantage.disk.Way top way ∧ way ≠ [] ∧
        vantage.Misses top ledger.asked.length way failure) ∧
    ∀ failure, ((vantage.scan top .all).on ledger).1 = .error failure ↔
      ∃ way, vantage.FirstMissed top ledger.asked.length way failure := by
  rcases scan_cases hdirectory ledger with
    ⟨entries, after, hrun, hclear⟩ | ⟨way, failure, after, hrun, hfirst⟩
  · rw [hrun]
    refine ⟨⟨fun ⟨_, herror⟩ => (by cases herror), ?_⟩, fun failure => ⟨(by cases ·), ?_⟩⟩
    · rintro ⟨way, failure, hway, hne, hmisses⟩
      exact absurd hmisses (hclear way hway hne failure)
    · rintro ⟨way, hfirst⟩
      exact absurd hfirst.misses (hclear way hfirst.below.1 hfirst.below.2 failure)
  · rw [hrun]
    refine ⟨⟨fun _ => ⟨way, failure, hfirst.below.1, hfirst.below.2, hfirst.misses⟩,
      fun _ => ⟨failure, rfl⟩⟩, fun other => ⟨?_, ?_⟩⟩
    · rintro ⟨⟩
      exact ⟨way, hfirst⟩
    · rintro ⟨way', hfirst'⟩
      rw [(hfirst.unique hfirst').2]

/-! ### Roots that name a directory -/

end Vantage

/-- The root stands for all that is below a directory at a path, or for the directory as well. -/
def Root.IsUnfiltered (path : Bytes) (root : Root) : Prop :=
  root = .tree path ∨ root = .filtered path .empty ∨ root = .members [path]

/-- A plain look at the disk, with any hasher. -/
def Vantage.hashing (disk : Disk) (current : List Name)
    (hash : Nat → Bytes → Metadata → Except IoKind HashCode) : Vantage :=
  ⟨disk, current, { Observer.ofDisk disk with hash }⟩

theorem Work.error_bind_pure_iff {α β : Type} {work : Work α} {f : α → β} {ledger : Ledger}
    {failure : Failure} : ((work >>= fun a => pure (f a)).on ledger).1 = .error failure ↔
      (work.on ledger).1 = .error failure := by
  rw [on_bind]
  rcases work.on ledger with ⟨other | a, after⟩
  · exact ⟨(by rintro ⟨⟩; rfl), (by rintro ⟨⟩; rfl)⟩
  · exact ⟨(by cases ·), (by cases ·)⟩

namespace Vantage

variable {vantage : Vantage} {top : List Name} {ledger : Ledger} {failure : Failure}

/-- Contents that are not remembered are scanned, and what a scan comes to depends on the questions
    before it alone. -/
theorem contents_error_iff {key : String} {other : Ledger}
    (hkey : ledger.cache.listing? key = none) (hasked : other.asked = ledger.asked) :
    ((vantage.contents top key).on ledger).1 = .error failure ↔
      ((vantage.scan top .all).on other).1 = .error failure := by
  rw [((vantage.looks_scan top .all).same ledger other hasked).1, on_contents_of_none hkey]
  rcases (vantage.scan top .all).on ledger with ⟨other | entries, after⟩
  · exact ⟨(by rintro ⟨⟩; rfl), (by rintro ⟨⟩; rfl)⟩
  · exact ⟨(by cases ·), (by cases ·)⟩

/-- After one question, whether there is a directory, the walk of an unfiltered root is a scan. -/
theorem expand_error_iff_scan (h : vantage.observer.stat ledger.asked.length (Path.render top)
      = .ok .directory) {path : Bytes} (hpath : Path.absolute vantage.current path = some top)
    (hmember : ledger.cache.path? (Path.text top) = none)
    (hlisting : ledger.cache.listing? (Path.text top) = none) {root : Root}
    (hroot : root.IsUnfiltered path) :
    ((vantage.expand root).on ledger).1 = .error failure ↔
      ((vantage.scan top .all).on
        { ledger with asked := ledger.asked ++ [.stat (Path.render top)] }).1 = .error failure := by
  have hstat (pool : TextPool) : (vantage.stat top).on { ledger with pool }
      = (.ok .directory, ⟨ledger.cache, pool, ledger.asked ++ [.stat (Path.render top)]⟩) := by
    rw [on_stat]
    simp only [h]
  rcases hroot with rfl | rfl | rfl
  · rw [expand, absolute_of_some hpath, pure_bind, Work.error_bind_pure_iff, expandTree,
      Work.on_bind_ok (Work.on_intern _ _), Work.on_bind_ok (Work.on_get _)]
    simp only [hlisting]
    rw [Work.on_bind_ok (hstat _)]
    exact contents_error_iff hlisting rfl
  · rw [expand, absolute_of_some hpath, pure_bind, Work.error_bind_pure_iff, expandFiltered,
      Work.on_bind_ok (hstat ledger.pool), Restriction.filter_empty]
    rfl
  · have hprobe (pool : TextPool) : (vantage.probe top (Path.text top)).on { ledger with pool }
        = (.ok ⟨Path.text top, .ofName false (Path.lastName top), true, .directory⟩,
          ⟨ledger.cache, pool, ledger.asked ++ [.stat (Path.render top)]⟩) := by
      rw [probe, Work.on_bind_ok (hstat pool)]
      rfl
    have hfound (pool : TextPool) : (vantage.member top (Path.text top)).on { ledger with pool }
        = (.ok ⟨Path.text top, .ofName false (Path.lastName top), true, .directory⟩,
          ⟨ledger.cache.putPath
              ⟨Path.text top, .ofName false (Path.lastName top), true, .directory⟩,
            pool, ledger.asked ++ [.stat (Path.render top)]⟩) := by
      rw [on_member_of_none (by exact hmember), hprobe]
    have hone : vantage.expand (.members [path]) = vantage.expandMember path >>= fun expansion =>
      pure [expansion] := rfl
    rw [hone, Work.error_bind_pure_iff, expandMember, absolute_of_some hpath, pure_bind,
      Work.on_bind_ok (Work.on_intern _ _), Work.on_bind_ok (hfound _)]
    simp only [Observation.kind, Content.kind, Work.error_bind_pure_iff]
    refine contents_error_iff ?_ rfl
    rw [Cache.listing?_putPath]
    exact hlisting

end Vantage

/-- A part is the walk of one path. -/
theorem Root.CutAt.paths {roots done : List Root} {part : Root} (h : Root.CutAt roots done part) :
    ∃ given, part.paths = [given] := by
  induction h with
  | member _ path => exact ⟨path, rfl⟩
  | filtered directory => exact ⟨directory, rfl⟩
  | tree directory => exact ⟨directory, rfl⟩
  | next _ _ ih => exact ih

/-- A failure of a walk that is not about a pattern is at or below one of the paths that are walked:
    that of the part at which the walk stops. -/
theorem Vantage.path?_of_expand_error {vantage : Vantage} {root : Root} {ledger after : Ledger}
    {failure : Failure} (h : (vantage.expand root).on ledger = (.error failure, after)) :
    (∃ pattern reason, failure = .pattern pattern reason) ∨
    ∃ done part given middle entries path, Root.CutAt [root] done part ∧ part.paths = [given] ∧
      (vantage.gather .identity done).on ledger = (.ok entries, middle) ∧
      (vantage.expand part).on middle = (.error failure, after) ∧
      failure.path? = some path ∧ vantage.IsAbout given path := by
  have hgather : (vantage.gather .identity [root]).on ledger = (.error failure, after) := by
    rw [gather, Work.on_bind_error h]
  obtain ⟨done, part, entries, middle, hcut, hdone, hpart⟩ := gather_stops hgather
  obtain ⟨given, hgiven⟩ := hcut.paths
  have habout := (vantage.concerns_expand part).failure middle failure (by rw [hpart])
  simp only [hgiven, List.mem_singleton, exists_eq_left] at habout
  rcases hpath : failure.path? with _ | path
  · cases failure with
    | pattern pattern reason => exact .inl ⟨pattern, reason, rfl⟩
    | _ => cases hpath
  · exact .inr ⟨done, part, given, middle, entries, path, hcut, hgiven, hdone, hpart, rfl,
      habout path hpath⟩

/-- **Which failure a walk reports.**  The walk of a directory without patterns fails exactly when
    there is a way that cannot be observed, and then it reports the first one, under its path.  The
    failure of any walk at all, unless it is about a pattern, is at or below the path that was being
    walked, or at that path as it was given when it spells no location. -/
theorem walk_reports_first_miss (disk : Disk) {current : List Name}
    (hcurrent : ∀ name ∈ current, name.Plain) :
    (∀ hash path top location inside root ledger, Path.absolute current path = some top →
      disk.follow [] top = .ok (.directory location inside) → Root.IsUnfiltered path root →
      ledger.cache.path? (Path.text top) = none → ledger.cache.listing? (Path.text top) = none →
      ((∃ failure, (((Vantage.hashing disk current hash).expand root).on ledger).1
          = .error failure) ↔
        ∃ way failure, disk.Way top way ∧ way ≠ [] ∧
          (Vantage.hashing disk current hash).Misses top (ledger.asked.length + 1) way failure) ∧
      (∀ failure, (((Vantage.hashing disk current hash).expand root).on ledger).1
          = .error failure ↔
        ∃ way, (Vantage.hashing disk current hash).FirstMissed top (ledger.asked.length + 1) way
          failure) ∧
      ∀ way failure,
        (Vantage.hashing disk current hash).FirstMissed top (ledger.asked.length + 1) way failure →
        failure.path? = some (Path.render (top ++ way))) ∧
    ∀ observer root ledger failure after,
      ((⟨disk, current, observer⟩ : Vantage).expand root).on ledger = (.error failure, after) →
      (∃ pattern reason, failure = .pattern pattern reason) ∨
      ∃ done part given middle entries path, Root.CutAt [root] done part ∧ part.paths = [given] ∧
        ((⟨disk, current, observer⟩ : Vantage).gather .identity done).on ledger
          = (.ok entries, middle) ∧
        ((⟨disk, current, observer⟩ : Vantage).expand part).on middle = (.error failure, after) ∧
        failure.path? = some path ∧ (⟨disk, current, observer⟩ : Vantage).IsAbout given path := by
  refine ⟨?_, fun observer root ledger failure after => Vantage.path?_of_expand_error⟩
  intro hash path top location inside root ledger hpath hdirectory hroot hmember hlisting
  have htop := Path.plain_absolute hcurrent hpath
  have hstat : (Vantage.hashing disk current hash).observer.stat ledger.asked.length
      (Path.render top) = .ok .directory := by
    show disk.stat [] (Path.render top) = .ok .directory
    rw [Disk.stat, Disk.resolve_render htop, hdirectory]
  have hthere : (Vantage.hashing disk current hash).disk.follow [] top
      = .ok (.directory location inside) := hdirectory
  obtain ⟨hfails, hreports⟩ := Vantage.scan_error_iff hthere
    { ledger with asked := ledger.asked ++ [.stat (Path.render top)] }
  rw [List.length_append, List.length_singleton] at hfails hreports
  have hscan (failure : Failure) : (((Vantage.hashing disk current hash).expand root).on ledger).1
        = .error failure ↔ _ :=
    Vantage.expand_error_iff_scan hstat hpath hmember hlisting hroot
  refine ⟨?_, ?_, fun way failure hfirst => hfirst.misses.path?⟩
  · simp only [hscan]
    exact hfails
  · intro failure
    rw [hscan]
    exact hreports failure

/-! ### A hasher that fails at its second file -/

/-- `/d` holds a directory `a` with a file `f`, a file `g` and a fifo `p`. -/
def unhashedDisk : Disk where
  root := .directory [0x64]
    (.directory [0x61] (.leaf [0x66] (.file [] 0) .nil)
      (.leaf [0x67] (.file [] 0) (.leaf [0x70] .fifo .nil))) .nil
  wellFormed := by decide

/-- The first question is what there is at `/d`, and the second file is hashed after two of them. -/
def unhashedVantage : Vantage :=
  .hashing unhashedDisk [] fun count _ _ => if count = 2 then .error .permissionDenied else .ok ⟨[]⟩

def unhashedWalk : Except Failure (List Expansion) × Ledger :=
  (unhashedVantage.expand (.tree (Utf8.encode "/d"))).on ⟨.empty, .empty, []⟩

theorem walk_reports_first_miss_unhashed :
    unhashedWalk.1 = .error (.io (Utf8.encode "/d/g") .permissionDenied) ∧
    (∃ way, unhashedVantage.FirstMissed [[0x64]] 1 way
        (.io (Utf8.encode "/d/g") .permissionDenied) ∧
      Path.render ([[0x64]] ++ way) = Utf8.encode "/d/g") ∧
    ∃ done part given path, Root.CutAt [.tree (Utf8.encode "/d")] done part ∧
      part.paths = [given] ∧ path = Utf8.encode "/d/g" ∧ unhashedVantage.IsAbout given path := by
  have hfails : unhashedWalk.1 = .error (.io (Utf8.encode "/d/g") .permissionDenied) := rfl
  have hrun : unhashedWalk
      = (.error (.io (Utf8.encode "/d/g") .permissionDenied), unhashedWalk.2) := rfl
  have hcurrent : ∀ name ∈ ([] : List Name), name.Plain := by simp
  obtain ⟨hdirectory, hany⟩ := walk_reports_first_miss unhashedDisk hcurrent
  obtain ⟨-, hreports, hpaths⟩ := hdirectory _ (Utf8.encode "/d") [[0x64]] _ _
    (.tree (Utf8.encode "/d")) ⟨.empty, .empty, []⟩ rfl rfl (.inl rfl) rfl rfl
  obtain ⟨way, hfirst⟩ := (hreports _).1 hfails
  refine ⟨hfails, ⟨way, hfirst, (Option.some.inj (hpaths way _ hfirst)).symm⟩, ?_⟩
  rcases hany unhashedVantage.observer _ _ _ _ hrun with
    ⟨_, _, hpattern⟩ | ⟨done, part, given, -, -, path, hcut, hgiven, -, -, hpath, habout⟩
  · cases hpattern
  · exact ⟨done, part, given, path, hcut, hgiven, (Option.some.inj hpath).symm, habout⟩

end Treeprint
