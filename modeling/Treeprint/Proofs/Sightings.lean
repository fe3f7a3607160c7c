import Treeprint.Proofs.Locality
import Treeprint.Proofs.Surveying

/-!
# Whatever a survey tells is so

A survey with a filter may stop elsewhere than the survey of everything, and it may come to an end
where the other one does not.  Still it says nothing that is not there: **what it has seen stands at
the end of a way below its top, and so does what it has met as an obstacle** (`truthful_below`).
Nothing is said here of what a survey leaves out, and no filter is too strange for it.
-/

namespace Treeprint

namespace Survey

open Disk

variable {disk : Disk} {top : List Name} {filter : Filter}

/-- All that a survey tells is about ways below `top`, and what it has seen is what their paths are
    followed to. -/
structure Truthful (disk : Disk) (top : List Name) (survey : Survey) : Prop where
  seen : ∀ sighting ∈ survey.seen, disk.Way top sighting.names ∧
    ∃ place, disk.follow [] (top ++ sighting.names) = .ok place ∧
      place.sight? = some sighting.sight
  obstacle : ∀ obstacle ∈ survey.obstacle, disk.Way top obstacle.names

namespace Truthful

theorem nothing : Truthful disk top nothing where
  seen _ hsighting := nomatch hsighting
  obstacle _ hobstacle := nomatch hobstacle

theorem one {way : List Name} {place : Place} {sight : Sight} (hway : disk.Way top way)
    (hplace : disk.follow [] (top ++ way) = .ok place) (hsight : place.sight? = some sight) :
    Truthful disk top (one way sight) where
  seen sighting hsighting := by
    rw [Survey.one, List.mem_singleton] at hsighting
    rw [hsighting]
    exact ⟨hway, place, hplace, hsight⟩
  obstacle _ hobstacle := nomatch hobstacle

theorem stop {obstacle : Obstacle} (hway : disk.Way top obstacle.names) :
    Truthful disk top (stop obstacle) where
  seen _ hsighting := nomatch hsighting
  obstacle other hother := by
    cases hother
    exact hway

theorem andThen {first second : Survey} (hfirst : Truthful disk top first)
    (hsecond : Truthful disk top second) : Truthful disk top (first.andThen fun _ => second) where
  seen sighting hsighting := by
    rcases mem_seen_andThen hsighting with hsighting | hsighting
    · exact hfirst.seen sighting hsighting
    · exact hsecond.seen sighting hsighting
  obstacle other hother := by
    rcases hobstacle : first.obstacle with _ | obstacle
    · simp only [Survey.andThen, hobstacle] at hother
      exact hsecond.obstacle other hother
    · simp only [Survey.andThen, hobstacle] at hother
      exact hfirst.obstacle other (hobstacle ▸ hother)

/-- A filter may pass over what is told. -/
theorem passing {survey : Survey} (h : Truthful disk top survey) (passes : Bool) :
    Truthful disk top (if passes then survey else .nothing) := by
  cases passes with
  | true => exact h
  | false => exact .nothing

end Truthful

/-- An entry that is no directory tells the truth, and a link to a directory does when entering it
    does. -/
theorem truthful_ofLeaf {enter : Entering} {names location : List Name} {whole : Forest}
    {left : Nat} {name : Name} {value : Leaf} (h : disk.Reaches top names location whole left)
    (hway : disk.Way top names) (hfind : whole.find? name = some (.leaf value))
    (henter : ∀ {passed names reached inner fewer}, disk.Reaches top names reached inner fewer →
      disk.Way top names → Truthful disk top (enter passed reached names inner))
    (passed : List (List Name)) :
    Truthful disk top (ofLeaf disk top filter enter passed (names ++ [name]) value) := by
  have hfront : disk.Way top (names ++ [name]) :=
    .entry hway h.follow (Forest.mem_names_of_find? hfind)
  cases value with
  | link target =>
    rcases hfollow : disk.follow [] (top ++ (names ++ [name])) with
      trouble | ⟨reached, inner⟩ | ⟨reached, value⟩ | reached
    · simp only [ofLeaf, hfollow]
      exact .stop hfront
    · simp only [ofLeaf, hfollow]
      split
      · exact .stop hfront
      · obtain ⟨fewer, -, hinner⟩ := h.link hfind hfollow
        have hself : Truthful disk top (one (names ++ [name]) .directory) :=
          .one hfront hfollow rfl
        exact (hself.andThen (henter hinner hfront)).passing _
    · cases value with
      | file data modified =>
        simp only [ofLeaf, hfollow]
        exact (Truthful.one hfront hfollow rfl).passing _
      | _ =>
        simp only [ofLeaf, hfollow]
        exact (Truthful.stop hfront).passing _
    · simp only [ofLeaf, hfollow]
      exact .stop hfront
  | file data modified => exact (Truthful.one hfront (h.leaf hfind (by simp)) rfl).passing _
  | _ => exact (Truthful.stop hfront).passing _

theorem truthful_ofForest {enter : Entering} {names location : List Name} {whole forest : Forest}
    {left : Nat} (h : disk.Reaches top names location whole left) (hpart : forest.IsPart whole)
    (hforest : forest.WellFormed) (hway : disk.Way top names)
    (henter : ∀ {passed names reached inner fewer}, disk.Reaches top names reached inner fewer →
      disk.Way top names → Truthful disk top (enter passed reached names inner))
    (passed : List (List Name)) :
    Truthful disk top (ofForest disk top filter enter passed location names forest) := by
  induction forest generalizing passed location names whole with
  | nil => exact .nothing
  | leaf name value rest ih =>
    have hcons : (Forest.cons name (.leaf value) rest).IsPart whole := hpart
    have hrest := ih h (hcons.rest hforest) hforest.2.2 hway passed
    exact (truthful_ofLeaf h hway hcons.first henter passed).andThen hrest
  | directory name inner rest ihinner ih =>
    have hcons : (Forest.cons name (.directory inner) rest).IsPart whole := hpart
    have hrest := ih h (hcons.rest hforest) hforest.2.2.2 hway passed
    have hinner := h.directory hcons.first
    have hfront : disk.Way top (names ++ [name]) :=
      .entry hway h.follow (Forest.mem_names_of_find? hcons.first)
    have hself : Truthful disk top (one (names ++ [name]) .directory) :=
      .one hfront hinner.follow rfl
    have hentries :=
      ihinner hinner (fun _ _ hfind => hfind) hforest.2.2.1 hfront ((location ++ [name]) :: passed)
    exact ((hself.andThen hentries).passing _).andThen hrest

theorem truthful_upTo (links : Nat) {passed : List (List Name)} {names location : List Name}
    {inside : Forest} {left : Nat} (h : disk.Reaches top names location inside left)
    (hway : disk.Way top names) :
    Truthful disk top (upTo disk top filter links passed location names inside) := by
  induction links generalizing passed names location inside left with
  | zero => exact .stop hway
  | succ links ih => exact truthful_ofForest h (fun _ _ hfind => hfind) h.wellFormed hway ih passed

/-- **Whatever a survey tells is so, with any filter.** -/
theorem truthful_below (disk : Disk) (top : List Name) (filter : Filter) :
    Truthful disk top (below disk top filter) := by
  rcases hfollow : disk.follow [] top with trouble | ⟨location, inside⟩ | ⟨location, value⟩ | _
  · simp only [below, hfollow]
    exact .stop .top
  · simp only [below, hfollow]
    obtain ⟨left, -, hreaches⟩ := exists_reaches hfollow
    exact truthful_upTo _ hreaches .top
  · simp only [below, hfollow]
    exact .nothing
  · simp only [below, hfollow]
    exact .stop .top

end Survey

end Treeprint
