import Treeprint.Proofs.Filtering
import Treeprint.Proofs.Sightings

/-!
# What a filtered survey has seen

Where nothing is in the way, a filtered survey is a part of the survey of everything.  Here nothing
is said of what is in the way: a filter may pass over a directory in which the other survey stops.
Still **what a filtered survey has seen stands in strictly increasing order and passes the filter**,
each thing by itself and by the directories above it (`Survey.orderly_below`).
-/

namespace Treeprint

namespace Survey

/-- What is seen of the named entries of a directory: below them, admitted by the filter, and in
    strictly increasing order. -/
structure Orderly (filter : Filter) (names : List Name) (entries : Name → Prop) (survey : Survey) :
    Prop where
  inside : ∀ sighting ∈ survey.seen, ∃ name, entries name ∧ names ++ [name] <+: sighting.names
  admitted : ∀ sighting ∈ survey.seen, filter.admits names.length sighting = true
  increasing : (survey.seen.map Sighting.names).Pairwise (· < ·)

namespace Orderly

variable {filter : Filter} {names : List Name} {entries : Name → Prop} {name : Name}

theorem nothing : Orderly filter names entries nothing where
  inside _ hsighting := nomatch hsighting
  admitted _ hsighting := nomatch hsighting
  increasing := .nil

theorem stop (obstacle : Obstacle) : Orderly filter names entries (stop obstacle) where
  inside _ hsighting := nomatch hsighting
  admitted _ hsighting := nomatch hsighting
  increasing := .nil

theorem mono {more : Name → Prop} {survey : Survey} (h : Orderly filter names entries survey)
    (hmore : ∀ name, entries name → more name) : Orderly filter names more survey where
  inside sighting hsighting := by
    obtain ⟨name, hname, hprefix⟩ := h.inside sighting hsighting
    exact ⟨name, hmore name hname, hprefix⟩
  admitted := h.admitted
  increasing := h.increasing

/-- An entry that passes is seen, and it is judged by itself. -/
theorem one {sight : Sight} (hpasses : filter (names ++ [name]) (sight = .directory) = true) :
    Orderly filter names (· = name) (one (names ++ [name]) sight) where
  inside sighting hsighting := by
    rw [names_of_mem_one hsighting]
    exact ⟨name, rfl, List.prefix_rfl⟩
  admitted sighting hsighting := by
    rw [Survey.one, List.mem_singleton] at hsighting
    rw [hsighting, admits_entry, hpasses]
  increasing := List.pairwise_singleton _ _

/-- What a filter passes over leaves nothing to see. -/
theorem passing {passes : Bool} {survey : Survey}
    (h : passes = true → Orderly filter names entries survey) :
    Orderly filter names entries (if passes then survey else .nothing) := by
  cases passes with
  | true => exact h rfl
  | false => exact .nothing

/-- What is below an earlier entry comes before what is below a later one. -/
theorem andThen {first second : Survey} (hfirst : Orderly filter names (· = name) first)
    (hsecond : Orderly filter names entries second) (hlt : ∀ other, entries other → name < other) :
    Orderly filter names (fun other => other = name ∨ entries other)
      (first.andThen fun _ => second) where
  inside sighting hsighting := by
    rcases mem_seen_andThen hsighting with hsighting | hsighting
    · obtain ⟨other, hother, hprefix⟩ := hfirst.inside sighting hsighting
      exact ⟨other, .inl hother, hprefix⟩
    · obtain ⟨other, hother, hprefix⟩ := hsecond.inside sighting hsighting
      exact ⟨other, .inr hother, hprefix⟩
  admitted sighting hsighting :=
    (mem_seen_andThen hsighting).elim (hfirst.admitted sighting) (hsecond.admitted sighting)
  increasing := by
    unfold Survey.andThen
    split
    · exact hfirst.increasing
    · rw [List.map_append, List.pairwise_append]
      refine ⟨hfirst.increasing, hsecond.increasing, ?_⟩
      simp only [List.mem_map]
      rintro _ ⟨sighting, hsighting, rfl⟩ _ ⟨other, hother, rfl⟩
      obtain ⟨_, rfl, hprefix⟩ := hfirst.inside sighting hsighting
      obtain ⟨later, hlater, hprefix'⟩ := hsecond.inside other hother
      exact lt_of_prefixes (hlt later hlater) hprefix hprefix'

/-- A directory that passes is seen before what is in it. -/
theorem directory {survey : Survey} (h : Orderly filter (names ++ [name]) entries survey) :
    Orderly filter names (· = name)
      (if filter (names ++ [name]) true then
        (Survey.one (names ++ [name]) .directory).andThen fun _ => survey
      else .nothing) := by
  refine passing fun hpasses => ?_
  have hself : Orderly filter names (· = name) (Survey.one (names ++ [name]) .directory) :=
    one (by simpa using hpasses)
  constructor
  · intro sighting hsighting
    rcases mem_seen_andThen hsighting with hsighting | hsighting
    · exact hself.inside sighting hsighting
    · obtain ⟨next, -, hprefix⟩ := h.inside sighting hsighting
      exact ⟨name, rfl, (List.prefix_append _ _).trans hprefix⟩
  · intro sighting hsighting
    rcases mem_seen_andThen hsighting with hsighting | hsighting
    · exact hself.admitted sighting hsighting
    · obtain ⟨next, -, hprefix⟩ := h.inside sighting hsighting
      rw [admits_below filter hprefix, hpasses, h.admitted sighting hsighting, Bool.true_and]
  · have hbefore : ∀ way ∈ survey.seen.map Sighting.names, names ++ [name] < way := by
      intro way hway
      obtain ⟨sighting, hsighting, rfl⟩ := List.mem_map.1 hway
      obtain ⟨next, -, hprefix⟩ := h.inside sighting hsighting
      exact lt_of_prefix hprefix
    exact List.pairwise_cons.2 ⟨hbefore, h.increasing⟩

end Orderly

variable {disk : Disk} {top : List Name} {filter : Filter}

theorem orderly_ofLeaf {enter : Entering}
    (henter : ∀ passed location names {inside : Forest}, inside.WellFormed →
      Orderly filter names (fun _ => True) (enter passed location names inside))
    (passed : List (List Name)) (names : List Name) (name : Name) (value : Leaf) :
    Orderly filter names (· = name)
      (ofLeaf disk top filter enter passed (names ++ [name]) value) := by
  cases value with
  | file data modified => exact .passing fun hpasses => .one (by simpa using hpasses)
  | link target =>
    rcases hfollow : disk.follow [] (top ++ (names ++ [name])) with
      trouble | ⟨reached, inner⟩ | ⟨_, value⟩ | _
    · simp only [ofLeaf, hfollow]
      exact .stop _
    · simp only [ofLeaf, hfollow]
      split
      · exact .stop _
      · obtain ⟨left, -, hreaches⟩ := Disk.exists_reaches hfollow
        exact .directory (henter _ _ _ hreaches.wellFormed)
    · cases value with
      | file data modified =>
        simp only [ofLeaf, hfollow]
        exact .passing fun hpasses => .one (by simpa using hpasses)
      | _ =>
        simp only [ofLeaf, hfollow]
        exact .passing fun _ => .stop _
    · simp only [ofLeaf, hfollow]
      exact .stop _
  | _ => exact .passing fun _ => .stop _

/-- The names of a well-formed forest increase, so what is seen of it does. -/
theorem orderly_ofForest {enter : Entering}
    (henter : ∀ passed location names {inside : Forest}, inside.WellFormed →
      Orderly filter names (fun _ => True) (enter passed location names inside))
    (passed : List (List Name)) (location names : List Name) {forest : Forest}
    (hforest : forest.WellFormed) :
    Orderly filter names (· ∈ forest.names)
      (ofForest disk top filter enter passed location names forest) := by
  induction forest generalizing passed location names with
  | nil => exact .nothing
  | leaf name value rest ih =>
    obtain ⟨-, hlt, hrest⟩ := hforest
    exact ((orderly_ofLeaf henter passed names name value).andThen
      (ih passed location names hrest) hlt).mono fun _ hname => List.mem_cons.2 hname
  | directory name inner rest ihinner ih =>
    obtain ⟨-, hlt, hinner, hrest⟩ := hforest
    exact ((Orderly.directory (ihinner _ _ _ hinner)).andThen
      (ih passed location names hrest) hlt).mono fun _ hname => List.mem_cons.2 hname

theorem orderly_upTo (links : Nat) (passed : List (List Name)) (location names : List Name)
    {inside : Forest} (hinside : inside.WellFormed) :
    Orderly filter names (fun _ => True)
      (upTo disk top filter links passed location names inside) := by
  induction links generalizing passed location names inside with
  | zero => exact .stop _
  | succ links ih =>
    exact (orderly_ofForest ih passed location names hinside).mono fun _ _ => trivial

/-- **What a survey has seen increases strictly and passes the filter**, whatever is in the way. -/
theorem orderly_below (disk : Disk) (top : List Name) (filter : Filter) :
    Orderly filter [] (fun _ => True) (below disk top filter) := by
  rcases hfollow : disk.follow [] top with trouble | ⟨location, inside⟩ | ⟨location, value⟩ | _
  · simp only [below, hfollow]
    exact .stop _
  · simp only [below, hfollow]
    obtain ⟨left, -, hreaches⟩ := Disk.exists_reaches hfollow
    exact orderly_upTo _ _ _ _ hreaches.wellFormed
  · simp only [below, hfollow]
    exact .nothing
  · simp only [below, hfollow]
    exact .stop _

end Survey

end Treeprint
