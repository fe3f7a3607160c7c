import Treeprint.Proofs.Coherence
import Treeprint.Proofs.Sightings

/-!
# What walks are put together of

A walk that remembers nothing is put together of single looks: questions to the observer, texts that
are stored, and failures.  `Vantage.Composes` says of a property of work that single looks have it
and that it is kept when work is put together.  **Such a property holds of a scan, of a probe and of
every tree that is walked without the cache**, which is proved here once, in the order of the model.

Single looks are at paths, and so are failures.  The property need not hold of looks at all paths:
`about` says at which, and the ways below the walked directory have to be among them.
-/

namespace Treeprint

/-! ### Paths that a walk is about -/

/-- The path of a way below `top`, or of `top` itself. -/
def Disk.IsBelow (disk : Disk) (top : List Name) (path : Bytes) : Prop :=
  ∃ way, disk.Way top way ∧ path = Path.render (top ++ way)

theorem Disk.isBelow_self (disk : Disk) (top : List Name) : disk.IsBelow top (Path.render top) :=
  ⟨[], .top, by rw [List.append_nil]⟩

theorem Obstacle.path?_failure (obstacle : Obstacle) (top : List Name) :
    (obstacle.failure top).path? = some (Path.render (top ++ obstacle.names)) := by
  cases obstacle <;> rfl

namespace PatternSet

theorem path?_of_rulesOf_error {lines : List (String × List Char)} {failure : Failure}
    (h : rulesOf lines = .error failure) : failure.path? = none := by
  induction lines with
  | nil => cases h
  | cons line rest ih =>
    unfold rulesOf at h
    split at h
    · cases h
      rfl
    · split at h
      · rename_i hrest
        cases h
        exact ih hrest
      · cases h

/-- A pattern that cannot be read is at no path. -/
theorem path?_of_filter_error {patterns : PatternSet} {failure : Failure}
    (h : patterns.filter = .error failure) : failure.path? = none := by
  unfold filter at h
  split at h
  · rename_i hrules
    cases h
    exact path?_of_rulesOf_error hrules
  · cases h

end PatternSet

/-- Neither are globs that are refused together. -/
theorem Restriction.path?_of_filter_error {restriction : Restriction} {failure : Failure}
    (h : restriction.filter = .error failure) : failure.path? = none := by
  unfold filter at h
  split at h
  · rename_i hpatterns
    cases h
    exact PatternSet.path?_of_filter_error hpatterns
  · split at h
    · cases h
    · cases h
      rfl

namespace Vantage

/-- A property of work that single looks have, as far as they are at paths in `about`, and that is
    kept when work is put together. -/
structure Composes (vantage : Vantage) (about : Bytes → Prop) (P : (α : Type) → Work α → Prop) :
    Prop where
  pure : ∀ {α : Type} (a : α), P α (Pure.pure a)
  throw : ∀ {α : Type} {failure : Failure}, (∀ path, failure.path? = some path → about path) →
    P α (throw failure)
  bind : ∀ {α β : Type} {work : Work α} {next : α → Work β}, P α work → (∀ a, P β (next a)) →
    P β (work >>= next)
  intern : ∀ text, P String (Work.intern text)
  stat : ∀ {location}, about (Path.render location) → P Metadata (vantage.stat location)
  content : ∀ {location}, about (Path.render location) →
    ∀ metadata, P Content (vantage.content location metadata)

namespace Composes

variable {vantage : Vantage} {about : Bytes → Prop} {P : (α : Type) → Work α → Prop}

/-- Work on the location that a path spells, if it spells one. -/
theorem located {β : Type} (h : vantage.Composes about P) {given : Bytes}
    {next : List Name → Work β}
    (hnone : Path.absolute vantage.current given = none → about given)
    (hnext : ∀ location, Path.absolute vantage.current given = some location →
      P β (next location)) : P β (vantage.absolute given >>= next) := by
  unfold absolute
  rcases hlocation : Path.absolute vantage.current given with _ | location
  · apply h.throw
    rintro path ⟨⟩
    exact hnone hlocation
  · exact hnext location hlocation

theorem observe (h : vantage.Composes about P) {top : List Name} {sighting : Sighting}
    (habout : about (Path.render (top ++ sighting.names))) :
    P Observation (vantage.observe top sighting) := by
  unfold Vantage.observe
  cases sighting.sight with
  | directory => exact h.bind (h.intern _) fun _ => h.pure _
  | file data modified =>
    apply h.bind (h.content habout _)
    intro content
    exact h.bind (h.intern _) fun _ => h.pure _

theorem observeAll (h : vantage.Composes about P) {top : List Name} {sightings : List Sighting}
    (habout : ∀ sighting ∈ sightings, about (Path.render (top ++ sighting.names))) :
    P (List Observation) (vantage.observeAll top sightings) := by
  induction sightings with
  | nil => exact h.pure _
  | cons sighting rest ih =>
    have hrest := ih fun other hother => habout other (List.mem_cons_of_mem _ hother)
    apply h.bind (h.observe (habout sighting List.mem_cons_self))
    intro entry
    exact h.bind hrest fun _ => h.pure _

/-- What a scan tells is about ways below its top, so the property holds of it. -/
theorem scan (h : vantage.Composes about P) {top : List Name}
    (habout : ∀ path, vantage.disk.IsBelow top path → about path) (filter : Survey.Filter) :
    P (List Observation) (vantage.scan top filter) := by
  have htruth := Survey.truthful_below vantage.disk top filter
  apply h.bind (h.observeAll fun sighting hsighting =>
    habout _ ⟨sighting.names, (htruth.seen sighting hsighting).1, rfl⟩)
  intro entries
  rcases hobstacle : (Survey.below vantage.disk top filter).obstacle with _ | obstacle
  · exact h.pure _
  · apply h.throw
    intro path hpath
    rw [obstacle.path?_failure] at hpath
    cases hpath
    exact habout _ ⟨obstacle.names, htruth.obstacle obstacle hobstacle, rfl⟩

theorem probe (h : vantage.Composes about P) {location : List Name}
    (habout : about (Path.render location)) (key : String) :
    P Observation (vantage.probe location key) := by
  apply h.bind (h.stat habout)
  intro metadata
  cases metadata.type with
  | missing | directory => exact h.pure _
  | regularFile =>
    apply h.bind (h.content habout metadata)
    intro content
    exact h.pure _
  | unrecognized description =>
    apply h.throw
    rintro path ⟨⟩
    exact habout

theorem withoutDirectory (h : vantage.Composes about P) {location : List Name}
    (habout : ∀ path, vantage.disk.IsBelow location path → about path) (metadata : Metadata) :
    P (List Observation) (vantage.withoutDirectory location metadata) := by
  have hself : about (Path.render location) := habout _ (vantage.disk.isBelow_self location)
  unfold Vantage.withoutDirectory
  cases metadata.type with
  | missing => exact h.pure _
  | directory => exact h.scan habout .all
  | regularFile =>
    apply h.bind (h.content hself metadata)
    intro content
    exact h.bind (h.intern _) fun _ => h.pure _
  | unrecognized description =>
    apply h.throw
    rintro path ⟨⟩
    exact hself

theorem expandFiltered (h : vantage.Composes about P) {location : List Name}
    (habout : ∀ path, vantage.disk.IsBelow location path → about path)
    (restriction : Restriction) :
    P (List Observation) (vantage.expandFiltered location restriction) := by
  apply h.bind (h.stat (habout _ (vantage.disk.isBelow_self location)))
  intro metadata
  cases metadata.type with
  | directory =>
    rcases hfilter : restriction.filter with failure | filter
    · apply h.throw
      intro path hpath
      rw [Restriction.path?_of_filter_error hfilter] at hpath
      cases hpath
    · exact h.scan habout filter
  | missing | regularFile | unrecognized => exact h.withoutDirectory habout metadata

end Composes

end Vantage

end Treeprint
