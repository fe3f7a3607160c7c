import Mathlib.Data.List.Infix
import Treeprint.Proofs.Completeness
import Treeprint.Proofs.Patterns

/-!
# A filtered walk is a part of the unfiltered one

A filter is asked on the way: what lies below a directory that it passes over is never looked at.
When nothing is in the way of the unfiltered survey, this pruning makes no difference.  **The
filtered survey has what is left of the unfiltered one when each thing seen is judged by itself and
by the directories above it** (`Survey.below_filtered`).

Together with what a pattern set says of a single path this gives the main statement,
`filtered_walk_selects`.
-/

namespace Treeprint

/-! ### Pruning -/

namespace Survey

/-- Whether a filter lets something pass, and before it the directories above that lie deeper than
    `depth` names. -/
def Filter.admits (filter : Filter) (depth : Nat) (sighting : Sighting) : Bool :=
  sighting.names.inits.all fun front =>
    front.length ≤ depth || filter front (front ≠ sighting.names || sighting.sight = .directory)

theorem admits_iff {filter : Filter} {depth : Nat} {sighting : Sighting} :
    filter.admits depth sighting = true ↔ ∀ front, front <+: sighting.names →
      depth < front.length →
      filter front (front ≠ sighting.names || sighting.sight = .directory) = true := by
  simp only [Filter.admits, List.all_eq_true, List.mem_inits, Bool.or_eq_true, decide_eq_true_eq]
  refine forall_congr' fun front => forall_congr' fun _ => ?_
  rw [or_iff_not_imp_left, Nat.not_le]

/-- What stands directly in a directory is judged by itself. -/
theorem admits_entry (filter : Filter) (names : List Name) (name : Name) (sight : Sight) :
    filter.admits names.length ⟨names ++ [name], sight⟩
      = filter (names ++ [name]) (sight = .directory) := by
  rw [Bool.eq_iff_iff, admits_iff]
  constructor
  · intro h
    simpa using h (names ++ [name]) List.prefix_rfl (by simp)
  · intro h front hfront hlength
    rcases List.prefix_concat_iff.1 hfront with rfl | hfront
    · simpa using h
    · exact absurd hfront.length_le (by omega)

/-- What stands deeper is judged by the entry it is in, as a directory, and from there on. -/
theorem admits_below (filter : Filter) {names : List Name} {name next : Name} {sighting : Sighting}
    (h : names ++ [name] ++ [next] <+: sighting.names) :
    filter.admits names.length sighting
      = (filter (names ++ [name]) true && filter.admits (names ++ [name]).length sighting) := by
  have hprefix : names ++ [name] <+: sighting.names := (List.prefix_append _ _).trans h
  have hne : names ++ [name] ≠ sighting.names := by
    intro heq
    have hlength := h.length_le
    rw [← heq] at hlength
    simp at hlength
  rw [Bool.eq_iff_iff, Bool.and_eq_true, admits_iff, admits_iff]
  constructor
  · intro hall
    constructor
    · simpa [hne] using hall (names ++ [name]) hprefix (by simp)
    · intro front hfront hlength
      rw [List.length_append] at hlength
      exact hall front hfront (by omega)
  · rintro ⟨hself, hdeeper⟩ front hfront hlength
    by_cases hdeep : (names ++ [name]).length < front.length
    · exact hdeeper front hfront hdeep
    · have heq : front = names ++ [name] := by
        rw [List.length_append, List.length_singleton] at hdeep
        have hwithin := List.prefix_of_prefix_length_le hfront hprefix (by simp; omega)
        exact hwithin.eq_of_length (by simp; omega)
      simpa [heq, hne] using hself

/-- Of two surveys of what is in a directory, the second has what a filter leaves of the first,
    unless something is in the way of the first. -/
structure Filtered (filter : Filter) (names : List Name) (full part : Survey) : Prop where
  inside : ∀ sighting ∈ full.seen, ∃ name, names ++ [name] <+: sighting.names
  left : full.obstacle = none → part = ⟨full.seen.filter (filter.admits names.length), none⟩

namespace Filtered

variable {filter : Filter} {names : List Name}

theorem nothing : Filtered filter names nothing nothing where
  inside _ hsighting := nomatch hsighting
  left _ := rfl

theorem stop (obstacle : Obstacle) (part : Survey) :
    Filtered filter names (stop obstacle) part where
  inside _ hsighting := nomatch hsighting
  left hnone := nomatch hnone

theorem file (name : Name) (data : Bytes) (modified : Int) :
    Filtered filter names (one (names ++ [name]) (.file data modified))
      (if filter (names ++ [name]) false then .one (names ++ [name]) (.file data modified)
        else .nothing) where
  inside sighting hsighting := ⟨name, by rw [names_of_mem_one hsighting]⟩
  left _ := by
    have hself := admits_entry filter names name (.file data modified)
    rw [decide_eq_false nofun] at hself
    simp only [Survey.one, List.filter_cons, List.filter_nil, hself]
    split <;> rfl

theorem andThen {full part full' part' : Survey} (h : Filtered filter names full part)
    (h' : Filtered filter names full' part') :
    Filtered filter names (full.andThen fun _ => full') (part.andThen fun _ => part') where
  inside sighting hsighting := by
    rcases mem_seen_andThen hsighting with hsighting | hsighting
    · exact h.inside sighting hsighting
    · exact h'.inside sighting hsighting
  left hnone := by
    rcases hobstacle : full.obstacle with _ | obstacle
    · simp only [Survey.andThen, hobstacle] at hnone ⊢
      rw [h.left hobstacle, h'.left hnone, List.filter_append]
    · simp [Survey.andThen, hobstacle] at hnone

/-- A directory that does not pass is not entered. -/
theorem directory {name : Name} {full part : Survey}
    (h : Filtered filter (names ++ [name]) full part) :
    Filtered filter names ((Survey.one (names ++ [name]) .directory).andThen fun _ => full)
      (if filter (names ++ [name]) true then
        (Survey.one (names ++ [name]) .directory).andThen fun _ => part
      else .nothing) where
  inside sighting hsighting := by
    rcases mem_seen_andThen hsighting with hsighting | hsighting
    · exact ⟨name, by rw [names_of_mem_one hsighting]⟩
    · obtain ⟨next, hnext⟩ := h.inside sighting hsighting
      exact ⟨name, (List.prefix_append _ _).trans hnext⟩
  left hnone := by
    have hfull : full.obstacle = none := hnone
    have hbelow : full.seen.filter (filter.admits names.length)
        = full.seen.filter fun sighting =>
          filter (names ++ [name]) true && filter.admits (names ++ [name]).length sighting := by
      apply List.filter_congr
      intro sighting hsighting
      obtain ⟨next, hnext⟩ := h.inside sighting hsighting
      exact admits_below filter hnext
    have hself := admits_entry filter names name .directory
    simp only [decide_true] at hself
    rw [h.left hfull]
    simp only [Survey.andThen, Survey.one, List.cons_append, List.nil_append, List.filter_cons,
      hself, hbelow, hfull]
    split
    · rename_i hpasses
      simp [hpasses]
    · rename_i hpasses
      simp [hpasses, Survey.nothing]

/-- What a wider filter passes over, a narrower one does. -/
theorem narrowed {passes passes' : Bool} {full part : Survey} (hle : passes' = true → passes = true)
    (h : Filtered filter names full (if passes' then part else .nothing)) :
    Filtered filter names (if passes then full else .nothing)
      (if passes' then part else .nothing) := by
  cases passes with
  | true => exact h
  | false =>
    cases passes' with
    | true => exact absurd (hle rfl) nofun
    | false => exact .nothing

end Filtered

variable {disk : Disk} {top : List Name} {wide filter : Filter}

theorem filtered_ofLeaf {enter enter' : Entering}
    (hle : ∀ names isDirectory, filter names isDirectory = true → wide names isDirectory = true)
    (henter : ∀ passed location names inside,
      Filtered filter names (enter passed location names inside)
        (enter' passed location names inside))
    (passed : List (List Name)) (names : List Name) (name : Name) (value : Leaf) :
    Filtered filter names (ofLeaf disk top wide enter passed (names ++ [name]) value)
      (ofLeaf disk top filter enter' passed (names ++ [name]) value) := by
  cases value with
  | file data modified => exact .narrowed (hle _ _) (.file name data modified)
  | link target =>
    rcases hfollow : disk.follow [] (top ++ (names ++ [name])) with
      trouble | ⟨reached, inner⟩ | ⟨_, value⟩ | _
    · simp only [ofLeaf, hfollow]
      exact .stop _ _
    · simp only [ofLeaf, hfollow]
      split
      · exact .stop _ _
      · exact .narrowed (hle _ _) (.directory (henter _ _ _ _))
    · cases value with
      | file data modified =>
        simp only [ofLeaf, hfollow]
        exact .narrowed (hle _ _) (.file name data modified)
      | _ =>
        simp only [ofLeaf, hfollow]
        exact .narrowed (hle _ _) (.stop _ _)
    · simp only [ofLeaf, hfollow]
      exact .stop _ _
  | _ => exact .narrowed (hle _ _) (.stop _ _)

theorem filtered_ofForest {enter enter' : Entering}
    (hle : ∀ names isDirectory, filter names isDirectory = true → wide names isDirectory = true)
    (henter : ∀ passed location names inside,
      Filtered filter names (enter passed location names inside)
        (enter' passed location names inside))
    (passed : List (List Name)) (location names : List Name) (forest : Forest) :
    Filtered filter names (ofForest disk top wide enter passed location names forest)
      (ofForest disk top filter enter' passed location names forest) := by
  induction forest generalizing passed location names with
  | nil => exact .nothing
  | leaf name value rest ih =>
    exact (filtered_ofLeaf hle henter passed names name value).andThen (ih passed location names)
  | directory name inner rest ihinner ih =>
    exact (Filtered.narrowed (hle _ _) (.directory (ihinner _ _ _))).andThen
      (ih passed location names)

theorem filtered_upTo
    (hle : ∀ names isDirectory, filter names isDirectory = true → wide names isDirectory = true)
    (links : Nat) (passed : List (List Name)) (location names : List Name) (inside : Forest) :
    Filtered filter names (upTo disk top wide links passed location names inside)
      (upTo disk top filter links passed location names inside) := by
  induction links generalizing passed location names inside with
  | zero => exact .stop _ _
  | succ links ih => exact filtered_ofForest hle ih passed location names inside

/-- **Where nothing is in the way, a narrower filter leaves of what a wider one has seen whatever it
    lets pass, each thing judged by itself and by the directories above it.** -/
theorem below_narrowed
    (hle : ∀ names isDirectory, filter names isDirectory = true → wide names isDirectory = true)
    (hnone : (below disk top wide).obstacle = none) :
    below disk top filter = ⟨(below disk top wide).seen.filter (filter.admits 0), none⟩ := by
  rcases hfollow : disk.follow [] top with trouble | ⟨location, inside⟩ | ⟨location, value⟩ | _
  · simp [below, hfollow, stop] at hnone
  · simp only [below, hfollow] at hnone ⊢
    exact (filtered_upTo hle _ _ _ _ _).left hnone
  · simp only [below, hfollow]
    rfl
  · simp [below, hfollow, stop] at hnone

/-- The widest filter lets all pass, so pruning comes to judging what is seen. -/
theorem below_filtered (hnone : (below disk top .all).obstacle = none) (filter : Filter) :
    below disk top filter = ⟨(below disk top .all).seen.filter (filter.admits 0), none⟩ :=
  below_narrowed (fun _ _ _ => rfl) hnone

end Survey

/-! ### What a pattern set selects -/

namespace PatternSet

/-- Whether no exclude matches a way or a directory above it and, for a file, some include matches,
    if there are includes. -/
def selects (patterns : PatternSet) (way : List Name) (isDirectory : Bool) : Bool :=
  (way.inits.all fun front =>
    front = [] || !patterns.leavesOut front (front ≠ way || isDirectory))
    && (isDirectory || patterns.takesIn way)

/-- Of entries that stand for ways, those that a pattern set selects. -/
def select (patterns : PatternSet) (ways : List (List Name)) (entries : List Observation) :
    List Observation :=
  ((ways.zip entries).filter fun pair =>
    patterns.selects pair.1 (pair.2.kind = .directory)).map Prod.snd

theorem admits_eq_selects {patterns : PatternSet} {filter : Survey.Filter}
    (hfilter : patterns.filter = .ok filter)
    (hordinary : ∀ pattern ∈ patterns.includes ++ patterns.excludes,
      Glob.Line.Ordinary pattern.toList) {sighting : Sighting} (hne : sighting.names ≠ []) :
    Survey.Filter.admits filter 0 sighting
      = patterns.selects sighting.names (sighting.sight = .directory) := by
  have hpasses (front : List Name) (isDirectory : Bool) :
      filter front isDirectory = true ↔ patterns.leavesOut front isDirectory = false ∧
        (isDirectory = true ∨ patterns.takesIn front = true) := by
    rw [filter_eq hfilter hordinary]
    simp
  have hself : (sighting.names ≠ sighting.names || sighting.sight = .directory)
      = decide (sighting.sight = .directory) := by simp
  rw [Bool.eq_iff_iff, Survey.admits_iff, selects]
  simp only [hpasses, List.length_pos_iff, Bool.and_eq_true, Bool.or_eq_true, List.all_eq_true,
    List.mem_inits, decide_eq_true_eq, Bool.not_eq_true']
  constructor
  · intro hall
    refine ⟨?_, ?_⟩
    · intro front hfront
      exact or_iff_not_imp_left.2 fun hfrontne => (hall front hfront hfrontne).1
    · simpa using (hall _ List.prefix_rfl hne).2
  · rintro ⟨hexcludes, hincludes⟩ front hfront hfrontne
    refine ⟨(hexcludes front hfront).resolve_left hfrontne, ?_⟩
    by_cases hwhole : front = sighting.names
    · subst hwhole
      exact hincludes.imp_left .inr
    · exact .inl (.inl hwhole)

end PatternSet

/-! ### Observers that keep to their answers -/

/-- An observer whose answers do not change while it is asked. -/
structure Observer.Steady (observer : Observer) : Prop where
  stat : ∀ count count' path, observer.stat count path = observer.stat count' path
  hash : ∀ count count' path metadata,
    observer.hash count path metadata = observer.hash count' path metadata

theorem Observer.steady_ofDisk (disk : Disk) : (Observer.ofDisk disk).Steady :=
  ⟨fun _ _ _ => rfl, fun _ _ _ _ => rfl⟩

namespace Vantage

variable {vantage : Vantage} {top : List Name}

/-- What is observed of something seen, whatever was asked before. -/
inductive Tells (vantage : Vantage) (top : List Name) : Sighting → Observation → Prop
  | directory (names : List Name) : Tells vantage top ⟨names, .directory⟩
      ⟨Path.text (top ++ names), ⟨names.map Utf8.decode, false⟩, false, .directory⟩
  | file {names : List Name} {data : Bytes} {modified : Int} {hash : HashCode}
      (hhash : ∀ count, vantage.observer.hash count (Path.render (top ++ names))
        (Leaf.metadata (.file data modified)) = .ok hash) :
      Tells vantage top ⟨names, .file data modified⟩
        ⟨Path.text (top ++ names), ⟨names.map Utf8.decode, true⟩, false,
          .regularFile hash (milliseconds modified)⟩

theorem tells_of_observe (h : vantage.observer.Steady) {sighting : Sighting}
    {ledger after : Ledger} {entry : Observation}
    (hrun : (vantage.observe top sighting).on ledger = (.ok entry, after)) :
    vantage.Tells top sighting entry := by
  obtain ⟨names, sight⟩ := sighting
  cases sight with
  | directory =>
    rw [observe, Work.on_bind_ok (Work.on_intern _ _), Work.on_pure] at hrun
    cases hrun
    exact .directory names
  | file data modified =>
    obtain ⟨content, middle, hcontent, hrest⟩ := Work.on_bind_eq_ok hrun
    rw [Work.on_bind_ok (Work.on_intern _ _), Work.on_pure] at hrest
    cases hrest
    rw [on_content] at hcontent
    rcases hhash : vantage.observer.hash ledger.asked.length (Path.render (top ++ names))
      (Leaf.metadata (.file data modified)) with kind | hash
    · simp [hhash] at hcontent
    · simp only [hhash] at hcontent
      cases hcontent
      exact .file fun count => (h.hash count _ _ _).trans hhash

theorem tells_of_observeAll (h : vantage.observer.Steady) {sightings : List Sighting}
    {ledger after : Ledger} {entries : List Observation}
    (hrun : (vantage.observeAll top sightings).on ledger = (.ok entries, after)) :
    List.Forall₂ (vantage.Tells top) sightings entries := by
  induction sightings generalizing ledger entries with
  | nil =>
    cases hrun
    exact .nil
  | cons sighting rest ih =>
    obtain ⟨entry, middle, hentry, hrun⟩ := Work.on_bind_eq_ok hrun
    obtain ⟨entries', middle', hentries, hrun⟩ := Work.on_bind_eq_ok hrun
    cases hrun
    exact .cons (tells_of_observe h hentry) (ih hentries)

namespace Tells

variable {sighting : Sighting} {entry : Observation}

theorem agrees (h : vantage.Tells top sighting entry) :
    Work.Agrees (fun _ => True) False (vantage.observe top sighting) (.ok entry) := by
  cases h with
  | directory names =>
    apply Work.Agrees.after_intern
    exact Work.agrees_pure _
  | @file names data modified hash hhash =>
    have hcontent : Work.Agrees (fun _ => True) False
        (vantage.content (top ++ names) (Leaf.metadata (.file data modified)))
        (.ok (.regularFile hash (milliseconds modified))) := by
      intro ledger hledger
      rw [on_content, hhash]
      exact ⟨hledger, .inl rfl⟩
    apply hcontent.bind_ok
    apply Work.Agrees.after_intern
    exact Work.agrees_pure _

theorem kind_directory_iff (h : vantage.Tells top sighting entry) :
    entry.kind = .directory ↔ sighting.sight = .directory := by
  cases h <;> simp [Observation.kind, Content.kind]

end Tells

theorem agrees_observeAll_of_tells {sightings : List Sighting} {entries : List Observation}
    (h : List.Forall₂ (vantage.Tells top) sightings entries) :
    Work.Agrees (fun _ => True) False (vantage.observeAll top sightings) (.ok entries) := by
  induction h with
  | nil => exact Work.agrees_pure _
  | cons htells _ ih => exact htells.agrees.bind_ok (ih.bind_ok (Work.agrees_pure _))

theorem tells_of_scan (h : vantage.observer.Steady) {filter : Survey.Filter}
    {ledger after : Ledger} {entries : List Observation}
    (hscan : (vantage.scan top filter).on ledger = (.ok entries, after)) :
    (Survey.below vantage.disk top filter).obstacle = none ∧
      List.Forall₂ (vantage.Tells top) (Survey.below vantage.disk top filter).seen entries := by
  obtain ⟨entries', middle, hentries, hrest⟩ := Work.on_bind_eq_ok hscan
  rcases hobstacle : (Survey.below vantage.disk top filter).obstacle with _ | obstacle
  · rw [hobstacle] at hrest
    cases hrest
    exact ⟨rfl, tells_of_observeAll h hentries⟩
  · rw [hobstacle] at hrest
    cases hrest

theorem agrees_scan_of_tells {filter : Survey.Filter} {entries : List Observation}
    (hnone : (Survey.below vantage.disk top filter).obstacle = none)
    (h : List.Forall₂ (vantage.Tells top) (Survey.below vantage.disk top filter).seen entries) :
    Work.Agrees (fun _ => True) False (vantage.scan top filter) (.ok entries) := by
  apply (agrees_observeAll_of_tells h).bind_ok
  rw [hnone]
  exact Work.agrees_pure _

theorem agrees_expand_filtered (h : vantage.observer.Steady) {path : Bytes}
    (htop : Path.absolute vantage.current path = some top) {count : Nat} {metadata : Metadata}
    (hstat : vantage.observer.stat count (Path.render top) = .ok metadata)
    (hdirectory : metadata.type = .directory) {patterns : PatternSet} {filter : Survey.Filter}
    (hfilter : patterns.filter = .ok filter) {entries : List Observation}
    (hscan : Work.Agrees (fun _ => True) False (vantage.scan top filter) (.ok entries)) :
    Work.Agrees (fun _ => True) False (vantage.expand (.filtered path patterns))
      (.ok [.tree entries]) := by
  have hasked : Work.Agrees (fun _ => True) False (vantage.stat top) (.ok metadata) := by
    intro ledger hledger
    rw [on_stat, h.stat _ count, hstat]
    exact ⟨hledger, .inl rfl⟩
  have hexpand : Work.Agrees (fun _ => True) False (vantage.expandFiltered top patterns)
      (.ok entries) := by
    apply hasked.bind_ok
    rw [hdirectory, Restriction.filter_coe, hfilter]
    exact hscan
  have hlocation : Work.Agrees (fun _ => True) False (vantage.absolute path) (.ok top) := by
    rw [absolute, htop]
    exact Work.agrees_pure top
  exact hlocation.bind_ok (hexpand.bind_ok (Work.agrees_pure _))

/-- A directory whose patterns the engine refuses is asked about and not walked. -/
theorem expand_refused {path : Bytes} (htop : Path.absolute vantage.current path = some top)
    {ledger : Ledger} {metadata : Metadata}
    (hstat : vantage.observer.stat ledger.asked.length (Path.render top) = .ok metadata)
    (hdirectory : metadata.type = .directory) {patterns : PatternSet} {filter : Survey.Filter}
    (hfilter : patterns.filter = .ok filter) (reason : String) :
    (vantage.expand (.filtered path ⟨patterns, some reason⟩)).on ledger
      = (.error (.pattern patterns.describe reason),
        { ledger with asked := ledger.asked ++ [.stat (Path.render top)] }) := by
  have hasked : (vantage.stat top).on ledger
      = (.ok metadata, { ledger with asked := ledger.asked ++ [.stat (Path.render top)] }) := by
    rw [on_stat, hstat]
  have hexpand : (vantage.expandFiltered top ⟨patterns, some reason⟩).on ledger
      = (.error (.pattern patterns.describe reason),
        { ledger with asked := ledger.asked ++ [.stat (Path.render top)] }) := by
    rw [expandFiltered, Work.on_bind_ok hasked, hdirectory, Restriction.filter_refused hfilter]
    rfl
  have hlocation : (vantage.absolute path).on ledger = (.ok top, ledger) := by
    rw [absolute, htop, Work.on_pure]
  rw [expand, Work.on_bind_ok hlocation, Work.on_bind_error hexpand]

end Vantage

theorem forall₂_filter_zip {α β γ : Type} {R : α → β → Prop} {xs : List α} {ys : List β}
    (h : List.Forall₂ R xs ys) {f : α → γ} {p : α → Bool} {q : γ → β → Bool}
    (hpq : ∀ x ∈ xs, ∀ y, R x y → p x = q (f x) y) :
    List.Forall₂ R (xs.filter p)
      ((((xs.map f).zip ys).filter fun pair => q pair.1 pair.2).map Prod.snd) := by
  induction h with
  | nil => exact .nil
  | @cons x y xs ys hxy _ ih =>
    have hrest := ih fun x hx => hpq x (List.mem_cons_of_mem _ hx)
    have hfirst : p x = q (f x) y := hpq x List.mem_cons_self y hxy
    rw [List.map_cons, List.zip_cons_cons, List.filter_cons, List.filter_cons, hfirst]
    split
    · exact .cons hxy hrest
    · exact hrest

/-- **A filtered walk gives, of the entries of the unfiltered one, those that the patterns select.**
    The patterns may be any that are read, but none that is blank, turned around or a comment. -/
theorem filtered_walk_selects {vantage : Vantage} (hsteady : vantage.observer.Steady)
    {path : Bytes} {top : List Name} (htop : Path.absolute vantage.current path = some top)
    {count : Nat} {metadata : Metadata}
    (hstat : vantage.observer.stat count (Path.render top) = .ok metadata)
    (hdirectory : metadata.type = .directory) {ledger after : Ledger} {entries : List Observation}
    (hwalk : (vantage.scan top .all).on ledger = (.ok entries, after)) {patterns : PatternSet}
    {filter : Survey.Filter} (hfilter : patterns.filter = .ok filter)
    (hordinary : ∀ pattern ∈ patterns.includes ++ patterns.excludes,
      Glob.Line.Ordinary pattern.toList) (ledger' : Ledger) :
    ∃ ways, vantage.disk.Lists top ways ∧
      List.Forall₂ (fun way entry => entry.path = Path.text (top ++ way) ∧
        entry.relative.segments = way.map Utf8.decode) ways entries ∧
      ((vantage.expand (.filtered path patterns)).on ledger').1
        = .ok [.tree (patterns.select ways entries)] := by
  obtain ⟨hnone, htells⟩ := Vantage.tells_of_scan hsteady hwalk
  have hlists := Survey.lists_below hnone
  refine ⟨_, hlists, ?_, ?_⟩
  · rw [List.forall₂_map_left_iff]
    refine htells.imp ?_
    intro sighting entry h
    cases h <;> exact ⟨rfl, rfl⟩
  · have hpart := Survey.below_filtered hnone filter
    refine (Vantage.agrees_expand_filtered hsteady htop hstat hdirectory hfilter
      (Vantage.agrees_scan_of_tells ?_ ?_)).outcome not_false trivial
    · rw [hpart]
    · rw [hpart]
      refine forall₂_filter_zip htells (q := fun way entry =>
        patterns.selects way (entry.kind = .directory)) ?_
      intro sighting hsighting entry h
      have hne : sighting.names ≠ [] :=
        ((hlists.complete _).1 (List.mem_map_of_mem hsighting)).2
      rw [PatternSet.admits_eq_selects hfilter hordinary hne]
      exact congrArg _ (decide_eq_decide.2 h.kind_directory_iff.symm)

/-! ### A file below an excluded directory -/

/-- `/d` holds a directory `a` with a file `b` in it, and the files `b` and `c`. -/
def prunedDisk : Disk where
  root := .directory [0x64]
    (.directory [0x61] (.leaf [0x62] (.file [] 0) .nil)
      (.leaf [0x62] (.file [] 0) (.leaf [0x63] (.file [] 0) .nil))) .nil
  wellFormed := by decide

def prunedVantage : Vantage := ⟨prunedDisk, [], .ofDisk prunedDisk⟩

def prunedPatterns : PatternSet := ⟨["b"], ["a/"]⟩

def prunedWalk : Except Failure (List Observation) × Ledger :=
  (prunedVantage.scan [[0x64]] .all).on ⟨.empty, .empty, []⟩

def prunedEntries : List Observation :=
  [⟨"/d/a", ⟨["a"], false⟩, false, .directory⟩,
    ⟨"/d/a/b", ⟨["a", "b"], true⟩, false, .regularFile ⟨Sha256.digest []⟩ 0⟩,
    ⟨"/d/b", ⟨["b"], true⟩, false, .regularFile ⟨Sha256.digest []⟩ 0⟩,
    ⟨"/d/c", ⟨["c"], true⟩, false, .regularFile ⟨Sha256.digest []⟩ 0⟩]

theorem filtered_walk_selects_pruned :
    ((prunedVantage.expand (.filtered (Utf8.encode "/d") prunedPatterns)).on
        ⟨.empty, .empty, []⟩).1
      = .ok [.tree [⟨"/d/b", ⟨["b"], true⟩, false, .regularFile ⟨Sha256.digest []⟩ 0⟩]] ∧
    ∃ ways, prunedDisk.Lists [[0x64]] ways ∧
      List.Forall₂ (fun way entry => entry.path = Path.text ([[0x64]] ++ way) ∧
        entry.relative.segments = way.map Utf8.decode) ways prunedEntries ∧
      ((prunedVantage.expand (.filtered (Utf8.encode "/d") prunedPatterns)).on
          ⟨.empty, .empty, []⟩).1
        = .ok [.tree (prunedPatterns.select ways prunedEntries)] := by
  have hwalk : (prunedVantage.scan [[0x64]] .all).on ⟨.empty, .empty, []⟩
      = (.ok prunedEntries, prunedWalk.2) := rfl
  have hordinary : ∀ pattern ∈ prunedPatterns.includes ++ prunedPatterns.excludes,
      Glob.Line.Ordinary pattern.toList := by
    intro pattern hpattern
    rcases List.mem_cons.1 hpattern with rfl | hpattern
    · exact ⟨by decide, by decide, by decide⟩
    · obtain rfl := List.mem_singleton.1 hpattern
      exact ⟨by decide, by decide, by decide⟩
  have hstat : prunedVantage.observer.stat 0 (Path.render [[0x64]]) = .ok .directory := rfl
  refine ⟨rfl, ?_⟩
  exact filtered_walk_selects (Observer.steady_ofDisk prunedDisk) rfl hstat rfl hwalk rfl
    hordinary _

end Treeprint
