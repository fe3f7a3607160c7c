import Treeprint.Proofs.Completeness
import Treeprint.Proofs.Detection
import Treeprint.Proofs.Recalling
import Treeprint.Proofs.Sightings

/-!
# Three routes to the same state

A path can be named as a member, as a tree, or as a tree with patterns, and each of these is walked
by code of its own.  The main statement is `root_shapes_agree`: **with nothing remembered all three
tell the same**.  A tree without patterns is the tree itself, a tree is what follows the directory
when it is named as a member, and what an entry of a tree tells is what its path tells when it is
named directly.

The last part goes from ways below the top to ways below an entry.  A way below a way is a way
(`Way.append`), and what it shows from the top it shows from there (`Shows.below`), so a survey that
meets no obstacle below the top meets none below an entry.
-/

namespace Treeprint

namespace Disk

variable {disk : Disk} {top way back location : List Name}

/-! ### Ways below ways -/

theorem Way.append (hway : disk.Way top way) (h : disk.Way (top ++ way) back) :
    disk.Way top (way ++ back) := by
  induction h with
  | top => rwa [List.append_nil]
  | @entry names name location inside _ hfollow hname ih =>
    rw [← List.append_assoc]
    exact .entry ih (by rwa [← List.append_assoc]) hname

theorem IsLink.above (h : disk.IsLink (top ++ way) back) : disk.IsLink top (way ++ back) := by
  obtain ⟨names, name, location, inside, target, rfl, hfollow, hfind⟩ := h
  exact ⟨way ++ names, name, location, inside, target, by rw [List.append_assoc],
    by rwa [← List.append_assoc], hfind⟩

theorem PassedOn.above (h : disk.PassedOn (top ++ way) back location) :
    disk.PassedOn top (way ++ back) location := by
  obtain ⟨front, hfront, inside, hfollow⟩ := h
  exact ⟨way ++ front, (List.prefix_append_right_inj way).2 hfront, inside,
    by rwa [← List.append_assoc]⟩

/-- A loop that is closed below a way is closed below the top. -/
theorem ClosesLoop.above (hne : back ≠ []) (h : disk.ClosesLoop (top ++ way) back) :
    disk.ClosesLoop top (way ++ back) := by
  obtain ⟨hlink, location, inside, hfollow, hpassed⟩ := h
  refine ⟨hlink.above, location, inside, by rwa [← List.append_assoc], ?_⟩
  rw [List.dropLast_append_of_ne_nil hne]
  exact hpassed.above

theorem Shows.below {sight : Sight} (hne : back ≠ []) (h : disk.Shows top (way ++ back) sight) :
    disk.Shows (top ++ way) back sight := by
  obtain ⟨⟨place, hplace, hsight⟩, hopen⟩ := h
  exact ⟨⟨place, by rwa [List.append_assoc], hsight⟩, fun hcloses => hopen (hcloses.above hne)⟩

/-- Where a survey meets no obstacle, neither does a survey below one of its ways. -/
theorem obstacle_below_way (hnone : (Survey.below disk top .all).obstacle = none)
    (hway : disk.Way top way) {reached : List Name} {inside : Forest}
    (hfollow : disk.follow [] (top ++ way) = .ok (.directory reached inside)) :
    (Survey.below disk (top ++ way) .all).obstacle = none := by
  rcases hobstacle : (Survey.below disk (top ++ way) .all).obstacle with _ | obstacle
  · rfl
  · obtain ⟨⟨hback, hne⟩, hblocks, -⟩ := (Survey.covers_below hfollow).blocked obstacle hobstacle
    have hmem := ((Survey.lists_below hnone).complete (way ++ obstacle.names)).2
      ⟨hway.append hback, by simp [hne]⟩
    obtain ⟨sighting, hsighting, hnames⟩ := List.mem_map.1 hmem
    have hshows := (Survey.shown_below hsighting).2
    rw [hnames] at hshows
    exact absurd (hshows.below hne) (hblocks.not_shows sighting.sight)

/-! ### What is at a location -/

theorem metadata_eq (disk : Disk) (h : ∀ name ∈ location, name.Plain) :
    disk.metadata location = match disk.follow [] location with
      | .ok (.directory ..) => .ok .directory
      | .ok (.leaf _ value) => .ok value.metadata
      | .ok (.vacant _) | .error .missing => .ok .missing
      | .error trouble => .error (.io (Path.render location) trouble.kind) := by
  rw [metadata, stat, resolve_render h]
  rcases disk.follow [] location with trouble | ⟨_, _⟩ | ⟨_, value⟩ | _
  · cases trouble <;> rfl
  · rfl
  · rfl
  · rfl

/-- A probe of what can be seen tells what is seen. -/
theorem probe_of_sight (h : ∀ name ∈ location, name.Plain) {place : Place} {sight : Sight}
    (hplace : disk.follow [] location = .ok place) (hsight : place.sight? = some sight) :
    disk.probe location = .ok
      ⟨Path.text location, .ofName (sight ≠ .directory) (Path.lastName location), true,
        sight.content⟩ := by
  have hmetadata := metadata_eq disk h
  rw [hplace] at hmetadata
  cases place with
  | directory reached inside =>
    cases hsight
    rw [probe, hmetadata]
    rfl
  | leaf reached value =>
    cases value with
    | file data modified =>
      cases hsight
      have hcontent : disk.content location (Leaf.metadata (.file data modified))
          = .ok (Sight.content (.file data modified)) := content_of_follow h hplace
      rw [probe, hmetadata]
      simp only [bind, Except.bind, Leaf.metadata] at hcontent ⊢
      rw [hcontent]
      rfl
    | _ => cases hsight
  | vacant reached => cases hsight

/-! ### A member and a tree at one location -/

theorem expand_member {current : List Name} {path : Bytes}
    (h : Path.absolute current path = some location) :
    disk.expand current (.members [path]) = do
      let observation ← disk.probe location
      match observation.kind with
      | .missing | .regularFile => return [.member observation]
      | .directory => return [.directory observation (← disk.scan location .all)] := by
  have hlocate : locate current path = .ok location := by rw [locate, h]
  rw [expand, expandMembers, expandMember, hlocate]
  simp only [bind, Except.bind]
  rcases disk.probe location with failure | observation
  · rfl
  · obtain ⟨key, relative, isRoot, content⟩ := observation
    cases content with
    | missing | regularFile => rfl
    | directory => rcases disk.scan location .all with failure | contents <;> rfl

theorem expand_tree {current : List Name} {path : Bytes}
    (h : Path.absolute current path = some location) :
    disk.expand current (.tree path) = do
      return [.tree (← disk.expandTree location)] := by
  have hlocate : locate current path = .ok location := by rw [locate, h]
  rw [expand, hlocate]
  rfl

theorem expand_filtered {current : List Name} {path : Bytes} (restriction : Restriction)
    (h : Path.absolute current path = some location) :
    disk.expand current (.filtered path restriction) = do
      return [.tree (← disk.expandFiltered location restriction)] := by
  have hlocate : locate current path = .ok location := by rw [locate, h]
  rw [expand, hlocate]
  rfl

/-- How the walks of a member and of a tree at a location go together, for everything that the
    location may be followed to. -/
structure RoutesAgree (disk : Disk) (location : List Name)
    (member tree : Except Failure (List Expansion)) : Prop where
  directory : ∀ {reached inside}, disk.follow [] location = .ok (.directory reached inside) →
    (∃ root contents, root.path = Path.text location ∧ root.kind = .directory ∧
      member = .ok [.directory root contents] ∧ tree = .ok [.tree contents]) ∨
    ∃ failure, member = .error failure ∧ tree = .error failure
  file : ∀ {reached data modified},
    disk.follow [] location = .ok (.leaf reached (.file data modified)) →
    ∃ observation, observation.path = Path.text location ∧ observation.isRoot = true ∧
      observation.content = (Sight.file data modified).content ∧
      member = .ok [.member observation] ∧ tree = .ok [.tree [observation.withRoot false]]
  missing : disk.follow [] location = .error .missing ∨
      (∃ reached, disk.follow [] location = .ok (.vacant reached)) →
    ∃ observation, observation.path = Path.text location ∧ observation.kind = .missing ∧
      member = .ok [.member observation] ∧ tree = .ok [.tree []]
  unrecognized : ∀ {reached value}, disk.follow [] location = .ok (.leaf reached value) →
    (∀ data modified, value ≠ .file data modified) →
    member = .error (.unrecognized (Path.render location) value.description) ∧ tree = member
  trouble : ∀ {trouble}, disk.follow [] location = .error trouble → trouble ≠ .missing →
    member = .error (.io (Path.render location) trouble.kind) ∧ tree = member

theorem routesAgree_expand {current : List Name} {path : Bytes}
    (hplain : ∀ name ∈ location, name.Plain) (h : Path.absolute current path = some location) :
    disk.RoutesAgree location (disk.expand current (.members [path]))
      (disk.expand current (.tree path)) := by
  rw [expand_member h, expand_tree h, expandTree]
  have hmetadata := metadata_eq disk hplain
  constructor
  case directory =>
    intro reached inside hfollow
    rw [hfollow] at hmetadata
    rw [probe_of_sight hplain hfollow rfl, hmetadata]
    simp only [bind, Except.bind, withoutDirectory, Metadata.directory]
    rcases disk.scan location .all with failure | contents
    · exact .inr ⟨failure, rfl, rfl⟩
    · exact .inl ⟨_, contents, rfl, rfl, rfl, rfl⟩
  case file =>
    intro reached data modified hfollow
    have hcontent : disk.content location (Leaf.metadata (.file data modified))
        = .ok (Sight.content (.file data modified)) := content_of_follow hplain hfollow
    rw [hfollow] at hmetadata
    rw [probe_of_sight hplain hfollow rfl, hmetadata]
    simp only [bind, Except.bind, withoutDirectory, Leaf.metadata] at hcontent ⊢
    rw [hcontent]
    exact ⟨_, rfl, rfl, rfl, rfl, rfl⟩
  case missing =>
    intro hfollow
    have hmissing : disk.metadata location = .ok .missing := by
      rcases hfollow with hfollow | ⟨reached, hfollow⟩ <;> rw [hmetadata, hfollow]
    rw [probe, hmissing]
    exact ⟨_, rfl, rfl, rfl, rfl⟩
  case unrecognized =>
    intro reached value hfollow hvalue
    have htype : disk.metadata location = .ok ⟨.unrecognized value.description, 0, 0⟩ := by
      rw [hmetadata, hfollow]
      cases value with
      | file data modified => exact absurd rfl (hvalue data modified)
      | _ => rfl
    rw [probe, htype]
    exact ⟨rfl, rfl⟩
  case trouble =>
    intro trouble hfollow hne
    have herror : disk.metadata location
        = .error (.io (Path.render location) trouble.kind) := by
      rw [hmetadata, hfollow]
      cases trouble with
      | missing => exact absurd rfl hne
      | _ => rfl
    rw [probe, herror]
    exact ⟨rfl, rfl⟩

end Disk

/-- No patterns leave nothing out. -/
theorem PatternSet.filter_empty : PatternSet.empty.filter = .ok .all := by
  have hkeep : (fun names isDirectory =>
      Glob.Rule.keep [] (List.intercalate [Path.slash] names) isDirectory) = Survey.Filter.all := by
    funext names isDirectory
    simp [Glob.Rule.keep, Survey.Filter.all]
  rw [← hkeep]
  rfl

theorem Restriction.filter_empty : Restriction.empty.filter = .ok .all := by
  rw [Restriction.empty, filter_coe, PatternSet.filter_empty]

namespace Disk

variable {disk : Disk} {top way location : List Name}

/-- A tree without patterns is the tree. -/
theorem expandFiltered_empty (disk : Disk) (location : List Name) :
    disk.expandFiltered location .empty = disk.expandTree location := by
  rw [expandFiltered, expandTree, Restriction.filter_empty]
  rcases disk.metadata location with failure | ⟨type, modified, length⟩
  · rfl
  · cases type <;> rfl

/-! ### What the entries of a tree tell -/

/-- An entry has the key of a way below the location and the content of what is seen there. -/
structure TellsOf (disk : Disk) (location way : List Name) (entry : Observation) : Prop where
  goes : disk.Way location way
  path : entry.path = Path.text (location ++ way)
  sight : ∃ place sight, disk.follow [] (location ++ way) = .ok place ∧
    place.sight? = some sight ∧ entry.content = sight.content

theorem obstacle_of_scan (hplain : ∀ name ∈ location, name.Plain) {filter : Survey.Filter}
    {entries : List Observation} (h : disk.scan location filter = .ok entries) :
    (Survey.below disk location filter).obstacle = none := by
  rw [scan_eq hplain] at h
  rcases hobstacle : (Survey.below disk location filter).obstacle with _ | obstacle
  · rfl
  · rw [hobstacle] at h
    cases h

theorem tellsOf_of_scan (hplain : ∀ name ∈ location, name.Plain) {filter : Survey.Filter}
    {entries : List Observation} (h : disk.scan location filter = .ok entries) :
    List.Forall₂ (disk.TellsOf location)
      ((Survey.below disk location filter).seen.map Sighting.names) entries := by
  have hnone := obstacle_of_scan hplain h
  rw [scan_eq hplain, hnone] at h
  cases h
  rw [List.forall₂_map_left_iff, List.forall₂_map_right_iff, List.forall₂_same]
  intro sighting hsighting
  obtain ⟨hway, place, hplace, hsight⟩ :=
    (Survey.truthful_below disk location filter).seen sighting hsighting
  exact ⟨hway, rfl, place, sighting.sight, hplace, hsight, rfl⟩

/-- Each entry of a tree tells of a way, with any patterns.  The tree of a directory without
    patterns lists all ways, and no obstacle is below it. -/
theorem tellsOf_of_expandFiltered (hplain : ∀ name ∈ location, name.Plain)
    {restriction : Restriction} {entries : List Observation}
    (h : disk.expandFiltered location restriction = .ok entries) :
    ∃ ways, List.Forall₂ (disk.TellsOf location) ways entries ∧
      ∀ reached inside, disk.follow [] location = .ok (.directory reached inside) →
        restriction = .empty →
        disk.Lists location ways ∧ (Survey.below disk location .all).obstacle = none := by
  rw [expandFiltered, metadata_eq disk hplain] at h
  rcases hfollow : disk.follow [] location with
    trouble | ⟨reached, inside⟩ | ⟨reached, value⟩ | reached
  · rw [hfollow] at h
    cases trouble <;> cases h
    exact ⟨[], .nil, by simp⟩
  · rw [hfollow] at h
    rcases hfilter : restriction.filter with failure | filter
    · simp [bind, Except.bind, Metadata.directory, hfilter] at h
    · simp only [bind, Except.bind, Metadata.directory, hfilter] at h
      refine ⟨_, tellsOf_of_scan hplain h, ?_⟩
      rintro _ _ - rfl
      rw [Restriction.filter_empty] at hfilter
      cases hfilter
      have hnone := obstacle_of_scan hplain h
      exact ⟨Survey.lists_below hnone, hnone⟩
  · rw [hfollow] at h
    cases value with
    | file data modified =>
      have hcontent : disk.content location (Leaf.metadata (.file data modified))
          = .ok (Sight.content (.file data modified)) := content_of_follow hplain hfollow
      simp only [bind, Except.bind, withoutDirectory, Leaf.metadata] at hcontent h
      rw [hcontent] at h
      cases h
      refine ⟨[[]], .cons ⟨.top, by rw [List.append_nil], ?_⟩ .nil,
        by simp⟩
      exact ⟨_, .file data modified, by rw [List.append_nil, hfollow], rfl, rfl⟩
    | _ => cases h
  · rw [hfollow] at h
    cases h
    exact ⟨[], .nil, by simp⟩

/-- Where there is no directory, all that can be told of is a file. -/
theorem TellsOf.kind_of_not_directory {entry : Observation} (h : disk.TellsOf location way entry)
    (hnone : ∀ reached inside, disk.follow [] location ≠ .ok (.directory reached inside)) :
    entry.kind = .regularFile := by
  obtain ⟨place, sight, hplace, hsight, hcontent⟩ := h.sight
  have hway : way = [] := by
    by_contra hne
    obtain ⟨reached, inside, hfollow⟩ := h.goes.exists_directory hne
    exact hnone reached inside hfollow
  rw [hway, List.append_nil] at hplace
  cases place with
  | directory reached inside => exact absurd hplace (hnone reached inside)
  | leaf reached value =>
    cases value with
    | file data modified =>
      cases hsight
      rw [Observation.kind, hcontent]
      rfl
    | _ => cases hsight
  | vacant reached => cases hsight

theorem TellsOf.follow_of_directory {entry : Observation} (h : disk.TellsOf location way entry)
    (hkind : entry.kind = .directory) :
    ∃ reached inside, disk.follow [] (location ++ way) = .ok (.directory reached inside) := by
  obtain ⟨place, sight, hplace, hsight, hcontent⟩ := h.sight
  rw [Observation.kind, hcontent] at hkind
  cases place with
  | directory reached inside => exact ⟨reached, inside, hplace⟩
  | leaf reached value =>
    cases value with
    | file data modified =>
      cases hsight
      cases hkind
    | _ => cases hsight
  | vacant reached => cases hsight

/-- What an entry tells is what its path tells when it is probed. -/
theorem TellsOf.probe {entry : Observation} (h : disk.TellsOf location way entry)
    (hplain : ∀ name ∈ location, name.Plain) :
    ∃ state, disk.probe (location ++ way) = .ok state ∧ state.path = entry.path ∧
      state.content = entry.content ∧ state.kind = entry.kind := by
  obtain ⟨place, sight, hplace, hsight, hcontent⟩ := h.sight
  exact ⟨_, probe_of_sight (h.goes.plain hplain) hplace hsight, h.path.symm, hcontent.symm,
    (congrArg Content.kind hcontent).symm⟩

/-! ### Walks with nothing remembered -/

/-- Each root is walked by the plain observer, and nothing is remembered when its walk begins. -/
def WalksAfresh (disk : Disk) (current : List Name)
    (walk : Root → Except Failure (List Expansion) × Ledger) : Prop :=
  ∀ root, ∃ pool asked,
    walk root = ((Vantage.plain disk current).expand root).on ⟨.empty, pool, asked⟩

variable {current : List Name} {walk : Root → Except Failure (List Expansion) × Ledger}

theorem WalksAfresh.outcome (h : disk.WalksAfresh current walk) {root : Root} {path : Bytes}
    (hpaths : root.paths = [path]) : (walk root).1 = disk.expand current root := by
  obtain ⟨pool, asked, hwalk⟩ := h root
  have hapart : TellsApart fun location => Path.absolute current path = some location := by
    intro location other hlocation hother _
    exact Option.some.inj (hlocation.symm.trans hother)
  have hspells : root.Spells current
      fun location => Path.absolute current path = some location := by
    intro other hother location hlocation
    rw [hpaths, List.mem_singleton] at hother
    rwa [← hother]
  have hagrees := Vantage.agrees_expand (Vantage.faithful_plain disk current) hapart hspells
  rw [hwalk]
  exact hagrees.outcome (fun hmay => hmay rfl) .empty

theorem ledger_of_expand_member (vantage : Vantage) (path : Bytes) (ledger : Ledger) :
    ((vantage.expand (.members [path])).on ledger).2
      = ((vantage.expandMember path).on ledger).2 := by
  rw [Vantage.expand, Vantage.expandMembers, Work.on_bind]
  rcases (vantage.expandMember path).on ledger with ⟨failure | expansion, after⟩ <;> rfl

/-- A member is remembered as soon as it has been probed, whatever becomes of its contents. -/
theorem path?_of_probe {path : Bytes} (hpath : Path.absolute current path = some location)
    {state : Observation} (hprobe : disk.probe location = .ok state) (ledger : Ledger)
    (hcache : ledger.cache = .empty) :
    (((Vantage.plain disk current).expandMember path).on ledger).2.cache.path?
      (Path.text location) = some state := by
  have hagrees := Vantage.agrees_member (Vantage.faithful_plain disk current)
    (tellsApart_eq location) rfl
  rw [Vantage.expandMember, Vantage.absolute_of_some hpath, pure_bind,
    Work.on_bind_ok (Work.on_intern _ ledger)]
  generalize hstart : { ledger with pool := (ledger.pool.intern (Path.text location)).2 } = start
  have hempty : Cache.Coherent disk (· = location) start.cache := by
    rw [← hstart, hcache]
    exact .empty
  have houtcome : (((Vantage.plain disk current).member location (Path.text location)).on start).1
      = .ok state := (hagrees.outcome (fun hmay => hmay rfl) hempty).trans hprobe
  rcases hrun : ((Vantage.plain disk current).member location (Path.text location)).on start with
    ⟨outcome, middle⟩
  rw [hrun] at houtcome
  cases houtcome
  have hkept := Vantage.path?_of_member hrun
  rw [Work.on_bind_ok hrun]
  cases state.kind with
  | missing | regularFile => exact hkept
  | directory =>
    have hcontents : Work.Adds (fun _ => False) (· = Path.text location)
        ((Vantage.plain disk current).contents location (Path.text location)) :=
      (Vantage.plain disk current).adds_contents location (Path.text location)
    have hadded := hcontents.bind
      (fun contents => Work.adds_pure (Expansion.directory state contents)) middle
    exact hadded.path?_of_some hkept

/-- A walk that remembers a state with the key and the content of an entry, and begins its answer
    with it. -/
def TellsSame (walked : Except Failure (List Expansion) × Ledger) (entry : Observation) : Prop :=
  ∃ state, state.path = entry.path ∧ state.content = entry.content ∧
    walked.2.cache.path? entry.path = some state ∧
    ∀ expansions, walked.1 = .ok expansions →
      (expansions.flatMap Expansion.entries).head? = some state

/-- What is told of a way in a tree is told again when its path is named as a member. -/
theorem TellsOf.tellsSame {entry : Observation} (h : disk.TellsOf location way entry)
    (hplain : ∀ name ∈ location, name.Plain) (hwalk : disk.WalksAfresh current walk) :
    TellsSame (walk (.members [Path.render (location ++ way)])) entry := by
  obtain ⟨state, hprobe, hpath, hcontent, -⟩ := h.probe hplain
  have habsolute := Path.absolute_render current (h.goes.plain hplain)
  refine ⟨state, hpath, hcontent, ?_, ?_⟩
  · obtain ⟨pool, asked, hrun⟩ := hwalk (.members [Path.render (location ++ way)])
    rw [hrun, h.path, ledger_of_expand_member]
    exact path?_of_probe habsolute hprobe ⟨.empty, pool, asked⟩ rfl
  · intro expansions hexpansions
    rw [hwalk.outcome rfl, expand_member habsolute, hprobe] at hexpansions
    simp only [bind, Except.bind] at hexpansions
    cases hkind : state.kind with
    | missing | regularFile =>
      rw [hkind] at hexpansions
      cases hexpansions
      rfl
    | directory =>
      rw [hkind] at hexpansions
      rcases hscan : disk.scan (location ++ way) .all with failure | contents
      · rw [hscan] at hexpansions
        cases hexpansions
      · rw [hscan] at hexpansions
        cases hexpansions
        rfl

/-- The member can be walked where nothing below it is in the way. -/
theorem TellsOf.walks {entry : Observation} (h : disk.TellsOf location way entry)
    (hplain : ∀ name ∈ location, name.Plain)
    (hopen : (Survey.below disk location .all).obstacle = none ∨ entry.kind = .regularFile) :
    ∃ expansions, disk.expand current (.members [Path.render (location ++ way)])
      = .ok expansions := by
  obtain ⟨state, hprobe, -, -, hkind⟩ := h.probe hplain
  rw [expand_member (Path.absolute_render current (h.goes.plain hplain)), hprobe]
  simp only [bind, Except.bind, hkind]
  cases hentry : entry.kind with
  | missing | regularFile => exact ⟨_, rfl⟩
  | directory =>
    obtain ⟨reached, inside, hfollow⟩ := h.follow_of_directory hentry
    have hnone := obstacle_below_way (hopen.resolve_right (by simp [hentry])) h.goes hfollow
    rw [scan_eq (h.goes.plain hplain), hnone]
    exact ⟨_, rfl⟩

/-- All entries of a tree are told again, and where there are no patterns they can be walked. -/
theorem tellsSame_of_expandFiltered {restriction : Restriction} {entries : List Observation}
    (hwalk : disk.WalksAfresh current walk) (hplain : ∀ name ∈ location, name.Plain)
    (h : disk.expandFiltered location restriction = .ok entries) :
    ∃ ways, List.Forall₂ (fun way entry => disk.TellsOf location way entry ∧
        TellsSame (walk (.members [Path.render (location ++ way)])) entry ∧
        (restriction = .empty ∨ entry.kind = .regularFile → ∃ expansions,
          (walk (.members [Path.render (location ++ way)])).1 = .ok expansions)) ways entries ∧
      (restriction = .empty → (∃ reached inside,
        disk.follow [] location = .ok (.directory reached inside)) →
        disk.Lists location ways) := by
  obtain ⟨ways, htells, hlists⟩ := tellsOf_of_expandFiltered hplain h
  refine ⟨ways, htells.imp ?_, ?_⟩
  · intro way entry htells
    refine ⟨htells, htells.tellsSame hplain hwalk, ?_⟩
    intro hopen
    rw [hwalk.outcome rfl]
    apply htells.walks hplain
    rcases hopen with hnone | hkind
    · by_cases hdirectory : ∃ reached inside,
          disk.follow [] location = .ok (.directory reached inside)
      · obtain ⟨reached, inside, hfollow⟩ := hdirectory
        exact .inl (hlists reached inside hfollow hnone).2
      · exact .inr (htells.kind_of_not_directory (by simpa using hdirectory))
    · exact .inr hkind
  · rintro hnone ⟨reached, inside, hfollow⟩
    exact (hlists reached inside hfollow hnone).1

end Disk

/-- **The shapes of a root agree when nothing is remembered.**  A tree without patterns is the tree;
    a member and a tree at one location go together whatever is there; and what an entry of a tree
    tells, with any patterns, is told again when the path of the entry is named as a member. -/
theorem root_shapes_agree {disk : Disk} {current : List Name}
    (hcurrent : ∀ name ∈ current, name.Plain)
    {walk : Root → Except Failure (List Expansion) × Ledger}
    (hwalk : disk.WalksAfresh current walk) (path : Bytes) :
    (walk (.filtered path .empty)).1 = (walk (.tree path)).1 ∧
    (Path.absolute current path = none →
      (walk (.members [path])).1 = .error (.io path .invalidInput) ∧
      (walk (.tree path)).1 = .error (.io path .invalidInput)) ∧
    ∀ location, Path.absolute current path = some location →
      disk.RoutesAgree location (walk (.members [path])).1 (walk (.tree path)).1 ∧
      ∀ root restriction entries,
        (root = .tree path ∧ restriction = .empty ∨ root = .filtered path restriction) →
        (walk root).1 = .ok [.tree entries] →
        ∃ ways, List.Forall₂ (fun way entry => disk.TellsOf location way entry ∧
            Disk.TellsSame (walk (.members [Path.render (location ++ way)])) entry ∧
            (restriction = .empty ∨ entry.kind = .regularFile → ∃ expansions,
              (walk (.members [Path.render (location ++ way)])).1 = .ok expansions))
            ways entries ∧
          (restriction = .empty → (∃ reached inside,
            disk.follow [] location = .ok (.directory reached inside)) →
            disk.Lists location ways) := by
  have hempty : (walk (.filtered path .empty)).1 = (walk (.tree path)).1 := by
    rw [hwalk.outcome rfl, hwalk.outcome rfl]
    rcases hpath : Path.absolute current path with _ | location
    · simp only [Disk.expand, Disk.locate, hpath]
      rfl
    · rw [Disk.expand_filtered .empty hpath, Disk.expand_tree hpath, Disk.expandFiltered_empty]
  refine ⟨hempty, ?_, ?_⟩
  · intro hpath
    have hlocate : Disk.locate current path = .error (.io path .invalidInput) := by
      rw [Disk.locate, hpath]
    rw [hwalk.outcome rfl, hwalk.outcome rfl, Disk.expand, Disk.expandMembers, Disk.expandMember,
      Disk.expand, hlocate]
    exact ⟨rfl, rfl⟩
  intro location hpath
  have hplain := Path.plain_absolute hcurrent hpath
  refine ⟨?_, ?_⟩
  · rw [hwalk.outcome rfl, hwalk.outcome rfl]
    exact Disk.routesAgree_expand hplain hpath
  intro root restriction entries hroot hentries
  -- the tree is the tree with no patterns
  have hfiltered : (walk (.filtered path restriction)).1 = .ok [.tree entries] := by
    rcases hroot with ⟨rfl, rfl⟩ | rfl
    · rw [hempty, hentries]
    · exact hentries
  rw [hwalk.outcome rfl, Disk.expand_filtered restriction hpath] at hfiltered
  rcases hexpanded : disk.expandFiltered location restriction with failure | found
  · rw [hexpanded] at hfiltered
    cases hfiltered
  rw [hexpanded] at hfiltered
  cases hfiltered
  exact Disk.tellsSame_of_expandFiltered hwalk hplain hexpanded

/-! ### A directory with a link and a file, named in three ways -/

def besideRoutes (root : Root) : Except Failure (List Expansion) × Ledger :=
  ((Vantage.plain besideDisk [[0x64]]).expand root).on ⟨.empty, .empty, []⟩

theorem root_shapes_agree_beside :
    (∀ name ∈ [[0x64]], Name.Plain name) ∧ besideDisk.WalksAfresh [[0x64]] besideRoutes ∧
    (besideRoutes (.tree (Utf8.encode "."))).1 = .ok [.tree besideEntries] ∧
    (besideRoutes (.filtered (Utf8.encode ".") .empty)).1 = .ok [.tree besideEntries] ∧
    (besideRoutes (.members [Utf8.encode "."])).1
      = .ok [.directory ⟨"/d", .ofName false "d", true, .directory⟩ besideEntries] ∧
    ∃ ways, List.Forall₂ (fun way entry =>
        Disk.TellsSame (besideRoutes (.members [Path.render ([[0x64]] ++ way)])) entry)
      ways besideEntries := by
  have hcurrent : ∀ name ∈ [[0x64]], Name.Plain name := by
    simp [Name.Plain, Path.here, Path.slash]
  have hwalk : besideDisk.WalksAfresh [[0x64]] besideRoutes := fun _ => ⟨.empty, [], rfl⟩
  have htree : (besideRoutes (.tree (Utf8.encode "."))).1 = .ok [.tree besideEntries] := rfl
  obtain ⟨hempty, -, hlocated⟩ := root_shapes_agree hcurrent hwalk (Utf8.encode ".")
  obtain ⟨ways, htells, -⟩ :=
    (hlocated [[0x64]] rfl).2 _ .empty besideEntries (.inl ⟨rfl, rfl⟩) htree
  exact ⟨hcurrent, hwalk, htree, hempty.trans htree, rfl, ways, htells.imp fun _ _ h => h.2.1⟩

end Treeprint
