import Treeprint.Proofs.Looking
import Treeprint.Proofs.Sightings

/-!
# Where a failing walk stops

A walk goes through the parts of a collection in order, members one by one, and ends at the first
part that fails.  The main statement is `failing_walk_leaves_clean`: **a walk that fails leaves
behind what the parts before the failing one have left, and nothing of what comes later is looked
at**.  There is one exception.  A member is remembered as soon as it has been looked at, so a
directory whose contents cannot be scanned is remembered itself, though its listing is not.

What is looked at is told by `Work.Concerns`, with a rule for every way in which work is put
together: all that the walk of a path asks is about ways below the location that the path spells,
and so is the failure that it ends in.
-/

namespace Treeprint

/-- The path that a question is about. -/
def Question.path : Question → Bytes
  | .stat path => path
  | .hash path => path

/-- What the walk of a path may be about: what is at or below the location that the path spells, and
    the path as it was given when it spells none. -/
def Vantage.IsAbout (vantage : Vantage) (given path : Bytes) : Prop :=
  match Path.absolute vantage.current given with
  | some location => vantage.disk.IsBelow location path
  | none => path = given

namespace Work

variable {α β : Type} {about : Bytes → Prop}

/-! ### What work is about -/

/-- What the work asks is about some of these paths, and a path that it fails at is one of them. -/
structure Concerns (about : Bytes → Prop) (work : Work α) : Prop where
  asked : ∀ ledger, ∃ questions, (work.on ledger).2.asked = ledger.asked ++ questions ∧
    ∀ question ∈ questions, about question.path
  failure : ∀ ledger failure, (work.on ledger).1 = .error failure →
    ∀ path, failure.path? = some path → about path

theorem concerns_pure (a : α) : Concerns about (pure a : Work α) where
  asked ledger := ⟨[], (List.append_nil _).symm, by simp⟩
  failure _ _ herror := nomatch herror

theorem concerns_throw {failure : Failure}
    (h : ∀ path, failure.path? = some path → about path) :
    Concerns about (throw failure : Work α) where
  asked ledger := ⟨[], (List.append_nil _).symm, by simp⟩
  failure _ other herror := by
    cases herror
    exact h

theorem concerns_get : Concerns about (get : Work Ledger) where
  asked ledger := ⟨[], (List.append_nil _).symm, by simp⟩
  failure _ _ herror := nomatch herror

theorem concerns_intern (text : String) : Concerns about (intern text) where
  asked ledger := ⟨[], by rw [on_intern, List.append_nil], by simp⟩
  failure ledger failure herror := by
    rw [on_intern] at herror
    cases herror

theorem concerns_changeCache (change : Cache → Cache) : Concerns about (changeCache change) where
  asked ledger := ⟨[], (List.append_nil _).symm, by simp⟩
  failure _ _ herror := nomatch herror

theorem Concerns.mono {more : Bytes → Prop} {work : Work α} (h : Concerns about work)
    (hmore : ∀ path, about path → more path) : Concerns more work where
  asked ledger := by
    obtain ⟨questions, hasked, habout⟩ := h.asked ledger
    exact ⟨questions, hasked, fun question hquestion => hmore _ (habout question hquestion)⟩
  failure ledger failure herror path hpath :=
    hmore path (h.failure ledger failure herror path hpath)

theorem Concerns.bind {work : Work α} {next : α → Work β} (hwork : Concerns about work)
    (hnext : ∀ a, Concerns about (next a)) : Concerns about (work >>= next) where
  asked ledger := by
    apply after_bind (fun after => ∃ questions, after.asked = ledger.asked ++ questions ∧
      ∀ question ∈ questions, about question.path) (hwork.asked ledger)
    rintro a middle ⟨questions, hasked, habout⟩
    obtain ⟨others, hothers, habout'⟩ := (hnext a).asked middle
    refine ⟨questions ++ others, by rw [hothers, hasked, List.append_assoc], ?_⟩
    intro question hquestion
    exact (List.mem_append.1 hquestion).elim (habout question) (habout' question)
  failure ledger failure herror := by
    rcases hrun : work.on ledger with ⟨other | a, middle⟩
    · rw [on_bind_error hrun] at herror
      cases herror
      exact hwork.failure ledger failure (by rw [hrun])
    · rw [on_bind_ok hrun] at herror
      exact (hnext a).failure middle failure herror

end Work

/-! ### What a walk is about -/

namespace Vantage

variable {vantage : Vantage} {about : Bytes → Prop}

theorem concerns_stat {location : List Name} (h : about (Path.render location)) :
    Work.Concerns about (vantage.stat location) where
  asked ledger := by
    refine ⟨[.stat (Path.render location)], by rw [on_stat], ?_⟩
    simpa [Question.path] using h
  failure ledger failure herror path hpath := by
    rw [on_stat] at herror
    rcases hstat : vantage.observer.stat ledger.asked.length (Path.render location) with kind | _
    · simp only [hstat] at herror
      cases herror
      cases hpath
      exact h
    · simp only [hstat] at herror
      cases herror

theorem concerns_content {location : List Name} (h : about (Path.render location))
    (metadata : Metadata) : Work.Concerns about (vantage.content location metadata) where
  asked ledger := by
    refine ⟨[.hash (Path.render location)], by rw [on_content], ?_⟩
    simpa [Question.path] using h
  failure ledger failure herror path hpath := by
    rw [on_content] at herror
    rcases hhash : vantage.observer.hash ledger.asked.length (Path.render location) metadata with
      kind | _
    · simp only [hhash] at herror
      cases herror
      cases hpath
      exact h
    · simp only [hhash] at herror
      cases herror

/-- All that single looks are about is the paths that they are at. -/
theorem composes_concerns (vantage : Vantage) (about : Bytes → Prop) :
    vantage.Composes about fun _ => Work.Concerns about where
  pure := Work.concerns_pure
  throw := Work.concerns_throw
  bind := Work.Concerns.bind
  intern := Work.concerns_intern
  stat := concerns_stat
  content := concerns_content

theorem concerns_contents (vantage : Vantage) (location : List Name) (key : String) :
    Work.Concerns (vantage.disk.IsBelow location) (vantage.contents location key) := by
  apply Work.concerns_get.bind
  intro ledger
  cases ledger.cache.listing? key with
  | some listing => exact Work.concerns_pure _
  | none =>
    apply ((vantage.composes_concerns _).scan (fun _ hbelow => hbelow) .all).bind
    intro entries
    exact (Work.concerns_changeCache _).bind fun _ => Work.concerns_pure _

theorem concerns_member (vantage : Vantage) (location : List Name) (key : String) :
    Work.Concerns (vantage.disk.IsBelow location) (vantage.member location key) := by
  apply Work.concerns_get.bind
  intro ledger
  cases ledger.cache.path? key with
  | some observation => exact Work.concerns_pure _
  | none =>
    apply ((vantage.composes_concerns _).probe (vantage.disk.isBelow_self location) key).bind
    intro observation
    exact (Work.concerns_changeCache _).bind fun _ => Work.concerns_pure _

theorem concerns_expandTree (vantage : Vantage) (location : List Name) :
    Work.Concerns (vantage.disk.IsBelow location) (vantage.expandTree location) := by
  apply (Work.concerns_intern _).bind
  intro key
  apply Work.concerns_get.bind
  intro ledger
  cases ledger.cache.listing? key with
  | some listing => exact Work.concerns_pure _
  | none =>
    apply (concerns_stat (vantage.disk.isBelow_self location)).bind
    intro metadata
    cases metadata.type with
    | directory => exact vantage.concerns_contents location key
    | missing | regularFile | unrecognized =>
      exact (vantage.composes_concerns _).withoutDirectory (fun _ hbelow => hbelow) metadata

/-- What follows after a path has been made absolute is about what is below its location. -/
theorem concerns_located {β : Type} {given : Bytes} {next : List Name → Work β}
    (hnext : ∀ location, Work.Concerns (vantage.disk.IsBelow location) (next location)) :
    Work.Concerns (vantage.IsAbout given) (vantage.absolute given >>= next) := by
  apply (vantage.composes_concerns (vantage.IsAbout given)).located
  · intro hnone
    simp [IsAbout, hnone]
  · intro location hlocation
    have habout : vantage.IsAbout given = vantage.disk.IsBelow location := by
      funext path
      simp [IsAbout, hlocation]
    rw [habout]
    exact hnext location

theorem concerns_expandMember (vantage : Vantage) (given : Bytes) :
    Work.Concerns (vantage.IsAbout given) (vantage.expandMember given) := by
  apply concerns_located
  intro location
  apply (Work.concerns_intern _).bind
  intro key
  apply (vantage.concerns_member location key).bind
  intro observation
  cases observation.kind with
  | missing | regularFile => exact Work.concerns_pure _
  | directory =>
    apply (vantage.concerns_contents location key).bind
    intro contents
    exact Work.concerns_pure _

theorem concerns_expandMembers (vantage : Vantage) (paths : List Bytes) :
    Work.Concerns (fun path => ∃ given ∈ paths, vantage.IsAbout given path)
      (vantage.expandMembers paths) := by
  induction paths with
  | nil => exact Work.concerns_pure _
  | cons given paths ih =>
    apply ((vantage.concerns_expandMember given).mono fun path habout =>
      ⟨given, List.mem_cons_self, habout⟩).bind
    intro expansion
    apply (ih.mono fun path ⟨other, hother, habout⟩ =>
      ⟨other, List.mem_cons_of_mem _ hother, habout⟩).bind
    intro expansions
    exact Work.concerns_pure _

/-- **The walk of a root is about what is at or below its paths.** -/
theorem concerns_expand (vantage : Vantage) (root : Root) :
    Work.Concerns (fun path => ∃ given ∈ root.paths, vantage.IsAbout given path)
      (vantage.expand root) := by
  cases root with
  | members paths => exact vantage.concerns_expandMembers paths
  | filtered directory restriction =>
    have hlocated : Work.Concerns (vantage.IsAbout directory)
        (vantage.expand (.filtered directory restriction)) := by
      apply concerns_located
      intro location
      apply ((vantage.composes_concerns _).expandFiltered (fun _ hbelow => hbelow) restriction).bind
      intro entries
      exact Work.concerns_pure _
    exact hlocated.mono fun path habout => ⟨directory, List.mem_singleton_self _, habout⟩
  | tree directory =>
    have hlocated : Work.Concerns (vantage.IsAbout directory)
        (vantage.expand (.tree directory)) := by
      apply concerns_located
      intro location
      apply (vantage.concerns_expandTree location).bind
      intro entries
      exact Work.concerns_pure _
    exact hlocated.mono fun path habout => ⟨directory, List.mem_singleton_self _, habout⟩

end Vantage

/-! ### Where a collection is cut -/

/-- A collection is cut in front of a part, a member or a tree: what comes before, and the part. -/
inductive Root.CutAt : List Root → List Root → Root → Prop
  | member (before : List Bytes) (path : Bytes) (later : List Bytes) (roots : List Root) :
    CutAt (.members (before ++ path :: later) :: roots) [.members before] (.members [path])
  | filtered (directory : Bytes) (restriction : Restriction) (roots : List Root) :
    CutAt (.filtered directory restriction :: roots) [] (.filtered directory restriction)
  | tree (directory : Bytes) (roots : List Root) :
    CutAt (.tree directory :: roots) [] (.tree directory)
  | next (root : Root) {roots done : List Root} {part : Root} : CutAt roots done part →
    CutAt (root :: roots) (root :: done) part

namespace Vantage

variable {vantage : Vantage} {ledger after : Ledger} {failure : Failure}

theorem expand_part_error_iff {path : Bytes} :
    (vantage.expand (.members [path])).on ledger = (.error failure, after) ↔
      (vantage.expandMember path).on ledger = (.error failure, after) := by
  rw [expand, expandMembers, Work.on_bind]
  rcases (vantage.expandMember path).on ledger with ⟨other | expansion, middle⟩
  · simp
  · simp [expandMembers]

theorem expandMembers_stops {paths : List Bytes}
    (h : (vantage.expandMembers paths).on ledger = (.error failure, after)) :
    ∃ before path later expansions middle, paths = before ++ path :: later ∧
      (vantage.expandMembers before).on ledger = (.ok expansions, middle) ∧
      (vantage.expandMember path).on middle = (.error failure, after) := by
  induction paths generalizing ledger with
  | nil => cases h
  | cons path paths ih =>
    rw [expandMembers] at h
    rcases hrun : (vantage.expandMember path).on ledger with ⟨other | expansion, next⟩
    · rw [Work.on_bind_error hrun] at h
      cases h
      exact ⟨[], path, paths, [], ledger, rfl, rfl, hrun⟩
    · rw [Work.on_bind_ok hrun] at h
      rcases hrest : (vantage.expandMembers paths).on next with ⟨other | expansions, last⟩
      · rw [Work.on_bind_error hrest] at h
        cases h
        obtain ⟨before, path', later, expansions, middle, rfl, hbefore, hpath⟩ := ih hrest
        refine ⟨path :: before, path', later, expansion :: expansions, middle, rfl, ?_, hpath⟩
        rw [expandMembers, Work.on_bind_ok hrun, Work.on_bind_ok hbefore, Work.on_pure]
      · rw [Work.on_bind_ok hrest] at h
        cases h

theorem expandMembers_append_error {before later : List Bytes} {path : Bytes}
    {expansions : List Expansion} {middle : Ledger}
    (hbefore : (vantage.expandMembers before).on ledger = (.ok expansions, middle))
    (hpath : (vantage.expandMember path).on middle = (.error failure, after)) :
    (vantage.expandMembers (before ++ path :: later)).on ledger = (.error failure, after) := by
  induction before generalizing ledger expansions with
  | nil =>
    cases hbefore
    rw [List.nil_append, expandMembers, Work.on_bind_error hpath]
  | cons other before ih =>
    obtain ⟨expansion, next, hother, hrest⟩ := Work.on_bind_eq_ok hbefore
    obtain ⟨others, last, hothers, hpure⟩ := Work.on_bind_eq_ok hrest
    cases hpure
    rw [List.cons_append, expandMembers, Work.on_bind_ok hother, Work.on_bind_error (ih hothers)]

/-- **A walk that fails has come through all that is before one part, and fails at that part.** -/
theorem gather_stops {recipe : Recipe} {roots : List Root}
    (h : (vantage.gather recipe roots).on ledger = (.error failure, after)) :
    ∃ done part entries middle, Root.CutAt roots done part ∧
      (vantage.gather recipe done).on ledger = (.ok entries, middle) ∧
      (vantage.expand part).on middle = (.error failure, after) := by
  induction roots generalizing ledger with
  | nil => cases h
  | cons root roots ih =>
    rw [gather] at h
    rcases hrun : (vantage.expand root).on ledger with ⟨other | expansions, next⟩
    · rw [Work.on_bind_error hrun] at h
      cases h
      cases root with
      | members paths =>
        obtain ⟨before, path, later, expansions, middle, rfl, hbefore, hpath⟩ :=
          expandMembers_stops hrun
        have hdone : (vantage.gather recipe [.members before]).on ledger
            = (.ok (expansions.flatMap recipe.reshape ++ []), middle) := by
          rw [gather, expand, Work.on_bind_ok hbefore]
          rfl
        exact ⟨_, _, _, middle, .member before path later roots, hdone,
          expand_part_error_iff.2 hpath⟩
      | filtered directory restriction =>
        exact ⟨[], _, [], ledger, .filtered directory restriction roots, rfl, hrun⟩
      | tree directory => exact ⟨[], _, [], ledger, .tree directory roots, rfl, hrun⟩
    · rw [Work.on_bind_ok hrun] at h
      rcases hrest : (vantage.gather recipe roots).on next with ⟨other | entries, last⟩
      · rw [Work.on_bind_error hrest] at h
        cases h
        obtain ⟨done, part, entries, middle, hcut, hdone, hpart⟩ := ih hrest
        refine ⟨root :: done, part, expansions.flatMap recipe.reshape ++ entries, middle,
          .next root hcut, ?_, hpart⟩
        rw [gather, Work.on_bind_ok hrun, Work.on_bind_ok hdone, Work.on_pure]
      · rw [Work.on_bind_ok hrest] at h
        cases h

/-- What comes behind a part that fails has no part in how the walk ends. -/
theorem gather_of_cutAt {recipe : Recipe} {roots done : List Root} {part : Root}
    {entries : List Observation} {middle : Ledger} (hcut : Root.CutAt roots done part)
    (hdone : (vantage.gather recipe done).on ledger = (.ok entries, middle))
    (hpart : (vantage.expand part).on middle = (.error failure, after)) :
    (vantage.gather recipe roots).on ledger = (.error failure, after) := by
  induction hcut generalizing ledger entries with
  | member before path later roots =>
    obtain ⟨expansions, next, hbefore, hrest⟩ := Work.on_bind_eq_ok hdone
    cases hrest
    have hmembers : (vantage.expand (.members (before ++ path :: later))).on ledger
        = (.error failure, after) :=
      expandMembers_append_error hbefore (expand_part_error_iff.1 hpart)
    rw [gather, Work.on_bind_error hmembers]
  | filtered | tree =>
    cases hdone
    rw [gather, Work.on_bind_error hpart]
  | next root hcut ih =>
    obtain ⟨expansions, next, hroot, hrest⟩ := Work.on_bind_eq_ok hdone
    obtain ⟨others, last, hothers, hpure⟩ := Work.on_bind_eq_ok hrest
    cases hpure
    rw [gather, Work.on_bind_ok hroot, Work.on_bind_error (ih hothers hpart)]

/-! ### What a part that fails leaves in the cache -/

/-- What a member that fails leaves behind when nothing was remembered of it: its own observation,
    and that only where it is a directory whose contents could not be scanned. -/
def LeavesItself (vantage : Vantage) (part : Root) (failure : Failure) (before after : Ledger) :
    Prop :=
  ∃ given location observation, part = .members [given] ∧
    Path.absolute vantage.current given = some location ∧
    before.cache.path? (Path.text location) = none ∧
    before.cache.listing? (Path.text location) = none ∧
    ((vantage.probe location (Path.text location)).on before).1 = .ok observation ∧
    observation.path = Path.text location ∧ observation.kind = .directory ∧
    ((vantage.scan location .all).on
      ((vantage.probe location (Path.text location)).on before).2).1 = .error failure ∧
    after.cache = before.cache.putPath observation

theorem on_contents_error {location : List Name} {key : String}
    (h : (vantage.contents location key).on ledger = (.error failure, after)) :
    after.cache = ledger.cache ∧ ledger.cache.listing? key = none ∧
      ((vantage.scan location .all).on ledger).1 = .error failure := by
  rcases hkey : ledger.cache.listing? key with _ | listing
  · have hcache := (vantage.looks_scan location .all).cache ledger
    rw [on_contents_of_none hkey] at h
    rcases hrun : (vantage.scan location .all).on ledger with ⟨other | entries, last⟩
    · rw [hrun] at h hcache
      cases h
      exact ⟨hcache, rfl, rfl⟩
    · rw [hrun] at h
      cases h
  · rw [on_contents_of_some hkey] at h
    cases h

theorem cache_of_member_error {location : List Name} {key : String}
    (h : (vantage.member location key).on ledger = (.error failure, after)) :
    after.cache = ledger.cache := by
  rcases hkey : ledger.cache.path? key with _ | observation
  · have hcache := (vantage.looks_probe location key).cache ledger
    rw [on_member_of_none hkey] at h
    rcases hrun : (vantage.probe location key).on ledger with ⟨other | observation, last⟩
    · rw [hrun] at h hcache
      cases h
      exact hcache
    · rw [hrun] at h
      cases h
  · rw [on_member_of_some hkey] at h
    cases h

/-- A member is remembered already, or it is probed and remembered then. -/
theorem on_member_ok {location : List Name} {key : String} {observation : Observation}
    (h : (vantage.member location key).on ledger = (.ok observation, after)) :
    after = ledger ∨ ledger.cache.path? key = none ∧
      ∃ probed, (vantage.probe location key).on ledger = (.ok observation, probed) ∧
        after = { probed with cache := ledger.cache.putPath observation } := by
  rcases hkey : ledger.cache.path? key with _ | remembered
  · have hcache := (vantage.looks_probe location key).cache ledger
    rw [on_member_of_none hkey] at h
    rcases hrun : (vantage.probe location key).on ledger with ⟨other | found, probed⟩
    · rw [hrun] at h
      cases h
    · rw [hrun] at h hcache
      cases h
      exact .inr ⟨rfl, probed, rfl, by rw [hcache]⟩
  · rw [on_member_of_some hkey] at h
    cases h
    exact .inl rfl

/-- A member fails for its path, as it is looked up, or for its contents if it is a directory. -/
theorem on_expandMember_error {given : Bytes}
    (h : (vantage.expandMember given).on ledger = (.error failure, after)) :
    after = ledger ∨ ∃ location pool, Path.absolute vantage.current given = some location ∧
      ((vantage.member location (Path.text location)).on { ledger with pool }
          = (.error failure, after) ∨
        ∃ observation middle, (vantage.member location (Path.text location)).on { ledger with pool }
            = (.ok observation, middle) ∧ observation.kind = .directory ∧
          (vantage.contents location (Path.text location)).on middle
            = (.error failure, after)) := by
  unfold expandMember at h
  rcases hlocation : Path.absolute vantage.current given with _ | location
  · rw [absolute_of_none hlocation] at h
    cases h
    exact .inl rfl
  rw [absolute_of_some hlocation, pure_bind, Work.on_bind_ok (Work.on_intern _ _)] at h
  refine .inr ⟨location, (ledger.pool.intern (Path.text location)).2, rfl, ?_⟩
  rcases hmember : (vantage.member location (Path.text location)).on
      { ledger with pool := (ledger.pool.intern (Path.text location)).2 } with
    ⟨other | observation, middle⟩
  · rw [Work.on_bind_error hmember] at h
    cases h
    exact .inl rfl
  rw [Work.on_bind_ok hmember] at h
  cases hkind : observation.kind with
  | missing | regularFile =>
    simp only [hkind] at h
    cases h
  | directory =>
    simp only [hkind] at h
    rcases hcontents : (vantage.contents location (Path.text location)).on middle with
      ⟨other | contents, last⟩
    · rw [Work.on_bind_error hcontents] at h
      cases h
      exact .inr ⟨observation, middle, rfl, hkind, hcontents⟩
    · rw [Work.on_bind_ok hcontents] at h
      cases h

theorem cache_of_expandMember_error {given : Bytes}
    (h : (vantage.expandMember given).on ledger = (.error failure, after)) :
    after.cache = ledger.cache ∨
      vantage.LeavesItself (.members [given]) failure ledger after := by
  obtain rfl | ⟨location, pool, hlocation,
    hmember | ⟨observation, middle, hmember, hkind, hfails⟩⟩ := on_expandMember_error h
  · exact .inl rfl
  · have hcache := cache_of_member_error hmember
    exact .inl hcache
  obtain ⟨hcache, hnone, hscan⟩ := on_contents_error hfails
  rcases on_member_ok hmember with rfl | ⟨hkey, probed, hprobe, rfl⟩
  · exact .inl hcache
  -- the pool does not matter for what is found
  obtain ⟨hfound, hlevel⟩ := (vantage.looks_probe location (Path.text location)).same ledger
    { ledger with pool } rfl
  rw [hprobe] at hfound hlevel
  have hsame := (vantage.looks_scan location .all).same
    ((vantage.probe location (Path.text location)).on ledger).2
    { probed with cache := ledger.cache.putPath observation } hlevel
  refine .inr ⟨given, location, observation, rfl, hlocation, hkey, ?_, hfound.symm,
    path_of_probe hprobe, hkind, hsame.1.symm.trans hscan, hcache⟩
  rw [← Cache.listing?_putPath]
  exact hnone

theorem cache_of_expandTree_error {location : List Name}
    (h : (vantage.expandTree location).on ledger = (.error failure, after)) :
    after.cache = ledger.cache := by
  rw [expandTree, Work.on_bind_ok (Work.on_intern _ _), Work.on_bind_ok (Work.on_get _)] at h
  rcases hkey : ledger.cache.listing? (Path.text location) with _ | listing
  · simp only [hkey] at h
    have hstat := (vantage.looks_stat location).cache
      { ledger with pool := (ledger.pool.intern (Path.text location)).2 }
    rcases hrun : (vantage.stat location).on
        { ledger with pool := (ledger.pool.intern (Path.text location)).2 } with
      ⟨other | metadata, middle⟩
    · rw [hrun] at hstat
      rw [Work.on_bind_error hrun] at h
      cases h
      exact hstat
    · rw [hrun] at hstat
      rw [Work.on_bind_ok hrun] at h
      cases htype : metadata.type with
      | directory =>
        simp only [htype] at h
        exact (on_contents_error h).1.trans hstat
      | missing | regularFile | unrecognized =>
        simp only [htype] at h
        have hcache := (vantage.looks_withoutDirectory location metadata).cache middle
        rw [h] at hcache
        exact hcache.trans hstat
  · simp only [hkey] at h
    cases h

/-- **A part that fails leaves the cache as it was**, but for a member that is a directory. -/
theorem cache_of_part_error {roots done : List Root} {part : Root}
    (hcut : Root.CutAt roots done part)
    (h : (vantage.expand part).on ledger = (.error failure, after)) :
    after.cache = ledger.cache ∨ vantage.LeavesItself part failure ledger after := by
  induction hcut with
  | member before path later roots => exact cache_of_expandMember_error (expand_part_error_iff.1 h)
  | filtered directory restriction roots =>
    have hcache := (vantage.looks_expand_filtered directory restriction).cache ledger
    rw [h] at hcache
    exact .inl hcache
  | tree directory roots =>
    rw [expand] at h
    rcases hlocation : Path.absolute vantage.current directory with _ | location
    · rw [absolute_of_none hlocation] at h
      cases h
      exact .inl rfl
    · rw [absolute_of_some hlocation, pure_bind] at h
      rcases hrun : (vantage.expandTree location).on ledger with ⟨other | entries, middle⟩
      · rw [Work.on_bind_error hrun] at h
        cases h
        exact .inl (cache_of_expandTree_error hrun)
      · rw [Work.on_bind_ok hrun] at h
        cases h
  | next root hcut ih => exact ih h

theorem listing?_of_part_error {roots done : List Root} {part : Root}
    (hcut : Root.CutAt roots done part)
    (h : (vantage.expand part).on ledger = (.error failure, after)) (key : String) :
    after.cache.listing? key = ledger.cache.listing? key := by
  rcases cache_of_part_error hcut h with hsame | ⟨_, _, observation, -, -, -, -, -, -, -, -, hput⟩
  · rw [hsame]
  · rw [hput, Cache.listing?_putPath]

end Vantage

/-- **A walk that fails leaves behind what the parts before the failing one have left**, and besides
    at most the failing member itself, when it is a directory whose contents could not be scanned.
    No listing is added, all that is asked of the failing part is about what is at or below its
    path, and what comes behind it is not looked at. -/
theorem failing_walk_leaves_clean (vantage : Vantage) (recipe : Recipe) (roots : List Root)
    (compareStrategy : CompareStrategy) (strategy : Strategy) {ledger after : Ledger}
    {failure : Failure}
    (hfails : (vantage.gather recipe roots).on ledger = (.error failure, after)) :
    (vantage.snapshot recipe roots compareStrategy strategy).on ledger = (.error failure, after) ∧
    ∃ done part entries middle, Root.CutAt roots done part ∧
      (vantage.gather recipe done).on ledger = (.ok entries, middle) ∧
      (vantage.expand part).on middle = (.error failure, after) ∧
      (after.cache = middle.cache ∨ vantage.LeavesItself part failure middle after) ∧
      (∀ key, after.cache.listing? key = middle.cache.listing? key) ∧
      (∃ questions, after.asked = middle.asked ++ questions ∧
        ∀ question ∈ questions, ∃ given ∈ part.paths, vantage.IsAbout given question.path) ∧
      ∀ others, Root.CutAt others done part →
        (vantage.gather recipe others).on ledger = (.error failure, after) := by
  obtain ⟨done, part, entries, middle, hcut, hdone, hpart⟩ := Vantage.gather_stops hfails
  have hasked := (vantage.concerns_expand part).asked middle
  rw [hpart] at hasked
  exact ⟨vantage.on_snapshot_of_gather_error recipe roots compareStrategy strategy hfails,
    done, part, entries, middle, hcut, hdone, hpart, Vantage.cache_of_part_error hcut hpart,
    Vantage.listing?_of_part_error hcut hpart, hasked,
    fun _ hothers => Vantage.gather_of_cutAt hothers hdone hpart⟩

/-! ### A member that cannot be scanned -/

/-- A directory `d` with a fifo `p` in it, and an empty directory `e`. -/
def blockedDisk : Disk where
  root := .directory [0x64] (.leaf [0x70] .fifo .nil) (.directory [0x65] .nil .nil)
  wellFormed := by decide

def blockedVantage : Vantage := ⟨blockedDisk, [], .ofDisk blockedDisk⟩

def blockedRoots : List Root :=
  [.members [Utf8.encode "/e", Utf8.encode "/d", Utf8.encode "/f"], .tree (Utf8.encode "/e")]

def blockedWalk : Except Failure (List Observation) × Ledger :=
  (blockedVantage.gather .identity blockedRoots).on ⟨.empty, .empty, []⟩

theorem failing_walk_leaves_clean_blocked :
    blockedWalk.1 = .error (.unrecognized (Utf8.encode "/d/p") "fifo") ∧
    (blockedVantage.snapshot .identity blockedRoots .ordered .absolute).on ⟨.empty, .empty, []⟩
      = (.error (.unrecognized (Utf8.encode "/d/p") "fifo"), blockedWalk.2) ∧
    (∃ done part entries middle, Root.CutAt blockedRoots done part ∧
      (blockedVantage.gather .identity done).on ⟨.empty, .empty, []⟩ = (.ok entries, middle) ∧
      ∀ key, blockedWalk.2.cache.listing? key = middle.cache.listing? key) ∧
    blockedWalk.2.cache.path? "/d" = some ⟨"/d", .ofName false "d", true, .directory⟩ ∧
    blockedWalk.2.cache.listing? "/d" = none ∧
    blockedWalk.2.cache.listing? "/e" = some ⟨"/e", []⟩ ∧
    blockedWalk.2.asked = [.stat (Utf8.encode "/e"), .stat (Utf8.encode "/d")] := by
  have houtcome : blockedWalk.1 = .error (.unrecognized (Utf8.encode "/d/p") "fifo") := rfl
  have hfails : (blockedVantage.gather .identity blockedRoots).on ⟨.empty, .empty, []⟩
      = (.error (.unrecognized (Utf8.encode "/d/p") "fifo"), blockedWalk.2) :=
    Prod.ext houtcome rfl
  obtain ⟨hsnapshot, done, part, entries, middle, hcut, hdone, -, -, hlistings, -⟩ :=
    failing_walk_leaves_clean blockedVantage .identity blockedRoots .ordered .absolute hfails
  exact ⟨houtcome, hsnapshot, ⟨done, part, entries, middle, hcut, hdone, hlistings⟩, rfl, rfl, rfl,
    rfl⟩

end Treeprint
