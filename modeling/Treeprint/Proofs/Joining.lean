import Treeprint.Disk.Edit
import Treeprint.Proofs.Folding
import Treeprint.Proofs.Transparency

/-!
# Collections that are joined

One collection after another is a collection.  The main statement is `snapshot_append`: **its
snapshot is the snapshot of the first, and behind it what the snapshot of the second has under keys
that the first has not**.  So for disjoint keys the sizes add up, and a collection that is repeated
gives what it gives once.  The locations that both collections name have to be told apart by their
texts; where they are not, entries can be lost (`snapshot_append_loses_lookalike`).

Over a disk that stays as it is nothing of the walk of the first collection can be seen in the walk
of the second, since a shared cache cannot be seen.  What is left is the fold.  It goes on with the
paths that the first collection has taken (`Strategy.choose_append`), and paths that are taken
beforehand are left out, while for all others nothing changes (`Strategy.choose_of_more`): an entry
is consulted or not for its own path alone.
-/

namespace Treeprint

theorem Disk.gather_append (disk : Disk) (current : List Name) (recipe : Recipe)
    (roots others : List Root) :
    disk.gather current recipe (roots ++ others) = do
      let entries ← disk.gather current recipe roots
      let rest ← disk.gather current recipe others
      return entries ++ rest := by
  induction roots with
  | nil =>
    rw [List.nil_append]
    rcases disk.gather current recipe others with failure | rest <;> rfl
  | cons root roots ih =>
    rw [List.cons_append, gather, gather, ih]
    rcases disk.expand current root with failure | expansions
    · rfl
    rcases disk.gather current recipe roots with failure | entries
    · rfl
    rcases disk.gather current recipe others with failure | rest
    · rfl
    · simp [bind, Except.bind, pure, Except.pure]

namespace Strategy

variable {strategy : Strategy} {taken : List String}

/-- Of the paths that are taken only membership matters. -/
theorem choose_congr {others : List String} (h : ∀ path, path ∈ taken ↔ path ∈ others)
    (entries : List Observation) :
    strategy.choose taken entries = strategy.choose others entries := by
  induction entries generalizing taken others with
  | nil => rfl
  | cons entry rest ih =>
    have hentry : ∀ path, path ∈ entry.path :: taken ↔ path ∈ entry.path :: others := by
      intro path
      rw [List.mem_cons, List.mem_cons, h]
    unfold choose
    rw [ih h, ih hentry]
    simp only [h entry.path]

/-- After some entries the fold goes on with the paths that these have taken. -/
theorem choose_append {front : List Observation} {chosen : List (String × Fingerprint)}
    (h : strategy.choose taken front = .ok chosen) (back : List Observation) :
    strategy.choose taken (front ++ back)
      = (strategy.choose (chosen.map Prod.fst ++ taken) back).map (chosen ++ ·) := by
  induction front generalizing taken chosen with
  | nil =>
    cases h
    simp only [List.nil_append, List.map_nil]
    rcases strategy.choose taken back with failure | others <;> rfl
  | cons entry rest ih =>
    rw [List.cons_append, choose]
    rw [choose] at h
    by_cases htaken : entry.path ∈ taken
    · rw [if_pos htaken] at h ⊢
      exact ih h
    · rw [if_neg htaken] at h ⊢
      rcases hjudge : strategy.judge entry with failure | _ | fingerprint
      · rw [hjudge] at h
        cases h
      · rw [hjudge] at h
        exact ih h
      · rw [hjudge] at h
        rcases hrest : strategy.choose (entry.path :: taken) rest with failure | others
        · rw [hrest] at h
          cases h
        · rw [hrest] at h
          cases h
          have hpaths : ∀ path, path ∈ others.map Prod.fst ++ entry.path :: taken ↔
              path ∈ ((entry.path, fingerprint) :: others).map Prod.fst ++ taken := by
            intro path
            simp only [List.map_cons, List.cons_append, List.mem_append, List.mem_cons]
            exact or_left_comm
          simp only [ih hrest, choose_congr hpaths]
          rcases strategy.choose (((entry.path, fingerprint) :: others).map Prod.fst ++ taken) back
            with failure | later <;> rfl

/-- Paths that are taken beforehand are left out, and for all others nothing changes. -/
theorem choose_of_more {entries : List Observation} {chosen : List (String × Fingerprint)}
    (h : strategy.choose taken entries = .ok chosen) (more : List String) :
    strategy.choose (more ++ taken) entries
      = .ok (chosen.filter fun entry => entry.1 ∉ more) := by
  induction entries generalizing taken chosen with
  | nil =>
    cases h
    rfl
  | cons entry rest ih =>
    rw [choose] at h ⊢
    by_cases htaken : entry.path ∈ taken
    · rw [if_pos htaken] at h
      rw [if_pos (List.mem_append_right more htaken)]
      exact ih h
    rw [if_neg htaken] at h
    rcases hjudge : strategy.judge entry with failure | _ | fingerprint
    · rw [hjudge] at h
      cases h
    · rw [hjudge] at h
      rw [ih h]
      split <;> rfl
    · rw [hjudge] at h
      rcases hrest : strategy.choose (entry.path :: taken) rest with failure | others
      · rw [hrest] at h
        cases h
      · rw [hrest] at h
        cases h
        have hothers := ih hrest
        by_cases hmore : entry.path ∈ more
        · -- the entry is passed over, and its path is taken either way
          have hpaths : ∀ path, path ∈ more ++ taken ↔ path ∈ more ++ entry.path :: taken := by
            intro path
            rw [List.mem_append, List.mem_append, List.mem_cons]
            constructor
            · exact Or.imp_right .inr
            · rintro (hpath | rfl | hpath)
              · exact .inl hpath
              · exact .inl hmore
              · exact .inr hpath
          rw [if_pos (List.mem_append_left taken hmore), choose_congr hpaths, hothers]
          simp [hmore]
        · have hpaths : ∀ path, path ∈ entry.path :: (more ++ taken) ↔
              path ∈ more ++ entry.path :: taken := by
            intro path
            simp only [List.mem_append, List.mem_cons]
            exact or_left_comm
          rw [if_neg (by simp [htaken, hmore]), choose_congr hpaths, hothers]
          simp [hmore, bind, Except.bind, pure, Except.pure]

end Strategy

/-! ### Snapshots -/

namespace Disk

variable {disk : Disk} {current : List Name} {recipe : Recipe} {roots others : List Root}
  {compareStrategy : CompareStrategy} {strategy : Strategy}

/-- **Joined collections add up, and the first one wins.** -/
theorem snapshot_join {first second : Snapshot}
    (hfirst : disk.snapshot current recipe roots compareStrategy strategy = .ok first)
    (hsecond : disk.snapshot current recipe others compareStrategy strategy = .ok second) :
    disk.snapshot current recipe (roots ++ others) compareStrategy strategy
      = .ok (.ofAccepted
          (first.entries ++ second.entries.filter fun entry => entry.1 ∉ first.paths)
          compareStrategy strategy.isAbsolute) := by
  obtain ⟨entries, chosen, hgather, hchoose, rfl⟩ := snapshot_eq_ok hfirst
  obtain ⟨entries', chosen', hgather', hchoose', rfl⟩ := snapshot_eq_ok hsecond
  have hmore := Strategy.choose_of_more hchoose' (chosen.map Prod.fst)
  have hfold : strategy.choose [] (entries ++ entries')
      = .ok (chosen ++ chosen'.filter fun entry => entry.1 ∉ chosen.map Prod.fst) := by
    rw [Strategy.choose_append hchoose, hmore]
    rfl
  unfold Disk.snapshot
  rw [gather_append, hgather, hgather']
  simp only [bind, Except.bind, pure, Except.pure, hfold, Snapshot.paths,
    Snapshot.entries_ofAccepted]

end Disk

/-- A snapshot that is joined with itself has nothing new. -/
theorem Snapshot.filter_paths (snapshot : Snapshot) :
    (snapshot.entries.filter fun entry => entry.1 ∉ snapshot.paths) = [] := by
  rw [List.filter_eq_nil_iff]
  intro entry hentry
  have hpath : entry.1 ∈ snapshot.paths := List.mem_map_of_mem hentry
  simp [hpath]

/-- **Joined collections add up, and the first one wins.**  Where two collections have a snapshot,
    the joined collection has one: that of the first, and behind it what that of the second has
    under other keys.  Disjoint sizes add up, and repeating a collection changes nothing.  The
    locations that are named are told apart by their texts. -/
theorem snapshot_append {disk : Disk} {current : List Name} {spelled : List Name → Prop}
    (htexts : TellsApart spelled) {recipe : Recipe} {roots others : List Root}
    (hroots : ∀ root ∈ roots, root.Spells current spelled)
    (hothers : ∀ root ∈ others, root.Spells current spelled)
    {compareStrategy : CompareStrategy} {strategy : Strategy} {first second : Snapshot}
    {pool poolOfOthers : TextPool} {asked askedOfOthers : List Question}
    (hfirst : (((Vantage.plain disk current).snapshot recipe roots compareStrategy strategy).on
      ⟨.empty, pool, asked⟩).1 = .ok first)
    (hsecond : (((Vantage.plain disk current).snapshot recipe others compareStrategy strategy).on
      ⟨.empty, poolOfOthers, askedOfOthers⟩).1 = .ok second)
    (poolOfBoth : TextPool) (askedOfBoth : List Question) :
    (∃ both, (((Vantage.plain disk current).snapshot recipe (roots ++ others) compareStrategy
          strategy).on ⟨.empty, poolOfBoth, askedOfBoth⟩).1 = .ok both ∧
      both.entries = first.entries ++ second.entries.filter (fun entry => entry.1 ∉ first.paths) ∧
      ((∀ path ∈ second.paths, path ∉ first.paths) → both.size = first.size + second.size)) ∧
    (((Vantage.plain disk current).snapshot recipe (roots ++ roots) compareStrategy strategy).on
      ⟨.empty, poolOfBoth, askedOfBoth⟩).1 = .ok first := by
  have hempty : Cache.empty.Coherent disk spelled := .empty
  have hboth : ∀ root ∈ roots ++ others, root.Spells current spelled :=
    List.forall_mem_append.2 ⟨hroots, hothers⟩
  have htwice : ∀ root ∈ roots ++ roots, root.Spells current spelled :=
    List.forall_mem_append.2 ⟨hroots, hroots⟩
  rw [hempty.snapshot htexts recipe hroots] at hfirst
  rw [hempty.snapshot htexts recipe hothers] at hsecond
  rw [hempty.snapshot htexts recipe hboth, hempty.snapshot htexts recipe htwice,
    Disk.snapshot_join hfirst hsecond, Disk.snapshot_join hfirst hfirst]
  constructor
  · refine ⟨_, rfl, Snapshot.entries_ofAccepted _ _ _, ?_⟩
    intro hdisjoint
    have hall : (second.entries.filter fun entry => entry.1 ∉ first.paths) = second.entries := by
      rw [List.filter_eq_self]
      intro entry hentry
      simpa using hdisjoint entry.1 (List.mem_map_of_mem hentry)
    rw [Snapshot.size, Snapshot.entries_ofAccepted, hall, List.length_append]
    rfl
  · obtain ⟨entries, chosen, -, -, rfl⟩ := Disk.snapshot_eq_ok hfirst
    rw [Snapshot.filter_paths, List.append_nil, Snapshot.entries_ofAccepted]

/-! ### Two directories that are shown alike -/

/-- What a collection gives inside the directory `FE`, with nothing remembered. -/
def lookalikeJoined (roots : List Root) : Except Failure Snapshot :=
  ((lookalikeInside.snapshot .identity roots .ordered .absolute).on ⟨.empty, .empty, []⟩).1

/-- The `x` in the current directory, which is empty. -/
def lookalikeMember : Root := .members [Utf8.encode "x"]

/-- What is below the other `x`. -/
def lookalikeTree : Root := .tree (Utf8.encode "/\uFFFD/x")

/-- The one entry of the tree. -/
def lookalikeBelow : Snapshot :=
  .ofEntries [("/\uFFFD/x/f", ⟨.path "/\uFFFD/x/f", .directory⟩)] .ordered true

/-- Where two locations share a text an entry of the second collection is lost: its tree is answered
    with the listing of the member of the first. -/
theorem snapshot_append_loses_lookalike :
    (∀ path ∈ lookalikeMember.paths ++ lookalikeTree.paths, Utf8.IsText path) ∧
    lookalikeJoined [lookalikeMember] = .ok lookalikeStale ∧
    lookalikeJoined [lookalikeTree] = .ok lookalikeBelow ∧
    lookalikeJoined ([lookalikeMember] ++ [lookalikeTree]) = .ok lookalikeStale ∧
    lookalikeStale.entries ≠ lookalikeStale.entries
      ++ lookalikeBelow.entries.filter fun entry => entry.1 ∉ lookalikeStale.paths := by
  refine ⟨?_, rfl, rfl, rfl, by decide⟩
  intro path hpath
  simp only [lookalikeMember, lookalikeTree, Root.paths, List.cons_append, List.nil_append,
    List.mem_cons, List.not_mem_nil, or_false] at hpath
  rcases hpath with rfl | rfl
  · exact ⟨"x", rfl⟩
  · exact ⟨"/\uFFFD/x", rfl⟩

/-! ### A directory that is named, and found again in a tree -/

/-- A directory that is named directly, and a missing path. -/
def namedRoots : List Root := [.members [Utf8.encode "/d/e", Utf8.encode "/y"]]

/-- What is below the directory above, and a link to it. -/
def wholeRoots : List Root := [.tree (Utf8.encode "/d"), .members [Utf8.encode "/s"]]

def namedSnapshot : Snapshot :=
  .ofEntries [("/d/e", ⟨.ignored, .directory⟩), ("/y", ⟨.path "y", .missing⟩)] .ordered false

def wholeSnapshot : Snapshot :=
  .ofEntries [("/d/e", ⟨.path "e", .directory⟩), ("/s", ⟨.ignored, .directory⟩),
    ("/s/e", ⟨.path "e", .directory⟩)] .ordered false

theorem snapshot_append_named_whole :
    ∃ both, (((Vantage.plain linkedDisk []).snapshot .identity (namedRoots ++ wholeRoots) .ordered
        .relative).on ⟨.empty, .empty, []⟩).1 = .ok both ∧
      both.entries = [("/d/e", ⟨.ignored, .directory⟩), ("/y", ⟨.path "y", .missing⟩),
        ("/s", ⟨.ignored, .directory⟩), ("/s/e", ⟨.path "e", .directory⟩)] := by
  have hcurrent : Path.IsSpelled [] := by simp [Path.IsSpelled]
  have hnamed : ∀ root ∈ namedRoots, root.Spells [] Path.IsSpelled := by
    intro root hroot
    rw [List.mem_singleton.1 hroot]
    apply Root.spells_isSpelled hcurrent
    intro path hpath
    simp only [Root.paths, List.mem_cons, List.not_mem_nil, or_false] at hpath
    rcases hpath with rfl | rfl
    · exact ⟨"/d/e", rfl⟩
    · exact ⟨"/y", rfl⟩
  have hwhole : ∀ root ∈ wholeRoots, root.Spells [] Path.IsSpelled := by
    intro root hroot
    apply Root.spells_isSpelled hcurrent
    intro path hpath
    simp only [wholeRoots, List.mem_cons, List.not_mem_nil, or_false] at hroot
    rcases hroot with rfl | rfl
    · exact ⟨"/d", (List.mem_singleton.1 hpath).symm⟩
    · exact ⟨"/s", (List.mem_singleton.1 hpath).symm⟩
  have hfirst : (((Vantage.plain linkedDisk []).snapshot .identity namedRoots .ordered .relative).on
      ⟨.empty, .empty, []⟩).1 = .ok namedSnapshot := rfl
  have hsecond : (((Vantage.plain linkedDisk []).snapshot .identity wholeRoots .ordered
      .relative).on ⟨.empty, .empty, []⟩).1 = .ok wholeSnapshot := rfl
  obtain ⟨⟨both, hboth, hentries, -⟩, -⟩ :=
    snapshot_append tellsApart_isSpelled hnamed hwhole hfirst hsecond .empty []
  exact ⟨both, hboth, hentries.trans (by decide)⟩

end Treeprint
