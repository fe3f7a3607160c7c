import Treeprint.Proofs.Blindness

/-!
# Strategies that are handed the pool

A strategy may be handed the pool of texts together with an observation, and then it may store texts
and use the answers.  `TextPool.Use` is all that can be done with a pool, `Judge` is a strategy that
does it, and `Vantage.snapshotBy` is a snapshot with a judge.

A judge can see the pool: it may ask how many texts there are.  The strategies that can be had by
name do not.  They store the text that a fingerprint is named by and put the stored text into the
fingerprint (`BuiltIn.judge`); since a pool gives back what it is given, the verdict is that of a
`Strategy`, which knows of no pool (`BuiltIn.follows`), and the snapshots are the same
(`Vantage.snapshotBy_eq_snapshot`).  What no judge can do is to take a text out of the pool
(`Vantage.keepsTexts_snapshotBy`).
-/

namespace Treeprint

/-- What somebody does to whom a pool is handed: store texts, and ask how many there are.  What is
    done next may depend on each answer. -/
inductive TextPool.Use (α : Type)
  | done (a : α)
  | intern (text : String) (next : String × Nat → Use α)
  | size (next : Nat → Use α)

namespace TextPool.Use

variable {α : Type}

/-- What comes out of a use, and the pool afterwards. -/
def on : Use α → TextPool → α × TextPool
  | done a, pool => (a, pool)
  | intern text next, pool => (next (pool.intern text).1).on (pool.intern text).2
  | size next, pool => (next pool.size).on pool

/-- No use of a pool loses a text or moves it to another slot. -/
theorem prefix_on (use : Use α) (pool : TextPool) : pool.texts <+: (use.on pool).2.texts := by
  induction use generalizing pool with
  | done a => exact List.prefix_rfl
  | intern text next ih =>
    exact (pool.prefix_intern text).trans (ih (pool.intern text).1 (pool.intern text).2)
  | size next ih => exact ih pool.size pool

/-- A use can tell two pools apart: it is not of itself that a strategy does not see the pool. -/
example : ((size done).on .empty).1 = 0 ∧ ((size done).on (TextPool.empty.intern "a").2).1 = 1 :=
  ⟨rfl, rfl⟩

end TextPool.Use

namespace Work

variable {α : Type}

/-- Use the pool of the ledger. -/
def use (use : TextPool.Use α) : Work α := do
  let ledger ← get
  let (a, pool) := use.on ledger.pool
  set { ledger with pool }
  return a

theorem on_use (use : TextPool.Use α) (ledger : Ledger) :
    (Work.use use).on ledger
      = (.ok (use.on ledger.pool).1, { ledger with pool := (use.on ledger.pool).2 }) := rfl

theorem keepsTexts_use (use : TextPool.Use α) : KeepsTexts (Work.use use) := by
  intro ledger
  rw [on_use]
  exact use.prefix_on ledger.pool

end Work

/-! ### Judges -/

/-- A strategy that is handed the pool with each observation. -/
structure Judge where
  verdict : Observation → TextPool.Use (Except Failure (Option Fingerprint))
  /-- Whether the fingerprints carry absolute paths. -/
  isAbsolute : Bool

/-- The accepted entries, each with its path; paths in `taken` are passed over. -/
def Judge.fold (judge : Judge) (taken : List String) :
    List Observation → Work (List (String × Fingerprint))
  | [] => return []
  | entry :: rest =>
    if entry.path ∈ taken then judge.fold taken rest
    else do
      match ← Work.use (judge.verdict entry) with
      | .error failure => throw failure
      | .ok none => judge.fold taken rest
      | .ok (some fingerprint) =>
        let entries ← judge.fold (entry.path :: taken) rest
        return (entry.path, fingerprint) :: entries

/-- A snapshot of a collection by a judge. -/
def Vantage.snapshotBy (vantage : Vantage) (recipe : Recipe) (roots : List Root)
    (compareStrategy : CompareStrategy) (judge : Judge) : Work Snapshot :=
  if roots.isEmpty then return .empty
  else do
    let entries ← vantage.gather recipe roots
    let fingerprints ← judge.fold [] entries
    if fingerprints.isEmpty then return .empty
    return .ofEntries fingerprints compareStrategy judge.isAbsolute

/-! ### No judge takes a text out -/

theorem Judge.keepsTexts_fold (judge : Judge) (taken : List String) (entries : List Observation) :
    Work.KeepsTexts (judge.fold taken entries) := by
  induction entries generalizing taken with
  | nil => exact Work.keepsTexts_pure _
  | cons entry rest ih =>
    unfold fold
    split
    · exact ih taken
    · apply (Work.keepsTexts_use _).bind
      intro verdict
      rcases verdict with failure | _ | fingerprint
      · exact (Work.blind_throw failure).keepsTexts
      · exact ih taken
      · exact (ih (entry.path :: taken)).bind fun _ => Work.keepsTexts_pure _

/-- **A snapshot keeps the texts of the pool**, whatever the judge does and however it ends. -/
theorem Vantage.keepsTexts_snapshotBy (vantage : Vantage) (recipe : Recipe) (roots : List Root)
    (compareStrategy : CompareStrategy) (judge : Judge) :
    Work.KeepsTexts (vantage.snapshotBy recipe roots compareStrategy judge) := by
  unfold snapshotBy
  split
  · exact Work.keepsTexts_pure _
  · apply (vantage.blind_gather recipe roots).keepsTexts.bind
    intro entries
    apply (judge.keepsTexts_fold [] entries).bind
    intro fingerprints
    split <;> exact Work.keepsTexts_pure _

/-! ### Judges that follow a strategy -/

/-- For every pool the judge comes to the verdict of the strategy and stores the texts that the
    strategy names. -/
structure Judge.Follows (judge : Judge) (strategy : Strategy) : Prop where
  verdict : ∀ observation pool, (judge.verdict observation).on pool
    = (strategy.judge observation, (pool.internEach (strategy.pooled observation)).2)
  isAbsolute : judge.isAbsolute = strategy.isAbsolute

theorem Judge.Follows.on_fold {judge : Judge} {strategy : Strategy} (h : judge.Follows strategy)
    (taken : List String) (entries : List Observation) (ledger : Ledger) :
    (judge.fold taken entries).on ledger = (strategy.fold taken entries).on ledger := by
  induction entries generalizing taken ledger with
  | nil => rfl
  | cons entry rest ih =>
    unfold fold Strategy.fold
    by_cases htaken : entry.path ∈ taken
    · simp only [if_pos htaken]
      exact ih taken ledger
    · have hjudged := Work.on_use (judge.verdict entry) ledger
      rw [h.verdict] at hjudged
      have hstored := Work.on_internAll_eq_internEach (strategy.pooled entry) ledger
      simp only [if_neg htaken, Work.on_bind_ok hjudged, Work.on_bind_ok hstored]
      rcases strategy.judge entry with failure | _ | fingerprint
      · rfl
      · exact ih taken _
      · simp only [Work.on_bind, ih]

/-- **A snapshot by a judge that follows a strategy is the snapshot with the strategy.** -/
theorem Vantage.snapshotBy_eq_snapshot (vantage : Vantage) (recipe : Recipe) (roots : List Root)
    (compareStrategy : CompareStrategy) {judge : Judge} {strategy : Strategy}
    (h : judge.Follows strategy) :
    vantage.snapshotBy recipe roots compareStrategy judge
      = vantage.snapshot recipe roots compareStrategy strategy := by
  have hfold : judge.fold [] = strategy.fold [] := by
    funext entries ledger
    exact h.on_fold [] entries ledger
  rw [snapshotBy, snapshot, hfold, h.isAbsolute]

/-! ### The strategies that can be had by name -/

inductive BuiltIn
  | absolute
  | relative
  | nameOnly
  | contentOnly
  deriving DecidableEq, Repr

namespace BuiltIn

def strategy : BuiltIn → Strategy
  | absolute => .absolute
  | relative => .relative
  | nameOnly => .nameOnly
  | contentOnly => .contentOnly

/-- The fingerprint under a text: the text is stored, and the stored text goes into the
    fingerprint.  A root directory goes without. -/
def named (text : String) (observation : Observation) :
    TextPool.Use (Except Failure (Option Fingerprint)) :=
  if Strategy.isRootDirectory observation then
    .done (.ok (some (.ofContent observation.content)))
  else
    .intern text fun (stored, _) => .done (.ok (some ⟨.path stored, observation.content⟩))

def judge : BuiltIn → Judge
  | absolute =>
    ⟨fun observation => .done (.ok (some ⟨.path observation.path, observation.content⟩)), true⟩
  | relative => ⟨fun observation => named observation.relative.text observation, false⟩
  | nameOnly => ⟨fun observation => named observation.relative.lastName observation, false⟩
  | contentOnly =>
    ⟨fun observation => .done (.ok (if observation.kind = .directory then none
      else some (.ofContent observation.content))), false⟩

/-- The stored text is the text that was given, so the verdict is that of a strategy without a
    pool. -/
theorem named_on (text : Observation → String) (observation : Observation) (pool : TextPool) :
    (named (text observation) observation).on pool
      = ((Strategy.named text).judge observation,
        (pool.internEach ((Strategy.named text).pooled observation)).2) := by
  unfold named Strategy.named
  by_cases hroot : Strategy.isRootDirectory observation
  · simp only [if_pos hroot]
    rfl
  · simp only [if_neg hroot]
    rw [TextPool.Use.on, pool.intern_text]
    rfl

/-- **The strategies that can be had by name do not see the pool that they are handed.** -/
theorem follows (builtIn : BuiltIn) : builtIn.judge.Follows builtIn.strategy := by
  cases builtIn with
  | absolute => exact ⟨fun _ _ => rfl, rfl⟩
  | relative => exact ⟨named_on (·.relative.text), rfl⟩
  | nameOnly => exact ⟨named_on (·.relative.lastName), rfl⟩
  | contentOnly => exact ⟨fun _ _ => rfl, rfl⟩

end BuiltIn

end Treeprint
