import Treeprint.Expand
import Treeprint.Recipe
import Treeprint.Snapshot
import Treeprint.Strategy

/-!
# Taking snapshots

All roots are expanded in order, each expansion is reshaped by the recipe, and what comes out is one
long list of entries.  The list is folded into a snapshot: for each path the first entry counts that
the strategy accepts.  An entry that the strategy leaves out keeps its path open for a later one,
and an entry that it refuses ends the call.
-/

namespace Treeprint

namespace Recipe

/-- The hooks and steps over one expansion. -/
def reshape (recipe : Recipe) (expansion : Expansion) : List Observation :=
  run recipe.steps <| match expansion with
    | .member observation => [recipe.rootHook observation]
    | .directory root contents => root :: recipe.treeHook contents
    | .tree entries => recipe.treeHook entries

end Recipe

namespace Vantage

/-- The entries of all roots. -/
def gather (vantage : Vantage) (recipe : Recipe) : List Root → Work (List Observation)
  | [] => return []
  | root :: roots => do
    let expansions ← vantage.expand root
    let entries ← vantage.gather recipe roots
    return expansions.flatMap recipe.reshape ++ entries

end Vantage

/-- The accepted entries, each with its path; paths in `taken` are passed over. -/
def Strategy.fold (strategy : Strategy) (taken : List String) :
    List Observation → Work (List (String × Fingerprint))
  | [] => return []
  | entry :: rest =>
    if entry.path ∈ taken then strategy.fold taken rest
    else do
      Work.internAll (strategy.pooled entry)
      match strategy.judge entry with
      | .error failure => throw failure
      | .ok none => strategy.fold taken rest
      | .ok (some fingerprint) =>
        let entries ← strategy.fold (entry.path :: taken) rest
        return (entry.path, fingerprint) :: entries

/-- A snapshot of a collection.  Nothing, for whatever reason, is the empty snapshot. -/
def Vantage.snapshot (vantage : Vantage) (recipe : Recipe) (roots : List Root)
    (compareStrategy : CompareStrategy) (strategy : Strategy) : Work Snapshot :=
  if roots.isEmpty then return .empty
  else do
    let entries ← vantage.gather recipe roots
    let fingerprints ← strategy.fold [] entries
    if fingerprints.isEmpty then return .empty
    return .ofEntries fingerprints compareStrategy strategy.isAbsolute

end Treeprint
