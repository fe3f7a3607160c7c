import Treeprint.Observation

/-!
# Reshaping observations

Between a walk and the fold into a snapshot, observations may be reshaped: a hook for a root that is
a regular file, a hook for the whole contents of a directory, and a list of steps that each entry
passes through in order.  Hooks on contents may reorder, drop and repeat entries; steps see one
entry at a time.
-/

namespace Treeprint

structure Recipe where
  /-- For a regular file that was named directly. -/
  rootFile : Option (Observation → Observation)
  /-- For everything below a directory. -/
  tree : Option (List Observation → List Observation)
  steps : List (Observation → Observation)

namespace Recipe

def identity : Recipe := ⟨none, none, []⟩

/-- All steps over one entry, the first step first. -/
def runOne (steps : List (Observation → Observation)) (entry : Observation) : Observation :=
  steps.foldl (fun entry step => step entry) entry

def run (steps : List (Observation → Observation)) (entries : List Observation) :
    List Observation :=
  entries.map (runOne steps)

def treeHook (recipe : Recipe) (entries : List Observation) : List Observation :=
  match recipe.tree with
  | some hook => hook entries
  | none => entries

/-- The root-file hook leaves missing members alone. -/
def rootHook (recipe : Recipe) (member : Observation) : Observation :=
  match recipe.rootFile with
  | some hook => if member.kind = .regularFile then hook member else member
  | none => member

end Recipe

end Treeprint
