import Treeprint.Observation
import Treeprint.PatternSet

/-!
# Roots of a collection

A collection is a list of roots.  A root names paths one by one, or the contents of one directory,
all of them or those that pass a pattern set.
-/

namespace Treeprint

inductive Root
  /-- Paths that are named directly; a directory among them is followed by its contents. -/
  | members (paths : List Bytes)
  /-- The contents of a directory that pass the patterns. -/
  | filtered (directory : Bytes) (restriction : Restriction)
  | tree (directory : Bytes)
  deriving DecidableEq, Repr

/-- One sequence of observations that a root gives rise to. -/
inductive Expansion
  /-- A path named directly that is a file or missing. -/
  | member (observation : Observation)
  /-- A directory named directly, and everything below it. -/
  | directory (root : Observation) (contents : List Observation)
  /-- The contents of a directory without the directory itself. -/
  | tree (entries : List Observation)
  deriving DecidableEq, Repr

namespace Expansion

def entries : Expansion → List Observation
  | member observation => [observation]
  | directory root contents => root :: contents
  | tree entries => entries

/-- A word for the shape of an expansion. -/
def shape : Expansion → String
  | member _ => "member"
  | directory .. => "directory"
  | tree _ => "tree"

end Expansion

end Treeprint
