import Treeprint.Content

/-!
# Observations

One path that was looked at: where it is, how it is named from the root it was found under, whether
it was itself named as a root, and what is there.  The kind of an observation is that of its
content, so the two cannot disagree.
-/

namespace Treeprint

/-- How an observation is named from its root: the segments below the root's directory, or the
    single name of a root itself. -/
structure RelativePath where
  segments : List String
  endsWithFile : Bool
  deriving DecidableEq, Repr

namespace RelativePath

def ofName (endsWithFile : Bool) (name : String) : RelativePath := ⟨[name], endsWithFile⟩

/-- The final segment; an empty path has the empty name. -/
def lastName (path : RelativePath) : String := path.segments.getLast?.getD ""

/-- The segments with a slash between each two. -/
def text (path : RelativePath) : String :=
  String.ofList (List.intercalate ['/'] (path.segments.map String.toList))

end RelativePath

structure Observation where
  /-- The absolute path, as text. -/
  path : String
  relative : RelativePath
  /-- Whether the path was named directly. -/
  isRoot : Bool
  content : Content
  deriving DecidableEq, Repr

namespace Observation

def kind (observation : Observation) : Kind := observation.content.kind

def withRelative (relative : RelativePath) (observation : Observation) : Observation :=
  { observation with relative }

def withRoot (isRoot : Bool) (observation : Observation) : Observation :=
  { observation with isRoot }

/-- Two observations agree when all is equal up to modification times. -/
instance : BEq Observation :=
  ⟨fun x y => x.path = y.path && x.relative = y.relative && x.isRoot = y.isRoot
    && x.content == y.content⟩

end Observation

/-- Everything below one directory, in walk order. -/
structure Listing where
  path : String
  entries : List Observation
  deriving DecidableEq, Repr

end Treeprint
