import Treeprint.Observation

/-!
# Fingerprints

The part of an observation that later comparisons look at: a normalized path, which may be left
out, and the content.  Fingerprints are ordered by path, left-out paths first and texts by their
UTF-8 bytes, and then by content.
-/

namespace Treeprint

inductive NormalizedPath
  /-- The path plays no part. -/
  | ignored
  | path (text : String)
  deriving DecidableEq, Repr

namespace NormalizedPath

def text? : NormalizedPath → Option String
  | ignored => none
  | path text => some text

/-- Left-out paths come first, texts follow in the order of their UTF-8 bytes. -/
instance : Ord NormalizedPath where
  compare
    | ignored, ignored => .eq
    | ignored, path _ => .lt
    | path _, ignored => .gt
    | path x, path y => compare (Utf8.encode x) (Utf8.encode y)

/-- Two texts are compared as such, and everything else by which case it is. -/
def partialCompare : NormalizedPath → NormalizedPath → Option Ordering
  | path x, path y => some (compare (Utf8.encode x) (Utf8.encode y))
  | x, y => some (compare x.text?.isSome.toNat y.text?.isSome.toNat)

/-- What is fed to a hasher: which case it is, then the bytes of the text and an end mark that no
    text contains. -/
def feed : NormalizedPath → List Nat
  | ignored => [0]
  | path text => 1 :: (Utf8.encode text).map UInt8.toNat ++ [0xFF]

end NormalizedPath

structure Fingerprint where
  path : NormalizedPath
  content : Content
  deriving DecidableEq, Repr

namespace Fingerprint

/-- The fingerprint of a content whose path plays no part. -/
def ofContent (content : Content) : Fingerprint := ⟨.ignored, content⟩

instance : BEq Fingerprint := ⟨fun x y => x.path = y.path && x.content == y.content⟩

instance : Ord Fingerprint :=
  ⟨fun x y => (compare x.path y.path).then (compare x.content y.content)⟩

/-- The contents decide where the paths compare as equal. -/
def partialCompare (x y : Fingerprint) : Option Ordering :=
  match x.path.partialCompare y.path with
  | some .eq => x.content.partialCompare y.content
  | answer => answer

def feed (fingerprint : Fingerprint) : List Nat := fingerprint.path.feed ++ fingerprint.content.feed

end Fingerprint

end Treeprint
