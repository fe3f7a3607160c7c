import Treeprint.Text.Hex

/-!
# What is found at a path

A path is missing, a directory, or a regular file with a hash of its bytes and a modification time.

The time is carried along but is no part of what a file *is*: `==`, the order and what is fed to a
hasher look at the kind and the hash only.  Equality of all fields, the time included, is `=`.
-/

namespace Treeprint

/-- The hash of a file's contents: bytes of any length. -/
structure HashCode where
  bytes : Bytes
  deriving DecidableEq, Repr

namespace HashCode

/-- Hashes stand in the order of their bytes. -/
instance : Ord HashCode := ⟨fun x y => compare x.bytes y.bytes⟩

/-- The order as one in which values need not be comparable; bytes always are. -/
def partialCompare (x y : HashCode) : Option Ordering := some (compare x.bytes y.bytes)

/-- What is fed to a hasher: the length, then the bytes. -/
def feed (hash : HashCode) : List Nat := hash.bytes.length :: hash.bytes.map UInt8.toNat

def toHex (hash : HashCode) : String := Hex.encode hash.bytes

end HashCode

inductive Kind
  | missing
  | regularFile
  | directory
  deriving DecidableEq, Repr

namespace Kind

def name : Kind → String
  | missing => "Missing"
  | regularFile => "RegularFile"
  | directory => "Directory"

/-- The kinds, in the order in which they are listed to a reader. -/
def all : List Kind := [missing, regularFile, directory]

end Kind

inductive Content
  | missing
  | directory
  /-- A regular file; `modified` counts milliseconds. -/
  | regularFile (hash : HashCode) (modified : UInt64)
  deriving DecidableEq, Repr

namespace Content

def kind : Content → Kind
  | missing => .missing
  | directory => .directory
  | regularFile .. => .regularFile

def hash? : Content → Option HashCode
  | regularFile hash _ => some hash
  | _ => none

/-- Missing comes before directories and directories before files. -/
def rank : Content → Nat
  | missing => 0
  | directory => 1
  | regularFile .. => 2

/-- What is compared: the rank, and the bytes of the hash. -/
def key (content : Content) : Nat × Bytes :=
  (content.rank, (content.hash?.map HashCode.bytes).getD [])

instance : BEq Content := ⟨fun x y => x.key = y.key⟩

instance : Ord Content := ⟨fun x y => (compare x.key.1 y.key.1).then (compare x.key.2 y.key.2)⟩

def partialCompare (x y : Content) : Option Ordering := some (compare x y)

/-- What is fed to a hasher: the rank, whether there is a hash, and the hash. -/
def feed (content : Content) : List Nat :=
  content.rank :: match content.hash? with
    | none => [0]
    | some hash => 1 :: hash.feed

/-- The same content with another modification time. -/
def touch (modified : UInt64) : Content → Content
  | regularFile hash _ => regularFile hash modified
  | content => content

end Content

end Treeprint
