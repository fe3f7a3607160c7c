import Treeprint.IoKind
import Treeprint.Path

/-!
# Why no snapshot was made

A snapshot is made whole or not at all, and a failure says what stood in its way: an error while
observing a path, a tree that could not be walked, an object that is no file and no directory, a
pattern that cannot be read, or a strategy that refused an observation.  Paths are kept as bytes
and shown as text.
-/

namespace Treeprint

inductive Failure
  /-- A path could not be looked up or read. -/
  | io (path : Bytes) (kind : IoKind)
  /-- A link leads back to a directory that is being walked. -/
  | linkLoop (path : Bytes)
  /-- A walk met a path that it could not follow. -/
  | walk (path : Bytes) (message : String)
  /-- An object is neither a file nor a directory. -/
  | unrecognized (path : Bytes) (description : String)
  | pattern (pattern reason : String)
  | refused (path : Bytes) (message : String)
  deriving DecidableEq, Repr

namespace Failure

def message : Failure → String
  | io path _ => "IO error at " ++ Utf8.decode path
  | linkLoop path => "symlink loop at " ++ Utf8.decode path
  | walk path message => "walk error at " ++ Utf8.decode path ++ ": " ++ message
  | unrecognized path description =>
    "unrecognized file type \x60" ++ description ++ "\x60 at " ++ Utf8.decode path
  | .pattern glob reason => "invalid pattern \x60" ++ glob ++ "\x60: " ++ reason
  | refused path message => "normalization failed at " ++ Utf8.decode path ++ ": " ++ message

/-- The path a failure happened at; a pattern is at no path. -/
def path? : Failure → Option Bytes
  | io path _ | linkLoop path | walk path _ | unrecognized path _ | refused path _ => some path
  | .pattern .. => none

/-- Whether the surroundings are broken, so that no caller may pass over it. -/
def isFatal : Failure → Bool
  | unrecognized .. => true
  | _ => false

/-- Whether trying again may help: only what was observed on the disk can change by itself. -/
def isRecoverable : Failure → Bool
  | io .. | linkLoop .. | walk .. => true
  | _ => false

end Failure

end Treeprint
