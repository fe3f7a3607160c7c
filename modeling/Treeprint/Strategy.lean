import Treeprint.Failure
import Treeprint.Fingerprint

/-!
# Strategies: from observations to fingerprints

A strategy says of each observation which fingerprint stands for it, or that it is left out, or that
it is refused.  The verdict depends on the observation alone.  Apart from it a strategy names the
texts that judging an observation adds to the pool of texts; they have no influence on the verdict.
-/

namespace Treeprint

structure Strategy where
  /-- The fingerprint of an observation; `none` leaves it out, an error refuses it. -/
  judge : Observation → Except Failure (Option Fingerprint)
  /-- The texts that judging an observation stores. -/
  pooled : Observation → List String
  /-- Whether the fingerprints carry absolute paths. -/
  isAbsolute : Bool

namespace Strategy

/-- A directory that was named as a root. -/
def isRootDirectory (observation : Observation) : Bool :=
  observation.isRoot && observation.kind = .directory

/-- The fingerprint under a text that is derived from the observation.  A root directory goes
    without a path, so that its own name does not matter. -/
def named (text : Observation → String) : Strategy where
  judge observation :=
    .ok (some (if isRootDirectory observation then .ofContent observation.content
      else ⟨.path (text observation), observation.content⟩))
  pooled observation := if isRootDirectory observation then [] else [text observation]
  isAbsolute := false

def absolute : Strategy where
  judge observation := .ok (some ⟨.path observation.path, observation.content⟩)
  pooled _ := []
  isAbsolute := true

def relative : Strategy := named (·.relative.text)

def nameOnly : Strategy := named (·.relative.lastName)

/-- Keep no path, and leave out directories. -/
def contentOnly : Strategy where
  judge observation :=
    .ok (if observation.kind = .directory then none else some (.ofContent observation.content))
  pooled _ := []
  isAbsolute := false

/-! ### Guarded strategies -/

/-- Why a guarded strategy leaves an observation out. -/
inductive Decline
  | ofKind (kind : Kind)
  | ofRoot
  | ofName (name : String)
  deriving DecidableEq, Repr

def Decline.applies (observation : Observation) : Decline → Bool
  | ofKind kind => observation.kind = kind
  | ofRoot => observation.isRoot
  | ofName name => observation.relative.lastName = name

/-- A strategy behind a guard: it refuses observations of one name and leaves out others, and asks
    `base` about the rest. -/
def guarded (base : Strategy) (refuse : Option String) (declines : List Decline)
    (isAbsolute : Bool) : Strategy where
  judge observation :=
    if refuse = some observation.relative.lastName then
      .error (.refused (Utf8.encode observation.path) ("refused " ++ observation.relative.lastName))
    else if declines.any (Decline.applies observation) then .ok none
    else base.judge observation
  pooled observation :=
    if refuse = some observation.relative.lastName ∨
        declines.any (Decline.applies observation) then []
    else base.pooled observation
  isAbsolute := isAbsolute

end Strategy

end Treeprint
