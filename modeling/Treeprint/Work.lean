import Treeprint.Cache
import Treeprint.Failure
import Treeprint.Observer
import Treeprint.TextPool

/-!
# Working through a collection

What a call works with: the disk, the current directory and an observer, which stay as they are, and
a ledger that it changes: the cache, the pool of texts, and the questions that were put to the
observer.  A call may fail; what it entered in the ledger until then stays there.
-/

namespace Treeprint

/-- Where a call looks from, and how. -/
structure Vantage where
  disk : Disk
  /-- The location that relative paths start from. -/
  current : List Name
  observer : Observer

/-- A question that was put to an observer. -/
inductive Question
  | stat (path : Bytes)
  | hash (path : Bytes)
  deriving DecidableEq, Repr

structure Ledger where
  cache : Cache
  pool : TextPool
  /-- The questions so far, in order. -/
  asked : List Question

/-- Work that may fail; failing does not undo what is in the ledger. -/
abbrev Work := ExceptT Failure (StateM Ledger)

namespace Work

/-- Run on a ledger: the outcome, and the ledger afterwards. -/
def on {α : Type} (work : Work α) (ledger : Ledger) : Except Failure α × Ledger :=
  (ExceptT.run work).run ledger

def ask (question : Question) : Work Unit :=
  modify (fun ledger => { ledger with asked := ledger.asked ++ [question] })

def changeCache (change : Cache → Cache) : Work Unit :=
  modify (fun ledger => { ledger with cache := change ledger.cache })

/-- Store a text; the stored text takes its place. -/
def intern (text : String) : Work String := do
  let ledger ← get
  let ((stored, _), pool) := ledger.pool.intern text
  set { ledger with pool }
  return stored

def internAll : List String → Work Unit
  | [] => pure ()
  | text :: texts => do
    let _ ← intern text
    internAll texts

end Work

namespace Vantage

/-- The location that a path spells. -/
def absolute (vantage : Vantage) (path : Bytes) : Work (List Name) :=
  match Path.absolute vantage.current path with
  | some location => pure location
  | none => throw (.io path .invalidInput)

/-- Ask what is at a location. -/
def stat (vantage : Vantage) (location : List Name) : Work Metadata := do
  let path := Path.render location
  let count := (← get).asked.length
  Work.ask (.stat path)
  match vantage.observer.stat count path with
  | .ok metadata => return metadata
  | .error kind => throw (.io path kind)

/-- Ask for the hash of a file, and put its content together. -/
def content (vantage : Vantage) (location : List Name) (metadata : Metadata) : Work Content := do
  let path := Path.render location
  let count := (← get).asked.length
  Work.ask (.hash path)
  match vantage.observer.hash count path metadata with
  | .ok hash => return .regularFile hash metadata.modified
  | .error kind => throw (.io path kind)

end Vantage

end Treeprint
