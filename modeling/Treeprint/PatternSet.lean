import Treeprint.Failure
import Treeprint.Glob.Rule
import Treeprint.Survey

/-!
# Pattern sets

Patterns that restrict a tree: what matches no include is left out when there is one, and what
matches an exclude is left out, a directory with all that is below it.  Excludes are the same lines
with `!` in front and come after the includes.

The globs of a set are handed together to an engine that matches them.  An engine has limits of its
own, on how large or how deep the globs are, and may refuse a set in which each pattern can be read.
Nothing is assumed of these limits: a restriction is a pattern set with the word of the engine.
-/

namespace Treeprint

structure PatternSet where
  includes : List String
  excludes : List String
  deriving DecidableEq, Repr

namespace PatternSet

def empty : PatternSet := ⟨[], []⟩

/-- All patterns in one text, the excludes with `!` in front. -/
def describe (patterns : PatternSet) : String :=
  ", ".intercalate (patterns.includes ++ patterns.excludes.map ("!" ++ ·))

def isEmpty (patterns : PatternSet) : Bool := patterns.includes.isEmpty && patterns.excludes.isEmpty

/-- The patterns as they were given, each with the line it stands for. -/
def lines (patterns : PatternSet) : List (String × List Char) :=
  patterns.includes.map (fun pattern => (pattern, pattern.toList))
    ++ patterns.excludes.map (fun pattern => (pattern, '!' :: pattern.toList))

/-- The rules of the lines, up to the first that cannot be read. -/
def rulesOf : List (String × List Char) → Except Failure (List Glob.Rule)
  | [] => .ok []
  | (pattern, line) :: rest =>
    match Glob.Line.rule? line with
    | .error flaw => .error (.pattern pattern flaw.message)
    | .ok rule =>
      match rulesOf rest with
      | .error failure => .error failure
      | .ok rules => .ok (rule.toList ++ rules)

/-- The filter that a pattern set stands for; names are matched as one path from the top. -/
def filter (patterns : PatternSet) : Except Failure Survey.Filter :=
  match rulesOf patterns.lines with
  | .error failure => .error failure
  | .ok rules => .ok fun names isDirectory =>
    Glob.Rule.keep rules (List.intercalate [Path.slash] names) isDirectory

end PatternSet

/-- A pattern set as it is applied. -/
structure Restriction where
  patterns : PatternSet
  /-- What the engine says that refuses the globs, where it does. -/
  refusal : Option String
  deriving DecidableEq, Repr

/-- A pattern set stands for itself where the engine takes it. -/
instance : Coe PatternSet Restriction := ⟨fun patterns => ⟨patterns, none⟩⟩

namespace Restriction

def empty : Restriction := PatternSet.empty

/-- The filter that is applied.  A pattern that cannot be read is reported by itself; when the
    engine refuses, all patterns are. -/
def filter (restriction : Restriction) : Except Failure Survey.Filter :=
  match restriction.patterns.filter with
  | .error failure => .error failure
  | .ok filter =>
    match restriction.refusal with
    | none => .ok filter
    | some reason => .error (.pattern restriction.patterns.describe reason)

/-- A set that the engine takes is filtered by as its patterns say. -/
theorem filter_coe (patterns : PatternSet) :
    (patterns : Restriction).filter = patterns.filter := by
  rw [filter]
  cases patterns.filter <;> rfl

/-- The engine has a say when all patterns can be read. -/
theorem filter_refused {patterns : PatternSet} {passes : Survey.Filter}
    (h : patterns.filter = .ok passes) (reason : String) :
    filter ⟨patterns, some reason⟩ = .error (.pattern patterns.describe reason) := by
  rw [filter, h]

end Restriction

end Treeprint
