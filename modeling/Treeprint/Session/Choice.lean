import Treeprint.Strategy

/-!
# Strategies by name

The strategies that can be asked for by name, and the words by which a guarded strategy leaves
observations out.
-/

namespace Treeprint.Session

/-- The strategies with their names. -/
def strategies : List (String × Strategy) :=
  [("Absolute", .absolute), ("Relative", .relative), ("NameOnly", .nameOnly),
   ("None", .contentOnly)]

def strategy? (name : String) : Option Strategy := strategies.lookup name

/-- The reason a word stands for: a kind, `root`, or `name:` with a name behind it.  Other words
    stand for nothing. -/
def decline? (word : String) : Option Strategy.Decline :=
  match Kind.all.find? (fun kind => kind.name = word) with
  | some kind => some (.ofKind kind)
  | none =>
    if word = "root" then some .ofRoot
    else
      let mark := "name:".toList
      if mark.isPrefixOf word.toList then
        some (.ofName (String.ofList (word.toList.drop mark.length)))
      else none

/-- A strategy behind a guard that is given in words.  Without a word on it, the guarded strategy
    carries absolute paths when its base does. -/
def guarded (base : Strategy) (refuse : Option String) (declines : List String)
    (isAbsolute : Option Bool) : Strategy :=
  .guarded base refuse (declines.filterMap decline?) (isAbsolute.getD base.isAbsolute)

end Treeprint.Session
