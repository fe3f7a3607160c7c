import Treeprint.Glob.Token

/-!
# Reading globs

A glob is read one character at a time.  The state of the reader is what the next character may
complete (a backslash, one or two stars, a class) and the tokens that are finished, which lie in
nested groups while alternatives are open.

Two stars are recursive only where they are a whole component: at the start of the glob or of an
alternative before a slash or the end of the glob, and otherwise after a slash and before a slash or
an end.  Anywhere else they are two runs.
-/

namespace Treeprint.Glob

inductive Flaw
  | unclosedClass
  | invalidRange (low high : Char)
  | unopenedAlternatives
  | unclosedAlternatives
  | danglingEscape
  deriving DecidableEq, Repr

def Flaw.message : Flaw → String
  | unclosedClass => "unclosed character class; missing ']'"
  | invalidRange low high =>
    String.ofList ("invalid range; '".toList ++ [low] ++ "' > '".toList ++ [high] ++ "'".toList)
  | unopenedAlternatives =>
    "unopened alternate group; missing '\x7b' (maybe escape '\x7d' with '[\x7d]'?)"
  | unclosedAlternatives =>
    "unclosed alternate group; missing '\x7d' (maybe escape '\x7b' with '[\x7b]'?)"
  | danglingEscape => "dangling '\\'"

/-! ### Tokens in nested groups -/

/-- A group of alternatives that is open: the tokens before it, and its finished branches; both from
    the end to the front. -/
structure Group where
  before : List Token
  branches : List (List Token)

/-- The open groups, the innermost first, and the tokens of the current branch from the end to the
    front. -/
structure Draft where
  groups : List Group
  tokens : List Token

namespace Draft

def empty : Draft := ⟨[], []⟩

def push (token : Token) (draft : Draft) : Draft := { draft with tokens := token :: draft.tokens }

def isGrouped (draft : Draft) : Bool := !draft.groups.isEmpty

def openGroup (draft : Draft) : Draft := ⟨⟨draft.tokens, []⟩ :: draft.groups, []⟩

/-- A comma ends a branch; outside of groups it is a literal. -/
def nextBranch (draft : Draft) : Draft :=
  match draft.groups with
  | [] => draft.push (.literal ',')
  | group :: groups =>
    ⟨{ group with branches := draft.tokens.reverse :: group.branches } :: groups, []⟩

def closeGroup (draft : Draft) : Except Flaw Draft :=
  match draft.groups with
  | [] => .error .unopenedAlternatives
  | group :: groups =>
    .ok ⟨groups,
      .alternatives (draft.tokens.reverse :: group.branches).reverse :: group.before⟩

def finish (draft : Draft) : Except Flaw (List Token) :=
  if draft.isGrouped then .error .unclosedAlternatives else .ok draft.tokens.reverse

/-! ### Stars -/

def pushRuns (draft : Draft) : Draft := (draft.push .run).push .run

/-- A recursive token takes the place of the slash before it; after another recursive token nothing
    is added. -/
def pushRecursive (token : Token) (draft : Draft) : Draft :=
  match draft.tokens with
  | .leading :: _ | .trailing :: _ => draft
  | _ => { draft with tokens := token :: draft.tokens.drop 1 }

/-- Two stars, given the character before them and the one after them.  The answer says whether the
    character after them was taken in. -/
def pushStars (before after : Option Char) (draft : Draft) : Draft × Bool :=
  if draft.tokens.isEmpty then
    match after with
    | none => (draft.push .leading, false)
    | some '/' => (draft.push .leading, true)
    | some _ => (draft.pushRuns, false)
  else if before ≠ some '/' ∧ ¬ (draft.isGrouped ∧ (before = some ',' ∨ before = some '\x7b')) then
    (draft.pushRuns, false)
  else
    match after with
    | none => (draft.pushRecursive .trailing, false)
    | some '/' => (draft.pushRecursive .between, true)
    | some c =>
      if draft.isGrouped ∧ (c = ',' ∨ c = '\x7d') then (draft.pushRecursive .trailing, false)
      else (draft.pushRuns, false)

end Draft

/-! ### Classes -/

/-- A class that is open: its ranges from the end to the front, and whether a hyphen waits for the
    high end of a range. -/
structure ClassDraft where
  negated : Bool
  ranges : List (Char × Char)
  inRange : Bool

namespace ClassDraft

/-- Give the last range its high end. -/
def closeRange (high : Char) (draft : ClassDraft) : Except Flaw ClassDraft :=
  match draft.ranges with
  | [] => .ok { draft with ranges := [(high, high)], inRange := false }
  | (low, _) :: ranges =>
    if high < low then .error (.invalidRange low high)
    else .ok { draft with ranges := (low, high) :: ranges, inRange := false }

/-- A character of the class.  A hyphen that is neither first nor the high end of a range opens
    one. -/
def push (c : Char) (draft : ClassDraft) : Except Flaw ClassDraft :=
  if draft.inRange then draft.closeRange c
  else if c = '-' ∧ draft.ranges ≠ [] then .ok { draft with inRange := true }
  else .ok { draft with ranges := (c, c) :: draft.ranges }

/-- The class when it is closed; a hyphen that still waits is a literal. -/
def token (draft : ClassDraft) : Token :=
  let ranges := if draft.inRange then ('-', '-') :: draft.ranges else draft.ranges
  .oneOf draft.negated ranges.reverse

end ClassDraft

/-! ### The reader -/

/-- What the next character may complete. -/
inductive Mode
  | plain
  | escape
  /-- One star, with the character before it. -/
  | star (before : Option Char)
  /-- Two stars, with the character before them. -/
  | stars (before : Option Char)
  /-- A bracket was read, and perhaps the mark that negates the class. -/
  | bracket
  | inClass (draft : ClassDraft)

structure Reader where
  mode : Mode
  last : Option Char
  draft : Draft

namespace Reader

def start : Reader := ⟨.plain, none, .empty⟩

/-- A character where nothing waits for it. -/
def plain (c : Char) (last : Option Char) (draft : Draft) : Except Flaw Reader :=
  match c with
  | '?' => .ok ⟨.plain, some c, draft.push .anyByte⟩
  | '*' => .ok ⟨.star last, some c, draft⟩
  | '[' => .ok ⟨.bracket, some c, draft⟩
  | '\x7b' => .ok ⟨.plain, some c, draft.openGroup⟩
  | '\x7d' => draft.closeGroup.map (fun draft => ⟨.plain, some c, draft⟩)
  | ',' => .ok ⟨.plain, some c, draft.nextBranch⟩
  | '\\' => .ok ⟨.escape, some c, draft⟩
  | _ => .ok ⟨.plain, some c, draft.push (.literal c)⟩

def step (reader : Reader) (c : Char) : Except Flaw Reader :=
  match reader.mode with
  | .plain => plain c reader.last reader.draft
  | .escape => .ok ⟨.plain, some c, reader.draft.push (.literal c)⟩
  | .star before =>
    if c = '*' then .ok ⟨.stars before, some c, reader.draft⟩
    else plain c reader.last (reader.draft.push .run)
  | .stars before =>
    match reader.draft.pushStars before (some c) with
    | (draft, true) => .ok ⟨.plain, some c, draft⟩
    | (draft, false) => plain c reader.last draft
  | .bracket =>
    if c = '!' ∨ c = '^' then .ok ⟨.inClass ⟨true, [], false⟩, some c, reader.draft⟩
    else .ok ⟨.inClass ⟨false, [(c, c)], false⟩, some c, reader.draft⟩
  | .inClass draft =>
    if c = ']' ∧ draft.ranges ≠ [] then .ok ⟨.plain, some c, reader.draft.push draft.token⟩
    else (draft.push c).map (fun draft => ⟨.inClass draft, some c, reader.draft⟩)

def finish (reader : Reader) : Except Flaw (List Token) :=
  match reader.mode with
  | .plain => reader.draft.finish
  | .escape => .error .danglingEscape
  | .star _ => (reader.draft.push .run).finish
  | .stars before => (reader.draft.pushStars before none).1.finish
  | .bracket | .inClass _ => .error .unclosedClass

end Reader

def read (glob : List Char) : Except Flaw (List Token) := do
  (← glob.foldlM Reader.step .start).finish

end Treeprint.Glob
