import Treeprint.Glob.Reading
import Treeprint.Text.Characters

/-!
# Lines of patterns

A pattern is one line of an ignore file.  Lines that are blank or begin with `#` count for nothing.
Otherwise the line may begin with `!`, which turns its meaning around, and with `/`, which ties it
to the top directory; a backslash in front of `!` or `#` takes their meaning away.  A slash at the
end restricts it to directories.  A glob that is not tied and has no slash in it matches at any
depth, and one that ends in `/**` matches what is below a directory and not the directory.

A pattern that is given among the includes keeps what it matches, and with `!` in front it drops it.
-/

namespace Treeprint.Glob

structure Rule where
  glob : List Token
  /-- Whether what is matched is kept. -/
  keeps : Bool
  directoriesOnly : Bool

/-- A line that cannot be read: the line, and what is wrong with its glob. -/
structure LineFlaw where
  line : List Char
  flaw : Flaw
  deriving DecidableEq, Repr

def LineFlaw.message (flaw : LineFlaw) : String :=
  "error parsing glob '" ++ String.ofList flaw.line ++ "': " ++ flaw.flaw.message

namespace Line

/-- What counts of a line; `none` when nothing does. -/
def trimmed? (line : List Char) : Option (List Char) :=
  if line.head? = some '#' then none
  else
    let line := if [' ', '\\'].isPrefixOf line.reverse then line else Text.trimEnd line
    if line = [] then none else some line

/-- The marks at the start of a line: whether `!` turns it around, whether it is tied to the top,
    and what follows. -/
def marks : List Char → Bool × Bool × List Char
  | '\\' :: '!' :: rest => (false, false, '!' :: rest)
  | '\\' :: '#' :: rest => (false, false, '#' :: rest)
  | '!' :: '/' :: rest => (true, true, rest)
  | '!' :: rest => (true, false, rest)
  | '/' :: rest => (false, true, rest)
  | line => (false, false, line)

/-- The mark at the end: whether only directories are meant, and the line without it. -/
def endMark (line : List Char) : Bool × List Char :=
  match line.reverse with
  | '/' :: '\\' :: front => (true, front.reverse)
  | '/' :: front => (true, front.reverse)
  | _ => (false, line)

/-- The glob that a line without its marks stands for. -/
def glob (tied : Bool) (line : List Char) : List Char :=
  let line := if tied ∨ '/' ∈ line ∨ line = ['*', '*'] then line else '*' :: '*' :: '/' :: line
  if ['*', '*', '/'].isPrefixOf line.reverse then line ++ ['/', '*'] else line

/-- The rule of a line; blank lines and comments have none. -/
def rule? (line : List Char) : Except LineFlaw (Option Rule) :=
  match trimmed? line with
  | none => .ok none
  | some line =>
    let (turned, tied, rest) := marks line
    let (directoriesOnly, rest) := endMark rest
    match read (glob tied rest) with
    | .error flaw => .error ⟨line, flaw⟩
    | .ok tokens => .ok (some ⟨tokens, !turned, directoriesOnly⟩)

end Line

/-! ### Deciding by rules -/

namespace Rule

/-- Whether a rule has something to say about a path. -/
def applies (rule : Rule) (path : Bytes) (isDirectory : Bool) : Bool :=
  (!rule.directoriesOnly || isDirectory) && accepts rule.glob path

/-- Whether a path is kept.  The last rule that applies decides.  Where none applies, files are
    dropped as soon as there is a rule that keeps something. -/
def keep (rules : List Rule) (path : Bytes) (isDirectory : Bool) : Bool :=
  match rules.reverse.find? (fun rule => rule.applies path isDirectory) with
  | some rule => rule.keeps
  | none => isDirectory || !rules.any Rule.keeps

end Rule

end Treeprint.Glob
