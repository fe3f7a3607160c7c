import Treeprint.Json.Skip

/-!
# Reading the shapes that values are written in

Readers for words, numbers and strings, and ways to put readers together: sequences, records
(written as a map or as the sequence of their fields) and variants (written as a name, or as a map
from the name to a content).  Of several faults the one that is met first from the left counts; a
field that is missing is met where its record ends.
-/

namespace Treeprint.Json

/-! ### What does not fit -/

/-- The fault of a value that is of the wrong kind.  What is malformed by itself is malformed. -/
def wrongType {α : Type} (wanted : String) (text : List Char) : Except Fault α :=
  let misfit (found : Found) : Except Fault α := .error (.misfit (.type found wanted))
  match text with
  | [] => .error .malformed
  | 'n' :: rest => do
    let _ ← word ['u', 'l', 'l'] rest
    misfit .null
  | 't' :: rest => do
    let _ ← word ['r', 'u', 'e'] rest
    misfit (.boolean true)
  | 'f' :: rest => do
    let _ ← word ['a', 'l', 's', 'e'] rest
    misfit (.boolean false)
  | '"' :: rest => do
    let (content, _) ← Quoted.read rest
    misfit (.string content)
  | '[' :: _ => misfit .sequence
  | '\x7b' :: _ => misfit .map
  | c :: rest =>
    if Number.opens c then do
      let (number, _) ← Number.read (c :: rest)
      misfit number.found
    else .error .malformed

/-- Look at the first character of a value. -/
def atValue {α : Type} (read : (first : Char) → (rest : List Char) → Except Fault α)
    (text : List Char) : Except Fault α :=
  match skipBlanks text with
  | [] => .error .truncated
  | first :: rest => read first rest

/-! ### Single values -/

def string (wanted : String) : Reader String :=
  atValue fun first rest =>
    if first = '"' then Quoted.read rest else wrongType wanted (first :: rest)

def boolean : Reader Bool :=
  atValue fun first rest =>
    if first = 't' then (word ['r', 'u', 'e'] rest).map (fun rest => (true, rest))
    else if first = 'f' then (word ['a', 'l', 's', 'e'] rest).map (fun rest => (false, rest))
    else wrongType "a boolean" (first :: rest)

def null (wanted : String) : Reader Unit :=
  atValue fun first rest =>
    if first = 'n' then (word ['u', 'l', 'l'] rest).map (fun rest => ((), rest))
    else wrongType wanted (first :: rest)

def natural (limit : Nat) (wanted : String) : Reader Nat :=
  atValue fun first rest =>
    if Number.opens first then do
      let (number, rest) ← Number.read (first :: rest)
      match number with
      | .natural value =>
        if value ≤ limit then return (value, rest)
        else throw (.misfit (.value number.found wanted))
      | .negative _ => throw (.misfit (.value number.found wanted))
      | .real _ => throw (.misfit (.type number.found wanted))
    else wrongType wanted (first :: rest)

def word64 : Reader UInt64 := fun text =>
  (natural Number.largest "u64" text).map (fun result => (UInt64.ofNat result.1, result.2))

def byte : Reader UInt8 := fun text =>
  (natural 255 "u8" text).map (fun result => (UInt8.ofNat result.1, result.2))

/-! ### Sequences -/

/-- Where the next element of a sequence begins, if there is one. -/
def nextElement (isFirst : Bool) (text : List Char) : Except Fault (Option (List Char)) :=
  match skipBlanks text with
  | [] => .error .truncated
  | ']' :: _ => .ok none
  | ',' :: rest =>
    if isFirst then .ok (some (',' :: rest))
    else match skipBlanks rest with
      | [] => .error .truncated
      | ']' :: _ => .error .malformed
      | rest => .ok (some rest)
  | text => if isFirst then .ok (some text) else .error .malformed

def endSequence (text : List Char) : Except Fault (List Char) :=
  match skipBlanks text with
  | ']' :: rest => .ok rest
  | [] => .error .truncated
  | _ => .error .malformed

def elements {α : Type} (element : Reader α) : (rounds : Nat) → (isFirst : Bool) → Reader (List α)
  | 0, _, _ => .error .truncated
  | rounds + 1, isFirst, text =>
    match nextElement isFirst text with
    | .error fault => .error fault
    | .ok none => (endSequence text).map (fun rest => ([], rest))
    | .ok (some text) =>
      match element text with
      | .error fault => .error fault
      | .ok (value, text) =>
        match elements element rounds false text with
        | .error fault => .error fault
        | .ok (values, rest) => .ok (value :: values, rest)

def sequence {α : Type} (element : Reader α) : Reader (List α) :=
  atValue fun first rest =>
    if first = '[' then elements element (rest.length + 1) true rest
    else wrongType "a sequence" (first :: rest)

/-- The element of an open sequence that has to be there: `count` were before it. -/
def expectElement {α : Type} (element : Reader α) (count : Nat) (wanted : String) : Reader α :=
  fun text =>
    match nextElement (count = 0) text with
    | .error fault => .error fault
    | .ok none => .error (.misfit (.length count wanted))
    | .ok (some text) => element text

def pair {α β : Type} (first : Reader α) (second : Reader β) : Reader (α × β) :=
  let wanted := "a tuple of size 2"
  atValue fun c rest =>
    if c = '[' then do
      let (x, rest) ← expectElement first 0 wanted rest
      let (y, rest) ← expectElement second 1 wanted rest
      return ((x, y), ← endSequence rest)
    else wrongType wanted (c :: rest)

/-! ### Maps and records -/

/-- The next key of an open map, if there is one. -/
def nextKey (isFirst : Bool) (text : List Char) : Except Fault (Option (String × List Char)) :=
  let key (text : List Char) : Except Fault (Option (String × List Char)) :=
    match text with
    | '"' :: rest => (Quoted.read rest).map some
    | [] => .error .truncated
    | _ => .error .malformed
  match skipBlanks text with
  | '\x7d' :: _ => .ok none
  | ',' :: rest => if isFirst then .error .malformed else key (skipBlanks rest)
  | text => if isFirst ∨ text = [] then key text else .error .malformed

/-- How a field is put into a record that is not complete yet. -/
structure FieldReader (α : Type) where
  /-- Whether the field is there already. -/
  isSet : α → Bool
  /-- Read the field's value and put it in. -/
  read : α → Reader α

/-- The fields of an open map; what is no field is passed over. -/
def fields {α : Type} (field? : String → Option (FieldReader α)) :
    (rounds : Nat) → (isFirst : Bool) → α → Reader α
  | 0, _, _, _ => .error .truncated
  | rounds + 1, isFirst, record, text =>
    match nextKey isFirst text with
    | .error fault => .error fault
    | .ok none => .ok (record, text)
    | .ok (some (name, text)) =>
      match field? name with
      | some field =>
        if field.isSet record then .error (.misfit (.duplicateField name))
        else
          match colon text with
          | .error fault => .error fault
          | .ok text =>
            match field.read record text with
            | .error fault => .error fault
            | .ok (record, text) => fields field? rounds false record text
      | none =>
        match colon text with
        | .error fault => .error fault
        | .ok text =>
          match skipValue text with
          | .error fault => .error fault
          | .ok text => fields field? rounds false record text

def endMap (text : List Char) : Except Fault (List Char) :=
  match skipBlanks text with
  | '\x7d' :: rest => .ok rest
  | [] => .error .truncated
  | _ => .error .malformed

/-- A record, written as a map or as the sequence of its fields.  `finish` says which field of a map
    is missing. -/
def record {α β : Type} (wanted : String) (inOrder : Reader β)
    (field? : String → Option (FieldReader α)) (blank : α) (finish : α → Except Fault β) :
    Reader β :=
  atValue fun first rest =>
    if first = '[' then do
      let (value, rest) ← inOrder rest
      return (value, ← endSequence rest)
    else if first = '\x7b' then do
      let (record, rest) ← fields field? (rest.length + 1) true blank rest
      let value ← finish record
      return (value, ← endMap rest)
    else wrongType wanted (first :: rest)

def require {α : Type} (name : String) : Option α → Except Fault α
  | some value => .ok value
  | none => .error (.misfit (.missingField name))

/-! ### Variants -/

/-- How a variant is read: the fault of its bare name or the value of it, and its content. -/
structure Variant (α : Type) where
  bare : Except Fault α
  content : Reader α

/-- A variant without a content; as a content there may stand `null`. -/
def Variant.unit {α : Type} (value : α) : Variant α where
  bare := .ok value
  content text := (null "unit" text).map (fun result => (value, result.2))

/-- A variant with a content; `wanted` says which kind of variant it is. -/
def Variant.holding {α : Type} (wanted : String) (content : Reader α) : Variant α where
  bare := .error (.misfit (.type .bareVariant wanted))
  content := content

/-- One of several variants, told apart by their names. -/
def variant {α : Type} (known : List (String × Variant α)) : Reader α :=
  let find (name : String) : Except Fault (Variant α) :=
    match known.lookup name with
    | some variant => .ok variant
    | none => .error (.misfit (.unknownVariant name (known.map Prod.fst)))
  atValue fun first rest =>
    if first = '"' then do
      let (name, rest) ← Quoted.read rest
      let variant ← find name
      return (← variant.bare, rest)
    else if first = '\x7b' then do
      let (name, rest) ← string "variant identifier" rest
      let variant ← find name
      let rest ← colon rest
      let (value, rest) ← variant.content rest
      match skipBlanks rest with
      | '\x7d' :: rest => return (value, rest)
      | [] => throw .truncated
      | _ => throw .malformed
    else .error .malformed

/-! ### Whole texts -/

/-- Read a value that is the whole of a text. -/
def readAll {α : Type} (read : Reader α) (text : String) : Except Fault α := do
  let (value, rest) ← read text.toList
  if skipBlanks rest = [] then return value else throw .malformed

end Treeprint.Json
