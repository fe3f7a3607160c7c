import Mathlib.Data.List.Forall2
import Treeprint.Proofs.Shapes
import Treeprint.Proofs.Trees

/-!
# What a reader makes of any JSON text

A reader sees characters, but what it makes of them depends on the value alone that they print.
`Decodes read decode` says so: of every text of a value, whatever blanks are in it, the reader takes
what `decode` makes of the value, and it refuses the text if that is nothing.  So a question about
all the ways to write a value, or about all the ways to spoil it, is one about a function of the
value.

There is a `decode` for each way to put readers together: single values, sequences, pairs, records
and variants.  Only for records is it more than the reader's own cases.  A record that is written as
a map is read in a loop, which fills in one field after another, but the outcome depends on each
field alone: it has to be there once, and its value has to be read (`once`).
-/

namespace Treeprint.Json

open Quoted (Piece)

/-- What a reader makes of the texts of a value is a function of the value. -/
def Decodes {α : Type} (read : Reader α) (decode : Doc → Option α) : Prop :=
  ∀ ⦃doc : Doc⦄ ⦃text : List Char⦄, Prints doc text → ∀ ⦃lead : List Char⦄, Blanks lead →
    ∀ ⦃rest : List Char⦄, Closes rest →
      (read (lead ++ (text ++ rest))).toOption = (decode doc).map fun value => (value, rest)

theorem Decodes.map {α β : Type} {read : Reader α} {decode : Doc → Option α}
    (h : Decodes read decode) (f : α → β) :
    Decodes (fun text => (read text).map fun result => (f result.1, result.2))
      (fun doc => (decode doc).map f) := by
  intro doc text hprints lead hlead rest hrest
  rw [toOption_map, h hprints hlead hrest, Option.map_map, Option.map_map]
  rfl

/-- What is read from a whole text. -/
theorem Decodes.readAll {α : Type} {read : Reader α} {decode : Doc → Option α}
    (h : Decodes read decode) {doc : Doc} {text : String} (htext : IsTextOf text doc) :
    (readAll read text).toOption = decode doc := by
  obtain ⟨lead, core, trail, hlead, hprints, htrail, rfl⟩ := htext
  have hread := h hprints hlead (by simpa using closes_append htrail closes_nil)
  rw [Json.readAll, String.toList_ofList, toOption_bind, hread]
  cases decode doc with
  | none => rfl
  | some value =>
    rw [Option.map_some, Option.bind_some]
    simp only [skipBlanks_of_blanks htrail]
    rfl

/-! ### What does not fit -/

theorem toOption_wrongType {α : Type} (wanted : String) (text : List Char) :
    (wrongType wanted text : Except Fault α).toOption = none := by
  have hrefuse {β : Type} (x : Except Fault β) (f : β → Except Fault α)
      (hf : ∀ b, (f b).toOption = none) : (x >>= f).toOption = none := by
    rw [toOption_bind]
    cases x with
    | error fault => rfl
    | ok b => exact hf b
  unfold wrongType
  dsimp only
  split
  · rfl
  · exact hrefuse _ _ fun _ => rfl
  · exact hrefuse _ _ fun _ => rfl
  · exact hrefuse _ _ fun _ => rfl
  · exact hrefuse _ _ fun _ => rfl
  · rfl
  · rfl
  · split
    · exact hrefuse _ _ fun _ => rfl
    · rfl

theorem atValue_append {α : Type} (read : Char → List Char → Except Fault α) {lead : List Char}
    (h : Blanks lead) (text : List Char) : atValue read (lead ++ text) = atValue read text := by
  rw [atValue, atValue, skipBlanks_append h]

/-- A value of another kind is refused. -/
theorem toOption_atValue {α : Type} {doc : Doc} {text lead : List Char} (hprints : Prints doc text)
    (hlead : Blanks lead) (rest : List Char) {read : Char → List Char → Except Fault α}
    (hread : ∀ c tail, doc.begins c = true → (read c tail).toOption = none) :
    (atValue read (lead ++ (text ++ rest))).toOption = none := by
  obtain ⟨c, tail, rfl, hbegins, hblank⟩ := hprints.begins
  rw [atValue_append _ hlead, List.cons_append, atValue_cons _ hblank]
  exact hread c _ hbegins

theorem toOption_atMark {α : Type} {doc : Doc} {text lead : List Char} (hprints : Prints doc text)
    (hlead : Blanks lead) (rest : List Char) {mark : Char} (hmark : doc.begins mark = false)
    {wanted : String} {read : Reader α} :
    (atValue
      (fun first rest => if first = mark then read rest else wrongType wanted (first :: rest))
      (lead ++ (text ++ rest))).toOption = none := by
  refine toOption_atValue hprints hlead rest ?_
  intro c tail hc
  rw [if_neg]
  · exact toOption_wrongType _ _
  · rintro rfl
    rw [hc] at hmark
    cases hmark

/-! ### Single values -/

def asString : Doc → Option String
  | .string pieces => Quoted.meaning? pieces
  | _ => none

def asBoolean : Doc → Option Bool
  | .boolean value => some value
  | _ => none

def asNull : Doc → Option Unit
  | .null => some ()
  | _ => none

def asNatural (limit : Nat) : Doc → Option Nat
  | .number n => n.natural?.filter (· ≤ limit)
  | _ => none

/-- A string ends with its quote, so it does not matter what is behind it. -/
theorem string_spell (wanted : String) (pieces : List Piece) {lead : List Char}
    (hlead : Blanks lead) (rest : List Char) :
    (string wanted (lead ++ (Quoted.spell pieces ++ rest))).toOption
      = (Quoted.meaning? pieces).map fun content => (content, rest) := by
  rw [string, atValue_append _ hlead, Quoted.spell_append, atValue_cons _ (by decide), if_pos rfl]
  exact Quoted.read_pieces pieces rest

theorem decodes_string (wanted : String) : Decodes (string wanted) asString := by
  intro doc text hprints lead hlead rest hrest
  cases doc with
  | string pieces =>
    cases hprints
    exact string_spell wanted pieces hlead rest
  | _ => exact toOption_atMark hprints hlead rest rfl

theorem decodes_boolean : Decodes boolean asBoolean := by
  intro doc text hprints lead hlead rest hrest
  cases doc with
  | boolean value =>
    cases hprints
    rw [boolean, atValue_append _ hlead]
    cases value <;> rfl
  | _ =>
    refine toOption_atValue hprints hlead rest ?_
    intro c tail hc
    rw [if_neg, if_neg]
    · exact toOption_wrongType _ _
    all_goals
      rintro rfl
      cases hc

theorem decodes_null (wanted : String) : Decodes (null wanted) asNull := by
  intro doc text hprints lead hlead rest hrest
  cases doc with
  | null =>
    cases hprints
    rw [null, atValue_append _ hlead]
    rfl
  | _ => exact toOption_atMark hprints hlead rest rfl

theorem decodes_natural {limit : Nat} (hlimit : limit ≤ Number.largest) (wanted : String) :
    Decodes (natural limit wanted) (asNatural limit) := by
  intro doc text hprints lead hlead rest hrest
  cases doc with
  | number n =>
    cases hprints
    rw [natural, atValue_append _ hlead]
    exact natural_numeral hlimit wanted n hrest
  | _ =>
    refine toOption_atValue hprints hlead rest ?_
    intro c tail hc
    rw [if_neg]
    · exact toOption_wrongType _ _
    · intro hopens
      obtain ⟨n, hn⟩ := Doc.exists_number hc hopens
      cases hn

theorem decodes_byte : Decodes byte fun doc => (asNatural 255 doc).map UInt8.ofNat :=
  have hlimit : 255 ≤ Number.largest := by decide
  (decodes_natural hlimit "u8").map UInt8.ofNat

theorem decodes_word64 :
    Decodes word64 fun doc => (asNatural Number.largest doc).map UInt64.ofNat :=
  (decodes_natural (Nat.le_refl _) "u64").map UInt64.ofNat

/-! ### Open brackets -/

/-- The text of the parts that are left between two brackets: of all of them, or of those behind the
    first few. -/
inductive Ahead : Bool → List (List Char) → List Char → Prop
  | first {parts : List (List Char)} {text : List Char} (h : Enclosed parts text) :
    Ahead true parts text
  | later {parts : List (List Char)} {text : List Char} (h : Behind parts text) :
    Ahead false parts text

theorem Ahead.blanks {isFirst : Bool} {text : List Char} (h : Ahead isFirst [] text) :
    Blanks text := by
  cases h with
  | first h => cases h; assumption
  | later h => cases h; assumption

theorem Behind.length_le {parts : List (List Char)} {text : List Char} (h : Behind parts text) :
    parts.length ≤ text.length := by
  induction h with
  | last => exact Nat.zero_le _
  | next _ _ _ ih =>
    simp only [List.length_append, List.length_cons]
    omega

theorem Enclosed.length_le {parts : List (List Char)} {text : List Char} (h : Enclosed parts text)
    (hparts : ∀ part ∈ parts, part ≠ []) : parts.length ≤ text.length := by
  cases h with
  | empty => exact Nat.zero_le _
  | parts hlead htext =>
    have hlater := htext.length_le
    have hpart := List.length_pos_of_ne_nil (hparts _ List.mem_cons_self)
    simp only [List.length_append, List.length_cons]
    omega

/-! ### Sequences -/

section Sequences

variable {α β : Type} {element : Reader α} {decode : Doc → Option α}

theorem endSequence_append {blanks : List Char} (h : Blanks blanks) (rest : List Char) :
    endSequence (blanks ++ ']' :: rest) = .ok rest := by
  rw [endSequence, skipBlanks_append h, skipBlanks_cons (by decide)]
  rfl

theorem endSequence_of_behind {part text : List Char} {parts : List (List Char)}
    (h : Behind (part :: parts) text) (rest : List Char) :
    endSequence (text ++ rest) = .error .malformed := by
  cases h with
  | next hblanks hlead htext =>
    rw [List.append_assoc, List.cons_append, endSequence, skipBlanks_append hblanks,
      skipBlanks_cons (by decide)]
    rfl

theorem nextElement_nil {isFirst : Bool} {text : List Char} (h : Ahead isFirst [] text)
    (rest : List Char) : nextElement isFirst (text ++ ']' :: rest) = .ok none := by
  rw [nextElement, skipBlanks_append h.blanks, skipBlanks_cons (by decide)]
  rfl

theorem nextElement_cons {isFirst : Bool} {part text : List Char} {parts : List (List Char)}
    (h : Ahead isFirst (part :: parts) text) (hpart : ∃ c tail, part = c :: tail ∧ Opens c) :
    ∃ after, Behind parts after ∧ ∀ rest,
      nextElement isFirst (text ++ ']' :: rest) = .ok (some (part ++ (after ++ ']' :: rest))) := by
  obtain ⟨c, tail, rfl, hblank, hcomma, hbracket⟩ := hpart
  have hstart {lead : List Char} (hlead : Blanks lead) (after : List Char) :
      skipBlanks (lead ++ (c :: tail ++ after)) = c :: (tail ++ after) := by
    rw [skipBlanks_append hlead, List.cons_append, skipBlanks_cons hblank]
  cases h with
  | first h =>
    cases h with
    | @parts lead _ _ after hlead htext =>
      refine ⟨after, htext, fun rest => ?_⟩
      rw [List.append_assoc, List.append_assoc, nextElement, hstart hlead]
      split <;> simp_all
  | later h =>
    cases h with
    | @next blanks lead _ _ after hblanks hlead htext =>
      refine ⟨after, htext, fun rest => ?_⟩
      have hmark : isBlank ',' = false := by decide
      rw [List.append_assoc, List.cons_append, List.append_assoc, List.append_assoc, nextElement,
        skipBlanks_append hblanks, skipBlanks_cons hmark]
      simp only [Bool.false_eq_true, if_false, hstart hlead]
      split <;> simp_all

/-- One round of a sequence. -/
theorem toOption_elements {isFirst : Bool} {text next : List Char}
    (hnext : nextElement isFirst text = .ok (some next)) (rounds : Nat) :
    (elements element (rounds + 1) isFirst text).toOption
      = (element next).toOption.bind fun result =>
          (elements element rounds false result.2).toOption.map fun others =>
            (result.1 :: others.1, others.2) := by
  rw [elements, hnext]
  dsimp only
  cases element next with
  | error fault => rfl
  | ok result =>
    obtain ⟨value, after⟩ := result
    dsimp only [toOption_ok, Option.bind_some]
    cases elements element rounds false after <;> rfl

theorem elements_ahead (hdecode : Decodes element decode) {items : List Doc}
    {parts : List (List Char)} (hparts : List.Forall₂ Prints items parts) {isFirst : Bool}
    {text : List Char} (h : Ahead isFirst parts text) {rounds : Nat}
    (hrounds : parts.length < rounds) (rest : List Char) :
    (elements element rounds isFirst (text ++ ']' :: rest)).toOption
      = (items.mapM decode).map fun values => (values, rest) := by
  induction hparts generalizing isFirst text rounds with
  | nil =>
    obtain ⟨rounds, rfl⟩ : ∃ n, rounds = n + 1 := ⟨rounds - 1, by omega⟩
    rw [elements, nextElement_nil h]
    simp only [endSequence_append h.blanks]
    rfl
  | @cons item part items parts hprints _ ih =>
    obtain ⟨rounds, rfl⟩ : ∃ n, rounds = n + 1 := ⟨rounds - 1, by omega⟩
    obtain ⟨after, hafter, hnext⟩ := nextElement_cons h hprints.opens
    have hcloses : Closes (after ++ ']' :: rest) := hafter.closes (closes_closing .sequence rest)
    have hread := hdecode hprints blanks_nil hcloses
    rw [List.nil_append] at hread
    have hothers := ih (.later hafter) (Nat.lt_of_succ_lt_succ hrounds)
    rw [toOption_elements (hnext rest), hread, List.mapM_cons]
    cases decode item with
    | none => rfl
    | some value =>
      rw [Option.map_some, Option.bind_some, hothers]
      cases items.mapM decode <;> rfl

def asSequence (decode : Doc → Option α) : Doc → Option (List α)
  | .list items => items.mapM decode
  | _ => none

/-- The text of a list, taken apart. -/
theorem Prints.list_parts {items : List Doc} {text : List Char} (h : Prints (.list items) text) :
    ∃ parts body, text = '[' :: (body ++ [']']) ∧ List.Forall₂ Prints items parts ∧
      Enclosed parts body := by
  cases h with
  | @list written body hitems hbody =>
    refine ⟨written.map Prod.snd, body, rfl, ?_, hbody⟩
    rw [List.forall₂_map_left_iff, List.forall₂_map_right_iff, List.forall₂_same]
    exact hitems

theorem ne_nil_of_forall₂_prints {items : List Doc} {parts : List (List Char)}
    (h : List.Forall₂ Prints items parts) : ∀ part ∈ parts, part ≠ [] := by
  induction h with
  | nil => exact List.forall_mem_nil _
  | cons hprints _ ih =>
    obtain ⟨c, tail, rfl, -⟩ := hprints.opens
    exact List.forall_mem_cons.mpr ⟨List.cons_ne_nil c tail, ih⟩

theorem decodes_sequence (hdecode : Decodes element decode) :
    Decodes (sequence element) (asSequence decode) := by
  intro doc text hprints lead hlead rest hrest
  cases doc with
  | list items =>
    obtain ⟨parts, body, rfl, hparts, hbody⟩ := hprints.list_parts
    rw [sequence, atValue_append _ hlead, List.cons_append, atValue_cons _ (by decide), if_pos rfl,
      List.append_assoc]
    apply elements_ahead hdecode hparts (.first hbody)
    have hlength := hbody.length_le (ne_nil_of_forall₂_prints hparts)
    simp only [List.length_append]
    omega
  | _ => exact toOption_atMark hprints hlead rest rfl

theorem expectElement_nil {count : Nat} {text : List Char} (h : Ahead (count = 0) [] text)
    (wanted : String) (rest : List Char) :
    (expectElement element count wanted (text ++ ']' :: rest)).toOption = none := by
  rw [expectElement, nextElement_nil h]
  rfl

theorem expectElement_cons (hdecode : Decodes element decode) {item : Doc} {part : List Char}
    (hprints : Prints item part) {count : Nat} {parts : List (List Char)} {text : List Char}
    (h : Ahead (count = 0) (part :: parts) text) (wanted : String) :
    ∃ after, Behind parts after ∧ ∀ rest,
      (expectElement element count wanted (text ++ ']' :: rest)).toOption
        = (decode item).map fun value => (value, after ++ ']' :: rest) := by
  obtain ⟨after, hafter, hnext⟩ := nextElement_cons h hprints.opens
  refine ⟨after, hafter, fun rest => ?_⟩
  have hcloses : Closes (after ++ ']' :: rest) := hafter.closes (closes_closing .sequence rest)
  rw [expectElement, hnext rest]
  exact hdecode hprints blanks_nil hcloses

/-- What is made of the rest of an open sequence and its bracket, `count` items being read, is a
    function of the items that are left. -/
def DecodesFrom (count : Nat) (read : Reader α) (decode : List Doc → Option α) : Prop :=
  ∀ ⦃items : List Doc⦄ ⦃parts : List (List Char)⦄, List.Forall₂ Prints items parts →
    ∀ ⦃text : List Char⦄, Ahead (count = 0) parts text → ∀ rest : List Char,
      (do
        let (value, after) ← read (text ++ ']' :: rest)
        return (value, ← endSequence after)).toOption
        = (decode items).map fun value => (value, rest)

/-- No item is left. -/
def noItem (value : α) : List Doc → Option α
  | [] => some value
  | _ :: _ => none

/-- An item, and the others behind it. -/
def nextItem (decode : Doc → Option α) (others : α → List Doc → Option β) : List Doc → Option β
  | [] => none
  | item :: items => (decode item).bind fun value => others value items

theorem decodesFrom_noItem (count : Nat) (value : α) :
    DecodesFrom (count + 1) (fun text => .ok (value, text)) (noItem value) := by
  intro items parts hparts text htext rest
  cases hparts with
  | nil =>
    have hend := endSequence_append htext.blanks rest
    simp only [bind, Except.bind, hend]
    rfl
  | cons hprints hparts =>
    cases htext with
    | later htext =>
      have hend := endSequence_of_behind htext (']' :: rest)
      simp only [bind, Except.bind, hend]
      rfl

theorem decodesFrom_nextItem (hdecode : Decodes element decode) {read : α → Reader β}
    {others : α → List Doc → Option β} {count : Nat}
    (hothers : ∀ value, DecodesFrom (count + 1) (read value) (others value)) (wanted : String) :
    DecodesFrom count (fun text => do
        let (value, text) ← expectElement element count wanted text
        read value text)
      (nextItem decode others) := by
  intro items parts hparts text htext rest
  dsimp only
  rw [bind_assoc, toOption_bind]
  cases hparts with
  | nil => rw [expectElement_nil htext]; rfl
  | @cons item _ _ _ hprints hparts =>
    obtain ⟨after, hafter, hexpect⟩ := expectElement_cons hdecode hprints htext wanted
    rw [hexpect, nextItem]
    cases decode item with
    | none => rfl
    | some value => exact hothers value hparts (.later hafter) rest
def asPair (asFirst : Doc → Option α) (asSecond : Doc → Option β) : Doc → Option (α × β)
  | .list items => nextItem asFirst (fun x => nextItem asSecond fun y => noItem (x, y)) items
  | _ => none

theorem decodes_pair {first : Reader α} {second : Reader β} {asFirst : Doc → Option α}
    {asSecond : Doc → Option β} (hfirst : Decodes first asFirst)
    (hsecond : Decodes second asSecond) :
    Decodes (pair first second) (asPair asFirst asSecond) := by
  intro doc text hprints lead hlead rest hrest
  cases doc with
  | list items =>
    obtain ⟨parts, body, rfl, hparts, hbody⟩ := hprints.list_parts
    have hitems : DecodesFrom 0 _ _ := decodesFrom_nextItem hfirst
      (fun x => decodesFrom_nextItem hsecond (fun y => decodesFrom_noItem 1 (x, y))
        "a tuple of size 2") "a tuple of size 2"
    have hread := hitems hparts (.first hbody) rest
    rw [pair, atValue_append _ hlead, List.cons_append, atValue_cons _ (by decide), if_pos rfl,
      List.append_assoc]
    simp only [bind_assoc] at hread
    exact hread
  | _ => exact toOption_atMark hprints hlead rest rfl

end Sequences

/-! ### Maps -/

/-- The text of a map, taken apart. -/
theorem Prints.map_parts {fields : List (List Piece × Doc)} {text : List Char}
    (h : Prints (.map fields) text) : ∃ (written : List WrittenField) (body : List Char),
      fields = written.map WrittenField.field ∧ text = '\x7b' :: (body ++ ['\x7d']) ∧
      (∀ field ∈ written, Prints field.value field.text) ∧
      Enclosed (written.map WrittenField.spelled) body := by
  cases h with
  | @map written body hvalues hbody => exact ⟨written, body, rfl, rfl, hvalues, hbody⟩

theorem WrittenField.spelled_append (field : WrittenField) (rest : List Char) :
    field.spelled ++ rest = Quoted.spell field.key
      ++ (field.before ++ ':' :: (field.after ++ (field.text ++ rest))) := by
  simp [spelled]

theorem endMap_append {blanks : List Char} (h : Blanks blanks) (rest : List Char) :
    endMap (blanks ++ '\x7d' :: rest) = .ok rest := by
  rw [endMap, skipBlanks_append h, skipBlanks_cons (by decide)]
  rfl

/-! ### Variants -/

section Variants

variable {α : Type}

/-- What a variant stands for: as a bare name, and with a content. -/
structure Way (α : Type) where
  bare : Option α
  content : Doc → Option α

def Way.unit (value : α) : Way α where
  bare := some value
  content doc := (asNull doc).map fun _ => value

def Way.holding (decode : Doc → Option α) : Way α where
  bare := none
  content := decode

def asVariant (ways : List (String × Way α)) : Doc → Option α
  | .string pieces => do
    let name ← Quoted.meaning? pieces
    let way ← ways.lookup name
    way.bare
  | .map [(key, doc)] => do
    let name ← Quoted.meaning? key
    let way ← ways.lookup name
    way.content doc
  | _ => none

theorem asVariant_map (ways : List (String × Way α)) (key : List Piece) (doc : Doc)
    (fields : List (List Piece × Doc)) : asVariant ways (.map ((key, doc) :: fields))
      = (Quoted.meaning? key).bind fun name => (ways.lookup name).bind fun way =>
          if fields = [] then way.content doc else none := by
  cases fields with
  | nil => rfl
  | cons field fields =>
    cases Quoted.meaning? key with
    | none => rfl
    | some name => cases ways.lookup name <;> simp [asVariant]

/-- A variant is read in the way it stands for something. -/
structure Variant.Goes (variant : Variant α) (way : Way α) : Prop where
  bare : variant.bare.toOption = way.bare
  content : Decodes variant.content way.content

theorem Variant.goes_unit (value : α) : (Variant.unit value).Goes (.unit value) where
  bare := rfl
  content := (decodes_null "unit").map fun _ => value

theorem Variant.goes_holding (wanted : String) {read : Reader α} {decode : Doc → Option α}
    (h : Decodes read decode) : (Variant.holding wanted read).Goes (.holding decode) where
  bare := rfl
  content := h

theorem lookup_of_forall₂ {known : List (String × Variant α)} {ways : List (String × Way α)}
    (h : List.Forall₂ (fun variant way => variant.1 = way.1 ∧ variant.2.Goes way.2) known ways)
    (name : String) : (known.lookup name = none ∧ ways.lookup name = none) ∨
      ∃ variant way, known.lookup name = some variant ∧ ways.lookup name = some way ∧
        variant.Goes way := by
  induction h with
  | nil => exact .inl ⟨rfl, rfl⟩
  | @cons variant way known ways hgoes _ ih =>
    obtain ⟨word, variant⟩ := variant
    obtain ⟨other, way⟩ := way
    obtain ⟨rfl, hgoes⟩ := hgoes
    rw [List.lookup_cons, List.lookup_cons]
    cases name == word with
    | true => exact .inr ⟨variant, way, rfl, rfl, hgoes⟩
    | false => exact ih

/-- The end of a variant with a content: the content has to be all that is in the map. -/
theorem toOption_closing {content : Except Fault (α × List Char)} {value? : Option α}
    {after rest : List Char} {parts : List (List Char)}
    (hcontent : content.toOption = value?.map fun value => (value, after ++ '\x7d' :: rest))
    (hafter : Behind parts after) :
    (do
      let (value, rest) ← content
      match skipBlanks rest with
      | '\x7d' :: rest => return (value, rest)
      | [] => throw Fault.truncated
      | _ => throw Fault.malformed).toOption
      = (if parts = [] then value? else none).map fun value => (value, rest) := by
  rw [toOption_bind, hcontent]
  cases value? with
  | none => cases parts <;> rfl
  | some value =>
    rw [Option.map_some, Option.bind_some]
    cases hafter with
    | last hblanks =>
      simp only [skipBlanks_append hblanks]
      rfl
    | next hblanks hlead htext =>
      simp only [List.append_assoc, skipBlanks_append hblanks]
      rfl

theorem decodes_variant {known : List (String × Variant α)} {ways : List (String × Way α)}
    (h : List.Forall₂ (fun variant way => variant.1 = way.1 ∧ variant.2.Goes way.2) known ways) :
    Decodes (variant known) (asVariant ways) := by
  intro doc text hprints lead hlead rest hrest
  cases doc with
  | string pieces =>
    cases hprints
    rw [variant, atValue_append _ hlead, Quoted.spell_append, atValue_cons _ (by decide),
      if_pos rfl, toOption_bind, Quoted.read_pieces, asVariant]
    cases Quoted.meaning? pieces with
    | none => rfl
    | some name =>
      rcases lookup_of_forall₂ h name with ⟨hknown, hways⟩ | ⟨way, other, hknown, hways, hgoes⟩
      · simp [hknown, hways, bind, Except.bind, Option.bind]
      · simp [hknown, hways, bind, Except.bind, Option.bind, ← hgoes.bare]
        cases way.bare <;> rfl
  | map fields =>
    obtain ⟨written, body, rfl, rfl, hvalues, hbody⟩ := hprints.map_parts
    rw [variant, atValue_append _ hlead, List.cons_append, atValue_cons _ (by decide),
      if_neg (by decide), if_pos rfl, List.append_assoc]
    cases written with
    | nil =>
      cases hbody with
      | empty hblanks =>
        have hstring : (string "variant identifier" (body ++ '\x7d' :: rest)).toOption = none := by
          rw [string, atValue_append _ hblanks, atValue_cons _ (by decide), if_neg (by decide)]
          exact toOption_wrongType _ _
        rw [List.singleton_append, toOption_bind, hstring]
        rfl
    | cons field others =>
      cases hbody with
      | @parts start _ _ after hstart hafter =>
        rw [List.append_assoc, List.append_assoc, WrittenField.spelled_append, toOption_bind,
          string_spell _ _ hstart]
        rw [List.map_cons, WrittenField.field, asVariant_map]
        cases Quoted.meaning? field.key with
        | none => rfl
        | some name =>
          rw [Option.map_some, Option.bind_some, Option.bind_some]
          dsimp only
          rcases lookup_of_forall₂ h name with ⟨hknown, hways⟩ | ⟨way, other, hknown, hways, hgoes⟩
          · rw [hknown, hways]
            rfl
          · have hcloses : Closes (after ++ '\x7d' :: rest) :=
              hafter.closes (closes_closing .map rest)
            have hcontent :=
              hgoes.content (hvalues field List.mem_cons_self) field.after_blanks hcloses
            rw [hknown, hways]
            simp only [bind, Except.bind, Option.bind, colon_append field.before_blanks]
            rw [List.singleton_append]
            have hclosing := toOption_closing hcontent hafter
            simp only [List.map_eq_nil_iff] at hclosing ⊢
            exact hclosing
  | _ =>
    refine toOption_atValue hprints hlead rest ?_
    intro c tail hc
    rw [if_neg, if_neg]
    · rfl
    all_goals
      rintro rfl
      cases hc

end Variants

end Treeprint.Json
