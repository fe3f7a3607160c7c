import Treeprint.Proofs.Literals

/-!
# JSON values, and the texts they are printed as

A JSON value is a tree (`Doc`).  Its strings and numbers are kept as they are spelled, and the
fields of a map in the order in which they stand, with repeated keys among them: all of this makes a
difference to a reader.  What makes none is left out of the tree, the blanks between the parts, and
so one tree has many texts.  `Prints` relates a tree to each of them.

Whatever a tree is, `skipValue` passes over any of its texts to the end (`skipValue_prints`).  The
loop there does not follow the tree, it keeps the brackets that are open; so the statement about a
part of the tree is one about all open brackets there may be, and what a part takes is counted in
rounds.
-/

namespace Treeprint.Json

open Quoted (Piece)

/-- A JSON value. -/
inductive Doc
  | null
  | boolean (value : Bool)
  | number (n : Number.Numeral)
  | string (pieces : List Piece)
  | list (items : List Doc)
  | map (fields : List (List Piece × Doc))

/-! ### Texts -/

def Blanks (text : List Char) : Prop := ∀ c ∈ text, isBlank c = true

/-- What stands between one part and the bracket that closes, with the other parts in it. -/
inductive Behind : List (List Char) → List Char → Prop
  | last {blanks : List Char} (hblanks : Blanks blanks) : Behind [] blanks
  | next {blanks lead part : List Char} {parts : List (List Char)} {text : List Char}
      (hblanks : Blanks blanks) (hlead : Blanks lead) (htext : Behind parts text) :
      Behind (part :: parts) (blanks ++ ',' :: (lead ++ (part ++ text)))

/-- What stands between two brackets. -/
inductive Enclosed : List (List Char) → List Char → Prop
  | empty {blanks : List Char} (hblanks : Blanks blanks) : Enclosed [] blanks
  | parts {lead part : List Char} {parts : List (List Char)} {text : List Char}
      (hlead : Blanks lead) (htext : Behind parts text) :
      Enclosed (part :: parts) (lead ++ (part ++ text))

/-- A field of a map with the text of its value. -/
structure WrittenField where
  key : List Piece
  value : Doc
  text : List Char
  /-- The blanks in front of the colon. -/
  before : List Char
  /-- The blanks behind the colon. -/
  after : List Char
  before_blanks : Blanks before
  after_blanks : Blanks after

namespace WrittenField

def field (written : WrittenField) : List Piece × Doc := (written.key, written.value)

def spelled (written : WrittenField) : List Char :=
  Quoted.spell written.key ++ (written.before ++ ':' :: (written.after ++ written.text))

end WrittenField

/-- A text of a JSON value, without blanks at its ends. -/
inductive Prints : Doc → List Char → Prop
  | null : Prints .null ['n', 'u', 'l', 'l']
  | boolean (value : Bool) : Prints (.boolean value) (Persistence.writeBoolean value)
  | number (n : Number.Numeral) : Prints (.number n) n.text
  | string (pieces : List Piece) : Prints (.string pieces) (Quoted.spell pieces)
  | list {written : List (Doc × List Char)} {body : List Char}
      (hitems : ∀ item ∈ written, Prints item.1 item.2)
      (hbody : Enclosed (written.map Prod.snd) body) :
      Prints (.list (written.map Prod.fst)) ('[' :: (body ++ [']']))
  | map {written : List WrittenField} {body : List Char}
      (hvalues : ∀ field ∈ written, Prints field.value field.text)
      (hbody : Enclosed (written.map WrittenField.spelled) body) :
      Prints (.map (written.map WrittenField.field)) ('\x7b' :: (body ++ ['\x7d']))

/-- A whole text of a JSON value. -/
def IsTextOf (text : String) (doc : Doc) : Prop :=
  ∃ lead core trail, Blanks lead ∧ Prints doc core ∧ Blanks trail ∧
    text = String.ofList (lead ++ (core ++ trail))

/-! ### Blanks and first characters -/

@[simp] theorem blanks_nil : Blanks [] := by
  intro c hc
  cases hc

theorem skipBlanks_append {blanks : List Char} (h : Blanks blanks) (text : List Char) :
    skipBlanks (blanks ++ text) = skipBlanks text :=
  List.dropWhile_append_of_pos h

theorem skipBlanks_of_blanks {blanks : List Char} (h : Blanks blanks) : skipBlanks blanks = [] := by
  rw [← List.append_nil blanks, skipBlanks_append h]
  rfl

/-- The characters with which a value can begin. -/
def Doc.begins : Doc → Char → Bool
  | .null, c => c = 'n'
  | .boolean _, c => c = 't' ∨ c = 'f'
  | .number _, c => Number.opens c
  | .string _, c => c = '"'
  | .list _, c => c = '['
  | .map _, c => c = '\x7b'

/-- Only a number begins as one. -/
theorem Doc.exists_number {doc : Doc} {c : Char} (hbegins : doc.begins c = true)
    (hopens : Number.opens c = true) : ∃ n, doc = .number n := by
  cases doc with
  | number n => exact ⟨n, rfl⟩
  | _ =>
    simp only [begins, decide_eq_true_eq] at hbegins
    rcases hbegins with rfl | rfl <;> exact absurd hopens (by decide)

theorem Prints.begins {doc : Doc} {text : List Char} (h : Prints doc text) :
    ∃ c tail, text = c :: tail ∧ doc.begins c = true ∧ isBlank c = false := by
  cases h with
  | null => exact ⟨'n', _, rfl, rfl, rfl⟩
  | boolean value => cases value <;> exact ⟨_, _, rfl, rfl, rfl⟩
  | number n => exact n.exists_cons
  | string pieces => exact ⟨'"', _, rfl, rfl, rfl⟩
  | list => exact ⟨'[', _, rfl, rfl, rfl⟩
  | map => exact ⟨'\x7b', _, rfl, rfl, rfl⟩

theorem Prints.opens {doc : Doc} {text : List Char} (h : Prints doc text) :
    ∃ c tail, text = c :: tail ∧ Opens c := by
  obtain ⟨c, tail, hcons, hbegins, hblank⟩ := h.begins
  refine ⟨c, tail, hcons, hblank, ?_, ?_⟩ <;>
  · rintro rfl
    cases doc <;> cases hbegins

theorem closes_append {blanks : List Char} (h : Blanks blanks) {rest : List Char}
    (hrest : Closes rest) : Closes (blanks ++ rest) := by
  cases blanks with
  | nil => exact hrest
  | cons blank blanks =>
    intro c hc
    cases hc
    exact .inl (h blank List.mem_cons_self)

/-- What is behind a part does not belong to it. -/
theorem Behind.closes {parts : List (List Char)} {text : List Char} (h : Behind parts text)
    {rest : List Char} (hrest : Closes rest) : Closes (text ++ rest) := by
  cases h with
  | last hblanks => exact closes_append hblanks hrest
  | next hblanks hlead htext =>
    rw [List.append_assoc]
    exact closes_append hblanks (closes_cons (.inl rfl) _)

/-! ### Passing over a value -/

def Bracket.opening : Bracket → Char
  | sequence => '['
  | map => '\x7b'

def Bracket.closing : Bracket → Char
  | sequence => ']'
  | map => '\x7d'

theorem closes_closing (bracket : Bracket) (rest : List Char) :
    Closes (bracket.closing :: rest) := by
  cases bracket
  · exact closes_cons (.inr (.inl rfl)) rest
  · exact closes_cons (.inr (.inr rfl)) rest

/-- Go on with what stands behind a comma: a value, or a key and a value. -/
def skipEntry (bracket : Bracket) (rounds : Nat) (brackets : List Bracket) (text : List Char) :
    Except Fault (List Char) :=
  match bracket with
  | .sequence => skipOpen rounds false (.sequence :: brackets) text
  | .map =>
    match skipKey text with
    | .error fault => .error fault
    | .ok rest => skipOpen rounds false (.map :: brackets) rest

theorem skipOpen_append {lead : List Char} (h : Blanks lead) (rounds : Nat)
    (brackets : List Bracket) (text : List Char) :
    skipOpen rounds false brackets (lead ++ text) = skipOpen rounds false brackets text := by
  cases rounds with
  | zero => rfl
  | succ rounds => rw [skipOpen, skipOpen, skipBlanks_append h]

theorem skipEntry_append {lead : List Char} (h : Blanks lead) (bracket : Bracket) (rounds : Nat)
    (brackets : List Bracket) (text : List Char) :
    skipEntry bracket rounds brackets (lead ++ text) = skipEntry bracket rounds brackets text := by
  cases bracket
  · exact skipOpen_append h _ _ _
  · rw [skipEntry, skipEntry, skipKey, skipKey, skipBlanks_append h]

theorem skipOpen_comma (bracket : Bracket) (rounds : Nat) (brackets : List Bracket)
    {blanks : List Char} (h : Blanks blanks) (text : List Char) :
    skipOpen (rounds + 1) true (bracket :: brackets) (blanks ++ ',' :: text)
      = skipEntry bracket rounds brackets text := by
  cases bracket <;> rw [skipOpen, skipBlanks_append h, skipBlanks_cons (by decide)] <;> rfl

theorem skipOpen_closing (bracket : Bracket) (rounds : Nat) (brackets : List Bracket)
    {blanks : List Char} (h : Blanks blanks) (rest : List Char) :
    skipOpen (rounds + 1) true (bracket :: brackets) (blanks ++ bracket.closing :: rest)
      = skipOpen rounds true brackets rest := by
  cases bracket <;>
    rw [skipOpen, skipBlanks_append h, Bracket.closing, skipBlanks_cons (by decide)] <;> rfl

theorem skipOpen_empty (bracket : Bracket) (rounds : Nat) (brackets : List Bracket)
    {blanks : List Char} (h : Blanks blanks) (rest : List Char) :
    skipOpen (rounds + 1) false brackets
        (bracket.opening :: (blanks ++ bracket.closing :: rest))
      = skipOpen rounds true brackets rest := by
  cases bracket <;>
    rw [skipOpen, Bracket.opening, Bracket.closing, skipBlanks_cons (by decide)] <;>
    simp only [skipBlanks_append h] <;> rw [skipBlanks_cons (by decide)] <;> rfl

theorem skipOpen_opening {bracket : Bracket} {part : List Char}
    (hpart : ∃ c tail, part = c :: tail ∧ isBlank c = false ∧ c ≠ bracket.closing) (rounds : Nat)
    (brackets : List Bracket) {lead : List Char} (h : Blanks lead) (rest : List Char) :
    skipOpen (rounds + 1) false brackets (bracket.opening :: (lead ++ (part ++ rest)))
      = skipEntry bracket rounds brackets (part ++ rest) := by
  obtain ⟨c, tail, rfl, hblank, hclosing⟩ := hpart
  cases bracket <;>
    rw [skipOpen, Bracket.opening, skipBlanks_cons (by decide)] <;>
    simp only [skipBlanks_append h, List.cons_append, skipBlanks_cons hblank] <;>
    split
  · rename_i heq
    exact absurd (List.cons.inj heq).1 hclosing
  · rfl
  · rename_i heq
    exact absurd (List.cons.inj heq).1 hclosing
  · rfl

/-- A part that is passed over to its end, whatever stands behind it and whichever brackets are
    open.  A character takes two rounds at most. -/
def Passes (bracket : Bracket) (part : List Char) : Prop :=
  ∃ used, used + 1 ≤ 2 * part.length ∧ ∀ rounds brackets rest, Closes rest →
    skipEntry bracket (rounds + used + 1) brackets (part ++ rest)
      = skipOpen rounds true (bracket :: brackets) rest

theorem skipOpen_behind {bracket : Bracket} {parts : List (List Char)} {text : List Char}
    (h : Behind parts text) (hparts : ∀ part ∈ parts, Passes bracket part) :
    ∃ used, used ≤ 2 * text.length ∧ ∀ rounds brackets rest,
      skipOpen (rounds + used + 1) true (bracket :: brackets) (text ++ bracket.closing :: rest)
        = skipOpen rounds true brackets rest := by
  induction h with
  | last hblanks => exact ⟨0, Nat.zero_le _, fun rounds brackets rest =>
      skipOpen_closing bracket rounds brackets hblanks rest⟩
  | @next blanks lead part parts text hblanks hlead htext ih =>
    obtain ⟨first, hfirst, hpasses⟩ := hparts part List.mem_cons_self
    obtain ⟨others, hothers, hgoes⟩ := ih fun part hpart =>
      hparts part (List.mem_cons_of_mem _ hpart)
    refine ⟨others + 1 + first + 1, ?_, ?_⟩
    · simp only [List.length_append, List.length_cons]
      omega
    · intro rounds brackets rest
      have hcloses := htext.closes (closes_closing bracket rest)
      have hrounds : rounds + (others + 1 + first + 1) = rounds + others + 1 + first + 1 := by omega
      rw [hrounds, List.append_assoc, List.cons_append, List.append_assoc, List.append_assoc,
        skipOpen_comma bracket _ brackets hblanks, skipEntry_append hlead,
        ← hgoes rounds brackets rest]
      exact hpasses (rounds + others + 1) brackets _ hcloses

theorem skipOpen_enclosed {bracket : Bracket} {parts : List (List Char)} {body : List Char}
    (h : Enclosed parts body) (hparts : ∀ part ∈ parts, Passes bracket part ∧
      ∃ c tail, part = c :: tail ∧ isBlank c = false ∧ c ≠ bracket.closing) :
    ∃ used, used + 1 ≤ 2 * (body.length + 2) ∧ ∀ rounds brackets rest,
      skipOpen (rounds + used + 1) false brackets
          (bracket.opening :: (body ++ bracket.closing :: rest))
        = skipOpen rounds true brackets rest := by
  cases h with
  | empty hblanks => exact ⟨0, by omega, fun rounds brackets rest =>
      skipOpen_empty bracket rounds brackets hblanks rest⟩
  | @parts lead part parts text hlead htext =>
    obtain ⟨⟨first, hfirst, hpasses⟩, hpart⟩ := hparts part List.mem_cons_self
    obtain ⟨others, hothers, hgoes⟩ := skipOpen_behind htext fun part hpart =>
      (hparts part (List.mem_cons_of_mem _ hpart)).1
    refine ⟨others + 1 + first + 1, ?_, ?_⟩
    · simp only [List.length_append]
      omega
    · intro rounds brackets rest
      have hcloses := htext.closes (closes_closing bracket rest)
      have hrounds : rounds + (others + 1 + first + 1) = rounds + others + 1 + first + 1 := by omega
      rw [hrounds, List.append_assoc, List.append_assoc, skipOpen_opening hpart _ brackets hlead,
        ← hgoes rounds brackets rest]
      exact hpasses (rounds + others + 1) brackets _ hcloses

/-- A value that is no sequence and no map takes one round. -/
theorem skipOpen_scalar {text : List Char} {c : Char} {tail : List Char} (hcons : text = c :: tail)
    (hblank : isBlank c = false) (hlist : c ≠ '[') (hmap : c ≠ '\x7b') {rest : List Char}
    (hscalar : skipScalar (text ++ rest) = .ok rest) (rounds : Nat) (brackets : List Bracket) :
    skipOpen (rounds + 1) false brackets (text ++ rest) = skipOpen rounds true brackets rest := by
  subst hcons
  rw [List.cons_append] at hscalar ⊢
  rw [skipOpen, skipBlanks_cons hblank]
  split
  · rename_i heq
    exact absurd (List.cons.inj heq).1 hlist
  · rename_i heq
    exact absurd (List.cons.inj heq).1 hmap
  · rw [hscalar]

theorem skipScalar_numeral (n : Number.Numeral) {rest : List Char} (hrest : Closes rest) :
    skipScalar (n.text ++ rest) = .ok rest := by
  obtain ⟨c, tail, hcons, hopens, hblank⟩ := n.exists_cons
  have hskip := Number.skip_numeral n hrest
  rw [hcons, List.cons_append] at hskip ⊢
  rw [skipScalar, if_pos hopens, hskip]
  all_goals
    rintro rfl
    exact absurd hopens (by decide)

theorem colon_append {before : List Char} (h : Blanks before) (rest : List Char) :
    colon (before ++ ':' :: rest) = .ok rest := by
  rw [colon, skipBlanks_append h, skipBlanks_cons (by decide)]
  rfl

theorem skipKey_spelled (field : WrittenField) (rest : List Char) :
    skipKey (field.spelled ++ rest) = .ok (field.after ++ (field.text ++ rest)) := by
  have hspelled : field.spelled ++ rest = '"' :: (field.key.flatMap Piece.text
      ++ '"' :: (field.before ++ ':' :: (field.after ++ (field.text ++ rest)))) := by
    simp [WrittenField.spelled, Quoted.spell]
  rw [hspelled, skipKey, skipBlanks_cons (by decide)]
  simp only [Quoted.skip_pieces, colon_append field.before_blanks]

/-- A value is passed over to its end, whichever brackets are open. -/
theorem skipOpen_prints {doc : Doc} {text : List Char} (h : Prints doc text) :
    ∃ used, used + 1 ≤ 2 * text.length ∧ ∀ rounds brackets rest, Closes rest →
      skipOpen (rounds + used + 1) false brackets (text ++ rest)
        = skipOpen rounds true brackets rest := by
  induction h with
  | null => exact ⟨0, by decide, fun rounds brackets rest _ =>
      skipOpen_scalar rfl (by decide) (by decide) (by decide) rfl rounds brackets⟩
  | boolean value =>
    cases value <;>
    exact ⟨0, by decide, fun rounds brackets rest _ =>
      skipOpen_scalar rfl (by decide) (by decide) (by decide) rfl rounds brackets⟩
  | number n =>
    obtain ⟨c, tail, hcons, hopens, hblank⟩ := n.exists_cons
    refine ⟨0, ?_, fun rounds brackets rest hrest => ?_⟩
    · rw [hcons, List.length_cons]
      omega
    · have hscalar := skipScalar_numeral n hrest
      have hlist : c ≠ '[' := by
        rintro rfl
        exact absurd hopens (by decide)
      have hmap : c ≠ '\x7b' := by
        rintro rfl
        exact absurd hopens (by decide)
      exact skipOpen_scalar hcons hblank hlist hmap hscalar rounds brackets
  | string pieces =>
    refine ⟨0, ?_, fun rounds brackets rest _ => ?_⟩
    · rw [Quoted.spell, List.length_cons]
      omega
    · have hscalar : skipScalar (Quoted.spell pieces ++ rest) = .ok rest := by
        rw [Quoted.spell_append]
        exact Quoted.skip_pieces pieces rest
      exact skipOpen_scalar rfl (by decide) (by decide) (by decide) hscalar rounds brackets
  | @list written body hitems hbody ih =>
    have hentries : ∀ part ∈ written.map Prod.snd, Passes .sequence part ∧
        ∃ c tail, part = c :: tail ∧ isBlank c = false ∧ c ≠ Bracket.sequence.closing := by
      intro part hpart
      obtain ⟨item, hitem, rfl⟩ := List.mem_map.mp hpart
      obtain ⟨used, hused, hpasses⟩ := ih item hitem
      obtain ⟨c, tail, hcons, hblank, -, hclosing⟩ := (hitems item hitem).opens
      exact ⟨⟨used, hused, fun rounds brackets => hpasses rounds (.sequence :: brackets)⟩,
        c, tail, hcons, hblank, hclosing⟩
    obtain ⟨used, hused, hgoes⟩ := skipOpen_enclosed hbody hentries
    refine ⟨used, ?_, fun rounds brackets rest _ => ?_⟩
    · simpa using hused
    · rw [List.cons_append, List.append_assoc]
      exact hgoes rounds brackets rest
  | @map written body hvalues hbody ih =>
    have hentries : ∀ part ∈ written.map WrittenField.spelled, Passes .map part ∧
        ∃ c tail, part = c :: tail ∧ isBlank c = false ∧ c ≠ Bracket.map.closing := by
      intro part hpart
      obtain ⟨field, hfield, rfl⟩ := List.mem_map.mp hpart
      obtain ⟨used, hused, hpasses⟩ := ih field hfield
      refine ⟨⟨used, ?_, fun rounds brackets rest hrest => ?_⟩, '"', _, rfl, by decide, by decide⟩
      · simp only [WrittenField.spelled, List.length_append, List.length_cons]
        omega
      · rw [skipEntry, skipKey_spelled]
        exact (skipOpen_append field.after_blanks _ _ _).trans
          (hpasses rounds (.map :: brackets) rest hrest)
    obtain ⟨used, hused, hgoes⟩ := skipOpen_enclosed hbody hentries
    refine ⟨used, ?_, fun rounds brackets rest _ => ?_⟩
    · simpa using hused
    · rw [List.cons_append, List.append_assoc]
      exact hgoes rounds brackets rest

/-- **A value is passed over to its end, whatever it is and however it is printed.** -/
theorem skipValue_prints {doc : Doc} {text : List Char} (h : Prints doc text) {lead : List Char}
    (hlead : Blanks lead) {rest : List Char} (hrest : Closes rest) :
    skipValue (lead ++ (text ++ rest)) = .ok rest := by
  obtain ⟨used, hused, hpasses⟩ := skipOpen_prints h
  obtain ⟨spare, hspare⟩ : ∃ spare,
      2 * (lead ++ (text ++ rest)).length + 2 = spare + 1 + used + 1 := by
    refine ⟨2 * (lead ++ (text ++ rest)).length - used, ?_⟩
    simp only [List.length_append]
    omega
  rw [skipValue, hspare, skipOpen_append hlead, hpasses _ [] rest hrest]
  rfl

end Treeprint.Json
