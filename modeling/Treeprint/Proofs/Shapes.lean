import Treeprint.Proofs.Scalars
import Treeprint.Proofs.Text

/-!
# Written shapes are read back

Sequences, pairs, records and variants of values that are read back are read back themselves.  A
shape is written with a comma in front of each part but the first, so each loop of the reader is
followed from the second part on: what it still has to read is `parts.flatMap (',' :: ·)` and the
bracket that closes, and it takes one part a round.  A round takes at least one character, which is
why the rounds that a reader allows are enough.
-/

namespace Treeprint.Json

open Persistence

theorem closes_flatMap {parts : List (List Char)} {rest : List Char} (hrest : Closes rest) :
    Closes (parts.flatMap (',' :: ·) ++ rest) := by
  cases parts with
  | nil => exact hrest
  | cons part parts => exact closes_cons (.inl rfl) _

theorem length_le_flatMap (parts : List (List Char)) :
    parts.length ≤ (parts.flatMap (',' :: ·)).length := by
  induction parts with
  | nil => exact Nat.le_refl _
  | cons part parts ih =>
    rw [List.flatMap_cons, List.length_append, List.length_cons, List.length_cons]
    omega

/-! ### Sequences -/

section Sequences

variable {α β : Type} {element : Reader α} {spelled : List Char} {value : α}

theorem nextElement_first (h : Spells element spelled value) (rest : List Char) :
    nextElement true (spelled ++ rest) = .ok (some (spelled ++ rest)) := by
  obtain ⟨c, tail, rfl, hblank, hcomma, hbracket⟩ := h.opens
  rw [List.cons_append, nextElement, skipBlanks_cons hblank]
  split <;> simp_all

theorem nextElement_later (h : Spells element spelled value) (rest : List Char) :
    nextElement false (',' :: (spelled ++ rest)) = .ok (some (spelled ++ rest)) := by
  obtain ⟨c, tail, rfl, hblank, hcomma, hbracket⟩ := h.opens
  have hmark : isBlank ',' = false := by decide
  rw [List.cons_append, nextElement, skipBlanks_cons hmark]
  simp only [Bool.false_eq_true, if_false, skipBlanks_cons hblank]
  split <;> simp_all

/-- One round: an element is taken off, and the sequence goes on behind it. -/
theorem elements_step {isFirst : Bool} {text after : List Char}
    (hnext : nextElement isFirst text = .ok (some (spelled ++ after)))
    (h : Spells element spelled value) (hafter : Closes after) {rounds : Nat} {values : List α}
    {rest : List Char} (hrest : elements element rounds false after = .ok (values, rest)) :
    elements element (rounds + 1) isFirst text = .ok (value :: values, rest) := by
  rw [elements, hnext]
  simp only [h.reads after hafter, hrest]

variable {write : α → List Char} {values : List α}

theorem elements_later (h : ∀ value ∈ values, Spells element (write value) value) {rounds : Nat}
    (hrounds : values.length < rounds) (rest : List Char) :
    elements element rounds false ((values.map write).flatMap (',' :: ·) ++ ']' :: rest)
      = .ok (values, rest) := by
  induction values generalizing rounds with
  | nil =>
    obtain ⟨rounds, rfl⟩ := Nat.exists_eq_add_of_lt hrounds
    rfl
  | cons value values ih =>
    obtain ⟨rounds, rfl⟩ : ∃ n, rounds = n + 1 := ⟨rounds - 1, by omega⟩
    rw [List.length_cons] at hrounds
    have hvalue := h value List.mem_cons_self
    have hrest := ih (fun other hother => h other (List.mem_cons_of_mem _ hother))
      (Nat.lt_of_succ_lt_succ hrounds)
    rw [List.map_cons, List.flatMap_cons, List.append_assoc]
    exact elements_step (nextElement_later hvalue _) hvalue
      (closes_flatMap (closes_cons (.inr (.inl rfl)) rest)) hrest

/-- **A sequence of values that are read back is read back.** -/
theorem spells_sequence (h : ∀ value ∈ values, Spells element (write value) value) :
    Spells (sequence element) (writeSequence (values.map write)) values where
  opens := ⟨'[', _, rfl, by decide, by decide, by decide⟩
  reads rest _ := by
    have hclose : Closes (']' :: rest) := closes_cons (.inr (.inl rfl)) rest
    rw [writeSequence, List.cons_append, List.cons_append, List.append_assoc, sequence,
      atValue_cons _ (by decide), if_pos rfl]
    cases values with
    | nil => rfl
    | cons value values =>
      have hvalue := h value List.mem_cons_self
      rw [List.map_cons, commas, intercalate_cons_eq_flatMap, List.append_assoc]
      refine elements_step (nextElement_first hvalue _) hvalue (closes_flatMap hclose) ?_
      apply elements_later (fun other hother => h other (List.mem_cons_of_mem _ hother))
      have hlength := length_le_flatMap (values.map write)
      rw [List.length_map] at hlength
      simp only [List.length_append, List.length_cons]
      omega

theorem spells_pair {second : Reader β} {spelled' : List Char} {value' : β}
    (h : Spells element spelled value) (h' : Spells second spelled' value') :
    Spells (pair element second) (writeSequence [spelled, spelled']) (value, value') where
  opens := ⟨'[', _, rfl, by decide, by decide, by decide⟩
  reads rest _ := by
    have hclose : Closes (']' :: rest) := closes_cons (.inr (.inl rfl)) rest
    have hfirst : expectElement element 0 "a tuple of size 2"
        (spelled ++ ',' :: (spelled' ++ ']' :: rest))
          = .ok (value, ',' :: (spelled' ++ ']' :: rest)) := by
      rw [expectElement, decide_eq_true rfl, nextElement_first h]
      exact h.reads _ (closes_cons (.inl rfl) _)
    have hsecond : expectElement second 1 "a tuple of size 2" (',' :: (spelled' ++ ']' :: rest))
        = .ok (value', ']' :: rest) := by
      rw [expectElement, decide_eq_false Nat.one_ne_zero, nextElement_later h']
      exact h'.reads _ hclose
    have hwritten : writeSequence [spelled, spelled'] ++ rest
        = '[' :: (spelled ++ ',' :: (spelled' ++ ']' :: rest)) := by
      simp [writeSequence, commas]
    rw [hwritten, pair, atValue_cons _ (by decide), if_pos rfl, hfirst]
    simp only [bind, Except.bind, hsecond]
    rfl

end Sequences

/-! ### Records -/

section Records

variable {α β : Type} {field? : String → Option (FieldReader α)}

/-- Written fields that, read one after another, turn one incomplete record into another. -/
inductive Fills (field? : String → Option (FieldReader α)) :
    α → List (String × List Char) → α → Prop
  | nil (record : α) : Fills field? record [] record
  | cons {record next filled : α} {name : String} {spelled : List Char}
      {written : List (String × List Char)} {field : FieldReader α}
      (hfield : field? name = some field) (hset : field.isSet record = false)
      (hspells : Spells (field.read record) spelled next)
      (hrest : Fills field? next written filled) :
      Fills field? record ((name, spelled) :: written) filled

theorem nextKey_first (name : String) (rest : List Char) :
    nextKey true (Quoted.write name ++ rest) = .ok (some (name, rest)) := by
  rw [Quoted.write_append, nextKey, skipBlanks_cons (by decide)]
  simp [Quoted.read_escaped, Except.map]

theorem nextKey_later (name : String) (rest : List Char) :
    nextKey false (',' :: (Quoted.write name ++ rest)) = .ok (some (name, rest)) := by
  rw [Quoted.write_append, nextKey, skipBlanks_cons (by decide)]
  simp only [Bool.false_eq_true, if_false]
  rw [skipBlanks_cons (by decide)]
  simp [Quoted.read_escaped, Except.map]

theorem writeField_append (name : String) (spelled rest : List Char) :
    writeField (name, spelled) ++ rest = Quoted.write name ++ ':' :: (spelled ++ rest) := by
  simp [writeField]

/-- One round: a field is read, and the map goes on behind it. -/
theorem fields_step {isFirst : Bool} {text spelled after : List Char} {name : String}
    (hkey : nextKey isFirst text = .ok (some (name, ':' :: (spelled ++ after))))
    {field : FieldReader α} (hfield : field? name = some field) {record next : α}
    (hset : field.isSet record = false) (hspells : Spells (field.read record) spelled next)
    (hafter : Closes after) (rounds : Nat) :
    fields field? (rounds + 1) isFirst record text = fields field? rounds false next after := by
  have hcolon (rest : List Char) : colon (':' :: rest) = .ok rest := rfl
  rw [fields, hkey]
  simp only [hfield, hset, Bool.false_eq_true, if_false, hcolon, hspells.reads after hafter]

theorem fields_later {record filled : α} {written : List (String × List Char)}
    (h : Fills field? record written filled) {rounds : Nat} (hrounds : written.length < rounds)
    (rest : List Char) :
    fields field? rounds false record
        ((written.map writeField).flatMap (',' :: ·) ++ '\x7d' :: rest)
      = .ok (filled, '\x7d' :: rest) := by
  induction h generalizing rounds with
  | nil record =>
    obtain ⟨rounds, rfl⟩ := Nat.exists_eq_add_of_lt hrounds
    rfl
  | @cons record next filled name spelled written field hfield hset hspells _ ih =>
    obtain ⟨rounds, rfl⟩ : ∃ n, rounds = n + 1 := ⟨rounds - 1, by omega⟩
    rw [List.length_cons] at hrounds
    rw [List.map_cons, List.flatMap_cons, List.append_assoc, List.cons_append, writeField_append]
    rw [fields_step (nextKey_later name _) hfield hset hspells
      (closes_flatMap (closes_cons (.inr (.inr rfl)) rest))]
    exact ih (Nat.lt_of_succ_lt_succ hrounds)

/-- **A record is read back from its written fields.** -/
theorem spells_record {blank filled : α} {written : List (String × List Char)}
    (h : Fills field? blank written filled) {finish : α → Except Fault β} {value : β}
    (hfinish : finish filled = .ok value) (wanted : String) (inOrder : Reader β) :
    Spells (record wanted inOrder field? blank finish) (writeMap written) value where
  opens := ⟨'\x7b', _, rfl, by decide, by decide, by decide⟩
  reads rest _ := by
    have hfields : fields field? ((commas (written.map writeField) ++ '\x7d' :: rest).length + 1)
        true blank (commas (written.map writeField) ++ '\x7d' :: rest)
          = .ok (filled, '\x7d' :: rest) := by
      cases h with
      | nil => rfl
      | @cons _ next _ name spelled written field hfield hset hspells hrest =>
        have hlength := length_le_flatMap (written.map writeField)
        rw [List.length_map] at hlength
        rw [List.map_cons, commas, intercalate_cons_eq_flatMap, List.append_assoc,
          writeField_append]
        rw [fields_step (nextKey_first name _) hfield hset hspells
          (closes_flatMap (closes_cons (.inr (.inr rfl)) rest))]
        apply fields_later hrest
        simp only [List.length_append, List.length_cons]
        omega
    have hwritten : writeMap written ++ rest
        = '\x7b' :: (commas (written.map writeField) ++ '\x7d' :: rest) := by
      simp [writeMap]
    rw [hwritten, record, atValue_cons _ (by decide), if_neg (by decide), if_pos rfl, hfields]
    simp only [bind, Except.bind, hfinish]
    rfl

end Records

/-! ### Variants -/

section Variants

variable {α : Type} {known : List (String × Variant α)} {name : String} {way : Variant α}
  {value : α}

theorem spells_variant_bare (hknown : known.lookup name = some way) (hbare : way.bare = .ok value) :
    Spells (variant known) (Quoted.write name) value where
  opens := opens_write name
  reads rest _ := by
    rw [Quoted.write_append, variant, atValue_cons _ (by decide), if_pos rfl, Quoted.read_escaped]
    simp only [bind, Except.bind, hknown, hbare]
    rfl

theorem spells_variant_holding (hknown : known.lookup name = some way) {spelled : List Char}
    (h : Spells way.content spelled value) :
    Spells (variant known) (writeMap [(name, spelled)]) value where
  opens := ⟨'\x7b', _, rfl, by decide, by decide, by decide⟩
  reads rest _ := by
    have hwritten : writeMap [(name, spelled)] ++ rest
        = '\x7b' :: (Quoted.write name ++ ':' :: (spelled ++ '\x7d' :: rest)) := by
      simp [writeMap, commas, writeField_append]
    have hcolon (rest : List Char) : colon (':' :: rest) = .ok rest := rfl
    have hspelled := h.reads ('\x7d' :: rest) (closes_cons (.inr (.inr rfl)) rest)
    rw [hwritten, variant, atValue_cons _ (by decide), if_neg (by decide), if_pos rfl,
      string_write]
    simp only [bind, Except.bind, hknown, hcolon, hspelled]
    rfl

end Variants

end Treeprint.Json
