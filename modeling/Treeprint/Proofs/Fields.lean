import Mathlib.Data.List.Pairwise
import Treeprint.Proofs.Decoding

/-!
# Records that are read from maps

A record is read from a map in a loop that takes the fields as they come: a field that is known is
put into the record, unless it is there already, and one that is not known is passed over.  So the
order of the fields should not matter, and what is not known should not either.  It is shown by
looking at one field at a time.  A field has a place in the record (`Slot`) that no other field
touches, and what gets there depends on the values that stand under its name, and on nothing else
(`fill_settle`).  In a record that is complete each field stands under its name once, and what it
holds is `once`.
-/

namespace Treeprint.Json

open Quoted (Piece)

/-! ### Fields of a value -/

/-- The values that stand under a name, in their order. -/
def named (name : String) (fields : List (List Piece × Doc)) : List Doc :=
  fields.filterMap fun field => if Quoted.meaning? field.1 = some name then some field.2 else none

/-- What is made of the one value that stands under a name. -/
def once {α : Type} (name : String) (decode : Doc → Option α) (fields : List (List Piece × Doc)) :
    Option α :=
  match named name fields with
  | [doc] => decode doc
  | _ => none

/-- Every key spells a name. -/
def Readable (fields : List (List Piece × Doc)) : Prop :=
  ∀ field ∈ fields, (Quoted.meaning? field.1).isSome = true

instance (fields : List (List Piece × Doc)) : Decidable (Readable fields) :=
  inferInstanceAs (Decidable (∀ field ∈ fields, _))

theorem named_cons (name : String) (key : List Piece) (doc : Doc)
    (fields : List (List Piece × Doc)) : named name ((key, doc) :: fields)
      = if Quoted.meaning? key = some name then doc :: named name fields
        else named name fields := by
  rw [named, List.filterMap_cons]
  by_cases hkey : Quoted.meaning? key = some name
  · simp [hkey, named]
  · simp [hkey, named]

/-! ### Places in a record -/

/-- A place in a record that is not complete yet, and what is read into it. -/
structure Slot (σ : Type) where
  name : String
  Value : Type
  get : σ → Option Value
  put : σ → Value → σ
  read : Reader Value
  decode : Doc → Option Value
  get_put : ∀ record value, get (put record value) = some value
  decodes : Decodes read decode

namespace Slot

variable {σ : Type}

def field (slot : Slot σ) : FieldReader σ where
  isSet record := (slot.get record).isSome
  read record text := (slot.read text).map fun result => (slot.put record result.1, result.2)

/-- Put the value that a field holds into a record, unless there is one already. -/
def fill (slot : Slot σ) (record : σ) (doc : Doc) : Option σ :=
  if (slot.get record).isSome then none else (slot.decode doc).map (slot.put record)

theorem fill_eq_some {slot : Slot σ} {record next : σ} {doc : Doc} :
    slot.fill record doc = some next ↔ slot.get record = none ∧
      ∃ value, slot.decode doc = some value ∧ slot.put record value = next := by
  rw [fill]
  cases slot.get record with
  | none => simp
  | some value => simp

/-- Two places with different names, neither of which is touched when something is put into the
    other. -/
structure Apart (slot other : Slot σ) : Prop where
  name : slot.name ≠ other.name
  get_put : ∀ record value, slot.get (other.put record value) = slot.get record
  get_put_other : ∀ record value, other.get (slot.put record value) = other.get record

instance : Std.Symm (@Slot.Apart σ) where
  symm _ _ h := ⟨h.name.symm, h.get_put_other, h.get_put⟩

end Slot

/-- The places of a record. -/
structure Layout (σ : Type) where
  slots : List (Slot σ)
  apart : slots.Pairwise Slot.Apart

namespace Layout

variable {σ : Type} (layout : Layout σ)

def find? (name : String) : Option (Slot σ) := layout.slots.find? fun slot => slot.name = name

/-- The fields of a map put into a record, one after another. -/
def fill : σ → List (List Piece × Doc) → Option σ
  | record, [] => some record
  | record, (key, doc) :: fields => do
    let name ← Quoted.meaning? key
    match layout.find? name with
    | some slot => fill (← slot.fill record doc) fields
    | none => fill record fields

variable {layout} {slot other : Slot σ}

theorem apart_of_ne (hslot : slot ∈ layout.slots) (hother : other ∈ layout.slots)
    (hne : slot ≠ other) : slot.Apart other :=
  layout.apart.forall hslot hother hne

theorem eq_of_name (hslot : slot ∈ layout.slots) (hother : other ∈ layout.slots)
    (hname : slot.name = other.name) : slot = other := by
  by_contra hne
  exact (apart_of_ne hslot hother hne).name hname

theorem get_put_of_ne (hslot : slot ∈ layout.slots) (hother : other ∈ layout.slots)
    (hname : slot.name ≠ other.name) (record : σ) (value : other.Value) :
    slot.get (other.put record value) = slot.get record := by
  have hne : slot ≠ other := fun heq => hname (congrArg Slot.name heq)
  exact (apart_of_ne hslot hother hne).get_put record value

theorem find?_eq_some {name : String} :
    layout.find? name = some slot ↔ slot ∈ layout.slots ∧ slot.name = name := by
  rw [find?]
  constructor
  · intro h
    exact ⟨List.mem_of_find?_eq_some h, by simpa using List.find?_some h⟩
  · rintro ⟨hslot, rfl⟩
    have hsome : (layout.slots.find? fun other => other.name = slot.name).isSome := by
      rw [List.find?_isSome]
      exact ⟨slot, hslot, by simp⟩
    obtain ⟨other, hother⟩ := Option.isSome_iff_exists.mp hsome
    have hname : other.name = slot.name := by simpa using List.find?_some hother
    rw [hother, eq_of_name (List.mem_of_find?_eq_some hother) hslot hname]

theorem find?_eq_none {name : String} :
    layout.find? name = none ↔ ∀ slot ∈ layout.slots, slot.name ≠ name := by
  simp [find?]

/-- The places tried one after another. -/
theorem map_field_find? (layout : Layout σ) (name : String) :
    (layout.find? name).map Slot.field = layout.slots.foldr
      (fun slot others => if name = slot.name then some slot.field else others) none := by
  rw [find?]
  induction layout.slots with
  | nil => rfl
  | cons slot slots ih =>
    rw [List.find?_cons, List.foldr_cons]
    by_cases hname : slot.name = name
    · simp [hname]
    · simpa [hname, Ne.symm hname] using ih

/-! ### What gets to one place -/

/-- What the values that stand under the name of a place make of its content. -/
def settle {α : Type} (decode : Doc → Option α) : Option α → List Doc → Option (Option α)
  | content, [] => some content
  | some _, _ :: _ => none
  | none, doc :: docs => (decode doc).bind fun value => settle decode (some value) docs

theorem fill_cons (record : σ) (key : List Piece) (doc : Doc) (fields : List (List Piece × Doc)) :
    layout.fill record ((key, doc) :: fields) = (Quoted.meaning? key).bind fun name =>
      match layout.find? name with
      | some slot => (slot.fill record doc).bind fun next => layout.fill next fields
      | none => layout.fill record fields := rfl

/-- **What gets to a place in a record** depends on what is there and on the values under its
    name. -/
theorem fill_settle {record filled : σ} {fields : List (List Piece × Doc)}
    (h : layout.fill record fields = some filled) {slot : Slot σ} (hslot : slot ∈ layout.slots) :
    settle slot.decode (slot.get record) (named slot.name fields) = some (slot.get filled) := by
  induction fields generalizing record with
  | nil =>
    cases h
    rfl
  | cons field fields ih =>
    obtain ⟨key, doc⟩ := field
    rw [fill_cons, Option.bind_eq_some_iff] at h
    obtain ⟨name, hkey, h⟩ := h
    rw [named_cons, hkey]
    cases hfind : layout.find? name with
    | none =>
      rw [hfind] at h
      have hne : some name ≠ some slot.name := fun heq =>
        find?_eq_none.mp hfind slot hslot (Option.some.inj heq).symm
      rw [if_neg hne]
      exact ih h
    | some other =>
      simp only [hfind, Option.bind_eq_some_iff] at h
      obtain ⟨next, hnext, h⟩ := h
      obtain ⟨hother, rfl⟩ := find?_eq_some.mp hfind
      obtain ⟨hempty, value, hvalue, rfl⟩ := Slot.fill_eq_some.mp hnext
      by_cases hname : slot.name = other.name
      · obtain rfl := eq_of_name hslot hother hname
        have hothers := ih h
        rw [slot.get_put] at hothers
        rw [if_pos rfl, hempty, settle, hvalue]
        exact hothers
      · have hothers := ih h
        rw [get_put_of_ne hslot hother hname] at hothers
        rw [if_neg fun heq => hname (Option.some.inj heq).symm]
        exact hothers

theorem readable_of_fill {record filled : σ} {fields : List (List Piece × Doc)}
    (h : layout.fill record fields = some filled) : Readable fields := by
  induction fields generalizing record with
  | nil =>
    intro field hfield
    cases hfield
  | cons field fields ih =>
    obtain ⟨key, doc⟩ := field
    rw [fill_cons, Option.bind_eq_some_iff] at h
    obtain ⟨name, hkey, h⟩ := h
    have hothers : Readable fields := by
      cases hfind : layout.find? name with
      | none =>
        rw [hfind] at h
        exact ih h
      | some other =>
        simp only [hfind, Option.bind_eq_some_iff] at h
        obtain ⟨next, -, h⟩ := h
        exact ih h
    exact List.forall_mem_cons.mpr ⟨Option.isSome_iff_exists.mpr ⟨name, hkey⟩, hothers⟩

/-- A record is filled if nothing is in the way of any of its places. -/
theorem isSome_fill {record : σ} {fields : List (List Piece × Doc)} (hreadable : Readable fields)
    (h : ∀ slot ∈ layout.slots,
      (settle slot.decode (slot.get record) (named slot.name fields)).isSome = true) :
    (layout.fill record fields).isSome = true := by
  induction fields generalizing record with
  | nil => rfl
  | cons field fields ih =>
    obtain ⟨key, doc⟩ := field
    obtain ⟨hkey, hothers⟩ := List.forall_mem_cons.mp hreadable
    obtain ⟨name, hname⟩ := Option.isSome_iff_exists.mp hkey
    simp only [named_cons, hname, Option.some.injEq] at h
    rw [fill_cons, hname, Option.bind_some]
    cases hfind : layout.find? name with
    | none =>
      apply ih hothers
      intro slot hslot
      have hslot' := h slot hslot
      rwa [if_neg fun heq => find?_eq_none.mp hfind slot hslot heq.symm] at hslot'
    | some other =>
      obtain ⟨hother, rfl⟩ := find?_eq_some.mp hfind
      have hplace := h other hother
      rw [if_pos rfl] at hplace
      cases hempty : other.get record with
      | some value =>
        rw [hempty, settle] at hplace
        cases hplace
      | none =>
        rw [hempty, settle] at hplace
        cases hvalue : other.decode doc with
        | none =>
          rw [hvalue] at hplace
          cases hplace
        | some value =>
          have hnext : other.fill record doc = some (other.put record value) :=
            Slot.fill_eq_some.mpr ⟨hempty, value, hvalue, rfl⟩
          dsimp only
          rw [hnext, Option.bind_some]
          apply ih hothers
          intro slot hslot
          by_cases hsame : slot.name = other.name
          · obtain rfl := eq_of_name hslot hother hsame
            rw [slot.get_put]
            rwa [hvalue] at hplace
          · have hslot' := h slot hslot
            rw [if_neg fun heq => hsame heq.symm] at hslot'
            rwa [get_put_of_ne hslot hother hsame]

theorem settle_none {α : Type} (decode : Doc → Option α) (docs : List Doc) :
    settle decode none docs = match docs with
      | [] => some none
      | [doc] => (decode doc).map some
      | _ => none := by
  match docs with
  | [] => rfl
  | [doc] => cases hvalue : decode doc <;> simp [settle, hvalue]
  | doc :: _ :: _ => cases hvalue : decode doc <;> simp [settle, hvalue]

/-- What a place holds in the end, if there was nothing in it at first. -/
theorem get_of_fill {blank filled : σ} {fields : List (List Piece × Doc)}
    (h : layout.fill blank fields = some filled) {slot : Slot σ} (hslot : slot ∈ layout.slots)
    (hblank : slot.get blank = none) : slot.get filled = once slot.name slot.decode fields := by
  have hsettle := fill_settle h hslot
  rw [hblank, settle_none] at hsettle
  rw [once]
  split at hsettle
  · rename_i hnamed
    rw [hnamed]
    exact (Option.some.inj hsettle).symm
  · rename_i doc hnamed
    rw [hnamed]
    obtain ⟨value, hvalue, hget⟩ := Option.map_eq_some_iff.mp hsettle
    dsimp only
    rw [hvalue, hget]
  · cases hsettle

theorem isSome_fill_of_once {blank : σ} {fields : List (List Piece × Doc)}
    (hreadable : Readable fields) (hblank : ∀ slot ∈ layout.slots, slot.get blank = none)
    (h : ∀ slot ∈ layout.slots, (once slot.name slot.decode fields).isSome = true) :
    (layout.fill blank fields).isSome = true := by
  apply isSome_fill hreadable
  intro slot hslot
  have honce := h slot hslot
  rw [once] at honce
  rw [hblank slot hslot, settle_none]
  split at honce
  · rename_i doc hnamed
    simpa [hnamed] using honce
  · cases honce

end Layout

/-! ### The loop -/

section Loop

variable {σ : Type} {layout : Layout σ}

theorem nextKey_nil {isFirst : Bool} {text : List Char} (h : Ahead isFirst [] text)
    (rest : List Char) : nextKey isFirst (text ++ '\x7d' :: rest) = .ok none := by
  rw [nextKey, skipBlanks_append h.blanks, skipBlanks_cons (by decide)]
  rfl

theorem nextKey_cons {isFirst : Bool} {field : WrittenField} {text : List Char}
    {parts : List (List Char)} (h : Ahead isFirst (field.spelled :: parts) text) :
    ∃ after, Behind parts after ∧ ∀ rest,
      (nextKey isFirst (text ++ '\x7d' :: rest)).toOption
        = (Quoted.meaning? field.key).map fun name => some (name,
            field.before ++ ':' :: (field.after ++ (field.text ++ (after ++ '\x7d' :: rest)))) := by
  have hstart {lead : List Char} (hlead : Blanks lead) (rest : List Char) :
      skipBlanks (lead ++ (field.spelled ++ rest)) = '"' :: (field.key.flatMap Piece.text ++ '"' ::
        (field.before ++ ':' :: (field.after ++ (field.text ++ rest)))) := by
    rw [skipBlanks_append hlead, WrittenField.spelled_append, Quoted.spell_append,
      skipBlanks_cons (by decide)]
  cases h with
  | first h =>
    cases h with
    | @parts lead _ _ after hlead htext =>
      refine ⟨after, htext, fun rest => ?_⟩
      rw [List.append_assoc, List.append_assoc, nextKey, hstart hlead]
      simp [toOption_map, Quoted.read_pieces]
      rfl
  | later h =>
    cases h with
    | @next blanks lead _ _ after hblanks hlead htext =>
      refine ⟨after, htext, fun rest => ?_⟩
      have hmark : isBlank ',' = false := by decide
      rw [List.append_assoc, List.cons_append, List.append_assoc, List.append_assoc, nextKey,
        skipBlanks_append hblanks, skipBlanks_cons hmark]
      simp [hstart hlead, toOption_map, Quoted.read_pieces]
      rfl

variable {field? : String → Option (FieldReader σ)}

/-- **The loop puts the fields into the record**, and stops in front of the bracket. -/
theorem fields_ahead (hfield : ∀ name, field? name = (layout.find? name).map Slot.field)
    {written : List WrittenField} (hvalues : ∀ field ∈ written, Prints field.value field.text)
    {isFirst : Bool} {text : List Char} (h : Ahead isFirst (written.map WrittenField.spelled) text)
    {rounds : Nat} (hrounds : written.length < rounds) (record : σ) (rest : List Char) :
    ∃ final, Blanks final ∧ (fields field? rounds isFirst record (text ++ '\x7d' :: rest)).toOption
      = (layout.fill record (written.map WrittenField.field)).map
          fun filled => (filled, final ++ '\x7d' :: rest) := by
  induction written generalizing isFirst text rounds record with
  | nil =>
    obtain ⟨rounds, rfl⟩ : ∃ n, rounds = n + 1 := ⟨rounds - 1, by omega⟩
    refine ⟨text, h.blanks, ?_⟩
    rw [fields, nextKey_nil h]
    rfl
  | cons field others ih =>
    obtain ⟨rounds, rfl⟩ : ∃ n, rounds = n + 1 := ⟨rounds - 1, by omega⟩
    obtain ⟨hvalue, hothers⟩ := List.forall_mem_cons.mp hvalues
    obtain ⟨after, hafter, hnext⟩ := nextKey_cons h
    have hcloses : Closes (after ++ '\x7d' :: rest) := hafter.closes (closes_closing .map rest)
    have hnext := hnext rest
    have hgoes := ih hothers (.later hafter) (Nat.lt_of_succ_lt_succ hrounds)
    rw [List.map_cons, WrittenField.field, Layout.fill_cons]
    cases hkey : Quoted.meaning? field.key with
    | none =>
      rw [hkey] at hnext
      obtain ⟨fault, hfault⟩ := exists_error_of_toOption hnext
      refine ⟨[], blanks_nil, ?_⟩
      rw [fields, hfault]
      rfl
    | some name =>
      rw [hkey] at hnext
      have hnext := eq_ok_of_toOption hnext
      rw [fields, hnext, Option.bind_some]
      dsimp only
      rw [hfield]
      cases hfind : layout.find? name with
      | none =>
        dsimp only [Option.map_none]
        rw [colon_append field.before_blanks]
        dsimp only
        rw [skipValue_prints hvalue field.after_blanks hcloses]
        exact hgoes record
      | some slot =>
        dsimp only [Option.map_some]
        cases hplace : slot.get record with
        | some value =>
          have hset : slot.field.isSet record = true := Option.isSome_iff_exists.mpr ⟨value, hplace⟩
          have hfill : slot.fill record field.value = none := by rw [Slot.fill, hplace]; rfl
          refine ⟨[], blanks_nil, ?_⟩
          rw [if_pos hset, hfill]
          rfl
        | none =>
          have hset : slot.field.isSet record = false := by simp [Slot.field, hplace]
          have hread := slot.decodes hvalue field.after_blanks hcloses
          rw [hset, if_neg Bool.false_ne_true, colon_append field.before_blanks]
          dsimp only [Slot.field]
          cases hdecode : slot.decode field.value with
          | none =>
            rw [hdecode] at hread
            obtain ⟨fault, hfault⟩ := exists_error_of_toOption hread
            have hfill : slot.fill record field.value = none := by
              rw [Slot.fill, hplace, hdecode]
              rfl
            refine ⟨[], blanks_nil, ?_⟩
            rw [hfault, hfill]
            rfl
          | some value =>
            rw [hdecode] at hread
            have hfill := Slot.fill_eq_some.mpr ⟨hplace, value, hdecode, rfl⟩
            rw [eq_ok_of_toOption hread, hfill]
            exact hgoes (slot.put record value)

end Loop

/-! ### Records -/

section Records

variable {σ β : Type} {layout : Layout σ}

/-- What is made of a record: of the sequence of its fields, or of a map. -/
def asRecord (asItems : List Doc → Option β) (asFields : List (List Piece × Doc) → Option β) :
    Doc → Option β
  | .list items => asItems items
  | .map fields => if Readable fields then asFields fields else none
  | _ => none

/-- How a record is made up of its fields, each of which has to be there once. -/
structure Layout.Makes (layout : Layout σ) (blank : σ) (finish : σ → Except Fault β)
    (asFields : List (List Piece × Doc) → Option β) : Prop where
  blank : ∀ slot ∈ layout.slots, slot.get blank = none
  finish : ∀ filled fields,
    (∀ slot ∈ layout.slots, slot.get filled = once slot.name slot.decode fields) →
      (finish filled).toOption = asFields fields
  missing : ∀ slot ∈ layout.slots, ∀ fields, once slot.name slot.decode fields = none →
    asFields fields = none

theorem Layout.makes_two (slot other : Slot σ) (hlayout : layout.slots = [slot, other]) {blank : σ}
    (hslot : slot.get blank = none) (hother : other.get blank = none) {finish : σ → Except Fault β}
    {f : slot.Value → other.Value → β} (hfinish : ∀ filled, (finish filled).toOption
      = do return f (← slot.get filled) (← other.get filled)) :
    layout.Makes blank finish fun fields => do
      return f (← once slot.name slot.decode fields) (← once other.name other.decode fields) where
  blank := by
    rw [hlayout]
    exact List.forall_mem_cons.mpr ⟨hslot, List.forall_mem_singleton.mpr hother⟩
  finish filled fields h := by
    rw [hlayout, List.forall_mem_cons, List.forall_mem_singleton] at h
    rw [hfinish, h.1, h.2]
  missing := by
    rw [hlayout, List.forall_mem_cons, List.forall_mem_singleton]
    refine ⟨fun fields h => ?_, fun fields h => ?_⟩
    · rw [h]
      rfl
    · rw [h]
      cases once slot.name slot.decode fields <;> rfl

theorem Layout.Makes.fill {blank : σ} {finish : σ → Except Fault β}
    {asFields : List (List Piece × Doc) → Option β} (h : layout.Makes blank finish asFields)
    (fields : List (List Piece × Doc)) :
    ((layout.fill blank fields).bind fun filled => (finish filled).toOption)
      = if Readable fields then asFields fields else none := by
  cases hfill : layout.fill blank fields with
  | some filled =>
    rw [if_pos (Layout.readable_of_fill hfill), Option.bind_some]
    exact h.finish filled fields fun slot hslot =>
      Layout.get_of_fill hfill hslot (h.blank slot hslot)
  | none =>
    rw [Option.bind_none]
    split
    · rename_i hreadable
      by_contra hsome
      have hall : ∀ slot ∈ layout.slots, (once slot.name slot.decode fields).isSome = true := by
        intro slot hslot
        rw [Option.isSome_iff_ne_none]
        exact fun hnone => hsome (h.missing slot hslot fields hnone).symm
      have hfilled := Layout.isSome_fill_of_once hreadable h.blank hall
      rw [hfill] at hfilled
      cases hfilled
    · rfl

/-- **What is made of a record**, however it is written. -/
theorem decodes_record {field? : String → Option (FieldReader σ)}
    (hfield : ∀ name, field? name = (layout.find? name).map Slot.field) {inOrder : Reader β}
    {asItems : List Doc → Option β} (hitems : DecodesFrom 0 inOrder asItems) {blank : σ}
    {finish : σ → Except Fault β} {asFields : List (List Piece × Doc) → Option β}
    (hmakes : layout.Makes blank finish asFields) (wanted : String) :
    Decodes (record wanted inOrder field? blank finish) (asRecord asItems asFields) := by
  intro doc text hprints lead hlead rest hrest
  cases doc with
  | list items =>
    obtain ⟨parts, body, rfl, hparts, hbody⟩ := hprints.list_parts
    rw [record, atValue_append _ hlead, List.cons_append, atValue_cons _ (by decide), if_pos rfl,
      List.append_assoc]
    exact hitems hparts (.first hbody) rest
  | map fields =>
    obtain ⟨written, body, rfl, rfl, hvalues, hbody⟩ := hprints.map_parts
    rw [record, atValue_append _ hlead, List.cons_append, atValue_cons _ (by decide),
      if_neg (by decide), if_pos rfl, List.append_assoc, asRecord, ← hmakes.fill]
    have hrounds : written.length < (body ++ ('\x7d' :: rest)).length + 1 := by
      have hlength := hbody.length_le (by
        intro part hpart
        obtain ⟨field, -, rfl⟩ := List.mem_map.mp hpart
        exact List.cons_ne_nil _ _)
      rw [List.length_map] at hlength
      rw [List.length_append]
      omega
    obtain ⟨final, hfinal, hread⟩ := fields_ahead hfield hvalues (.first hbody) hrounds blank rest
    rw [List.singleton_append, toOption_bind, hread]
    cases layout.fill blank (written.map WrittenField.field) with
    | none => rfl
    | some filled =>
      rw [Option.map_some, Option.bind_some, Option.bind_some, toOption_bind]
      cases finish filled with
      | error fault => rfl
      | ok value =>
        rw [toOption_ok, Option.bind_some, Option.map_some, toOption_bind, endMap_append hfinal]
        rfl
  | _ =>
    refine toOption_atValue hprints hlead rest ?_
    intro c tail hc
    rw [if_neg, if_neg]
    · exact toOption_wrongType _ _
    all_goals
      rintro rfl
      cases hc

end Records

end Treeprint.Json
