import Treeprint.Persistence.Writing
import Treeprint.Proofs.Loading

/-!
# The same snapshot in other words

A snapshot can be stored in more texts than the one that is written here.  A record may be the
sequence of its fields, or a map in which they stand in any order and among others; a variant that
holds nothing may be a map from its name to `null`; strings may be escaped; and there may be blanks
between any two parts.  `StoresSnapshot` are the JSON values that say the same in one of these ways,
whatever way is taken at each place.  They stand for the same snapshot (`asSnapshot_of_stores`), and
the text that is written here is one of theirs (`renders_snapshot`).
-/

namespace Treeprint.Persistence

open Json
open Quoted (Piece)

/-! ### The styles -/

/-- A text, with or without escapes. -/
def StoresString (text : String) (doc : Doc) : Prop :=
  ∃ pieces, doc = .string pieces ∧ Quoted.meaning? pieces = some text

def StoresBoolean (value : Bool) (doc : Doc) : Prop := doc = .boolean value

def StoresNatural (n : Nat) (doc : Doc) : Prop := doc = .number (.ofNat n)

/-- A variant that holds nothing. -/
inductive StoresUnit (name : String) : Doc → Prop
  | bare {pieces : List Piece} (h : Quoted.meaning? pieces = some name) :
    StoresUnit name (.string pieces)
  | null {key : List Piece} (h : Quoted.meaning? key = some name) :
    StoresUnit name (.map [(key, .null)])

/-- A variant that holds something. -/
def Holding (name : String) (P : Doc → Prop) (doc : Doc) : Prop :=
  ∃ key content, doc = .map [(key, content)] ∧ Quoted.meaning? key = some name ∧ P content

/-- A record: its fields one after another, or a map of them with other fields among them. -/
inductive StoresRecord (parts : List (String × (Doc → Prop))) : Doc → Prop
  | inOrder {items : List Doc} (h : List.Forall₂ (fun part item => part.2 item) parts items) :
    StoresRecord parts (.list items)
  | named {known others fields : List (List Piece × Doc)}
      (hknown : List.Forall₂ (fun part field =>
        Quoted.meaning? field.1 = some part.1 ∧ part.2 field.2) parts known)
      (hothers : ∀ field ∈ others, ∃ name,
        Quoted.meaning? field.1 = some name ∧ name ∉ parts.map Prod.fst)
      (hfields : fields.Perm (known ++ others)) : StoresRecord parts (.map fields)

def StoresHashCode (hash : HashCode) (doc : Doc) : Prop :=
  ∃ items, doc = .list items ∧
    List.Forall₂ (fun b item => StoresNatural b.toNat item) hash.bytes items

def StoresPath : NormalizedPath → Doc → Prop
  | .ignored => StoresUnit "Ignored"
  | .path text => Holding "Path" (StoresString text)

def StoresContent : Content → Doc → Prop
  | .missing => StoresUnit "Missing"
  | .directory => StoresUnit "Directory"
  | .regularFile hash modified => Holding "RegularFile" (StoresRecord
      [("hash", StoresHashCode hash), ("last_modified", StoresNatural modified.toNat)])

def StoresFingerprint (fingerprint : Fingerprint) : Doc → Prop :=
  StoresRecord
    [("path", StoresPath fingerprint.path), ("content", StoresContent fingerprint.content)]

def StoresEntry (entry : String × Fingerprint) (doc : Doc) : Prop :=
  ∃ path fingerprint, doc = .list [path, fingerprint] ∧ StoresString entry.1 path ∧
    StoresFingerprint entry.2 fingerprint

def StoresEntries (entries : List (String × Fingerprint)) (doc : Doc) : Prop :=
  ∃ items, doc = .list items ∧ List.Forall₂ StoresEntry entries items

def StoresSnapshot (snapshot : Snapshot) : Doc → Prop :=
  StoresRecord [("entries", StoresEntries snapshot.entries),
    ("compare_strategy", StoresUnit snapshot.compareStrategy.name),
    ("path_absolute", StoresBoolean snapshot.isAbsolute)]

/-! ### What each style stands for -/

theorem asString_of_stores {text : String} {doc : Doc} (h : StoresString text doc) :
    asString doc = some text := by
  obtain ⟨pieces, rfl, hmeans⟩ := h
  exact hmeans

theorem asBoolean_of_stores {value : Bool} {doc : Doc} (h : StoresBoolean value doc) :
    asBoolean doc = some value := by
  rw [h]
  rfl

theorem asNatural_of_stores {n limit : Nat} (hn : n ≤ limit) {doc : Doc}
    (h : StoresNatural n doc) : asNatural limit doc = some n := by
  rw [h]
  simp [asNatural, Number.Numeral.natural?, Number.Numeral.ofNat, Option.filter, hn]

theorem asByte_of_stores {b : UInt8} {doc : Doc} (h : StoresNatural b.toNat doc) :
    asByte doc = some b := by
  rw [asByte, asNatural_of_stores (Nat.le_of_lt_succ b.toNat_lt) h, Option.map_some,
    UInt8.ofNat_toNat]

theorem asWord64_of_stores {value : UInt64} {doc : Doc} (h : StoresNatural value.toNat doc) :
    asWord64 doc = some value := by
  have hvalue : value.toNat ≤ Number.largest := Nat.le_of_lt_succ value.toNat_lt
  rw [asWord64, asNatural_of_stores hvalue h, Option.map_some, UInt64.ofNat_toNat]

section Variants

variable {α : Type} {ways : List (String × Way α)} {name : String} {value : α} {doc : Doc}

theorem asVariant_of_unit (hways : ways.lookup name = some (.unit value))
    (h : StoresUnit name doc) : asVariant ways doc = some value := by
  cases h with
  | bare h => simp [asVariant, h, hways, Way.unit]
  | null h => simp [asVariant, h, hways, Way.unit, asNull]

theorem asVariant_of_holding {decode : Doc → Option α}
    (hways : ways.lookup name = some (.holding decode)) {P : Doc → Prop} {outcome : Option α}
    (houtcome : ∀ content, P content → decode content = outcome) (h : Holding name P doc) :
    asVariant ways doc = outcome := by
  obtain ⟨key, content, rfl, hkey, hcontent⟩ := h
  simp [asVariant, hkey, hways, Way.holding, houtcome content hcontent]

end Variants

theorem asPath_of_stores {path : NormalizedPath} {doc : Doc} (h : StoresPath path doc) :
    asPath doc = some path := by
  cases path with
  | ignored => exact asVariant_of_unit rfl h
  | path text =>
    refine asVariant_of_holding rfl (fun content hcontent => ?_) h
    rw [asString_of_stores hcontent, Option.map_some]

theorem asCompareStrategy_of_stores {strategy : CompareStrategy} {doc : Doc}
    (h : StoresUnit strategy.name doc) : asCompareStrategy doc = some strategy := by
  have hways : (CompareStrategy.all.map fun strategy =>
      (strategy.name, Way.unit strategy)).lookup strategy.name = some (.unit strategy) := by
    cases strategy <;> rfl
  exact asVariant_of_unit hways h

theorem mapM_of_forall₂ {α : Type} {decode : Doc → Option α} {values : List α} {items : List Doc}
    (h : List.Forall₂ (fun value item => decode item = some value) values items) :
    items.mapM decode = some values := by
  induction h with
  | nil => rfl
  | cons hvalue _ ih => simp [List.mapM_cons, hvalue, ih]

theorem asHashCode_of_stores {hash : HashCode} {doc : Doc} (h : StoresHashCode hash doc) :
    asHashCode doc = some hash := by
  obtain ⟨items, rfl, hitems⟩ := h
  have hbytes := mapM_of_forall₂ (hitems.imp fun _ _ => asByte_of_stores)
  rw [asHashCode, asSequence, hbytes, Option.map_some]

/-! #### Records -/

section Records

variable {parts : List (String × (Doc → Prop))} {known others fields : List (List Piece × Doc)}

theorem named_eq_nil {name : String}
    (h : ∀ field ∈ fields, ∃ other, Quoted.meaning? field.1 = some other ∧ other ≠ name) :
    named name fields = [] := by
  rw [named, List.filterMap_eq_nil_iff]
  intro field hfield
  obtain ⟨other, hother, hne⟩ := h field hfield
  rw [hother, if_neg fun heq => hne (Option.some.inj heq)]

/-- The names under which the known fields stand. -/
theorem exists_part_of_known (hknown : List.Forall₂ (fun part field =>
      Quoted.meaning? field.1 = some part.1 ∧ part.2 field.2) parts known) :
    ∀ field ∈ known, ∃ part ∈ parts, Quoted.meaning? field.1 = some part.1 := by
  induction hknown with
  | nil => exact List.forall_mem_nil _
  | @cons part field _ _ hfield _ ih =>
    refine List.forall_mem_cons.mpr ⟨⟨part, List.mem_cons_self, hfield.1⟩, fun other hother => ?_⟩
    obtain ⟨part, hpart, hname⟩ := ih other hother
    exact ⟨part, List.mem_cons_of_mem _ hpart, hname⟩

theorem named_of_known (hnodup : (parts.map Prod.fst).Nodup)
    (hknown : List.Forall₂ (fun part field =>
      Quoted.meaning? field.1 = some part.1 ∧ part.2 field.2) parts known) :
    ∀ part ∈ parts, ∃ doc, part.2 doc ∧ named part.1 known = [doc] := by
  induction hknown with
  | nil => exact List.forall_mem_nil _
  | @cons part field parts known hfield hknown ih =>
    obtain ⟨key, doc⟩ := field
    obtain ⟨hname, hdoc⟩ := hfield
    rw [List.map_cons, List.nodup_cons] at hnodup
    obtain ⟨hfresh, hnodup⟩ := hnodup
    refine List.forall_mem_cons.mpr ⟨⟨doc, hdoc, ?_⟩, fun other hother => ?_⟩
    · have hnone : named part.1 known = [] := by
        apply named_eq_nil
        intro field hfield
        obtain ⟨other, hother, hkey⟩ := exists_part_of_known hknown field hfield
        exact ⟨other.1, hkey, fun heq => hfresh (heq ▸ List.mem_map_of_mem hother)⟩
      rw [named_cons, if_pos hname, hnone]
    · have hne : part.1 ≠ other.1 := fun heq => hfresh (heq ▸ List.mem_map_of_mem hother)
      rw [named_cons, hname, if_neg fun heq => hne (Option.some.inj heq)]
      exact ih hnodup other hother

/-- Neither the order nor other fields make a difference to what stands under a known name. -/
theorem named_of_stores (hnodup : (parts.map Prod.fst).Nodup)
    (hknown : List.Forall₂ (fun part field =>
      Quoted.meaning? field.1 = some part.1 ∧ part.2 field.2) parts known)
    (hothers : ∀ field ∈ others, ∃ name,
      Quoted.meaning? field.1 = some name ∧ name ∉ parts.map Prod.fst)
    (hfields : fields.Perm (known ++ others)) :
    ∀ part ∈ parts, ∃ doc, part.2 doc ∧ named part.1 fields = [doc] := by
  intro part hpart
  obtain ⟨doc, hdoc, hnamed⟩ := named_of_known hnodup hknown part hpart
  have hnone : named part.1 others = [] := by
    apply named_eq_nil
    intro field hfield
    obtain ⟨name, hname, hunknown⟩ := hothers field hfield
    exact ⟨name, hname, fun heq => hunknown (heq ▸ List.mem_map_of_mem hpart)⟩
  have hperm : (named part.1 fields).Perm [doc] := by
    have hall : named part.1 (known ++ others) = [doc] := by
      rw [named, List.filterMap_append]
      exact (congrArg₂ _ hnamed hnone).trans (List.append_nil _)
    rw [← hall]
    exact hfields.filterMap _
  exact ⟨doc, hdoc, List.perm_singleton.mp hperm⟩

theorem readable_of_stores (hknown : List.Forall₂ (fun part field =>
      Quoted.meaning? field.1 = some part.1 ∧ part.2 field.2) parts known)
    (hothers : ∀ field ∈ others, ∃ name,
      Quoted.meaning? field.1 = some name ∧ name ∉ parts.map Prod.fst)
    (hfields : fields.Perm (known ++ others)) : Readable fields := by
  intro field hfield
  rw [Option.isSome_iff_exists]
  rcases List.mem_append.mp (hfields.mem_iff.mp hfield) with hfield | hfield
  · obtain ⟨part, -, hname⟩ := exists_part_of_known hknown field hfield
    exact ⟨part.1, hname⟩
  · obtain ⟨name, hname, -⟩ := hothers field hfield
    exact ⟨name, hname⟩

theorem asRecord_of_stores {β : Type} (hnodup : (parts.map Prod.fst).Nodup)
    {asItems : List Doc → Option β} {asFields : List (List Piece × Doc) → Option β} {value : β}
    (hitems : ∀ items, List.Forall₂ (fun part item => part.2 item) parts items →
      asItems items = some value)
    (hmap : ∀ fields, (∀ part ∈ parts, ∃ doc, part.2 doc ∧ named part.1 fields = [doc]) →
      asFields fields = some value)
    {doc : Doc} (h : StoresRecord parts doc) : asRecord asItems asFields doc = some value := by
  cases h with
  | inOrder h => exact hitems _ h
  | named hknown hothers hfields =>
    rw [asRecord, if_pos (readable_of_stores hknown hothers hfields)]
    exact hmap _ (named_of_stores hnodup hknown hothers hfields)

end Records

theorem asFile_of_stores {hash : HashCode} {modified : UInt64} {doc : Doc}
    (h : StoresRecord
      [("hash", StoresHashCode hash), ("last_modified", StoresNatural modified.toNat)] doc) :
    asFile doc = some (.regularFile hash modified) := by
  refine asRecord_of_stores (by simp) ?_ ?_ h
  · rintro items (_ | ⟨hhash, _ | ⟨hmodified, _ | _⟩⟩)
    simp [nextItem, noItem, asHashCode_of_stores hhash, asWord64_of_stores hmodified]
  · intro fields hfields
    rw [List.forall_mem_cons, List.forall_mem_singleton] at hfields
    obtain ⟨⟨hashDoc, hhash, hashNamed⟩, modifiedDoc, hmodified, modifiedNamed⟩ := hfields
    simp only [fileOf, once, hashNamed, modifiedNamed, asHashCode_of_stores hhash,
      asWord64_of_stores hmodified]
    rfl

theorem asContent_of_stores {content : Content} {doc : Doc} (h : StoresContent content doc) :
    asContent doc = some content := by
  cases content with
  | missing => exact asVariant_of_unit rfl h
  | directory => exact asVariant_of_unit rfl h
  | regularFile hash modified =>
    exact asVariant_of_holding rfl (fun _ hfile => asFile_of_stores hfile) h

theorem asFingerprint_of_stores {fingerprint : Fingerprint} {doc : Doc}
    (h : StoresFingerprint fingerprint doc) : asFingerprint doc = some fingerprint := by
  refine asRecord_of_stores (by simp) ?_ ?_ h
  · rintro items (_ | ⟨hpath, _ | ⟨hcontent, _ | _⟩⟩)
    simp [nextItem, noItem, asPath_of_stores hpath, asContent_of_stores hcontent]
  · intro fields hfields
    rw [List.forall_mem_cons, List.forall_mem_singleton] at hfields
    obtain ⟨⟨pathDoc, hpath, pathNamed⟩, contentDoc, hcontent, contentNamed⟩ := hfields
    simp only [fingerprintOf, once, pathNamed, contentNamed, asPath_of_stores hpath,
      asContent_of_stores hcontent]
    rfl

theorem asEntries_of_stores {entries : List (String × Fingerprint)} {doc : Doc}
    (h : StoresEntries entries doc) : asEntries doc = some entries := by
  obtain ⟨items, rfl, hitems⟩ := h
  apply mapM_of_forall₂
  refine hitems.imp fun entry item hentry => ?_
  obtain ⟨path, fingerprint, rfl, hpath, hfingerprint⟩ := hentry
  simp [asPair, nextItem, noItem, asString_of_stores hpath, asFingerprint_of_stores hfingerprint]

/-- **Whatever the style, the snapshot is the same.** -/
theorem asSnapshot_of_stores {snapshot : Snapshot} {doc : Doc} (h : StoresSnapshot snapshot doc) :
    asSnapshot doc = some snapshot := by
  have hindex : Snapshot.ofEntries snapshot.entries snapshot.compareStrategy snapshot.isAbsolute
      = snapshot := by
    obtain ⟨entries, strategy, isAbsolute, index, hindex⟩ := snapshot
    subst hindex
    rfl
  refine asRecord_of_stores (by simp) ?_ ?_ h
  · rintro items (_ | ⟨hentries, _ | ⟨hstrategy, _ | ⟨habsolute, _ | _⟩⟩⟩)
    simp [nextItem, noItem, asEntries_of_stores hentries, asCompareStrategy_of_stores hstrategy,
      asBoolean_of_stores habsolute, hindex]
  · intro fields hfields
    rw [List.forall_mem_cons, List.forall_mem_cons, List.forall_mem_singleton] at hfields
    obtain ⟨⟨entriesDoc, hentries, entriesNamed⟩, ⟨strategyDoc, hstrategy, strategyNamed⟩,
      absoluteDoc, habsolute, absoluteNamed⟩ := hfields
    simp only [snapshotOf, once, entriesNamed, strategyNamed, absoluteNamed,
      asEntries_of_stores hentries, asCompareStrategy_of_stores hstrategy,
      asBoolean_of_stores habsolute]
    exact congrArg some hindex

/-! ### What is written -/

/-- One of the values with a property is printed so. -/
def Renders (P : Doc → Prop) (text : List Char) : Prop := ∃ doc, P doc ∧ Prints doc text

theorem behind_flatMap (parts : List (List Char)) : Behind parts (parts.flatMap (',' :: ·)) := by
  induction parts with
  | nil => exact .last blanks_nil
  | cons part parts ih => exact .next blanks_nil blanks_nil ih

theorem enclosed_commas (parts : List (List Char)) : Enclosed parts (commas parts) := by
  cases parts with
  | nil => exact .empty blanks_nil
  | cons part parts =>
    rw [commas, intercalate_cons_eq_flatMap]
    exact .parts blanks_nil (behind_flatMap parts)

theorem renders_string (text : String) : Renders (StoresString text) (Quoted.write text) := by
  obtain ⟨pieces, hspell, hmeans⟩ := Quoted.exists_spell_eq_write text
  exact ⟨.string pieces, ⟨pieces, rfl, hmeans⟩, hspell ▸ Prints.string pieces⟩

theorem renders_unit (name : String) : Renders (StoresUnit name) (Quoted.write name) := by
  obtain ⟨pieces, hspell, hmeans⟩ := Quoted.exists_spell_eq_write name
  exact ⟨.string pieces, .bare hmeans, hspell ▸ Prints.string pieces⟩

theorem renders_natural (n : Nat) : Renders (StoresNatural n) (writeNatural n) := by
  have htext : (Number.Numeral.ofNat n).text = writeNatural n := by
    simp [Number.Numeral.text, Number.Numeral.tail, Number.Numeral.exponentText,
      Number.Numeral.ofNat, writeNatural]
  exact ⟨_, rfl, htext ▸ Prints.number (.ofNat n)⟩

theorem renders_boolean (value : Bool) : Renders (StoresBoolean value) (writeBoolean value) :=
  ⟨_, rfl, Prints.boolean value⟩

theorem renders_sequence {α : Type} {Stores : α → Doc → Prop} {write : α → List Char}
    {values : List α} (h : ∀ value ∈ values, Renders (Stores value) (write value)) :
    Renders (fun doc => ∃ items, doc = .list items ∧ List.Forall₂ Stores values items)
      (writeSequence (values.map write)) := by
  obtain ⟨written, hwritten, hstores, hprints⟩ : ∃ written : List (Doc × List Char),
      written.map Prod.snd = values.map write ∧
      List.Forall₂ Stores values (written.map Prod.fst) ∧
      ∀ item ∈ written, Prints item.1 item.2 := by
    induction values with
    | nil => exact ⟨[], rfl, .nil, List.forall_mem_nil _⟩
    | cons value values ih =>
      obtain ⟨hvalue, hvalues⟩ := List.forall_mem_cons.mp h
      obtain ⟨written, hwritten, hstores, hprints⟩ := ih hvalues
      obtain ⟨doc, hdoc, hprintsDoc⟩ := hvalue
      exact ⟨(doc, write value) :: written, by rw [List.map_cons, hwritten, List.map_cons],
        .cons hdoc hstores, List.forall_mem_cons.mpr ⟨hprintsDoc, hprints⟩⟩
  refine ⟨_, ⟨written.map Prod.fst, rfl, hstores⟩, ?_⟩
  rw [writeSequence, ← hwritten]
  exact Prints.list hprints (enclosed_commas _)

/-- A field is written without blanks. -/
theorem exists_writtenField (name : String) {P : Doc → Prop} {text : List Char}
    (h : Renders P text) : ∃ field : WrittenField, field.spelled = writeField (name, text) ∧
      Quoted.meaning? field.key = some name ∧ P field.value ∧ Prints field.value field.text := by
  obtain ⟨doc, hdoc, hprints⟩ := h
  obtain ⟨key, hspell, hmeans⟩ := Quoted.exists_spell_eq_write name
  refine ⟨⟨key, doc, text, [], [], blanks_nil, blanks_nil⟩, ?_, hmeans, hdoc, hprints⟩
  rw [WrittenField.spelled, hspell, writeField]
  rfl

theorem renders_record {parts : List (String × (Doc → Prop))}
    {fields : List (String × List Char)}
    (h : List.Forall₂ (fun part field => part.1 = field.1 ∧ Renders part.2 field.2) parts fields) :
    Renders (StoresRecord parts) (writeMap fields) := by
  obtain ⟨written, hwritten, hstores, hprints⟩ : ∃ written : List WrittenField,
      written.map WrittenField.spelled = fields.map writeField ∧
      List.Forall₂ (fun part field => Quoted.meaning? field.1 = some part.1 ∧ part.2 field.2) parts
        (written.map WrittenField.field) ∧
      ∀ field ∈ written, Prints field.value field.text := by
    induction h with
    | nil => exact ⟨[], rfl, .nil, List.forall_mem_nil _⟩
    | @cons part field parts fields hfield _ ih =>
      obtain ⟨written, hwritten, hstores, hprints⟩ := ih
      obtain ⟨first, hspelled, hname, hvalue, hfirst⟩ := exists_writtenField part.1 hfield.2
      refine ⟨first :: written, ?_, .cons ⟨hname, hvalue⟩ hstores,
        List.forall_mem_cons.mpr ⟨hfirst, hprints⟩⟩
      rw [List.map_cons, hspelled, hwritten, hfield.1, List.map_cons]
  refine ⟨_, .named hstores (List.forall_mem_nil _) (by rw [List.append_nil]), ?_⟩
  rw [writeMap, ← hwritten]
  exact Prints.map hprints (enclosed_commas _)

theorem renders_holding {name : String} {P : Doc → Prop} {text : List Char} (h : Renders P text) :
    Renders (Holding name P) (writeMap [(name, text)]) := by
  obtain ⟨field, hspelled, hname, hvalue, hprints⟩ := exists_writtenField name h
  refine ⟨_, ⟨field.key, field.value, rfl, hname, hvalue⟩, ?_⟩
  have hmap := @Prints.map [field] _ (List.forall_mem_singleton.mpr hprints) (enclosed_commas _)
  rwa [List.map_singleton, List.map_singleton, hspelled] at hmap

/-! The styles in which nothing is written here have texts as well. -/

theorem renders_unit_null (name : String) :
    Renders (StoresUnit name) (writeMap [(name, ['n', 'u', 'l', 'l'])]) := by
  have hnull : Renders (fun doc => doc = .null) ['n', 'u', 'l', 'l'] := ⟨_, rfl, .null⟩
  obtain ⟨doc, ⟨key, content, rfl, hkey, rfl⟩, hprints⟩ := renders_holding hnull
  exact ⟨_, .null hkey, hprints⟩

theorem renders_inOrder {parts : List (String × (Doc → Prop))} {texts : List (List Char)}
    (h : List.Forall₂ (fun part text => Renders part.2 text) parts texts) :
    Renders (StoresRecord parts) (writeSequence texts) := by
  obtain ⟨written, rfl, hstores, hprints⟩ : ∃ written : List (Doc × List Char),
      texts = written.map Prod.snd ∧
      List.Forall₂ (fun part item => part.2 item) parts (written.map Prod.fst) ∧
      ∀ item ∈ written, Prints item.1 item.2 := by
    induction h with
    | nil => exact ⟨[], rfl, .nil, List.forall_mem_nil _⟩
    | @cons part text _ _ hrenders _ ih =>
      obtain ⟨written, rfl, hstores, hprints⟩ := ih
      obtain ⟨doc, hdoc, hprintsDoc⟩ := hrenders
      exact ⟨(doc, text) :: written, rfl, .cons hdoc hstores,
        List.forall_mem_cons.mpr ⟨hprintsDoc, hprints⟩⟩
  exact ⟨_, .inOrder hstores, Prints.list hprints (enclosed_commas _)⟩

theorem renders_hashCode (hash : HashCode) :
    Renders (StoresHashCode hash) (writeHashCode hash) := by
  have hbyte (b : UInt8) : Renders (StoresNatural b.toNat) (writeNatural b.toNat) :=
    renders_natural b.toNat
  exact renders_sequence fun b _ => hbyte b

theorem renders_path (path : NormalizedPath) :
    Renders (StoresPath path) (writeNormalizedPath path) := by
  cases path with
  | ignored => exact renders_unit "Ignored"
  | path text => exact renders_holding (renders_string text)

theorem renders_content (content : Content) :
    Renders (StoresContent content) (writeContent content) := by
  cases content with
  | missing => exact renders_unit "Missing"
  | directory => exact renders_unit "Directory"
  | regularFile hash modified =>
    have hmodified := renders_natural modified.toNat
    exact renders_holding
      (renders_record (.cons ⟨rfl, renders_hashCode hash⟩ (.cons ⟨rfl, hmodified⟩ .nil)))

theorem renders_fingerprint (fingerprint : Fingerprint) :
    Renders (StoresFingerprint fingerprint) (writeFingerprint fingerprint) :=
  renders_record (.cons ⟨rfl, renders_path fingerprint.path⟩
    (.cons ⟨rfl, renders_content fingerprint.content⟩ .nil))

theorem renders_entry {entry : String × Fingerprint} {text : List Char}
    (h : Renders (StoresFingerprint entry.2) text) :
    Renders (StoresEntry entry) (writeSequence [Quoted.write entry.1, text]) := by
  obtain ⟨path, hpath, hprintsPath⟩ := renders_string entry.1
  obtain ⟨fingerprint, hfingerprint, hprints⟩ := h
  refine ⟨_, ⟨path, fingerprint, rfl, hpath, hfingerprint⟩, ?_⟩
  exact @Prints.list [(path, Quoted.write entry.1), (fingerprint, text)] _
    (List.forall_mem_cons.mpr ⟨hprintsPath, List.forall_mem_singleton.mpr hprints⟩)
    (enclosed_commas _)

/-- **The text that is written is one of those that say the same.** -/
theorem renders_snapshot (snapshot : Snapshot) :
    Renders (StoresSnapshot snapshot) (writeSnapshot snapshot) := by
  have hentries : Renders (StoresEntries snapshot.entries)
      (writeSequence (snapshot.entries.map writeEntry)) :=
    renders_sequence fun entry _ => renders_entry (renders_fingerprint entry.2)
  exact renders_record (.cons ⟨rfl, hentries⟩
    (.cons ⟨rfl, renders_unit snapshot.compareStrategy.name⟩
      (.cons ⟨rfl, renders_boolean snapshot.isAbsolute⟩ .nil)))

end Treeprint.Persistence
