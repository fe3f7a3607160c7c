import Treeprint.Persistence.Reading
import Treeprint.Proofs.Fields

/-!
# What is made of the stored forms

For each stored form there is a function that says what a JSON value stands for, if it stands for
anything: `asHashCode`, `asContent` and so on up to `asSnapshot`.  They are the readers without the
text, each of them put together as its reader is.  What a reader makes of any text of any JSON value
is what its function makes of the value (`decodes_snapshot`).
-/

namespace Treeprint.Persistence

open Json
open Quoted (Piece)

/-! ### Files -/

def asByte (doc : Doc) : Option UInt8 := (asNatural 255 doc).map UInt8.ofNat

def asWord64 (doc : Doc) : Option UInt64 := (asNatural Number.largest doc).map UInt64.ofNat

def asHashCode (doc : Doc) : Option HashCode := (asSequence asByte doc).map HashCode.mk

theorem decodes_hashCode : Decodes readHashCode asHashCode :=
  (decodes_sequence decodes_byte).map HashCode.mk

def hashSlot : Slot FileFields where
  name := "hash"
  Value := HashCode
  get := FileFields.hash
  put fields hash := { fields with hash := some hash }
  read := readHashCode
  decode := asHashCode
  get_put _ _ := rfl
  decodes := decodes_hashCode

def modifiedSlot : Slot FileFields where
  name := "last_modified"
  Value := UInt64
  get := FileFields.modified
  put fields modified := { fields with modified := some modified }
  read := word64
  decode := asWord64
  get_put _ _ := rfl
  decodes := decodes_word64

def fileLayout : Layout FileFields where
  slots := [hashSlot, modifiedSlot]
  apart := List.pairwise_pair.mpr ⟨by decide, fun _ _ => rfl, fun _ _ => rfl⟩

theorem fileFields_field? (name : String) :
    FileFields.field? name = (fileLayout.find? name).map Slot.field :=
  (fileLayout.map_field_find? name).symm

/-- The content of a file, from the fields of a map. -/
def fileOf (fields : List (List Piece × Doc)) : Option Content := do
  return .regularFile (← once "hash" asHashCode fields) (← once "last_modified" asWord64 fields)

theorem makes_file : fileLayout.Makes ⟨none, none⟩ FileFields.finish fileOf := by
  refine Layout.makes_two hashSlot modifiedSlot rfl rfl rfl ?_
  rintro ⟨hash, modified⟩
  cases hash <;> cases modified <;> rfl

def asFile : Doc → Option Content :=
  asRecord (nextItem asHashCode fun hash => nextItem asWord64 fun modified =>
    noItem (.regularFile hash modified)) fileOf

theorem decodes_file : Decodes readFile asFile := by
  refine decodes_record fileFields_field? ?_ makes_file _
  exact decodesFrom_nextItem decodes_hashCode (fun hash =>
    decodesFrom_nextItem decodes_word64 (fun modified => decodesFrom_noItem 1 _) _) _

/-! ### Fingerprints -/

def asContent : Doc → Option Content :=
  asVariant [("Missing", .unit .missing), ("Directory", .unit .directory),
    ("RegularFile", .holding asFile)]

theorem decodes_content : Decodes readContent asContent := by
  apply decodes_variant
  exact .cons ⟨rfl, Variant.goes_unit _⟩ (.cons ⟨rfl, Variant.goes_unit _⟩
    (.cons ⟨rfl, Variant.goes_holding _ decodes_file⟩ .nil))

def asPath : Doc → Option NormalizedPath :=
  asVariant [("Ignored", .unit .ignored),
    ("Path", .holding fun doc => (asString doc).map NormalizedPath.path)]

theorem decodes_path : Decodes readNormalizedPath asPath := by
  have htext := (decodes_string "a string").map NormalizedPath.path
  apply decodes_variant
  exact .cons ⟨rfl, Variant.goes_unit _⟩ (.cons ⟨rfl, Variant.goes_holding _ htext⟩ .nil)

def pathSlot : Slot FingerprintFields where
  name := "path"
  Value := NormalizedPath
  get := FingerprintFields.path
  put fields path := { fields with path := some path }
  read := readNormalizedPath
  decode := asPath
  get_put _ _ := rfl
  decodes := decodes_path

def contentSlot : Slot FingerprintFields where
  name := "content"
  Value := Content
  get := FingerprintFields.content
  put fields content := { fields with content := some content }
  read := readContent
  decode := asContent
  get_put _ _ := rfl
  decodes := decodes_content

def fingerprintLayout : Layout FingerprintFields where
  slots := [pathSlot, contentSlot]
  apart := List.pairwise_pair.mpr ⟨by decide, fun _ _ => rfl, fun _ _ => rfl⟩

theorem fingerprintFields_field? (name : String) :
    FingerprintFields.field? name = (fingerprintLayout.find? name).map Slot.field :=
  (fingerprintLayout.map_field_find? name).symm

/-- A fingerprint, from the fields of a map. -/
def fingerprintOf (fields : List (List Piece × Doc)) : Option Fingerprint := do
  return ⟨← once "path" asPath fields, ← once "content" asContent fields⟩

theorem makes_fingerprint :
    fingerprintLayout.Makes ⟨none, none⟩ FingerprintFields.finish fingerprintOf := by
  refine Layout.makes_two pathSlot contentSlot rfl rfl rfl ?_
  rintro ⟨path, content⟩
  cases path <;> cases content <;> rfl

def asFingerprint : Doc → Option Fingerprint :=
  asRecord (nextItem asPath fun path => nextItem asContent fun content => noItem ⟨path, content⟩)
    fingerprintOf

theorem decodes_fingerprint : Decodes readFingerprint asFingerprint := by
  refine decodes_record fingerprintFields_field? ?_ makes_fingerprint _
  exact decodesFrom_nextItem decodes_path (fun path =>
    decodesFrom_nextItem decodes_content (fun content => decodesFrom_noItem 1 _) _) _

/-! ### Snapshots -/

def asCompareStrategy : Doc → Option CompareStrategy :=
  asVariant (CompareStrategy.all.map fun strategy => (strategy.name, .unit strategy))

theorem decodes_compareStrategy : Decodes readCompareStrategy asCompareStrategy := by
  apply decodes_variant
  rw [List.forall₂_map_left_iff, List.forall₂_map_right_iff, List.forall₂_same]
  exact fun strategy _ => ⟨rfl, Variant.goes_unit strategy⟩

def asEntries : Doc → Option (List (String × Fingerprint)) :=
  asSequence (asPair asString asFingerprint)

theorem decodes_entries : Decodes readEntries asEntries :=
  decodes_sequence (decodes_pair (decodes_string "a string") decodes_fingerprint)

def entriesSlot : Slot SnapshotFields where
  name := "entries"
  Value := List (String × Fingerprint)
  get := SnapshotFields.entries
  put fields entries := { fields with entries := some entries }
  read := readEntries
  decode := asEntries
  get_put _ _ := rfl
  decodes := decodes_entries

def strategySlot : Slot SnapshotFields where
  name := "compare_strategy"
  Value := CompareStrategy
  get := SnapshotFields.compareStrategy
  put fields strategy := { fields with compareStrategy := some strategy }
  read := readCompareStrategy
  decode := asCompareStrategy
  get_put _ _ := rfl
  decodes := decodes_compareStrategy

def absoluteSlot : Slot SnapshotFields where
  name := "path_absolute"
  Value := Bool
  get := SnapshotFields.isAbsolute
  put fields isAbsolute := { fields with isAbsolute := some isAbsolute }
  read := boolean
  decode := asBoolean
  get_put _ _ := rfl
  decodes := decodes_boolean

def snapshotLayout : Layout SnapshotFields where
  slots := [entriesSlot, strategySlot, absoluteSlot]
  apart := by
    rw [List.pairwise_cons, List.forall_mem_cons, List.forall_mem_singleton, List.pairwise_pair]
    exact ⟨⟨⟨by decide, fun _ _ => rfl, fun _ _ => rfl⟩, by decide, fun _ _ => rfl, fun _ _ => rfl⟩,
      by decide, fun _ _ => rfl, fun _ _ => rfl⟩

theorem snapshotFields_field? (name : String) :
    SnapshotFields.field? name = (snapshotLayout.find? name).map Slot.field :=
  (snapshotLayout.map_field_find? name).symm

/-- A snapshot, from the fields of a map. -/
def snapshotOf (fields : List (List Piece × Doc)) : Option Snapshot := do
  return .ofEntries (← once "entries" asEntries fields)
    (← once "compare_strategy" asCompareStrategy fields) (← once "path_absolute" asBoolean fields)

theorem makes_snapshot :
    snapshotLayout.Makes ⟨none, none, none⟩ SnapshotFields.finish snapshotOf where
  blank := List.forall_mem_cons.mpr
    ⟨rfl, List.forall_mem_cons.mpr ⟨rfl, List.forall_mem_singleton.mpr rfl⟩⟩
  finish filled fields h := by
    have hentries : filled.entries = once "entries" asEntries fields := h entriesSlot (.head _)
    have hstrategy : filled.compareStrategy = once "compare_strategy" asCompareStrategy fields :=
      h strategySlot (.tail _ (.head _))
    have habsolute : filled.isAbsolute = once "path_absolute" asBoolean fields :=
      h absoluteSlot (.tail _ (.tail _ (.head _)))
    rw [snapshotOf, ← hentries, ← hstrategy, ← habsolute, SnapshotFields.finish]
    cases filled.entries <;> cases filled.compareStrategy <;> cases filled.isAbsolute <;> rfl
  missing := by
    refine List.forall_mem_cons.mpr ⟨fun fields h => ?_, List.forall_mem_cons.mpr
      ⟨fun fields h => ?_, List.forall_mem_singleton.mpr fun fields h => ?_⟩⟩
    · have hentries : once "entries" asEntries fields = none := h
      rw [snapshotOf, hentries]
      rfl
    · have hstrategy : once "compare_strategy" asCompareStrategy fields = none := h
      rw [snapshotOf, hstrategy]
      cases once "entries" asEntries fields <;> rfl
    · have habsolute : once "path_absolute" asBoolean fields = none := h
      rw [snapshotOf, habsolute]
      cases once "entries" asEntries fields <;>
        cases once "compare_strategy" asCompareStrategy fields <;> rfl

def asSnapshot : Doc → Option Snapshot :=
  asRecord (nextItem asEntries fun entries => nextItem asCompareStrategy fun strategy =>
    nextItem asBoolean fun isAbsolute => noItem (.ofEntries entries strategy isAbsolute)) snapshotOf

/-- **What is read from a JSON text is what its value stands for as a snapshot.** -/
theorem decodes_snapshot : Decodes readSnapshot asSnapshot := by
  refine decodes_record snapshotFields_field? ?_ makes_snapshot _
  exact decodesFrom_nextItem decodes_entries (fun entries =>
    decodesFrom_nextItem decodes_compareStrategy (fun strategy =>
      decodesFrom_nextItem decodes_boolean (fun isAbsolute => decodesFrom_noItem 2 _) _) _) _

end Treeprint.Persistence
