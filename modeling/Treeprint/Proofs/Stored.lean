import Treeprint.Persistence.Reading
import Treeprint.Proofs.Shapes

/-!
# Storing loses nothing

Each stored form is read back by the reader for it, and so is a snapshot as a whole: all entries in
their order, repeated paths among them, and the modification times at which no comparison looks.
The index is not stored; since it is determined by the entries, the one that is built anew is the
one that was there, and every path is looked up as before.

The main statement is `readAll_of_stored`.
-/

namespace Treeprint.Persistence

open Json

/-! ### Fingerprints -/

theorem spells_hashCode (hash : HashCode) : Spells readHashCode (writeHashCode hash) hash :=
  (spells_sequence fun value _ => spells_byte value).map HashCode.mk

theorem spells_kind (kind : Kind) : Spells readKind (writeKind kind) kind := by
  have hknown : (Kind.all.map fun kind => (kind.name, Variant.unit kind)).lookup kind.name
      = some (.unit kind) := by cases kind <;> rfl
  exact spells_variant_bare hknown rfl

theorem spells_normalizedPath (path : NormalizedPath) :
    Spells readNormalizedPath (writeNormalizedPath path) path := by
  cases path with
  | ignored => exact spells_variant_bare rfl rfl
  | path text =>
    have htext := (spells_string "a string" text).map NormalizedPath.path
    exact spells_variant_holding rfl htext

theorem spells_file (hash : HashCode) (modified : UInt64) :
    Spells readFile (writeMap
      [("hash", writeHashCode hash), ("last_modified", writeNatural modified.toNat)])
      (.regularFile hash modified) := by
  have hfills : Fills FileFields.field? ⟨none, none⟩
      [("hash", writeHashCode hash), ("last_modified", writeNatural modified.toNat)]
      ⟨some hash, some modified⟩ := by
    have hhash := (spells_hashCode hash).map fun hash => FileFields.mk (some hash) none
    have hmodified := (spells_word64 modified).map fun modified =>
      FileFields.mk (some hash) (some modified)
    exact .cons rfl rfl hhash (.cons rfl rfl hmodified (.nil _))
  have hfinish : FileFields.finish ⟨some hash, some modified⟩ = .ok (.regularFile hash modified) :=
    rfl
  exact spells_record hfills hfinish _ _

theorem spells_content (content : Content) : Spells readContent (writeContent content) content := by
  cases content with
  | missing => exact spells_variant_bare rfl rfl
  | directory => exact spells_variant_bare rfl rfl
  | regularFile hash modified => exact spells_variant_holding rfl (spells_file hash modified)

theorem spells_fingerprint (fingerprint : Fingerprint) :
    Spells readFingerprint (writeFingerprint fingerprint) fingerprint := by
  obtain ⟨path, content⟩ := fingerprint
  have hfills : Fills FingerprintFields.field? ⟨none, none⟩
      [("path", writeNormalizedPath path), ("content", writeContent content)]
      ⟨some path, some content⟩ := by
    have hpath := (spells_normalizedPath path).map fun path => FingerprintFields.mk (some path) none
    have hcontent := (spells_content content).map fun content =>
      FingerprintFields.mk (some path) (some content)
    exact .cons rfl rfl hpath (.cons rfl rfl hcontent (.nil _))
  have hfinish : FingerprintFields.finish ⟨some path, some content⟩ = .ok ⟨path, content⟩ := rfl
  exact spells_record hfills hfinish _ _

/-! ### Snapshots -/

theorem spells_compareStrategy (strategy : CompareStrategy) :
    Spells readCompareStrategy (writeCompareStrategy strategy) strategy := by
  have hknown : (CompareStrategy.all.map fun strategy =>
      (strategy.name, Variant.unit strategy)).lookup strategy.name = some (.unit strategy) := by
    cases strategy <;> rfl
  exact spells_variant_bare hknown rfl

theorem spells_entries (entries : List (String × Fingerprint)) :
    Spells readEntries (writeSequence (entries.map writeEntry)) entries := by
  apply spells_sequence
  rintro ⟨path, fingerprint⟩ -
  exact spells_pair (spells_string "a string" path) (spells_fingerprint fingerprint)

theorem spells_snapshot (snapshot : Snapshot) :
    Spells readSnapshot (writeSnapshot snapshot) snapshot := by
  obtain ⟨entries, strategy, isAbsolute, index, hindex⟩ := snapshot
  have hfills : Fills SnapshotFields.field? ⟨none, none, none⟩
      [("entries", writeSequence (entries.map writeEntry)),
        ("compare_strategy", writeCompareStrategy strategy),
        ("path_absolute", writeBoolean isAbsolute)]
      ⟨some entries, some strategy, some isAbsolute⟩ := by
    have hentries := (spells_entries entries).map fun entries =>
      SnapshotFields.mk (some entries) none none
    have hstrategy := (spells_compareStrategy strategy).map fun strategy =>
      SnapshotFields.mk (some entries) (some strategy) none
    have habsolute := (spells_boolean isAbsolute).map fun isAbsolute =>
      SnapshotFields.mk (some entries) (some strategy) (some isAbsolute)
    exact .cons rfl rfl hentries (.cons rfl rfl hstrategy (.cons rfl rfl habsolute (.nil _)))
  -- the index is not stored, and is the one of the entries
  have hfinish : SnapshotFields.finish ⟨some entries, some strategy, some isAbsolute⟩
      = .ok ⟨entries, strategy, isAbsolute, index, hindex⟩ := by
    subst hindex
    rfl
  exact spells_record hfills hfinish _ _

/-- **What is stored is read back as it was**: a snapshot with its index and all modification
    times, and each of the parts that are stored by themselves. -/
theorem readAll_of_stored :
    (∀ snapshot, readAll readSnapshot (String.ofList (writeSnapshot snapshot)) = .ok snapshot) ∧
    (∀ snapshot path,
      (readAll readSnapshot (String.ofList (writeSnapshot snapshot))).map (·.get? path)
        = .ok (snapshot.get? path)) ∧
    (∀ fingerprint,
      readAll readFingerprint (String.ofList (writeFingerprint fingerprint)) = .ok fingerprint) ∧
    (∀ content, readAll readContent (String.ofList (writeContent content)) = .ok content) ∧
    (∀ path,
      readAll readNormalizedPath (String.ofList (writeNormalizedPath path)) = .ok path) ∧
    (∀ hash, readAll readHashCode (String.ofList (writeHashCode hash)) = .ok hash) ∧
    (∀ strategy,
      readAll readCompareStrategy (String.ofList (writeCompareStrategy strategy)) = .ok strategy) ∧
    (∀ kind, readAll readKind (String.ofList (writeKind kind)) = .ok kind) := by
  refine ⟨?_, ?_, ?_, ?_, ?_, ?_, ?_, ?_⟩
  · intro snapshot
    exact (spells_snapshot snapshot).readAll
  · intro snapshot path
    rw [(spells_snapshot snapshot).readAll]
    rfl
  · intro fingerprint
    exact (spells_fingerprint fingerprint).readAll
  · intro content
    exact (spells_content content).readAll
  · intro path
    exact (spells_normalizedPath path).readAll
  · intro hash
    exact (spells_hashCode hash).readAll
  · intro strategy
    exact (spells_compareStrategy strategy).readAll
  · intro kind
    exact (spells_kind kind).readAll

end Treeprint.Persistence
