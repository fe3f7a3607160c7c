import Treeprint.Proofs.Completeness
import Treeprint.Proofs.Indexing
import Treeprint.Proofs.Restyling

/-!
# What is found in a snapshot

Wherever a snapshot comes from, its index is the one that its entries determine, so looking up finds
the last entry with a path.  A stored snapshot cannot bring an index of its own: a field with a name
that is not asked for makes no difference to what is read (`asSnapshot_filter`), be it called
`index` or anything else.
-/

namespace Treeprint

open Json Persistence
open Quoted (Piece)

/-! ### Fields that are not asked for -/

namespace Json

variable {names : List String}

/-- A field under a name, but not under one of these. -/
def isForeign (names : List String) (field : List Piece × Doc) : Bool :=
  (Quoted.meaning? field.1).any fun name => name ∉ names

theorem isForeign_of_meaning {key : List Piece} {name : String}
    (h : Quoted.meaning? key = some name) (doc : Doc) :
    isForeign names (key, doc) = decide (name ∉ names) := by
  rw [isForeign, h, Option.any_some]

theorem named_filter {name : String} (hname : name ∈ names) (fields : List (List Piece × Doc)) :
    named name (fields.filter fun field => !isForeign names field) = named name fields := by
  induction fields with
  | nil => rfl
  | cons field fields ih =>
    obtain ⟨key, doc⟩ := field
    by_cases hkey : Quoted.meaning? key = some name
    · have hkept : isForeign names (key, doc) = false := by
        rw [isForeign_of_meaning hkey, decide_eq_false (not_not_intro hname)]
      rw [List.filter_cons_of_pos (by rw [hkept, Bool.not_false]), named_cons, named_cons, ih]
    · rw [named_cons, if_neg hkey, List.filter_cons]
      split
      · rw [named_cons, if_neg hkey, ih]
      · exact ih

theorem once_filter {α : Type} {name : String} (hname : name ∈ names) (decode : Doc → Option α)
    (fields : List (List Piece × Doc)) :
    once name decode (fields.filter fun field => !isForeign names field)
      = once name decode fields := by
  rw [once, named_filter hname, once]

/-- A key that spells no name is never dropped. -/
theorem readable_filter (fields : List (List Piece × Doc)) :
    Readable (fields.filter fun field => !isForeign names field) ↔ Readable fields := by
  constructor
  · intro h field hfield
    by_contra hkey
    have hnone : Quoted.meaning? field.1 = none := Option.not_isSome_iff_eq_none.1 hkey
    have hkept : isForeign names field = false := by simp [isForeign, hnone]
    exact hkey (h field (List.mem_filter.2 ⟨hfield, by rw [hkept, Bool.not_false]⟩))
  · intro h field hfield
    exact h field (List.mem_filter.1 hfield).1

end Json

/-- The fields of a stored snapshot that are asked for. -/
def Persistence.fieldNames : List String := ["entries", "compare_strategy", "path_absolute"]

/-- **Other fields make no difference to what a map stands for.** -/
theorem Persistence.asSnapshot_filter (fields : List (List Piece × Doc)) :
    asSnapshot (.map (fields.filter fun field => !isForeign fieldNames field))
      = asSnapshot (.map fields) := by
  have hentries := once_filter (show "entries" ∈ fieldNames by decide) asEntries fields
  have hstrategy :=
    once_filter (show "compare_strategy" ∈ fieldNames by decide) asCompareStrategy fields
  have habsolute := once_filter (show "path_absolute" ∈ fieldNames by decide) asBoolean fields
  simp only [asSnapshot, asRecord, readable_filter, snapshotOf, hentries, hstrategy, habsolute]

/-! ### The main statement -/

/-- **Looking up a path in a snapshot finds the fingerprint of the last entry with the path**, and
    nothing if there is none; the index leads to the place of this entry, which is never beyond the
    entries.  What is listed and counted are the entries, and snapshots agree when paths,
    fingerprints without times and marks do.  A stored snapshot reads the same with fields that are
    not asked for and without them, and in one that a call has given each entry is found. -/
theorem lookup_finds_last :
    (∀ (snapshot : Snapshot) path,
      (∀ place, snapshot.index.get? path = some place ↔
        ∃ fingerprint, snapshot.LastAt path place fingerprint) ∧
      (∀ fingerprint, snapshot.get? path = some fingerprint ↔
        ∃ place, snapshot.LastAt path place fingerprint) ∧
      (snapshot.get? path = none ↔ ∀ fingerprint, (path, fingerprint) ∉ snapshot.entries)) ∧
    (∀ snapshot : Snapshot, snapshot.size = snapshot.entries.length ∧
      (snapshot.isEmpty = true ↔ snapshot.entries = []) ∧
      snapshot.paths = snapshot.entries.map Prod.fst) ∧
    (∀ x y : Snapshot, (x == y) = true ↔
      x.entries.map (fun entry => (entry.1, entry.2.untimed))
          = y.entries.map (fun entry => (entry.1, entry.2.untimed)) ∧
        x.compareStrategy = y.compareStrategy ∧ x.isAbsolute = y.isAbsolute) ∧
    (∀ fields text other, IsTextOf text (.map fields) →
      IsTextOf other (.map (fields.filter fun field => !isForeign fieldNames field)) →
      (readAll readSnapshot text).toOption = (readAll readSnapshot other).toOption) ∧
    ∀ (vantage : Vantage) recipe roots compareStrategy strategy ledger snapshot,
      ((vantage.snapshot recipe roots compareStrategy strategy).on ledger).1 = .ok snapshot →
      snapshot.paths.Nodup ∧
        ∀ entry ∈ snapshot.entries, snapshot.get? entry.1 = some entry.2 := by
  refine ⟨fun snapshot path =>
      ⟨fun _ => Snapshot.get?_index_iff, fun _ => Snapshot.get?_eq_some_iff, ?_⟩,
    fun snapshot => ⟨rfl, List.isEmpty_iff, rfl⟩, fun _ _ => Snapshot.beq_iff_untimed,
    fun fields text other htext hother => ?_, fun vantage _ _ _ _ _ snapshot hcall => ?_⟩
  · rw [Snapshot.get?_eq_none_iff, Snapshot.paths, List.mem_map]
    constructor
    · intro hpath fingerprint hentry
      exact hpath ⟨_, hentry, rfl⟩
    · rintro hnone ⟨⟨_, fingerprint⟩, hentry, rfl⟩
      exact hnone fingerprint hentry
  · rw [decodes_snapshot.readAll htext, decodes_snapshot.readAll hother, asSnapshot_filter]
  · have hnodup := Vantage.nodup_paths_of_snapshot hcall
    exact ⟨hnodup, fun entry hentry => Snapshot.get?_of_nodup hnodup hentry⟩

/-- Two entries with one path, the second of which counts. -/
def repeatedSnapshot : Snapshot :=
  .ofEntries [("a", ⟨.ignored, .missing⟩), ("a", ⟨.ignored, .directory⟩)] .ordered false

/-- With a forged index it is read like what is written, and each entry of a call is found. -/
theorem lookup_finds_last_forged :
    (readAll readSnapshot ("\x7b\"index\":\x7b\"a\":0\x7d,"
        ++ "\"entries\":[[\"a\",\x7b\"path\":\"Ignored\",\"content\":\"Missing\"\x7d],"
        ++ "[\"a\",\x7b\"path\":\"Ignored\",\"content\":\"Directory\"\x7d]],"
        ++ "\"compare_strategy\":\"Ordered\",\"path_absolute\":false\x7d")).toOption
      = (readAll readSnapshot (String.ofList (writeSnapshot repeatedSnapshot))).toOption ∧
    repeatedSnapshot.get? "a" = some ⟨.ignored, .directory⟩ ∧
    ∃ snapshot, ((besideVantage.snapshot .identity [.tree (Utf8.encode "/d")] .ordered
        .absolute).on ⟨.empty, .empty, []⟩).1 = .ok snapshot ∧
      snapshot.paths = ["/d/l", "/d/l/x", "/d/\uFFFD"] ∧ snapshot.paths.Nodup ∧
      ∀ entry ∈ snapshot.entries, snapshot.get? entry.1 = some entry.2 := by
  refine ⟨?_, ?_, ?_⟩
  · obtain ⟨index, hindex, hkeyIndex, -, hprintsIndex⟩ :=
      exists_writtenField "index" (@renders_holding "a" _ _ (renders_natural 0))
    obtain ⟨entries, hentries, hkeyEntries, -, hprintsEntries⟩ := exists_writtenField "entries"
      (@renders_sequence _ StoresEntry writeEntry repeatedSnapshot.entries
        fun entry _ => renders_entry (renders_fingerprint entry.2))
    obtain ⟨strategy, hstrategy, hkeyStrategy, -, hprintsStrategy⟩ :=
      exists_writtenField "compare_strategy" (renders_unit "Ordered")
    obtain ⟨absolute, habsolute, hkeyAbsolute, -, hprintsAbsolute⟩ :=
      exists_writtenField "path_absolute" (renders_boolean false)
    have hasked : ∀ field ∈ [entries, strategy, absolute], Prints field.value field.text :=
      List.forall_mem_cons.mpr ⟨hprintsEntries, List.forall_mem_cons.mpr
        ⟨hprintsStrategy, List.forall_mem_singleton.mpr hprintsAbsolute⟩⟩
    have hprints := @Prints.map [index, entries, strategy, absolute] _
      (List.forall_mem_cons.mpr ⟨hprintsIndex, hasked⟩) (enclosed_commas _)
    have hkept : [index.field, entries.field, strategy.field, absolute.field].filter
        (fun field => !isForeign fieldNames field)
          = [entries.field, strategy.field, absolute.field] := by
      have hforeign {field : WrittenField} {name : String}
          (h : Quoted.meaning? field.key = some name) :
          isForeign fieldNames field.field = decide (name ∉ fieldNames) :=
        isForeign_of_meaning h _
      simp only [List.filter_cons, List.filter_nil, hforeign hkeyIndex, hforeign hkeyEntries,
        hforeign hkeyStrategy, hforeign hkeyAbsolute]
      rfl
    refine lookup_finds_last.2.2.2.1 _ _ _ ⟨[], _, [], blanks_nil, hprints, blanks_nil, ?_⟩
      (hkept ▸ ⟨[], _, [], blanks_nil, Prints.map hasked (enclosed_commas _), blanks_nil, ?_⟩)
    · simp only [List.map_cons, List.map_nil, hindex, hentries, hstrategy, habsolute]
      decide +kernel
    · simp only [List.map_cons, List.map_nil, hentries, hstrategy, habsolute]
      decide +kernel
  · rw [(lookup_finds_last.1 _ "a").2.1]
    refine ⟨1, rfl, ?_⟩
    rintro later other hlater hfound
    obtain ⟨hlt, -⟩ := List.getElem?_eq_some_iff.1 hfound
    exact absurd hlt (Nat.not_lt.2 hlater)
  · have hcall : ((besideVantage.snapshot .identity [.tree (Utf8.encode "/d")] .ordered
        .absolute).on ⟨.empty, .empty, []⟩).1 = .ok (.ofEntries
          (besideEntries.map fun entry => (entry.path, ⟨.path entry.path, entry.content⟩)) .ordered
          true) := rfl
    exact ⟨_, hcall, rfl, lookup_finds_last.2.2.2.2 _ _ _ _ _ _ _ hcall⟩

end Treeprint
