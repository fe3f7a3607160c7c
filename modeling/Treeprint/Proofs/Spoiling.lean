import Treeprint.Proofs.Restyling

/-!
# What is not read as a snapshot

The ways to store a snapshot are many, but a value in which a field is missing, or stands twice, or
in which a number is none that fits is none of them.  `SpoiledSnapshot` are the JSON values that
have such a place where a snapshot is read from; of the rest of them nothing is asked.

The main statement is `restyled_snapshot_is_read`: a snapshot in any style is read as what it was,
and a spoiled one is not read at all.
-/

namespace Treeprint.Persistence

open Json
open Quoted (Piece)

/-! ### Spoiled values -/

/-- A number that is no whole number from zero to a limit. -/
def SpoiledNatural (limit : Nat) (doc : Doc) : Prop :=
  ∃ n, doc = .number n ∧ (n.isNegative = true ∨ n.fraction.isSome = true ∨
    n.exponent.isSome = true ∨ limit < n.whole)

/-- A record of which a field is missing, is there more than once, or is spoiled itself. -/
inductive SpoiledRecord (parts : List (String × (Doc → Prop))) : Doc → Prop
  | missing {fields : List (List Piece × Doc)} {part : String × (Doc → Prop)} (hpart : part ∈ parts)
      (h : named part.1 fields = []) : SpoiledRecord parts (.map fields)
  | repeated {fields : List (List Piece × Doc)} {part : String × (Doc → Prop)}
      (hpart : part ∈ parts) (h : 2 ≤ (named part.1 fields).length) :
      SpoiledRecord parts (.map fields)
  | field {fields : List (List Piece × Doc)} {part : String × (Doc → Prop)} (hpart : part ∈ parts)
      {doc : Doc} (hdoc : doc ∈ named part.1 fields) (h : part.2 doc) :
      SpoiledRecord parts (.map fields)
  | item {items : List Doc} {part : String × (Doc → Prop)} {doc : Doc}
      (hitem : (part, doc) ∈ parts.zip items) (h : part.2 doc) : SpoiledRecord parts (.list items)

def SpoiledHashCode (doc : Doc) : Prop :=
  ∃ items, doc = .list items ∧ ∃ item ∈ items, SpoiledNatural 255 item

def SpoiledFile : Doc → Prop :=
  SpoiledRecord [("hash", SpoiledHashCode), ("last_modified", SpoiledNatural Number.largest)]

def SpoiledContent : Doc → Prop := Holding "RegularFile" SpoiledFile

/-- A path alone cannot be spoiled. -/
def SpoiledFingerprint : Doc → Prop :=
  SpoiledRecord [("path", fun _ => False), ("content", SpoiledContent)]

def SpoiledEntries (doc : Doc) : Prop :=
  ∃ items, doc = .list items ∧ ∃ path fingerprint, .list [path, fingerprint] ∈ items ∧
    SpoiledFingerprint fingerprint

def SpoiledSnapshot : Doc → Prop :=
  SpoiledRecord [("entries", SpoiledEntries), ("compare_strategy", fun _ => False),
    ("path_absolute", fun _ => False)]

/-! ### Nothing is made of them -/

theorem asNatural_of_spoiled {limit : Nat} {doc : Doc} (h : SpoiledNatural limit doc) :
    asNatural limit doc = none := by
  obtain ⟨n, rfl, h⟩ := h
  rw [asNatural, Number.Numeral.natural?]
  split
  · rfl
  · rename_i hwhole
    have hlimit : limit < n.whole := by
      rcases h with h | h | h | h
      · exact absurd (.inl h) hwhole
      · exact absurd (.inr (.inl h)) hwhole
      · exact absurd (.inr (.inr h)) hwhole
      · exact h
    simp [Option.filter, hlimit]

theorem mapM_eq_none {α : Type} {decode : Doc → Option α} {items : List Doc} {item : Doc}
    (hitem : item ∈ items) (h : decode item = none) : items.mapM decode = none := by
  induction items with
  | nil => cases hitem
  | cons first items ih =>
    rw [List.mapM_cons]
    rcases List.mem_cons.mp hitem with rfl | hitem
    · rw [h]
      rfl
    · rw [ih hitem]
      cases decode first <;> rfl

theorem asHashCode_of_spoiled {doc : Doc} (h : SpoiledHashCode doc) : asHashCode doc = none := by
  obtain ⟨items, rfl, item, hitem, h⟩ := h
  have hbyte : asByte item = none := by rw [asByte, asNatural_of_spoiled h, Option.map_none]
  rw [asHashCode, asSequence, mapM_eq_none hitem hbyte, Option.map_none]

theorem asWord64_of_spoiled {doc : Doc} (h : SpoiledNatural Number.largest doc) :
    asWord64 doc = none := by
  rw [asWord64, asNatural_of_spoiled h, Option.map_none]

section Records

variable {σ α β : Type} {parts : List (String × (Doc → Prop))}

/-- An item where a spoiled part is expected. -/
def SpoiledItems (parts : List (String × (Doc → Prop))) (items : List Doc) : Prop :=
  ∃ part doc, (part, doc) ∈ parts.zip items ∧ part.2 doc

theorem noItem_of_spoiled (value : β) (items : List Doc) (h : SpoiledItems [] items) :
    noItem value items = none := by
  obtain ⟨part, doc, hitem, -⟩ := h
  cases hitem

theorem nextItem_of_spoiled {part : String × (Doc → Prop)} {decode : Doc → Option α}
    (hpart : ∀ doc, part.2 doc → decode doc = none) {others : α → List Doc → Option β}
    (hothers : ∀ value items, SpoiledItems parts items → others value items = none)
    (items : List Doc) (h : SpoiledItems (part :: parts) items) :
    nextItem decode others items = none := by
  cases items with
  | nil => rfl
  | cons item items =>
    obtain ⟨other, doc, hitem, hspoiled⟩ := h
    rw [nextItem]
    rcases List.mem_cons.mp hitem with heq | hitem
    · cases heq
      rw [hpart item hspoiled, Option.bind_none]
    · cases decode item with
      | none => rfl
      | some value => exact hothers value items ⟨other, doc, hitem, hspoiled⟩

theorem once_eq_none {name : String} {decode : Doc → Option α} {fields : List (List Piece × Doc)}
    (h : ∀ doc, named name fields = [doc] → decode doc = none) :
    once name decode fields = none := by
  rw [once]
  split
  · rename_i doc hnamed
    exact h doc hnamed
  · rfl

theorem asRecord_of_spoiled {layout : Layout σ} {blank : σ} {finish : σ → Except Fault β}
    {asFields : List (List Piece × Doc) → Option β} (hmakes : layout.Makes blank finish asFields)
    (hparts : ∀ part ∈ parts, ∃ slot ∈ layout.slots, slot.name = part.1 ∧
      ∀ doc, part.2 doc → slot.decode doc = none)
    {asItems : List Doc → Option β}
    (hitems : ∀ items, SpoiledItems parts items → asItems items = none)
    {doc : Doc} (h : SpoiledRecord parts doc) : asRecord asItems asFields doc = none := by
  have hfields {fields : List (List Piece × Doc)} {part : String × (Doc → Prop)}
      (hpart : part ∈ parts) (h : ∀ doc, named part.1 fields = [doc] → part.2 doc) :
      asRecord asItems asFields (.map fields) = none := by
    obtain ⟨slot, hslot, hname, hdecode⟩ := hparts part hpart
    have honce : once slot.name slot.decode fields = none :=
      once_eq_none fun doc hdoc => hdecode doc (h doc (hname ▸ hdoc))
    rw [asRecord, hmakes.missing slot hslot fields honce, ite_self]
  cases h with
  | missing hpart h =>
    refine hfields hpart fun doc hdoc => ?_
    rw [h] at hdoc
    cases hdoc
  | repeated hpart h =>
    refine hfields hpart fun doc hdoc => ?_
    rw [hdoc] at h
    exact absurd h (by simp)
  | field hpart hdoc h =>
    refine hfields hpart fun other hother => ?_
    rw [hother, List.mem_singleton] at hdoc
    exact hdoc ▸ h
  | item hitem h => exact hitems _ ⟨_, _, hitem, h⟩

end Records

theorem asFile_of_spoiled {doc : Doc} (h : SpoiledFile doc) : asFile doc = none := by
  refine asRecord_of_spoiled makes_file ?_ ?_ h
  · exact List.forall_mem_cons.mpr
      ⟨⟨hashSlot, .head _, rfl, fun _ => asHashCode_of_spoiled⟩, List.forall_mem_singleton.mpr
        ⟨modifiedSlot, .tail _ (.head _), rfl, fun _ => asWord64_of_spoiled⟩⟩
  · exact nextItem_of_spoiled (fun _ => asHashCode_of_spoiled) fun _ =>
      nextItem_of_spoiled (fun _ => asWord64_of_spoiled) fun _ => noItem_of_spoiled _

theorem asContent_of_spoiled {doc : Doc} (h : SpoiledContent doc) : asContent doc = none :=
  asVariant_of_holding rfl (fun _ hfile => asFile_of_spoiled hfile) h

theorem asFingerprint_of_spoiled {doc : Doc} (h : SpoiledFingerprint doc) :
    asFingerprint doc = none := by
  refine asRecord_of_spoiled makes_fingerprint ?_ ?_ h
  · exact List.forall_mem_cons.mpr
      ⟨⟨pathSlot, .head _, rfl, fun _ => False.elim⟩, List.forall_mem_singleton.mpr
        ⟨contentSlot, .tail _ (.head _), rfl, fun _ => asContent_of_spoiled⟩⟩
  · exact nextItem_of_spoiled (fun _ => False.elim) fun _ =>
      nextItem_of_spoiled (fun _ => asContent_of_spoiled) fun _ => noItem_of_spoiled _

theorem asEntries_of_spoiled {doc : Doc} (h : SpoiledEntries doc) : asEntries doc = none := by
  obtain ⟨items, rfl, path, fingerprint, hitem, h⟩ := h
  apply mapM_eq_none hitem
  rw [asPair, nextItem]
  cases asString path with
  | none => rfl
  | some text =>
    rw [Option.bind_some, nextItem, asFingerprint_of_spoiled h, Option.bind_none]

/-- **Nothing is made of a spoiled snapshot.** -/
theorem asSnapshot_of_spoiled {doc : Doc} (h : SpoiledSnapshot doc) : asSnapshot doc = none := by
  refine asRecord_of_spoiled makes_snapshot ?_ ?_ h
  · exact List.forall_mem_cons.mpr ⟨⟨entriesSlot, .head _, rfl, fun _ => asEntries_of_spoiled⟩,
      List.forall_mem_cons.mpr ⟨⟨strategySlot, .tail _ (.head _), rfl, fun _ => False.elim⟩,
        List.forall_mem_singleton.mpr
          ⟨absoluteSlot, .tail _ (.tail _ (.head _)), rfl, fun _ => False.elim⟩⟩⟩
  · exact nextItem_of_spoiled (fun _ => asEntries_of_spoiled) fun _ =>
      nextItem_of_spoiled (fun _ => False.elim) fun _ =>
        nextItem_of_spoiled (fun _ => False.elim) fun _ => noItem_of_spoiled _

/-- **A snapshot is read as what it was in whatever style it is stored**, the text that is written
    being one of them, **and a spoiled one is not read.** -/
theorem restyled_snapshot_is_read :
    (∀ snapshot doc text, StoresSnapshot snapshot doc → IsTextOf text doc →
      readAll readSnapshot text = .ok snapshot) ∧
    (∀ doc text, SpoiledSnapshot doc → IsTextOf text doc →
      ∃ fault, readAll readSnapshot text = .error fault) ∧
    ∀ snapshot, ∃ doc, StoresSnapshot snapshot doc ∧
      IsTextOf (String.ofList (writeSnapshot snapshot)) doc := by
  refine ⟨fun snapshot doc text hstores htext => ?_, fun doc text hspoiled htext => ?_,
    fun snapshot => ?_⟩
  · apply eq_ok_of_toOption
    rw [decodes_snapshot.readAll htext, asSnapshot_of_stores hstores]
  · apply exists_error_of_toOption
    rw [decodes_snapshot.readAll htext, asSnapshot_of_spoiled hspoiled]
  · obtain ⟨doc, hstores, hprints⟩ := renders_snapshot snapshot
    exact ⟨doc, hstores, [], writeSnapshot snapshot, [], blanks_nil, hprints, blanks_nil, by simp⟩

theorem restyled_snapshot_is_read_shuffled :
    readAll readSnapshot (" \x7b\"x\":null,\"path_absolute\":false,"
        ++ "\"compare_strategy\":\x7b\"Ordered\":null\x7d,"
        ++ "\"entries\":[[\"a\",[\x7b\"Ignored\":null\x7d,\x7b\"RegularFile\":[[1],7]\x7d]]]\x7d")
      = .ok (.ofEntries [("a", ⟨.ignored, .regularFile ⟨[1]⟩ 7⟩)] .ordered false) ∧
    ∃ fault, readAll readSnapshot "\x7b\"compare_strategy\":\"Ordered\",\"path_absolute\":false\x7d"
      = .error fault := by
  obtain ⟨absolute, habsolute, hkeyAbsolute, hisAbsolute, hprintsAbsolute⟩ :=
    exists_writtenField "path_absolute" (renders_boolean false)
  constructor
  · -- in the entries each record is the sequence of its fields
    have hfile : Renders (StoresContent (.regularFile ⟨[1]⟩ 7)) _ :=
      renders_holding
        (renders_inOrder (.cons (renders_hashCode _) (.cons (renders_natural 7) .nil)))
    have hentry : Renders (StoresEntry ("a", ⟨.ignored, .regularFile ⟨[1]⟩ 7⟩)) _ :=
      renders_entry (renders_inOrder (.cons (renders_unit_null "Ignored") (.cons hfile .nil)))
    have hall :=
      @renders_sequence _ StoresEntry (fun _ => _) [_] (List.forall_mem_singleton.mpr hentry)
    have hnull : Renders (fun _ => True) ['n', 'u', 'l', 'l'] := ⟨.null, trivial, .null⟩
    obtain ⟨other, hother, hkeyOther, -, hprintsOther⟩ := exists_writtenField "x" hnull
    obtain ⟨strategy, hstrategy, hkeyStrategy, hisStrategy, hprintsStrategy⟩ :=
      exists_writtenField "compare_strategy" (renders_unit_null "Ordered")
    obtain ⟨entries, hentries, hkeyEntries, hisEntries, hprintsEntries⟩ :=
      exists_writtenField "entries" hall
    have hprints := @Prints.map [other, absolute, strategy, entries] _
      (List.forall_mem_cons.mpr ⟨hprintsOther, List.forall_mem_cons.mpr ⟨hprintsAbsolute,
        List.forall_mem_cons.mpr ⟨hprintsStrategy, List.forall_mem_singleton.mpr hprintsEntries⟩⟩⟩)
      (enclosed_commas _)
    have hstores : StoresSnapshot
        (.ofEntries [("a", ⟨.ignored, .regularFile ⟨[1]⟩ 7⟩)] .ordered false)
        (.map [other.field, absolute.field, strategy.field, entries.field]) :=
      @StoresRecord.named _ [entries.field, strategy.field, absolute.field] [other.field] _
        (.cons ⟨hkeyEntries, hisEntries⟩ (.cons ⟨hkeyStrategy, hisStrategy⟩
        (.cons ⟨hkeyAbsolute, hisAbsolute⟩ .nil)))
        (List.forall_mem_singleton.mpr ⟨"x", hkeyOther, by simp⟩)
        (List.reverse_perm [entries.field, strategy.field, absolute.field, other.field])
    refine restyled_snapshot_is_read.1 _ _ _ hstores
      ⟨[' '], _, [], List.forall_mem_singleton.mpr rfl, hprints, blanks_nil, ?_⟩
    simp only [List.map_cons, List.map_nil, hother, habsolute, hstrategy, hentries]
    decide +kernel
  · obtain ⟨strategy, hstrategy, hkeyStrategy, -, hprintsStrategy⟩ :=
      exists_writtenField "compare_strategy" (renders_unit "Ordered")
    have hprints := @Prints.map [strategy, absolute] _
      (List.forall_mem_cons.mpr ⟨hprintsStrategy, List.forall_mem_singleton.mpr hprintsAbsolute⟩)
      (enclosed_commas _)
    have hmissing : named "entries" [strategy.field, absolute.field] = [] :=
      named_eq_nil (List.forall_mem_cons.mpr ⟨⟨_, hkeyStrategy, by decide⟩,
        List.forall_mem_singleton.mpr ⟨_, hkeyAbsolute, by decide⟩⟩)
    refine restyled_snapshot_is_read.2.1 _ _ (.missing (.head _) hmissing)
      ⟨[], _, [], blanks_nil, hprints, blanks_nil, ?_⟩
    simp only [List.map_cons, List.map_nil, habsolute, hstrategy]
    decide +kernel

end Treeprint.Persistence
