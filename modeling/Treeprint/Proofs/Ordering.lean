import Mathlib.Data.List.Count
import Mathlib.Data.List.Destutter
import Treeprint.Proofs.Indexing
import Treeprint.Proofs.Text
import Treeprint.Ranking

/-!
# Order, equality and hashing fit together

Hashes, normalized paths, contents and fingerprints each have an order, an equality, and data that
is fed to a hasher.  `Fits` says what these owe to each other.  All of them look at a modification
time nowhere, so times can be exchanged at will (`Content.touch`, `Fingerprint.touch`).

What the orders are is said without comparing anything, by the rules of `Fingerprint.Precedes`.
The main statement, `fingerprints_fit`, adds what this means for lists: **sorting is stable and goes
by these rules, and of a sorted list in which neighbours that are equal count once each class of
equal values is left once**.
-/

namespace Treeprint

/-! ### What an order, an equality and a hash owe to each other -/

/-- The order is total, `==` is its equality, the partial comparison always answers with it, and the
    same is fed to a hasher exactly for equal values. -/
structure Fits (α : Type) [BEq α] [Ord α] (partialCompare : α → α → Option Ordering)
    (feed : α → List Nat) : Prop where
  refl (x : α) : (compare x x).isLE
  antisymm {x y : α} : (compare x y).isLE → (compare y x).isLE → (x == y) = true
  trans {x y z : α} : (compare x y).isLE → (compare y z).isLE → (compare x z).isLE
  total (x y : α) : (compare x y).isLE ∨ (compare y x).isLE
  swap (x y : α) : compare y x = (compare x y).swap
  eq_iff (x y : α) : compare x y = .eq ↔ (x == y) = true
  partial_eq (x y : α) : partialCompare x y = some (compare x y)
  feed_iff (x y : α) : feed x = feed y ↔ (x == y) = true

theorem Fits.of_ord {α : Type} [BEq α] [Ord α] [Std.TransOrd α] [Std.LawfulBEqOrd α]
    {partialCompare : α → α → Option Ordering} {feed : α → List Nat}
    (hpartial : ∀ x y, partialCompare x y = some (compare x y))
    (hfeed : ∀ x y, feed x = feed y ↔ (x == y) = true) : Fits α partialCompare feed where
  refl _ := Std.ReflCmp.isLE_rfl
  antisymm hxy hyx := Std.compare_eq_iff_beq.1 (Std.OrientedCmp.isLE_antisymm hxy hyx)
  trans := Std.TransCmp.isLE_trans
  total x y := by
    rw [Std.OrientedOrd.eq_swap (a := y)]
    cases compare x y <;> simp
  swap _ _ := Std.OrientedCmp.eq_swap
  eq_iff _ _ := Std.compare_eq_iff_beq
  partial_eq := hpartial
  feed_iff := hfeed

/-! ### Each of the orders -/

/-- The bytes that come first by the order of the bytes. -/
theorem compare_bytes_eq_lt_iff {x y : Bytes} : compare x y = .lt ↔ x < y := by
  induction x generalizing y with
  | nil => cases y <;> simp
  | cons b x ih =>
    cases y with
    | nil => simp
    | cons c y =>
      rw [List.compare_cons_cons, Ordering.then_eq_lt, ih, List.cons_lt_cons_iff,
        Std.compare_eq_lt, Std.compare_eq_iff_eq]

namespace HashCode

instance : Std.TransOrd HashCode :=
  inferInstanceAs (Std.TransCmp (compareOn HashCode.bytes))

instance : Std.LawfulBEqOrd HashCode where
  compare_eq_iff_beq {x y} := by
    have hbytes : compare x.bytes y.bytes = .eq ↔ x.bytes = y.bytes :=
      Std.LawfulEqCmp.compare_eq_iff_eq
    rw [beq_iff_eq, HashCode.mk.injEq]
    exact hbytes

theorem partialCompare_eq (x y : HashCode) : partialCompare x y = some (compare x y) := rfl

theorem feed_iff (x y : HashCode) : x.feed = y.feed ↔ (x == y) = true := by
  have hbytes : x.bytes.map UInt8.toNat = y.bytes.map UInt8.toNat ↔ x.bytes = y.bytes :=
    List.map_inj_right fun _ _ => UInt8.toNat_inj.1
  rw [beq_iff_eq, feed, feed, List.cons.injEq, hbytes, HashCode.mk.injEq]
  exact and_iff_right_of_imp (congrArg List.length)

end HashCode

namespace NormalizedPath

/-- The rules of the order: left-out paths come first, and texts follow by their bytes. -/
inductive Precedes : NormalizedPath → NormalizedPath → Prop
  | ignored (text : String) : Precedes .ignored (.path text)
  | bytes {x y : String} : Utf8.encode x < Utf8.encode y → Precedes (.path x) (.path y)

/-- The bytes that are compared. -/
def bytes? (path : NormalizedPath) : Option Bytes := path.text?.map Utf8.encode

theorem compare_eq (x y : NormalizedPath) : compare x y = compare x.bytes? y.bytes? := by
  cases x <;> cases y <;> rfl

theorem encode_inj {x y : String} : Utf8.encode x = Utf8.encode y ↔ x = y :=
  ⟨fun h => by rw [← Utf8.decode_encode x, h, Utf8.decode_encode], congrArg _⟩

theorem bytes?_inj {x y : NormalizedPath} : x.bytes? = y.bytes? ↔ x = y := by
  cases x <;> cases y <;> simp [bytes?, text?, encode_inj]

instance : Std.TransOrd NormalizedPath where
  eq_swap {x y} := by
    rw [compare_eq, compare_eq]
    exact Std.OrientedCmp.eq_swap
  isLE_trans {x y z} hxy hyz := by
    rw [compare_eq] at hxy hyz ⊢
    exact Std.TransCmp.isLE_trans hxy hyz

instance : Std.LawfulBEqOrd NormalizedPath where
  compare_eq_iff_beq {x y} := by
    rw [compare_eq, beq_iff_eq, ← bytes?_inj]
    exact Std.LawfulEqCmp.compare_eq_iff_eq

theorem compare_eq_lt_iff {x y : NormalizedPath} : compare x y = .lt ↔ x.Precedes y := by
  constructor
  · intro h
    cases x with
    | ignored =>
      cases y with
      | ignored => cases h
      | path text => exact .ignored text
    | path x =>
      cases y with
      | ignored => cases h
      | path y => exact .bytes (compare_bytes_eq_lt_iff.1 h)
  · rintro (⟨text⟩ | ⟨h⟩)
    · rfl
    · exact compare_bytes_eq_lt_iff.2 h

theorem partialCompare_eq (x y : NormalizedPath) : partialCompare x y = some (compare x y) := by
  cases x <;> cases y <;> rfl

/-- The end mark is no byte of a text. -/
theorem end_not_mem_encode (text : String) : (0xFF : UInt8) ∉ Utf8.encode text := by
  intro hmem
  obtain ⟨c, -, hc⟩ := List.mem_flatMap.1 hmem
  have hlt : c.val.toNat < 0x110000 := by
    have hvalid : c.val.toNat < 0xD800 ∨ 0xDFFF < c.val.toNat ∧ c.val.toNat < 0x110000 := c.valid
    omega
  have hbyte : ∀ n < 255, (0xFF : UInt8) ≠ UInt8.ofNat n := by
    intro n hn heq
    have hnat := congrArg UInt8.toNat heq
    rw [Utf8.toNat_ofNat_of_lt (by omega)] at hnat
    exact absurd hnat.symm (Nat.ne_of_lt hn)
  unfold String.utf8EncodeChar at hc
  simp only at hc
  repeat' split at hc
  all_goals
    simp only [List.mem_cons, List.not_mem_nil, or_false] at hc
    grind

/-- What stands before the first mark can be read off. -/
theorem eq_of_marked {mark : UInt8} {front other : Bytes} {back back' : List Nat}
    (hfront : mark ∉ front) (hother : mark ∉ other)
    (h : front.map UInt8.toNat ++ mark.toNat :: back
      = other.map UInt8.toNat ++ mark.toNat :: back') : front = other ∧ back = back' := by
  induction front generalizing other with
  | nil =>
    cases other with
    | nil => exact ⟨rfl, List.tail_eq_of_cons_eq h⟩
    | cons c other => grind [UInt8.toNat_inj]
  | cons b front ih =>
    cases other with
    | nil => grind [UInt8.toNat_inj]
    | cons c other =>
      rw [List.mem_cons, not_or] at hfront hother
      rw [List.map_cons, List.map_cons, List.cons_append, List.cons_append, List.cons.injEq,
        UInt8.toNat_inj] at h
      obtain ⟨rfl, hback⟩ := ih hfront.2 hother.2 h.2
      exact ⟨by rw [h.1], hback⟩

/-- A path that is fed to a hasher can be told apart from what is fed after it. -/
theorem feed_append_inj {x y : NormalizedPath} {back back' : List Nat} :
    x.feed ++ back = y.feed ++ back' ↔ x = y ∧ back = back' := by
  constructor
  · intro h
    cases x with
    | ignored =>
      cases y with
      | ignored => exact ⟨rfl, List.tail_eq_of_cons_eq h⟩
      | path y => cases h
    | path x =>
      cases y with
      | ignored => cases h
      | path y =>
        simp only [feed, List.cons_append, List.append_assoc, List.cons.injEq, true_and] at h
        obtain ⟨htext, hback⟩ :=
          eq_of_marked (end_not_mem_encode x) (end_not_mem_encode y) h
        exact ⟨by rw [encode_inj.1 htext], hback⟩
  · rintro ⟨rfl, rfl⟩
    rfl

theorem feed_iff (x y : NormalizedPath) : x.feed = y.feed ↔ (x == y) = true := by
  rw [beq_iff_eq]
  constructor
  · intro h
    have happend : x.feed ++ [] = y.feed ++ [] := by rw [h]
    exact (feed_append_inj.1 happend).1
  · exact congrArg feed

end NormalizedPath

namespace Content

/-- The rules of the order: what is missing comes first, then directories, and files follow by the
    bytes of their hashes. -/
inductive Precedes : Content → Content → Prop
  | missing_directory : Precedes .missing .directory
  | missing_file (hash : HashCode) (modified : UInt64) :
    Precedes .missing (.regularFile hash modified)
  | directory_file (hash : HashCode) (modified : UInt64) :
    Precedes .directory (.regularFile hash modified)
  | bytes {hash other : HashCode} {modified modified' : UInt64} : hash.bytes < other.bytes →
    Precedes (.regularFile hash modified) (.regularFile other modified')

instance : Std.TransOrd Content :=
  inferInstanceAs (Std.TransCmp (compareLex (compareOn fun content : Content => content.key.1)
    (compareOn fun content : Content => content.key.2)))

theorem compare_eq_eq_iff {x y : Content} : compare x y = .eq ↔ x.key = y.key := by
  show (compare x.key.1 y.key.1).then (compare x.key.2 y.key.2) = .eq ↔ _
  rw [Ordering.then_eq_eq, Std.compare_eq_iff_eq, Std.compare_eq_iff_eq, Prod.ext_iff]

instance : Std.LawfulBEqOrd Content where
  compare_eq_iff_beq {x y} := by
    rw [compare_eq_eq_iff]
    exact decide_eq_true_iff.symm

theorem compare_eq_lt_iff {x y : Content} : compare x y = .lt ↔ x.Precedes y := by
  show (compare x.key.1 y.key.1).then (compare x.key.2 y.key.2) = .lt ↔ _
  rw [Ordering.then_eq_lt, Nat.compare_eq_lt, Nat.compare_eq_eq, compare_bytes_eq_lt_iff]
  constructor
  · intro h
    cases x with
    | missing =>
      cases y with
      | missing => simp [key, rank, hash?] at h
      | directory => exact .missing_directory
      | regularFile hash modified => exact .missing_file hash modified
    | directory =>
      cases y with
      | regularFile hash modified => exact .directory_file hash modified
      | _ => simp [key, rank, hash?] at h
    | regularFile hash modified =>
      cases y with
      | regularFile other modified' => exact .bytes (by simpa [key, rank, hash?] using h)
      | _ => simp [key, rank] at h
  · rintro (_ | _ | _ | h)
    · exact .inl Nat.zero_lt_one
    · exact .inl Nat.zero_lt_two
    · exact .inl Nat.one_lt_two
    · exact .inr ⟨rfl, h⟩

theorem feed_iff (x y : Content) : x.feed = y.feed ↔ (x == y) = true := by
  rw [← Std.compare_eq_iff_beq, compare_eq_eq_iff]
  cases x with
  | regularFile hash modified =>
    cases y with
    | regularFile other modified' =>
      have hhash := HashCode.feed_iff hash other
      rw [beq_iff_eq, HashCode.mk.injEq] at hhash
      simpa [feed, key, rank, hash?] using hhash
    | _ => simp [feed, key, rank]
  | _ => cases y <;> simp [feed, key, rank, hash?]

theorem partialCompare_eq (x y : Content) : partialCompare x y = some (compare x y) := rfl

/-- The time is looked at by nothing. -/
theorem key_touch (content : Content) (modified : UInt64) :
    (content.touch modified).key = content.key := by
  cases content <;> rfl

theorem compare_touch (content : Content) (modified : UInt64) :
    compare (content.touch modified) content = .eq := by
  rw [compare_eq_eq_iff, key_touch]

end Content

namespace Fingerprint

/-- The rules of the order: the paths decide, and for one path the contents do. -/
inductive Precedes : Fingerprint → Fingerprint → Prop
  | path {path other : NormalizedPath} {content content' : Content} : path.Precedes other →
    Precedes ⟨path, content⟩ ⟨other, content'⟩
  | content {path : NormalizedPath} {content content' : Content} : content.Precedes content' →
    Precedes ⟨path, content⟩ ⟨path, content'⟩

/-- The same fingerprint with another modification time. -/
def touch (modified : UInt64) (fingerprint : Fingerprint) : Fingerprint :=
  { fingerprint with content := fingerprint.content.touch modified }

instance : Std.TransOrd Fingerprint :=
  inferInstanceAs (Std.TransCmp (compareLex (compareOn Fingerprint.path)
    (compareOn Fingerprint.content)))

theorem compare_eq (x y : Fingerprint) :
    compare x y = (compare x.path y.path).then (compare x.content y.content) := rfl

instance : Std.LawfulBEqOrd Fingerprint where
  compare_eq_iff_beq {x y} := by
    rw [compare_eq, Ordering.then_eq_eq, Std.compare_eq_iff_beq,
      Std.compare_eq_iff_beq, beq_iff_eq, beq_iff]

theorem compare_eq_lt_iff {x y : Fingerprint} : compare x y = .lt ↔ x.Precedes y := by
  obtain ⟨path, content⟩ := x
  obtain ⟨other, content'⟩ := y
  rw [compare_eq, Ordering.then_eq_lt, NormalizedPath.compare_eq_lt_iff,
    Content.compare_eq_lt_iff, Std.compare_eq_iff_beq, beq_iff_eq]
  constructor
  · rintro (hpath | ⟨rfl, hcontent⟩)
    · exact .path hpath
    · exact .content hcontent
  · rintro (⟨hpath⟩ | ⟨hcontent⟩)
    · exact .inl hpath
    · exact .inr ⟨rfl, hcontent⟩

theorem partialCompare_eq (x y : Fingerprint) : partialCompare x y = some (compare x y) := by
  rw [compare_eq, partialCompare, NormalizedPath.partialCompare_eq]
  cases compare x.path y.path <;> rfl

theorem feed_iff (x y : Fingerprint) : x.feed = y.feed ↔ (x == y) = true := by
  rw [feed, feed, NormalizedPath.feed_append_inj, Content.feed_iff, beq_iff]

theorem compare_touch (fingerprint : Fingerprint) (modified : UInt64) :
    compare (fingerprint.touch modified) fingerprint = .eq := by
  rw [compare_eq, Ordering.then_eq_eq]
  exact ⟨Std.ReflCmp.compare_self, Content.compare_touch fingerprint.content modified⟩

end Fingerprint

/-! ### Times are exchanged at will -/

/-- Other times change neither the order nor the equality nor what is fed to a hasher. -/
structure Timeless {α : Type} [BEq α] [Ord α] (partialCompare : α → α → Option Ordering)
    (feed : α → List Nat) (touch : UInt64 → α → α) : Prop where
  compare_eq (x y : α) (modified modified' : UInt64) :
    compare (touch modified x) (touch modified' y) = compare x y
  partial_eq (x y : α) (modified modified' : UInt64) :
    partialCompare (touch modified x) (touch modified' y) = partialCompare x y
  beq_eq (x y : α) (modified modified' : UInt64) :
    (touch modified x == touch modified' y) = (x == y)
  feed_eq (x : α) (modified : UInt64) : feed (touch modified x) = feed x

/-- Where all fits together, it is enough that a value with another time compares as equal. -/
theorem Fits.timeless {α : Type} [BEq α] [Ord α] [Std.TransOrd α]
    {partialCompare : α → α → Option Ordering} {feed : α → List Nat}
    (h : Fits α partialCompare feed) {touch : UInt64 → α → α}
    (htouch : ∀ x modified, compare (touch modified x) x = .eq) :
    Timeless partialCompare feed touch := by
  have hcompare (x y : α) (modified modified' : UInt64) :
      compare (touch modified x) (touch modified' y) = compare x y :=
    (Std.TransCmp.congr_left (htouch x modified)).trans
      (Std.TransCmp.congr_right (htouch y modified'))
  constructor
  · exact hcompare
  · intro x y modified modified'
    rw [h.partial_eq, h.partial_eq, hcompare]
  · intro x y modified modified'
    rw [Bool.eq_iff_iff, ← h.eq_iff, ← h.eq_iff, hcompare]
  · intro x modified
    rw [h.feed_iff, ← h.eq_iff, htouch]

/-! ### Leaving out repetitions -/

namespace Ranking

variable {α : Type}

/-- The values at the sorted places. -/
def inOrder [Ord α] (values : List α) : List α := (sorted values).filterMap (values[·]?)

theorem filterMap_range_length (values : List α) :
    (List.range values.length).filterMap (values[·]?) = values := by
  induction values with
  | nil => rfl
  | cons x values ih =>
    rw [List.length_cons, List.range_succ_eq_map, List.filterMap_cons_some List.getElem?_cons_zero,
      List.filterMap_map]
    simpa only [Function.comp_def, List.getElem?_cons_succ] using congrArg (x :: ·) ih

theorem StablySorted.perm {precedes : α → α → Prop} {values : List α} {places : List Nat}
    (h : StablySorted precedes values places) : (places.filterMap (values[·]?)).Perm values :=
  (h.all.filterMap _).trans (.of_eq (filterMap_range_length values))

theorem perm_inOrder [Ord α] [Std.TransOrd α] (values : List α) : (inOrder values).Perm values :=
  (stablySorted_sorted values).perm

theorem pairwise_inOrder [Ord α] [Std.TransOrd α] (values : List α) :
    (inOrder values).Pairwise fun x y => (compare x y).isLE := by
  rw [inOrder, List.pairwise_filterMap]
  refine (stablySorted_sorted values).ordered.imp fun {i j} h x hx y hy => ?_
  obtain hlt | ⟨hlt, -⟩ := h x hx y hy
  · simp [hlt]
  · rwa [← Std.OrientedCmp.gt_iff_lt, Ordering.ne_gt_iff_isLE] at hlt

variable [BEq α]

/-- The list with one of each run of neighbours that are equal, the first. -/
def withoutRepeats (values : List α) : List α :=
  values.destutter fun x y => ¬ (x == y) = true

/-- Some of the values, and of each class of equal ones just one. -/
structure OnceEach (values kept : List α) : Prop where
  mem {y : α} : y ∈ kept → y ∈ values
  once {x : α} : x ∈ values → kept.countP (· == x) = 1

theorem exists_mem_destutter' [ReflBEq α] {x a : α} {values : List α} (hx : x ∈ a :: values) :
    ∃ y ∈ values.destutter' (fun x y => ¬ (x == y) = true) a, (y == x) = true := by
  induction values generalizing a with
  | nil => exact ⟨x, hx, beq_self_eq_true x⟩
  | cons b values ih =>
    rw [List.destutter'_cons]
    split
    next =>
      obtain rfl | hx := List.mem_cons.1 hx
      · exact ⟨x, List.mem_cons_self, beq_self_eq_true x⟩
      · obtain ⟨y, hy, hyx⟩ := ih hx
        exact ⟨y, List.mem_cons_of_mem _ hy, hyx⟩
    next hab =>
      obtain rfl | hx := List.mem_cons.1 hx
      · exact ih List.mem_cons_self
      · obtain rfl | hx := List.mem_cons.1 hx
        · exact ⟨a, List.mem_destutter' _ _ a, not_not.1 hab⟩
        · exact ih (List.mem_cons_of_mem _ hx)

theorem mem_withoutRepeats {values : List α} {x : α} (h : x ∈ withoutRepeats values) :
    x ∈ values :=
  (List.destutter_sublist _ values).mem h

theorem exists_mem_withoutRepeats [ReflBEq α] {values : List α} {x : α} (hx : x ∈ values) :
    ∃ y ∈ withoutRepeats values, (y == x) = true := by
  cases values with
  | nil => cases hx
  | cons a values => exact exists_mem_destutter' hx

variable [Ord α] [Std.TransOrd α] [Std.LawfulBEqOrd α]

/-- A value that is left is properly before all that follow: it is before the next that differs
    from it, and what follows is no smaller. -/
theorem pairwise_destutter' {a : α} {values : List α}
    (h : (a :: values).Pairwise fun x y => (compare x y).isLE) :
    (values.destutter' (fun x y => ¬ (x == y) = true) a).Pairwise
      fun x y => compare x y = .lt := by
  induction values generalizing a with
  | nil => exact List.pairwise_singleton _ a
  | cons b values ih =>
    obtain ⟨ha, hvalues⟩ := List.pairwise_cons.1 h
    rw [List.destutter'_cons]
    split
    next hab =>
      have hlt : compare a b = .lt := by
        have hle := ha b List.mem_cons_self
        rw [← Std.compare_eq_iff_beq] at hab
        cases hcompare : compare a b <;> simp_all
      refine List.pairwise_cons.2 ⟨fun z hz => ?_, ih hvalues⟩
      obtain rfl | hz := List.mem_cons.1 ((List.destutter'_sublist _ _ b).mem hz)
      · exact hlt
      · exact Std.TransCmp.lt_of_lt_of_isLE hlt ((List.pairwise_cons.1 hvalues).1 z hz)
    next => exact ih (h.sublist ((List.sublist_cons_self b values).cons_cons a))

theorem pairwise_withoutRepeats {values : List α}
    (h : values.Pairwise fun x y => (compare x y).isLE) :
    (withoutRepeats values).Pairwise fun x y => compare x y = .lt := by
  cases values with
  | nil => exact .nil
  | cons a values => exact pairwise_destutter' h

/-- Where values are properly ordered, no two of them are in one class. -/
theorem countP_eq_one {kept : List α} {x y : α} (h : kept.Pairwise fun x y => compare x y = .lt)
    (hy : y ∈ kept) (hyx : (y == x) = true) : kept.countP (· == x) = 1 := by
  obtain ⟨front, back, rfl⟩ := List.append_of_mem hy
  have hne {z : α} (hz : compare z y = .lt ∨ compare y z = .lt) : ¬ (z == x) = true := by
    intro hzx
    have hyz : compare y z = .eq := Std.compare_eq_iff_beq.2 (BEq.trans hyx (BEq.symm hzx))
    have hzy : compare z y = .eq := Std.OrientedCmp.eq_comm.1 hyz
    rw [hyz, hzy] at hz
    exact hz.elim nofun nofun
  rw [List.pairwise_append, List.pairwise_cons] at h
  have hfront : front.countP (· == x) = 0 :=
    List.countP_eq_zero.2 fun z hz => hne (.inl (h.2.2 z hz y List.mem_cons_self))
  have hback : back.countP (· == x) = 0 :=
    List.countP_eq_zero.2 fun z hz => hne (.inr (h.2.1.1 z hz))
  rw [List.countP_append, hfront, List.countP_cons, hback, if_pos hyx]

theorem onceEach_withoutRepeats_inOrder (values : List α) :
    OnceEach values (withoutRepeats (inOrder values)) where
  mem hy := (perm_inOrder values).mem_iff.1 (mem_withoutRepeats hy)
  once hx := by
    obtain ⟨y, hy, hyx⟩ := exists_mem_withoutRepeats ((perm_inOrder values).mem_iff.2 hx)
    exact countP_eq_one (pairwise_withoutRepeats (pairwise_inOrder values)) hy hyx

/-- Without one class, of each other class one is left. -/
theorem OnceEach.others {a : α} {values kept : List α} (h : OnceEach (a :: values) kept) :
    OnceEach (values.filter fun b => !b == a) (kept.filter fun b => !b == a) where
  mem {y} hy := by
    obtain ⟨hy, hya⟩ := List.mem_filter.1 hy
    obtain rfl | hmem := List.mem_cons.1 (h.mem hy)
    · simp at hya
    · exact List.mem_filter.2 ⟨hmem, hya⟩
  once {x} hx := by
    obtain ⟨hx, hxa⟩ := List.mem_filter.1 hx
    rw [Bool.not_eq_true'] at hxa
    rw [← h.once (List.mem_cons_of_mem a hx), List.countP_filter]
    refine List.countP_congr fun y _ => ?_
    rw [Bool.and_eq_true, Bool.not_eq_true']
    exact and_iff_left_of_imp fun hyx => by rw [BEq.congr_left hyx, hxa]

/-- However one of each class is left, as many are left as there are different values. -/
theorem OnceEach.length_eq {values kept : List α} (h : OnceEach values kept) :
    kept.length = distinct values := by
  cases values with
  | nil =>
    cases kept with
    | nil => rfl
    | cons y kept => exact absurd (h.mem List.mem_cons_self) List.not_mem_nil
  | cons a values =>
    -- the class of the first value counts once, and the others are left as before
    have hothers : (kept.filter fun b => !b == a).length
        = distinct (values.filter fun b => !b == a) := h.others.length_eq
    rw [List.length_eq_countP_add_countP (· == a), h.once List.mem_cons_self, distinct,
      List.eraseDups_cons, List.length_cons, ← distinct, ← hothers, Nat.add_comm,
      List.countP_eq_length_filter]
    simp
termination_by values.length
decreasing_by simpa [*] using Nat.lt_succ_of_le (List.length_filter_le _ _)

end Ranking

/-! ### All of it -/

/-- For hashes, paths, contents and fingerprints, order, equality and hashing fit together, and
    times are exchanged at will.  Sorting fingerprints is stable and goes by the rules of
    `Fingerprint.Precedes`; leaving out the neighbours that are equal, one of each class is left. -/
theorem fingerprints_fit :
    Fits HashCode HashCode.partialCompare HashCode.feed
    ∧ Fits NormalizedPath NormalizedPath.partialCompare NormalizedPath.feed
    ∧ Fits Content Content.partialCompare Content.feed
    ∧ Fits Fingerprint Fingerprint.partialCompare Fingerprint.feed
    ∧ Timeless Content.partialCompare Content.feed (fun modified content => content.touch modified)
    ∧ Timeless Fingerprint.partialCompare Fingerprint.feed Fingerprint.touch
    ∧ ∀ values : List Fingerprint,
      Ranking.StablySorted Fingerprint.Precedes values (Ranking.sorted values)
      ∧ Ranking.OnceEach values (Ranking.withoutRepeats (Ranking.inOrder values))
      ∧ (Ranking.withoutRepeats (Ranking.inOrder values)).length = Ranking.distinct values := by
  have hcontent := Fits.of_ord Content.partialCompare_eq Content.feed_iff
  have hfingerprint := Fits.of_ord Fingerprint.partialCompare_eq Fingerprint.feed_iff
  refine ⟨Fits.of_ord HashCode.partialCompare_eq HashCode.feed_iff,
    Fits.of_ord NormalizedPath.partialCompare_eq NormalizedPath.feed_iff, hcontent, hfingerprint,
    hcontent.timeless Content.compare_touch,
    hfingerprint.timeless
      fun fingerprint modified => Fingerprint.compare_touch fingerprint modified,
    fun values => ⟨?_, ?_, ?_⟩⟩
  · have hprecedes : Fingerprint.Precedes = fun x y => compare x y = .lt :=
      funext₂ fun _ _ => propext Fingerprint.compare_eq_lt_iff.symm
    rw [hprecedes]
    exact Ranking.stablySorted_sorted values
  · exact Ranking.onceEach_withoutRepeats_inOrder values
  · exact (Ranking.onceEach_withoutRepeats_inOrder values).length_eq

end Treeprint
