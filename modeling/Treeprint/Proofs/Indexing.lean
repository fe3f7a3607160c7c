import Treeprint.Proofs.Comparing
import Treeprint.Proofs.Folding
import Treeprint.Proofs.Keeping
import Treeprint.Proofs.Store

/-!
# The index fits the entries

The index of a snapshot leads each path to a place.  It is laid down by going once through the
entries, and a path that comes again moves to its new place.  So a path leads to the last of its
places, other paths lead nowhere, and no place lies beyond the entries
(`Snapshot.get?_index_iff`): what is looked up is always the fingerprint of the last entry with the
path.  In a snapshot that a call has given each path occurs once
(`Vantage.nodup_paths_of_snapshot`), and each entry is found under its own path.
-/

namespace Treeprint

/-! ### Laying down places -/

section Laying

variable {α : Type} (start : Nat) (index : Table Nat)

theorem indexFrom_append (xs ys : List (String × α)) :
    indexFrom start index (xs ++ ys)
      = indexFrom (start + xs.length) (indexFrom start index xs) ys := by
  induction xs generalizing start index with
  | nil => rfl
  | cons entry xs ih =>
    rw [List.cons_append, indexFrom, indexFrom, ih, List.length_cons, Nat.add_assoc,
      Nat.add_comm 1]

/-- A path that does not occur leads where it led before. -/
theorem get?_indexFrom_of_notMem {entries : List (String × α)} {path : String}
    (h : path ∉ entries.map Prod.fst) :
    (indexFrom start index entries).get? path = index.get? path := by
  induction entries generalizing start index with
  | nil => rfl
  | cons entry entries ih =>
    rw [List.map_cons, List.mem_cons, not_or] at h
    rw [indexFrom, ih _ _ h.2, Table.get?_insert, if_neg h.1]

/-- A path leads to the last of its places. -/
theorem get?_indexFrom_of_last (front : List (String × α)) (entry : String × α)
    {back : List (String × α)} (h : entry.1 ∉ back.map Prod.fst) :
    (indexFrom start index (front ++ entry :: back)).get? entry.1
      = some (start + front.length) := by
  rw [indexFrom_append, indexFrom, get?_indexFrom_of_notMem _ _ h, Table.get?_insert, if_pos rfl]

end Laying

/-- What occurs in a list occurs in it for the last time. -/
theorem exists_last_of_mem {α : Type} {entries : List (String × α)} {path : String}
    (h : path ∈ entries.map Prod.fst) :
    ∃ front value back, entries = front ++ (path, value) :: back ∧ path ∉ back.map Prod.fst := by
  induction entries with
  | nil => simp at h
  | cons entry entries ih =>
    by_cases hlater : path ∈ entries.map Prod.fst
    · obtain ⟨front, value, back, rfl, hback⟩ := ih hlater
      exact ⟨entry :: front, value, back, rfl, hback⟩
    · rw [List.map_cons, List.mem_cons] at h
      obtain rfl := h.resolve_right hlater
      exact ⟨[], entry.2, entries, rfl, hlater⟩

/-! ### Looking up -/

namespace Snapshot

/-- The last entry with a path stands at a place and has a fingerprint. -/
def LastAt (snapshot : Snapshot) (path : String) (place : Nat) (fingerprint : Fingerprint) : Prop :=
  snapshot.entries[place]? = some (path, fingerprint) ∧
    ∀ later other, place < later → snapshot.entries[later]? ≠ some (path, other)

variable {snapshot : Snapshot} {path : String}

theorem LastAt.unique {place other : Nat} {fingerprint otherFingerprint : Fingerprint}
    (h : snapshot.LastAt path place fingerprint)
    (hother : snapshot.LastAt path other otherFingerprint) :
    place = other ∧ fingerprint = otherFingerprint := by
  have hplace : place = other := by
    rcases Nat.lt_trichotomy place other with hlt | heq | hlt
    · exact absurd hother.1 (h.2 other _ hlt)
    · exact heq
    · exact absurd h.1 (hother.2 place _ hlt)
  subst hplace
  have heq := h.1.symm.trans hother.1
  rw [Option.some.injEq, Prod.mk.injEq] at heq
  exact ⟨rfl, heq.2⟩

theorem LastAt.mem_paths {place : Nat} {fingerprint : Fingerprint}
    (h : snapshot.LastAt path place fingerprint) : path ∈ snapshot.paths :=
  List.mem_map.2 ⟨_, List.mem_of_getElem? h.1, rfl⟩

theorem lastAt_of_split {front back : List (String × Fingerprint)} {fingerprint : Fingerprint}
    (hentries : snapshot.entries = front ++ (path, fingerprint) :: back)
    (hback : path ∉ back.map Prod.fst) : snapshot.LastAt path front.length fingerprint := by
  constructor
  · rw [hentries, List.getElem?_append_right le_rfl, Nat.sub_self, List.getElem?_cons_zero]
  · intro later other hlater hfound
    obtain ⟨offset, rfl⟩ := Nat.exists_eq_add_of_lt hlater
    rw [hentries, List.getElem?_append_right (by omega),
      show front.length + offset + 1 - front.length = offset + 1 by omega,
      List.getElem?_cons_succ] at hfound
    exact hback (List.mem_map.2 ⟨_, List.mem_of_getElem? hfound, rfl⟩)

/-- A path that occurs has a last entry, and this is where the index leads. -/
theorem exists_lastAt (h : path ∈ snapshot.paths) :
    ∃ place fingerprint, snapshot.LastAt path place fingerprint ∧
      snapshot.index.get? path = some place := by
  obtain ⟨front, fingerprint, back, hentries, hback⟩ := exists_last_of_mem h
  refine ⟨front.length, fingerprint, lastAt_of_split hentries hback, ?_⟩
  rw [snapshot.index_eq, hentries,
    get?_indexFrom_of_last 0 ∅ front (path, fingerprint) hback, Nat.zero_add]

/-- A path that does not occur leads nowhere. -/
theorem get?_index_of_notMem (h : path ∉ snapshot.paths) : snapshot.index.get? path = none := by
  rw [snapshot.index_eq, get?_indexFrom_of_notMem 0 ∅ h]
  rfl

/-- **The index leads a path to its last entry**, which is never beyond the entries. -/
theorem get?_index_iff {place : Nat} :
    snapshot.index.get? path = some place ↔
      ∃ fingerprint, snapshot.LastAt path place fingerprint := by
  by_cases hpath : path ∈ snapshot.paths
  · obtain ⟨last, fingerprint, hlast, hindex⟩ := exists_lastAt hpath
    rw [hindex, Option.some.injEq]
    constructor
    · rintro rfl
      exact ⟨fingerprint, hlast⟩
    · rintro ⟨other, hother⟩
      exact (hlast.unique hother).1
  · rw [get?_index_of_notMem hpath]
    constructor
    · rintro ⟨⟩
    · rintro ⟨fingerprint, hlast⟩
      exact absurd hlast.mem_paths hpath

theorem get?_eq_some_iff {fingerprint : Fingerprint} :
    snapshot.get? path = some fingerprint ↔
      ∃ place, snapshot.LastAt path place fingerprint := by
  by_cases hpath : path ∈ snapshot.paths
  · obtain ⟨last, found, hlast, hindex⟩ := exists_lastAt hpath
    have hget : snapshot.get? path = some found := by
      simp only [get?, hindex]
      rw [hlast.1, Option.map_some]
    rw [hget, Option.some.injEq]
    constructor
    · rintro rfl
      exact ⟨last, hlast⟩
    · rintro ⟨place, hplace⟩
      exact (hlast.unique hplace).2
  · have hget : snapshot.get? path = none := by simp only [get?, get?_index_of_notMem hpath]
    rw [hget]
    constructor
    · rintro ⟨⟩
    · rintro ⟨place, hplace⟩
      exact absurd hplace.mem_paths hpath

theorem get?_eq_none_iff : snapshot.get? path = none ↔ path ∉ snapshot.paths := by
  rw [← not_iff_not, Decidable.not_not, ← ne_eq, Option.ne_none_iff_exists']
  constructor
  · rintro ⟨fingerprint, hfound⟩
    obtain ⟨place, hplace⟩ := get?_eq_some_iff.1 hfound
    exact hplace.mem_paths
  · intro hpath
    obtain ⟨place, fingerprint, hplace, -⟩ := exists_lastAt hpath
    exact ⟨fingerprint, get?_eq_some_iff.2 ⟨place, hplace⟩⟩

/-- Where no path occurs twice, each entry is found under its own path. -/
theorem get?_of_nodup (h : snapshot.paths.Nodup) {entry : String × Fingerprint}
    (hentry : entry ∈ snapshot.entries) : snapshot.get? entry.1 = some entry.2 := by
  obtain ⟨front, back, hentries⟩ := List.append_of_mem hentry
  rw [get?_eq_some_iff]
  refine ⟨front.length, lastAt_of_split hentries ?_⟩
  rw [paths, hentries, List.map_append, List.map_cons, List.nodup_append] at h
  exact (List.nodup_cons.1 h.2.1).1

end Snapshot

/-! ### Equality -/

/-- A fingerprint without its modification time. -/
def Fingerprint.untimed (fingerprint : Fingerprint) : Fingerprint :=
  ⟨fingerprint.path, fingerprint.content.touch 0⟩

theorem Content.beq_iff_touch {x y : Content} : (x == y) = true ↔ x.touch 0 = y.touch 0 := by
  rw [Content.beq_iff]
  cases x <;> cases y <;> simp [kind, hash?, touch]

theorem Fingerprint.beq_iff_untimed {x y : Fingerprint} :
    (x == y) = true ↔ x.untimed = y.untimed := by
  rw [Fingerprint.beq_iff, Content.beq_iff_touch, untimed, untimed, Fingerprint.mk.injEq]

/-- Snapshots agree when paths, fingerprints without times and marks do; the index has no say. -/
theorem Snapshot.beq_iff_untimed {x y : Snapshot} : (x == y) = true ↔
    x.entries.map (fun entry => (entry.1, entry.2.untimed))
        = y.entries.map (fun entry => (entry.1, entry.2.untimed)) ∧
      x.compareStrategy = y.compareStrategy ∧ x.isAbsolute = y.isAbsolute := by
  have halike : List.Forall₂ Fingerprint.Alike x.entries y.entries ↔
      x.entries.map (fun entry => (entry.1, entry.2.untimed))
        = y.entries.map (fun entry => (entry.1, entry.2.untimed)) := by
    have hentry : Fingerprint.Alike = fun a b => (a.1, a.2.untimed) = (b.1, b.2.untimed) := by
      funext a b
      rw [Fingerprint.Alike, Fingerprint.beq_iff_untimed, Prod.mk.injEq]
    rw [hentry, ← List.forall₂_eq_eq_eq, List.forall₂_map_left_iff, List.forall₂_map_right_iff]
  rw [Snapshot.beq_iff, halike]

/-! ### Snapshots that a call has given -/

/-- **A call gives no path twice.** -/
theorem Vantage.nodup_paths_of_snapshot {vantage : Vantage} {recipe : Recipe} {roots : List Root}
    {compareStrategy : CompareStrategy} {strategy : Strategy} {ledger : Ledger}
    {snapshot : Snapshot}
    (h : ((vantage.snapshot recipe roots compareStrategy strategy).on ledger).1 = .ok snapshot) :
    snapshot.paths.Nodup := by
  rcases hgather : (vantage.gather recipe roots).on ledger with ⟨failure | entries, middle⟩
  · rw [on_snapshot_of_gather_error _ _ _ _ _ hgather] at h
    cases h
  obtain ⟨pool, hsnapshot⟩ := on_snapshot_of_gather _ _ _ compareStrategy strategy hgather
  rw [hsnapshot] at h
  rcases hchoose : strategy.choose [] entries with failure | chosen
  · rw [hchoose] at h
    cases h
  · rw [hchoose] at h
    obtain rfl : Snapshot.ofAccepted chosen compareStrategy strategy.isAbsolute = snapshot :=
      Except.ok.inj h
    have htracks : strategy.Tracks [] [] := by
      intro path
      simp
    rw [Snapshot.paths, Snapshot.entries_ofAccepted, Strategy.accepted_of_choose htracks hchoose]
    exact Strategy.nodup_accepted

end Treeprint
