import Mathlib.Data.List.Forall2
import Treeprint.Proofs.Fresh

/-!
# What a comparison looks at

Contents, fingerprints and snapshots are compared by tests of their own, which pass over
modification times.  Here is what each of them comes to.  The index of a snapshot is compared as
well, but it adds nothing: where the paths are the same the index is (`indexFrom_congr`).
-/

namespace Treeprint

theorem Content.beq_iff {x y : Content} :
    (x == y) = true ↔ x.kind = y.kind ∧ x.hash? = y.hash? := by
  have hbeq : (x == y) = true ↔ x.key = y.key := decide_eq_true_iff
  rw [hbeq]
  cases x with
  | missing | directory => cases y <;> simp [key, rank, kind, hash?]
  | regularFile hash modified =>
    cases y with
    | missing | directory => simp [key, rank, kind, hash?]
    | regularFile other otherModified =>
      obtain ⟨bytes⟩ := hash
      obtain ⟨otherBytes⟩ := other
      simp [key, rank, kind, hash?]

theorem Fingerprint.beq_iff {x y : Fingerprint} :
    (x == y) = true ↔ x.path = y.path ∧ (x.content == y.content) = true := by
  have hbeq : (x == y) = (decide (x.path = y.path) && x.content == y.content) := rfl
  rw [hbeq, Bool.and_eq_true, decide_eq_true_iff]

/-- Lists are compared entry by entry. -/
theorem beq_iff_forall₂ {α : Type} [BEq α] {xs ys : List α} :
    (xs == ys) = true ↔ List.Forall₂ (fun x y => (x == y) = true) xs ys := by
  induction xs generalizing ys with
  | nil => cases ys <;> simp
  | cons x xs ih => cases ys <;> simp [ih]

/-- An index is made of the paths alone. -/
theorem indexFrom_congr {α β : Type} {xs : List (String × α)} {ys : List (String × β)}
    (h : xs.map Prod.fst = ys.map Prod.fst) (start : Nat) (index : Table Nat) :
    indexFrom start index xs = indexFrom start index ys := by
  induction xs generalizing ys start index with
  | nil =>
    obtain rfl : ys = [] := List.map_eq_nil_iff.1 h.symm
    rfl
  | cons entry xs ih =>
    obtain ⟨other, others, rfl⟩ := List.exists_cons_of_ne_nil
      (show ys ≠ [] by rintro rfl; simp at h)
    obtain ⟨hpath, hrest⟩ := List.cons.inj h
    rw [indexFrom, indexFrom, hpath]
    exact ih hrest ..

/-- Entries of snapshots that a comparison does not tell apart. -/
def Fingerprint.Alike (x y : String × Fingerprint) : Prop := x.1 = y.1 ∧ (x.2 == y.2) = true

namespace Snapshot

/-- **Snapshots agree when their entries do, one by one, and they are marked alike.** -/
theorem beq_iff {x y : Snapshot} : (x == y) = true ↔
    List.Forall₂ Fingerprint.Alike x.entries y.entries ∧ x.compareStrategy = y.compareStrategy ∧
      x.isAbsolute = y.isAbsolute := by
  have hbeq : (x == y) = (x.entries == y.entries && decide (x.compareStrategy = y.compareStrategy)
      && x.isAbsolute == y.isAbsolute && x.index.items == y.index.items) := rfl
  have hentry : (fun a b : String × Fingerprint => (a == b) = true) = Fingerprint.Alike := by
    funext a b
    have hpair : (a == b) = (a.1 == b.1 && a.2 == b.2) := rfl
    rw [hpair, Bool.and_eq_true, beq_iff_eq, Fingerprint.Alike]
  rw [hbeq, Bool.and_eq_true, Bool.and_eq_true, Bool.and_eq_true, beq_iff_forall₂, hentry,
    decide_eq_true_iff, beq_iff_eq, beq_iff_eq, and_assoc, and_assoc]
  constructor
  · rintro ⟨hentries, hstrategy, habsolute, -⟩
    exact ⟨hentries, hstrategy, habsolute⟩
  · rintro ⟨hentries, hstrategy, habsolute⟩
    refine ⟨hentries, hstrategy, habsolute, ?_⟩
    have hpaths : x.entries.map Prod.fst = y.entries.map Prod.fst := by
      rw [← List.forall₂_eq_eq_eq, List.forall₂_map_left_iff, List.forall₂_map_right_iff]
      exact hentries.imp fun _ _ halike => halike.1
    rw [x.index_eq, y.index_eq, indexFrom_congr hpaths]

/-- What a call makes of accepted entries is compared by the entries. -/
theorem ofAccepted_beq_iff {xs ys : List (String × Fingerprint)} {compareStrategy : CompareStrategy}
    {isAbsolute : Bool} :
    (ofAccepted xs compareStrategy isAbsolute == ofAccepted ys compareStrategy isAbsolute) = true
      ↔ List.Forall₂ Fingerprint.Alike xs ys := by
  rw [beq_iff]
  cases xs with
  | nil => cases ys <;> simp [ofAccepted, empty, ofEntries]
  | cons x xs => cases ys <;> simp [ofAccepted, empty, ofEntries]

end Snapshot

end Treeprint
