/-!
# Comparing many values

What an order and an equality make of a list: the places in increasing order, equal values in the
order in which they stand, and how many different values there are.  Sorting is stable
(`stablySorted_sorted`), which is what is known of it from here on.
-/

namespace Treeprint.Ranking

variable {α : Type}

/-- The places of a list, sorted by the values at them. -/
def sorted [Ord α] (values : List α) : List Nat :=
  (values.zipIdx.mergeSort (fun x y => (compare x.1 y.1).isLE)).map Prod.snd

/-- How many values there are when equal ones count once. -/
def distinct [BEq α] (values : List α) : Nat := values.eraseDups.length

/-- Each value with the one after it. -/
def neighbours (values : List α) : List (α × α) := values.zip values.tail

/-! ### Sorting is stable -/

/-- Places of a list, all of them, in an order that is stable: values that precede others come
    before them, and values of which neither precedes the other stay as they stood. -/
structure StablySorted (precedes : α → α → Prop) (values : List α) (places : List Nat) : Prop where
  all : places.Perm (List.range values.length)
  ordered : places.Pairwise fun i j => ∀ x ∈ values[i]?, ∀ y ∈ values[j]?,
    precedes x y ∨ (¬ precedes y x ∧ i < j)

theorem perm_sorted [Ord α] (values : List α) :
    (sorted values).Perm (List.range values.length) := by
  have hperm := (List.mergeSort_perm values.zipIdx
    fun x y => (compare x.1 y.1).isLE).map Prod.snd
  rw [List.zipIdx_map_snd] at hperm
  rw [List.range_eq_range']
  exact hperm

theorem eq_of_mem_zipIdx_zipIdx {values : List α} {x x' : α} {i k : Nat}
    (h : ((x, i), k) ∈ values.zipIdx.zipIdx) (hx' : x' ∈ values[i]?) : x' = x ∧ i = k := by
  rw [List.mk_mem_zipIdx_iff_getElem?, List.getElem?_zipIdx, Option.map_eq_some_iff] at h
  obtain ⟨y, hy, hyx⟩ := h
  rw [Nat.zero_add, Prod.mk.injEq] at hyx
  obtain ⟨rfl, rfl⟩ := hyx
  exact ⟨Option.some.inj (hx'.symm.trans hy), rfl⟩

/-- Of two values at their places, the one that may come first by `List.zipIdxLE` comes first, or
    compares as equal and stands first. -/
theorem lt_or_of_zipIdxLE [Ord α] [Std.OrientedOrd α] {x y : α × Nat} {k l : Nat}
    (h : List.zipIdxLE (fun x y : α × Nat => (compare x.1 y.1).isLE) (x, k) (y, l) = true) :
    compare x.1 y.1 = .lt ∨ compare y.1 x.1 ≠ .lt ∧ k ≤ l := by
  have hswap : compare y.1 x.1 = (compare x.1 y.1).swap := Std.OrientedCmp.eq_swap
  simp only [List.zipIdxLE] at h
  cases hxy : compare x.1 y.1 with
  | lt => exact .inl rfl
  | eq =>
    rw [hxy] at hswap
    rw [hxy, hswap] at h
    exact .inr ⟨by simp [hswap], by simpa using h⟩
  | gt =>
    rw [hxy] at h
    exact absurd h (by simp)

theorem stablySorted_sorted [Ord α] [Std.TransOrd α] (values : List α) :
    StablySorted (fun x y => compare x y = .lt) values (sorted values) := by
  let le (x y : α × Nat) : Bool := (compare x.1 y.1).isLE
  have htrans : ∀ x y z : α × Nat, le x y → le y z → le x z :=
    fun _ _ _ => Std.TransCmp.isLE_trans
  have htotal : ∀ x y : α × Nat, le x y || le y x := by
    intro x y
    show ((compare x.1 y.1).isLE || (compare y.1 x.1).isLE) = true
    rw [Std.OrientedOrd.eq_swap (a := y.1)]
    cases compare x.1 y.1 <;> rfl
  -- a place is put behind each value once more, and values that compare as equal go by it
  have hpairwise := List.pairwise_mergeSort (List.zipIdxLE_trans htrans)
    (List.zipIdxLE_total htotal) values.zipIdx.zipIdx
  have hplaces : sorted values
      = (values.zipIdx.zipIdx.mergeSort (List.zipIdxLE le)).map fun item => item.1.2 := by
    rw [sorted, ← List.mergeSort_zipIdx, List.map_map]
    rfl
  have hnodup : (sorted values).Nodup := (perm_sorted values).nodup_iff.2 List.nodup_range
  rw [hplaces, List.Nodup, List.pairwise_map] at hnodup
  refine ⟨perm_sorted values, ?_⟩
  rw [hplaces, List.pairwise_map]
  refine (hpairwise.and hnodup).imp_of_mem ?_
  rintro ⟨⟨x, i⟩, k⟩ ⟨⟨y, j⟩, l⟩ hx hy ⟨hle, hne⟩ x' hx' y' hy'
  obtain ⟨rfl, rfl⟩ := eq_of_mem_zipIdx_zipIdx (List.mem_mergeSort.1 hx) hx'
  obtain ⟨rfl, rfl⟩ := eq_of_mem_zipIdx_zipIdx (List.mem_mergeSort.1 hy) hy'
  exact (lt_or_of_zipIdxLE hle).imp_right fun ⟨hlt, hkl⟩ => ⟨hlt, Nat.lt_of_le_of_ne hkl hne⟩

end Treeprint.Ranking
