import Treeprint.Proofs.Eviction
import Treeprint.Proofs.Invalidation
import Treeprint.Proofs.Keys

/-!
# Naming a root again to have it looked at anew

A root that is named by a path is kept under the text of the location that the path spells, which
is absolute.  Whoever invalidates names a path too, and that path is compared as it is given.  So it
matters how the root was named.  An absolute path reaches what is kept for it, however it is
spelled, and so does the text of the location.  A relative path lies neither at nor above nor below
anything that is kept for a location, and nothing is dropped.

The main statement is `renewed_by_own_path`: **a root is renewed by its own path when that is
absolute, and else it is answered from memory as if nothing had been said**.
-/

namespace Treeprint

/-! ### Relative and absolute texts -/

namespace Path

/-- A relative path is neither at nor above nor below an absolute one. -/
theorem not_under_of_relative {path key : String} (hne : path ≠ "")
    (hpath : ¬ isAbsolute (Utf8.encode path) = true) (hkey : isAbsolute (Utf8.encode key) = true) :
    ¬ Under path key ∧ ¬ Under key path := by
  have hroot : Part.root ∉ parts (Utf8.encode path) := by rwa [root_mem_parts_iff]
  rw [Under, Under, parts_of_isAbsolute hkey]
  constructor
  · intro hunder
    have hparts : parts (Utf8.encode path) ≠ [] := by
      rw [ne_eq, parts_eq_nil_iff]
      exact Utf8.encode_ne_nil hne
    obtain ⟨part, rest, hcons⟩ := List.exists_cons_of_ne_nil hparts
    rw [hcons, List.cons_prefix_cons] at hunder
    rw [hcons, hunder.1] at hroot
    exact hroot List.mem_cons_self
  · intro hunder
    exact hroot (hunder.mem List.mem_cons_self)

end Path

/-! ### What invalidating a path leaves and drops -/

namespace Cache

variable {path key : String}

theorem path?_invalidate_of_under (cache : Cache) (h : Path.Under path key) :
    (cache.invalidate path).path? key = none := by
  rw [path?_invalidate, if_pos (Path.isUnder_iff.2 h)]

theorem listing?_invalidate_of_under (cache : Cache) (h : Path.Under path key) :
    (cache.invalidate path).listing? key = none := by
  rw [listing?_invalidate, Path.isUnder_iff.2 h]
  rfl

/-- Invalidating a relative path drops nothing that is held under an absolute one. -/
theorem invalidate_of_relative (cache : Cache) (hne : path ≠ "")
    (hpath : ¬ Path.isAbsolute (Utf8.encode path) = true)
    (hkey : Path.isAbsolute (Utf8.encode key) = true) :
    (cache.invalidate path).path? key = cache.path? key ∧
      (cache.invalidate path).listing? key = cache.listing? key := by
  obtain ⟨hbelow, habove⟩ := Path.not_under_of_relative hne hpath hkey
  rw [← Path.isUnder_iff, Bool.not_eq_true] at hbelow habove
  rw [path?_invalidate, listing?_invalidate, hbelow, habove]
  exact ⟨rfl, rfl⟩

theorem retains_invalidate_of_relative (cache : Cache) (hne : path ≠ "")
    (hpath : ¬ Path.isAbsolute (Utf8.encode path) = true) :
    Retains (fun key => Path.isAbsolute (Utf8.encode key) = true) cache
      (cache.invalidate path) where
  path? hkey hheld := (cache.invalidate_of_relative hne hpath hkey).1.trans hheld
  listing? hkey hheld := (cache.invalidate_of_relative hne hpath hkey).2.trans hheld

end Cache

/-! ### Looking at a root anew -/

namespace Vantage

variable {vantage : Vantage} {location : List Name} {ledger : Ledger}

/-- The roots that are named by one path. -/
inductive NamedBy (path : Bytes) : Root → Prop
  | member : NamedBy path (.members [path])
  | tree : NamedBy path (.tree path)

/-- A snapshot asks what its roots ask. -/
theorem asked_of_snapshot (vantage : Vantage) (recipe : Recipe) (roots : List Root)
    (compareStrategy : CompareStrategy) (strategy : Strategy) (ledger : Ledger) :
    ((vantage.snapshot recipe roots compareStrategy strategy).on ledger).2.asked
      = ((vantage.gather recipe roots).on ledger).2.asked := by
  rcases hrun : (vantage.gather recipe roots).on ledger with ⟨failure | entries, middle⟩
  · rw [on_snapshot_of_gather_error vantage recipe roots compareStrategy strategy hrun]
  · obtain ⟨pool, hsnapshot⟩ :=
      on_snapshot_of_gather vantage recipe roots compareStrategy strategy hrun
    rw [hsnapshot]

/-- A root of which nothing is held is asked for first of all. -/
theorem asksFor_snapshot {path : Bytes} {root : Root} (hroot : NamedBy path root)
    (hpath : Path.absolute vantage.current path = some location)
    (hfree : ledger.cache.path? (Path.text location) = none)
    (hfree' : ledger.cache.listing? (Path.text location) = none) (recipe : Recipe)
    (compareStrategy : CompareStrategy) (strategy : Strategy) :
    Work.AsksFor (.stat (Path.render location))
      (vantage.snapshot recipe [root] compareStrategy strategy) ledger := by
  have hexpand : Work.AsksFor (.stat (Path.render location)) (vantage.expand root) ledger := by
    cases hroot with
    | member => exact (asksFor_expandMember hpath hfree).bind fun _ => Work.grows_pure _
    | tree =>
      rw [expand, absolute_of_some hpath, pure_bind]
      exact (asksFor_expandTree hfree').bind fun _ => Work.grows_pure _
  rw [Work.AsksFor, asked_of_snapshot]
  exact hexpand.bind fun _ => Work.grows_pure _

end Vantage

/-- With this cache nothing is held for the location that names a root, and whoever takes a snapshot
    of the root asks what is there before anything else. -/
structure Renewed (current : List Name) (path : Bytes) (root : Root) (cache : Cache) : Prop where
  noPath : cache.path? (Path.text (Path.located current path)) = none
  noListing : cache.listing? (Path.text (Path.located current path)) = none
  asked {later : Vantage} {again : Ledger} : later.current = current → again.cache = cache →
    ∀ recipe compareStrategy strategy,
      Work.AsksFor (.stat (Path.render (Path.located current path)))
        (later.snapshot recipe [root] compareStrategy strategy) again

/-- Invalidating what the location is at or below renews its root. -/
theorem renewed_of_under {current : List Name} {path : Bytes} (hne : path ≠ []) {root : Root}
    (hroot : Vantage.NamedBy path root) (cache : Cache) {above : String}
    (habove : Path.Under above (Path.text (Path.located current path))) :
    Renewed current path root (cache.invalidate above) where
  noPath := cache.path?_invalidate_of_under habove
  noListing := cache.listing?_invalidate_of_under habove
  asked {later again} hcurrent hcache := by
    refine Vantage.asksFor_snapshot hroot ?_ ?_ ?_
    · rw [hcurrent, Path.absolute_eq_located hne]
    · rw [hcache, cache.path?_invalidate_of_under habove]
    · rw [hcache, cache.listing?_invalidate_of_under habove]

/-- The location that an absolute path spells is under the path itself. -/
theorem Path.under_text_located {path : String} (current : List Name)
    (habsolute : isAbsolute (Utf8.encode path) = true) :
    Under path (text (located current (Utf8.encode path))) := by
  have hlocated : located current (Utf8.encode path) = names (Utf8.encode path) := by
    rw [located, if_pos habsolute, List.nil_append]
  rw [hlocated, ← isUnder_iff, isUnder_text habsolute (isSpelled_names ⟨path, rfl⟩)]

/-- **A root is renewed by its own path when that is absolute.**  A relative path drops nothing that
    is held for any location, and then the root is answered from memory.  The text of the location
    renews the root however it was named. -/
theorem renewed_by_own_path {path : String} (hne : path ≠ "") {root : Root}
    (hroot : Vantage.NamedBy (Utf8.encode path) root) {vantage : Vantage} {recipe : Recipe}
    {compareStrategy : CompareStrategy} {strategy : Strategy} {ledger after : Ledger}
    {snapshot : Snapshot}
    (hsnapshot : (vantage.snapshot recipe [root] compareStrategy strategy).on ledger
      = (.ok snapshot, after)) :
    (Path.isAbsolute (Utf8.encode path) = true →
      Renewed vantage.current (Utf8.encode path) root (after.cache.invalidate path)) ∧
    Renewed vantage.current (Utf8.encode path) root
      (after.cache.invalidate (Path.text (Path.located vantage.current (Utf8.encode path)))) ∧
    (¬ Path.isAbsolute (Utf8.encode path) = true →
      (∀ location,
        (after.cache.invalidate path).path? (Path.text location)
            = after.cache.path? (Path.text location) ∧
          (after.cache.invalidate path).listing? (Path.text location)
            = after.cache.listing? (Path.text location)) ∧
      (vantage.SettlesRoot ledger root → ∀ {later : Vantage} {again : Ledger},
        later.current = vantage.current → again.cache = after.cache.invalidate path →
        ∃ pool, (later.snapshot recipe [root] compareStrategy strategy).on again
          = (.ok snapshot, { again with pool }))) := by
  have hencode : Utf8.encode path ≠ [] := Utf8.encode_ne_nil hne
  refine ⟨fun habsolute => ?_, ?_, fun hrelative => ?_⟩
  · exact renewed_of_under hencode hroot _ (Path.under_text_located _ habsolute)
  · exact renewed_of_under hencode hroot _ (Path.Under.refl _)
  · have hkept (location : List Name) := after.cache.invalidate_of_relative hne hrelative
      (Path.isAbsolute_encode_text location)
    refine ⟨hkept, fun hsettled later again hcurrent hcache => ?_⟩
    obtain ⟨walks, hwalks, hheld⟩ := Vantage.exists_held hsnapshot ⟨hsettled, trivial⟩
    apply hheld
    rw [hcurrent, hcache]
    exact hwalks.imp fun _ _ hwalk => hwalk.mono Path.isAbsolute_encode_text
      (after.cache.retains_invalidate_of_relative hne hrelative)

/-- The directory of `nestedDisk`, walked under the name `path` from the root directory. -/
def nestedCall (path : String) : Except Failure Snapshot × Ledger :=
  ((Vantage.plain nestedDisk []).snapshot .identity [.tree (Utf8.encode path)] .ordered
    .absolute).on ⟨.empty, .empty, []⟩

/-- An absolute name renews the tree in a spelling of its own, and so does the text of its
    location. -/
theorem renewed_by_own_path_spelled :
    Renewed [] (Utf8.encode "//d/.") (.tree (Utf8.encode "//d/."))
      ((nestedCall "//d/.").2.cache.invalidate "//d/.") ∧
    Renewed [] (Utf8.encode "//d/.") (.tree (Utf8.encode "//d/."))
      ((nestedCall "//d/.").2.cache.invalidate "/d") := by
  have hcall : ((Vantage.plain nestedDisk []).snapshot .identity [.tree (Utf8.encode "//d/.")]
      .ordered .absolute).on ⟨.empty, .empty, []⟩
      = (.ok (.ofEntries [("/d/e", ⟨.path "/d/e", .directory⟩)] .ordered true),
        (nestedCall "//d/.").2) := rfl
  obtain ⟨habsolute, htext, -⟩ := renewed_by_own_path (by decide) .tree hcall
  exact ⟨habsolute (by decide), htext⟩

/-- A relative name does not: the listing stays, and the next snapshot asks nothing. -/
theorem relative_name_renews_nothing :
    (nestedCall "d").1 = .ok (.ofEntries [("/d/e", ⟨.path "/d/e", .directory⟩)] .ordered true) ∧
    ((nestedCall "d").2.cache.invalidate "d").listingCount = 1 ∧
    (((Vantage.plain nestedDisk []).snapshot .identity [.tree (Utf8.encode "d")] .ordered
      .absolute).on ⟨(nestedCall "d").2.cache.invalidate "d", .empty, []⟩).2.asked = [] :=
  ⟨rfl, by decide, by decide⟩

end Treeprint
