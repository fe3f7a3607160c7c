import Treeprint.Proofs.Ways

/-!
# What a survey lists, and where it ends

A survey counts down the links that it may still follow.  `Survey.Ends` gives the same walk by rules
that know of no such bound: a derivation of it is a walk that has come to its end.  The first main
statement is that **the walk ends, and the survey is its outcome** (`ends_below_iff`).  The bound is
never met, because a path with too many links is not followed in the first place.

The second one is by induction on that walk: **a survey covers the ways below its top**
(`covers_below`).  It lists them in order and stops at the first that is blocked, so without an
obstacle it lists all of them.  `Survey.Covers` says this of any part of a walk, and parts that come
one after the other are put together by `Covers.andThen`.
-/

namespace Treeprint

def Forest.IsPart (forest whole : Forest) : Prop :=
  ∀ name node, forest.find? name = some node → whole.find? name = some node

namespace Forest

theorem IsPart.first {name : Name} {node : Node} {rest whole : Forest}
    (h : (cons name node rest).IsPart whole) : whole.find? name = some node :=
  h name node (by rw [find?_cons, if_pos rfl])

/-- The entries after the first one have other names than the first. -/
theorem IsPart.rest {name : Name} {node : Node} {rest whole : Forest}
    (h : (cons name node rest).IsPart whole) (hcons : (cons name node rest).WellFormed) :
    rest.IsPart whole := by
  intro other node' hfind
  apply h
  rw [find?_cons, if_neg]
  · exact hfind
  · rintro rfl
    have hmem : other ∈ rest.names := by
      by_contra hnot
      rw [find?_eq_none_iff.2 hnot] at hfind
      cases hfind
    exact List.lt_irrefl _ ((wellFormed_cons_iff.1 hcons).2.1 other hmem)

theorem mem_names_of_find? {forest : Forest} {name : Name} {node : Node}
    (h : forest.find? name = some node) : name ∈ forest.names := by
  by_contra hnot
  rw [find?_eq_none_iff.2 hnot] at h
  cases h

end Forest

namespace Survey

open Disk

variable {disk : Disk} {top : List Name}

/-! ### The walk without a bound -/

/-- The walk of the entries of the directory at `location`, which is entered under `names`, ends in
    a survey.  However many links have been followed, a link to a directory that is not being walked
    is entered. -/
inductive Ends (disk : Disk) (top : List Name) :
    (passed : List (List Name)) → (location names : List Name) → Forest → Survey → Prop
  | nil {passed : List (List Name)} {location names : List Name} :
    Ends disk top passed location names .nil nothing
  /-- A leaf that is not entered. -/
  | leaf {passed : List (List Name)} {location names : List Name} {name : Name} {value : Leaf}
    {rest : Forest} {entry survey : Survey} :
    (∀ enter, ofLeaf disk top .all enter passed (names ++ [name]) value = entry) →
    Ends disk top passed location names rest survey →
    Ends disk top passed location names (.leaf name value rest) (entry.andThen fun _ => survey)
  | link {passed : List (List Name)} {location names : List Name} {name : Name} {target : Bytes}
    {rest : Forest} {reached : List Name} {inner : Forest} {entries survey : Survey} :
    disk.follow [] (top ++ (names ++ [name])) = .ok (.directory reached inner) →
    reached ∉ passed →
    Ends disk top (reached :: passed) reached (names ++ [name]) inner entries →
    Ends disk top passed location names rest survey →
    Ends disk top passed location names (.leaf name (.link target) rest)
      (((one (names ++ [name]) .directory).andThen fun _ => entries).andThen fun _ => survey)
  | directory {passed : List (List Name)} {location names : List Name} {name : Name}
    {inner rest : Forest} {entries survey : Survey} :
    Ends disk top ((location ++ [name]) :: passed) (location ++ [name]) (names ++ [name]) inner
      entries →
    Ends disk top passed location names rest survey →
    Ends disk top passed location names (.directory name inner rest)
      (((one (names ++ [name]) .directory).andThen fun _ => entries).andThen fun _ => survey)

/-- A link that is not entered, whatever entering would give, leads to no directory, or back to one
    that is being walked. -/
theorem mem_passed_of_not_entered {passed : List (List Name)} {names reached : List Name}
    {target : Bytes} {inner : Forest} {entry : Survey}
    (hentry : ∀ enter, ofLeaf disk top .all enter passed names (.link target) = entry)
    (hfollow : disk.follow [] (top ++ names) = .ok (.directory reached inner)) :
    reached ∈ passed := by
  by_contra hnot
  have hempty := hentry fun _ _ _ _ => nothing
  rw [← hentry fun _ _ _ _ => stop (.loop [])] at hempty
  simp [ofLeaf, hfollow, if_neg hnot, Filter.all, andThen, one, nothing, stop] at hempty

theorem Ends.unique {passed : List (List Name)} {location names : List Name} {forest : Forest}
    {survey other : Survey} (h : Ends disk top passed location names forest survey)
    (hother : Ends disk top passed location names forest other) : survey = other := by
  induction h generalizing other with
  | nil =>
    cases hother
    rfl
  | leaf hentry _ ih =>
    cases hother with
    | leaf hentry' hrest =>
      rw [ih hrest, ← hentry fun _ _ _ _ => nothing, hentry']
    | link hfollow hfresh _ _ => exact absurd (mem_passed_of_not_entered hentry hfollow) hfresh
  | link hfollow hfresh _ _ ihinner ih =>
    cases hother with
    | leaf hentry _ => exact absurd (mem_passed_of_not_entered hentry hfollow) hfresh
    | link hfollow' _ hinner hrest =>
      rw [hfollow] at hfollow'
      cases hfollow'
      rw [ihinner hinner, ih hrest]
  | directory _ _ ihinner ih =>
    cases hother with
    | directory hinner hrest => rw [ihinner hinner, ih hrest]

/-- The walk of a forest ends when the walks of what is entered by a link do; behind a link there
    are fewer links left. -/
theorem ends_ofForest {enter : Entering} {passed : List (List Name)} {location names : List Name}
    {whole forest : Forest} {left : Nat} (h : disk.Reaches top names location whole left)
    (hpart : forest.IsPart whole) (hforest : forest.WellFormed)
    (henter : ∀ {fewer passed reached names inner}, fewer < left →
      disk.Reaches top names reached inner fewer →
      Ends disk top passed reached names inner (enter passed reached names inner)) :
    Ends disk top passed location names forest
      (ofForest disk top .all enter passed location names forest) := by
  induction forest generalizing passed location names whole with
  | nil => exact .nil
  | leaf name value rest ih =>
    have hcons : (Forest.cons name (.leaf value) rest).IsPart whole := hpart
    have hrest : Ends disk top passed location names rest _ := ih h (hcons.rest hforest) hforest.2.2
    have hfind := hcons.first
    cases value with
    | link target =>
      rcases hfollow : disk.follow [] (top ++ (names ++ [name])) with
        trouble | ⟨reached, inner⟩ | ⟨_, value⟩ | _
      · exact .leaf (fun _ => by simp only [ofLeaf, hfollow]) hrest
      · by_cases hpassed : reached ∈ passed
        · exact .leaf (fun _ => by simp only [ofLeaf, hfollow, if_pos hpassed]) hrest
        · obtain ⟨fewer, hfewer, hreaches⟩ := h.link hfind hfollow
          have hentries : ofLeaf disk top .all enter passed (names ++ [name]) (.link target)
              = (one (names ++ [name]) .directory).andThen fun _ =>
                enter (reached :: passed) reached (names ++ [name]) inner := by
            simp [ofLeaf, hfollow, if_neg hpassed, Filter.all]
          rw [ofForest, hentries]
          exact .link hfollow hpassed (henter hfewer hreaches) hrest
      · exact .leaf (fun _ => by cases value <;> simp only [ofLeaf, hfollow]) hrest
      · exact .leaf (fun _ => by simp only [ofLeaf, hfollow]) hrest
    | _ => exact .leaf (fun _ => rfl) hrest
  | directory name inner rest ihinner ih =>
    have hcons : (Forest.cons name (.directory inner) rest).IsPart whole := hpart
    have hrest : Ends disk top passed location names rest _ :=
      ih h (hcons.rest hforest) hforest.2.2.2
    have hinner := h.directory hcons.first
    rw [ofForest]
    simp only [Filter.all, if_true]
    exact .directory (ihinner hinner (fun _ _ hfind => hfind) hforest.2.2.1) hrest

theorem ends_upTo {links left : Nat} (hleft : left ≤ links) {passed : List (List Name)}
    {location names : List Name} {inside : Forest}
    (h : disk.Reaches top names location inside left) :
    Ends disk top passed location names inside
      (upTo disk top .all (links + 1) passed location names inside) := by
  induction links generalizing left passed location names inside with
  | zero =>
    refine ends_ofForest h (fun _ _ hfind => hfind) h.wellFormed ?_
    intro fewer _ _ _ _ hfewer _
    omega
  | succ links ih =>
    refine ends_ofForest h (fun _ _ hfind => hfind) h.wellFormed ?_
    intro fewer _ _ _ _ hfewer hreaches
    exact ih (by omega) hreaches

/-- **The walk below a directory ends, and the survey is its outcome.** -/
theorem ends_below_iff {location : List Name} {inside : Forest}
    (h : disk.follow [] top = .ok (.directory location inside)) (survey : Survey) :
    Ends disk top [location] location [] inside survey ↔ survey = below disk top .all := by
  obtain ⟨left, hleft, hreaches⟩ := exists_reaches h
  have hends : Ends disk top [location] location [] inside (below disk top .all) := by
    rw [below, h]
    exact ends_upTo hleft hreaches
  constructor
  · intro hsurvey
    exact hsurvey.unique hends
  · rintro rfl
    exact hends

/-! ### What a part of a survey covers -/

/-- A survey lists ways of a scope in order.  It lists each of them that comes before its obstacle,
    and the obstacle is the first that is blocked. -/
structure Covers (disk : Disk) (top : List Name) (scope : List Name → Prop) (survey : Survey) :
    Prop where
  increasing : (survey.seen.map Sighting.names).Pairwise (· < ·)
  shown : ∀ sighting ∈ survey.seen,
    scope sighting.names ∧ disk.Shows top sighting.names sighting.sight
  complete : ∀ way, scope way → (∀ obstacle ∈ survey.obstacle, way < obstacle.names) →
    way ∈ survey.seen.map Sighting.names
  blocked : ∀ obstacle ∈ survey.obstacle, scope obstacle.names ∧ disk.Blocks top obstacle ∧
    ∀ sighting ∈ survey.seen, sighting.names < obstacle.names

namespace Covers

variable {scope later : List Name → Prop} {survey : Survey}

theorem nothing (h : ∀ way, ¬ scope way) : Covers disk top scope nothing where
  increasing := .nil
  shown _ hsighting := nomatch hsighting
  complete way hway _ := absurd hway (h way)
  blocked _ hobstacle := nomatch hobstacle

theorem one {way : List Name} {sight : Sight} (hshows : disk.Shows top way sight)
    (hscope : ∀ other, scope other ↔ other = way) : Covers disk top scope (one way sight) where
  increasing := List.pairwise_singleton _ _
  shown sighting hsighting := by
    rw [Survey.one, List.mem_singleton] at hsighting
    rw [hsighting]
    exact ⟨(hscope way).2 rfl, hshows⟩
  complete other hother _ := by
    rw [(hscope other).1 hother]
    exact List.mem_singleton_self way
  blocked _ hobstacle := nomatch hobstacle

theorem stop {obstacle : Obstacle} (hblocks : disk.Blocks top obstacle)
    (hscope : scope obstacle.names) (hfirst : ∀ way, scope way → ¬ way < obstacle.names) :
    Covers disk top scope (stop obstacle) where
  increasing := .nil
  shown _ hsighting := nomatch hsighting
  complete way hway hbefore := absurd (hbefore obstacle rfl) (hfirst way hway)
  blocked other hother := by
    cases hother
    exact ⟨hscope, hblocks, fun _ hsighting => nomatch hsighting⟩

theorem congr (h : Covers disk top scope survey) (hscope : ∀ way, scope way ↔ later way) :
    Covers disk top later survey := by
  obtain rfl : scope = later := funext fun way => propext (hscope way)
  exact h

/-- Two parts, one after the other, cover both scopes when all of the first comes before all of the
    second. -/
theorem andThen {first second : Survey} (hfirst : Covers disk top scope first)
    (hsecond : Covers disk top later second)
    (horder : ∀ way other, scope way → later other → way < other) :
    Covers disk top (fun way => scope way ∨ later way) (first.andThen fun _ => second) := by
  rcases hobstacle : first.obstacle with _ | obstacle
  · have heq : (first.andThen fun _ => second)
        = ⟨first.seen ++ second.seen, second.obstacle⟩ := by
      simp only [Survey.andThen, hobstacle]
    rw [heq]
    constructor
    · rw [List.map_append, List.pairwise_append]
      refine ⟨hfirst.increasing, hsecond.increasing, ?_⟩
      intro way hway other hother
      obtain ⟨sighting, hsighting, rfl⟩ := List.mem_map.1 hway
      obtain ⟨sighting', hsighting', rfl⟩ := List.mem_map.1 hother
      exact horder _ _ (hfirst.shown sighting hsighting).1 (hsecond.shown sighting' hsighting').1
    · intro sighting hsighting
      rcases List.mem_append.1 hsighting with hsighting | hsighting
      · exact (hfirst.shown sighting hsighting).imp_left .inl
      · exact (hsecond.shown sighting hsighting).imp_left .inr
    · intro way hway hbefore
      rw [List.map_append, List.mem_append]
      rcases hway with hway | hway
      · exact .inl (hfirst.complete way hway (by simp [hobstacle]))
      · exact .inr (hsecond.complete way hway hbefore)
    · intro obstacle hsome
      obtain ⟨hscope, hblocks, hbefore⟩ := hsecond.blocked obstacle hsome
      refine ⟨.inr hscope, hblocks, ?_⟩
      intro sighting hsighting
      rcases List.mem_append.1 hsighting with hsighting | hsighting
      · exact horder _ _ (hfirst.shown sighting hsighting).1 hscope
      · exact hbefore sighting hsighting
  · -- the second part is not looked at, and all of it comes after the obstacle
    have heq : (first.andThen fun _ => second) = first := by
      simp only [Survey.andThen, hobstacle]
    rw [heq]
    obtain ⟨hscope, -, -⟩ := hfirst.blocked obstacle hobstacle
    constructor
    · exact hfirst.increasing
    · intro sighting hsighting
      exact (hfirst.shown sighting hsighting).imp_left .inl
    · intro way hway hbefore
      rcases hway with hway | hway
      · exact hfirst.complete way hway hbefore
      · exact absurd (hbefore obstacle hobstacle) (List.lt_asymm (horder _ _ hscope hway))
    · intro other hother
      exact (hfirst.blocked other hother).imp_left .inl

end Covers

/-! ### Scopes -/

/-- The ways that lead through one of the entries of a forest, which is entered under `names`. -/
def Within (disk : Disk) (top names : List Name) (forest : Forest) (way : List Name) : Prop :=
  disk.Way top way ∧ ∃ name ∈ forest.names, names ++ [name] <+: way

/-- The ways at and below one way. -/
def Under (disk : Disk) (top front way : List Name) : Prop := disk.Way top way ∧ front <+: way

theorem within_cons_iff {names : List Name} {name : Name} (node : Node) {rest : Forest}
    (way : List Name) : Within disk top names (.cons name node rest) way ↔
      Under disk top (names ++ [name]) way ∨ Within disk top names rest way := by
  simp only [Within, Under, Forest.names_cons, List.mem_cons, or_and_right, exists_or,
    exists_eq_left, and_or_left]

/-- What leads through the first entry comes before what leads through a later one. -/
theorem under_lt_within {names : List Name} {name : Name} {node : Node} {rest : Forest}
    (hcons : (Forest.cons name node rest).WellFormed) (way other : List Name)
    (hway : Under disk top (names ++ [name]) way) (hother : Within disk top names rest other) :
    way < other := by
  obtain ⟨-, name', hname', hprefix⟩ := hother
  exact lt_of_prefixes ((Forest.wellFormed_cons_iff.1 hcons).2.1 name' hname') hway.2 hprefix

theorem under_iff_of_not_directory {front : List Name} (hfront : disk.Way top front)
    (h : ∀ location inside, disk.follow [] (top ++ front) ≠ .ok (.directory location inside))
    (way : List Name) : Under disk top front way ↔ way = front := by
  constructor
  · rintro ⟨hway, hprefix⟩
    rcases prefix_cases hprefix with rfl | ⟨name, hname⟩
    · rfl
    · obtain ⟨location, inside, hfollow, -⟩ := hway.directory_of_prefix hname
      exact absurd hfollow (h location inside)
  · rintro rfl
    exact ⟨hfront, List.prefix_rfl⟩

theorem under_iff_of_directory {front : List Name} (hfront : disk.Way top front)
    {location : List Name} {inside : Forest}
    (h : disk.follow [] (top ++ front) = .ok (.directory location inside)) (way : List Name) :
    Under disk top front way ↔ way = front ∨ Within disk top front inside way := by
  constructor
  · rintro ⟨hway, hprefix⟩
    rcases prefix_cases hprefix with rfl | ⟨name, hname⟩
    · exact .inl rfl
    · obtain ⟨location', inside', hfollow, hmem⟩ := hway.directory_of_prefix hname
      rw [h] at hfollow
      cases hfollow
      exact .inr ⟨hway, name, hmem, hname⟩
  · rintro (rfl | ⟨hway, name, -, hname⟩)
    · exact ⟨hfront, List.prefix_rfl⟩
    · exact ⟨hway, (List.prefix_append front [name]).trans hname⟩

/-! ### A walk covers what it walks -/

theorem covers_directory {front : List Name} {location : List Name} {inside : Forest}
    {entries : Survey} (hfront : disk.Way top front)
    (hfollow : disk.follow [] (top ++ front) = .ok (.directory location inside))
    (hcloses : ¬ disk.ClosesLoop top front)
    (hentries : Covers disk top (Within disk top front inside) entries) :
    Covers disk top (Under disk top front)
      ((one front .directory).andThen fun _ => entries) := by
  have hself : Covers disk top (· = front) (one front .directory) :=
    .one ⟨⟨_, hfollow, rfl⟩, hcloses⟩ fun _ => Iff.rfl
  have hboth := hself.andThen hentries ?_
  · exact hboth.congr fun way => (under_iff_of_directory hfront hfollow way).symm
  · rintro way other rfl ⟨-, name, -, hname⟩
    exact lt_of_prefix hname

theorem covers_stop {obstacle : Obstacle} (hfront : disk.Way top obstacle.names)
    (hblocks : disk.Blocks top obstacle) :
    Covers disk top (Under disk top obstacle.names) (stop obstacle) := by
  refine .stop hblocks ⟨hfront, List.prefix_rfl⟩ ?_
  intro way hway
  exact not_lt_of_prefix hway.2

theorem covers_one {front reached : List Name} {data : Bytes} {modified : Int}
    (hfront : disk.Way top front)
    (hfollow : disk.follow [] (top ++ front) = .ok (.leaf reached (.file data modified))) :
    Covers disk top (Under disk top front) (one front (.file data modified)) := by
  have hnone : ∀ location inside,
      disk.follow [] (top ++ front) ≠ .ok (.directory location inside) := by simp [hfollow]
  refine .one ⟨⟨_, hfollow, rfl⟩, ?_⟩ (under_iff_of_not_directory hfront hnone)
  rintro ⟨-, location, inside, hdirectory, -⟩
  exact hnone location inside hdirectory

/-- A leaf covers what is at and below it, unless it is a link to a directory that is not being
    walked: itself, when it is a file, and nothing before the obstacle that it is otherwise. -/
theorem covers_leaf {enter : Entering} {passed : List (List Name)} {names location : List Name}
    {whole : Forest} {left : Nat} {name : Name} {value : Leaf}
    (h : disk.Reaches top names location whole left)
    (hpassed : ∀ other, other ∈ passed ↔ disk.PassedOn top names other)
    (hway : disk.Way top names) (hfind : whole.find? name = some (.leaf value))
    (hentered : ∀ target, value = .link target → ∀ reached inner,
      disk.follow [] (top ++ (names ++ [name])) = .ok (.directory reached inner) →
      reached ∈ passed) :
    Covers disk top (Under disk top (names ++ [name]))
      (ofLeaf disk top .all enter passed (names ++ [name]) value) := by
  have hfront : disk.Way top (names ++ [name]) :=
    .entry hway h.follow (Forest.mem_names_of_find? hfind)
  have hlink : disk.IsLink top (names ++ [name]) ↔
      ∃ target, whole.find? name = some (.leaf (.link target)) := isLink_entry_iff h.follow
  rw [hfind] at hlink
  cases value with
  | link target =>
    have hislink : disk.IsLink top (names ++ [name]) := hlink.2 ⟨target, rfl⟩
    rcases hfollow : disk.follow [] (top ++ (names ++ [name])) with
      trouble | ⟨reached, inner⟩ | ⟨reached, value⟩ | reached
    · simp only [ofLeaf, hfollow]
      exact covers_stop hfront (.lost hfollow)
    · have hloop : reached ∈ passed := hentered target rfl reached inner hfollow
      have hcloses : disk.ClosesLoop top (names ++ [name]) := by
        refine ⟨hislink, reached, inner, hfollow, ?_⟩
        rw [List.dropLast_concat]
        exact (hpassed reached).1 hloop
      simp only [ofLeaf, hfollow, if_pos hloop]
      exact covers_stop hfront (.loop hcloses)
    · cases value with
      | file data modified =>
        simp only [ofLeaf, hfollow, Filter.all, if_true]
        exact covers_one hfront hfollow
      | _ =>
        simp only [ofLeaf, hfollow, Filter.all, if_true]
        exact covers_stop hfront (.linked hislink hfollow (by simp))
    · simp only [ofLeaf, hfollow]
      exact covers_stop hfront (.vacant hfollow)
  | file data modified =>
    simp only [ofLeaf, Filter.all, if_true]
    exact covers_one hfront (h.leaf hfind (by simp))
  | _ =>
    have hfollow := h.leaf hfind (by simp)
    simp only [ofLeaf, Filter.all, if_true]
    exact covers_stop hfront (.entry (by simp [hlink]) hfollow (by simp))

theorem covers_cons {names : List Name} {name : Name} {node : Node} {rest : Forest}
    (hcons : (Forest.cons name node rest).WellFormed) {entry survey : Survey}
    (hentry : Covers disk top (Under disk top (names ++ [name])) entry)
    (hrest : Covers disk top (Within disk top names rest) survey) :
    Covers disk top (Within disk top names (.cons name node rest))
      (entry.andThen fun _ => survey) :=
  (hentry.andThen hrest (under_lt_within hcons)).congr
    fun way => (within_cons_iff node way).symm

/-- A walk covers the ways through the entries that it walks.  The invariant is that the survey
    stands where the names lead, and that the directories which are being walked are those on the
    way. -/
theorem Ends.covers {passed : List (List Name)} {location names : List Name} {forest : Forest}
    {survey : Survey} (h : Ends disk top passed location names forest survey) {whole : Forest}
    {left : Nat} (hreaches : disk.Reaches top names location whole left)
    (hpart : forest.IsPart whole) (hforest : forest.WellFormed) (hway : disk.Way top names)
    (hpassed : ∀ other, other ∈ passed ↔ disk.PassedOn top names other) :
    Covers disk top (Within disk top names forest) survey := by
  induction h generalizing whole left with
  | nil => exact .nothing (by simp [Within, Forest.names])
  | @leaf _ _ names name value rest entry _ hentry _ ih =>
    have hcons : (Forest.cons name (.leaf value) rest).WellFormed := hforest
    have hentries : (Forest.cons name (.leaf value) rest).IsPart whole := hpart
    have hrest := ih hreaches (hentries.rest hcons) hforest.2.2 hway hpassed
    have hleaf : Covers disk top (Under disk top (names ++ [name])) entry := by
      rw [← hentry fun _ _ _ _ => .nothing]
      refine covers_leaf hreaches hpassed hway hentries.first ?_
      rintro target rfl reached inner hfollow
      exact mem_passed_of_not_entered hentry hfollow
    exact covers_cons hcons hleaf hrest
  | @link passed _ names name target rest reached inner _ _ hfollow hfresh _ _ ihinner ih =>
    have hcons : (Forest.cons name (.leaf (.link target)) rest).WellFormed := hforest
    have hentries : (Forest.cons name (.leaf (.link target)) rest).IsPart whole := hpart
    have hrest := ih hreaches (hentries.rest hcons) hforest.2.2 hway hpassed
    have hfind := hentries.first
    obtain ⟨fewer, -, hinner⟩ := hreaches.link hfind hfollow
    have hfront : disk.Way top (names ++ [name]) :=
      .entry hway hreaches.follow (Forest.mem_names_of_find? hfind)
    have hcloses : ¬ disk.ClosesLoop top (names ++ [name]) := by
      rintro ⟨-, location, inside, hdirectory, hon⟩
      rw [hfollow] at hdirectory
      cases hdirectory
      rw [List.dropLast_concat] at hon
      exact hfresh ((hpassed _).2 hon)
    have hcovers := ihinner hinner (fun _ _ hfind => hfind) hinner.wellFormed hfront fun other => by
      rw [List.mem_cons, hpassed, passedOn_entry hfollow]
    exact covers_cons hcons (covers_directory hfront hfollow hcloses hcovers) hrest
  | @directory passed _ names name inner rest _ _ _ _ ihinner ih =>
    have hcons : (Forest.cons name (.directory inner) rest).WellFormed := hforest
    have hentries : (Forest.cons name (.directory inner) rest).IsPart whole := hpart
    have hrest := ih hreaches (hentries.rest hcons) hforest.2.2.2 hway hpassed
    have hfind := hentries.first
    have hinner := hreaches.directory hfind
    have hfront : disk.Way top (names ++ [name]) :=
      .entry hway hreaches.follow (Forest.mem_names_of_find? hfind)
    have hcloses : ¬ disk.ClosesLoop top (names ++ [name]) := by
      intro hloop
      obtain ⟨target, htarget⟩ := (isLink_entry_iff hreaches.follow).1 hloop.1
      rw [hfind] at htarget
      cases htarget
    have hcovers := ihinner hinner (fun _ _ hfind => hfind) hforest.2.2.1 hfront fun other => by
      rw [List.mem_cons, hpassed, passedOn_entry hinner.follow]
    exact covers_cons hcons (covers_directory hfront hinner.follow hcloses hcovers) hrest

/-- **A survey covers the ways below its top.** -/
theorem covers_below {location : List Name} {inside : Forest}
    (h : disk.follow [] top = .ok (.directory location inside)) :
    Covers disk top (fun way => disk.Way top way ∧ way ≠ []) (below disk top .all) := by
  obtain ⟨left, -, hreaches⟩ := exists_reaches h
  have hends := (ends_below_iff h _).2 rfl
  have hcovers := hends.covers hreaches (fun _ _ hfind => hfind) hreaches.wellFormed .top
    fun other => by rw [List.mem_singleton, passedOn_nil h]
  apply hcovers.congr
  intro way
  have htop : disk.follow [] (top ++ []) = .ok (.directory location inside) := by
    rw [List.append_nil, h]
  have hunder := under_iff_of_directory .top htop way
  constructor
  · rintro ⟨hway, name, -, hname⟩
    refine ⟨hway, ?_⟩
    rintro rfl
    simp at hname
  · rintro ⟨hway, hne⟩
    exact (hunder.1 ⟨hway, List.nil_prefix⟩).resolve_left hne

/-- What is no directory has no ways below it, and nothing is seen there. -/
theorem below_of_not_directory
    (h : ∀ location inside, disk.follow [] top ≠ .ok (.directory location inside))
    (filter : Filter) : (below disk top filter).seen = [] ∧
      ∀ obstacle ∈ (below disk top filter).obstacle, ∃ trouble, obstacle = .lost [] trouble := by
  unfold below
  rcases hfollow : disk.follow [] top with trouble | ⟨location, inside⟩ | ⟨location, value⟩ | _
  · exact ⟨rfl, fun _ hobstacle => ⟨trouble, (Option.some.inj hobstacle).symm⟩⟩
  · exact absurd hfollow (h location inside)
  · exact ⟨rfl, fun _ hobstacle => nomatch hobstacle⟩
  · exact ⟨rfl, fun _ hobstacle => ⟨.missing, (Option.some.inj hobstacle).symm⟩⟩

theorem shown_below {sighting : Sighting} (h : sighting ∈ (below disk top .all).seen) :
    (disk.Way top sighting.names ∧ sighting.names ≠ []) ∧
      disk.Shows top sighting.names sighting.sight := by
  by_cases hdirectory : ∃ location inside, disk.follow [] top = .ok (.directory location inside)
  · obtain ⟨location, inside, hfollow⟩ := hdirectory
    exact (covers_below hfollow).shown sighting h
  · rw [(below_of_not_directory (by simpa using hdirectory) .all).1] at h
    cases h

end Survey

end Treeprint
