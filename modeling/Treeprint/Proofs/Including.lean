import Mathlib.Data.List.TakeWhile
import Treeprint.Proofs.Pruning

/-!
# What includes let through, whatever they look like

An include is put into the list of lines as it is, and what it does there depends on how it begins.
One that is blank or begins with `#` counts for nothing, and one that begins with `!` drops what it
matches.  Excludes come with a `!` in front, which hides what they begin with: each of them drops
what it matches behind that `!`.

`PatternSet.Passes` says what this comes to.  **The last include that matches decides, and where
none matches, a file passes only if no include is an ordinary one**; what an exclude matches does
not pass.  So a file that passes is matched by an ordinary include as soon as there is one.  The
main statement, `filtered_walk_restricts`, says this of every walk that succeeds, and that more
excludes never let more through.
-/

namespace Treeprint

namespace Glob.Line

/-! ### How a line is read by its first character -/

theorem trimEnd_eq_nil_iff {line : List Char} :
    Text.trimEnd line = [] ↔ ∀ c ∈ line, Text.isBlank c = true := by
  simp [Text.trimEnd, List.dropWhile_eq_nil_iff]

theorem trimmed?_eq_none_iff {line : List Char} :
    trimmed? line = none ↔ line.head? = some '#' ∨ Text.trimEnd line = [] := by
  unfold trimmed?
  by_cases hcomment : line.head? = some '#'
  · simp [hcomment]
  · by_cases hblank : [' ', '\\'].isPrefixOf line.reverse = true
    · -- an escaped blank at the end stays, and its backslash is no blank
      have hmem : '\\' ∈ line := by
        rw [← List.mem_reverse]
        exact (List.isPrefixOf_iff_prefix.1 hblank).mem (by simp)
      have hne : line ≠ [] := List.ne_nil_of_mem hmem
      have htrim : Text.trimEnd line ≠ [] := fun h =>
        absurd (trimEnd_eq_nil_iff.1 h _ hmem) (by decide)
      simp [hcomment, hblank, hne, htrim]
    · simp [hcomment, hblank]

theorem head?_of_trimmed? {line text : List Char} (h : trimmed? line = some text) :
    text.head? = line.head? := by
  have hsome : trimmed? line ≠ none := by simp [h]
  rw [ne_eq, trimmed?_eq_none_iff, not_or] at hsome
  obtain ⟨hcomment, hblank⟩ := hsome
  simp only [trimmed?, if_neg hcomment, Option.ite_none_left_eq_some, Option.some.injEq] at h
  obtain ⟨-, rfl⟩ := h
  split_ifs
  · rfl
  · exact head?_trimEnd hblank

theorem turned_iff (text : List Char) : (marks text).1 = true ↔ text.head? = some '!' := by
  unfold marks
  split
  case h_6 hturned _ =>
    rw [List.head?_eq_some_iff]
    exact ⟨nofun, fun ⟨rest, hrest⟩ => absurd hrest (hturned rest)⟩
  all_goals simp

/-- The rule of a line; a line that cannot be read has none. -/
def ruleOf (line : List Char) : Option Rule := (rule? line).toOption.join

theorem ruleOf_of_rule? {line : List Char} {result : Option Rule} (h : rule? line = .ok result) :
    ruleOf line = result := by
  rw [ruleOf, h]
  rfl

theorem covers_eq (line : List Char) (path : Bytes) (isDirectory : Bool) :
    covers line path isDirectory = (ruleOf line).any (·.applies path isDirectory) := by
  unfold covers ruleOf
  rcases rule? line with flaw | _ | rule <;> rfl

theorem exists_trimmed? {line : List Char} {rule : Rule} (h : ruleOf line = some rule) :
    ∃ text, trimmed? line = some text := by
  rcases htrimmed : trimmed? line with _ | text
  · simp [ruleOf, rule?, htrimmed, Except.toOption] at h
  · exact ⟨text, rfl⟩

/-- Of the lines that have a rule, those are ordinary that do not begin with `!`. -/
theorem ordinary_iff {line : List Char} {rule : Rule} (h : ruleOf line = some rule) :
    Ordinary line ↔ line.head? ≠ some '!' := by
  obtain ⟨text, htrimmed⟩ := exists_trimmed? h
  have hsome : trimmed? line ≠ none := by simp [htrimmed]
  rw [ne_eq, trimmed?_eq_none_iff, not_or] at hsome
  exact ⟨Ordinary.notTurned, fun hturned => ⟨hsome.2, hturned, hsome.1⟩⟩

/-- **The rule of a line keeps what it matches if the line is ordinary, and else drops it.** -/
theorem keeps_iff {line : List Char} {rule : Rule} (h : ruleOf line = some rule) :
    rule.keeps = true ↔ Ordinary line := by
  obtain ⟨text, htrimmed⟩ := exists_trimmed? h
  have hkeeps : rule.keeps = !(marks text).1 := by
    rcases hmarks : marks text with ⟨turned, tied, rest⟩
    rcases hend : endMark rest with ⟨directoriesOnly, inner⟩
    rw [ruleOf, rule?_of_parts htrimmed hmarks hend] at h
    rcases hread : read (glob tied inner) with flaw | tokens
    · simp [hread, Except.toOption] at h
    · simp only [hread, Except.toOption, Option.join_some, Option.some.injEq] at h
      rw [← h]
  rw [hkeeps, Bool.not_eq_true', ← Bool.not_eq_true, turned_iff, head?_of_trimmed? htrimmed,
    ordinary_iff h]

/-- An ordinary line that can be read has a rule. -/
theorem Ordinary.exists_rule {line : List Char} (h : Ordinary line) {result : Option Rule}
    (hrule : rule? line = .ok result) : ∃ rule, ruleOf line = some rule := by
  rcases rule?_bang h with ⟨tokens, directoriesOnly, halone, -⟩ | ⟨flaw, -, halone, -⟩
  · exact ⟨_, ruleOf_of_rule? halone⟩
  · rw [halone] at hrule
    cases hrule

theorem not_ordinary_bang (line : List Char) : ¬ Ordinary ('!' :: line) :=
  fun h => h.notTurned rfl

/-- Behind a `!` an ordinary line matches what it matches by itself. -/
theorem Ordinary.covers_bang {line : List Char} (h : Ordinary line) (path : Bytes)
    (isDirectory : Bool) :
    covers ('!' :: line) path isDirectory = covers line path isDirectory := by
  rcases rule?_bang h with ⟨tokens, directoriesOnly, halone, hbang⟩ | ⟨flaw, flaw', halone, hbang⟩
  · rw [covers, covers, halone, hbang]
    rfl
  · rw [covers, covers, halone, hbang]

end Glob.Line

namespace PatternSet

open Glob

/-! ### What passes -/

/-- What a list of includes makes of a path: the last that matches it is an ordinary pattern, or
    none matches it, and it is a directory or no include is an ordinary pattern. -/
inductive Keeps (includes : List String) (path : Bytes) (isDirectory : Bool) : Prop
  | last {front back : List String} {pattern : String}
      (hsplit : includes = front ++ pattern :: back)
    (hordinary : Line.Ordinary pattern.toList)
    (hcovers : Line.covers pattern.toList path isDirectory = true)
    (hback : ∀ other ∈ back, Line.covers other.toList path isDirectory = false)
  | unmatched (hnone : ∀ pattern ∈ includes, Line.covers pattern.toList path isDirectory = false)
    (hfree : isDirectory = true ∨ ∀ pattern ∈ includes, ¬ Line.Ordinary pattern.toList)

/-- What a pattern set makes of a path: its includes keep it, and no exclude matches it behind its
    `!`. -/
structure Passes (patterns : PatternSet) (names : List Name) (isDirectory : Bool) : Prop where
  kept : Keeps patterns.includes (List.intercalate [Path.slash] names) isDirectory
  notLeftOut : ∀ pattern ∈ patterns.excludes,
    Line.covers ('!' :: pattern.toList) (List.intercalate [Path.slash] names) isDirectory = false

theorem rulesOf_eq {lines : List (String × List Char)} {rules : List Rule}
    (h : rulesOf lines = .ok rules) :
    rules = lines.filterMap (fun line => Line.ruleOf line.2) ∧
      ∀ line ∈ lines, ∃ result, Line.rule? line.2 = .ok result := by
  induction lines generalizing rules with
  | nil =>
    cases h
    exact ⟨rfl, by simp⟩
  | cons line lines ih =>
    obtain ⟨pattern, text⟩ := line
    rw [rulesOf] at h
    rcases hrule : Line.rule? text with flaw | result
    · simp [hrule] at h
    · rcases hrest : rulesOf lines with failure | rest
      · simp [hrule, hrest] at h
      · simp only [hrule, hrest, Except.ok.injEq] at h
        obtain ⟨rfl, hread⟩ := ih hrest
        refine ⟨?_, List.forall_mem_cons.2 ⟨⟨result, hrule⟩, hread⟩⟩
        rw [← h, List.filterMap_cons, Line.ruleOf_of_rule? hrule]
        cases result <;> rfl

/-- The rules of some patterns decide by the last pattern that matches. -/
theorem keep_filterMap (patterns : List String) (path : Bytes) (isDirectory : Bool) :
    Rule.keep (patterns.filterMap fun pattern => Line.ruleOf pattern.toList) path isDirectory
      = match (patterns.reverse.find? fun pattern =>
            Line.covers pattern.toList path isDirectory).bind
          fun pattern => Line.ruleOf pattern.toList with
        | some rule => rule.keeps
        | none => isDirectory
          || !(patterns.filterMap fun pattern => Line.ruleOf pattern.toList).any Rule.keeps := by
  have hlast : (patterns.filterMap fun pattern => Line.ruleOf pattern.toList).reverse.find?
        (fun rule => rule.applies path isDirectory)
      = (patterns.reverse.find? fun pattern => Line.covers pattern.toList path isDirectory).bind
        fun pattern => Line.ruleOf pattern.toList := by
    rw [← List.filterMap_reverse, List.find?_filterMap]
    simp only [Line.covers_eq]
  unfold Rule.keep
  exact hlast ▸ rfl

theorem exists_ruleOf_of_covers {line : List Char} {path : Bytes} {isDirectory : Bool}
    (h : Line.covers line path isDirectory = true) : ∃ rule, Line.ruleOf line = some rule := by
  rw [Line.covers_eq, Option.any_eq_true] at h
  obtain ⟨rule, hrule, -⟩ := h
  exact ⟨rule, hrule⟩

/-- No rule keeps anything just where no pattern is an ordinary one. -/
theorem any_keeps_eq_false_iff {patterns : List String}
    (hread : ∀ pattern ∈ patterns, ∃ result, Line.rule? pattern.toList = .ok result) :
    (patterns.filterMap fun pattern => Line.ruleOf pattern.toList).any Rule.keeps = false
      ↔ ∀ pattern ∈ patterns, ¬ Line.Ordinary pattern.toList := by
  simp only [List.any_eq_false, List.mem_filterMap]
  constructor
  · intro hall pattern hpattern hordinary
    obtain ⟨result, hresult⟩ := hread pattern hpattern
    obtain ⟨rule, hrule⟩ := hordinary.exists_rule hresult
    exact hall rule ⟨pattern, hpattern, hrule⟩ ((Line.keeps_iff hrule).2 hordinary)
  · rintro hall rule ⟨pattern, hpattern, hrule⟩
    rw [Line.keeps_iff hrule]
    exact hall pattern hpattern

/-- Searching a list from its end finds the last that satisfies a condition. -/
theorem find?_reverse_eq_some_iff {α : Type} {condition : α → Bool} {values : List α} {x : α} :
    values.reverse.find? condition = some x ↔ condition x = true ∧
      ∃ front back, values = front ++ x :: back ∧ ∀ y ∈ back, condition y = false := by
  rw [List.find?_eq_some_iff_append]
  refine and_congr_right fun _ => ?_
  constructor
  · rintro ⟨back, front, hsplit, hback⟩
    refine ⟨front.reverse, back.reverse, ?_, fun y hy => ?_⟩
    · rw [← List.reverse_reverse values, hsplit]
      simp
    · simpa using hback y (List.mem_reverse.1 hy)
  · rintro ⟨front, back, rfl, hback⟩
    exact ⟨back.reverse, front.reverse, by simp, by simpa using hback⟩

theorem keep_includes_iff {includes : List String} {rules : List Rule}
    (h : rulesOf (includes.map fun pattern => (pattern, pattern.toList)) = .ok rules)
    (path : Bytes) (isDirectory : Bool) :
    Rule.keep rules path isDirectory = true ↔ Keeps includes path isDirectory := by
  obtain ⟨rfl, hread⟩ := rulesOf_eq h
  have hkeeping := any_keeps_eq_false_iff fun pattern hpattern =>
    hread _ (List.mem_map_of_mem (f := fun pattern : String => (pattern, pattern.toList)) hpattern)
  rw [List.filterMap_map, Function.comp_def, keep_filterMap]
  constructor
  · intro hkept
    rcases hfind : includes.reverse.find? fun pattern =>
        Line.covers pattern.toList path isDirectory with _ | pattern
    · simp only [hfind, Option.bind_none, Bool.or_eq_true, Bool.not_eq_true', hkeeping] at hkept
      refine .unmatched (fun pattern hpattern => ?_) hkept
      simpa using List.find?_eq_none.1 hfind pattern (List.mem_reverse.2 hpattern)
    · obtain ⟨hcovers, front, back, hsplit, hback⟩ := find?_reverse_eq_some_iff.1 hfind
      obtain ⟨rule, hrule⟩ := exists_ruleOf_of_covers hcovers
      simp only [hfind, Option.bind_some, hrule] at hkept
      exact .last hsplit ((Line.keeps_iff hrule).1 hkept) hcovers hback
  · intro hkeeps
    cases hkeeps with
    | @last front back pattern hsplit hordinary hcovers hback =>
      have hfind : (includes.reverse.find? fun pattern =>
          Line.covers pattern.toList path isDirectory) = some pattern :=
        find?_reverse_eq_some_iff.2 ⟨hcovers, front, back, hsplit, hback⟩
      obtain ⟨rule, hrule⟩ := exists_ruleOf_of_covers hcovers
      simp only [hfind, Option.bind_some, hrule]
      exact (Line.keeps_iff hrule).2 hordinary
    | unmatched hnone hfree =>
      have hfind : (includes.reverse.find? fun pattern =>
          Line.covers pattern.toList path isDirectory) = none := by
        simpa using hnone
      simpa only [hfind, Option.bind_none, Bool.or_eq_true, Bool.not_eq_true', hkeeping] using hfree

theorem any_excludes (excludes : List String) (path : Bytes) (isDirectory : Bool) :
    ((excludes.map fun pattern => (pattern, '!' :: pattern.toList)).filterMap
        fun line => Line.ruleOf line.2).any (fun rule => rule.applies path isDirectory)
      = excludes.any fun pattern => Line.covers ('!' :: pattern.toList) path isDirectory := by
  rw [List.filterMap_map, List.any_filterMap]
  refine congrArg excludes.any (funext fun pattern => ?_)
  rw [Line.covers_eq, Function.comp_apply]
  cases Line.ruleOf ('!' :: pattern.toList) <;> rfl

/-- **What a filter lets pass, whatever its patterns look like.** -/
theorem filter_iff_passes {patterns : PatternSet} {filter : Survey.Filter}
    (hfilter : patterns.filter = .ok filter) (names : List Name) (isDirectory : Bool) :
    filter names isDirectory = true ↔ patterns.Passes names isDirectory := by
  rcases hrules : rulesOf patterns.lines with failure | rules
  · simp [PatternSet.filter, hrules] at hfilter
  simp only [PatternSet.filter, hrules, Except.ok.injEq] at hfilter
  obtain ⟨keeping, dropping, hkeeping, hdropping, rfl⟩ := rulesOf_append hrules
  obtain ⟨rfl, -⟩ := rulesOf_eq hdropping
  have hdrops : ∀ rule ∈ (patterns.excludes.map fun pattern =>
      (pattern, '!' :: pattern.toList)).filterMap (fun line => Line.ruleOf line.2),
      rule.keeps = false := by
    intro rule hrule
    obtain ⟨line, hline, hrule⟩ := List.mem_filterMap.1 hrule
    obtain ⟨pattern, -, rfl⟩ := List.mem_map.1 hline
    rw [← Bool.not_eq_true, Line.keeps_iff hrule]
    exact Line.not_ordinary_bang _
  subst hfilter
  simp only
  rw [Rule.keep_append_dropping hdrops, Bool.and_eq_true, keep_includes_iff hkeeping,
    any_excludes, Bool.not_eq_true', List.any_eq_false]
  simp only [Bool.not_eq_true]
  constructor
  · rintro ⟨hexcludes, hkept⟩
    exact ⟨hkept, hexcludes⟩
  · intro hpasses
    exact ⟨hpasses.notLeftOut, hpasses.kept⟩

/-- Where an include is an ordinary pattern, a file is kept for an ordinary include that matches
    it. -/
theorem Keeps.exists_include {includes : List String} {path : Bytes}
    (h : Keeps includes path false)
    (hsome : ∃ pattern ∈ includes, Line.Ordinary pattern.toList) :
    ∃ pattern ∈ includes, Line.Ordinary pattern.toList ∧
      Line.covers pattern.toList path false = true := by
  cases h with
  | @last front back pattern hsplit hordinary hcovers hback =>
    exact ⟨pattern, by simp [hsplit], hordinary, hcovers⟩
  | unmatched hnone hfree =>
    obtain ⟨pattern, hpattern, hordinary⟩ := hsome
    exact absurd hordinary (hfree.resolve_left nofun pattern hpattern)

theorem Keeps.append {includes : List String} {path : Bytes} {isDirectory : Bool}
    (h : Keeps includes path isDirectory)
    (hsome : ∃ pattern ∈ includes, Line.Ordinary pattern.toList) {added : String}
    (hadded : Line.Ordinary added.toList) : Keeps (includes ++ [added]) path isDirectory := by
  rcases hcovers : Line.covers added.toList path isDirectory with _ | _
  · have hbehind {patterns : List String} (hall : ∀ pattern ∈ patterns,
        Line.covers pattern.toList path isDirectory = false) : ∀ pattern ∈ patterns ++ [added],
        Line.covers pattern.toList path isDirectory = false := by
      simpa [or_imp, forall_and, hcovers] using hall
    cases h with
    | @last front back pattern hsplit hordinary hmatches hback =>
      exact .last (by rw [hsplit, List.append_assoc, List.cons_append]) hordinary hmatches
        (hbehind hback)
    | unmatched hnone hfree =>
      obtain ⟨pattern, hpattern, hordinary⟩ := hsome
      exact .unmatched (hbehind hnone)
        (.inl (hfree.resolve_right fun hall => hall pattern hpattern hordinary))
  · exact .last rfl hadded hcovers (by simp)

namespace Passes

variable {patterns : PatternSet} {names : List Name} {isDirectory : Bool}

/-- What passes is matched by no exclude, read by itself, unless the exclude begins with `!`. -/
theorem not_covered (h : patterns.Passes names isDirectory) {pattern : String}
    (hpattern : pattern ∈ patterns.excludes) (hturned : pattern.toList.head? ≠ some '!') :
    Line.covers pattern.toList (List.intercalate [Path.slash] names) isDirectory = false := by
  by_contra hcovers
  rw [Bool.not_eq_false] at hcovers
  obtain ⟨rule, hrule⟩ := exists_ruleOf_of_covers hcovers
  have hordinary := (Line.ordinary_iff hrule).2 hturned
  rw [← hordinary.covers_bang, h.notLeftOut pattern hpattern] at hcovers
  cases hcovers

/-- One more ordinary include leaves nothing out, unless it is the first. -/
theorem append_include (h : patterns.Passes names isDirectory)
    (hsome : ∃ pattern ∈ patterns.includes, Line.Ordinary pattern.toList) {added : String}
    (hadded : Line.Ordinary added.toList) :
    Passes ⟨patterns.includes ++ [added], patterns.excludes⟩ names isDirectory where
  kept := h.kept.append hsome hadded
  notLeftOut := h.notLeftOut

/-- More excludes let nothing more pass. -/
theorem mono {more : PatternSet} (h : more.Passes names isDirectory)
    (hincludes : more.includes = patterns.includes)
    (hexcludes : patterns.excludes ⊆ more.excludes) : patterns.Passes names isDirectory where
  kept := hincludes ▸ h.kept
  notLeftOut pattern hpattern := h.notLeftOut pattern (hexcludes hpattern)

end Passes

/-- What is owed to a file that is let through: all passes on the way to it, no exclude that does
    not begin with `!` matches it, and where an include is an ordinary pattern, some ordinary
    include matches it. -/
structure LetsThrough (patterns : PatternSet) (way : List Name) : Prop where
  passes {front : List Name} : front <+: way → front ≠ [] → patterns.Passes front (front ≠ way)
  excluded {pattern : String} : pattern ∈ patterns.excludes → pattern.toList.head? ≠ some '!' →
    Line.covers pattern.toList (List.intercalate [Path.slash] way) false = false
  included : (∃ pattern ∈ patterns.includes, Line.Ordinary pattern.toList) →
    ∃ pattern ∈ patterns.includes, Line.Ordinary pattern.toList ∧
      Line.covers pattern.toList (List.intercalate [Path.slash] way) false = true

theorem LetsThrough.of_passes {patterns : PatternSet} {way : List Name} (hne : way ≠ [])
    (h : ∀ front, front <+: way → front ≠ [] → patterns.Passes front (front ≠ way)) :
    patterns.LetsThrough way := by
  have hself : patterns.Passes way false := by simpa using h way List.prefix_rfl hne
  exact ⟨h _, hself.not_covered, hself.kept.exists_include⟩

end PatternSet

/-! ### A walk that succeeds -/

theorem exists_sublist_of_forall₂ {α β : Type} {R : α → β → Prop} {xs xs' : List α} {ys : List β}
    (hsublist : xs'.Sublist xs) (h : List.Forall₂ R xs ys) :
    ∃ ys', ys'.Sublist ys ∧ List.Forall₂ R xs' ys' := by
  induction hsublist generalizing ys with
  | slnil => exact ⟨[], List.nil_sublist ys, .nil⟩
  | cons x _ ih =>
    obtain ⟨y, rest, -, hrest, rfl⟩ := List.forall₂_cons_left_iff.1 h
    obtain ⟨ys', hsub, hforall⟩ := ih hrest
    exact ⟨ys', hsub.cons y, hforall⟩
  | cons_cons x _ ih =>
    obtain ⟨y, rest, hxy, hrest, rfl⟩ := List.forall₂_cons_left_iff.1 h
    obtain ⟨ys', hsub, hforall⟩ := ih hrest
    exact ⟨y :: ys', hsub.cons_cons y, .cons hxy hforall⟩

namespace Vantage

variable {vantage : Vantage} {top : List Name}

theorem exists_scan_of_expand_filtered (hsteady : vantage.observer.Steady) {path : Bytes}
    (htop : Path.absolute vantage.current path = some top) {count : Nat} {metadata : Metadata}
    (hstat : vantage.observer.stat count (Path.render top) = .ok metadata)
    (hdirectory : metadata.type = .directory) {patterns : PatternSet} {ledger after : Ledger}
    {expansions : List Expansion}
    (hwalk : (vantage.expand (.filtered path patterns)).on ledger = (.ok expansions, after)) :
    ∃ entries filter asked, expansions = [.tree entries] ∧ patterns.filter = .ok filter ∧
      (vantage.scan top filter).on asked = (.ok entries, after) := by
  obtain ⟨location, afterwards, hlocation, hrest⟩ := Work.on_bind_eq_ok hwalk
  rw [absolute, htop, Work.on_pure] at hlocation
  cases hlocation
  obtain ⟨entries, middle, hentries, hpure⟩ := Work.on_bind_eq_ok hrest
  cases hpure
  obtain ⟨metadata', asked, hasked, hscan⟩ := Work.on_bind_eq_ok hentries
  rw [on_stat, hsteady.stat _ count, hstat] at hasked
  cases hasked
  rw [hdirectory, Restriction.filter_coe] at hscan
  rcases hfilter : patterns.filter with failure | filter
  · rw [hfilter] at hscan
    cases hscan
  · rw [hfilter] at hscan
    exact ⟨entries, filter, _, rfl, rfl, hscan⟩

/-- Each file that a filtered scan gives stands at the end of a way on which all passes. -/
theorem exists_way_of_scan (hsteady : vantage.observer.Steady) {patterns : PatternSet}
    {filter : Survey.Filter} (hfilter : patterns.filter = .ok filter) {ledger after : Ledger}
    {entries : List Observation}
    (hscan : (vantage.scan top filter).on ledger = (.ok entries, after)) {entry : Observation}
    (hentry : entry ∈ entries) (hfile : entry.kind = .regularFile) :
    ∃ way, vantage.disk.Way top way ∧ entry.path = Path.text (top ++ way) ∧
      entry.relative.segments = way.map Utf8.decode ∧ patterns.LetsThrough way := by
  obtain ⟨-, htells⟩ := tells_of_scan hsteady hscan
  obtain ⟨sighting, hsighting, htold⟩ : ∃ sighting ∈ (Survey.below vantage.disk top filter).seen,
      vantage.Tells top sighting entry := by
    obtain ⟨found, hfound, htold⟩ :=
      exists_sublist_of_forall₂ (List.singleton_sublist.2 hentry) htells.flip
    obtain ⟨sighting, rest, hsighting, -, rfl⟩ := List.forall₂_cons_left_iff.1 htold
    exact ⟨sighting, hfound.mem List.mem_cons_self, hsighting⟩
  have hway := ((Survey.truthful_below vantage.disk top filter).seen sighting hsighting).1
  have horderly := Survey.orderly_below vantage.disk top filter
  obtain ⟨name, -, hinside⟩ := horderly.inside sighting hsighting
  have hadmitted := Survey.admits_iff.1 (horderly.admitted sighting hsighting)
  have hsight : sighting.sight ≠ .directory := by
    rw [ne_eq, ← htold.kind_directory_iff, hfile]
    nofun
  have hnames : sighting.names ≠ [] := by
    intro hnil
    simp [hnil] at hinside
  refine ⟨sighting.names, hway, ?_, ?_, .of_passes hnames ?_⟩
  · cases htold <;> rfl
  · cases htold <;> rfl
  · intro front hfront hne
    rw [← PatternSet.filter_iff_passes hfilter]
    simpa [hsight] using hadmitted front hfront (List.length_pos_iff.2 hne)

end Vantage

/-- **Each file of a filtered walk that succeeds is let through by its patterns, more excludes never
    let more through, and an ordinary include besides others leaves nothing out.** -/
theorem filtered_walk_restricts {vantage : Vantage} (hsteady : vantage.observer.Steady)
    {path : Bytes} {top : List Name} (htop : Path.absolute vantage.current path = some top)
    {count : Nat} {metadata : Metadata}
    (hstat : vantage.observer.stat count (Path.render top) = .ok metadata)
    (hdirectory : metadata.type = .directory) {patterns : PatternSet} {ledger after : Ledger}
    {expansions : List Expansion}
    (hwalk : (vantage.expand (.filtered path patterns)).on ledger = (.ok expansions, after)) :
    ∃ entries, expansions = [.tree entries] ∧
      (∀ entry ∈ entries, entry.kind = .regularFile → ∃ way, vantage.disk.Way top way ∧
        entry.path = Path.text (top ++ way) ∧ entry.relative.segments = way.map Utf8.decode ∧
        patterns.LetsThrough way) ∧
      (∀ more : PatternSet, more.includes = patterns.includes →
        patterns.excludes ⊆ more.excludes → ∀ filter, more.filter = .ok filter → ∀ ledger',
          ∃ fewer, fewer.Sublist entries ∧
            ((vantage.expand (.filtered path more)).on ledger').1 = .ok [.tree fewer]) ∧
      ∀ added : String, Glob.Line.Ordinary added.toList →
        (∃ pattern ∈ patterns.includes, Glob.Line.Ordinary pattern.toList) →
        ∀ names isDirectory, patterns.Passes names isDirectory →
          PatternSet.Passes ⟨patterns.includes ++ [added], patterns.excludes⟩ names isDirectory := by
  obtain ⟨entries, filter, asked, rfl, hfilter, hscan⟩ :=
    Vantage.exists_scan_of_expand_filtered hsteady htop hstat hdirectory hwalk
  refine ⟨entries, rfl, ?_, ?_, ?_⟩
  · intro entry hentry hfile
    exact Vantage.exists_way_of_scan hsteady hfilter hscan hentry hfile
  · intro more hincludes hexcludes narrow hnarrow ledger'
    obtain ⟨hnone, htells⟩ := Vantage.tells_of_scan hsteady hscan
    have hle : ∀ names isDirectory, narrow names isDirectory = true →
        filter names isDirectory = true := by
      intro names isDirectory hpasses
      rw [PatternSet.filter_iff_passes hnarrow] at hpasses
      exact (PatternSet.filter_iff_passes hfilter _ _).2 (hpasses.mono hincludes hexcludes)
    have hpart := Survey.below_narrowed hle hnone
    obtain ⟨fewer, hfewer, htold⟩ := exists_sublist_of_forall₂
      (List.filter_sublist (p := narrow.admits 0)) htells
    refine ⟨fewer, hfewer, (Vantage.agrees_expand_filtered hsteady htop hstat hdirectory hnarrow
      (Vantage.agrees_scan_of_tells ?_ ?_)).outcome not_false trivial⟩
    · rw [hpart]
    · rw [hpart]
      exact htold
  · intro added hadded hsome names isDirectory hpasses
    exact hpasses.append_include hsome hadded

def turnedPatterns : PatternSet := ⟨["b", "!c"], ["a/"]⟩

/-- In the directory of `prunedDisk` the turned include drops `c`, and of the files `b` that the
    ordinary one keeps the exclude leaves one. -/
theorem filtered_walk_restricts_turned :
    ∃ entries, [Expansion.tree [⟨"/d/b", ⟨["b"], true⟩, false,
        .regularFile ⟨Sha256.digest []⟩ 0⟩]] = [.tree entries] ∧
      (∀ entry ∈ entries, entry.kind = .regularFile → ∃ way, prunedDisk.Way [[0x64]] way ∧
        entry.path = Path.text ([[0x64]] ++ way) ∧ entry.relative.segments = way.map Utf8.decode ∧
        turnedPatterns.LetsThrough way) ∧
      (∀ more : PatternSet, more.includes = turnedPatterns.includes →
        turnedPatterns.excludes ⊆ more.excludes → ∀ filter, more.filter = .ok filter → ∀ ledger',
          ∃ fewer, fewer.Sublist entries ∧
            ((prunedVantage.expand (.filtered (Utf8.encode "/d") more)).on ledger').1
              = .ok [.tree fewer]) ∧
      ∀ added : String, Glob.Line.Ordinary added.toList →
        (∃ pattern ∈ turnedPatterns.includes, Glob.Line.Ordinary pattern.toList) →
        ∀ names isDirectory, turnedPatterns.Passes names isDirectory →
          PatternSet.Passes ⟨turnedPatterns.includes ++ [added], turnedPatterns.excludes⟩
            names isDirectory := by
  have hstat : prunedVantage.observer.stat 0 (Path.render [[0x64]]) = .ok .directory := rfl
  have hwalk : (prunedVantage.expand (.filtered (Utf8.encode "/d") turnedPatterns)).on
      ⟨.empty, .empty, []⟩ = (.ok [.tree [⟨"/d/b", ⟨["b"], true⟩, false,
        .regularFile ⟨Sha256.digest []⟩ 0⟩]],
      ((prunedVantage.expand (.filtered (Utf8.encode "/d") turnedPatterns)).on
        ⟨.empty, .empty, []⟩).2) := rfl
  exact filtered_walk_restricts (Observer.steady_ofDisk prunedDisk) rfl hstat rfl hwalk

/-- An include that is a comment restricts nothing: every file is there, and no include matches
    any path. -/
theorem comment_include_lets_all_through :
    ((prunedVantage.expand (.filtered (Utf8.encode "/d") (⟨["#b"], []⟩ : PatternSet))).on
        ⟨.empty, .empty, []⟩).1 = .ok [.tree prunedEntries] ∧
      (∃ entry ∈ prunedEntries, entry.kind = .regularFile) ∧
      ∀ pattern ∈ ["#b"], ∀ path isDirectory,
        Glob.Line.covers pattern.toList path isDirectory = false := by
  refine ⟨rfl, ⟨_, List.mem_cons_of_mem _ List.mem_cons_self, rfl⟩, ?_⟩
  intro pattern hpattern path isDirectory
  rw [List.mem_singleton.1 hpattern]
  rfl

end Treeprint
