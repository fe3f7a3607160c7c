import Mathlib.Data.List.Infix
import Mathlib.Tactic.ByContra
import Treeprint.PatternSet

/-!
# Pattern by pattern

A pattern set is read as one list of lines, excludes turned around by a `!` and put behind the
includes, and of all lines that match a path the last one decides.  For patterns that are not turned
around by themselves this comes to something that has no order in it: **a path passes when no
exclude matches it and, for a file, some include does**, if there are includes at all
(`PatternSet.filter_eq`).  What a single pattern matches is said by `Glob.Line.covers`, as if it
were the only line.

The `!` in front of an exclude hides the marks that the pattern itself begins with.  That changes
nothing: a slash is looked for behind the `!` as well, and a backslash that is no longer a mark
still takes the meaning of the next character away when the glob is read (`rule?_bang`).
-/

namespace Treeprint

namespace Glob

/-! ### An escaped mark is read like the mark -/

/-- The characters whose meaning at the start of a line a backslash takes away. -/
def IsMark (c : Char) : Prop := c = '!' ∨ c = '#'

theorem read_escaped {c : Char} (hc : IsMark c) (text : List Char) :
    read ('\\' :: c :: text) = read (c :: text) := by
  rcases hc with rfl | rfl <;> rfl

theorem read_anywhere_escaped {c : Char} (hc : IsMark c) (text : List Char) :
    read ('*' :: '*' :: '/' :: '\\' :: c :: text) = read ('*' :: '*' :: '/' :: c :: text) := by
  rcases hc with rfl | rfl <;> rfl

namespace Line

/-- Whether a text ends in `/**` does not depend on what stands before a mark in it. -/
theorem endsBelow_append {c : Char} (hc : IsMark c) (back front : List Char) :
    ['*', '*', '/'].isPrefixOf (back ++ c :: front) = ['*', '*', '/'].isPrefixOf back := by
  have hstar : ¬ '*' = c := by rcases hc with rfl | rfl <;> decide
  have hslash : ¬ '/' = c := by rcases hc with rfl | rfl <;> decide
  rcases back with _ | ⟨x, _ | ⟨y, _ | ⟨z, back⟩⟩⟩ <;> simp [List.isPrefixOf, hstar, hslash]

theorem read_glob_escaped {c : Char} (hc : IsMark c) (text : List Char) :
    read (glob false ('\\' :: c :: text)) = read (glob false (c :: text)) := by
  have hslash : ('/' ∈ '\\' :: c :: text) ↔ '/' ∈ c :: text := by simp
  have hstars : c :: text ≠ ['*', '*'] := by
    rcases hc with rfl | rfl <;> simp
  have hends (front front' : List Char) :
      ['*', '*', '/'].isPrefixOf (front ++ '\\' :: c :: text).reverse
        = ['*', '*', '/'].isPrefixOf (front' ++ c :: text).reverse := by
    simp only [List.reverse_append, List.reverse_cons, List.append_assoc, List.cons_append,
      List.nil_append]
    rw [endsBelow_append hc, endsBelow_append hc]
  unfold glob
  by_cases hmem : '/' ∈ c :: text
  · have hbelow := hends [] []
    simp only [List.nil_append] at hbelow
    simp only [hslash, hmem, true_or, or_true, if_true, hbelow]
    split
    · exact read_escaped hc _
    · exact read_escaped hc _
  · have hbelow := hends ['*', '*', '/'] ['*', '*', '/']
    simp only [List.cons_append, List.nil_append] at hbelow
    simp only [hslash, hmem, hstars, Bool.false_eq_true, or_self, if_false, hbelow,
      List.cons.injEq, Char.reduceEq, false_and]
    split
    · exact read_anywhere_escaped hc _
    · exact read_anywhere_escaped hc _

/-- A mark at the start does not meet the mark at the end. -/
theorem endMark_escaped {c : Char} (hc : IsMark c) (text : List Char) :
    ∃ directoriesOnly rest, endMark (c :: text) = (directoriesOnly, c :: rest) ∧
      endMark ('\\' :: c :: text) = (directoriesOnly, '\\' :: c :: rest) := by
  have hslash : c ≠ '/' := by rcases hc with rfl | rfl <;> decide
  have hbackslash : c ≠ '\\' := by rcases hc with rfl | rfl <;> decide
  obtain ⟨back, rfl⟩ : ∃ back, text = List.reverse back := ⟨text.reverse, by simp⟩
  unfold endMark
  simp only [List.reverse_cons, List.reverse_reverse]
  rcases back with _ | ⟨x, _ | ⟨y, back⟩⟩
  · exact ⟨false, [], by simp [hslash]⟩
  · by_cases hx : x = '/'
    · exact ⟨true, [], by simp [hx, hbackslash]⟩
    · exact ⟨false, [x], by simp [hx]⟩
  · by_cases hx : x = '/'
    · by_cases hy : y = '\\'
      · exact ⟨true, back.reverse, by simp [hx, hy]⟩
      · exact ⟨true, (y :: back).reverse, by simp [hx, hy]⟩
    · exact ⟨false, (x :: y :: back).reverse, by simp [hx]⟩

/-! ### A line with a `!` in front -/

/-- A pattern that counts and is not turned around by itself: it is not blank and begins neither
    with `!` nor with `#`. -/
structure Ordinary (line : List Char) : Prop where
  notBlank : Text.trimEnd line ≠ []
  notTurned : line.head? ≠ some '!'
  notComment : line.head? ≠ some '#'

theorem trimEnd_cons {line : List Char} (h : Text.trimEnd line ≠ []) (c : Char) :
    Text.trimEnd (c :: line) = c :: Text.trimEnd line := by
  unfold Text.trimEnd at h ⊢
  rw [List.reverse_cons, List.dropWhile_append, if_neg]
  · simp
  · simpa using h

theorem head?_trimEnd {line : List Char} (h : Text.trimEnd line ≠ []) :
    (Text.trimEnd line).head? = line.head? := by
  have hprefix : Text.trimEnd line <+: line := by
    rw [← List.reverse_suffix, Text.trimEnd, List.reverse_reverse]
    exact List.dropWhile_suffix _
  obtain ⟨c, rest, hcons⟩ := List.exists_cons_of_ne_nil h
  obtain ⟨back, hback⟩ := hprefix
  rw [hcons] at hback ⊢
  rw [← hback]
  rfl

theorem endsInEscapedBlank_cons (line : List Char) :
    [' ', '\\'].isPrefixOf ('!' :: line).reverse = [' ', '\\'].isPrefixOf line.reverse := by
  rw [List.reverse_cons]
  rcases line.reverse with _ | ⟨x, _ | ⟨y, back⟩⟩ <;> simp [List.isPrefixOf]

theorem trimmed?_bang {line : List Char} (h : Ordinary line) :
    ∃ text, text.head? = line.head? ∧ trimmed? line = some text ∧
      trimmed? ('!' :: line) = some ('!' :: text) := by
  have hline : line ≠ [] := by
    rintro rfl
    exact h.notBlank rfl
  have hcomment : ('!' :: line).head? ≠ some '#' := by simp
  unfold trimmed?
  rw [if_neg h.notComment, if_neg hcomment, endsInEscapedBlank_cons]
  by_cases hblank : [' ', '\\'].isPrefixOf line.reverse = true
  · refine ⟨line, rfl, ?_, ?_⟩
    · simp only [if_pos hblank, if_neg hline]
    · simp only [if_pos hblank, reduceCtorEq, if_false]
  · refine ⟨Text.trimEnd line, head?_trimEnd h.notBlank, ?_, ?_⟩
    · simp only [if_neg hblank, if_neg h.notBlank]
    · simp only [if_neg hblank, trimEnd_cons h.notBlank, reduceCtorEq, if_false]

theorem marks_cases {text : List Char} (hturned : text.head? ≠ some '!') :
    (∃ c rest, IsMark c ∧ text = '\\' :: c :: rest) ∨ (∃ rest, text = '/' :: rest) ∨
      marks text = (false, false, text) ∧ marks ('!' :: text) = (true, false, text) := by
  unfold marks
  split
  · exact .inl ⟨'!', _, .inl rfl, rfl⟩
  · exact .inl ⟨'#', _, .inr rfl, rfl⟩
  · simp at hturned
  · simp at hturned
  · exact .inr (.inl ⟨_, rfl⟩)
  · rename_i hslash
    refine .inr (.inr ⟨rfl, ?_⟩)
    split <;> simp_all

theorem rule?_of_parts {line text rest inner : List Char} {turned tied directoriesOnly : Bool}
    (htrimmed : trimmed? line = some text) (hmarks : marks text = (turned, tied, rest))
    (hend : endMark rest = (directoriesOnly, inner)) :
    rule? line = match read (glob tied inner) with
      | .error flaw => .error ⟨text, flaw⟩
      | .ok tokens => .ok (some ⟨tokens, !turned, directoriesOnly⟩) := by
  rcases hread : read (glob tied inner) with flaw | tokens
  · simp [rule?, htrimmed, hmarks, hend, hread]
  · simp [rule?, htrimmed, hmarks, hend, hread]

/-- **A pattern with a `!` in front is read as the pattern is, and turned around.** -/
theorem rule?_bang {line : List Char} (h : Ordinary line) :
    (∃ tokens directoriesOnly, rule? line = .ok (some ⟨tokens, true, directoriesOnly⟩) ∧
      rule? ('!' :: line) = .ok (some ⟨tokens, false, directoriesOnly⟩)) ∨
    ∃ flaw flaw', rule? line = .error flaw ∧ rule? ('!' :: line) = .error flaw' := by
  obtain ⟨text, hhead, htrimmed, hbang⟩ := trimmed?_bang h
  have hturned : text.head? ≠ some '!' := by rw [hhead]; exact h.notTurned
  -- the parts of the two lines, which are read alike
  obtain ⟨tied, rest, rest', directoriesOnly, inner, inner', hmarks, hmarks', hend, hend', hread⟩ :
      ∃ tied rest rest' directoriesOnly inner inner', marks text = (false, tied, rest) ∧
        marks ('!' :: text) = (true, tied, rest') ∧ endMark rest = (directoriesOnly, inner) ∧
        endMark rest' = (directoriesOnly, inner') ∧
        read (glob tied inner') = read (glob tied inner) := by
    rcases marks_cases hturned with ⟨c, rest, hc, rfl⟩ | ⟨rest, rfl⟩ | ⟨hmarks, hmarks'⟩
    · obtain ⟨directoriesOnly, inner, hend, hend'⟩ := endMark_escaped hc rest
      refine ⟨false, c :: rest, '\\' :: c :: rest, directoriesOnly, c :: inner, '\\' :: c :: inner,
        ?_, rfl, hend, hend', read_glob_escaped hc inner⟩
      rcases hc with rfl | rfl <;> rfl
    · exact ⟨true, rest, rest, _, _, _, rfl, rfl, rfl, rfl, rfl⟩
    · exact ⟨false, text, text, _, _, _, hmarks, hmarks', rfl, rfl, rfl⟩
  rw [rule?_of_parts htrimmed hmarks hend, rule?_of_parts hbang hmarks' hend', hread]
  rcases read (glob tied inner) with flaw | tokens
  · exact .inr ⟨_, _, rfl, rfl⟩
  · exact .inl ⟨tokens, directoriesOnly, rfl, rfl⟩

/-- Whether a pattern, taken as the only line, matches a path. -/
def covers (line : List Char) (path : Bytes) (isDirectory : Bool) : Bool :=
  match rule? line with
  | .ok (some rule) => rule.applies path isDirectory
  | _ => false

end Line

/-! ### The last rule decides -/

/-- Of rules that drop, behind any others, each drops what it applies to. -/
theorem Rule.keep_append_dropping {rules dropping : List Rule}
    (hdropping : ∀ rule ∈ dropping, rule.keeps = false) (path : Bytes) (isDirectory : Bool) :
    Rule.keep (rules ++ dropping) path isDirectory
      = (!dropping.any (fun rule => rule.applies path isDirectory)
        && Rule.keep rules path isDirectory) := by
  unfold Rule.keep
  rw [List.reverse_append, List.find?_append]
  rcases hdrop : dropping.reverse.find? (fun rule => rule.applies path isDirectory) with _ | rule
  · have hnone : dropping.any (fun rule => rule.applies path isDirectory) = false := by
      simpa using hdrop
    have hkeeps : (rules ++ dropping).any Rule.keeps = rules.any Rule.keeps := by
      have hdrops : dropping.any Rule.keeps = false := by simpa using hdropping
      rw [List.any_append, hdrops, Bool.or_false]
    rw [hnone, hdrop, Option.none_or, hkeeps, Bool.not_false, Bool.true_and]
  · have hmem : rule ∈ dropping := List.mem_reverse.1 (List.mem_of_find?_eq_some hdrop)
    have happlies := List.find?_some hdrop
    have hany : dropping.any (fun rule => rule.applies path isDirectory) = true :=
      List.any_eq_true.2 ⟨rule, hmem, happlies⟩
    rw [hany, hdrop, Option.some_or, Bool.not_true, Bool.false_and]
    exact hdropping rule hmem

/-- Rules that keep, and behind them rules that drop: what a rule that drops applies to is dropped,
    and of the files whatever no rule that keeps applies to. -/
theorem Rule.keep_append {keeping dropping : List Rule} (hkeeping : ∀ rule ∈ keeping, rule.keeps)
    (hdropping : ∀ rule ∈ dropping, rule.keeps = false) (path : Bytes) (isDirectory : Bool) :
    Rule.keep (keeping ++ dropping) path isDirectory
      = (!dropping.any (fun rule => rule.applies path isDirectory)
        && (isDirectory || keeping.isEmpty
          || keeping.any (fun rule => rule.applies path isDirectory))) := by
  rw [keep_append_dropping hdropping, Rule.keep]
  rcases hkeep : keeping.reverse.find? (fun rule => rule.applies path isDirectory) with _ | rule
  · have hnone : keeping.any (fun rule => rule.applies path isDirectory) = false := by
      simpa using hkeep
    have hkeeps : keeping.any Rule.keeps = !keeping.isEmpty := by
      cases keeping with
      | nil => rfl
      | cons rule rest => simp [hkeeping rule List.mem_cons_self]
    simp [hkeep, hnone, hkeeps]
  · have hmem : rule ∈ keeping := List.mem_reverse.1 (List.mem_of_find?_eq_some hkeep)
    have happlies := List.find?_some hkeep
    have hany : keeping.any (fun rule => rule.applies path isDirectory) = true :=
      List.any_eq_true.2 ⟨rule, hmem, happlies⟩
    simp [hkeep, hany, hkeeping rule hmem]

/-- A rule that says of a path what a pattern does by itself. -/
structure StandsFor (keeps : Bool) (pattern : String) (rule : Rule) : Prop where
  keeps : rule.keeps = keeps
  applies : ∀ path isDirectory,
    rule.applies path isDirectory = Line.covers pattern.toList path isDirectory

theorem standsFor_include {pattern : String} (h : Line.Ordinary pattern.toList)
    {result : Option Rule} (hrule : Line.rule? pattern.toList = .ok result) :
    ∃ rule, result = some rule ∧ StandsFor true pattern rule := by
  rcases Line.rule?_bang h with ⟨tokens, directoriesOnly, halone, -⟩ | ⟨flaw, -, halone, -⟩
  · rw [halone] at hrule
    cases hrule
    exact ⟨_, rfl, rfl, fun path isDirectory => by rw [Line.covers, halone]⟩
  · rw [halone] at hrule
    cases hrule

theorem standsFor_exclude {pattern : String} (h : Line.Ordinary pattern.toList)
    {result : Option Rule} (hrule : Line.rule? ('!' :: pattern.toList) = .ok result) :
    ∃ rule, result = some rule ∧ StandsFor false pattern rule := by
  rcases Line.rule?_bang h with ⟨tokens, directoriesOnly, halone, hbang⟩ | ⟨-, flaw, -, hbang⟩
  · rw [hbang] at hrule
    cases hrule
    exact ⟨_, rfl, rfl, fun path isDirectory => by rw [Line.covers, halone]; rfl⟩
  · rw [hbang] at hrule
    cases hrule

end Glob

namespace PatternSet

/-! ### The two lists of a pattern set -/

variable {patterns : PatternSet}

/-- Whether some exclude matches a path. -/
def leavesOut (patterns : PatternSet) (names : List Name) (isDirectory : Bool) : Bool :=
  patterns.excludes.any fun pattern =>
    Glob.Line.covers pattern.toList (List.intercalate [Path.slash] names) isDirectory

/-- Whether some include matches a file, if there are includes. -/
def takesIn (patterns : PatternSet) (names : List Name) : Bool :=
  patterns.includes.isEmpty || patterns.includes.any fun pattern =>
    Glob.Line.covers pattern.toList (List.intercalate [Path.slash] names) false

theorem rulesOf_append {lines lines' : List (String × List Char)} {rules : List Glob.Rule}
    (h : rulesOf (lines ++ lines') = .ok rules) : ∃ front back, rulesOf lines = .ok front ∧
      rulesOf lines' = .ok back ∧ rules = front ++ back := by
  induction lines generalizing rules with
  | nil => exact ⟨[], rules, rfl, h, rfl⟩
  | cons line lines ih =>
    obtain ⟨pattern, text⟩ := line
    rw [List.cons_append, rulesOf] at h
    rcases hrule : Glob.Line.rule? text with flaw | rule
    · simp [hrule] at h
    · rcases hrest : rulesOf (lines ++ lines') with failure | rest
      · simp [hrule, hrest] at h
      · simp only [hrule, hrest, Except.ok.injEq] at h
        obtain ⟨front, back, hfront, hback, rfl⟩ := ih hrest
        refine ⟨rule.toList ++ front, back, ?_, hback, ?_⟩
        · simp [rulesOf, hrule, hfront]
        · rw [← h, List.append_assoc]

/-- When each line of a list of patterns is a rule that stands for its pattern, so are all. -/
theorem standsFor_of_rulesOf {keeps : Bool} {line : String → List Char} {texts : List String}
    (h : ∀ text ∈ texts, ∀ {result}, Glob.Line.rule? (line text) = .ok result →
      ∃ rule, result = some rule ∧ Glob.StandsFor keeps text rule) {rules : List Glob.Rule}
    (hrules : rulesOf (texts.map fun text => (text, line text)) = .ok rules) :
    List.Forall₂ (Glob.StandsFor keeps) texts rules := by
  induction texts generalizing rules with
  | nil =>
    cases hrules
    exact .nil
  | cons text texts ih =>
    rw [List.map_cons, rulesOf] at hrules
    rcases hrule : Glob.Line.rule? (line text) with flaw | result
    · simp [hrule] at hrules
    · rcases hrest : rulesOf (texts.map fun text => (text, line text)) with failure | rest
      · simp [hrule, hrest] at hrules
      · obtain ⟨rule, rfl, hstands⟩ := h text List.mem_cons_self hrule
        simp only [hrule, hrest, Except.ok.injEq, Option.toList_some, List.singleton_append]
          at hrules
        rw [← hrules]
        exact .cons hstands (ih (fun other hother => h other (List.mem_cons_of_mem _ hother)) hrest)

theorem any_of_standsFor {keeps : Bool} {texts : List String} {rules : List Glob.Rule}
    (h : List.Forall₂ (Glob.StandsFor keeps) texts rules) (path : Bytes) (isDirectory : Bool) :
    rules.any (fun rule => rule.applies path isDirectory)
      = texts.any fun text => Glob.Line.covers text.toList path isDirectory := by
  induction h with
  | nil => rfl
  | cons hstands _ ih => rw [List.any_cons, List.any_cons, hstands.applies, ih]

theorem keeps_of_standsFor {keeps : Bool} {texts : List String} {rules : List Glob.Rule}
    (h : List.Forall₂ (Glob.StandsFor keeps) texts rules) :
    (∀ rule ∈ rules, rule.keeps = keeps) ∧ rules.isEmpty = texts.isEmpty := by
  induction h with
  | nil => exact ⟨by simp, rfl⟩
  | cons hstands _ ih => exact ⟨by simpa [hstands.keeps] using ih.1, rfl⟩

/-- **A path passes when no exclude matches it and, for a file, some include does**, if there are
    includes. -/
theorem filter_eq {filter : Survey.Filter} (hfilter : patterns.filter = .ok filter)
    (hordinary : ∀ pattern ∈ patterns.includes ++ patterns.excludes,
      Glob.Line.Ordinary pattern.toList) (names : List Name) (isDirectory : Bool) :
    filter names isDirectory
      = (!patterns.leavesOut names isDirectory && (isDirectory || patterns.takesIn names)) := by
  rcases hrules : rulesOf patterns.lines with failure | rules
  · simp [PatternSet.filter, hrules] at hfilter
  simp only [PatternSet.filter, hrules, Except.ok.injEq] at hfilter
  obtain ⟨keeping, dropping, hkeeping, hdropping, rfl⟩ := rulesOf_append hrules
  have hincludes := standsFor_of_rulesOf
    (fun text htext => Glob.standsFor_include (hordinary text (List.mem_append_left _ htext)))
    hkeeping
  have hexcludes := standsFor_of_rulesOf
    (fun text htext => Glob.standsFor_exclude (hordinary text (List.mem_append_right _ htext)))
    hdropping
  obtain ⟨hkeeps, hempty⟩ := keeps_of_standsFor hincludes
  subst hfilter
  simp only [Glob.Rule.keep_append hkeeps (keeps_of_standsFor hexcludes).1, hempty,
    any_of_standsFor hincludes, any_of_standsFor hexcludes]
  cases isDirectory
  · simp [leavesOut, takesIn]
  · simp [leavesOut]

end PatternSet

end Treeprint
