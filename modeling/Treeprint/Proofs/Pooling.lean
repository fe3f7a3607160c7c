import Mathlib.Data.List.Dedup
import Treeprint.Proofs.Working

/-!
# A pool stores each text once

What a sequence of calls of `TextPool.intern` answers, and what it makes of the pool.  A call may
put a text behind those that are there and never moves one (`prefix_intern`), so a slot that was
handed out stays the slot of its text.  Therefore **the answers of all calls can be read off the
pool at the end** (`internEach_answers`): each call gives its text back, with the place of the text
in that pool.  Two calls give the same slot exactly when they are given the same text, and the size
of the pool counts the texts without repetition.
-/

namespace Treeprint.TextPool

variable {pool : TextPool} {text other : String} {texts : List String}

/-! ### One call -/

theorem intern_of_mem (h : text ∈ pool.texts) :
    pool.intern text = ((text, pool.texts.idxOf text), pool) := by
  have htext := pool.intern_text text
  unfold intern at htext ⊢
  rw [dif_pos h] at htext ⊢
  simp only at htext ⊢
  rw [htext]

theorem intern_of_notMem (h : text ∉ pool.texts) :
    (pool.intern text).1 = (text, pool.texts.length) ∧
      (pool.intern text).2.texts = pool.texts ++ [text] := by
  unfold intern
  rw [dif_neg h]
  exact ⟨rfl, rfl⟩

/-- A call keeps the texts of the pool in their slots. -/
theorem prefix_intern (pool : TextPool) (text : String) :
    pool.texts <+: (pool.intern text).2.texts := by
  by_cases h : text ∈ pool.texts
  · simp only [intern_of_mem h, List.prefix_rfl]
  · rw [(intern_of_notMem h).2]
    exact List.prefix_append _ _

theorem mem_intern_iff :
    other ∈ (pool.intern text).2.texts ↔ other ∈ pool.texts ∨ other = text := by
  by_cases h : text ∈ pool.texts
  · rw [intern_of_mem h]
    refine ⟨.inl, ?_⟩
    rintro (hother | rfl)
    · exact hother
    · exact h
  · rw [(intern_of_notMem h).2, List.mem_append, List.mem_singleton]

/-- The slot of a text is its place in the pool that the call leaves behind. -/
theorem slot_intern (pool : TextPool) (text : String) :
    (pool.intern text).1.2 = (pool.intern text).2.texts.idxOf text := by
  by_cases h : text ∈ pool.texts
  · rw [intern_of_mem h]
  · obtain ⟨hanswer, htexts⟩ := intern_of_notMem h
    rw [hanswer, htexts, List.idxOf_append_of_notMem h, List.idxOf_cons_self, Nat.add_zero]

/-! ### A sequence of calls -/

/-- Intern one text after the other: the answers in their order, and the pool in the end. -/
def internEach (pool : TextPool) : List String → List (String × Nat) × TextPool
  | [] => ([], pool)
  | text :: texts =>
    let first := pool.intern text
    let rest := first.2.internEach texts
    (first.1 :: rest.1, rest.2)

theorem internEach_append (pool : TextPool) (texts more : List String) :
    (pool.internEach (texts ++ more)).2 = ((pool.internEach texts).2.internEach more).2 := by
  induction texts generalizing pool with
  | nil => rfl
  | cons text texts ih => exact ih (pool.intern text).2

/-- No sequence of calls loses a text or moves it to another slot. -/
theorem prefix_internEach (pool : TextPool) (texts : List String) :
    pool.texts <+: (pool.internEach texts).2.texts := by
  induction texts generalizing pool with
  | nil => exact List.prefix_rfl
  | cons text texts ih => exact (pool.prefix_intern text).trans (ih (pool.intern text).2)

theorem mem_internEach_iff :
    other ∈ (pool.internEach texts).2.texts ↔ other ∈ pool.texts ∨ other ∈ texts := by
  induction texts generalizing pool with
  | nil => simp [internEach]
  | cons text texts ih =>
    rw [internEach, ih, mem_intern_iff, List.mem_cons, or_assoc]

/-- **The answers of a sequence of calls are the texts that were given, each with its place in the
    pool at the end.** -/
theorem internEach_answers (pool : TextPool) (texts : List String) :
    (pool.internEach texts).1
      = texts.map fun text => (text, (pool.internEach texts).2.texts.idxOf text) := by
  induction texts generalizing pool with
  | nil => rfl
  | cons text texts ih =>
    have hstored : text ∈ (pool.intern text).2.texts := mem_intern_iff.2 (.inr rfl)
    -- the slot was handed out before the later calls, and they leave it where it is
    have hslot : (pool.intern text).1.2
        = ((pool.intern text).2.internEach texts).2.texts.idxOf text := by
      rw [pool.slot_intern, (prefix_internEach _ texts).idxOf_eq_of_mem hstored]
    have hfirst : (pool.intern text).1
        = (text, ((pool.intern text).2.internEach texts).2.texts.idxOf text) :=
      Prod.ext (pool.intern_text text) hslot
    rw [internEach, List.map_cons, ← hfirst, ← ih]

example : (empty.internEach ["a", "b", "a"]).1 = [("a", 0), ("b", 1), ("a", 0)] := rfl

theorem texts_of_answers (pool : TextPool) (texts : List String) :
    (pool.internEach texts).1.map Prod.fst = texts := by
  rw [internEach_answers, List.map_map]
  exact List.map_id' texts

/-- Two calls give the same slot exactly when they give the same text. -/
theorem slots_of_answers (pool : TextPool) (texts : List String) :
    (pool.internEach texts).1.Pairwise fun first second =>
      first.2 = second.2 ↔ first.1 = second.1 := by
  rw [internEach_answers, List.pairwise_map]
  apply List.pairwise_of_forall_mem_list
  intro text htext other _
  exact List.idxOf_inj (mem_internEach_iff.2 (.inr htext))

/-- The size of the pool counts the texts that were in it or were given, without repetition. -/
theorem size_internEach (pool : TextPool) (texts : List String) :
    (pool.internEach texts).2.size = (pool.texts ++ texts).dedup.length := by
  have hperm : (pool.internEach texts).2.texts.Perm (pool.texts ++ texts).dedup := by
    rw [List.perm_ext_iff_of_nodup (pool.internEach texts).2.nodup (List.nodup_dedup _)]
    intro text
    rw [mem_internEach_iff, List.mem_dedup, List.mem_append]
  exact hperm.length_eq

end Treeprint.TextPool
