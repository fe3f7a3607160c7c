import Treeprint.Work

/-!
# Running work on a ledger

How each step of `Work` changes the ledger and what it gives.  `on_bind` takes a run apart: the
second part runs on the ledger that the first has left behind, and not at all when the first fails.
`after_bind` says the same of what is kept along a run: it is enough that each part keeps it.

`Work.Agrees` compares work with an outcome that is expected of it.  As long as the cache has a
property on which the expectation rests, the work keeps the property, also where it fails, and ends
as expected; where out-of-turn failures are allowed, it may fail instead.  The lemmas about it
follow the way in which work is put together, so that an expectation is checked step by step.
-/

namespace Treeprint

theorem TextPool.intern_text (pool : TextPool) (text : String) :
    (pool.intern text).1.1 = text := by
  unfold TextPool.intern
  split
  · rename_i h
    have hlt : pool.texts.idxOf text < pool.texts.length := List.idxOf_lt_length_of_mem h
    simp only [List.getD_eq_getElem?_getD, List.getElem?_eq_getElem hlt, Option.getD_some]
    exact List.getElem_idxOf hlt
  · rfl

namespace Work

variable {α β : Type}

/-! ### Single steps -/

@[simp] theorem on_pure (a : α) (ledger : Ledger) :
    (pure a : Work α).on ledger = (.ok a, ledger) := rfl

theorem on_bind (work : Work α) (next : α → Work β) (ledger : Ledger) :
    (work >>= next).on ledger = match work.on ledger with
      | (.ok a, after) => (next a).on after
      | (.error failure, after) => (.error failure, after) := by
  simp only [on, ExceptT.run, bind, ExceptT.bind, ExceptT.mk, StateT.run, StateT.bind]
  rcases work ledger with ⟨_ | a, after⟩ <;> rfl

theorem on_bind_ok {work : Work α} {next : α → Work β} {ledger after : Ledger} {a : α}
    (h : work.on ledger = (.ok a, after)) : (work >>= next).on ledger = (next a).on after := by
  rw [on_bind, h]

theorem on_bind_error {work : Work α} {next : α → Work β} {ledger after : Ledger}
    {failure : Failure} (h : work.on ledger = (.error failure, after)) :
    (work >>= next).on ledger = (.error failure, after) := by
  rw [on_bind, h]

theorem on_bind_eq_ok {work : Work α} {next : α → Work β} {ledger after : Ledger} {b : β}
    (h : (work >>= next).on ledger = (.ok b, after)) :
    ∃ a middle, work.on ledger = (.ok a, middle) ∧ (next a).on middle = (.ok b, after) := by
  rw [on_bind] at h
  rcases hwork : work.on ledger with ⟨failure | a, middle⟩
  · rw [hwork] at h
    cases h
  · rw [hwork] at h
    exact ⟨a, middle, rfl, h⟩

/-- What holds of the ledger after a step, and goes on to hold through what follows, holds after
    both. -/
theorem after_bind {work : Work α} {next : α → Work β} {ledger : Ledger} (holds : Ledger → Prop)
    (hwork : holds (work.on ledger).2)
    (hnext : ∀ a after, holds after → holds ((next a).on after).2) :
    holds ((work >>= next).on ledger).2 := by
  rcases hrun : work.on ledger with ⟨failure | a, after⟩
  · rw [hrun] at hwork
    rw [on_bind_error hrun]
    exact hwork
  · rw [hrun] at hwork
    rw [on_bind_ok hrun]
    exact hnext a after hwork

@[simp] theorem on_get (ledger : Ledger) : (get : Work Ledger).on ledger = (.ok ledger, ledger) :=
  rfl

@[simp] theorem on_ask (question : Question) (ledger : Ledger) :
    (ask question).on ledger
      = (.ok (), { ledger with asked := ledger.asked ++ [question] }) := rfl

@[simp] theorem on_changeCache (change : Cache → Cache) (ledger : Ledger) :
    (changeCache change).on ledger = (.ok (), { ledger with cache := change ledger.cache }) := rfl

@[simp] theorem on_intern (text : String) (ledger : Ledger) :
    (intern text).on ledger
      = (.ok text, { ledger with pool := (ledger.pool.intern text).2 }) := by
  have h : (intern text).on ledger = (.ok (ledger.pool.intern text).1.1,
      { ledger with pool := (ledger.pool.intern text).2 }) := rfl
  rw [h, TextPool.intern_text]

/-- Interning texts changes nothing but the pool. -/
theorem on_internAll (texts : List String) (ledger : Ledger) :
    ∃ pool, (internAll texts).on ledger = (.ok (), { ledger with pool }) := by
  induction texts generalizing ledger with
  | nil => exact ⟨ledger.pool, rfl⟩
  | cons text texts ih =>
    rw [internAll, on_bind_ok (on_intern text ledger)]
    exact ih _

/-! ### Work that ends as expected -/

/-- Work that ends as expected, or fails out of turn where that is allowed, and that keeps a
    property of the cache either way. -/
def Agrees (keeps : Cache → Prop) (mayFail : Prop) (work : Work α) (expected : Except Failure α) :
    Prop :=
  ∀ ledger, keeps ledger.cache → keeps (work.on ledger).2.cache ∧
    ((work.on ledger).1 = expected ∨ mayFail ∧ ∃ failure, (work.on ledger).1 = .error failure)

variable {keeps : Cache → Prop} {mayFail : Prop}

theorem agrees_pure (a : α) : Agrees keeps mayFail (pure a) (.ok a) :=
  fun _ h => ⟨h, .inl rfl⟩

theorem agrees_throw (failure : Failure) :
    Agrees keeps mayFail (throw failure : Work α) (.error failure) :=
  fun _ h => ⟨h, .inl rfl⟩

/-- What follows a step has to agree only for the result that is expected of the step. -/
theorem Agrees.bind {work : Work α} {expected : Except Failure α} {next : α → Work β}
    {expectedNext : α → Except Failure β} (hwork : Agrees keeps mayFail work expected)
    (hnext : ∀ a, expected = .ok a → Agrees keeps mayFail (next a) (expectedNext a)) :
    Agrees keeps mayFail (work >>= next) (expected >>= expectedNext) := by
  intro ledger hledger
  obtain ⟨hkeeps, houtcome⟩ := hwork ledger hledger
  rcases hrun : work.on ledger with ⟨failure | a, after⟩
  · rw [on_bind_error hrun]
    rw [hrun] at hkeeps houtcome
    refine ⟨hkeeps, ?_⟩
    rcases houtcome with heq | ⟨hmay, -⟩
    · exact .inl (by rw [← heq]; rfl)
    · exact .inr ⟨hmay, failure, rfl⟩
  · rw [on_bind_ok hrun]
    rw [hrun] at hkeeps houtcome
    rcases houtcome with heq | ⟨-, failure, heq⟩
    · rw [← heq]
      exact hnext a heq.symm after hkeeps
    · cases heq

theorem Agrees.bind_ok {work : Work α} {a : α} {next : α → Work β} {expected : Except Failure β}
    (hwork : Agrees keeps mayFail work (.ok a)) (hnext : Agrees keeps mayFail (next a) expected) :
    Agrees keeps mayFail (work >>= next) expected := by
  have hcontinue (b : α) (hb : (.ok a : Except Failure α) = .ok b) :
      Agrees keeps mayFail (next b) expected := by
    cases hb
    exact hnext
  exact hwork.bind hcontinue

/-- A step that always gives one result and leaves the cache alone can be passed over. -/
theorem Agrees.after_step {step : Work α} {a : α} {next : α → Work β} {expected : Except Failure β}
    (hstep : ∀ ledger, ∃ after, step.on ledger = (.ok a, after) ∧ after.cache = ledger.cache)
    (hnext : Agrees keeps mayFail (next a) expected) :
    Agrees keeps mayFail (step >>= next) expected := by
  intro ledger hledger
  obtain ⟨after, hrun, hcache⟩ := hstep ledger
  rw [on_bind_ok hrun]
  exact hnext after (hcache ▸ hledger)

theorem Agrees.after_intern {text : String} {next : String → Work β} {expected : Except Failure β}
    (hnext : Agrees keeps mayFail (next text) expected) :
    Agrees keeps mayFail (intern text >>= next) expected :=
  .after_step (fun ledger => ⟨_, on_intern text ledger, rfl⟩) hnext

/-- The ledger may be read, when what follows agrees on the ledger that was read. -/
theorem Agrees.after_get {next : Ledger → Work β} {expected : Except Failure β}
    (hnext : ∀ ledger, keeps ledger.cache → keeps ((next ledger).on ledger).2.cache ∧
      (((next ledger).on ledger).1 = expected ∨
        mayFail ∧ ∃ failure, ((next ledger).on ledger).1 = .error failure)) :
    Agrees keeps mayFail (get >>= next) expected := by
  intro ledger hledger
  rw [on_bind_ok (on_get ledger)]
  exact hnext ledger hledger

/-- What a step gives may be put into the cache before it is passed on. -/
theorem Agrees.remembered {work : Work α} {expected : Except Failure α} {change : α → Cache → Cache}
    (hwork : Agrees keeps mayFail work expected)
    (hchange : ∀ a cache, expected = .ok a → keeps cache → keeps (change a cache)) :
    Agrees keeps mayFail
      (do
        let a ← work
        changeCache (change a)
        return a)
      expected := by
  have hbind : (expected >>= fun a => .ok a) = expected := bind_pure expected
  rw [← hbind]
  apply hwork.bind
  intro a ha ledger hledger
  rw [on_bind_ok (on_changeCache (change a) ledger)]
  exact ⟨hchange a ledger.cache ha hledger, .inl rfl⟩

/-- Where nothing fails out of turn, work that agrees ends as expected. -/
theorem Agrees.outcome {work : Work α} {expected : Except Failure α}
    (hwork : Agrees keeps mayFail work expected) (hmay : ¬ mayFail) {ledger : Ledger}
    (hledger : keeps ledger.cache) : (work.on ledger).1 = expected :=
  (hwork ledger hledger).2.resolve_right fun h => hmay h.1

theorem Agrees.kept {work : Work α} {expected : Except Failure α}
    (hwork : Agrees keeps mayFail work expected) {ledger : Ledger}
    (hledger : keeps ledger.cache) : keeps (work.on ledger).2.cache :=
  (hwork ledger hledger).1

end Work

end Treeprint
