import Treeprint.Proofs.Keeping
import Treeprint.Proofs.Pooling

/-!
# Nothing that is done reads the pool

A pool of texts runs through all the work of a call, and what a call enters in its ledger depends on
what is in there.  Here it is shown that the pool is only written: work is *blind*
(`Work.Blind`) when for every pool it ends alike, asks the same questions and leaves the same cache,
and hands the same texts to the pool, one after the other.

Interning is blind since it gives back the text that it is given, whatever the pool has stored
before; reading the ledger is blind as long as what follows goes by the cache.  Blindness is kept
when work is put together, so that it holds of **every walk and of every snapshot**
(`Vantage.blind_expand`, `Vantage.blind_snapshot`).
-/

namespace Treeprint

namespace Work

variable {α β : Type}

/-- How the work ends, what it asks, what it leaves in the cache and which texts it stores are the
    same for every pool. -/
def Blind (work : Work α) : Prop :=
  ∀ cache asked, ∃ outcome texts cacheAfter askedAfter, ∀ pool,
    work.on ⟨cache, pool, asked⟩
      = (outcome, ⟨cacheAfter, (pool.internEach texts).2, askedAfter⟩)

/-- The texts of the pool keep their slots, however the work ends. -/
def KeepsTexts (work : Work α) : Prop :=
  ∀ ledger, ledger.pool.texts <+: (work.on ledger).2.pool.texts

theorem Blind.keepsTexts {work : Work α} (h : Blind work) : KeepsTexts work := by
  intro ledger
  obtain ⟨outcome, texts, cacheAfter, askedAfter, hrun⟩ := h ledger.cache ledger.asked
  rw [hrun ledger.pool]
  exact ledger.pool.prefix_internEach texts

/-- With two pools blind work ends alike, asks the same and leaves the same cache. -/
theorem Blind.same {work : Work α} (h : Blind work) (cache : Cache) (asked : List Question)
    (pool other : TextPool) :
    (work.on ⟨cache, other, asked⟩).1 = (work.on ⟨cache, pool, asked⟩).1 ∧
      (work.on ⟨cache, other, asked⟩).2.asked = (work.on ⟨cache, pool, asked⟩).2.asked ∧
      (work.on ⟨cache, other, asked⟩).2.cache = (work.on ⟨cache, pool, asked⟩).2.cache := by
  obtain ⟨outcome, texts, cacheAfter, askedAfter, hrun⟩ := h cache asked
  rw [hrun pool, hrun other]
  exact ⟨rfl, rfl, rfl⟩

/-! ### Single steps -/

theorem blind_pure (a : α) : Blind (pure a : Work α) :=
  fun cache asked => ⟨.ok a, [], cache, asked, fun _ => rfl⟩

theorem blind_throw (failure : Failure) : Blind (throw failure : Work α) :=
  fun cache asked => ⟨.error failure, [], cache, asked, fun _ => rfl⟩

/-- What interning gives back is the text that was given, so the pool does not show in it. -/
theorem blind_intern (text : String) : Blind (intern text) :=
  fun cache asked =>
    ⟨.ok text, [text], cache, asked, fun pool => on_intern text ⟨cache, pool, asked⟩⟩

/-- Storing texts one by one leaves the pool of their sequence. -/
theorem on_internAll_eq_internEach (texts : List String) (ledger : Ledger) :
    (internAll texts).on ledger
      = (.ok (), { ledger with pool := (ledger.pool.internEach texts).2 }) := by
  induction texts generalizing ledger with
  | nil => rfl
  | cons text texts ih =>
    rw [internAll, on_bind_ok (on_intern text ledger), ih]
    rfl

theorem blind_internAll (texts : List String) : Blind (internAll texts) :=
  fun cache asked => ⟨.ok (), texts, cache, asked,
    fun pool => on_internAll_eq_internEach texts ⟨cache, pool, asked⟩⟩

theorem blind_changeCache (change : Cache → Cache) : Blind (changeCache change) :=
  fun cache asked => ⟨.ok (), [], change cache, asked, fun _ => rfl⟩

/-! ### Putting work together -/

theorem Blind.bind {work : Work α} {next : α → Work β} (hwork : Blind work)
    (hnext : ∀ a, Blind (next a)) : Blind (work >>= next) := by
  intro cache asked
  obtain ⟨outcome, texts, middle, askedThen, hrun⟩ := hwork cache asked
  cases outcome with
  | error failure =>
    exact ⟨.error failure, texts, middle, askedThen, fun pool => on_bind_error (hrun pool)⟩
  | ok a =>
    obtain ⟨outcome, more, last, askedAfter, hrest⟩ := hnext a middle askedThen
    refine ⟨outcome, texts ++ more, last, askedAfter, fun pool => ?_⟩
    rw [on_bind_ok (hrun pool), hrest, pool.internEach_append]

/-- The ledger may be read, when what follows goes by the cache alone. -/
theorem Blind.after_get {next : Ledger → Work β} (hnext : ∀ ledger, Blind (next ledger))
    (hcache : ∀ ledger other, other.cache = ledger.cache → next other = next ledger) :
    Blind (get >>= next) := by
  intro cache asked
  let start : Ledger := ⟨cache, .empty, asked⟩
  obtain ⟨outcome, texts, cacheAfter, askedAfter, hrun⟩ := hnext start cache asked
  refine ⟨outcome, texts, cacheAfter, askedAfter, fun pool => ?_⟩
  rw [on_bind_ok (on_get _), hcache start ⟨cache, pool, asked⟩ rfl, hrun]

theorem keepsTexts_pure (a : α) : KeepsTexts (pure a : Work α) := (blind_pure a).keepsTexts

theorem KeepsTexts.bind {work : Work α} {next : α → Work β} (hwork : KeepsTexts work)
    (hnext : ∀ a, KeepsTexts (next a)) : KeepsTexts (work >>= next) := by
  intro ledger
  apply after_bind (fun after => ledger.pool.texts <+: after.pool.texts) (hwork ledger)
  intro a after hkept
  exact hkept.trans (hnext a after)

end Work

/-! ### Walks are blind -/

namespace Vantage

variable (vantage : Vantage)

theorem blind_stat (location : List Name) : Work.Blind (vantage.stat location) := by
  intro cache asked
  refine ⟨((vantage.stat location).on ⟨cache, .empty, asked⟩).1, [], cache,
    asked ++ [.stat (Path.render location)], fun pool => ?_⟩
  rw [on_stat, on_stat]
  rfl

theorem blind_content (location : List Name) (metadata : Metadata) :
    Work.Blind (vantage.content location metadata) := by
  intro cache asked
  refine ⟨((vantage.content location metadata).on ⟨cache, .empty, asked⟩).1, [], cache,
    asked ++ [.hash (Path.render location)], fun pool => ?_⟩
  rw [on_content, on_content]
  rfl

/-- Whatever is walked without the cache is blind. -/
theorem composes_blind : vantage.Composes (fun _ => True) fun _ => Work.Blind where
  pure := Work.blind_pure
  throw _ := Work.blind_throw _
  bind := Work.Blind.bind
  intern := Work.blind_intern
  stat _ := vantage.blind_stat _
  content _ := vantage.blind_content _

theorem blind_contents (location : List Name) (key : String) :
    Work.Blind (vantage.contents location key) := by
  apply Work.Blind.after_get
  · intro ledger
    cases ledger.cache.listing? key with
    | some listing => exact Work.blind_pure _
    | none =>
      apply (vantage.composes_blind.scan (fun _ _ => trivial) .all).bind
      intro entries
      exact (Work.blind_changeCache _).bind fun _ => Work.blind_pure _
  · intro ledger other hcache
    rw [hcache]

theorem blind_member (location : List Name) (key : String) :
    Work.Blind (vantage.member location key) := by
  apply Work.Blind.after_get
  · intro ledger
    cases ledger.cache.path? key with
    | some observation => exact Work.blind_pure _
    | none =>
      apply (vantage.composes_blind.probe trivial key).bind
      intro observation
      exact (Work.blind_changeCache _).bind fun _ => Work.blind_pure _
  · intro ledger other hcache
    rw [hcache]

theorem blind_expandMember (path : Bytes) : Work.Blind (vantage.expandMember path) := by
  apply vantage.composes_blind.located fun _ => trivial
  intro location _
  apply (Work.blind_intern _).bind
  intro key
  apply (vantage.blind_member location key).bind
  intro observation
  cases observation.kind with
  | missing | regularFile => exact Work.blind_pure _
  | directory =>
    apply (vantage.blind_contents location key).bind
    intro contents
    exact Work.blind_pure _

theorem blind_expandMembers (paths : List Bytes) : Work.Blind (vantage.expandMembers paths) := by
  induction paths with
  | nil => exact Work.blind_pure _
  | cons path paths ih =>
    apply (vantage.blind_expandMember path).bind
    intro expansion
    exact ih.bind fun _ => Work.blind_pure _

theorem blind_expandTree (location : List Name) : Work.Blind (vantage.expandTree location) := by
  apply (Work.blind_intern _).bind
  intro key
  apply Work.Blind.after_get
  · intro ledger
    cases ledger.cache.listing? key with
    | some listing => exact Work.blind_pure _
    | none =>
      apply (vantage.blind_stat location).bind
      intro metadata
      cases metadata.type with
      | directory => exact vantage.blind_contents location key
      | missing | regularFile | unrecognized =>
        exact vantage.composes_blind.withoutDirectory (fun _ _ => trivial) metadata
  · intro ledger other hcache
    rw [hcache]

/-- **The walk of a root is blind**, whatever its shape. -/
theorem blind_expand (root : Root) : Work.Blind (vantage.expand root) := by
  cases root with
  | members paths => exact vantage.blind_expandMembers paths
  | filtered directory restriction =>
    apply vantage.composes_blind.located fun _ => trivial
    intro location _
    apply (vantage.composes_blind.expandFiltered (fun _ _ => trivial) restriction).bind
    intro entries
    exact Work.blind_pure _
  | tree directory =>
    apply vantage.composes_blind.located fun _ => trivial
    intro location _
    apply (vantage.blind_expandTree location).bind
    intro entries
    exact Work.blind_pure _

theorem blind_gather (recipe : Recipe) (roots : List Root) :
    Work.Blind (vantage.gather recipe roots) := by
  induction roots with
  | nil => exact Work.blind_pure _
  | cons root roots ih =>
    apply (vantage.blind_expand root).bind
    intro expansions
    exact ih.bind fun _ => Work.blind_pure _

end Vantage

/-! ### Snapshots are blind -/

theorem Strategy.blind_fold (strategy : Strategy) (taken : List String)
    (entries : List Observation) : Work.Blind (strategy.fold taken entries) := by
  induction entries generalizing taken with
  | nil => exact Work.blind_pure _
  | cons entry rest ih =>
    unfold fold
    split
    · exact ih taken
    · apply (Work.blind_internAll _).bind
      intro _
      rcases strategy.judge entry with failure | _ | fingerprint
      · exact Work.blind_throw failure
      · exact ih taken
      · exact (ih (entry.path :: taken)).bind fun _ => Work.blind_pure _

/-- **A snapshot is blind**, whatever its recipe and its strategy. -/
theorem Vantage.blind_snapshot (vantage : Vantage) (recipe : Recipe) (roots : List Root)
    (compareStrategy : CompareStrategy) (strategy : Strategy) :
    Work.Blind (vantage.snapshot recipe roots compareStrategy strategy) := by
  unfold snapshot
  split
  · exact Work.blind_pure _
  · apply (vantage.blind_gather recipe roots).bind
    intro entries
    apply (strategy.blind_fold [] entries).bind
    intro fingerprints
    split <;> exact Work.blind_pure _

end Treeprint
