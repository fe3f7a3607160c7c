import Mathlib.Data.List.GetD
import Treeprint.Proofs.Handing
import Treeprint.Session.Run

/-!
# Pools do not show in a session

In a session several snapshotters share a pool, and some have a pool of their own.  A session is
*unpooled* when the shared pool is empty and nobody has a pool of their own
(`Session.State.unpooled`).  One command gives the same reply and asks the same questions in a
session and in the unpooled one, and leaves sessions behind that are again the same but for their
pools (`Session.State.run_unpooled`).  By induction **a whole session is answered as if there were
no pools** (`Session.State.transcript_unpooled`), and no pool in it ever loses a text
(`Session.State.keepsPools_transcript`).
-/

namespace Treeprint

namespace Session

/-- The snapshotter without a pool of its own. -/
def Snapshotter.unpooled (snapshotter : Snapshotter) : Snapshotter :=
  { snapshotter with ownPool := none }

namespace State

/-- The session with an empty pool that everybody shares. -/
def unpooled (state : State) : State :=
  { state with pool := .empty, snapshotters := state.snapshotters.map Snapshotter.unpooled }

/-- The pool that a snapshotter uses for its snapshots: its own, or else the shared one. -/
def poolOf (state : State) (number : Nat) : TextPool :=
  (state.snapshotter number).ownPool.getD state.pool

/-- Commands one after the other, each with the number of its snapshotter: the replies with the
    questions on record, and the session in the end. -/
def transcript (state : State) : List (Nat × Command) → List (Reply × List Question) × State
  | [] => ([], state)
  | (number, command) :: rest =>
    let first := state.run number command
    let later := first.2.2.transcript rest
    ((first.1, first.2.1) :: later.1, later.2)

/-- Two answers to a command are the same but for the pools of the sessions afterwards. -/
structure Alike (answer other : Reply × List Question × State) : Prop where
  reply : other.1 = answer.1
  asked : other.2.1 = answer.2.1
  unpooled : other.2.2.unpooled = answer.2.2.unpooled

variable (state : State)

theorem unpooled_unpooled : state.unpooled.unpooled = state.unpooled := by
  have hmap : (state.snapshotters.map Snapshotter.unpooled).map Snapshotter.unpooled
      = state.snapshotters.map Snapshotter.unpooled := by
    rw [List.map_map]
    rfl
  unfold unpooled
  rw [hmap]

theorem snapshotter_unpooled (number : Nat) :
    state.unpooled.snapshotter number = (state.snapshotter number).unpooled :=
  @List.getD_map _ _ state.snapshotters ⟨.identity, .none, true, none⟩ number Snapshotter.unpooled

/-- Putting a snapshotter back into its place changes nothing. -/
theorem set_snapshotter (number : Nat) :
    state.snapshotters.set number (state.snapshotter number) = state.snapshotters := by
  by_cases h : number < state.snapshotters.length
  · rw [snapshotter, List.getD_eq_getElem _ _ h, List.set_getElem_self]
  · exact List.set_eq_of_length_le (Nat.le_of_not_lt h)

/-! ### One command -/

/-- A command whose effect has to do with no pool is answered alike. -/
theorem alike_of_commutes (reply : Reply) (asked : List Question) (change : State → State)
    (h : ∀ state : State, (change state).unpooled = change state.unpooled) :
    Alike (reply, asked, change state) (reply, asked, change state.unpooled) where
  reply := rfl
  asked := rfl
  unpooled := by
    show (change state.unpooled).unpooled = (change state).unpooled
    rw [h, h, unpooled_unpooled]

theorem alike_of_cache (reply : Reply) (change : Cache → Cache) :
    Alike (reply, [], { state with cache := change state.cache })
      (reply, [], { state.unpooled with cache := change state.unpooled.cache }) :=
  state.alike_of_commutes reply [] (fun state => { state with cache := change state.cache })
    fun _ => rfl

theorem unpooled_returnPool (number : Nat) (pool : TextPool) :
    (state.returnPool number (state.snapshotter number) pool).unpooled = state.unpooled := by
  unfold returnPool
  cases (state.snapshotter number).ownPool with
  | none => rfl
  | some own =>
    have hset : (state.snapshotters.set number
        { state.snapshotter number with ownPool := some pool }).map Snapshotter.unpooled
          = state.snapshotters.map Snapshotter.unpooled := by
      have hsame := state.unpooled.set_snapshotter number
      rw [snapshotter_unpooled] at hsame
      rw [List.map_set]
      exact hsame
    unfold unpooled
    rw [hset]

/-- What a session makes of a snapshot that ended so. -/
def conclude (number : Nat) : Except Failure Snapshot × Ledger → Reply × List Question × State
  | (.ok snapshot, after) =>
    let returned := state.returnPool number (state.snapshotter number) after.pool
    (.snapshot snapshot, recorded (state.snapshotter number) after.asked,
      { returned with cache := after.cache, taken := snapshot :: returned.taken })
  | (.error failure, after) =>
    let returned := state.returnPool number (state.snapshotter number) after.pool
    (.failure failure, recorded (state.snapshotter number) after.asked,
      { returned with cache := after.cache })

theorem takeSnapshot_of_run {number : Nat} {roots : List Root} {compareStrategy : CompareStrategy}
    {strategy : Strategy} {outcome : Except Failure Snapshot} {after : Ledger}
    (h : ((state.vantage (state.snapshotter number)).snapshot (state.snapshotter number).recipe
        roots compareStrategy strategy).on ⟨state.cache, state.poolOf number, []⟩
      = (outcome, after)) :
    state.takeSnapshot number roots compareStrategy strategy
      = state.conclude number (outcome, after) := by
  unfold poolOf at h
  unfold takeSnapshot
  simp only [h]
  cases outcome <;> rfl

theorem conclude_unpooled (number : Nat) (outcome : Except Failure Snapshot) (cache : Cache)
    (asked : List Question) (pool other : TextPool) :
    Alike (state.conclude number (outcome, ⟨cache, pool, asked⟩))
      (state.unpooled.conclude number (outcome, ⟨cache, other, asked⟩)) := by
  have hrecorded : recorded (state.unpooled.snapshotter number) asked
      = recorded (state.snapshotter number) asked := by
    rw [snapshotter_unpooled]
    rfl
  have hreturned : (state.unpooled.returnPool number (state.unpooled.snapshotter number)
        other).unpooled
      = (state.returnPool number (state.snapshotter number) pool).unpooled := by
    rw [unpooled_returnPool, unpooled_returnPool, unpooled_unpooled]
  cases outcome with
  | error failure =>
    exact ⟨rfl, hrecorded, congrArg (fun state : State => { state with cache }) hreturned⟩
  | ok snapshot =>
    exact ⟨rfl, hrecorded, congrArg (fun state : State =>
      { state with cache, taken := snapshot :: state.taken }) hreturned⟩

theorem takeSnapshot_unpooled (number : Nat) (roots : List Root)
    (compareStrategy : CompareStrategy) (strategy : Strategy) :
    Alike (state.takeSnapshot number roots compareStrategy strategy)
      (state.unpooled.takeSnapshot number roots compareStrategy strategy) := by
  obtain ⟨outcome, texts, cache, asked, hrun⟩ :=
    (state.vantage (state.snapshotter number)).blind_snapshot (state.snapshotter number).recipe
      roots compareStrategy strategy state.cache []
  have hunpooled : ((state.unpooled.vantage (state.unpooled.snapshotter number)).snapshot
        (state.unpooled.snapshotter number).recipe roots compareStrategy strategy).on
          ⟨state.unpooled.cache, state.unpooled.poolOf number, []⟩
      = (outcome, ⟨cache, ((state.unpooled.poolOf number).internEach texts).2, asked⟩) := by
    rw [snapshotter_unpooled]
    exact hrun _
  rw [state.takeSnapshot_of_run (hrun _), state.unpooled.takeSnapshot_of_run hunpooled]
  exact state.conclude_unpooled number outcome cache asked _ _

theorem walk_unpooled (number : Nat) (root : Root) :
    Alike (state.walk number root) (state.unpooled.walk number root) := by
  obtain ⟨outcome, texts, cache, asked, hrun⟩ :=
    (state.vantage (state.snapshotter number)).blind_expand root state.cache []
  have hunpooled : ((state.unpooled.vantage (state.snapshotter number).unpooled).expand root).on
        ⟨state.unpooled.cache, state.unpooled.pool, []⟩
      = (outcome, ⟨cache, (TextPool.empty.internEach texts).2, asked⟩) := hrun .empty
  unfold walk
  rw [snapshotter_unpooled]
  simp only [hrun, hunpooled]
  exact ⟨rfl, rfl, congrArg (fun state : State => { state with cache }) state.unpooled_unpooled⟩

theorem reload_of_error {fault : Json.Fault}
    (h : Json.readAll Persistence.readSnapshot
      (String.ofList (Persistence.writeSnapshot state.latest)) = .error fault) :
    state.reload = (.nothing, [], state) := by
  unfold reload
  simp only [h]

theorem reload_of_ok {again : Snapshot}
    (h : Json.readAll Persistence.readSnapshot
      (String.ofList (Persistence.writeSnapshot state.latest)) = .ok again) :
    state.reload = (.reloaded (String.ofList (Persistence.writeSnapshot state.latest))
      (again == state.latest), [], { state with taken := again :: state.taken }) := by
  unfold reload
  simp only [h]

/-- **One command is answered as if there were no pools**, and leaves sessions behind that differ in
    their pools at most. -/
theorem run_unpooled (number : Nat) (command : Command) :
    Alike (state.run number command) (state.unpooled.run number command) := by
  cases command with
  | snapshot roots compareStrategy strategy =>
    exact state.takeSnapshot_unpooled number roots compareStrategy strategy
  | walk root => exact state.walk_unpooled number root
  | getPath path | getListing path =>
    exact state.alike_of_commutes _ [] id fun _ => rfl
  | putPath observation => exact state.alike_of_cache _ (·.putPath observation)
  | putListing listing => exact state.alike_of_cache _ (·.putListing listing)
  | removePath path => exact state.alike_of_cache _ fun cache => (cache.removePath path).2
  | removeListing path => exact state.alike_of_cache _ fun cache => (cache.removeListing path).2
  | invalidate path => exact state.alike_of_cache _ (·.invalidate path)
  | clear => exact state.alike_of_cache _ fun _ => .empty
  | cached paths | lookup paths =>
    exact state.alike_of_commutes _ [] id fun _ => rfl
  | same =>
    have htaken : state.unpooled.taken = state.taken := rfl
    unfold run
    rw [htaken]
    rcases state.taken with _ | ⟨latest, _ | ⟨previous, taken⟩⟩
    · exact state.alike_of_commutes _ [] id fun _ => rfl
    · exact state.alike_of_commutes _ [] id fun _ => rfl
    · exact state.alike_of_commutes _ [] id fun _ => rfl
  | reload =>
    show Alike state.reload state.unpooled.reload
    rcases hread : Json.readAll Persistence.readSnapshot
        (String.ofList (Persistence.writeSnapshot state.latest)) with fault | again
    · rw [state.reload_of_error hread, state.unpooled.reload_of_error hread]
      exact state.alike_of_commutes _ [] id fun _ => rfl
    · rw [state.reload_of_ok hread, state.unpooled.reload_of_ok hread]
      exact state.alike_of_commutes _ []
        (fun state => { state with taken := again :: state.taken }) fun _ => rfl
  | edit removed made =>
    exact state.alike_of_commutes _ [] (fun state =>
      { state with disk := makeAll (removed.foldl (fun disk path => disk.removePath workspace path)
        state.disk) made }) fun _ => rfl
  | script script =>
    apply state.alike_of_commutes .nothing [] fun state =>
      { state with
        snapshotters := state.snapshotters.set number { state.snapshotter number with script } }
    intro state
    have hset : (state.snapshotters.set number
        { state.snapshotter number with script }).map Snapshotter.unpooled
          = (state.snapshotters.map Snapshotter.unpooled).set number
            { state.unpooled.snapshotter number with script } := by
      rw [List.map_set, snapshotter_unpooled]
      rfl
    exact congrArg (fun snapshotters : List Snapshotter =>
      { state with pool := .empty, snapshotters }) hset

/-! ### A whole session -/

/-- Sessions that differ in their pools at most are answered alike. -/
theorem transcript_alike {state other : State} (h : other.unpooled = state.unpooled)
    (commands : List (Nat × Command)) :
    (other.transcript commands).1 = (state.transcript commands).1 ∧
      (other.transcript commands).2.unpooled = (state.transcript commands).2.unpooled := by
  induction commands generalizing state other with
  | nil => exact ⟨rfl, h⟩
  | cons command rest ih =>
    obtain ⟨number, command⟩ := command
    -- both sessions are compared with the unpooled one, which is the same for both
    have hstate := state.run_unpooled number command
    have hother := other.run_unpooled number command
    rw [h] at hother
    have hreply : (other.run number command).1 = (state.run number command).1 :=
      hother.reply.symm.trans hstate.reply
    have hasked : (other.run number command).2.1 = (state.run number command).2.1 :=
      hother.asked.symm.trans hstate.asked
    obtain ⟨hlater, hafter⟩ := ih (hother.unpooled.symm.trans hstate.unpooled)
    refine ⟨?_, hafter⟩
    simp only [transcript, hreply, hasked, hlater]

/-- **A whole session is answered as if there were no pools.** -/
theorem transcript_unpooled (commands : List (Nat × Command)) :
    (state.unpooled.transcript commands).1 = (state.transcript commands).1 :=
  (transcript_alike state.unpooled_unpooled commands).1

/-! ### No pool loses a text -/

/-- The texts in all pools of the session are in the same slots afterwards. -/
structure KeepsPools (state after : State) : Prop where
  shared : state.pool.texts <+: after.pool.texts
  used : ∀ number, (state.poolOf number).texts <+: (after.poolOf number).texts

theorem KeepsPools.trans {state middle after : State} (h : KeepsPools state middle)
    (h' : KeepsPools middle after) : KeepsPools state after where
  shared := h.shared.trans h'.shared
  used number := (h.used number).trans (h'.used number)

theorem KeepsPools.refl : KeepsPools state state := ⟨List.prefix_rfl, fun _ => List.prefix_rfl⟩

variable {state} in
/-- Pools that are the same afterwards are kept. -/
theorem KeepsPools.of_same {after : State} (hshared : after.pool = state.pool)
    (hown : ∀ number, (after.snapshotter number).ownPool = (state.snapshotter number).ownPool) :
    KeepsPools state after where
  shared := by rw [hshared]
  used number := by
    unfold poolOf
    rw [hown, hshared]

/-- Where a snapshotter was put in, the others are as before. -/
theorem snapshotter_set (number other : Nat) (snapshotter : Snapshotter) :
    ({ state with
      snapshotters := state.snapshotters.set number snapshotter } : State).snapshotter other
        = state.snapshotter other ∨
      other = number ∧ ({ state with
        snapshotters := state.snapshotters.set number snapshotter } : State).snapshotter other
        = snapshotter := by
  unfold State.snapshotter
  simp only [List.getD_eq_getElem?_getD]
  by_cases hother : number = other
  · subst hother
    by_cases hlt : number < state.snapshotters.length
    · right
      rw [List.getElem?_set_self hlt]
      exact ⟨rfl, rfl⟩
    · left
      rw [List.set_eq_of_length_le (Nat.le_of_not_lt hlt)]
  · left
    rw [List.getElem?_set_ne hother]

/-- A pool that has only grown in use may be put back. -/
theorem keepsPools_returnPool {number : Nat} {pool : TextPool}
    (h : (state.poolOf number).texts <+: pool.texts) :
    KeepsPools state (state.returnPool number (state.snapshotter number) pool) := by
  unfold poolOf at h
  unfold returnPool
  cases hown : (state.snapshotter number).ownPool with
  | none =>
    rw [hown] at h
    refine ⟨h, fun other => ?_⟩
    show ((state.snapshotter other).ownPool.getD state.pool).texts
      <+: ((state.snapshotter other).ownPool.getD pool).texts
    cases (state.snapshotter other).ownPool with
    | none => exact h
    | some own => exact List.prefix_rfl
  | some own =>
    rw [hown] at h
    refine ⟨List.prefix_rfl, fun other => ?_⟩
    rcases state.snapshotter_set number other
      { state.snapshotter number with ownPool := some pool } with hsame | ⟨rfl, hset⟩
    · unfold poolOf
      rw [hsame]
    · unfold poolOf
      rw [hset, hown]
      exact h

theorem keepsPools_conclude {number : Nat} {after : Ledger}
    (h : (state.poolOf number).texts <+: after.pool.texts)
    (outcome : Except Failure Snapshot) :
    KeepsPools state (state.conclude number (outcome, after)).2.2 := by
  have hreturned := state.keepsPools_returnPool h
  cases outcome with
  | error failure => exact ⟨hreturned.shared, hreturned.used⟩
  | ok snapshot => exact ⟨hreturned.shared, hreturned.used⟩

theorem keepsPools_walk (number : Nat) (root : Root) :
    KeepsPools state (state.walk number root).2.2 := by
  have hkept := ((state.vantage (state.snapshotter number)).blind_expand root).keepsTexts
    ⟨state.cache, state.pool, []⟩
  refine ⟨hkept, fun other => ?_⟩
  show ((state.snapshotter other).ownPool.getD state.pool).texts
    <+: ((state.snapshotter other).ownPool.getD (state.walk number root).2.2.pool).texts
  cases (state.snapshotter other).ownPool with
  | none => exact hkept
  | some own => exact List.prefix_rfl

/-- **No command makes a pool of the session lose a text**, whether it succeeds or not. -/
theorem keepsPools_run (number : Nat) (command : Command) :
    KeepsPools state (state.run number command).2.2 := by
  cases command with
  | snapshot roots compareStrategy strategy =>
    let vantage := state.vantage (state.snapshotter number)
    have hkept := (vantage.blind_snapshot (state.snapshotter number).recipe roots compareStrategy
      strategy).keepsTexts ⟨state.cache, state.poolOf number, []⟩
    rcases hrun : (vantage.snapshot (state.snapshotter number).recipe roots compareStrategy
      strategy).on ⟨state.cache, state.poolOf number, []⟩ with ⟨outcome, after⟩
    rw [hrun] at hkept
    show KeepsPools state (state.takeSnapshot number roots compareStrategy strategy).2.2
    rw [state.takeSnapshot_of_run hrun]
    exact state.keepsPools_conclude hkept outcome
  | walk root => exact state.keepsPools_walk number root
  | script script =>
    have hown (other : Nat) : ((state.run number (.script script)).2.2.snapshotter other).ownPool
        = (state.snapshotter other).ownPool := by
      rcases state.snapshotter_set number other { state.snapshotter number with script }
        with hsame | ⟨rfl, hset⟩
      · exact congrArg Snapshotter.ownPool hsame
      · exact (congrArg Snapshotter.ownPool hset).trans rfl
    exact .of_same rfl hown
  | same =>
    have hsame : (state.run number .same).2.2 = state := by
      simp only [run]
      split <;> rfl
    rw [hsame]
    exact .refl state
  | reload =>
    have hreload : state.run number .reload = state.reload := rfl
    rw [hreload]
    rcases hread : Json.readAll Persistence.readSnapshot
        (String.ofList (Persistence.writeSnapshot state.latest)) with fault | again
    · rw [state.reload_of_error hread]
      exact .refl state
    · rw [state.reload_of_ok hread]
      exact .of_same rfl fun _ => rfl
  | getPath | getListing | cached | lookup => exact .refl state
  | putPath | putListing | removePath | removeListing | invalidate | clear | edit =>
    exact .of_same rfl fun _ => rfl

/-- **No session makes a pool lose a text.** -/
theorem keepsPools_transcript (commands : List (Nat × Command)) :
    KeepsPools state (state.transcript commands).2 := by
  induction commands generalizing state with
  | nil => exact .of_same rfl fun _ => rfl
  | cons command rest ih =>
    obtain ⟨number, command⟩ := command
    exact (state.keepsPools_run number command).trans (ih (state.run number command).2.2)

end State

end Session

/-- **A pool is faithful, and it is not seen.**  Of a sequence of calls of one pool each gives its
    text back, two of them give the same slot exactly when they give the same text, and afterwards
    the pool has as many texts as are different among those that it had and those that were given.
    With a strategy that can be had by name, handed the pool or not, a snapshot ends alike with any
    two pools, asks the same questions and leaves the same cache.  No walk and no snapshot, whatever
    its judge does with the pool and however it ends, makes the pool lose a text.  Therefore a
    session, in which pools are shared or owned, is answered as if there were none, and keeps what
    is in all of them. -/
theorem pools_faithful_and_unseen :
    (∀ (pool : TextPool) (texts : List String),
      (pool.internEach texts).1.map Prod.fst = texts ∧
      ((pool.internEach texts).1.Pairwise fun first second =>
        first.2 = second.2 ↔ first.1 = second.1) ∧
      (pool.internEach texts).2.size = (pool.texts ++ texts).dedup.length) ∧
    (∀ (vantage : Vantage) (recipe : Recipe) (roots : List Root) (compareStrategy : CompareStrategy)
        (builtIn : BuiltIn) (cache : Cache) (asked : List Question) (pool other : TextPool),
      let call := vantage.snapshotBy recipe roots compareStrategy builtIn.judge
      call = vantage.snapshot recipe roots compareStrategy builtIn.strategy ∧
      (call.on ⟨cache, other, asked⟩).1 = (call.on ⟨cache, pool, asked⟩).1 ∧
      (call.on ⟨cache, other, asked⟩).2.asked = (call.on ⟨cache, pool, asked⟩).2.asked ∧
      (call.on ⟨cache, other, asked⟩).2.cache = (call.on ⟨cache, pool, asked⟩).2.cache) ∧
    (∀ (vantage : Vantage) (root : Root), Work.KeepsTexts (vantage.expand root)) ∧
    (∀ (vantage : Vantage) (recipe : Recipe) (roots : List Root) (compareStrategy : CompareStrategy)
        (judge : Judge),
      Work.KeepsTexts (vantage.snapshotBy recipe roots compareStrategy judge)) ∧
    ∀ (state : Session.State) (commands : List (Nat × Session.Command)),
      (state.unpooled.transcript commands).1 = (state.transcript commands).1 ∧
        state.KeepsPools (state.transcript commands).2 := by
  refine ⟨?_, ?_, ?_, ?_, ?_⟩
  · intro pool texts
    exact ⟨pool.texts_of_answers texts, pool.slots_of_answers texts, pool.size_internEach texts⟩
  · intro vantage recipe roots compareStrategy builtIn cache asked pool other call
    have hcall : call = vantage.snapshot recipe roots compareStrategy builtIn.strategy :=
      vantage.snapshotBy_eq_snapshot recipe roots compareStrategy builtIn.follows
    have hblind : Work.Blind call := by
      rw [hcall]
      exact vantage.blind_snapshot recipe roots compareStrategy builtIn.strategy
    exact ⟨hcall, hblind.same cache asked pool other⟩
  · intro vantage root
    exact (vantage.blind_expand root).keepsTexts
  · intro vantage recipe roots compareStrategy judge
    exact vantage.keepsTexts_snapshotBy recipe roots compareStrategy judge
  · intro state commands
    exact ⟨state.transcript_unpooled commands, state.keepsPools_transcript commands⟩

end Treeprint
