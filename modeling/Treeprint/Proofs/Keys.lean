import Treeprint.Proofs.Detection
import Treeprint.Proofs.Looking
import Treeprint.Proofs.Recalling
import Treeprint.Proofs.Spelling

/-!
# One key for each location

A path that is walked as a member or as a tree is kept under one key.  What is meant by that is said
without naming the key (`Vantage.MemberKey`, `Vantage.TreeKey`): an answer that is held under it is
given, without such an answer the path is asked for, what the walk leaves it leaves there, and
nothing else is touched.  Such a key is unique, and it is the text of the location that the path
spells.

The main statement, `one_key_per_location`, puts this together with what is known of spellings.  Two
UTF-8 paths have the same key exactly when the locations that they spell are shown alike, whatever
the disk looks like.  Where the current directory is UTF-8 itself, or both paths are absolute or
both relative, this means that **they spell the same location**, and then after one of them was
walked the other is answered from memory.  Otherwise two locations may have one key
(`one_key_of_lookalikes`).
-/

namespace Treeprint

/-! ### How locations are written -/

namespace Path

/-- The form that locations are written in. -/
structure IsNormal (form : Bytes) : Prop where
  absolute : form.head? = some slash
  /-- behind the slash that it begins with no piece is empty or `.` -/
  pieces : form = [slash] ∨ ∀ piece ∈ (pieces form).tail, piece ≠ [] ∧ piece ≠ here
  last : form = [slash] ∨ form.getLast? ≠ some slash
  /-- read as a path it spells what is written -/
  again : ∀ current, (Path.absolute current form).map render = some form

theorem isNormal_render {location : List Name} (h : ∀ name ∈ location, name.Plain) :
    IsNormal (render location) where
  absolute := by cases location <;> rfl
  pieces := by
    by_cases hne : location = []
    · exact .inl (by rw [hne]; rfl)
    · right
      have hpieces : Path.pieces (render location) = [] :: location := by
        obtain ⟨name, rest, rfl⟩ := List.exists_cons_of_ne_nil hne
        exact pieces_flatMap fun name hname => (h name hname).2.2
      intro piece hpiece
      rw [hpieces, List.tail_cons] at hpiece
      exact ⟨(h piece hpiece).1, (h piece hpiece).2.1⟩
  last := by
    by_cases hne : location = []
    · exact .inl (by rw [hne]; rfl)
    · exact .inr (getLast?_render h hne)
  again current := by
    rw [absolute_render current h]
    rfl

end Path

namespace Work

variable {α β : Type}

/-! ### Work that asks -/

/-- On this ledger the work asks at least one question. -/
def Asks (work : Work α) (ledger : Ledger) : Prop :=
  ∃ question, ledger.asked ++ [question] <+: (work.on ledger).2.asked

/-- On this ledger the work asks the question, and before any other. -/
def AsksFor (question : Question) (work : Work α) (ledger : Ledger) : Prop :=
  ledger.asked ++ [question] <+: (work.on ledger).2.asked

variable {question : Question}

theorem AsksFor.bind {work : Work α} {next : α → Work β} {ledger : Ledger}
    (hwork : AsksFor question work ledger) (hnext : ∀ a, Grows (next a)) :
    AsksFor question (work >>= next) ledger := by
  apply after_bind (fun after => ledger.asked ++ [question] <+: after.asked) hwork
  intro a after hasked
  exact hasked.trans (hnext a after)

theorem AsksFor.after_intern {text : String} {next : String → Work β} {ledger : Ledger}
    (hnext : ∀ pool, AsksFor question (next text) { ledger with pool }) :
    AsksFor question (intern text >>= next) ledger := by
  unfold AsksFor at hnext ⊢
  rw [on_bind_ok (on_intern text ledger)]
  exact hnext (ledger.pool.intern text).2

theorem AsksFor.after_get {next : Ledger → Work β} {ledger : Ledger}
    (hnext : AsksFor question (next ledger) ledger) : AsksFor question (get >>= next) ledger := by
  unfold AsksFor
  rw [on_bind_ok (on_get ledger)]
  exact hnext

/-- What asks is not done from memory. -/
theorem Asks.not_fromMemory {work : Work α} {ledger : Ledger} (h : Asks work ledger)
    (outcome : Except Failure α) : ¬ FromMemory ledger.cache work outcome := by
  intro hmemory
  obtain ⟨question, hquestion⟩ := h
  obtain ⟨pool, hrun⟩ := hmemory ledger rfl
  rw [hrun] at hquestion
  have hlength := hquestion.length_le
  rw [List.length_append, List.length_singleton] at hlength
  exact absurd hlength (Nat.not_succ_le_self _)

end Work

namespace Vantage

variable {vantage : Vantage} {location : List Name} {key : String} {ledger : Ledger}

theorem asksFor_stat (location : List Name) (ledger : Ledger) :
    Work.AsksFor (.stat (Path.render location)) (vantage.stat location) ledger := by
  rw [Work.AsksFor, on_stat]

theorem asksFor_probe (location : List Name) (key : String) (ledger : Ledger) :
    Work.AsksFor (.stat (Path.render location)) (vantage.probe location key) ledger := by
  apply (asksFor_stat location ledger).bind
  intro metadata
  cases metadata.type with
  | missing | directory => exact Work.grows_pure _
  | regularFile =>
    exact (vantage.looks_content location metadata).asked.bind fun _ => Work.grows_pure _
  | unrecognized => exact Work.grows_throw _

theorem asksFor_member (h : ledger.cache.path? key = none) :
    Work.AsksFor (.stat (Path.render location)) (vantage.member location key) ledger := by
  apply Work.AsksFor.after_get
  rw [h]
  apply (asksFor_probe location key ledger).bind
  intro observation
  exact (Work.grows_changeCache _).bind fun _ => Work.grows_pure _

/-- A member that is not held is asked for. -/
theorem asksFor_expandMember {path : Bytes}
    (hpath : Path.absolute vantage.current path = some location)
    (h : ledger.cache.path? (Path.text location) = none) :
    Work.AsksFor (.stat (Path.render location)) (vantage.expandMember path) ledger := by
  rw [expandMember, absolute_of_some hpath, pure_bind]
  apply Work.AsksFor.after_intern
  intro pool
  have hfree : ({ ledger with pool } : Ledger).cache.path? (Path.text location) = none := h
  apply (asksFor_member hfree).bind
  intro observation
  cases observation.kind with
  | missing | regularFile => exact Work.grows_pure _
  | directory =>
    have hcontents : Work.Gathers vantage (fun _ => True)
        (vantage.contents location (Path.text location)) := vantage.gathers_contents trivial
    exact hcontents.asked.bind fun _ => Work.grows_pure _

/-- A tree that is not held is asked for. -/
theorem asksFor_expandTree (h : ledger.cache.listing? (Path.text location) = none) :
    Work.AsksFor (.stat (Path.render location)) (vantage.expandTree location) ledger := by
  apply Work.AsksFor.after_intern
  intro pool
  have hfree : ({ ledger with pool } : Ledger).cache.listing? (Path.text location) = none := h
  apply Work.AsksFor.after_get
  rw [hfree]
  apply (asksFor_stat location _).bind
  intro metadata
  cases metadata.type with
  | directory =>
    have hcontents : Work.Gathers vantage (fun _ => True)
        (vantage.contents location (Path.text location)) := vantage.gathers_contents trivial
    exact hcontents.asked
  | missing | regularFile | unrecognized =>
    exact (vantage.looks_withoutDirectory location metadata).asked

/-! ### What a path is kept under -/

/-- The path, walked as a member, is kept under this key. -/
structure MemberKey (vantage : Vantage) (path : Bytes) (key : String) : Prop where
  /-- What is held under the key is the answer, and nothing is asked. -/
  recalled {cache : Cache} {expansion : Expansion} : cache.HasMember key expansion →
    Work.FromMemory cache (vantage.expandMember path) (.ok expansion)
  /-- Where nothing is held the path is asked for. -/
  asks {ledger : Ledger} : ledger.cache.path? key = none →
    Work.Asks (vantage.expandMember path) ledger
  /-- A walk that succeeds leaves its answer under the key. -/
  left {ledger after : Ledger} {expansion : Expansion} :
    (vantage.expandMember path).on ledger = (.ok expansion, after) →
    after.cache.HasMember key expansion
  /-- Nothing else is touched. -/
  adds : Work.Adds (· = key) (· = key) (vantage.expandMember path)

/-- The path, walked as a tree, is kept under this key. -/
structure TreeKey (vantage : Vantage) (path : Bytes) (key : String) : Prop where
  recalled {cache : Cache} {listing : Listing} : cache.listing? key = some listing →
    Work.FromMemory cache (vantage.expand (.tree path)) (.ok [.tree listing.entries])
  asks {ledger : Ledger} : ledger.cache.listing? key = none →
    Work.Asks (vantage.expand (.tree path)) ledger
  /-- A walk that succeeds leaves its listing under the key, when there is a directory to list. -/
  left {ledger after : Ledger} {expansions : List Expansion} :
    (vantage.expand (.tree path)).on ledger = (.ok expansions, after) →
    vantage.SettlesRoot ledger (.tree path) →
    ∃ listing, after.cache.listing? key = some listing ∧ expansions = [.tree listing.entries]
  adds : Work.Adds (fun _ => False) (· = key) (vantage.expand (.tree path))

variable {path : Bytes}

theorem memberKey_text (hpath : Path.absolute vantage.current path = some location) :
    vantage.MemberKey path (Path.text location) where
  recalled h := fromMemory_expandMember ⟨location, hpath, h⟩
  asks h := ⟨_, asksFor_expandMember hpath h⟩
  left h := by
    obtain ⟨other, hother, hmember⟩ := hasPath_of_expandMember h
    rw [hpath] at hother
    cases hother
    exact hmember
  adds := by
    have hkey (key : String) (h : Path.KeyOf vantage.current [path] key) :
        key = Path.text location := by
      obtain ⟨other, hother, rfl⟩ := h
      simp [Path.locations, hpath] at hother
      rw [hother]
    exact (vantage.adds_expandMember path).mono hkey hkey

theorem treeKey_text (hpath : Path.absolute vantage.current path = some location) :
    vantage.TreeKey path (Path.text location) where
  recalled h := fromMemory_expand (.tree hpath h)
  asks h := by
    rw [expand, absolute_of_some hpath, pure_bind]
    exact ⟨_, (asksFor_expandTree h).bind fun _ => Work.grows_pure _⟩
  left h hsettles := by
    cases hasRoot_of_expand h hsettles with
    | @tree _ other listing hother hlisting =>
      rw [hpath] at hother
      cases hother
      exact ⟨listing, hlisting, rfl⟩
  adds := by
    rw [expand, absolute_of_some hpath, pure_bind]
    exact (vantage.adds_expandTree location).bind fun _ => Work.adds_pure _

/-- A member has one key: under another key an answer could be held, and the path would be asked for
    all the same. -/
theorem MemberKey.unique {other : String} (h : vantage.MemberKey path key)
    (hother : vantage.MemberKey path other) : key = other := by
  by_contra hne
  let observation : Observation := ⟨other, ⟨[], false⟩, true, .missing⟩
  let ledger : Ledger := ⟨Cache.empty.putPath observation, .empty, []⟩
  have hheld : ledger.cache.HasMember other (.member observation) :=
    .single (by rw [Cache.path?_putPath, if_pos rfl])
      (by simp [Observation.kind, Content.kind, observation])
  have hfree : ledger.cache.path? key = none := by
    rw [Cache.path?_putPath, if_neg hne, Cache.path?_empty]
  exact (h.asks hfree).not_fromMemory _ (hother.recalled hheld)

theorem TreeKey.unique {other : String} (h : vantage.TreeKey path key)
    (hother : vantage.TreeKey path other) : key = other := by
  by_contra hne
  let ledger : Ledger := ⟨Cache.empty.putListing ⟨other, []⟩, .empty, []⟩
  have hheld : ledger.cache.listing? other = some ⟨other, []⟩ := by
    rw [Cache.listing?_putListing, if_pos rfl]
  have hfree : ledger.cache.listing? key = none := by
    rw [Cache.listing?_putListing, if_neg hne, Cache.listing?_empty]
  exact (h.asks hfree).not_fromMemory _ (hother.recalled hheld)

end Vantage

open Relation (EqvGen ReflTransGen)

/-- **Paths are kept under one key exactly when they spell one location**, as long as the current
    directory is text or both paths start at the same place.  Where they spell one location, what
    the walk of one of them found is the answer to the other, whatever calls there are in
    between. -/
theorem one_key_per_location {current : List Name} (hcurrent : ∀ name ∈ current, name.Plain)
    {path other : Bytes} (hne : path ≠ []) (hne' : other ≠ []) (hpath : Utf8.IsText path)
    (hother : Utf8.IsText other) :
    (∀ vantage : Vantage, vantage.current = current → ∀ key,
      (vantage.MemberKey path key ↔ key = Path.text (Path.located current path)) ∧
      (vantage.TreeKey path key ↔ key = Path.text (Path.located current path)) ∧
      (vantage.MemberKey other key ↔ key = Path.text (Path.located current other)) ∧
      (vantage.TreeKey other key ↔ key = Path.text (Path.located current other))) ∧
    (Path.text (Path.located current path) = Path.text (Path.located current other) ↔
      (Path.located current path).map Utf8.decode = (Path.located current other).map Utf8.decode) ∧
    ((∀ name ∈ current, Utf8.IsText name) ∨ Path.isAbsolute path = Path.isAbsolute other →
      (Path.text (Path.located current path) = Path.text (Path.located current other) ↔
        Path.located current path = Path.located current other)) ∧
    (Path.located current path = Path.located current other ↔
      EqvGen (Path.Respelled current) path other) ∧
    Path.IsNormal (Path.render (Path.located current path)) ∧
    (Path.located current path = Path.located current other →
      ∀ vantage later : Vantage, vantage.current = current → later.current = current →
      ∀ ledger after again expansion,
        (vantage.expandMember path).on ledger = (.ok expansion, after) →
        ReflTransGen Cache.Called after.cache again.cache →
        ∃ pool, (later.expandMember other).on again = (.ok expansion, { again with pool })) := by
  have hmember (vantage : Vantage) (h : vantage.current = current) {way : Bytes} (hway : way ≠ []) :
      vantage.MemberKey way (Path.text (Path.located current way)) :=
    Vantage.memberKey_text (by rw [h, Path.absolute_eq_located hway])
  have htree (vantage : Vantage) (h : vantage.current = current) {way : Bytes} (hway : way ≠ []) :
      vantage.TreeKey way (Path.text (Path.located current way)) :=
    Vantage.treeKey_text (by rw [h, Path.absolute_eq_located hway])
  refine ⟨?_,
    Path.text_eq_iff (Path.plain_located hcurrent hne) (Path.plain_located hcurrent hne'),
    Path.text_located_eq_iff hcurrent hne hne' hpath hother, ?_,
    Path.isNormal_render (Path.plain_located hcurrent hne), ?_⟩
  · intro vantage h key
    have hmembers {way : Bytes} (hway : way ≠ []) :
        vantage.MemberKey way key ↔ key = Path.text (Path.located current way) :=
      ⟨fun hkey => hkey.unique (hmember vantage h hway), fun hkey => hkey ▸ hmember vantage h hway⟩
    have htrees {way : Bytes} (hway : way ≠ []) :
        vantage.TreeKey way key ↔ key = Path.text (Path.located current way) :=
      ⟨fun hkey => hkey.unique (htree vantage h hway), fun hkey => hkey ▸ htree vantage h hway⟩
    exact ⟨hmembers hne, htrees hne, hmembers hne', htrees hne'⟩
  · rw [← Path.absolute_eq_iff hcurrent hne hne', Path.absolute_eq_located hne,
      Path.absolute_eq_located hne', Option.some.injEq]
  · -- the first walk left its answer under the key of both, and calls only add to the cache
    intro hsame vantage later h h' ledger after again expansion hrun hcalls
    have hheld := (hmember vantage h hne).left hrun
    rw [hsame] at hheld
    exact (hmember later h' hne').recalled
      (hheld.mono trivial (Cache.extends_of_calls hcalls).retains) again rfl

/-- The view from inside the directory that is named by the byte `FE`. -/
def unshownInside : Vantage := ⟨unshownDisk, [[0xFE]], .ofDisk unshownDisk⟩

/-- In a current directory that is no text, a relative path and an absolute one that spell different
    locations are kept under one key. -/
theorem one_key_of_lookalikes :
    Utf8.IsText (Utf8.encode "x") ∧ Utf8.IsText (Utf8.encode "/\uFFFD/x") ∧
    unshownInside.MemberKey (Utf8.encode "x") "/\uFFFD/x" ∧
    unshownInside.MemberKey (Utf8.encode "/\uFFFD/x") "/\uFFFD/x" ∧
    unshownInside.TreeKey (Utf8.encode "x") "/\uFFFD/x" ∧
    unshownInside.TreeKey (Utf8.encode "/\uFFFD/x") "/\uFFFD/x" ∧
    Path.located unshownInside.current (Utf8.encode "x")
      ≠ Path.located unshownInside.current (Utf8.encode "/\uFFFD/x") := by
  have hinside : Path.absolute unshownInside.current (Utf8.encode "x") = some [[0xFE], [0x78]] := by
    decide
  have hbeside : Path.absolute unshownInside.current (Utf8.encode "/\uFFFD/x")
      = some [[0xEF, 0xBF, 0xBD], [0x78]] := by decide
  exact ⟨⟨"x", rfl⟩, ⟨"/\uFFFD/x", rfl⟩, Vantage.memberKey_text hinside,
    Vantage.memberKey_text hbeside, Vantage.treeKey_text hinside, Vantage.treeKey_text hbeside,
    by decide⟩

/-- The walk of the directory `x` in it. -/
def unshownWalk : Except Failure Expansion × Ledger :=
  (unshownInside.expandMember (Utf8.encode "x")).on ⟨.empty, .empty, []⟩

/-- The same place later on, when nothing is answered any more. -/
def muteInside : Vantage := ⟨.empty, [[0xFE]], muteVantage.observer⟩

theorem one_key_per_location_unshown :
    unshownInside.MemberKey (Utf8.encode "x") "/\uFFFD/x" ∧
    unshownInside.TreeKey (Utf8.encode ".//x/") "/\uFFFD/x" ∧
    Relation.EqvGen (Path.Respelled [[0xFE]]) (Utf8.encode "x") (Utf8.encode ".//x/") ∧
    Path.text (Path.located [[0xFE]] (Utf8.encode "x"))
      = Path.text (Path.located [[0xFE]] (Utf8.encode ".//x/")) ∧
    ∃ pool, (muteInside.expandMember (Utf8.encode ".//x/")).on unshownWalk.2
      = (.ok (.directory ⟨"/\uFFFD/x", .ofName false "x", true, .directory⟩ []),
        { unshownWalk.2 with pool }) := by
  have hplain : ∀ name ∈ ([[0xFE]] : List Name), name.Plain := by
    intro name hname
    rw [List.mem_singleton.1 hname]
    exact ⟨by decide, by decide, by decide⟩
  obtain ⟨hkeys, -, hinjective, hspelled, -, hrecalled⟩ := one_key_per_location hplain
    (by decide) (by decide) ⟨"x", rfl⟩ ⟨".//x/", rfl⟩
  have hsame : Path.located [[0xFE]] (Utf8.encode "x")
      = Path.located [[0xFE]] (Utf8.encode ".//x/") := by decide
  have hwalk : (unshownInside.expandMember (Utf8.encode "x")).on ⟨.empty, .empty, []⟩
      = (.ok (.directory ⟨"/\uFFFD/x", .ofName false "x", true, .directory⟩ []), unshownWalk.2) :=
    rfl
  obtain ⟨hmember, -, -, htree⟩ := hkeys unshownInside rfl "/\uFFFD/x"
  exact ⟨hmember.2 (by decide), htree.2 (by decide), hspelled.1 hsame,
    (hinjective (.inr (by decide))).2 hsame,
    hrecalled hsame unshownInside muteInside rfl rfl _ _ _ _ hwalk .refl⟩

end Treeprint
