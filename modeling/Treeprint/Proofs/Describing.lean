import Treeprint.Proofs.Reporting

/-!
# How an object is described on each route

An object that is neither a file nor a directory ends a walk, and the failure describes it.  A
member is asked about by its path, and links are followed: the description is that of what the path
leads to.  Below a directory the same object is met as an entry of its directory, and there the
entry itself is described: one that is a link is described as a link, whatever it leads to.

The main statement is `object_described_alike_iff`: **where the object is the first that cannot be
observed, the walk of the directory fails as the walk of the member does exactly when the entry is
no link**.
-/

namespace Treeprint

/-! ### Following never ends at a link -/

namespace Disk

variable {root : Forest}

theorem followWith_ne_link {expand : List Name → List Name → Except Trouble Place}
    (hexpand : ∀ location steps reached target,
      expand location steps ≠ .ok (.leaf reached (.link target)))
    (location steps reached : List Name) (target : Bytes) :
    followWith root expand location steps ≠ .ok (.leaf reached (.link target)) := by
  induction steps generalizing location with
  | nil =>
    rw [followWith]
    cases root.directory? location <;> rintro ⟨⟩
  | cons step rest ih =>
    rw [followWith]
    split
    · exact ih location
    split
    · exact ih location.dropLast
    split
    · rintro ⟨⟩
    rcases root.descend? (location ++ [step]) with _ | (value | inside)
    · simp only
      split <;> rintro ⟨⟩
    · cases value with
      | link other =>
        simp only
        split
        · rintro ⟨⟩
        · exact hexpand _ _ reached target
      | _ =>
        simp only
        split <;> rintro ⟨⟩
    · exact ih (location ++ [step])

theorem followUpTo_ne_link (links : Nat) (location steps reached : List Name) (target : Bytes) :
    followUpTo root links location steps ≠ .ok (.leaf reached (.link target)) := by
  induction links generalizing location steps reached target with
  | zero =>
    refine followWith_ne_link ?_ location steps reached target
    rintro _ _ _ _ ⟨⟩
  | succ links ih => exact followWith_ne_link ih location steps reached target

theorem follow_ne_link (disk : Disk) (location steps reached : List Name) (target : Bytes) :
    disk.follow location steps ≠ .ok (.leaf reached (.link target)) := by
  rw [follow]
  split
  · rintro ⟨⟩
  · exact followUpTo_ne_link linkLimit location steps reached target

variable {disk : Disk} {top way location : List Name} {value : Leaf}

/-! ### What a walk says of an object -/

/-- The path leads to an object that is neither a file nor a directory. -/
def LeadsToObject (disk : Disk) (location : List Name) (value : Leaf) : Prop :=
  (∃ reached, disk.follow [] location = .ok (.leaf reached value)) ∧
    ∀ data modified, value ≠ .file data modified

/-- What a walk below a directory tells of an object. -/
theorem Blocks.of_object (h : disk.LeadsToObject (top ++ way) value) :
    (disk.IsLink top way → disk.Blocks top (.unrecognized way "symlink")) ∧
      (¬ disk.IsLink top way → disk.Blocks top (.unrecognized way value.description)) := by
  obtain ⟨⟨reached, hfollow⟩, hvalue⟩ := h
  exact ⟨fun hlink => .linked hlink hfollow hvalue, fun hlink => .entry hlink hfollow hvalue⟩

/-- What an object is described as is never a link. -/
theorem LeadsToObject.description_ne (h : disk.LeadsToObject location value) :
    value.description ≠ "symlink" := by
  obtain ⟨⟨reached, hfollow⟩, hvalue⟩ := h
  cases value with
  | file data modified => exact absurd rfl (hvalue data modified)
  | link target => exact absurd hfollow (disk.follow_ne_link [] location reached target)
  | fifo | socket => decide
  | device sort data => cases sort <;> simp [Leaf.description]

/-- What the local observer calls unrecognized is an object. -/
theorem exists_object_of_stat (hplain : ∀ name ∈ location, name.Plain) {metadata : Metadata}
    {type : String} (hstat : disk.stat [] (Path.render location) = .ok metadata)
    (htype : metadata.type = .unrecognized type) :
    ∃ value, disk.LeadsToObject location value ∧ value.description = type := by
  rw [stat, resolve_render hplain] at hstat
  rcases hfollow : disk.follow [] location with trouble | ⟨_, _⟩ | ⟨reached, value⟩ | _
  · rw [hfollow] at hstat
    cases trouble <;> cases hstat
    cases htype
  · rw [hfollow] at hstat
    cases hstat
    cases htype
  · rw [hfollow] at hstat
    cases hstat
    cases value with
    | file data modified => cases htype
    | _ =>
      cases htype
      exact ⟨_, ⟨⟨reached, hfollow⟩, by rintro _ _ ⟨⟩⟩, rfl⟩
  · rw [hfollow] at hstat
    cases hstat
    cases htype

end Disk

namespace Vantage

variable {vantage : Vantage} {location : List Name} {ledger : Ledger}

/-- A member that is asked for and turns out to be unrecognized is reported as it is described. -/
theorem expand_unrecognized_member {path : Bytes}
    (hpath : Path.absolute vantage.current path = some location)
    (hfree : ledger.cache.path? (Path.text location) = none) {metadata : Metadata} {type : String}
    (hstat : vantage.observer.stat ledger.asked.length (Path.render location) = .ok metadata)
    (htype : metadata.type = .unrecognized type) :
    ((vantage.expand (.members [path])).on ledger).1
      = .error (.unrecognized (Path.render location) type) := by
  have hasked (pool : TextPool) : (vantage.stat location).on { ledger with pool }
      = (.ok metadata, ⟨ledger.cache, pool, ledger.asked ++ [.stat (Path.render location)]⟩) := by
    rw [on_stat]
    simp only [hstat]
  have hprobe (pool : TextPool) :
      ((vantage.probe location (Path.text location)).on { ledger with pool })
        = (.error (.unrecognized (Path.render location) type),
          ⟨ledger.cache, pool, ledger.asked ++ [.stat (Path.render location)]⟩) := by
    rw [probe, Work.on_bind_ok (hasked pool), htype]
    rfl
  have hone : vantage.expand (.members [path]) = vantage.expandMember path >>= fun expansion =>
    pure [expansion] := rfl
  have hmember (pool : TextPool) :
      ((vantage.member location (Path.text location)).on { ledger with pool })
        = (.error (.unrecognized (Path.render location) type),
          ⟨ledger.cache, pool, ledger.asked ++ [.stat (Path.render location)]⟩) := by
    rw [on_member_of_none (by exact hfree), hprobe]
  rw [hone, Work.error_bind_pure_iff, expandMember, absolute_of_some hpath, pure_bind,
    Work.on_bind_ok (Work.on_intern _ _), Work.on_bind_error (hmember _)]

/-- An object that is the first thing below a directory that cannot be observed is reported as it
    is described there: what is said of a way is determined by the way. -/
theorem expand_unrecognized_below {disk : Disk} {current : List Name}
    (hcurrent : ∀ name ∈ current, name.Plain)
    {hash : Nat → Bytes → Metadata → Except IoKind HashCode} {directory : Bytes}
    {top way : List Name} {inside : Forest}
    (htop : Path.absolute current directory = some top)
    (hdirectory : disk.follow [] top = .ok (.directory location inside))
    (hfree : ledger.cache.path? (Path.text top) = none)
    (hfree' : ledger.cache.listing? (Path.text top) = none) {root : Root}
    (hroot : root.IsUnfiltered directory) {failure : Failure}
    (hfirst : (hashing disk current hash).FirstMissed top (ledger.asked.length + 1) way failure)
    {description : String} (hblocks : disk.Blocks top (.unrecognized way description)) :
    (((hashing disk current hash).expand root).on ledger).1
      = .error (.unrecognized (Path.render (top ++ way)) description) := by
  have hmissed : (hashing disk current hash).Misses top (ledger.asked.length + 1) way
      ((Obstacle.unrecognized way description).failure top) := .blocked rfl hblocks
  have hfailure : failure = .unrecognized (Path.render (top ++ way)) description :=
    hmissed.unique hfirst.misses
  have hstat : (hashing disk current hash).observer.stat ledger.asked.length (Path.render top)
      = .ok .directory := by
    show disk.stat [] (Path.render top) = .ok .directory
    rw [Disk.stat, Disk.resolve_render (Path.plain_absolute hcurrent htop), hdirectory]
  have hthere : (hashing disk current hash).disk.follow [] top
      = .ok (.directory location inside) := hdirectory
  obtain ⟨-, hreports⟩ := scan_error_iff hthere
    { ledger with asked := ledger.asked ++ [.stat (Path.render top)] }
  rw [List.length_append, List.length_singleton] at hreports
  rw [expand_error_iff_scan hstat htop hfree hfree' hroot, hreports, ← hfailure]
  exact ⟨way, hfirst⟩

end Vantage

/-- **An object is described alike on both routes exactly when its entry is no link.**  Where it is
    the first that cannot be observed, the walk of the member fails with what the observer calls it,
    and the walk of the directory calls an entry that is a link a link. -/
theorem object_described_alike_iff {disk : Disk} {current : List Name}
    (hcurrent : ∀ name ∈ current, name.Plain)
    {hash : Nat → Bytes → Metadata → Except IoKind HashCode} {directory path : Bytes}
    {top way location : List Name} {inside : Forest}
    (htop : Path.absolute current directory = some top)
    (hdirectory : disk.follow [] top = .ok (.directory location inside))
    (hpath : Path.absolute current path = some (top ++ way)) {metadata : Metadata} {type : String}
    (hstat : disk.stat [] (Path.render (top ++ way)) = .ok metadata)
    (htype : metadata.type = .unrecognized type) {ledger ledger' : Ledger}
    (hfree : ledger.cache.path? (Path.text top) = none)
    (hfree' : ledger.cache.listing? (Path.text top) = none)
    (hfree'' : ledger'.cache.path? (Path.text (top ++ way)) = none) {root : Root}
    (hroot : root.IsUnfiltered directory) {failure : Failure}
    (hfirst : (Vantage.hashing disk current hash).FirstMissed top (ledger.asked.length + 1) way
      failure) :
    let vantage := Vantage.hashing disk current hash
    ((vantage.expand (.members [path])).on ledger').1
        = .error (.unrecognized (Path.render (top ++ way)) type) ∧
      (disk.IsLink top way → ((vantage.expand root).on ledger).1
        = .error (.unrecognized (Path.render (top ++ way)) "symlink")) ∧
      (((vantage.expand root).on ledger).1 = ((vantage.expand (.members [path])).on ledger').1
        ↔ ¬ disk.IsLink top way) := by
  intro vantage
  have hplain := Path.plain_absolute hcurrent hpath
  obtain ⟨value, hobject, rfl⟩ := Disk.exists_object_of_stat hplain hstat htype
  obtain ⟨hlinked, hentry⟩ := Disk.Blocks.of_object hobject
  have hmember : ((vantage.expand (.members [path])).on ledger').1
      = .error (.unrecognized (Path.render (top ++ way)) value.description) :=
    Vantage.expand_unrecognized_member hpath hfree'' hstat htype
  have hwalk {description : String} (hblocks : disk.Blocks top (.unrecognized way description)) :
      ((vantage.expand root).on ledger).1
        = .error (.unrecognized (Path.render (top ++ way)) description) :=
    Vantage.expand_unrecognized_below hcurrent htop hdirectory hfree hfree' hroot hfirst hblocks
  refine ⟨hmember, fun hlink => hwalk (hlinked hlink), ?_⟩
  rw [hmember]
  constructor
  · intro hsame hlink
    rw [hwalk (hlinked hlink)] at hsame
    exact hobject.description_ne (Failure.unrecognized.inj (Except.error.inj hsame)).2.symm
  · intro hlink
    exact hwalk (hentry hlink)

/-! ### One entry alone -/

/-- Nothing comes before the only entry of a directory. -/
theorem Vantage.firstMissed_of_only {vantage : Vantage} {top location : List Name}
    {inside : Forest} {name : Name} {start : Nat} {failure : Failure}
    (hdirectory : vantage.disk.follow [] top = .ok (.directory location inside))
    (honly : inside.names = [name]) (hmisses : vantage.Misses top start [name] failure) :
    vantage.FirstMissed top start [name] failure where
  below := by
    have htop : vantage.disk.follow [] (top ++ []) = .ok (.directory location inside) := by
      rw [List.append_nil, hdirectory]
    exact ⟨.entry .top htop (by simp [honly]), by simp⟩
  misses := hmisses
  first other hother hne hlt := by
    obtain ⟨next, hnext⟩ := (Disk.prefix_cases (List.nil_prefix (l := other))).resolve_left hne
    obtain ⟨location', inside', hfollow, hmem⟩ := hother.directory_of_prefix hnext
    rw [List.append_nil, hdirectory] at hfollow
    cases hfollow
    rw [honly, List.mem_singleton] at hmem
    subst hmem
    have hbehind : ¬ other < [next] := not_lt_of_prefix hnext
    exact absurd hlt hbehind

/-- `/d` holds a link to the fifo `/p`, and `/e` holds a fifo itself. -/
def pipedDisk : Disk where
  root := .directory [0x64] (.leaf [0x6C] (.link [0x2F, 0x70]) .nil)
    (.directory [0x65] (.leaf [0x71] .fifo .nil) (.leaf [0x70] .fifo .nil))
  wellFormed := by decide

def pipedVantage : Vantage := .hashing pipedDisk [] fun _ path _ => pipedDisk.hash [] path

/-- The fifo in `/e` is described alike on both routes. -/
theorem object_described_alike_iff_piped :
    ((pipedVantage.expand (.tree (Utf8.encode "/e"))).on ⟨.empty, .empty, []⟩).1
        = ((pipedVantage.expand (.members [Utf8.encode "/e/q"])).on ⟨.empty, .empty, []⟩).1 ∧
      ((pipedVantage.expand (.members [Utf8.encode "/e/q"])).on ⟨.empty, .empty, []⟩).1
        = .error (.unrecognized (Path.render ([[0x65]] ++ [[0x71]])) "fifo") := by
  have hdirectory : pipedDisk.follow [] [[0x65]]
      = .ok (.directory [[0x65]] (.leaf [0x71] .fifo .nil)) := rfl
  have hfollow : pipedDisk.follow [] ([[0x65]] ++ [[0x71]])
      = .ok (.leaf [[0x65], [0x71]] .fifo) := rfl
  have hlink : ¬ pipedDisk.IsLink [[0x65]] ([] ++ [[0x71]]) := by
    rw [Disk.isLink_entry_iff (by rw [List.append_nil, hdirectory])]
    rintro ⟨target, htarget⟩
    cases htarget
  have hblocks : pipedDisk.Blocks [[0x65]] (.unrecognized [[0x71]] "fifo") :=
    .entry hlink hfollow (by rintro _ _ ⟨⟩)
  have hfirst : pipedVantage.FirstMissed [[0x65]] 1 [[0x71]]
      ((Obstacle.unrecognized [[0x71]] "fifo").failure [[0x65]]) :=
    Vantage.firstMissed_of_only hdirectory rfl (.blocked rfl hblocks)
  have hcurrent : ∀ name ∈ ([] : List Name), name.Plain := by simp
  have hpath : Path.absolute [] (Utf8.encode "/e/q") = some ([[0x65]] ++ [[0x71]]) := rfl
  have hstat : pipedDisk.stat [] (Path.render ([[0x65]] ++ [[0x71]]))
      = .ok (Leaf.metadata .fifo) := rfl
  have htop : Path.absolute [] (Utf8.encode "/e") = some [[0x65]] := rfl
  let ledger : Ledger := ⟨.empty, .empty, []⟩
  have hempty (key : String) : ledger.cache.path? key = none := rfl
  obtain ⟨hmember, -, halike⟩ := object_described_alike_iff hcurrent htop hdirectory hpath hstat
    rfl (hempty _) rfl (hempty _) (.inl rfl) hfirst
  exact ⟨halike.2 hlink, hmember⟩

/-- The link in `/d` is the only thing there, and what it leads to is described in two ways. -/
theorem linked_object_described_twice :
    pipedDisk.stat [] (Utf8.encode "/d/l") = .ok ⟨.unrecognized "fifo", 0, 0⟩ ∧
    pipedVantage.FirstMissed [[0x64]] 1 [[0x6C]] (.unrecognized (Utf8.encode "/d/l") "symlink") ∧
    ((pipedVantage.expand (.tree (Utf8.encode "/d"))).on ⟨.empty, .empty, []⟩).1
      = .error (.unrecognized (Utf8.encode "/d/l") "symlink") ∧
    ((pipedVantage.expand (.members [Utf8.encode "/d/l"])).on ⟨.empty, .empty, []⟩).1
      = .error (.unrecognized (Utf8.encode "/d/l") "fifo") := by
  have hdirectory : pipedDisk.follow [] ([[0x64]] ++ [])
      = .ok (.directory [[0x64]] (.leaf [0x6C] (.link [0x2F, 0x70]) .nil)) := rfl
  have hfollow : pipedDisk.follow [] ([[0x64]] ++ [[0x6C]]) = .ok (.leaf [[0x70]] .fifo) := rfl
  have hlink : pipedDisk.IsLink [[0x64]] [[0x6C]] :=
    (Disk.isLink_entry_iff hdirectory).2 ⟨[0x2F, 0x70], rfl⟩
  have hblocks : pipedDisk.Blocks [[0x64]] (.unrecognized [[0x6C]] "symlink") :=
    .linked hlink hfollow (by rintro _ _ ⟨⟩)
  have hmisses : pipedVantage.Misses [[0x64]] 1 [[0x6C]]
      ((Obstacle.unrecognized [[0x6C]] "symlink").failure [[0x64]]) := .blocked rfl hblocks
  exact ⟨rfl, Vantage.firstMissed_of_only hdirectory rfl hmisses, rfl, rfl⟩

end Treeprint
