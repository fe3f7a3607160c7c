import Treeprint.Proofs.Locality
import Treeprint.Proofs.Shown
import Treeprint.Proofs.Sightings

/-!
# From what is listed to observations

A scan observes what a survey lists.  What was seen in the survey is found again when its path is
followed once more, so **on the plain disk a scan fails exactly where its survey is blocked**
(`scan_eq`), and otherwise it gives one observation for each way.  An observation has lost the bytes
of its way: it has the names as they are shown.
-/

namespace Treeprint

/-! ### What is told of what was seen -/

def Sight.content : Sight → Content
  | .directory => .directory
  | .file data modified => .regularFile ⟨Sha256.digest data⟩ (milliseconds modified)

/-- The observation of something that was seen below `top`. -/
def Sighting.entry (top : List Name) (sighting : Sighting) : Observation where
  path := Path.text (top ++ sighting.names)
  relative := ⟨sighting.names.map Utf8.decode, sighting.sight ≠ .directory⟩
  isRoot := false
  content := sighting.sight.content

namespace Disk

variable {disk : Disk} {top : List Name}

theorem Way.valid {way : List Name} (h : disk.Way top way) : ∀ name ∈ way, name.Valid := by
  induction h with
  | top => simp
  | @entry names name location inside _ hfollow hname ih =>
    intro other hother
    rcases List.mem_append.1 hother with hother | hother
    · exact ih other hother
    · obtain ⟨left, -, hreaches⟩ := exists_reaches hfollow
      obtain ⟨node, hfind⟩ := Option.ne_none_iff_exists'.1
        fun hnone => (Forest.find?_eq_none_iff.1 hnone) hname
      rw [List.mem_singleton.1 hother]
      exact hreaches.valid hfind

theorem Way.plain {way : List Name} (h : disk.Way top way) (htop : ∀ name ∈ top, name.Plain) :
    ∀ name ∈ top ++ way, name.Plain := by
  intro name hname
  rcases List.mem_append.1 hname with hname | hname
  · exact htop name hname
  · exact (h.valid name hname).plain

theorem hash_of_follow {location reached : List Name} {data : Bytes} {modified : Int}
    (h : ∀ name ∈ location, name.Plain)
    (hfollow : disk.follow [] location = .ok (.leaf reached (.file data modified))) :
    disk.hash [] (Path.render location) = .ok ⟨Sha256.digest data⟩ := by
  rw [hash, read, resolve_render h, hfollow]
  rfl

theorem content_of_follow {location reached : List Name} {data : Bytes} {modified : Int}
    (h : ∀ name ∈ location, name.Plain)
    (hfollow : disk.follow [] location = .ok (.leaf reached (.file data modified))) :
    disk.content location (Leaf.metadata (.file data modified))
      = .ok (Sight.content (.file data modified)) := by
  rw [content, hash_of_follow h hfollow]
  rfl

theorem observe_of_sight {sighting : Sighting} (htop : ∀ name ∈ top, name.Plain)
    (hway : disk.Way top sighting.names) {place : Place}
    (hplace : disk.follow [] (top ++ sighting.names) = .ok place)
    (hsight : place.sight? = some sighting.sight) :
    disk.observe top sighting = .ok (sighting.entry top) := by
  obtain ⟨names, sight⟩ := sighting
  cases sight with
  | directory => rfl
  | file data modified =>
    have hleaf : ∃ reached, place = .leaf reached (.file data modified) := by
      cases place with
      | leaf reached value =>
        cases value with
        | file => cases hsight; exact ⟨reached, rfl⟩
        | _ => cases hsight
      | _ => cases hsight
    obtain ⟨reached, rfl⟩ := hleaf
    have hcontent : disk.content (top ++ names) (Leaf.metadata (.file data modified))
        = .ok (Sight.content (.file data modified)) := content_of_follow (hway.plain htop) hplace
    simp only [observe, hcontent]
    rfl

theorem observeAll_of_sights {sightings : List Sighting} (htop : ∀ name ∈ top, name.Plain)
    (h : ∀ sighting ∈ sightings, disk.Way top sighting.names ∧
      ∃ place, disk.follow [] (top ++ sighting.names) = .ok place ∧
        place.sight? = some sighting.sight) :
    disk.observeAll top sightings = .ok (sightings.map (Sighting.entry top)) := by
  induction sightings with
  | nil => rfl
  | cons sighting rest ih =>
    obtain ⟨hway, place, hplace, hsight⟩ := h sighting List.mem_cons_self
    rw [observeAll, observe_of_sight htop hway hplace hsight,
      ih fun other hother => h other (List.mem_cons_of_mem _ hother)]
    rfl

/-- **A scan fails where its survey is blocked, and gives one observation for each way that was seen
    otherwise**, with any filter. -/
theorem scan_eq {filter : Survey.Filter} (htop : ∀ name ∈ top, name.Plain) :
    disk.scan top filter = match (Survey.below disk top filter).obstacle with
      | some obstacle => .error (obstacle.failure top)
      | none => .ok ((Survey.below disk top filter).seen.map (Sighting.entry top)) := by
  have hseen : disk.observeAll top (Survey.below disk top filter).seen
      = .ok ((Survey.below disk top filter).seen.map (Sighting.entry top)) :=
    observeAll_of_sights htop (Survey.truthful_below disk top filter).seen
  rw [scan, hseen]
  rcases (Survey.below disk top filter).obstacle with _ | obstacle <;> rfl

end Disk

end Treeprint
