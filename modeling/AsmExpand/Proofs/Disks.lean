import AsmExpand.Run.Disk

/-!
# What making a file leaves alone

A file is made at a site: a place in a folder where there is no folder (`Disk.IsSite`). Putting
a file there changes what is at this place and at no other (`find?_put_of_ne`): the folders on
the way to it were there before, so the nodes that are only implied by others do not change
either.

The disk has the same folders before and after, and a walk depends on the folders only. So a
path that led somewhere leads there still (`SameFolders.resolve`), and the next file at the
same path is made at the same site (`SameFolders.target`). The faults of a walk can change,
since there may now be a file where nothing was.
-/

namespace AsmExpand.Disk

variable {d d' : Disk} {place other : Place} {node : Node}

/-! ## What is at a place -/

/-- Whether the working folder or a node lies at a place or below it. -/
def Above (d : Disk) (place : Place) : Prop :=
  place <+: d.working ∨ ∃ n ∈ d.nodes, place <+: n.1

instance (d : Disk) (place : Place) : Decidable (d.Above place) :=
  inferInstanceAs (Decidable (_ ∨ _))

theorem find?_eq (d : Disk) (place : Place) :
    d.find? place = match d.nodes.lookup place with
      | some node => some node
      | none => if d.Above place then some .folder else none := by
  unfold find?
  cases d.nodes.lookup place with
  | some node => rfl
  | none => exact ite_congr (propext (by simp [Above])) (fun _ => rfl) fun _ => rfl

/-- A folder is above itself and so are the folders it lies in. -/
theorem above_of_folder (h : d.find? place = some .folder) (hp : other <+: place) :
    d.Above other := by
  rw [find?_eq] at h
  split at h
  · rename_i node hl
    obtain ⟨front, back, hnodes, _⟩ := List.lookup_eq_some_iff.mp hl
    exact Or.inr ⟨(place, node), by simp [hnodes], hp⟩
  · split at h
    · rename_i ha
      exact ha.imp hp.trans fun ⟨n, hn, hpn⟩ => ⟨n, hn, hp.trans hpn⟩
    · cases h

/-! ## Putting a file -/

theorem find?_put_self (d : Disk) (place : Place) (node : Node) :
    (d.put place node).find? place = some node := by
  rw [find?_eq, put]
  simp

theorem lookup_put_of_ne (h : other ≠ place) :
    (d.put place node).nodes.lookup other = d.nodes.lookup other := by
  have hfilter : ∀ nodes : List (Place × Node),
      (nodes.filter (·.1 ≠ place)).lookup other = nodes.lookup other := by
    intro nodes
    induction nodes with
    | nil => rfl
    | cons n nodes ih =>
      by_cases hn : n.1 = place
      · have hne : (other == n.1) = false := by simpa [hn] using h
        rw [List.filter_cons_of_neg (by simp [hn]), ih, List.lookup_cons, hne]
      · rw [List.filter_cons_of_pos (by simp [hn]), List.lookup_cons, List.lookup_cons, ih]
  have hne : (other == place) = false := by simpa using h
  rw [put, List.lookup_cons, hne]
  exact hfilter d.nodes

theorem above_put : (d.put place node).Above other ↔ d.Above other ∨ other <+: place := by
  simp only [Above, put, List.mem_cons, List.mem_filter]
  constructor
  · rintro (h | ⟨n, rfl | ⟨hn, _⟩, h⟩)
    · exact Or.inl (Or.inl h)
    · exact Or.inr h
    · exact Or.inl (Or.inr ⟨n, hn, h⟩)
  · rintro ((h | ⟨n, hn, h⟩) | h)
    · exact Or.inl h
    · by_cases hp : n.1 = place
      · exact Or.inr ⟨(place, node), Or.inl rfl, hp ▸ h⟩
      · exact Or.inr ⟨n, Or.inr ⟨hn, by simpa using hp⟩, h⟩
    · exact Or.inr ⟨(place, node), Or.inl rfl, h⟩

/-- A place where a file can be made: it is in a folder, and is none itself. -/
structure IsSite (d : Disk) (place : Place) : Prop where
  inFolder : ∃ folder name, place = folder ++ [name] ∧ d.find? folder = some .folder
  noFolder : d.find? place ≠ some .folder

/-- **Putting a file at a site changes nothing elsewhere.** -/
theorem IsSite.find?_put_of_ne (h : d.IsSite place) (node : Node) (hne : other ≠ place) :
    (d.put place node).find? other = d.find? other := by
  have habove : (d.put place node).Above other ↔ d.Above other := by
    rw [above_put]
    refine ⟨fun h' => h'.elim id fun hp => ?_, Or.inl⟩
    obtain ⟨folder, name, rfl, hfolder⟩ := h.inFolder
    exact above_of_folder hfolder ((List.prefix_concat_iff.mp hp).resolve_left hne)
  rw [find?_eq, find?_eq, lookup_put_of_ne hne]
  simp only [habove]

/-! ## Walks -/

theorem bind_eq_ok_iff {ε α β : Type} {x : Except ε α} {f : α → Except ε β} {b : β} :
    (x >>= f) = .ok b ↔ ∃ a, x = .ok a ∧ f a = .ok b := by
  cases x with
  | error e => exact ⟨nofun, nofun⟩
  | ok a => exact ⟨fun h => ⟨a, rfl, h⟩, fun ⟨_, rfl, h⟩ => h⟩

/-- The same places are folders, and paths start at the same ones. -/
structure SameFolders (d d' : Disk) : Prop where
  working : d'.working = d.working
  folder : ∀ place, d'.find? place = some .folder ↔ d.find? place = some .folder

theorem IsSite.sameFolders (h : d.IsSite place) (content : List Byte) :
    SameFolders d (d.put place (.file content)) := by
  refine ⟨rfl, fun other => ?_⟩
  by_cases hp : other = place
  · rw [hp, find?_put_self]
    exact ⟨nofun, fun hf => absurd hf h.noFolder⟩
  · rw [h.find?_put_of_ne _ hp]

theorem requireFolder_eq_ok_iff :
    d.requireFolder place = .ok () ↔ d.find? place = some .folder := by
  rw [requireFolder]
  split <;> simp_all

/-- What a step of a walk asks for. -/
theorem follow_eq_ok_iff {name : String} :
    d.follow place name = .ok other ↔
      d.find? place = some .folder ∧ name.utf8ByteSize ≤ longestName ∧ step place name = other := by
  rw [← requireFolder_eq_ok_iff]
  unfold follow
  rw [bind_eq_ok_iff]
  constructor
  · rintro ⟨⟨⟩, hfolder, h⟩
    split at h
    · cases h
    · rename_i hn
      exact ⟨hfolder, Nat.not_lt.mp hn, Except.ok.inj h⟩
  · rintro ⟨hfolder, hn, rfl⟩
    refine ⟨(), hfolder, ?_⟩
    rw [if_neg (Nat.not_lt.mpr hn)]
    rfl

/-- What a file at a path asks for. -/
theorem target_eq_ok_iff {path : String} :
    let steps := (names path).filter (· ≠ "")
    d.target path = .ok place ↔
      requirePath path = .ok () ∧ ∃ folder name,
        steps.dropLast.foldlM d.follow (d.start path) = .ok folder ∧ steps.getLast? = some name ∧
        ¬(path.toList.getLast? = some '/' ∨ name = "." ∨ name = "..") ∧
        d.follow folder name = .ok place ∧ d.find? place ≠ some .folder := by
  intro steps
  simp only [target, bind_eq_ok_iff]
  constructor
  · rintro ⟨⟨⟩, hpath, folder, hwalk, ⟨⟩, _, h⟩
    split at h
    · cases h
    · rename_i name hlast
      split at h
      · cases h
      · rename_i hname
        obtain ⟨place', hplace, h⟩ := bind_eq_ok_iff.mp h
        split at h
        · cases h
        · rename_i hf
          obtain rfl := Except.ok.inj h
          exact ⟨hpath, folder, name, hwalk, hlast, hname, hplace, hf⟩
  · rintro ⟨hpath, folder, name, hwalk, hlast, hname, hplace, hf⟩
    have hfolder := requireFolder_eq_ok_iff.mpr (follow_eq_ok_iff.mp hplace).1
    refine ⟨(), hpath, folder, hwalk, (), hfolder, ?_⟩
    rw [hlast]
    dsimp only
    rw [if_neg hname, hplace]
    exact if_neg hf

/-- **A file is made at a site.** -/
theorem isSite_of_target {path : String} (h : d.target path = .ok place) : d.IsSite place := by
  obtain ⟨_, folder, name, _, hlast, hname, hplace, hf⟩ := target_eq_ok_iff.mp h
  obtain ⟨hfolder, _, rfl⟩ := follow_eq_ok_iff.mp hplace
  have hne : name ≠ "" := by
    have hmem := List.mem_of_getLast? hlast
    simpa using (List.mem_filter.mp hmem).2
  obtain ⟨_, hdot, hup⟩ := by simpa only [not_or] using hname
  refine ⟨⟨folder, name, ?_, hfolder⟩, hf⟩
  rw [step, if_neg (by simp [hne, hdot]), if_neg hup]

namespace SameFolders

variable {path : String}

theorem follow (h : SameFolders d d') {name : String} :
    d'.follow place name = .ok other ↔ d.follow place name = .ok other := by
  rw [follow_eq_ok_iff, follow_eq_ok_iff, h.folder]

theorem walk (h : SameFolders d d') {steps : List String} :
    steps.foldlM d'.follow place = .ok other ↔ steps.foldlM d.follow place = .ok other := by
  induction steps generalizing place with
  | nil => rfl
  | cons name steps ih =>
    rw [List.foldlM_cons, List.foldlM_cons, bind_eq_ok_iff, bind_eq_ok_iff]
    simp only [h.follow, ih]

theorem start (h : SameFolders d d') : d'.start path = d.start path := by
  rw [Disk.start, Disk.start, h.working]

/-- **A path that leads somewhere leads to the same place.** -/
theorem resolve (h : SameFolders d d') :
    d'.resolve path = .ok place ↔ d.resolve path = .ok place := by
  rw [Disk.resolve, Disk.resolve, bind_eq_ok_iff, bind_eq_ok_iff, h.start]
  simp only [h.walk]

/-- A file at a path is made at the same place. -/
theorem target (h : SameFolders d d') : d'.target path = .ok place ↔ d.target path = .ok place := by
  simp only [target_eq_ok_iff, h.start, h.walk, h.follow, ne_eq, h.folder]

end SameFolders

/-! ## Files -/

section

variable {path : String}

theorem read_eq_ok_iff {bytes : List Byte} :
    d.read path = .ok bytes ↔
      ∃ place, d.resolve path = .ok place ∧ d.find? place = some (.file bytes) := by
  rw [read]
  split
  · rename_i hr
    simp [hr]
  · rename_i hr
    rw [hr]
    split <;> simp_all

/-- **A file elsewhere is read as before**, and no other. -/
theorem IsSite.read_put_of_ne (h : d.IsSite place) (content : List Byte)
    (hne : d.resolve path ≠ .ok place) {bytes : List Byte} :
    (d.put place (.file content)).read path = .ok bytes ↔ d.read path = .ok bytes := by
  rw [read_eq_ok_iff, read_eq_ok_iff]
  simp only [(h.sameFolders content).resolve]
  refine exists_congr fun other => and_congr_right fun hr => ?_
  rw [h.find?_put_of_ne _ fun he => hne (he ▸ hr)]

theorem IsSite.read_put_self (h : d.IsSite place) (content : List Byte)
    (hr : d.resolve path = .ok place) :
    (d.put place (.file content)).read path = .ok content :=
  read_eq_ok_iff.mpr ⟨place, (h.sameFolders content).resolve.mpr hr, find?_put_self ..⟩

theorem put_put (d : Disk) (place : Place) (node node' : Node) :
    (d.put place node).put place node' = d.put place node' := by
  simp [put]

/-- Writing at the end of a file just made is writing behind what was put there. -/
theorem append_put {out : String} (h : d.target out = .ok place) (content : List Byte)
    (text : String) :
    (d.put place (.file content)).append out text
      = .ok (d.put place (.file (content ++ Utf8.bytes text))) := by
  have htarget := ((isSite_of_target h).sameFolders content).target.mpr h
  rw [append, htarget, Except.map, find?_put_self]
  dsimp only
  rw [put_put]

end

end AsmExpand.Disk
