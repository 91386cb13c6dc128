import ProtoShape.FileSystem

/-!
# Writing a file

After a file has been written, its path leads to the text (`writeText_wrote`).  Directories may
have been made on the way, and nothing else has changed; the system denies what it denied before.

* `entry?_put` says what a file system holds after an entry has been put.
* `AddsDirectories` is what making directories does, also where it fails.  A path that could be
  followed before can be followed after it, to the same place (`place_of_directories`).
* The text is put where no directory stands.  So the path to it is not cut by the text itself.
* `Wrote.readText` says that the text is read again, where it may be read and no line of it ends
  with a carriage return.
-/

namespace ProtoShape.FileSystem

variable {fs after : FileSystem} {place : List String} {entry : FileEntry}

/-! ## Entries -/

theorem lookup_replace (entries : List (List String × FileEntry)) (place : List String)
    (entry : FileEntry) (other : List String) :
    (entries.map fun (key, old) => if key = place then (key, entry) else (key, old)).lookup other =
      if other = place then (entries.lookup other).map fun _ =>
        entry else entries.lookup other := by
  induction entries with
  | nil => simp
  | cons head rest ih =>
      obtain ⟨key, old⟩ := head
      rw [List.map_cons, List.lookup_cons, List.lookup_cons]
      by_cases hkey : other = key
      · subst hkey
        by_cases hplace : other = place <;> simp [hplace]
      · have hne : (other == key) = false := by simpa using hkey
        have hne' : (other == (if key = place then (key, entry) else (key, old)).1) = false := by
          split <;> exact hne
        simp only [hne, hne']
        exact ih

theorem lookup_put (fs : FileSystem) (place : List String) (entry : FileEntry)
    (other : List String) :
    (fs.put place entry).entries.lookup other =
      if other = place then some entry else fs.entries.lookup other := by
  unfold put
  simp only
  split
  · rename_i hthere
    rw [lookup_replace]
    split
    · rename_i hplace
      subst hplace
      obtain ⟨old, hold⟩ := Option.isSome_iff_exists.1 hthere
      rw [hold]
      rfl
    · rfl
  · rename_i habsent
    rw [List.lookup_append, List.lookup_cons, List.lookup_nil]
    by_cases hplace : other = place
    · subst hplace
      simp [Option.not_isSome_iff_eq_none.1 habsent]
    · have hne : (other == place) = false := by simpa using hplace
      simp [hplace, hne]

/-- An entry is found where it has been put, and all others are where they were. -/
theorem entry?_put (fs : FileSystem) (h : place ≠ []) (entry : FileEntry) (other : List String) :
    FileSystem.entry? (fs.put place entry) other =
      if other = place then some entry else fs.entry? other := by
  unfold entry?
  rw [lookup_put]
  by_cases hother : other = []
  · subst hother
    simp [h.symm]
  · simp [hother]

/-! ## Directories -/

/-- Directories have been made, and nothing else has changed. -/
structure AddsDirectories (fs after : FileSystem) : Prop where
  workingDirectory : after.workingDirectory = fs.workingDirectory
  denies : after.denies = fs.denies
  entries : ∀ place, after.entry? place = fs.entry? place ∨
    fs.entry? place = none ∧ after.entry? place = some .directory

namespace AddsDirectories

theorem refl (fs : FileSystem) : AddsDirectories fs fs := ⟨rfl, rfl, fun _ => Or.inl rfl⟩

theorem trans {between : FileSystem} (h : AddsDirectories fs between)
    (h' : AddsDirectories between after) : AddsDirectories fs after where
  workingDirectory := h'.workingDirectory.trans h.workingDirectory
  denies := h'.denies.trans h.denies
  entries place := by
    rcases h.entries place with hsame | ⟨hnone, hmade⟩
    · rw [← hsame]
      exact h'.entries place
    · rcases h'.entries place with hsame' | ⟨hnone', -⟩
      · exact Or.inr ⟨hnone, hsame'.trans hmade⟩
      · cases hmade.symm.trans hnone'

theorem put (h : fs.entry? place = none) : AddsDirectories fs (fs.put place .directory) where
  workingDirectory := rfl
  denies := rfl
  entries other := by
    have hroot : place ≠ [] := by
      rintro rfl
      cases h
    rw [entry?_put fs hroot]
    split
    · rename_i hother
      exact Or.inr ⟨hother ▸ h, rfl⟩
    · exact Or.inl rfl

end AddsDirectories

theorem makeDirectory_adds (fs : FileSystem) (p : FilePath) :
    AddsDirectories fs (fs.makeDirectory p).1 := by
  unfold makeDirectory
  split
  · exact .refl fs
  · split
    · exact .refl fs
    · exact .refl fs
    · rename_i hnone
      split
      · exact .refl fs
      · exact .put hnone

theorem makeDirectories_adds (fs : FileSystem) (depth : Nat) (p : FilePath) :
    AddsDirectories fs (fs.makeDirectories depth p).1 := by
  induction depth generalizing p with
  | zero => exact makeDirectory_adds fs p
  | succ depth ih =>
      unfold makeDirectories
      split
      · have habove := ih p.parent
        split
        · rename_i above hmade
          rw [hmade] at habove
          exact habove.trans (makeDirectory_adds above p)
        · rename_i above error hmade
          rw [hmade] at habove
          exact habove
      · exact makeDirectory_adds fs p

/-! ## Paths -/

/-- Where the directories stay, a path can be followed as before. -/
theorem follow_of_directories (hdenies : after.denies = fs.denies)
    (h : ∀ place, fs.entry? place = some .directory → after.entry? place = some .directory)
    {place result : List String} {parts : List String}
    (hfollow : fs.follow place parts = .ok result) : after.follow place parts = .ok result := by
  induction parts generalizing place with
  | nil => exact hfollow
  | cons part rest ih =>
      unfold follow at hfollow ⊢
      split at hfollow
      · rename_i hdirectory
        rw [h place hdirectory]
        simp only [hdenies]
        split at hfollow
        · cases hfollow
        rename_i hopen
        rw [if_neg hopen]
        split at hfollow
        · rename_i hdots
          rw [if_pos hdots]
          exact ih hfollow
        rename_i hdots
        rw [if_neg hdots]
        split at hfollow
        · cases hfollow
        rename_i hlength
        rw [if_neg hlength]
        exact ih hfollow
      · cases hfollow
      · cases hfollow

theorem place_of_directories (hworking : after.workingDirectory = fs.workingDirectory)
    (hdenies : after.denies = fs.denies)
    (h : ∀ place, fs.entry? place = some .directory → after.entry? place = some .directory)
    {p : FilePath} (hplace : fs.place p = .ok place) : after.place p = .ok place := by
  unfold FileSystem.place at hplace ⊢
  split at hplace
  · cases hplace
  · rename_i hnull
    rw [if_neg hnull]
    split at hplace
    · cases hplace
    · rename_i hlength
      rw [if_neg hlength, hworking]
      exact follow_of_directories hdenies h hplace

/-! ## Texts -/

/-- A text stands at a place.  All else is as it was, apart from new directories. -/
structure Wrote (fs : FileSystem) (place : List String) (text : String) (after : FileSystem) :
    Prop where
  content : after.entry? place = some (.file text)
  denies : after.denies = fs.denies
  others : ∀ other, other ≠ place → after.entry? other = fs.entry? other ∨
    fs.entry? other = none ∧ after.entry? other = some .directory

theorem putText_eq_ok_iff {p : FilePath} {text : String} :
    fs.putText p text = (after, .ok ()) ↔ ∃ place, fs.place p = .ok place ∧
      fs.entry? place ≠ some .directory ∧ fs.deniesWriting place = false ∧
      after = fs.put place (.file text) := by
  unfold putText
  cases fs.place p with
  | error error => simp
  | ok place =>
      by_cases hdirectory : fs.entry? place = some .directory
      · simp [hdirectory]
      · cases hdenies : fs.deniesWriting place
        · simp [hdirectory, hdenies, Prod.ext_iff, eq_comm (a := after)]
        · simp [hdirectory, hdenies]

/-- A file is written where the directories can be made and the text can be put. -/
theorem writeText_eq_ok_iff {p : FilePath} {text : String} :
    fs.writeText p text = (after, .ok ()) ↔ ∃ made,
      fs.makeDirectories p.parts.length p.parent = (made, .ok ()) ∧
      made.putText p text = (after, .ok ()) := by
  unfold writeText
  rcases fs.makeDirectories p.parts.length p.parent with ⟨made, error | _⟩ <;> simp

theorem place_put {p : FilePath} (hplace : fs.place p = .ok place)
    (hfree : fs.entry? place ≠ some .directory) (text : String) :
    (fs.put place (.file text)).place p = .ok place := by
  have hroot : place ≠ [] := by
    rintro rfl
    exact hfree rfl
  have hworking : (fs.put place (.file text)).workingDirectory = fs.workingDirectory := rfl
  refine place_of_directories hworking rfl (fun other hdirectory => ?_) hplace
  rw [entry?_put fs hroot, if_neg]
  · exact hdirectory
  · rintro rfl
    exact hfree hdirectory

theorem wrote_put {made : FileSystem} {depth : Nat} {p : FilePath} {text : String}
    (hmade : fs.makeDirectories depth p = (made, .ok ()))
    (hfree : made.entry? place ≠ some .directory) :
    Wrote fs place text (made.put place (.file text)) := by
  have hadds := makeDirectories_adds fs depth p
  rw [hmade] at hadds
  have hroot : place ≠ [] := by
    rintro rfl
    exact hfree rfl
  have hentry := entry?_put made hroot (.file text)
  refine ⟨?_, hadds.denies, fun other hother => ?_⟩
  · rw [hentry, if_pos rfl]
  · rw [hentry, if_neg hother]
    exact hadds.entries other

/-- A file that has been written holds the text. -/
theorem writeText_wrote {p : FilePath} {text : String} (h : fs.writeText p text = (after, .ok ())) :
    ∃ place, after.place p = .ok place ∧ Wrote fs place text after := by
  obtain ⟨made, hmade, hput⟩ := writeText_eq_ok_iff.1 h
  obtain ⟨place, hplace, hfree, -, rfl⟩ := putText_eq_ok_iff.1 hput
  exact ⟨place, place_put hplace hfree text, wrote_put hmade hfree⟩

/-- A file can be written into a directory that is there. -/
theorem writeText_of_directory {p : FilePath} {above : List String}
    (habove : fs.place p.parent = .ok above) (hdirectory : fs.entry? above = some .directory)
    (hplace : fs.place p = .ok place) (hfree : fs.entry? place ≠ some .directory)
    (hallowed : fs.deniesWriting place = false) (text : String) :
    fs.writeText p text = (fs.put place (.file text), .ok ()) := by
  have hthere : fs.makeDirectory p.parent = (fs, .ok ()) := by
    unfold makeDirectory
    rw [habove]
    simp only [hdirectory]
  have hmade : fs.makeDirectories p.parts.length p.parent = (fs, .ok ()) := by
    unfold makeDirectories
    cases p.parts.length <;> simp only [hthere]
  exact writeText_eq_ok_iff.2
    ⟨fs, hmade, putText_eq_ok_iff.2 ⟨place, hplace, hfree, hallowed, rfl⟩⟩

/-- Whether a file can be written, and where it then stands, does not depend on its text. -/
theorem exists_writeText {p : FilePath} {other : String}
    (h : fs.writeText p other = (after, .ok ())) (text : String) : ∃ place after',
      after.place p = .ok place ∧ fs.writeText p text = (after', .ok ()) ∧
      after'.place p = .ok place ∧ Wrote fs place text after' := by
  obtain ⟨made, hmade, hput⟩ := writeText_eq_ok_iff.1 h
  obtain ⟨place, hplace, hfree, hallowed, rfl⟩ := putText_eq_ok_iff.1 hput
  have hwritten : fs.writeText p text = (made.put place (.file text), .ok ()) :=
    writeText_eq_ok_iff.2 ⟨made, hmade, putText_eq_ok_iff.2 ⟨place, hplace, hfree, hallowed, rfl⟩⟩
  exact ⟨place, _, place_put hplace hfree other, hwritten, place_put hplace hfree text,
    wrote_put hmade hfree⟩

/-- The path of a written file leads to the text. -/
theorem Wrote.look {p : FilePath} {text : String} (h : Wrote fs place text after)
    (hplace : after.place p = .ok place) : after.look p = some (.file text) := by
  unfold FileSystem.look
  rw [hplace]
  exact h.content

/-! ## Reading -/

/-- Where no line ends with a carriage return, no line end is changed. -/
theorem plainLines_of_not_mem {cs : List Char} (h : '\r' ∉ cs) : plainLines cs = cs := by
  fun_induction plainLines cs with
  | case1 rest ih => exact absurd List.mem_cons_self h
  | case2 rest _ ih => exact absurd List.mem_cons_self h
  | case3 c rest _ _ ih => rw [ih fun hrest => h (List.mem_cons_of_mem c hrest)]
  | case4 => rfl

/-- What is read may be read. -/
theorem allowed_of_readText {p : FilePath} {text : String} (hplace : fs.place p = .ok place)
    (h : fs.readText p = .ok text) : fs.denies .read place = false := by
  unfold FileSystem.readText at h
  rw [hplace] at h
  simp only at h
  split at h
  · cases h
  · split at h
    · cases h
    · rename_i hallowed
      exact Bool.eq_false_iff.2 hallowed

/-- The text of a written file is read again, where it may be read. -/
theorem Wrote.readText {p : FilePath} {text : String} (h : Wrote fs place text after)
    (hplace : after.place p = .ok place) (hallowed : fs.denies .read place = false)
    (hplain : '\r' ∉ text.toList) : after.readText p = .ok text := by
  unfold FileSystem.readText
  rw [hplace]
  simp only [h.content, h.denies, hallowed, textOf, plainLines_of_not_mem hplain,
    String.ofList_toList, Bool.false_eq_true, if_false]

theorem Wrote.has {p : FilePath} {text : String} (h : Wrote fs place text after)
    (hplace : after.place p = .ok place) : after.has p = .ok true := by
  unfold FileSystem.has
  rw [hplace]
  simp only [h.content]
  rfl

end ProtoShape.FileSystem
