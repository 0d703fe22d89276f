import SexprCompiler.Files

/-!
# Reading and writing at a path

A path leads to a place: that of a file, or of one that can be made there. What is read at a path
is what the file at its place holds. What is written is what it holds then, no other file is
changed, and the path leads to the same place as before: the directories on the way to it are none
of the files that are written.
-/
namespace SexprCompiler

theorem decodeUtf8_eq_ok_iff {bytes : ByteArray} {text : String} :
    decodeUtf8 bytes = .ok text ↔ bytes = text.toUTF8 := by
  constructor
  · intro h
    by_cases hvalid : bytes.IsValidUTF8
    · have hsome : String.fromUTF8? bytes = some (String.fromUTF8 bytes hvalid) := dif_pos hvalid
      simp only [decodeUtf8, hsome, Except.ok.injEq] at h
      rw [← h]
      rfl
    · have hnone : String.fromUTF8? bytes = none := dif_neg hvalid
      simp [decodeUtf8, hnone] at h
  · rintro rfl
    have hvalid : String.fromUTF8? text.toUTF8 = some text := dif_pos text.isValidUTF8
    simp only [decodeUtf8, hvalid]

theorem toUTF8_injective {text other : String} (h : text.toUTF8 = other.toUTF8) : text = other := by
  have hother := decodeUtf8_eq_ok_iff.mpr h
  rw [decodeUtf8_eq_ok_iff.mpr rfl] at hother
  exact Except.ok.inj hother

namespace Files

def Location.place? : Location → Option (List String)
  | .directory => none
  | .file place _ => some place
  | .free place => some place

/-- The place of the file to which a path leads. A slash at its end asks for a directory. -/
def place? (files : Files) (path : String) : Option (List String) :=
  if (Path.ofString path).slash then none
  else (files.locate (Path.ofString path)).toOption.bind Location.place?

variable {files : Files} {directory : Option (List String)} {steps : List Path.Step}
  {location : Location} {place : List String} {path : String}

theorem place?_eq_some_iff : files.place? path = some place ↔
    (Path.ofString path).slash = false ∧
      ∃ location, files.locate (Path.ofString path) = .ok location ∧
        location.place? = some place := by
  unfold place?
  cases (Path.ofString path).slash with
  | true => simp
  | false =>
    cases files.locate (Path.ofString path) with
    | error error => simp [Except.toOption]
    | ok location => simp [Except.toOption]

theorem entry?_set (files : Files) (place other : List String) (bytes : ByteArray) :
    entry? (files.set place bytes) other =
      if other = place then some (.file bytes) else files.entry? other := by
  unfold entry?
  rw [get?_set]
  by_cases h : other = place
  · rw [if_pos h, if_pos h]
  · rw [if_neg h, if_neg h]
    rfl

/-- Steps end at a file or a free place, never at the place of a directory. -/
theorem entry?_of_follow (h : files.follow directory steps = .ok location)
    (hplace : location.place? = some place) : files.entry? place ≠ some .directory := by
  fun_induction follow files directory steps with
  | case1 => cases h; cases hplace
  | case2 directory steps ih => exact ih h
  | case3 directory steps ih => exact ih h
  | case4 => cases h
  | case5 name steps names place' hentry ih => exact ih h
  | case6 name names place' bytes hentry =>
    cases h
    obtain rfl : place' = place := Option.some.inj hplace
    rw [hentry]
    simp
  | case7 => cases h
  | case8 name names place' hentry =>
    cases h
    obtain rfl : place' = place := Option.some.inj hplace
    rw [hentry]
    simp
  | case9 => cases h

/-- Once a file stands at the place where steps end, they lead to it. -/
theorem follow_set (bytes : ByteArray) (h : files.follow directory steps = .ok location)
    (hplace : location.place? = some place) :
    (files.set place bytes).follow directory steps = .ok (.file place bytes) := by
  fun_induction follow files directory steps with
  | case1 => cases h; cases hplace
  | case2 directory steps ih => exact ih h
  | case3 directory steps ih => exact ih h
  | case4 => cases h
  | case5 name steps names place' hentry ih =>
    -- A directory on the way is not the place that is written to.
    have hne : place' ≠ place := by
      rintro rfl
      exact entry?_of_follow h hplace hentry
    have hkept : entry? (files.set place bytes) place' = some .directory := by
      rw [entry?_set, if_neg hne, hentry]
    simp only [follow, show names ++ [name] = place' from rfl, hkept, ih h]
  | case6 name names place' old hentry =>
    cases h
    obtain rfl : place' = place := Option.some.inj hplace
    simp only [follow, show names ++ [name] = place' from rfl, entry?_set, if_pos]
  | case7 => cases h
  | case8 name names place' hentry =>
    cases h
    obtain rfl : place' = place := Option.some.inj hplace
    simp only [follow, show names ++ [name] = place' from rfl, entry?_set, if_pos]
  | case9 => cases h

theorem entry?_eq_file_iff {bytes : ByteArray} :
    files.entry? place = some (.file bytes) ↔ files.get? place = some bytes := by
  unfold entry?
  cases files.get? place with
  | some found => simp
  | none => by_cases hmem : place ∈ files.directories <;> simp [hmem]

theorem get?_of_follow {bytes : ByteArray}
    (h : files.follow directory steps = .ok (.file place bytes)) :
    files.get? place = some bytes := by
  fun_induction follow files directory steps with
  | case1 => cases h
  | case2 directory steps ih => exact ih h
  | case3 directory steps ih => exact ih h
  | case4 => cases h
  | case5 name steps names place' hentry ih => exact ih h
  | case6 name names place' old hentry =>
    rw [Except.ok.injEq, Location.file.injEq] at h
    rw [← h.1, ← h.2]
    exact entry?_eq_file_iff.mp hentry
  | case7 => cases h
  | case8 => cases h
  | case9 => cases h

/-- A path is followed from some directory, or leads nowhere, whatever the files are. -/
theorem locate_cases (path : Path) :
    (∃ directory, ∀ files : Files, files.locate path = files.follow directory path.steps) ∨
      ∀ files : Files, files.locate path = .error .notFound := by
  unfold locate
  by_cases habsolute : path.absolute = true
  · exact .inl ⟨none, fun files => if_pos habsolute⟩
  · by_cases hempty : path.steps.isEmpty = true
    · exact .inr fun files => by rw [if_neg habsolute, if_pos hempty]
    · exact .inl ⟨some [], fun files => by rw [if_neg habsolute, if_neg hempty]⟩

theorem get?_of_locate {path : Path} {bytes : ByteArray}
    (h : files.locate path = .ok (.file place bytes)) : files.get? place = some bytes := by
  rcases locate_cases path with ⟨directory, hlocate⟩ | hnowhere
  · exact get?_of_follow (hlocate files ▸ h)
  · cases (hnowhere files).symm.trans h

theorem locate_set {path : Path} (bytes : ByteArray) (h : files.locate path = .ok location)
    (hplace : location.place? = some place) :
    (files.set place bytes).locate path = .ok (.file place bytes) := by
  rcases locate_cases path with ⟨directory, hlocate⟩ | hnowhere
  · rw [hlocate] at h ⊢
    exact follow_set bytes h hplace
  · cases (hnowhere files).symm.trans h

theorem get?_of_read {text : String} (h : files.read path = .ok text) :
    ∃ place, files.place? path = some place ∧ files.get? place = some text.toUTF8 := by
  unfold read at h
  cases hlocate : files.locate (Path.ofString path) with
  | error error => simp [hlocate] at h
  | ok location =>
    cases location with
    | directory => simp [hlocate] at h
    | free place => simp [hlocate] at h
    | file place bytes =>
      by_cases hslash : (Path.ofString path).slash = true
      · simp [hlocate, hslash] at h
      · have hdecode : decodeUtf8 bytes = .ok text := by simpa [hlocate, hslash] using h
        refine ⟨place, place?_eq_some_iff.mpr ⟨by simpa using hslash, _, hlocate, rfl⟩, ?_⟩
        rw [get?_of_locate hlocate, decodeUtf8_eq_ok_iff.mp hdecode]

/-- Writing succeeds where a path leads to the place of a file, and sets the content there. -/
theorem write_eq_ok_iff {text : String} {after : Files} :
    files.write path text = .ok after ↔
      ∃ place, files.place? path = some place ∧ after = files.set place text.toUTF8 := by
  simp only [place?_eq_some_iff]
  constructor
  · intro h
    unfold write at h
    cases hlocate : files.locate (Path.ofString path) with
    | error error => simp [hlocate] at h
    | ok location =>
      by_cases hslash : (Path.ofString path).slash = true
      · cases location <;> simp [hlocate, hslash] at h
      · cases location with
        | directory => simp [hlocate] at h
        | file place _ | free place =>
          refine ⟨place, ⟨by simpa using hslash, _, rfl, rfl⟩, ?_⟩
          simpa [hlocate, hslash] using h.symm
  · rintro ⟨place, ⟨hslash, location, hlocate, hplace⟩, rfl⟩
    unfold write
    cases location with
    | directory => cases hplace
    | file place' _ | free place' =>
      obtain rfl : place' = place := Option.some.inj hplace
      simp [hlocate, hslash]

theorem place?_set (bytes : ByteArray) (h : files.place? path = some place) :
    (files.set place bytes).place? path = some place := by
  obtain ⟨hslash, location, hlocate, hplace⟩ := place?_eq_some_iff.mp h
  exact place?_eq_some_iff.mpr ⟨hslash, _, locate_set bytes hlocate hplace, rfl⟩

end Files

end SexprCompiler
