import ArtifactCache.Layout
import ArtifactCache.Proofs.Files.Inward

/-! The name of a metadata document: the type of the document with a key in its last segment. The type is
gone through from its first slash on, the place of the key is given by its last slash and last dot. -/
namespace ArtifactCache.Layout

open ArtifactCache.Path (names isRooted)

variable {x : Metadata} {key key' s above stem ext : String} {sep : Char} {cs pre post : List Char}

theorem notMem_of_cutLast (h : cutLast sep cs = none) : sep ∉ cs := by
  induction cs with
  | nil => exact List.not_mem_nil
  | cons c cs ih =>
    rw [cutLast] at h
    split at h
    next => cases h
    next hcut =>
      split at h
      next => cases h
      next hc => exact List.not_mem_cons_of_ne_of_not_mem (Ne.symm hc) (ih hcut)

/-- A text is cut before its last separator. -/
theorem cutLast_eq (h : cutLast sep cs = some (pre, post)) :
    ∃ last, post = sep :: last ∧ cs = pre ++ post ∧ sep ∉ last := by
  induction cs generalizing pre with
  | nil => cases h
  | cons c cs ih =>
    rw [cutLast] at h
    split at h
    next pre' post' hcut =>
      cases h
      obtain ⟨last, hpost, rfl, hlast⟩ := ih hcut
      exact ⟨last, hpost, rfl, hlast⟩
    next hcut =>
      split at h
      next hc =>
        cases h
        exact ⟨cs, by rw [hc], rfl, notMem_of_cutLast hcut⟩
      next => cases h

theorem cutLast_of_notMem (h : sep ∉ cs) : cutLast sep cs = none := by
  cases hcut : cutLast sep cs with
  | none => rfl
  | some parts =>
    obtain ⟨last, hpost, hcs, -⟩ := cutLast_eq hcut
    exact absurd (by simp [hcs, hpost]) h

theorem cutLast_append {last : List Char} (h : sep ∉ last) (pre : List Char) :
    cutLast sep (pre ++ sep :: last) = some (pre, sep :: last) := by
  induction pre with
  | nil => simp [cutLast, cutLast_of_notMem h]
  | cons c pre ih => rw [List.cons_append, cutLast, ih]

/-- The extension behind a stem: a name from its last dot on, or nothing where it has no dot. -/
def IsExtension (ext stem : String) : Prop :=
  ext = "" ∧ '.' ∉ stem.toList ∨ ∃ letters : String, ext = "." ++ letters ∧ '.' ∉ letters.toList

/-- A type taken apart: the directories with their slashes, and the stem and the extension of the last
segment. -/
structure Segmented (type above stem ext : String) : Prop where
  whole : type = above ++ (stem ++ ext)
  directories : above = "" ∨ ∃ directories, above = directories ++ "/"
  last : '/' ∉ (stem ++ ext).toList
  extension : IsExtension ext stem

theorem exists_isExtension (name : List Char) :
    ∃ stem ext : String, name = (stem ++ ext).toList ∧ IsExtension ext stem := by
  cases hcut : cutLast '.' name with
  | none =>
    have hdot : '.' ∉ name := notMem_of_cutLast hcut
    exact ⟨String.ofList name, "", by simp, .inl ⟨rfl, by rwa [String.toList_ofList]⟩⟩
  | some parts =>
    obtain ⟨letters, hpost, hname, hdot⟩ := cutLast_eq hcut
    refine ⟨String.ofList parts.1, "." ++ String.ofList letters, ?_, .inr ⟨_, rfl, ?_⟩⟩
    · simp [hname, hpost]
    · rwa [String.toList_ofList]

theorem exists_segmented (type : String) : ∃ above stem ext, Segmented type above stem ext := by
  cases hcut : cutLast '/' type.toList with
  | none =>
    obtain ⟨stem, ext, hname, hextension⟩ := exists_isExtension type.toList
    have htype : type = stem ++ ext := String.toList_inj.1 hname
    have hslash : '/' ∉ type.toList := notMem_of_cutLast hcut
    exact ⟨"", stem, ext, by simpa using htype, .inl rfl, htype ▸ hslash, hextension⟩
  | some parts =>
    obtain ⟨last, hpost, htype, hslash⟩ := cutLast_eq hcut
    obtain ⟨stem, ext, rfl, hextension⟩ := exists_isExtension last
    refine ⟨String.ofList parts.1 ++ "/", stem, ext, ?_, .inr ⟨_, rfl⟩, hslash, hextension⟩
    apply String.toList_inj.1
    simp [htype, hpost]

/-- The name of a metadata document that was obtained under a key, with the directories in its type. -/
def documentName (x : Metadata) (key : String) : String :=
  String.ofList (insertKey key.toList x.type.toList)

theorem insertKey_of_notMem {name : List Char} (h : '/' ∉ name) (key : List Char) :
    insertKey key name = insertKey.insertInName key name := by
  rw [insertKey, Text.cut_eq_singleton h, insertKey.insertInLast]

theorem insertKey_directory {directory : List Char} (h : '/' ∉ directory) (key rest : List Char) :
    insertKey key (directory ++ '/' :: rest) = directory ++ '/' :: insertKey key rest := by
  obtain ⟨segment, segments, hrest⟩ := List.exists_cons_of_ne_nil (Text.cut_ne_nil '/' rest)
  have hcut : Text.cut '/' (directory ++ '/' :: rest) = directory :: segment :: segments := by
    rw [Text.cut_append, Text.cut_eq_singleton h, hrest]
    rfl
  rw [insertKey, insertKey, hcut, hrest, insertKey.insertInLast]
  exact nofun

/-- What stands above a slash stays as it is, one directory after the other. -/
theorem insertKey_below (key above rest : List Char) :
    insertKey key (above ++ '/' :: rest) = above ++ '/' :: insertKey key rest := by
  -- The type is gone through from its first slash, which need not be the one behind `above`: the
  -- induction is on what is left of `above` behind its own first slash.
  by_cases hslash : '/' ∈ above
  · obtain ⟨directory, below, habove, hdirectory⟩ := List.eq_append_cons_of_mem hslash
    have hshorter : below.length < above.length := by
      rw [habove, List.length_append, List.length_cons]
      omega
    rw [habove, List.append_assoc, List.cons_append, insertKey_directory hdirectory,
      insertKey_below key below rest, List.append_assoc, List.cons_append]
  · exact insertKey_directory hslash key rest
termination_by above.length

theorem IsExtension.insertInName (h : IsExtension ext stem) (key : List Char) :
    insertKey.insertInName key (stem ++ ext).toList = stem.toList ++ '-' :: (key ++ ext.toList) := by
  rcases h with ⟨rfl, hstem⟩ | ⟨letters, rfl, hletters⟩
  · simp [insertKey.insertInName, cutLast_of_notMem hstem]
  · simp [insertKey.insertInName, cutLast_append hletters]

/-- The directories that a type is put below stand in front of the name. -/
theorem documentName_below (x : Metadata) (above rest key : String) :
    documentName { x with type := above ++ "/" ++ rest } key =
      above ++ "/" ++ documentName { x with type := rest } key := by
  apply String.toList_inj.1
  simp [documentName, insertKey_below]

/-- The key stands between the stem and the extension. -/
theorem Segmented.documentName_eq (h : Segmented x.type above stem ext) (key : String) :
    documentName x key = above ++ stem ++ "-" ++ key ++ ext := by
  have hlast : documentName { x with type := stem ++ ext } key = stem ++ "-" ++ key ++ ext := by
    apply String.toList_inj.1
    simp only [documentName, insertKey_of_notMem h.last, h.extension.insertInName]
    simp
  have hx : x = { x with type := above ++ (stem ++ ext) } := by rw [← h.whole]
  rcases h.directories with rfl | ⟨directories, rfl⟩
  · rw [hx, String.empty_append, String.empty_append, hlast]
  · rw [hx, documentName_below, hlast]
    simp only [String.append_assoc]

/-- Different keys make different names. -/
theorem documentName_inj (x : Metadata) : documentName x key = documentName x key' ↔ key = key' := by
  obtain ⟨above, stem, ext, h⟩ := exists_segmented x.type
  simp only [h.documentName_eq, String.append_left_inj, String.append_right_inj]

theorem dash_mem_documentName (x : Metadata) (key : String) : '-' ∈ (documentName x key).toList := by
  obtain ⟨above, stem, ext, h⟩ := exists_segmented x.type
  simp [h.documentName_eq]

theorem slash_notMem_documentName (htype : '/' ∉ x.type.toList) (hkey : '/' ∉ key.toList) :
    '/' ∉ (documentName x key).toList := by
  obtain ⟨above, stem, ext, h⟩ := exists_segmented x.type
  rw [h.whole] at htype
  rw [h.documentName_eq]
  simp only [String.toList_append, List.mem_append, not_or] at htype ⊢
  exact ⟨⟨⟨⟨htype.1, htype.2.1⟩, by decide⟩, hkey⟩, htype.2.2⟩

theorem isRooted_documentName (x : Metadata) (key : String) :
    isRooted (documentName x key) = isRooted x.type := by
  obtain ⟨above, stem, ext, h⟩ := exists_segmented x.type
  rw [Bool.eq_iff_iff, Path.isRooted_iff, Path.isRooted_iff, h.documentName_eq, h.whole]
  rcases h.directories with rfl | ⟨directories, rfl⟩
  · have hstem : '/' ∉ stem.toList := fun hmem => h.last (by simp [hmem])
    have hdash : '/' ∉ (stem ++ "-").toList := by simp [hstem]
    have hname : ("" ++ stem ++ "-" ++ key ++ ext).toList.head? ≠ some '/' := by
      rw [String.empty_append, String.toList_append, String.toList_append, List.append_assoc,
        List.head?_append_of_ne_nil _ (by simp)]
      exact fun hhead => hdash (List.mem_of_head? hhead)
    rw [String.empty_append]
    exact iff_of_false hname fun hhead => h.last (List.mem_of_head? hhead)
  · simp only [String.append_assoc, String.toList_append]
    cases directories.toList <;> simp

theorem names_documentName_ne_nil (x : Metadata) (key : String) : names (documentName x key) ≠ [] :=
  Path.names_ne_nil (dash_mem_documentName x key) (by decide) (by decide)

/-- A text with a dash in it and no slash is a name. -/
theorem names_of_dash (h : '/' ∉ s.toList) (hdash : '-' ∈ s.toList) : names s = [s] := by
  apply Path.names_eq_singleton h
  · rintro rfl
    cases hdash
  · rintro rfl
    revert hdash
    decide

/-- Under a key without slashes the last name of a document is what the key is put into. -/
theorem exists_names_documentName (x : Metadata) : ∃ above stem ext, ∀ key, '/' ∉ key.toList →
    names (documentName x key) = above ++ [stem ++ "-" ++ key ++ ext] := by
  obtain ⟨above, stem, ext, h⟩ := exists_segmented x.type
  have hlast : ∀ key, '/' ∉ key.toList →
      names (stem ++ "-" ++ key ++ ext) = [stem ++ "-" ++ key ++ ext] := by
    intro key hkey
    have hslash := h.last
    simp only [String.toList_append, List.mem_append, not_or] at hslash
    exact names_of_dash (by simp [hslash, hkey]) (by simp)
  rcases h.directories with rfl | ⟨directories, rfl⟩
  · refine ⟨[], stem, ext, fun key hkey => ?_⟩
    rw [h.documentName_eq, String.empty_append, hlast key hkey, List.nil_append]
  · refine ⟨names directories, stem, ext, fun key hkey => ?_⟩
    have hpath : documentName x key = directories ++ "/" ++ (stem ++ "-" ++ key ++ ext) := by
      rw [h.documentName_eq]
      simp only [String.append_assoc]
    rw [hpath, Path.names_slash, hlast key hkey]

/-- Where the key stands in the name of a document. Every type can be taken apart, and the key comes
after a dash between the stem and the extension of its last segment. The directories above a slash are
passed over, whatever is in them, and different keys make different names. -/
theorem documentName_places_key (x : Metadata) :
    (∃ above stem ext, Segmented x.type above stem ext) ∧
    (∀ above stem ext, Segmented x.type above stem ext →
      ∀ key, documentName x key = above ++ stem ++ "-" ++ key ++ ext) ∧
    (∀ above rest key, documentName { x with type := above ++ "/" ++ rest } key =
      above ++ "/" ++ documentName { x with type := rest } key) ∧
    ∀ key key', documentName x key = documentName x key' ↔ key = key' := by
  refine ⟨exists_segmented x.type, ?_, documentName_below x, fun _ _ => documentName_inj x⟩
  intro above stem ext h
  exact h.documentName_eq

/-- A dot in a directory is none of the last segment, and of two dots in a segment the last counts. -/
theorem documentName_places_key_archive :
    let x : Metadata := ⟨"g", "a", "1", "docs.d/a.tar.gz"⟩
    Segmented x.type "docs.d/" "a.tar" ".gz" ∧ documentName x "central" = "docs.d/a.tar-central.gz" ∧
      documentName x "central" ≠ documentName x "other" := by
  intro x
  have hsegmented : Segmented x.type "docs.d/" "a.tar" ".gz" :=
    ⟨by decide, .inr ⟨"docs.d", by decide⟩, by decide, .inr ⟨"gz", by decide, by decide⟩⟩
  obtain ⟨-, hplaced, -, hkeys⟩ := documentName_places_key x
  have hname := hplaced _ _ _ hsegmented "central"
  exact ⟨hsegmented, hname.trans (by decide), mt (hkeys "central" "other").1 (by decide)⟩

end ArtifactCache.Layout
