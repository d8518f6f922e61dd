import ArtifactCache.Proofs.Files.Inward
import ArtifactCache.Split

/-! The names in the path of a branch are those of its directories, and it is a relative path. -/
namespace ArtifactCache.Split

open ArtifactCache.Path (names isRooted properNames)

variable {s : Split} {dirs : List String} {b id : String} {snapshot : Bool}

theorem properNames_dropWhile (cs : List Char) :
    properNames (cs.dropWhile (· = '/')) = properNames cs := by
  induction cs with
  | nil => rfl
  | cons c cs ih =>
    by_cases hc : c = '/'
    · rw [List.dropWhile_cons_of_pos (by simp [hc]), ih, hc, Path.properNames_slash]
    · rw [List.dropWhile_cons_of_neg (by simp [hc])]

theorem properNames_dropWhile_back (cs : List Char) :
    properNames (cs.dropWhile (· = '/')).reverse = properNames cs.reverse := by
  induction cs with
  | nil => rfl
  | cons c cs ih =>
    by_cases hc : c = '/'
    · rw [List.dropWhile_cons_of_pos (by simp [hc]), ih, hc, List.reverse_cons,
        Path.properNames_append, Path.properNames_nil, List.append_nil]
    · rw [List.dropWhile_cons_of_neg (by simp [hc])]

theorem names_bare (name : String) : names (bare name) = names name := by
  rw [Path.names_eq, Path.names_eq, bare, String.toList_ofList, Text.strip,
    properNames_dropWhile_back, List.reverse_reverse, properNames_dropWhile]

theorem isRooted_bare (name : String) : isRooted (bare name) = false := by
  rw [Bool.eq_false_iff, ne_eq, Path.isRooted_iff, bare, String.toList_ofList]
  intro hhead
  have hkept := Text.head_of_strip_eq (Text.strip_strip _ _) hhead
  simp at hkept

theorem names_branch (dirs : List String) :
    (branch dirs).flatMap names = dirs.flatMap names := by
  induction dirs with
  | nil => rfl
  | cons dir dirs ih =>
    rw [List.flatMap_cons, ← ih, ← names_bare dir]
    by_cases hdir : bare dir = ""
    · rw [branch, List.map_cons, List.filter_cons_of_neg (by simp [hdir]), hdir]
      rfl
    · rw [branch, List.map_cons, List.filter_cons_of_pos (by simp [hdir]), List.flatMap_cons]
      rfl

theorem names_path (h : path? dirs = some b) : names b = dirs.flatMap names := by
  rw [path?] at h
  split at h
  · cases h
  · cases h
    rw [Path.names_join_slash, names_branch]

theorem names_of_path_eq_none (h : path? dirs = none) : dirs.flatMap names = [] := by
  rw [path?] at h
  split at h
  · rename_i hnil
    rw [← names_branch, hnil]
    rfl
  · cases h

/-- The path of a branch does not start at the root, even with something behind it. -/
theorem isRooted_path (h : path? dirs = some b) (rest : String) : isRooted (b ++ rest) = false := by
  rw [path?] at h
  split at h
  · cases h
  next dir hnil =>
    cases h
    cases hbranch : branch dirs with
    | nil => exact absurd hbranch hnil
    | cons dir rest' =>
      have hmem : dir ∈ branch dirs := hbranch ▸ List.mem_cons_self
      obtain ⟨hmem, hne⟩ := List.mem_filter.1 hmem
      obtain ⟨name, -, rfl⟩ := List.mem_map.1 hmem
      have hhead : ∀ text : String, isRooted (bare name ++ text) = false := fun text => by
        rw [Path.isRooted_append (by simpa using hne), isRooted_bare]
      cases rest' with
      | nil => exact hhead rest
      | cons next rest' =>
        rw [Text.join, String.append_assoc, String.append_assoc]
        · exact hhead _
        · exact List.cons_ne_nil _ _

/-- The directories that branches have, those named after repositories apart. -/
def directories (s : Split) : List String :=
  [s.installed, s.installedReleases, s.installedSnapshots, s.downloaded, s.downloadedReleases,
    s.downloadedSnapshots]

/-- Whether the directories of the branches have the names that they have by default. -/
def NamedByDefault (s : Split) : Prop := s.directories = ({} : Split).directories

theorem NamedByDefault.onward (h : s.NamedByDefault) :
    ∀ dir ∈ s.directories, ".." ∉ names dir := by
  rw [h]
  decide

theorem mem_directories_of_installed {dir : String} (h : dir ∈ s.installedNames snapshot) :
    dir ∈ s.directories := by
  simp only [installedNames, List.mem_append, List.mem_ite_nil_right, List.mem_singleton] at h
  rcases h with ⟨-, rfl⟩ | ⟨-, rfl⟩
  · simp [directories]
  · cases snapshot <;> simp [directories]

theorem mem_directories_of_downloaded {dir : String} (h : dir ∈ s.downloadedNames snapshot id) :
    dir ∈ s.directories ∨ s.byRepository = true ∧ dir = id := by
  simp only [downloadedNames, List.mem_append, List.mem_ite_nil_right, List.mem_singleton,
    Bool.and_eq_true] at h
  rcases h with ((⟨-, rfl⟩ | ⟨⟨hby, -⟩, rfl⟩) | ⟨-, rfl⟩) | ⟨⟨hby, -⟩, rfl⟩
  · simp [directories]
  · exact .inr ⟨hby, rfl⟩
  · cases snapshot <;> simp [directories]
  · exact .inr ⟨hby, rfl⟩

theorem repository_mem_downloaded (h : s.byRepository = true) (snapshot : Bool) (id : String) :
    id ∈ s.downloadedNames snapshot id := by
  cases hlast : s.repositoryLast <;> simp [downloadedNames, h, hlast]

/-- The branch of installed files does not lead back. -/
theorem installed_onward (h : s.NamedByDefault) (snapshot : Bool) :
    ".." ∉ (s.installedNames snapshot).flatMap names := by
  rw [List.mem_flatMap]
  rintro ⟨dir, hdir, hback⟩
  exact h.onward dir (mem_directories_of_installed hdir) hback

/-- The branch of downloaded files leads back just when it does so through a repository. -/
theorem downloaded_onward_iff (h : s.NamedByDefault) (snapshot : Bool) (id : String) :
    ".." ∉ (s.downloadedNames snapshot id).flatMap names ↔
      (s.byRepository = true → ".." ∉ names id) := by
  rw [List.mem_flatMap]
  constructor
  · intro hback hby hid
    exact hback ⟨id, repository_mem_downloaded hby snapshot id, hid⟩
  · rintro hid ⟨dir, hdir, hback⟩
    rcases mem_directories_of_downloaded hdir with hdir | ⟨hby, rfl⟩
    · exact h.onward dir hdir hback
    · exact hid hby hback

end ArtifactCache.Split
