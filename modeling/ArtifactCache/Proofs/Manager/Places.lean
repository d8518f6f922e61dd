import ArtifactCache.Proofs.Files.Beside
import ArtifactCache.Proofs.Files.Change
import ArtifactCache.Proofs.Manager.Ledger
import ArtifactCache.Proofs.Repository.Local

/-! Where the files of a repository lie, and where the tracking files beside them. -/
namespace ArtifactCache

open Disk (Filed)

variable {m : Manager} {d d' : Disk} {trackingName rel rel' directory path above : String}

theorem not_rooted_of_names (h : ∀ n ∈ Text.splitOn '/' path, n ≠ "") :
    Path.isRooted path = false := by
  rw [Bool.eq_false_iff, ne_eq, Path.isRooted_iff]
  intro hhead
  obtain ⟨cs, hcs⟩ := List.head?_eq_some_iff.1 hhead
  apply h "" _ rfl
  rw [Text.splitOn, hcs, Text.cut, if_pos rfl]
  exact List.mem_cons_self

theorem names_of_splitOn (h : ∀ n ∈ Text.splitOn '/' path, n ≠ "" ∧ n ≠ "." ∧ n ≠ "..") :
    Path.names path = Text.splitOn '/' path := by
  rw [Path.names, List.filter_eq_self]
  intro n hn
  simp [h n hn]

namespace Proper

theorem names_eq (h : Proper trackingName rel) : Path.names rel = Text.splitOn '/' rel :=
  names_of_splitOn h.names

theorem not_rooted (h : Proper trackingName rel) : Path.isRooted rel = false :=
  not_rooted_of_names fun n hn => (h.names n hn).1

theorem eq_of_names (h : Proper trackingName rel) (h' : Proper trackingName rel')
    (heq : Path.names rel = Path.names rel') : rel = rel' :=
  Text.splitOn_inj.1 (by rw [← h.names_eq, ← h'.names_eq, heq])

theorem last (h : Proper trackingName rel) :
    (Text.splitOn '/' rel).getLast? = some (nameOf rel) := by
  have hne : Text.splitOn '/' rel ≠ [] := by simp [Text.splitOn, Text.cut_ne_nil]
  rw [nameOf, h.names_eq, List.getLastD_eq_getLast?, List.getLast?_eq_some_getLast hne]
  rfl

theorem directory_append (h : Proper trackingName rel) :
    Path.names rel = directoryOf rel ++ [nameOf rel] := by
  have hlast := h.last
  rw [← h.names_eq] at hlast
  obtain ⟨before, hbefore⟩ := List.getLast?_eq_some_iff.1 hlast
  rw [directoryOf, hbefore, List.dropLast_concat]

theorem name_mem (h : Proper trackingName rel) : nameOf rel ∈ Text.splitOn '/' rel :=
  List.mem_of_getLast? h.last

end Proper

theorem isName_of_isPlainName (h : isPlainName trackingName = true) : Path.IsName trackingName := by
  simp only [isPlainName, Bool.and_eq_true, decide_eq_true_eq, Bool.not_eq_true',
    List.any_eq_false] at h
  obtain ⟨⟨⟨hempty, hdot⟩, hback⟩, hslash⟩ := h
  exact ⟨hempty, hdot, hback, fun hmem => hslash _ hmem (by simp)⟩

/-- A repository whose directories keep tracking files. -/
structure Tracked (m : Manager) (trackingName : String) : Prop where
  mode : ∃ division, m.mode = .enhanced division trackingName
  name : isPlainName trackingName = true

/-- The place of a repository. -/
def Manager.home (m : Manager) (d : Disk) : Place := d.placeOf m.repository.base

/-- Whether the path of a repository leads to the files that lie in it. -/
def Manager.Reached (m : Manager) (d : Disk) : Prop := ∀ names content,
  d.at? (m.home d ++ names) = some (.file content) → d.ClearTo m.repository.base

theorem home_changed {p : Place} (h : d.Changed d' p) : m.home d' = m.home d :=
  h.placeOf _

namespace Manager.Reached

/-- The path of a repository leads to its files at once if nothing in it leads back. -/
theorem of_notMem (h : ".." ∉ Path.names m.repository.base) (d : Disk) : m.Reached d :=
  fun _ _ _ => ⟨Disk.clear_of_notMem h _ _⟩

/-- So it does when the repository was there as it was located. -/
theorem of_locate {d₀ : Disk} {contentType : String}
    (h : LocalRepository.locate d₀ path contentType = .ok m.repository)
    (hdir : d₀.isDirectory (Path.absolute (Disk.placePath d₀.current) path) = true) (d : Disk) :
    m.Reached d :=
  of_notMem (LocalRepository.locate_not_back h hdir) d

theorem seen (h : m.Reached d) {ns : List String} (hp : d.placeOf path = m.home d ++ ns ∧
    (d.ClearTo path ↔ d.ClearTo m.repository.base)) : d.Seen path := by
  intro content hat
  rw [hp.1] at hat
  exact hp.2.2 (h ns content hat)

theorem changed (h : m.Reached d) {p : Place} (hc : d.Changed d' p)
    (hp : ∀ content, d'.at? p = some (.file content) → d'.ClearTo m.repository.base) :
    m.Reached d' := by
  intro names content hat
  rw [home_changed hc] at hat
  by_cases hplace : m.home d ++ names = p
  · rw [hplace] at hat
    exact hp content hat
  · exact hc.clearTo (h names content ((hc.file_iff hplace content).1 hat))

end Manager.Reached

namespace Tracked

theorem plain (h : Tracked m trackingName) : Path.IsName trackingName := isName_of_isPlainName h.name

theorem splitOn_name (h : Tracked m trackingName) :
    Text.splitOn '/' trackingName = [trackingName] :=
  Text.splitOn_eq_singleton h.plain.notMem

theorem names_name (h : Tracked m trackingName) : Path.names trackingName = [trackingName] := by
  rw [Path.names, h.splitOn_name]
  simp [h.plain.ne_empty, h.plain.ne_dot]

theorem name_not_rooted (h : Tracked m trackingName) : Path.isRooted trackingName = false :=
  h.plain.not_rooted

/-- The tracking file in a directory of the repository. -/
theorem filed_join (h : Tracked m trackingName) {above : List String}
    (hroot : Path.isRooted directory = Path.isRooted m.repository.base)
    (hnames : Path.names directory = Path.names m.repository.base ++ above) (hback : ".." ∉ above) :
    Filed (Path.join directory trackingName) trackingName ∧ ∀ d : Disk,
      d.placeOf (Path.join directory trackingName) = m.home d ++ (above ++ [trackingName]) ∧
      (d.ClearTo (Path.join directory trackingName) ↔ d.ClearTo m.repository.base) := by
  have hjoin : Path.names (Path.join directory trackingName) =
      Path.names m.repository.base ++ (above ++ [trackingName]) := by
    rw [Path.names_join h.name_not_rooted, h.names_name, hnames, List.append_assoc]
  refine ⟨⟨?_, h.plain.ne_empty, h.plain.ne_dot, h.plain.ne_back⟩, ?_⟩
  · rw [Path.getLast_splitOn_join h.name_not_rooted, h.splitOn_name]
    rfl
  · intro d
    refine Disk.placeOf_below ((Path.isRooted_join h.name_not_rooted).trans hroot) hjoin ?_ d
    rw [List.mem_append, List.mem_singleton, not_or]
    exact ⟨hback, Ne.symm h.plain.ne_back⟩

end Tracked

namespace Proper

theorem filed (h : Proper trackingName rel) (m : Manager) : Filed (m.resolve rel) (nameOf rel) := by
  obtain ⟨hempty, hdot, hback⟩ := h.names _ h.name_mem
  exact ⟨(Path.getLast_splitOn_join h.not_rooted).trans h.last, hempty, hdot, hback⟩

theorem names_resolve (h : Proper trackingName rel) (m : Manager) :
    Path.names (m.resolve rel) = Path.names m.repository.base ++ Path.names rel :=
  Path.names_join h.not_rooted

theorem not_back (h : Proper trackingName rel) : ".." ∉ Path.names rel := by
  rw [h.names_eq]
  exact fun hmem => (h.names _ hmem).2.2 rfl

/-- The place of a file. -/
theorem placeOf (h : Proper trackingName rel) (m : Manager) (d : Disk) :
    d.placeOf (m.resolve rel) = m.home d ++ Path.names rel ∧
      (d.ClearTo (m.resolve rel) ↔ d.ClearTo m.repository.base) :=
  Disk.placeOf_below (Path.isRooted_join h.not_rooted) (h.names_resolve m) h.not_back d

theorem fileName (h : Proper trackingName rel) (m : Manager) :
    Path.fileName? (m.resolve rel) = some (nameOf rel) := by
  obtain ⟨above, -, hname, -⟩ := (h.filed m).parent
  exact hname

theorem names_ne (h : Proper trackingName rel) (directory : List String) :
    Path.names rel ≠ directory ++ [trackingName] := by
  intro heq
  rw [h.directory_append] at heq
  exact h.artifact (List.cons.inj (List.append_inj' heq rfl).2).1

end Proper

namespace Tracked

/-- The tracking file beside a file. -/
theorem trackingFile (h : Tracked m trackingName) (hp : Proper trackingName rel) :
    ∃ path, Manager.trackingFile? trackingName (m.resolve rel) = some path ∧
      Filed path trackingName ∧ ∀ d : Disk,
        d.placeOf path = m.home d ++ (directoryOf rel ++ [trackingName]) ∧
        (d.ClearTo path ↔ d.ClearTo m.repository.base) := by
  obtain ⟨above, habove, -, hsplit⟩ := (hp.filed m).parent
  have hdir : Path.names above = Path.names m.repository.base ++ directoryOf rel := by
    rw [hp.names_resolve, hp.directory_append, ← List.append_assoc] at hsplit
    exact (List.append_inj' hsplit rfl).1.symm
  have hback : ".." ∉ directoryOf rel :=
    fun hmem => hp.not_back (List.mem_of_mem_dropLast hmem)
  have hroot := (Path.isRooted_of_parent habove).trans (Path.isRooted_join hp.not_rooted)
  exact ⟨_, by rw [Manager.trackingFile?, habove]; rfl, h.filed_join hroot hdir hback⟩

/-- The tracking file of a directory that is given by its path. -/
theorem filed_forget (h : Tracked m trackingName) (hdir : directory = "" ∨
      ∀ n ∈ Text.splitOn '/' directory, n ≠ "" ∧ n ≠ "." ∧ n ≠ "..") :
    Filed (Path.join (m.resolve directory) trackingName) trackingName ∧ ∀ d : Disk,
      d.placeOf (Path.join (m.resolve directory) trackingName) =
        m.home d ++ (Path.names directory ++ [trackingName]) ∧
      (d.ClearTo (Path.join (m.resolve directory) trackingName) ↔ d.ClearTo m.repository.base) := by
  have hnames : Path.isRooted directory = false ∧ ".." ∉ Path.names directory := by
    rcases hdir with rfl | hdir
    · exact ⟨by decide, by decide⟩
    · refine ⟨not_rooted_of_names fun n hn => (hdir n hn).1, ?_⟩
      rw [names_of_splitOn hdir]
      exact fun hmem => (hdir _ hmem).2.2 rfl
  exact h.filed_join (Path.isRooted_join hnames.1) (Path.names_join hnames.1) hnames.2

end Tracked
end ArtifactCache
