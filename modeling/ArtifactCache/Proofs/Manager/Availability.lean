import ArtifactCache.Proofs.Manager.Registered
import ArtifactCache.Proofs.Manager.Visits

/-! Availability. An artifact may be used if it lies at one of the places where it can lie and the
record beside it says so, in whatever order the places are looked at. -/
namespace ArtifactCache

open Manager (Request Answer Visit look visitsOf recordBeside trackingFile? Arrival Recorded)

variable {m : Manager} {d : Disk} {division : Division} {trackingName file name context : String}
  {q : Request} {files : List String} {met answer : Answer} {record : Tracking.Record}
  {a : Artifact} {R S : List RemoteRepository} {verdict : Verdict}

/-- A file may be used if it was installed, if it came from one of the repositories, or if nothing is
known of it. -/
theorem Verdict.accepts_ofRecord_iff :
    (Verdict.ofRecord record name context R).accepts = true ↔
      record.contains (entryKey name installedOrigin) = true ∨
      (∃ r ∈ R, record.contains (entryKey name (r.key context)) = true) ∨
      isTracked record name = false := by
  rw [Verdict.ofRecord]
  by_cases hinstalled : record.contains (entryKey name installedOrigin) = true
  · simp [hinstalled, Verdict.accepts]
  · rw [if_neg hinstalled]
    cases hsource : Verdict.source? record name context R with
    | some r =>
      have hr := List.find?_some hsource
      have hmem := List.mem_of_find?_eq_some hsource
      simp only [Verdict.accepts, true_iff]
      exact .inr (.inl ⟨r, hmem, hr⟩)
    | none =>
      rw [Verdict.source?, List.find?_eq_none] at hsource
      have hnone : ¬ ∃ r ∈ R, record.contains (entryKey name (r.key context)) = true := by
        rintro ⟨r, hr, hkey⟩
        exact hsource r hr hkey
      by_cases htracked : isTracked record name = true
      · simp [hinstalled, hnone, htracked, Verdict.accepts]
      · simp [hinstalled, hnone, htracked, Verdict.accepts]

/-- The repository a file came from is one of those that were asked for. -/
theorem Verdict.mem_of_repository? {r : RemoteRepository}
    (h : (Verdict.ofRecord record name context R).repository? = some r) : r ∈ R := by
  rw [Verdict.ofRecord] at h
  split at h
  · cases h
  · split at h
    · rename_i s hsource
      cases h
      exact List.mem_of_find?_eq_some hsource
    · split at h <;> cases h

namespace Manager

/-- Whether a file is there and its record lets it be used. -/
def Usable (d : Disk) (trackingName : String) (q : Request) (file : String) : Prop :=
  ∃ verdict, (look d trackingName q file).verdict? = some verdict ∧ verdict.accepts = true

/-- Whether every record that is read for a request can be read. -/
def Readable (m : Manager) (d : Disk) (trackingName : String) (q : Request) : Prop :=
  ∀ v ∈ m.visits d trackingName q, v.fault? = none

theorem isFile_of_verdict (h : (look d trackingName q file).verdict? = some verdict) :
    d.isFile file = true := by
  rw [look] at h
  split at h
  · assumption
  · cases h

/-- Records can be read for a request if that is so of all places where the artifact can lie. -/
theorem readable_of_candidates
    (h : ∀ file ∈ m.candidates q, ∃ record, recordBeside d trackingName file = .ok record) :
    m.Readable d trackingName q := by
  intro v hv
  obtain ⟨file, hfile, rfl⟩ := mem_visitsOf hv
  obtain ⟨record, hrecord⟩ := h file hfile
  by_cases hthere : d.isFile file = true
  · cases hname : Path.fileName? file with
    | none => simp only [look, hthere, if_true, hname, Visit.fault?]
    | some name => simp only [look_known q hthere hname hrecord, Visit.fault?]
  · simp only [look, hthere, Bool.false_eq_true, if_false, Visit.fault?]

/-- What may be used for some repositories may be used for more of them. -/
theorem Usable.mono (h : Usable d trackingName ⟨a, R, context⟩ file) (hsub : ∀ r ∈ R, r ∈ S) :
    Usable d trackingName ⟨a, S, context⟩ file := by
  obtain ⟨verdict, hverdict, haccepts⟩ := h
  obtain ⟨name, record, hname, hrecord, rfl⟩ := verdict_of_look hverdict
  refine ⟨_, by rw [look_known _ (isFile_of_verdict hverdict) hname hrecord]; rfl, ?_⟩
  rw [Verdict.accepts_ofRecord_iff] at haccepts ⊢
  refine haccepts.imp_right (Or.imp_left ?_)
  rintro ⟨r, hr, hkey⟩
  exact ⟨r, hsub r hr, hkey⟩

theorem candidates_mono (hsub : ∀ r ∈ R, r ∈ S) (h : file ∈ m.candidates ⟨a, R, context⟩) :
    file ∈ m.candidates ⟨a, S, context⟩ := by
  rcases List.mem_append.1 h with hinstalled | hdownloaded
  · exact List.mem_append_left _ hinstalled
  · obtain ⟨r, hr, rfl⟩ := List.mem_map.1 hdownloaded
    exact List.mem_append_right _ (List.mem_map_of_mem (hsub r hr))

/-- What visits add up to may be used just when one of the places has a file that may be used. -/
theorem available_answerOf (hread : ∀ v ∈ visitsOf d trackingName q files, v.fault? = none)
    (hmet : met.available = false) :
    (answerOf (visitsOf d trackingName q files) met).available = true ↔
      ∃ file ∈ files, Usable d trackingName q file := by
  induction files generalizing met with
  | nil => simp [visitsOf, answerOf, hmet]
  | cons file files ih =>
    rw [visitsOf] at hread ⊢
    generalize hlook : look d trackingName q file = v at hread ⊢
    obtain ⟨file', finding⟩ := v
    cases finding with
    | nothing =>
      have hnot : ¬ Usable d trackingName q file := by
        rintro ⟨verdict, hverdict, -⟩
        rw [hlook] at hverdict
        cases hverdict
      have hrest := ih (fun v hv => hread v (List.mem_cons_of_mem _ hv)) hmet
      rw [List.exists_mem_cons_iff, or_iff_right hnot]
      exact hrest
    | unreadable f => cases hread _ List.mem_cons_self
    | known record verdict =>
      by_cases haccepts : verdict.accepts = true
      · have husable : Usable d trackingName q file := ⟨verdict, by rw [hlook]; rfl, haccepts⟩
        simp only [Visit.isLast, haccepts, if_true, answerOf_known, List.exists_mem_cons_iff,
          husable, true_or, iff_true]
        rfl
      · have hnot : ¬ Usable d trackingName q file := by
          rintro ⟨verdict', hverdict, haccepts'⟩
          rw [hlook] at hverdict
          cases hverdict
          exact haccepts haccepts'
        simp only [Visit.isLast, haccepts, Bool.false_eq_true, if_false] at hread ⊢
        have hforeign : verdict.accepts = false := by simpa using haccepts
        rw [answerOf_known, ih (fun v hv => hread v (List.mem_cons_of_mem _ hv)) hforeign,
          List.exists_mem_cons_iff, or_iff_right hnot]

/-- A request is answered if every record that is read for it can be read. -/
theorem find_eq_ok_iff (hmode : m.mode = .enhanced division trackingName) :
    m.find d q = .ok answer ↔
      m.Readable d trackingName q ∧ answer = answerOf (m.visits d trackingName q) {} := by
  rw [find_enhanced hmode, conclude_eq, Readable, ← List.findSome?_eq_none_iff]
  cases (m.visits d trackingName q).findSome? Visit.fault? with
  | some f => simp
  | none => simp [eq_comm]

theorem available_iff (hread : m.Readable d trackingName q) :
    (answerOf (m.visits d trackingName q) {}).available = true ↔
      ∃ file ∈ m.candidates q, Usable d trackingName q file :=
  available_answerOf hread rfl

/-- Whether an artifact may be used does not depend on the order in which repositories are named, and
what may be used for some of them may be used for more. A file that may be used is there, and the
repository it comes from is one of those that were named. -/
theorem find_available (hmode : m.mode = .enhanced division trackingName) (d : Disk) :
    (∀ a context R S, (∀ r ∈ R, r ∈ S) → m.Readable d trackingName ⟨a, S, context⟩ →
      ∀ answer, m.find d ⟨a, R, context⟩ = .ok answer → answer.available = true →
        ∃ answer', m.find d ⟨a, S, context⟩ = .ok answer' ∧ answer'.available = true) ∧
    (∀ a context R S, (∀ r, r ∈ R ↔ r ∈ S) →
      ∀ answer answer', m.find d ⟨a, R, context⟩ = .ok answer →
        m.find d ⟨a, S, context⟩ = .ok answer' → answer.available = answer'.available) ∧
    ∀ q answer, m.find d q = .ok answer → answer.available = true →
      ∃ file, answer.path = some file ∧ d.isFile file = true ∧
        ∀ r, answer.repository = some r → r ∈ q.repositories := by
  have hmono : ∀ {a context R S}, (∀ r ∈ R, r ∈ S) → m.Readable d trackingName ⟨a, S, context⟩ →
      m.Readable d trackingName ⟨a, R, context⟩ →
      (answerOf (m.visits d trackingName ⟨a, R, context⟩) {}).available = true →
      (answerOf (m.visits d trackingName ⟨a, S, context⟩) {}).available = true := by
    intro a context R S hsub hS hR havailable
    obtain ⟨file, hfile, husable⟩ := (available_iff hR).1 havailable
    exact (available_iff hS).2 ⟨file, candidates_mono hsub hfile, husable.mono hsub⟩
  refine ⟨?_, ?_, ?_⟩
  · intro a context R S hsub hS answer hfind havailable
    obtain ⟨hR, rfl⟩ := (find_eq_ok_iff hmode).1 hfind
    exact ⟨_, (find_eq_ok_iff hmode).2 ⟨hS, rfl⟩, hmono hsub hS hR havailable⟩
  · intro a context R S hsame answer answer' hfind hfind'
    obtain ⟨hR, rfl⟩ := (find_eq_ok_iff hmode).1 hfind
    obtain ⟨hS, rfl⟩ := (find_eq_ok_iff hmode).1 hfind'
    rw [Bool.eq_iff_iff]
    exact ⟨hmono (fun r => (hsame r).1) hS hR, hmono (fun r => (hsame r).2) hR hS⟩
  · intro q answer hfind havailable
    obtain ⟨hread, heq⟩ := (find_eq_ok_iff hmode).1 hfind
    obtain ⟨path, available, repository⟩ := answer
    cases path with
    | none =>
      -- Nothing was met, so nothing is available.
      rw [answerOf] at heq
      split at heq
      · cases heq
        cases havailable
      · cases heq
    | some file =>
      rw [find_enhanced hmode] at hfind
      obtain ⟨v, hv, rfl, verdict, hverdict, -, hrepository⟩ := exists_of_conclude hfind
      obtain ⟨file, -, rfl⟩ := mem_visitsOf hv
      refine ⟨_, rfl, ?_, ?_⟩
      · rw [look_file]
        exact isFile_of_verdict hverdict
      · intro r hr
        obtain ⟨name, record, -, -, rfl⟩ := verdict_of_look hverdict
        exact Verdict.mem_of_repository? (hrepository.trans hr)

theorem find_available_central :
    let m : Manager := ⟨⟨"/r", "enhanced"⟩, .enhanced .flat "t"⟩
    let a : Artifact := ⟨"g", "a", "", "jar", "1-SNAPSHOT"⟩
    let central : RemoteRepository := { id := "central", url := "https://repo" }
    let other : RemoteRepository := { id := "other", url := "https://other" }
    let x : Arrival := ⟨a, some central, [""]⟩
    let d := Disk.single ["r", "g", "a", "1-SNAPSHOT", "a-1-SNAPSHOT.jar"] (.text "")
    (∀ r ∈ [central], r ∈ [other, central]) ∧
      m.Readable (m.add d x).disk "t" ⟨a, [other, central], ""⟩ ∧
      ∃ answer answer', m.find (m.add d x).disk ⟨a, [central], ""⟩ = .ok answer ∧
        m.find (m.add d x).disk ⟨a, [other, central], ""⟩ = .ok answer' ∧
        answer.available = true ∧ answer'.available = true := by
  intro m a central other x d
  obtain ⟨hd, hfile, hp, hnew, -⟩ := prepared_single
  have hpath : trackingFile? "t" "/r/g/a/1-SNAPSHOT/a-1-SNAPSHOT.jar" =
    some "/r/g/a/1-SNAPSHOT/t" := by decide
  have hname : Path.fileName? "/r/g/a/1-SNAPSHOT/a-1-SNAPSHOT.jar" = some "a-1-SNAPSHOT.jar" := by
    decide
  have hdownloaded : m.resolve (m.downloadedPath a central) =
    "/r/g/a/1-SNAPSHOT/a-1-SNAPSHOT.jar" := by decide
  have hadd : m.add d x =
      register d "t" "/r/g/a/1-SNAPSHOT/a-1-SNAPSHOT.jar" ["central"] := by
    rw [← hdownloaded]
    exact add_downloaded rfl d a central ""
  obtain ⟨hok, hback⟩ := register_recorded hpath hname hp hnew ["central"] (by decide)
  rw [← hadd] at hok hback
  have hthere := (add_lasts hd hok).isFile hfile
  generalize (m.add d x).disk = d' at hthere hback ⊢
  obtain ⟨name, record, hname', hrecord, hcentral⟩ := hback "central" List.mem_cons_self
  have hreadable : ∀ q, (∀ file ∈ m.candidates q, file = "/r/g/a/1-SNAPSHOT/a-1-SNAPSHOT.jar") →
      m.Readable d' "t" q := by
    intro q hq
    apply readable_of_candidates
    intro file hmem
    exact ⟨some record, hq file hmem ▸ hrecord⟩
  have husable : Usable d' "t" ⟨a, [central], ""⟩ "/r/g/a/1-SNAPSHOT/a-1-SNAPSHOT.jar" := by
    refine ⟨_, by rw [look_known _ hthere hname' hrecord]; rfl, ?_⟩
    exact Verdict.accepts_ofRecord_iff.2 (.inr (.inl ⟨central, List.mem_cons_self, hcentral⟩))
  have hcentral := hreadable ⟨a, [central], ""⟩ (by decide)
  have hboth := hreadable ⟨a, [other, central], ""⟩ (by decide)
  have hfind := (find_eq_ok_iff rfl).2 ⟨hcentral, rfl⟩
  have havailable := (available_iff hcentral).2 ⟨_, by decide, husable⟩
  have hsub : ∀ r ∈ [central], r ∈ [other, central] := by decide
  obtain ⟨hmono, -, -⟩ := find_available (m := m) rfl d'
  obtain ⟨answer', hfind', havailable'⟩ := hmono a "" _ _ hsub hboth _ hfind havailable
  exact ⟨hsub, hboth, _, answer', hfind, hfind', havailable, havailable'⟩

end Manager
end ArtifactCache
