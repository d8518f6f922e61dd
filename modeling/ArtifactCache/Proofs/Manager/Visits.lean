import ArtifactCache.Proofs.Manager.Refinement

/-! Visits. What is answered to a request was met at one of the places that were looked at, and it
is what the record beside the file says. -/
namespace ArtifactCache.Manager

variable {m : Manager} {division : Division} {d : Disk} {trackingName file : String} {q : Request}
  {files : List String} {v w : Visit} {vs ws : List Visit}

/-- What visits add up to, after what has been met before them. -/
def answerOf (vs : List Visit) (met : Answer) : Answer :=
  match (vs.filterMap fun v => v.verdict?.map fun verdict => (v.file, verdict)).getLast? with
  | none => met
  | some (file, verdict) =>
    { path := some file, available := verdict.accepts, repository := verdict.repository? }

theorem conclude_eq (vs : List Visit) : conclude vs =
    match vs.findSome? Visit.fault? with
    | some f => .error f
    | none => .ok (answerOf vs {}) := by
  rw [conclude, answerOf]
  cases vs.findSome? Visit.fault? with
  | some f => rfl
  | none =>
    simp only
    cases (vs.filterMap fun v => v.verdict?.map fun verdict => (v.file, verdict)).getLast? <;> rfl

theorem answerOf_known (file : String) (record : Option Tracking.Record) (verdict : Verdict)
    (vs : List Visit) (met : Answer) :
    answerOf (⟨file, .known record verdict⟩ :: vs) met = answerOf vs
      { path := some file, available := verdict.accepts, repository := verdict.repository? } := by
  have hmet : (⟨file, .known record verdict⟩ :: vs).filterMap
      (fun v : Visit => v.verdict?.map fun verdict => (v.file, verdict)) = (file, verdict) ::
        vs.filterMap fun v => v.verdict?.map fun verdict => (v.file, verdict) := rfl
  rw [answerOf, answerOf, hmet, List.getLast?_cons]
  cases (vs.filterMap fun v => v.verdict?.map fun verdict => (v.file, verdict)).getLast? <;> rfl

theorem find_enhanced (hmode : m.mode = .enhanced division trackingName) (d : Disk) (q : Request) :
    m.find d q = conclude (m.visits d trackingName q) := by
  rw [find, hmode]

/-- A visit is a look at one of the places. -/
theorem mem_visitsOf (h : v ∈ visitsOf d trackingName q files) :
    ∃ file ∈ files, v = look d trackingName q file := by
  induction files with
  | nil => cases h
  | cons file files ih =>
    rw [visitsOf] at h
    have hrest : v ∈ visitsOf d trackingName q files →
        ∃ file' ∈ file :: files, v = look d trackingName q file' := by
      intro hv
      obtain ⟨file', hfile', hlook⟩ := ih hv
      exact ⟨file', List.mem_cons_of_mem _ hfile', hlook⟩
    split at h
    · exact ⟨file, List.mem_cons_self, List.mem_singleton.1 h⟩
    · rcases List.mem_cons.1 h with rfl | hv
      · exact ⟨file, List.mem_cons_self, rfl⟩
      · exact hrest hv

/-- What is answered was met. -/
theorem exists_of_conclude {available : Bool} {source : Option RemoteRepository}
    (h : conclude vs = .ok ⟨some file, available, source⟩) :
    ∃ v ∈ vs, v.file = file ∧ ∃ verdict, v.verdict? = some verdict ∧
      verdict.accepts = available ∧ verdict.repository? = source := by
  rw [conclude_eq] at h
  split at h
  · cases h
  rw [answerOf] at h
  split at h
  · cases h
  · rename_i met verdict hlast
    cases h
    obtain ⟨v, hv, hmet⟩ := List.mem_filterMap.1 (List.mem_of_getLast? hlast)
    obtain ⟨verdict', hverdict, hpair⟩ := Option.map_eq_some_iff.1 hmet
    cases hpair
    exact ⟨v, hv, rfl, verdict, hverdict, rfl, rfl⟩

/-- What is known of a file is what its record says of it. -/
theorem verdict_of_look {verdict : Verdict}
    (h : (look d trackingName q file).verdict? = some verdict) :
    ∃ name record, Path.fileName? file = some name ∧ recordBeside d trackingName file = .ok record ∧
      verdict = .ofRecord (record.getD .empty) name q.context q.repositories := by
  rw [look] at h
  split at h
  · cases hname : Path.fileName? file with
    | none =>
      rw [hname] at h
      cases h
    | some name =>
      cases hrecord : recordBeside d trackingName file with
      | error f =>
        simp only [hname, hrecord] at h
        cases h
      | ok record =>
        simp only [hname, hrecord] at h
        cases h
        exact ⟨name, record, rfl, rfl, rfl⟩
  · cases h

theorem look_known {name : String} {record : Option Tracking.Record} (q : Request)
    (hfile : d.isFile file = true) (hname : Path.fileName? file = some name)
    (hrecord : recordBeside d trackingName file = .ok record) :
    look d trackingName q file = ⟨file, .known record
      (.ofRecord (record.getD .empty) name q.context q.repositories)⟩ := by
  simp only [look, hfile, if_true, hname, hrecord]

theorem look_file (d : Disk) (trackingName : String) (q : Request) (file : String) :
    (look d trackingName q file).file = file := by
  rw [look]
  split
  · split
    · rfl
    · split <;> rfl
  · rfl

/-- Whether a file was met that is tracked. -/
def Visit.FindsTracked (v : Visit) : Prop := ∃ verdict, v.verdict? = some verdict ∧ verdict ≠ .untracked

/-- A visit to a file that is there, in a directory. -/
structure Visit.Meets (v : Visit) (m : Manager) (d : Disk) (trackingName : String) (q : Request)
    (directory name : String) : Prop where
  visited : v ∈ m.visits d trackingName q
  isFile : d.isFile v.file = true
  lies : Path.LiesIn v.file directory name

theorem recordBeside_of_liesIn {directory name : String} (h : Path.LiesIn file directory name)
    (d : Disk) (trackingName : String) :
    recordBeside d trackingName file = Tracking.read d (Path.join directory trackingName) := by
  rw [recordBeside, trackingFile?, h.parent]
  rfl

/-- A file that is met is tracked if the tracking file in its directory says so. -/
theorem Visit.Meets.findsTracked_iff {directory name : String}
    (h : v.Meets m d trackingName q directory name) : v.FindsTracked ↔ ∃ r : Tracking.Record,
      Tracking.read d (Path.join directory trackingName) = .ok (some r) ∧
        isTracked r name = true := by
  obtain ⟨file, -, rfl⟩ := mem_visitsOf h.visited
  have hlies := h.lies
  have hfile := h.isFile
  rw [look_file] at hlies hfile
  rw [← recordBeside_of_liesIn hlies]
  constructor
  · rintro ⟨verdict, hverdict, htracked⟩
    obtain ⟨name', record, hname, hrecord, rfl⟩ := verdict_of_look hverdict
    cases hname.symm.trans hlies.fileName
    rw [ne_eq, Verdict.ofRecord_eq_untracked_iff, Bool.not_eq_false] at htracked
    cases record with
    | none => cases htracked
    | some r => exact ⟨r, hrecord, htracked⟩
  · rintro ⟨r, hrecord, htracked⟩
    rw [look_known q hfile hlies.fileName hrecord]
    refine ⟨_, rfl, ?_⟩
    rw [ne_eq, Verdict.ofRecord_eq_untracked_iff, Bool.not_eq_false]
    exact htracked

theorem isFile_of_look {verdict : Verdict}
    (h : (look d trackingName q file).verdict? = some verdict) : d.isFile file = true := by
  rw [look] at h
  split at h
  · assumption
  · cases h

/-- A file that is turned down, or that is said to come from somewhere, is tracked. -/
theorem isTracked_of_find {directory name : String} {available : Bool}
    {source : Option RemoteRepository} (hmode : m.mode = .enhanced division trackingName)
    (h : m.find d q = .ok ⟨some file, available, source⟩) (hlies : Path.LiesIn file directory name)
    (hsaid : available = false ∨ source ≠ none) : ∃ r : Tracking.Record,
      Tracking.read d (Path.join directory trackingName) = .ok (some r) ∧
        isTracked r name = true := by
  rw [find_enhanced hmode] at h
  obtain ⟨v, hv, rfl, verdict, hverdict, haccepts, hsource⟩ := exists_of_conclude h
  have hfile : d.isFile v.file = true := by
    obtain ⟨file, -, rfl⟩ := mem_visitsOf hv
    rw [look_file]
    exact isFile_of_look hverdict
  have hmeets : v.Meets m d trackingName q directory name := ⟨hv, hfile, hlies⟩
  refine hmeets.findsTracked_iff.1 ⟨verdict, hverdict, ?_⟩
  rintro rfl
  rcases hsaid with rfl | hne
  · cases haccepts
  · exact hne hsource.symm

/-- The first place that is looked at is the last one if its file may be used. -/
theorem find_of_first {record : Option Tracking.Record} {verdict : Verdict}
    (hmode : m.mode = .enhanced division trackingName) (hcandidates : m.candidates q = file :: files)
    (hlook : look d trackingName q file = ⟨file, .known record verdict⟩)
    (haccepts : verdict.accepts = true) :
    m.find d q = .ok ⟨some file, true, verdict.repository?⟩ := by
  rw [find_enhanced hmode, visits, hcandidates]
  simp only [visitsOf, hlook, Visit.isLast, haccepts, if_true]
  rw [← haccepts]
  rfl

theorem visits_of_only (d : Disk) (trackingName : String) (h : m.candidates q = [file]) :
    m.visits d trackingName q = [look d trackingName q file] := by
  rw [visits, h]
  simp only [visitsOf, ite_self]

theorem find_of_only {record : Option Tracking.Record} {verdict : Verdict}
    (hmode : m.mode = .enhanced division trackingName) (hcandidates : m.candidates q = [file])
    (hlook : look d trackingName q file = ⟨file, .known record verdict⟩) :
    m.find d q = .ok ⟨some file, verdict.accepts, verdict.repository?⟩ := by
  rw [find_enhanced hmode, visits_of_only d trackingName hcandidates, hlook]
  rfl

/-- An artifact that may be used has been met. -/
theorem path_of_available {answer : Answer} (h : conclude vs = .ok answer)
    (havailable : answer.available = true) : ∃ file, answer.path = some file := by
  rw [conclude_eq] at h
  split at h
  · cases h
  rw [answerOf] at h
  split at h
  · cases h
    cases havailable
  · cases h
    exact ⟨_, rfl⟩

/-- Whether two visits to a file come to the same, whatever else its record says. -/
structure Visit.Agrees (v w : Visit) : Prop where
  file : v.file = w.file
  fault : v.fault? = w.fault?
  verdict : v.verdict? = w.verdict?

theorem Visit.Agrees.isLast (h : v.Agrees w) : v.isLast = w.isLast := by
  have hlast : ∀ u : Visit, u.isLast = (u.fault?.isSome || u.verdict?.any Verdict.accepts) := by
    rintro ⟨file, finding⟩
    cases finding <;> rfl
  rw [hlast, hlast, h.fault, h.verdict]

/-- Visits to a file agree if it is there for both and its records say the same of it. -/
theorem look_agrees {d' : Disk} (hfile : d'.isFile file = d.isFile file)
    (hrecord : d.isFile file = true → ∀ name, Path.fileName? file = some name → ∃ record record',
      recordBeside d trackingName file = .ok record ∧
      recordBeside d' trackingName file = .ok record' ∧
      Verdict.ofRecord (record'.getD .empty) name q.context q.repositories =
        .ofRecord (record.getD .empty) name q.context q.repositories) :
    (look d' trackingName q file).Agrees (look d trackingName q file) := by
  refine ⟨by rw [look_file, look_file], ?_, ?_⟩
  all_goals
    rw [look, look, hfile]
    by_cases hthere : d.isFile file = true
    · rw [if_pos hthere, if_pos hthere]
      cases hname : Path.fileName? file with
      | none => rfl
      | some name =>
        obtain ⟨record, record', hr, hr', hverdict⟩ := hrecord hthere name hname
        simp only [hr, hr', hverdict]
        rfl
    · rw [if_neg hthere, if_neg hthere]

/-- Visits that agree go on for as long as each other. -/
theorem visitsOf_agrees {d' : Disk}
    (h : ∀ file ∈ files, (look d' trackingName q file).Agrees (look d trackingName q file)) :
    List.Forall₂ Visit.Agrees (visitsOf d' trackingName q files)
      (visitsOf d trackingName q files) := by
  induction files with
  | nil => exact .nil
  | cons file files ih =>
    have hfirst := h file List.mem_cons_self
    have hrest := ih fun file' hfile' => h file' (List.mem_cons_of_mem _ hfile')
    rw [visitsOf, visitsOf, hfirst.isLast]
    split
    · exact .cons hfirst .nil
    · exact .cons hfirst hrest

theorem conclude_congr (h : List.Forall₂ Visit.Agrees vs ws) : conclude vs = conclude ws := by
  have hsame : vs.findSome? Visit.fault? = ws.findSome? Visit.fault? ∧
      (vs.filterMap fun v => v.verdict?.map fun verdict => (v.file, verdict)) =
        ws.filterMap fun v => v.verdict?.map fun verdict => (v.file, verdict) := by
    induction h with
    | nil => exact ⟨rfl, rfl⟩
    | cons hfirst _ ih =>
      rw [List.findSome?_cons, List.findSome?_cons, List.filterMap_cons, List.filterMap_cons,
        hfirst.file, hfirst.fault, hfirst.verdict, ih.1, ih.2]
      exact ⟨rfl, rfl⟩
  rw [conclude, conclude, hsame.1, hsame.2]

end ArtifactCache.Manager
