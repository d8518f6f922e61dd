import ArtifactCache.Proofs.Manager.Registered
import ArtifactCache.Proofs.Manager.Visits
import ArtifactCache.Proofs.Tracking.Elsewhere

/-! Files beside each other. The origins of all files of a directory are in one record, but those
of one file say nothing of another one, as long as no key of the one begins as the keys of the
other. -/
namespace ArtifactCache

open Tracking (Record Storable Legible Updated Settled)
open Manager (Arrival Request Recorded originChanges arrivalOrigins trackingFile? recordBeside look)

variable {m : Manager} {d d' : Disk} {trackingName path name name' context : String}
  {x : Arrival} {q : Request} {place : Place} {old r : Record} {origins : List String}
  {repositories : List RemoteRepository}

/-- What a record says of a file does not depend on keys that do not begin as keys of that file. -/
theorem Verdict.ofRecord_apply
    (h : ∀ o ∈ origins, Text.startsWith (entryKey name o) (name' ++ ">") = false) :
    Verdict.ofRecord (old.apply (originChanges name origins)) name' context repositories =
      .ofRecord old name' context repositories := by
  have hkept : ∀ key, Text.startsWith key (name' ++ ">") = true →
      (old.apply (originChanges name origins)).get? key = old.get? key := by
    intro key hkey
    rw [Tracking.get?_apply, get?_originChanges, if_neg]
    · rfl
    · rintro ⟨o, ho, rfl⟩
      rw [h o ho] at hkey
      cases hkey
  have hcontains : ∀ o, (old.apply (originChanges name origins)).contains (entryKey name' o) =
      old.contains (entryKey name' o) := by
    intro o
    rw [KeyMap.contains, KeyMap.contains, hkept _ (startsWith_entryKey_self name' o)]
  have htracked : isTracked (old.apply (originChanges name origins)) name' =
      isTracked old name' := by
    rw [Bool.eq_iff_iff, isTracked, isTracked, List.any_eq_true, List.any_eq_true]
    refine exists_congr fun key => and_congr_left fun hkey => ?_
    rw [← KeyMap.get?_isSome_iff_mem_keys, ← KeyMap.get?_isSome_iff_mem_keys, hkept key hkey]
  simp only [Verdict.ofRecord, Verdict.source?, hcontains, htracked]

namespace Manager

/-- Whether nothing that is recorded of one file is about another one: that is not the tracking
file, and if it has the same record, no key of the first file begins as its own keys do. -/
structure Apart (d : Disk) (trackingName : String) (origins : List String) (file other : String) :
    Prop where
  place : ∀ path, trackingFile? trackingName file = some path → ¬ d.Meets other path
  keys : ∀ path path' name name', trackingFile? trackingName file = some path →
    trackingFile? trackingName other = some path' → d.Meets path' path →
    Path.fileName? file = some name → Path.fileName? other = some name' →
    ∀ o ∈ origins, Text.startsWith (entryKey name o) (name' ++ ">") = false

/-- The way to the tracking file beside a file goes as straight as the way to the file. -/
theorem trackingFile_straight (ht : Tracked m trackingName) {file : String}
    (h : trackingFile? trackingName file = some path) (hback : ".." ∉ Path.names file) :
    ".." ∉ Path.names path := by
  obtain ⟨above, habove, rfl⟩ := Option.map_eq_some_iff.1 h
  obtain ⟨n, -, hnames⟩ := Path.names_of_parent habove
  rw [Path.names_join ht.name_not_rooted, ht.names_name, List.mem_append, List.mem_singleton,
    not_or]
  refine ⟨fun hmem => hback ?_, ht.plain.ne_back.symm⟩
  rw [hnames]
  exact List.mem_append_left _ hmem

/-- Origins that are on record have keys that come back, if that is so of all that was in the record
before. -/
theorem storable_of_recorded {file : String}
    (hu : Updated d path place (originChanges name origins) old r d')
    (hpath : trackingFile? trackingName file = some path) (hname : Path.fileName? file = some name)
    (hold : ∀ e ∈ old.entries, Storable e.1 e.2)
    (hback : ∀ o ∈ origins, Recorded d' trackingName file o) :
    ∀ o ∈ origins, Storable (entryKey name o) "" := by
  intro o ho
  obtain ⟨name', m, hname', hrecord, hcontains⟩ := hback o ho
  cases hname.symm.trans hname'
  rw [recordBeside, hpath] at hrecord
  obtain ⟨value, hvalue⟩ := Option.isSome_iff_exists.1 hcontains
  have hentry := Tracking.read_trimmed hrecord _ ((KeyMap.mem_entries_iff m).2 hvalue)
  have hnew : ∀ k v, (originChanges name origins).get? k = some (some v) → Legible k v := by
    intro k v hk
    obtain ⟨o', -, rfl, rfl⟩ := exists_of_originChanges hk
    exact legible_entryKey hentry.legible o'
  have hlegible : ∀ e ∈ r.entries, Legible e.1 e.2 := by
    refine hu.rewritten.forall_entries (fun e he => (hold e he).trimmed.legible) hnew ?_
    intro r m hr hread e he
    exact (Tracking.of_parse_render hr hread ((KeyMap.mem_entries_iff m).1 he)).1.trimmed.legible
  obtain ⟨hstorable, -⟩ := Tracking.of_parse_render hlegible (hu.parse_of_read hrecord) hvalue
  exact ⟨⟨hstorable.trimmed.key_ne, hstorable.trimmed.key_trim, rfl⟩, hstorable.head,
    hstorable.key_unfed, by decide⟩

/-- What a registration that succeeded wrote, if what it wrote came back: the record that was there
with the origins of the file. -/
theorem read_add (hu : Updated d path place (originChanges name origins) old r d')
    (hold : ∀ e ∈ old.entries, Storable e.1 e.2)
    (horigins : ∀ o ∈ origins, Storable (entryKey name o) "") :
    Tracking.read d' path = .ok (some (old.apply (originChanges name origins))) := by
  have hall : ∀ e ∈ (old.apply (originChanges name origins)).entries, Storable e.1 e.2 := by
    apply Tracking.forall_apply hold
    intro k v hk
    obtain ⟨o, ho, rfl, rfl⟩ := exists_of_originChanges hk
    exact horigins o ho
  rw [hu.read_eq, hu.rewritten.eq_apply hall, Tracking.load_render hall]
  rfl

/-- A registration whose origins are on record then changes nothing of what is found apart from its
file, as long as records can be read and the directories it makes open no way to other files. -/
theorem find_add_apart (ht : Tracked m trackingName) (hd : d.IsTree)
    (hok : (m.add d x).fault = none)
    (hback : ∀ o ∈ arrivalOrigins x, Recorded (m.add d x).disk trackingName (m.arrivalFile x) o)
    (hold : ∀ path old, trackingFile? trackingName (m.arrivalFile x) = some path →
      Tracking.read (d.makeParents path).1 path = .ok (some old) →
        ∀ e ∈ old.entries, Storable e.1 e.2)
    (hsettled : ∀ path, trackingFile? trackingName (m.arrivalFile x) = some path →
      (d.makeParents path).1 = d ∨ d.Straight ∧ ∀ file ∈ m.candidates q, ".." ∉ Path.names file)
    (hreadable : ∀ file ∈ m.candidates q, d.isFile file = true →
      (∃ record, recordBeside d trackingName file = .ok record) ∧
        ∃ record, recordBeside (m.add d x).disk trackingName file = .ok record)
    (hapart : ∀ file ∈ m.candidates q, Apart (m.add d x).disk trackingName (arrivalOrigins x)
      (m.arrivalFile x) file) :
    m.find (m.add d x).disk q = m.find d q := by
  obtain ⟨division, hmode⟩ := ht.mode
  rcases add_updated hd hmode hok with hsame | ⟨path, name, place, old, r, hpath, hname, hu⟩
  · rw [hsame]
  generalize (m.add d x).disk = d' at hback hreadable hapart hu ⊢
  have hprior := hu.forall_old fun old => hold path old hpath
  have hread := read_add hu hprior (storable_of_recorded hu hpath hname hprior hback)
  rw [find_enhanced hmode, find_enhanced hmode]
  apply conclude_congr
  apply visitsOf_agrees
  intro file hfile
  have hway : ∀ other, (".." ∉ Path.names file → ".." ∉ Path.names other) →
      Settled d path other := by
    intro other hother
    exact (hsettled path hpath).imp_right fun ⟨hstraight, hnames⟩ =>
      ⟨hstraight, hother (hnames file hfile)⟩
  have hthere := hu.isFile_eq hd (hway file id) ((hapart file hfile).place path hpath)
  refine look_agrees hthere ?_
  intro hisFile name' hname'
  obtain ⟨⟨record, hrecord⟩, record', hrecord'⟩ := hreadable file hfile hisFile
  refine ⟨record, record', hrecord, hrecord', ?_⟩
  cases hpath' : trackingFile? trackingName file with
  | none =>
    rw [recordBeside, hpath'] at hrecord hrecord'
    cases hrecord
    cases hrecord'
    rfl
  | some path' =>
    rw [recordBeside, hpath'] at hrecord hrecord'
    -- The file has another record, which is as it was, or shares the one that was written.
    rcases hu.read_cases hd (hway path' (trackingFile_straight ht hpath')) hrecord hrecord' with
      rfl | ⟨hmeets, rfl, hshared⟩
    · rfl
    · cases hread.symm.trans hshared
      have hkeys := (hapart file hfile).keys path path' name name' hpath hpath' hmeets hname hname'
      exact Verdict.ofRecord_apply hkeys

/-- Files beside each other are apart if their names differ and hold no mark. -/
theorem apart_of_names {file other : String}
    (hplace : ∀ path, trackingFile? trackingName file = some path → ¬ d.Meets other path)
    (hname : Path.fileName? file = some name) (hname' : Path.fileName? other = some name')
    (hmark : '>' ∉ name.toList) (hmark' : '>' ∉ name'.toList) (hne : name ≠ name') :
    Apart d trackingName origins file other := by
  refine ⟨hplace, ?_⟩
  rintro _ _ _ _ - - - hn hn' o -
  cases hname.symm.trans hn
  cases hname'.symm.trans hn'
  rw [Bool.eq_false_iff, ne_eq, startsWith_entryKey hmark' hmark]
  exact hne

theorem find_add_apart_pom :
    let m : Manager := ⟨⟨"/r", "enhanced"⟩, .enhanced .flat "t"⟩
    let jar : Artifact := ⟨"g", "a", "", "jar", "1-SNAPSHOT"⟩
    let pom : Artifact := ⟨"g", "a", "", "pom", "1-SNAPSHOT"⟩
    let central : RemoteRepository := { id := "central", url := "https://repo" }
    let x : Arrival := ⟨pom, some central, [""]⟩
    let q : Request := ⟨jar, [central], ""⟩
    let d := Disk.single ["r", "g", "a", "1-SNAPSHOT", "a-1-SNAPSHOT.jar"] (.text "")
    Tracked m "t" ∧ d.IsTree ∧ (m.add d x).fault = none ∧
      Recorded (m.add d x).disk "t" (m.arrivalFile x) "central" ∧
      m.find (m.add d x).disk q = m.find d q := by
  intro m jar pom central x q d
  have ht : Tracked m "t" := ⟨⟨.flat, rfl⟩, by decide⟩
  obtain ⟨hd, hfile, hp, hnew, hnone⟩ := prepared_single
  have hpath : trackingFile? "t" (m.arrivalFile x) = some "/r/g/a/1-SNAPSHOT/t" := by decide
  have hname : Path.fileName? (m.arrivalFile x) = some "a-1-SNAPSHOT.pom" := by decide
  have hjarName : Path.fileName? "/r/g/a/1-SNAPSHOT/a-1-SNAPSHOT.jar" =
    some "a-1-SNAPSHOT.jar" := by decide
  have hadd : m.add d x = register d "t" (m.arrivalFile x) ["central"] :=
    add_downloaded rfl d pom central ""
  obtain ⟨hok, hback⟩ := register_recorded hpath hname hp hnew ["central"] (by decide)
  rw [← hadd] at hok hback
  have hcentral := hback "central" List.mem_cons_self
  have hleads : (m.add d x).disk.locate "/r/g/a/1-SNAPSHOT/t" =
      .ok ⟨["r", "g", "a", "1-SNAPSHOT", "t"], false⟩ := by
    rw [hadd, register_eq hpath hname hp hnew]
    exact hp.keep_leads _
  have hcandidates : ∀ file ∈ m.candidates q,
      file = "/r/g/a/1-SNAPSHOT/a-1-SNAPSHOT.jar" := by decide
  have hbeside : trackingFile? "t" "/r/g/a/1-SNAPSHOT/a-1-SNAPSHOT.jar" =
    some "/r/g/a/1-SNAPSHOT/t" := by decide
  refine ⟨ht, hd, hok, hcentral, find_add_apart ht hd hok hback ?_ ?_ ?_ ?_⟩
  · intro path old hpath' hread
    cases hpath.symm.trans hpath'
    have hsame : (d.makeParents "/r/g/a/1-SNAPSHOT/t").1 = d := congrArg Prod.fst hp.parents
    rw [hsame, hnone] at hread
    cases hread
  · intro path hpath'
    cases hpath.symm.trans hpath'
    exact .inl (congrArg Prod.fst hp.parents)
  · intro file hcandidate _
    obtain ⟨-, record, -, hrecord, -⟩ := hcentral
    rw [recordBeside, hpath] at hrecord
    rw [hcandidates file hcandidate, recordBeside, recordBeside, hbeside]
    exact ⟨⟨none, hnone⟩, some record, hrecord⟩
  · intro file hcandidate
    rw [hcandidates file hcandidate]
    refine apart_of_names ?_ hname hjarName (by decide) (by decide) (by decide)
    rintro path hpath' ⟨spot, spot', hl, hl', hsame⟩
    cases hpath.symm.trans hpath'
    -- The jar lies where it lay before, and there was no tracking file before.
    obtain ⟨p, content, hjar, hat⟩ := Disk.isFile_iff_locate.1 hfile
    cases hl.symm.trans ((add_lasts hd hok).locate hjar (by simp [hat]))
    cases hl'.symm.trans hleads
    have hempty : d.at? ["r", "g", "a", "1-SNAPSHOT", "t"] = none := by decide
    have hplace : p = ["r", "g", "a", "1-SNAPSHOT", "t"] := hsame
    rw [hplace, hempty] at hat
    cases hat

/-- The note where a file was downloaded from whose name goes on behind a mark is taken for one
about the file whose name ends before the mark. -/
theorem find_add_marked :
    let m : Manager := ⟨⟨"/r", "enhanced"⟩, .enhanced .flat "t"⟩
    let jar : Artifact := ⟨"g", "a", "", "jar", "1-SNAPSHOT"⟩
    let marked : Artifact := ⟨"g", "a", "", "jar>x", "1-SNAPSHOT"⟩
    let central : RemoteRepository := { id := "central", url := "https://repo" }
    let other : RemoteRepository := { id := "other", url := "https://other" }
    let x : Arrival := ⟨marked, some central, [""]⟩
    let q : Request := ⟨jar, [other], ""⟩
    let d := Disk.single ["r", "g", "a", "1-SNAPSHOT", "a-1-SNAPSHOT.jar"] (.text "")
    let file := "/r/g/a/1-SNAPSHOT/a-1-SNAPSHOT.jar"
    d.IsTree ∧ (m.add d x).fault = none ∧
      Recorded (m.add d x).disk "t" (m.arrivalFile x) "central" ∧
      m.candidates q = [file, file] ∧ m.arrivalFile x ∉ m.candidates q ∧
      m.find d q = .ok ⟨some file, true, none⟩ ∧
      m.find (m.add d x).disk q = .ok ⟨some file, false, none⟩ := by
  intro m jar marked central other x q d file
  obtain ⟨hd, hfile, hp, hnew, hnone⟩ := prepared_single
  have hpath : trackingFile? "t" (m.arrivalFile x) = some "/r/g/a/1-SNAPSHOT/t" := by decide
  have hname : Path.fileName? (m.arrivalFile x) = some "a-1-SNAPSHOT.jar>x" := by decide
  have hadd : m.add d x = register d "t" (m.arrivalFile x) ["central"] :=
    add_downloaded rfl d marked central ""
  obtain ⟨hok, hback⟩ := register_recorded hpath hname hp hnew ["central"] (by decide)
  rw [← hadd] at hok hback
  have hcentral := hback "central" List.mem_cons_self
  have hcandidates : m.candidates q = [file, file] := by decide
  have hbeside : trackingFile? "t" file = some "/r/g/a/1-SNAPSHOT/t" := by decide
  have hjar : Path.fileName? file = some "a-1-SNAPSHOT.jar" := by decide
  have hbefore : recordBeside d "t" file = .ok none := by
    rw [recordBeside, hbeside]
    exact hnone
  have hafter : recordBeside (m.add d x).disk "t" file =
      .ok (some (.ofList [("a-1-SNAPSHOT.jar>x>central", "")])) := by
    rw [recordBeside, hbeside, hadd, register_eq hpath hname hp hnew]
    exact hp.read_keep_storable (by decide)
  have huntracked : Verdict.ofRecord .empty "a-1-SNAPSHOT.jar" "" [other] = .untracked := by decide
  have hforeign : Verdict.ofRecord (.ofList [("a-1-SNAPSHOT.jar>x>central", "")]) "a-1-SNAPSHOT.jar"
    "" [other] = .foreign := by decide
  have hlook : look d "t" q file = ⟨file, .known none .untracked⟩ := by
    rw [← huntracked]
    exact look_known q hfile hjar hbefore
  have hlook' : look (m.add d x).disk "t" q file = ⟨file, .known
      (some (.ofList [("a-1-SNAPSHOT.jar>x>central", "")])) .foreign⟩ := by
    rw [← hforeign]
    exact look_known q ((add_lasts hd hok).isFile hfile) hjar hafter
  refine ⟨hd, hok, hcentral, hcandidates, by decide, ?_, ?_⟩
  · rw [find_enhanced rfl, visits, hcandidates]
    simp only [visitsOf, hlook, Visit.isLast, Verdict.accepts, if_true]
    rfl
  · rw [find_enhanced rfl, visits, hcandidates]
    simp only [visitsOf, hlook', Visit.isLast, Verdict.accepts]
    rfl

end Manager

end ArtifactCache
