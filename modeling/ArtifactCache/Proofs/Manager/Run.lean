import ArtifactCache.Proofs.Files.Below
import ArtifactCache.Proofs.Manager.Registered

/-! Runs of commands. What is found at a path is what the ledger says of it, so what is found along the
paths of a request is what is found in the ledger, and every run answers as the ledger does. -/
namespace ArtifactCache

open Manager (Request Answer Visit answerOf answerOf_known conclude_eq)

variable {m : Manager} {trackingName rel : String} {d : Disk} {l : Ledger} {q : Request}
  {rels : List String} {cs : List Command} {c : Command}

theorem candidates_eq (m : Manager) (q : Request) :
    m.candidates q = (m.paths q).map m.resolve := by
  rw [Manager.candidates, Manager.paths, List.map_append, List.map_map]
  congr 1
  split <;> rfl

/-- What is met at a path is what the ledger says of it. -/
theorem look_refines (h : Represents m trackingName d l) (ht : Tracked m trackingName)
    (hp : Proper trackingName rel) (q : Request) :
    (Path.names rel ∉ l.files ∧
      Manager.look d trackingName q (m.resolve rel) = ⟨m.resolve rel, .nothing⟩) ∨
    (Path.names rel ∈ l.files ∧ ∃ record, Manager.look d trackingName q (m.resolve rel) =
      ⟨m.resolve rel, .known record (l.verdict q rel)⟩) ∨
    (d.isFile (m.resolve rel) = true ∧ ∃ path e,
      Manager.trackingFile? trackingName (m.resolve rel) = some path ∧ d.Refuses path ∧
      Manager.look d trackingName q (m.resolve rel) =
        ⟨m.resolve rel, .unreadable (.trackingIo path e)⟩) := by
  rw [Manager.look]
  by_cases hfile : d.isFile (m.resolve rel) = true
  · obtain ⟨path, hpath, hfiled, hplace⟩ := ht.trackingFile hp
    obtain ⟨r, hk, hr⟩ := h.records (directoryOf rel)
    rw [← (hplace d).1] at hk
    rw [if_pos hfile, hp.fileName m]
    simp only [Manager.recordBeside, hpath]
    rcases Tracking.read_of_keeps h.plain hfiled (h.reached.seen (hplace d)) hk with
      ⟨record, hread, rfl⟩ | ⟨hrefuses, e, hread⟩
    · right
      left
      refine ⟨(h.files rel hp).2 hfile, record, ?_⟩
      simp only [hread, hr.verdict h.unmarked hp.plain]
    · right
      right
      exact ⟨hfile, path, e, rfl, hrefuses, by simp only [hread]⟩
  · left
    exact ⟨fun hmem => hfile ((h.files rel hp).1 hmem), if_neg hfile⟩

/-- What is met along paths, up to the first file that may be used, is what is found in the ledger. -/
theorem visits_refines (h : Represents m trackingName d l) (ht : Tracked m trackingName)
    (hrels : ∀ rel ∈ rels, Proper trackingName rel) (q : Request) (met : Answer) :
    ((Manager.visitsOf d trackingName q (rels.map m.resolve)).findSome? Visit.fault? = none ∧
      answerOf (Manager.visitsOf d trackingName q (rels.map m.resolve)) met =
        l.findAmong m q met rels) ∨
    (∃ file ∈ rels.map m.resolve, d.isFile file = true ∧
      ∃ path, Manager.trackingFile? trackingName file = some path ∧ d.Refuses path) ∧
    ∃ path e, (Manager.visitsOf d trackingName q (rels.map m.resolve)).findSome? Visit.fault? =
      some (.trackingIo path e) := by
  induction rels generalizing met with
  | nil => exact .inl ⟨rfl, rfl⟩
  | cons rel rels ih =>
    have hrest := ih fun rel' hrel' => hrels rel' (List.mem_cons_of_mem _ hrel')
    have hmore : ∀ {P : String → Prop}, (∃ file ∈ rels.map m.resolve, P file) →
        ∃ file ∈ m.resolve rel :: rels.map m.resolve, P file :=
      fun ⟨file, hfile, hp⟩ => ⟨file, List.mem_cons_of_mem _ hfile, hp⟩
    rw [List.map_cons, Manager.visitsOf, Ledger.findAmong]
    rcases look_refines h ht (hrels rel List.mem_cons_self) q with
      ⟨hfile, hlook⟩ | ⟨hfile, record, hlook⟩ | ⟨hfile, path, e, hpath, hrefuses, hlook⟩
    · rw [hlook, if_neg hfile]
      exact (hrest met).imp_right (And.imp_left hmore)
    · rw [hlook, if_pos hfile]
      by_cases haccept : (l.verdict q rel).accepts = true
      · left
        simp only [Visit.isLast, haccept, if_true]
        exact ⟨rfl, by rw [answerOf_known, haccept]; rfl⟩
      · simp only [Visit.isLast, haccept, Bool.false_eq_true, if_false]
        rcases hrest { path := some (m.resolve rel), available := (l.verdict q rel).accepts
                       repository := (l.verdict q rel).repository? } with
          ⟨hnone, hanswer⟩ | ⟨hrefuses, hfault⟩
        · left
          refine ⟨hnone, ?_⟩
          rw [answerOf_known, hanswer]
          simp [haccept]
        · exact .inr ⟨hmore hrefuses, hfault⟩
    · right
      rw [hlook]
      exact ⟨⟨_, List.mem_cons_self, hfile, path, hpath, hrefuses⟩, path, e, rfl⟩

theorem find_refines (h : Represents m trackingName d l) (ht : Tracked m trackingName)
    (hq : (Command.find q).Admissible m trackingName) :
    m.find d q = .ok (l.find m q) ∨
      m.Denied trackingName d (.find q) ∧ ∃ path e, m.find d q = .error (.trackingIo path e) := by
  obtain ⟨division, hmode⟩ := ht.mode
  rw [Manager.find, hmode]
  simp only [Manager.visits, Manager.Denied, candidates_eq, conclude_eq]
  rcases visits_refines h ht hq q {} with ⟨hnone, hanswer⟩ | ⟨hrefuses, path, e, hfault⟩
  · left
    rw [hnone]
    simp only [hanswer, Ledger.find]
  · right
    exact ⟨hrefuses, path, e, by rw [hfault]⟩

/-- A command that is carried out on a disk does what it does in the ledger. -/
theorem step_refines (h : Represents m trackingName d l) (ht : Tracked m trackingName)
    (hc : c.Admissible m trackingName) :
    (∃ d', m.step trackingName d c = .ok (d', (l.step m c).2) ∧
      Represents m trackingName d' (l.step m c).1) ∨
      m.Denied trackingName d c ∧ ∃ f, m.step trackingName d c = .error f ∧ f.isSystem = true := by
  cases c with
  | place rel content =>
    rw [Manager.step, Ledger.step]
    rcases place_refines h hc content with ⟨d', hplace, hrep⟩ | ⟨hdenied, e, hplace⟩
    · exact .inl ⟨d', by rw [hplace]; rfl, hrep⟩
    · exact .inr ⟨hdenied, .io e, by rw [hplace]; rfl, rfl⟩
  | remove rel =>
    rw [Manager.step, Ledger.step]
    rcases remove_refines h hc with ⟨d', hremove, hrep⟩ | ⟨e, hremove⟩
    · exact .inl ⟨d', by rw [hremove]; rfl, hrep⟩
    · exact .inr ⟨⟨e, hremove⟩, .io e, by rw [hremove]; rfl, rfl⟩
  | add x =>
    rw [Manager.step, Ledger.step]
    rcases add_refines h ht hc with ⟨hfault, hrep⟩ | ⟨hdenied, path, e, hfault⟩
    · exact .inl ⟨_, by simp only [hfault], hrep⟩
    · exact .inr ⟨hdenied, .trackingIo path e, by simp only [hfault], rfl⟩
  | forget directory =>
    rw [Manager.step, Ledger.step]
    rcases forget_refines h ht hc with ⟨d', hdelete, hrep⟩ | ⟨hrefuses, path, e, hdelete⟩
    · exact .inl ⟨_, by rw [hdelete]; rfl, hrep⟩
    · exact .inr ⟨hrefuses, .trackingIo path e, by rw [hdelete]; rfl, rfl⟩
  | find q =>
    rw [Manager.step, Ledger.step]
    rcases find_refines h ht hc with hfind | ⟨hdenied, path, e, hfind⟩
    · exact .inl ⟨d, by rw [hfind]; rfl, h⟩
    · exact .inr ⟨hdenied, .trackingIo path e, by rw [hfind]; rfl, rfl⟩

theorem run_answers (h : Represents m trackingName d l) (ht : Tracked m trackingName)
    (hcs : ∀ c ∈ cs, c.Admissible m trackingName) :
    m.run trackingName d cs = .ok (l.run m cs) ∨ m.Stopped trackingName d cs ∧
      ∃ f, m.run trackingName d cs = .error f ∧ f.isSystem = true := by
  induction cs generalizing d l with
  | nil => exact .inl rfl
  | cons c cs ih =>
    rw [Manager.run, Ledger.run, Manager.Stopped]
    rcases step_refines h ht (hcs c List.mem_cons_self) with
      ⟨d', hstep, hrep⟩ | ⟨hdenied, f, hstep, hf⟩
    · rw [hstep]
      rcases ih hrep fun c' hc' => hcs c' (List.mem_cons_of_mem _ hc') with
        hrun | ⟨hstopped, f, hrun, hf⟩
      · exact .inl (by simp only [hrun]; rfl)
      · exact .inr ⟨.inr ⟨d', _, rfl, hstopped⟩, f, by simp only [hrun]; rfl, hf⟩
    · exact .inr ⟨.inl hdenied, f, by rw [hstep], hf⟩

/-- What is known of a repository without tracking files: which files lie in it. -/
def Manager.untracked (m : Manager) (d : Disk) : Ledger where
  files := (((d.below (m.home d)).map (·.1)).filter fun names =>
    d.isFile (m.resolve (Text.join "/" names))).toFinset
  origins := ∅

theorem mem_untracked_files (hd : d.IsPlain) (hp : Proper trackingName rel) :
    Path.names rel ∈ (m.untracked d).files ↔ d.isFile (m.resolve rel) = true := by
  have hjoin : Text.join "/" (Path.names rel) = rel := by
    have := Text.join_cut '/' rel.toList
    rwa [String.ofList_toList, ← Text.splitOn, ← hp.names_eq] at this
  rw [Manager.untracked, List.mem_toFinset, List.mem_filter, hjoin, and_iff_right_iff_imp]
  intro hfile
  obtain ⟨-, -, content, hat⟩ := (hd.isFile_iff (hp.filed m)).1 hfile
  rw [(hp.placeOf m d).1] at hat
  have hne : Path.names rel ≠ [] := by
    rw [hp.directory_append]
    exact List.append_ne_nil_of_right_ne_nil _ (List.cons_ne_nil _ _)
  exact List.mem_map.2 ⟨_, Disk.mem_below_iff.2 ⟨hne, hat⟩, rfl⟩

/-- A disk without tracking files holds what the ledger of its files says. -/
theorem Represents.untracked (hd : d.IsPlain) (hreached : m.Reached d)
    (hnone : ∀ directory content,
      d.at? (m.home d ++ (directory ++ [trackingName])) ≠ some (.file content)) :
    Represents m trackingName d (m.untracked d) := by
  refine ⟨hd, hreached, fun rel hp => mem_untracked_files hd hp, ?_, nofun⟩
  intro directory
  refine ⟨.empty, .inl ⟨?_, rfl⟩, nofun, ?_⟩
  · cases hat : d.at? (m.home d ++ (directory ++ [trackingName])) with
    | none => exact .inl rfl
    | some e =>
      cases e with
      | directory => exact .inr rfl
      | file content => exact absurd hat (hnone directory content)
      | link target => exact absurd hat (hd.linkless _ target)
  · intro key
    refine ⟨nofun, ?_⟩
    rintro ⟨_, _, -, hmem⟩
    cases hmem

theorem at?_empty {p : Place} {e : Entry} (h : ({} : Disk).at? p = some e) :
    p = [] ∧ e = .directory := by
  by_cases hp : p = []
  · exact ⟨hp, by simpa [Disk.at?, hp, eq_comm] using h⟩
  · simp [Disk.at?, hp] at h

theorem isPlain_empty : ({} : Disk).IsPlain := by
  refine ⟨⟨rfl, ?_⟩, ?_⟩
  · intro p e hat
    rw [(at?_empty hat).1]
    rfl
  · intro p target hat
    cases (at?_empty hat).2

/-- The directories that are made on an empty disk. -/
theorem makeDirectories_empty : ({} : Disk).makeDirectories "/r/g/a/1" =
    (⟨[(["r", "g", "a", "1"], .directory), (["r", "g", "a"], .directory), (["r", "g"], .directory),
      (["r"], .directory)], []⟩, .ok ()) := by
  have hancestors : Path.ancestors "/r/g/a/1" = ["/r/g/a/1", "/r/g/a", "/r/g", "/r", "/"] := by
    decide
  -- Where each of them is to lie, whatever is on the disk by then.
  have h1 := fun d => @Disk.seat_of_names d "r" [] "/r" (by decide) (by decide) (by decide)
  have h2 := fun d => @Disk.seat_of_names d "g" ["r"] "/r/g" (by decide) (by decide) (by decide)
  have h3 := fun d =>
    @Disk.seat_of_names d "a" ["r", "g"] "/r/g/a" (by decide) (by decide) (by decide)
  have h4 := fun d =>
    @Disk.seat_of_names d "1" ["r", "g", "a"] "/r/g/a/1" (by decide) (by decide) (by decide)
  simp only [Disk.makeDirectories, hancestors, Disk.makeAll, Disk.makeDirectory, h1, h2, h3, h4]
  cbv

theorem place_ok {d' : Disk} {p : Place} (hmade : d.makeParents (m.resolve rel) = (d', .ok ()))
    (hw : d'.writable (m.resolve rel) = .ok p) (content : Content) :
    m.place d rel content = .ok (d'.put p (.file content)) := by
  unfold Manager.place
  rw [hmade]
  simp only [Disk.write, hw]
  rfl

/-- A file is written to an empty disk, and then the tracking file beside it can be written. -/
theorem prepared_placed :
    let m : Manager := ⟨⟨"/r", "enhanced"⟩, .enhanced .flat "_remote.repositories"⟩
    ∃ d place, m.place {} "g/a/1/a-1.jar" (.text "") = .ok d ∧
      d.isFile "/r/g/a/1/a-1.jar" = true ∧
      Tracking.Prepared d "/r/g/a/1/_remote.repositories" place ∧
      Tracking.read d "/r/g/a/1/_remote.repositories" = .ok none := by
  intro m
  let d : Disk := ⟨[(["r", "g", "a", "1", "a-1.jar"], .file (.text "")),
    (["r", "g", "a", "1"], .directory), (["r", "g", "a"], .directory), (["r", "g"], .directory),
    (["r"], .directory)], []⟩
  let place := ["r", "g", "a", "1", "_remote.repositories"]
  have hd : d.IsTree := Disk.isTree_of_entries rfl (by decide)
  have hfile : d.locate "/r/g/a/1/a-1.jar" = .ok ⟨["r", "g", "a", "1", "a-1.jar"], false⟩ :=
    Disk.locate_eq_ok_iff.2 ⟨by decide, Disk.leads_of_walk (by cbv)⟩
  have hup : d.locate "/r/g/a/1" = .ok ⟨["r", "g", "a", "1"], false⟩ :=
    Disk.locate_eq_ok_iff.2 ⟨by decide, Disk.leads_of_walk (by cbv)⟩
  have hl : d.locate "/r/g/a/1/_remote.repositories" = .ok ⟨place, false⟩ :=
    Disk.locate_eq_ok_iff.2 ⟨by decide, Disk.leads_of_walk (by cbv)⟩
  have hplace : m.place {} "g/a/1/a-1.jar" (.text "") = .ok d := by
    have hresolve : m.resolve "g/a/1/a-1.jar" = "/r/g/a/1/a-1.jar" := by decide
    have hparent : Path.parent? "/r/g/a/1/a-1.jar" = some "/r/g/a/1" := by decide
    have hmade := (Disk.makeParents_of_parent hparent {}).trans makeDirectories_empty
    rw [← hresolve] at hmade
    refine place_ok hmade ?_ _
    rw [hresolve]
    exact Disk.writable_of_locate (by decide)
      (Disk.locate_eq_ok_iff.2 ⟨by decide, Disk.leads_of_walk (by cbv)⟩) (by decide)
  refine ⟨d, place, hplace, Disk.isFile_iff_locate.2 ⟨_, .text "", hfile, by decide⟩, ?_,
    Tracking.read_of_none (Disk.resolve_of_none hl (by decide))⟩
  exact .of_isDirectory hd (by decide) (Disk.isDirectory_iff.2 ⟨_, _, hup, by decide⟩)
    (Disk.writable_of_locate (by decide) hl (by decide))

theorem run_cons {d' : Disk} {answer : Option Answer} {answers : List Answer}
    (hstep : m.step trackingName d c = .ok (d', answer))
    (hrest : m.run trackingName d' cs = .ok answers) :
    m.run trackingName d (c :: cs) = .ok (answer.toList ++ answers) := by
  rw [Manager.run, hstep]
  simp only [hrest]
  rfl

theorem step_place {d' : Disk} {content : Content} (h : m.place d rel content = .ok d') :
    m.step trackingName d (.place rel content) = .ok (d', none) := by
  rw [Manager.step, h]
  rfl

theorem step_find {answer : Answer} (h : m.find d q = .ok answer) :
    m.step trackingName d (.find q) = .ok (d, some answer) := by
  rw [Manager.step, h]
  rfl

/-- Whatever is done to a repository that has no tracking files at first, what is found is what is
found in the ledger, unless the operating system stops what is done. -/
theorem run_refines (ht : Tracked m trackingName) (hd : d.IsPlain) (hreached : m.Reached d)
    (hnone : ∀ directory content,
      d.at? (m.home d ++ (directory ++ [trackingName])) ≠ some (.file content))
    (hcs : ∀ c ∈ cs, c.Admissible m trackingName) :
    m.run trackingName d cs = .ok ((m.untracked d).run m cs) ∨ m.Stopped trackingName d cs ∧
      ∃ f, m.run trackingName d cs = .error f ∧ f.isSystem = true :=
  run_answers (.untracked hd hreached hnone) ht hcs

/-- A file is taken for an installed one until it is known where it comes from. -/
theorem run_refines_downloaded :
    let m : Manager := ⟨⟨"/r", "enhanced"⟩, .enhanced .flat "_remote.repositories"⟩
    let a : Artifact := ⟨"g", "a", "", "jar", "1"⟩
    let r : RemoteRepository := { id := "central", url := "https://repo" }
    let file := "/r/g/a/1/a-1.jar"
    let cs : List Command := [.place "g/a/1/a-1.jar" (.text ""), .find ⟨a, [r], ""⟩,
      .add ⟨a, some r, [""]⟩, .find ⟨a, [r], ""⟩, .find ⟨a, [], ""⟩]
    Tracked m "_remote.repositories" ∧ (∀ c ∈ cs, c.Admissible m "_remote.repositories") ∧
      m.run "_remote.repositories" {} cs =
        .ok [⟨some file, true, none⟩, ⟨some file, true, some r⟩, ⟨some file, false, none⟩] := by
  intro m a r file cs
  have ht : Tracked m "_remote.repositories" := ⟨⟨.flat, rfl⟩, by decide⟩
  have hp : Proper "_remote.repositories" "g/a/1/a-1.jar" := ⟨by decide, by decide, by decide⟩
  have hcs : ∀ c ∈ cs, c.Admissible m "_remote.repositories" := by
    have hboth : m.paths ⟨a, [r], ""⟩ = ["g/a/1/a-1.jar", "g/a/1/a-1.jar"] := by decide
    have hone : m.paths ⟨a, [], ""⟩ = ["g/a/1/a-1.jar"] := by decide
    have hpath : m.downloadedPath a r = "g/a/1/a-1.jar" := by decide
    simp only [cs, List.forall_mem_cons, List.not_mem_nil, false_imp_iff, implies_true, and_true,
      Command.Admissible, hboth, hone, hpath]
    exact ⟨hp, ⟨hp, hp⟩, ⟨hp, by decide⟩, ⟨hp, hp⟩, hp⟩
  have hledger : (m.untracked {}).run m cs =
      [⟨some file, true, none⟩, ⟨some file, true, some r⟩, ⟨some file, false, none⟩] := by decide
  have hnofile : ∀ p content, ({} : Disk).at? p ≠ some (.file content) := by
    intro p content hat
    cases (at?_empty hat).2
  have hruns : ∃ answers, m.run "_remote.repositories" {} cs = .ok answers := by
    obtain ⟨d, place, hplace, hfile, hprepared, hnone⟩ := prepared_placed
    have hboth : m.candidates ⟨a, [r], ""⟩ = [file, file] := by decide
    have hone : m.candidates ⟨a, [], ""⟩ = [file] := by decide
    have hname : Path.fileName? file = some "a-1.jar" := by decide
    have hresolve : m.resolve (m.downloadedPath a r) = file := by decide
    have hpath : Manager.trackingFile? "_remote.repositories" file =
        some "/r/g/a/1/_remote.repositories" := by decide
    have hbeside : ∀ d, Manager.recordBeside d "_remote.repositories" file =
        Tracking.read d "/r/g/a/1/_remote.repositories" := by
      intro d
      rw [Manager.recordBeside, hpath]
    let record := Tracking.Record.apply .empty (Manager.originChanges "a-1.jar" [r.key ""])
    have hstored : ∀ e ∈ record.entries, Tracking.Storable e.1 e.2 := by decide
    have hadd := Manager.add_downloaded (m := m) rfl d a r ""
    rw [hresolve, Manager.register_eq hpath hname hprepared
      (hprepared.existing_of_read hnone)] at hadd
    have hthere : (Tracking.keep d place record).isFile file = true :=
      (hprepared.ends.1.lasts_put _).isFile hfile
    have hread := (hbeside _).trans (hprepared.read_keep_storable hstored)
    have hfirst := Manager.find_of_first rfl hboth
      (Manager.look_known ⟨a, [r], ""⟩ hfile hname ((hbeside d).trans hnone)) (by decide)
    have hsecond := Manager.find_of_first rfl hboth
      (Manager.look_known ⟨a, [r], ""⟩ hthere hname hread) (by decide)
    have hthird := Manager.find_of_only rfl hone
      (Manager.look_known ⟨a, [], ""⟩ hthere hname hread)
    have hadded : m.step "_remote.repositories" d (.add ⟨a, some r, [""]⟩) =
        .ok (Tracking.keep d place record, none) := by
      rw [Manager.step, hadd]
      rfl
    exact ⟨_, run_cons (step_place hplace) (run_cons (step_find hfirst) (run_cons hadded
      (run_cons (step_find hsecond) (run_cons (step_find hthird) rfl))))⟩
  refine ⟨ht, hcs, ?_⟩
  rcases run_refines ht isPlain_empty (.of_notMem (by decide) _) (fun _ _ => hnofile _ _) hcs with
    hrun | ⟨-, f, herror, -⟩
  · rw [hrun, hledger]
  · obtain ⟨answers, hanswers⟩ := hruns
    rw [herror] at hanswers
    cases hanswers

end ArtifactCache
