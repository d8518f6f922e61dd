import ArtifactCache.Proofs.CommandLine.Walk
import ArtifactCache.Proofs.CommandLine.Work
import ArtifactCache.Proofs.Files.Lasting
import ArtifactCache.Proofs.Manager.Grouping
import ArtifactCache.Proofs.Manager.Visits

/-! What the command line tells of records. It names the files that are tracked for those who look
for them, wherever below a repository their tracking files lie, and counts them. -/
namespace ArtifactCache.CommandLine

open Manager (Request Visit)
open Tracking (Record)

variable {p q : Progress} {path base name f : String} {r : Record} {d : Disk}
  {place directory : Place} {home : String} {o : Options} {x : Opened} {division : Division}

theorem readTracking_run {answer : Option Record} (h : Tracking.read p.disk path = .ok answer) :
    (readTracking path).run.run p =
      (.ok answer, { p with log := p.log ++ (answer.map (Tracking.readEntry path)).toList }) := by
  change (expect (Tracking.read p.disk path) >>= fun r => do
    note ((r.map (Tracking.readEntry path)).toList)
    return r : Work (Option Record)).run.run p = _
  rw [h]
  rfl

theorem readTracking_fails {fault : Fault} (h : Tracking.read p.disk path = .error fault) :
    (readTracking path).run.run p = (.error (.ofFault fault), p) := by
  change (expect (Tracking.read p.disk path) >>= fun r => do
    note ((r.map (Tracking.readEntry path)).toList)
    return r : Work (Option Record)).run.run p = _
  rw [h]
  rfl

/-- The line that shows a file and its origins. -/
def fileLine (file : String) (origins : List String) : String :=
  "  " ++ file ++ ": " ++
    ", ".intercalate (origins.map fun origin => if origin = "" then "(local install)" else origin)

theorem originsLine_eq (e : String × List String) : originsLine e = fileLine e.1 e.2 := by
  rw [originsLine, Text.join_eq_intercalate]
  rfl

/-- The lines that show what was read from a tracking file. -/
def recordLines (path : String) (json : Bool) : Option Record → List String
  | none => [if json then "\x7b\x7d" else "No tracking file at " ++ path]
  | some r =>
    let files := (originsByFile r).entries
    if json then
      [(Json.object (files.map fun (file, origins) => (file, .list (origins.map .text)))).pretty]
    else path :: files.map fun (file, origins) => fileLine file origins

/-- What comes of showing what is read from a tracking file. -/
def shown (p : Progress) (path : String) (json : Bool) :
    Except Fault (Option Record) → Except Failure Unit × Progress
  | .error fault => (.error (.ofFault fault), p)
  | .ok answer => (.ok (), { p with
      output := p.output ++ recordLines path json answer
      log := p.log ++ (answer.map (Tracking.readEntry path)).toList })

/-- The lines that show what comes of reading a tracking file. -/
def shownLines (path : String) (json : Bool) : Except Fault (Option Record) → List String
  | .error _ => []
  | .ok answer => recordLines path json answer

theorem shown_output (p : Progress) (path : String) (json : Bool)
    (answer : Except Fault (Option Record)) :
    (shown p path json answer).2.output = p.output ++ shownLines path json answer := by
  cases answer with
  | error fault => exact (List.append_nil _).symm
  | ok answer => rfl

theorem showRecord_run (p : Progress) (path : String) (json : Bool) :
    (showRecord path json).run.run p = shown p path json (Tracking.read p.disk path) := by
  cases h : Tracking.read p.disk path with
  | error fault => rw [showRecord, run_bind_error (readTracking_fails h), shown]
  | ok answer =>
    rw [showRecord, run_bind (readTracking_run h)]
    cases answer with
    | none => rfl
    | some r =>
      cases json with
      | true => rfl
      | false =>
        simp only [Bool.false_eq_true, if_false]
        rw [run_bind (say_run _ _), forM_say_run, List.append_assoc,
          List.map_congr_left fun e _ => originsLine_eq e]
        rfl

/-- The line about the tracking file in a directory. -/
def directoryLine (directory : Place) (r : Record) : String :=
  "/".intercalate directory ++ "  " ++ toString (originsByFile r).keys.length ++ " file(s), " ++
    toString r.size ++ if r.size = 1 then " entry" else " entries"

/-- What is told of the tracking file in a directory, as JSON. -/
def directoryJson (directory : Place) (r : Record) : Json :=
  .object [("directory", .text ("/".intercalate directory)),
    ("files", .nat (originsByFile r).keys.length), ("entries", .nat r.size)]

/-- The lines that list tracking files. -/
def summaryLines (base : String) (json : Bool) (directories : List Place) (record : Place → Record) :
    List String :=
  if json then [(Json.list (directories.map fun q => directoryJson q (record q))).pretty]
  else if directories = [] then ["No tracking files found in: " ++ base]
  else directories.map fun q => directoryLine q (record q)

/-- What is told of the tracking file in a directory. -/
def summary (directory : Place) (r : Record) : Summary :=
  ⟨Text.join "/" directory, (originsByFile r).keys.length, r.size⟩

theorem summary_line (directory : Place) (r : Record) :
    (summary directory r).line = directoryLine directory r := by
  rw [Summary.line, directoryLine, summary, Text.join_eq_intercalate]
  split
  · rw [String.append_assoc]
    rfl
  · rw [String.append_assoc]
    rfl

theorem summary_json (directory : Place) (r : Record) :
    (summary directory r).json = directoryJson directory r := by
  rw [Summary.json, directoryJson, summary, Text.join_eq_intercalate]

/-- The tracking file in a directory below a path. -/
def trackingPath (base name : String) (directory : Place) : String :=
  Path.join (directory.foldl Path.join base) name

theorem listRecords_run {record : Place → Record}
    (h : ∀ q ∈ trackedDirectories p.disk base name,
      Tracking.read p.disk (trackingPath base name q) = .ok (some (record q))) (json : Bool) :
    (listRecords base name json).run.run p = (.ok (), { p with
      output := p.output ++ summaryLines base json (trackedDirectories p.disk base name) record
      log := p.log ++ (trackedDirectories p.disk base name).flatMap fun q =>
        [Tracking.readEntry (trackingPath base name q) (record q)] }) := by
  have hget : (get : Work Progress).run.run p = (.ok p, p) := rfl
  have hone : ∀ q ∈ trackedDirectories p.disk base name, ∀ log,
      (do
        let directory := Text.join "/" q
        let r ← readTracking (trackingPath base name q)
        let r := r.getD .empty
        pure (⟨directory, (originsByFile r).size, r.size⟩ : Summary) : Work Summary).run.run
          { p with log } =
        (.ok (summary q (record q)),
          { p with log := log ++ [Tracking.readEntry (trackingPath base name q) (record q)] }) := by
    intro q hq log
    have hread := readTracking_run (p := { p with log }) (h q hq)
    rw [run_bind hread, summary, KeyMap.keys, List.length_map]
    rfl
  rw [listRecords, run_bind hget]
  refine (run_bind (mapM_run hone p.log)).trans ?_
  generalize trackedDirectories p.disk base name = directories
  cases json with
  | true =>
    simp only [if_true, summaryLines, List.map_map, Function.comp_def, summary_json]
    rfl
  | false =>
    simp only [Bool.false_eq_true, if_false, summaryLines, List.isEmpty_map, List.isEmpty_iff]
    split
    · rfl
    · rw [forM_say_run, List.map_map]
      simp only [Function.comp_def, summary_line]

/-- The files that a tracking file is about. -/
def filesIn (d : Disk) (path : String) : List String :=
  match Tracking.read d path with
  | .ok (some r) => (originsByFile r).keys
  | _ => []

theorem mem_filesIn_iff (hmark : '>' ∉ f.toList) : f ∈ filesIn d path ↔
    ∃ r, Tracking.read d path = .ok (some r) ∧ isTracked r f = true := by
  rw [filesIn]
  split
  · rename_i r hread
    rw [mem_keys_originsByFile_iff, hread]
    simp [hmark]
  · rename_i hread
    exact iff_of_false List.not_mem_nil fun ⟨r, hr, _⟩ => hread r hr

theorem placeOf_trackingPath (h : ∀ n ∈ directory ++ [name], Path.IsName n) (base : String)
    (d : Disk) : d.placeOf (trackingPath base name directory) =
      d.placeOf base ++ (directory ++ [name]) := by
  have hsplit : Text.splitOn '/' (Text.join "/" (directory ++ [name])) = directory ++ [name] :=
    Text.splitOn_join (List.concat_ne_nil _ _) fun n hn => (h n hn).notMem
  rw [trackingPath, Path.join_foldl_join h]
  generalize Text.join "/" (directory ++ [name]) = rel at hsplit
  rw [← hsplit] at h ⊢
  have hroot := not_rooted_of_names fun n hn => (h n hn).ne_empty
  have hnames := names_of_splitOn fun n hn => ⟨(h n hn).ne_empty, (h n hn).ne_dot, (h n hn).ne_back⟩
  refine (Disk.placeOf_below (Path.isRooted_join hroot) ?_ ?_ d).1
  · rw [Path.names_join hroot, hnames]
  · exact fun hback => (h _ hback).ne_back rfl

/-- A tracking file from which a record is read is met on the walk if there are no links. -/
theorem mem_trackedDirectories_of_read (hd : d.IsPlain)
    (hbase : d.resolve base = .ok (place, .directory))
    (h : ∀ n ∈ directory ++ [name], Path.IsName n)
    (hread : Tracking.read d (trackingPath base name directory) = .ok (some r)) :
    directory ∈ trackedDirectories d base name := by
  obtain ⟨spot, text, hl, hat, -⟩ := Tracking.read_eq_some hread
  obtain ⟨slash, hhome, -, -⟩ := Disk.resolve_eq_ok_iff.1 hbase
  have hplace := hd.place_of_locate hl
  have hhome := hd.place_of_locate hhome
  rw [placeOf_trackingPath h, ← hhome] at hplace
  exact ((trackedDirectories_walked d base name).mem directory).2
    ⟨place, .text text, hbase, hplace ▸ hat⟩

/-- What it means that what is told of the tracking files below a path is what they are used for. The
record beside a file is the one that is told of. A file that was met is found tracked just if the
tracking file in its directory is about it, and is neither turned down nor said to come from a
repository otherwise. If there are no links, its directory is then one of those that are walked to. -/
structure ToldAsFound (d : Disk) (base name : String) : Prop where
  beside : ∀ file directory f, Path.LiesIn file (directory.foldl Path.join base) f →
    Manager.recordBeside d name file = Tracking.read d (trackingPath base name directory)
  found : ∀ (v : Visit) m request above f, v.Meets m d name request above f → '>' ∉ f.toList →
    (v.FindsTracked ↔ f ∈ filesIn d (Path.join above name))
  answered : ∀ (m : Manager) division request file above f available source,
    m.mode = .enhanced division name → m.find d request = .ok ⟨some file, available, source⟩ →
    Path.LiesIn file above f → '>' ∉ f.toList → available = false ∨ source ≠ none →
    f ∈ filesIn d (Path.join above name)
  listed : ∀ (v : Visit) m request place directory f, d.IsPlain →
    d.resolve base = .ok (place, .directory) → (∀ n ∈ directory ++ [name], Path.IsName n) →
    v.Meets m d name request (directory.foldl Path.join base) f → '>' ∉ f.toList →
    (v.FindsTracked ↔ directory ∈ trackedDirectories d base name ∧
      f ∈ filesIn d (trackingPath base name directory))

theorem toldAsFound (d : Disk) (base name : String) : ToldAsFound d base name where
  beside _ _ _ h := Manager.recordBeside_of_liesIn h d name
  found v m request above f h hmark := h.findsTracked_iff.trans (mem_filesIn_iff hmark).symm
  answered m division request file above f available source hmode h hlies hmark hsaid :=
    (mem_filesIn_iff hmark).2 (Manager.isTracked_of_find hmode h hlies hsaid)
  listed v m request place directory f hd hbase hnames h hmark := by
    rw [h.findsTracked_iff, mem_filesIn_iff hmark, ← trackingPath]
    refine (and_iff_right_of_imp ?_).symm
    rintro ⟨r, hread, -⟩
    exact mem_trackedDirectories_of_read hd hbase hnames hread

/-- What it means that the commands about tracking files print what is told of those of a repository
that have a name. -/
structure CommandsTell (home : String) (o : Options) (p q : Progress) (base name : String) :
    Prop where
  shows : ∀ directory json,
    ((runCommand home ⟨o, .showRecord directory json⟩).run.run p).2.output =
      let path := Path.join (Path.join base directory) name
      q.output ++ shownLines path json (Tracking.read q.disk path)
  lists : ∀ json (record : Place → Record),
    (∀ place ∈ trackedDirectories q.disk base name,
      Tracking.read q.disk (trackingPath base name place) = .ok (some (record place))) →
    ((runCommand home ⟨o, .listRecords json⟩).run.run p).2.output =
      q.output ++ summaryLines base json (trackedDirectories q.disk base name) record

/-- The commands tell of the tracking files that the manager of the session looks at. -/
theorem commandsTell (hopen : (openSession home o).run.run p = (.ok x, q))
    (hmode : x.session.manager.mode = .enhanced division name) :
    CommandsTell home o p q x.session.manager.repository.base name := by
  have hname := trackingName_of_openSession hopen hmode
  constructor
  · intro directory json
    rw [runCommand]
    obtain ⟨log, hrun⟩ := runTracking_output true (fun base name =>
      showRecord (Path.join (Path.join base directory) name) json) hopen hname
    rw [hrun, showRecord_run, shown_output]
  · intro json record hread
    rw [runCommand]
    obtain ⟨log, hrun⟩ := runTracking_output true (fun base name =>
      listRecords base name json) hopen hname
    rw [hrun, listRecords_run (p := { q with log }) hread]

/-- The origins in a record are put together by file, and the files are those that a record is not
silent about to whoever looks for them. What is shown of a record has a line or a field for each of
these files. The tracking files in all directories below a path are listed, and in the list the files
are counted. A directory is shown and listed, and a file is looked for in it, by one path, and the
commands print this for the tracking files of the manager. -/
theorem files_listed_iff_tracked :
    (∀ r : Record, Grouped r (originsByFile r)) ∧
    (∀ (r : Record) (name : String), '>' ∉ name.toList → ∀ context repositories,
      (name ∈ (originsByFile r).keys ↔
        Verdict.ofRecord r name context repositories ≠ .untracked)) ∧
    (∀ p path json,
      (showRecord path json).run.run p = shown p path json (Tracking.read p.disk path)) ∧
    (∀ d base name, Walked d base name (trackedDirectories d base name)) ∧
    (∀ p base name (record : Place → Record) json,
      (∀ q ∈ trackedDirectories p.disk base name,
        Tracking.read p.disk (trackingPath base name q) = .ok (some (record q))) →
      (listRecords base name json).run.run p = (.ok (), { p with
        output := p.output ++ summaryLines base json (trackedDirectories p.disk base name) record
        log := p.log ++ (trackedDirectories p.disk base name).flatMap fun q =>
          [Tracking.readEntry (trackingPath base name q) (record q)] })) ∧
    (∀ base name directory, Path.IsName name → (∀ n ∈ directory, Path.IsName n) →
      Path.join (Path.join base ("/".intercalate directory)) name =
        trackingPath base name directory) ∧
    (∀ base directory f, directory ≠ [] → (∀ n ∈ directory ++ [f], Path.IsName n) →
      Path.LiesIn (Path.join base ("/".intercalate (directory ++ [f])))
        (directory.foldl Path.join base) f) ∧
    (∀ d base name, ToldAsFound d base name) ∧
    ∀ home o p x q division name, (openSession home o).run.run p = (.ok x, q) →
      x.session.manager.mode = .enhanced division name →
      CommandsTell home o p q x.session.manager.repository.base name := by
  refine ⟨grouped_originsByFile, ?_, showRecord_run, trackedDirectories_walked,
    fun p base name record json h => listRecords_run h json, ?_, ?_, toldAsFound,
    fun home o p x q division name => commandsTell⟩
  · intro r name hname context repositories
    rw [mem_keys_originsByFile_iff, ne_eq, Verdict.ofRecord_eq_untracked_iff,
      Bool.not_eq_false]
    exact and_iff_right hname
  · intro base name directory hname hdirectory
    rw [← Text.join_eq_intercalate]
    exact Path.join_join_names hname hdirectory base
  · intro base directory f hne hnames
    rw [← Text.join_eq_intercalate]
    exact Path.liesIn_join hne hnames base

/-- A file that cannot be had from where it is looked for, as its tracking file below a repository
says, with another tracking file that is above. -/
theorem files_listed_iff_tracked_below :
    let m : Manager := ⟨⟨"/r", ""⟩, .enhanced .flat "t"⟩
    let request : Request := ⟨⟨"g", "a", "", "jar", "1"⟩, [], ""⟩
    let file := "/r/g/a/1/a-1.jar"
    let r : Record := .ofList [("a-1.jar>central", ""), ("a-1.jar>releases", ""), ("stray", "")]
    let d : Disk := ⟨[(["r"], .directory), (["r", "t"], .file (.text "b.jar>=\n")),
      (["r", "g"], .directory), (["r", "g", "a"], .directory), (["r", "g", "a", "1"], .directory),
      (["r", "g", "a", "1", "a-1.jar"], .file (.text "")),
      (["r", "g", "a", "1", "t"],
        .file (.text "a-1.jar>central=\na-1.jar>releases=\nstray=\n"))], []⟩
    let v : Visit := ⟨file, .known (some r) .foreign⟩
    let directory := ["g", "a", "1"]
    let o : Options := ⟨some "/r", "", none, ["local-repository.tracking-filename=t"], ""⟩
    let printed := fun command =>
      ((runCommand "/h" ⟨o, command⟩).run.run { disk := d }).2.output
    d.IsPlain ∧ d.resolve "/r" = .ok (["r"], .directory) ∧
      (∀ n ∈ directory ++ ["t"], Path.IsName n) ∧
      v.Meets m d "t" request (directory.foldl Path.join "/r") "a-1.jar" ∧
      m.find d request = .ok ⟨some file, false, none⟩ ∧ v.FindsTracked ∧
      trackedDirectories d "/r" "t" = [directory, []] ∧
      "a-1.jar" ∈ filesIn d (trackingPath "/r" "t" directory) ∧
      printed (.showRecord "g/a/1" false) = ["/r/g/a/1/t", "  a-1.jar: central, releases"] ∧
      printed (.showRecord "" false) = ["/r/t", "  b.jar: (local install)"] ∧
      printed (.showRecord "" true) = ["\x7b\n  \"b.jar\": [\n    \"\"\n  ]\n\x7d"] ∧
      printed (.listRecords false) =
        ["g/a/1  1 file(s), 3 entries", "  1 file(s), 1 entry"] ∧
      printed (.listRecords true) = ["[\n" ++
        "  \x7b\n    \"directory\": \"g/a/1\",\n    \"files\": 1,\n    \"entries\": 3\n  \x7d,\n" ++
        "  \x7b\n    \"directory\": \"\",\n    \"files\": 1,\n    \"entries\": 1\n  \x7d\n]"] := by
  intro m request file r d v directory o printed
  let above : Record := .ofList [("b.jar>", "")]
  let record : Place → Record := fun q => if q = [] then above else r
  obtain ⟨-, -, -, -, -, -, hlies, htold, hcommands⟩ := files_listed_iff_tracked
  -- The disk, and what is read and met there.
  have hd : d.IsPlain :=
    Disk.isPlain_of_entries (Disk.isTree_of_entries rfl (by decide)) (by simp [d])
  have hbase : d.resolve "/r" = .ok (["r"], .directory) :=
    Disk.resolve_eq_ok_iff.2 ⟨false, Disk.locate_eq_ok_iff.2
      ⟨by decide, Disk.leads_of_walk (by cbv)⟩, by decide, nofun⟩
  have hread : Tracking.read d "/r/g/a/1/t" = .ok (some r) := by
    have hlocate : d.locate "/r/g/a/1/t" = .ok ⟨["r", "g", "a", "1", "t"], false⟩ :=
      Disk.locate_eq_ok_iff.2 ⟨by decide, Disk.leads_of_walk (by cbv)⟩
    rw [Tracking.read_of_text hlocate rfl, Tracking.load_of_parse (m := r) (by cbv)]
    rfl
  have habove : Tracking.read d "/r/t" = .ok (some above) := by
    have hlocate : d.locate "/r/t" = .ok ⟨["r", "t"], false⟩ :=
      Disk.locate_eq_ok_iff.2 ⟨by decide, Disk.leads_of_walk (by cbv)⟩
    rw [Tracking.read_of_text hlocate rfl, Tracking.load_of_parse (m := above) (by cbv)]
    rfl
  have hisFile : d.isFile file = true := Disk.isFile_iff_locate.2 ⟨_, .text "",
    Disk.locate_eq_ok_iff.2 ⟨by decide, Disk.leads_of_walk (by cbv)⟩, by decide⟩
  have hbelow : trackingPath "/r" "t" directory = "/r/g/a/1/t" := by decide
  have hhere : trackingPath "/r" "t" [] = "/r/t" := by decide
  have hfile : Path.LiesIn file (directory.foldl Path.join "/r") "a-1.jar" := by
    have hpath : Path.join "/r" ("/".intercalate (directory ++ ["a-1.jar"])) = file := by decide
    rw [← hpath]
    exact hlies "/r" directory "a-1.jar" (by decide) (by decide)
  have hlook : Manager.look d "t" request file = v := by
    refine Manager.look_known request hisFile hfile.fileName ?_
    rw [Manager.recordBeside_of_liesIn hfile, ← trackingPath, hbelow, hread]
  have hcandidates : m.candidates request = [file] := by decide
  have hmeets : v.Meets m d "t" request (directory.foldl Path.join "/r") "a-1.jar" :=
    ⟨by simp [Manager.visits_of_only d "t" hcandidates, hlook], hisFile, hfile⟩
  have hfound : v.FindsTracked := ⟨.foreign, rfl, by decide⟩
  have hnames : ∀ n ∈ directory ++ ["t"], Path.IsName n := by decide
  have hlisted := ((htold d "/r" "t").listed v m request _ directory "a-1.jar" hd hbase hnames
    hmeets (by decide)).1 hfound
  have hdirectories : trackedDirectories d "/r" "t" = [directory, []] := by
    rw [trackedDirectories_eq hbase]
    cbv
  have hall : ∀ q ∈ trackedDirectories d "/r" "t",
      Tracking.read d (trackingPath "/r" "t" q) = .ok (some (record q)) := by
    simp only [hdirectories, List.forall_mem_cons, List.not_mem_nil, false_imp_iff, implies_true,
      and_true, hbelow, hhere]
    exact ⟨hread, habove⟩
  -- The session that the commands open, and what they print.
  have hlocate : LocalRepository.locate d "/r" "" = .ok ⟨"/r", ""⟩ := by cbv
  have hassign : Config.empty.assignAll o.defines = .ok (Config.empty.set trackingNameKey "t") := by
    cbv
  have hselect : ∃ s, Provider.select (Config.empty.set trackingNameKey "t") ⟨"/r", ""⟩ = .ok s ∧
      s.value = m := ⟨_, rfl, rfl⟩
  obtain ⟨s, hselect, hvalue⟩ := hselect
  obtain ⟨x, q, hopen, hmanager, (hdisk : q.disk = d), (houtput : q.output = [])⟩ :=
    openSession_run (p := { disk := d }) hlocate hassign hselect
  rw [hvalue] at hmanager
  have htells : CommandsTell "/h" o { disk := d } q "/r" "t" := by
    have := hcommands "/h" o { disk := d } x q .flat "t" hopen (by rw [hmanager])
    rwa [hmanager] at this
  have hshown : ∀ path directory json answer, Path.join (Path.join "/r" directory) "t" = path →
      Tracking.read d path = .ok answer →
      printed (.showRecord directory json) = recordLines path json answer := by
    rintro path directory json answer rfl hread
    refine (htells.shows directory json).trans ?_
    simp only [hdisk, houtput, hread, shownLines, List.nil_append]
  have hsummed : ∀ json,
      printed (.listRecords json) = summaryLines "/r" json [directory, []] record := by
    intro json
    refine (htells.lists json record (by rw [hdisk]; exact hall)).trans ?_
    simp only [hdisk, houtput, hdirectories, List.nil_append]
  refine ⟨hd, hbase, hnames, hmeets, Manager.find_of_only rfl hcandidates hlook, hfound,
    hdirectories, hlisted.2, ?_, ?_, ?_, ?_, ?_⟩
  · rw [hshown "/r/g/a/1/t" _ _ _ (by decide) hread]
    decide
  · rw [hshown "/r/t" _ _ _ (by decide) habove]
    decide
  · rw [hshown "/r/t" _ _ _ (by decide) habove]
    decide
  · rw [hsummed]
    decide
  · rw [hsummed]
    decide

end ArtifactCache.CommandLine
