import ArtifactCache.Proofs.Manager.Installed

/-! Downloaded artifacts. Where a file was downloaded from is never read as the note that it was
installed, as long as more than blanks is left of the repository's identifier when it is read. -/
namespace ArtifactCache

open Tracking (Record Changes Legible Rewritten rereadKey reread readBack)
open Manager (Recorded originChanges arrivalOrigins trackingFile? recordBeside)
open Text (isBlank)

variable {m : Manager} {d : Disk} {division : Division} {trackingName path name key origin : String}
  {x : Manager.Arrival} {repository : RemoteRepository} {old r : Record} {changes : Changes}

/-- A key that is neither in a record nor set in it is not in what updates leave of it, if no other
key is read as it. -/
theorem Tracking.Rewritten.lacks (h : Rewritten changes old r)
    (hold : ∀ e ∈ old.entries, Legible e.1 e.2 ∧ e.1 ≠ key ∧ rereadKey e.1 ≠ key)
    (hnew : ∀ k value, changes.get? k = some (some value) →
      Legible k value ∧ k ≠ key ∧ rereadKey k ≠ key) :
    ∀ e ∈ r.entries, Legible e.1 e.2 ∧ e.1 ≠ key ∧ rereadKey e.1 ≠ key := by
  refine h.forall_entries (P := fun k value => Legible k value ∧ k ≠ key ∧ rereadKey k ≠ key)
    hold hnew ?_
  intro r m hr hread e he
  have hget := (KeyMap.mem_entries_iff m).1 he
  obtain ⟨hstorable, e', he', hkey, -⟩ :=
    Tracking.of_parse_render (fun e he => (hr e he).1) hread hget
  have hother := (hr e' he').2.2
  refine ⟨hstorable.trimmed.legible, ?_, ?_⟩
  · rwa [hkey]
  · rwa [hkey, Tracking.rereadKey_rereadKey]

/-- The note that a file was downloaded is not read as the note that it was installed. -/
theorem rereadKey_entryKey_ne (horigin : rereadKey origin ≠ "")
    (hlegible : Legible (entryKey name origin) "") :
    rereadKey (entryKey name origin) ≠ entryKey name installedOrigin := by
  have hshown : ∃ c ∈ origin.toList.map readBack, isBlank c = false := by
    simpa using Tracking.rereadKey_ne_empty_iff.1 horigin
  have hfirst : ∀ c, ((name.toList ++ ['>']).map readBack).head? = some c → isBlank c = false := by
    intro c hc
    rw [List.head?_map] at hc
    obtain ⟨c', hc', rfl⟩ := Option.map_eq_some_iff.1 hc
    have hblank : isBlank c' = false := by
      obtain ⟨d, hd, hblank⟩ := (legible_entryKey hlegible installedOrigin).head
      rw [toList_entryKey] at hd
      cases hc'.symm.trans hd
      exact hblank
    rwa [Tracking.readBack_of_not_blank hblank]
  obtain ⟨es, hes, hstrip⟩ := Text.strip_append hfirst (by simp) hshown
  have htext : (rereadKey (entryKey name origin)).toList =
      (name.toList ++ ['>']).map readBack ++ es := by
    rw [← hstrip, rereadKey, Text.trim, reread, String.toList_ofList, String.toList_ofList,
      toList_entryKey]
    simp
  -- The file and the mark are all there is in the other note, and something is left behind them.
  intro heq
  have hlength := congrArg (fun s => s.toList.length) heq
  simp only [htext, toList_entryKey] at hlength
  exact hes (by simpa [installedOrigin] using hlength)

theorem Verdict.ofRecord_ne_installed {context : String} {repositories : List RemoteRepository}
    (h : r.contains (entryKey name installedOrigin) = false) :
    Verdict.ofRecord r name context repositories ≠ .installed := by
  intro hinstalled
  rw [ofRecord, if_neg (by simp [h])] at hinstalled
  split at hinstalled
  · cases hinstalled
  · split at hinstalled <;> cases hinstalled

theorem Verdict.ofRecord_ne_untracked {context : String} {repositories : List RemoteRepository}
    (h : r.contains (entryKey name origin) = true) :
    Verdict.ofRecord r name context repositories ≠ .untracked := by
  have htracked : isTracked r name = true :=
    isTracked_iff.2 ⟨origin, (KeyMap.get?_isSome_iff_mem_keys r).1 h⟩
  rw [ne_eq, ofRecord_eq_untracked_iff, htracked]
  exact nofun

/-- Something is left of the key of a repository if something is left of its identifier, and always
of that of a repository manager. -/
theorem rereadKey_key_ne (hid : repository.members = none → rereadKey repository.id ≠ "")
    (context : String) : rereadKey (repository.key context) ≠ "" := by
  rw [RemoteRepository.key]
  split
  · rename_i hmembers
    exact hid hmembers
  · rw [Tracking.rereadKey_ne_empty_iff]
    exact ⟨'-', by simp, by decide⟩

theorem entryKey_ne_installed (h : origin ≠ "") :
    entryKey name origin ≠ entryKey name installedOrigin := by
  intro heq
  have hlists := congrArg String.toList heq
  rw [toList_entryKey, toList_entryKey] at hlists
  exact h (String.toList_inj.1 (List.cons.inj (List.append_cancel_left hlists)).2)

/-- The note that a file was installed is not in the record of its directory after the file was
registered as downloaded, if it was not there before. -/
theorem Manager.add_lacks_installed (hd : d.IsTree)
    (hmode : m.mode = .enhanced division trackingName) (hx : x.repository = some repository)
    (hid : repository.members = none → rereadKey repository.id ≠ "")
    (hpath : trackingFile? trackingName (m.arrivalFile x) = some path)
    (hname : Path.fileName? (m.arrivalFile x) = some name)
    (hold : ∀ old, Tracking.read d path = .ok (some old) ∨
      Tracking.read (d.makeParents path).1 path = .ok (some old) → ∀ e ∈ old.entries,
        e.1 ≠ entryKey name installedOrigin ∧ rereadKey e.1 ≠ entryKey name installedOrigin)
    (hok : (m.add d x).fault = none)
    (hread : Tracking.read (m.add d x).disk path = .ok (some r)) :
    r.contains (entryKey name installedOrigin) = false := by
  rw [← Bool.not_eq_true, KeyMap.contains]
  intro hcontains
  obtain ⟨value, hvalue⟩ := Option.isSome_iff_exists.1 hcontains
  have hentry := (KeyMap.mem_entries_iff r).2 hvalue
  rcases add_updated hd hmode hok with hsame | ⟨_, _, place, old, r', hpath', hname', hupdated⟩
  · rw [hsame] at hread
    exact (hold r (.inl hread) _ hentry).1 rfl
  cases hpath.symm.trans hpath'
  cases hname.symm.trans hname'
  -- What is read is trimmed, so the key in question begins with no blank, and new keys begin as it.
  have hlegible := legible_entryKey (Tracking.read_trimmed hread _ hentry).legible
  have hnew : ∀ k value, (originChanges name (arrivalOrigins x)).get? k = some (some value) →
      Legible k value ∧ k ≠ entryKey name installedOrigin ∧
        rereadKey k ≠ entryKey name installedOrigin := by
    intro k value hk
    obtain ⟨o, ho, rfl, rfl⟩ := exists_of_originChanges hk
    have horigin : rereadKey o ≠ "" := by
      simp only [arrivalOrigins, hx] at ho
      obtain ⟨context, -, rfl⟩ := List.mem_map.1 ho
      exact rereadKey_key_ne hid context
    refine ⟨hlegible o, entryKey_ne_installed ?_, rereadKey_entryKey_ne horigin (hlegible o)⟩
    rintro rfl
    exact horigin rfl
  have hprior := hupdated.forall_old (P := fun k value => Legible k value ∧
      k ≠ entryKey name installedOrigin ∧ rereadKey k ≠ entryKey name installedOrigin)
    fun old hbefore e he =>
      ⟨(Tracking.read_trimmed hbefore e he).legible, hold old (.inr hbefore) e he⟩
  have hlacks := hupdated.rewritten.lacks hprior hnew
  obtain ⟨-, e, he, hkey, -⟩ := Tracking.of_parse_render (fun e he => (hlacks e he).1)
    (hupdated.parse_of_read hread) hvalue
  exact (hlacks e he).2.2 hkey.symm

/-- A file that was registered as downloaded from a repository of whose identifier something is left
when it is read is never taken for an installed one, unless its record said so before or held a key
that is read so. As long as any origin of the file is on record, it is not answered to anyone as a
file without a repository. -/
theorem Manager.find_add_downloaded (hd : d.IsTree)
    (hmode : m.mode = .enhanced division trackingName) (hx : x.repository = some repository)
    (hid : repository.members = none → rereadKey repository.id ≠ "")
    (hpath : trackingFile? trackingName (m.arrivalFile x) = some path)
    (hname : Path.fileName? (m.arrivalFile x) = some name)
    (hold : ∀ old, Tracking.read d path = .ok (some old) ∨
      Tracking.read (d.makeParents path).1 path = .ok (some old) → ∀ e ∈ old.entries,
        e.1 ≠ entryKey name installedOrigin ∧ rereadKey e.1 ≠ entryKey name installedOrigin)
    (hok : (m.add d x).fault = none) :
    (∀ r, Tracking.read (m.add d x).disk path = .ok (some r) →
      r.contains (entryKey name installedOrigin) = false) ∧
    (∀ q, ∀ v ∈ m.visits (m.add d x).disk trackingName q, v.file = m.arrivalFile x →
      v.verdict? ≠ some .installed) ∧
    ∀ origin, Recorded (m.add d x).disk trackingName (m.arrivalFile x) origin →
      ∀ q, m.find (m.add d x).disk q ≠ .ok ⟨some (m.arrivalFile x), true, none⟩ := by
  have hlacks : ∀ r, Tracking.read (m.add d x).disk path = .ok (some r) →
      r.contains (entryKey name installedOrigin) = false :=
    fun r => add_lacks_installed hd hmode hx hid hpath hname hold hok
  generalize hdisk : (m.add d x).disk = d' at hlacks ⊢
  have hverdict : ∀ q, ∀ v ∈ m.visits d' trackingName q, v.file = m.arrivalFile x →
      ∀ verdict, v.verdict? = some verdict → ∃ record,
        recordBeside d' trackingName (m.arrivalFile x) = .ok record ∧ verdict ≠ .installed ∧
          verdict = .ofRecord (record.getD .empty) name q.context q.repositories := by
    intro q v hv hfile verdict hverdict
    obtain ⟨file, -, rfl⟩ := mem_visitsOf hv
    rw [look_file] at hfile
    obtain ⟨name', record, hname', hrecord, rfl⟩ := verdict_of_look hverdict
    rw [hfile] at hname' hrecord
    cases hname.symm.trans hname'
    refine ⟨record, hrecord, Verdict.ofRecord_ne_installed ?_, rfl⟩
    cases record with
    | none => rfl
    | some r =>
      rw [recordBeside, hpath] at hrecord
      exact hlacks r hrecord
  refine ⟨hlacks, ?_, ?_⟩
  · intro q v hv hfile hinstalled
    obtain ⟨record, -, hne, -⟩ := hverdict q v hv hfile _ hinstalled
    exact hne rfl
  · rintro origin ⟨name', record, hname', hrecord, hentry⟩ q hfind
    cases hname.symm.trans hname'
    rw [find_enhanced hmode] at hfind
    obtain ⟨v, hv, hfile, verdict, hmet, haccepts, hnone⟩ := exists_of_conclude hfind
    obtain ⟨record', hrecord', hne, hsays⟩ := hverdict q v hv hfile verdict hmet
    cases hrecord.symm.trans hrecord'
    have huntracked : verdict ≠ .untracked := hsays ▸ Verdict.ofRecord_ne_untracked hentry
    cases verdict with
    | installed => exact hne rfl
    | obtained s => cases hnone
    | untracked => exact huntracked rfl
    | foreign => cases haccepts

theorem Manager.find_add_downloaded_central :
    let m : Manager := ⟨⟨"/r", "enhanced"⟩, .enhanced .flat "t"⟩
    let a : Artifact := ⟨"g", "a", "", "jar", "1-SNAPSHOT"⟩
    let central : RemoteRepository := { id := "central", url := "https://repo" }
    let x : Arrival := ⟨a, some central, [""]⟩
    let d := Disk.single ["r", "g", "a", "1-SNAPSHOT", "a-1-SNAPSHOT.jar"] (.text "")
    d.IsTree ∧ (m.add d x).fault = none ∧
      Recorded (m.add d x).disk "t" (m.arrivalFile x) "central" ∧
      ∀ q, m.find (m.add d x).disk q ≠ .ok ⟨some (m.arrivalFile x), true, none⟩ := by
  intro m a central x d
  obtain ⟨hd, hfile, hp, hnew, hnone⟩ := Manager.prepared_single
  have hpath : trackingFile? "t" (m.arrivalFile x) = some "/r/g/a/1-SNAPSHOT/t" := by decide
  have hname : Path.fileName? (m.arrivalFile x) = some "a-1-SNAPSHOT.jar" := by decide
  have hadd : m.add d x = Manager.register d "t" (m.arrivalFile x) ["central"] :=
    Manager.add_downloaded rfl d a central ""
  obtain ⟨hok, hback⟩ := Manager.register_recorded hpath hname hp hnew ["central"] (by decide)
  rw [← hadd] at hok hback
  have hold : ∀ old, Tracking.read d "/r/g/a/1-SNAPSHOT/t" = .ok (some old) ∨
      Tracking.read (d.makeParents "/r/g/a/1-SNAPSHOT/t").1 "/r/g/a/1-SNAPSHOT/t" = .ok (some old) →
      ∀ e ∈ old.entries, e.1 ≠ entryKey "a-1-SNAPSHOT.jar" installedOrigin ∧
        rereadKey e.1 ≠ entryKey "a-1-SNAPSHOT.jar" installedOrigin := by
    intro old hread
    have hsame : (d.makeParents "/r/g/a/1-SNAPSHOT/t").1 = d := congrArg Prod.fst hp.parents
    rw [hsame, or_self, hnone] at hread
    cases hread
  obtain ⟨-, -, hfind⟩ := Manager.find_add_downloaded hd rfl rfl (by decide) hpath hname hold hok
  have hcentral := hback "central" List.mem_cons_self
  exact ⟨hd, hok, hcentral, hfind "central" hcentral⟩

/-- The note that a file was downloaded from a repository with a blank for an identifier is read as
the note that it was installed, and then everyone may use the file. -/
theorem Manager.find_add_blank :
    let m : Manager := ⟨⟨"/r", "enhanced"⟩, .enhanced .flat "t"⟩
    let a : Artifact := ⟨"g", "a", "", "jar", "1-SNAPSHOT"⟩
    let blank : RemoteRepository := { id := " ", url := "https://repo" }
    let other : RemoteRepository := { id := "other", url := "https://other" }
    let x : Arrival := ⟨a, some blank, [""]⟩
    let d := Disk.single ["r", "g", "a", "1-SNAPSHOT", "a-1-SNAPSHOT.jar"] (.text "")
    d.IsTree ∧ Tracking.read d "/r/g/a/1-SNAPSHOT/t" = .ok none ∧ (m.add d x).fault = none ∧
      Tracking.read (m.add d x).disk "/r/g/a/1-SNAPSHOT/t" =
        .ok (some (.ofList [(entryKey "a-1-SNAPSHOT.jar" installedOrigin, "")])) ∧
      m.find (m.add d x).disk ⟨a, [other], ""⟩ = .ok ⟨some (m.arrivalFile x), true, none⟩ := by
  intro m a blank other x d
  obtain ⟨hd, hfile, hp, hnew, hnone⟩ := Manager.prepared_single
  have hpath : trackingFile? "t" (m.arrivalFile x) = some "/r/g/a/1-SNAPSHOT/t" := by decide
  have hname : Path.fileName? (m.arrivalFile x) = some "a-1-SNAPSHOT.jar" := by decide
  have hadd : m.add d x = Manager.register d "t" (m.arrivalFile x) [" "] :=
    Manager.add_downloaded rfl d a blank ""
  have hok : (m.add d x).fault = none := by rw [hadd, Manager.register_eq hpath hname hp hnew]
  have hread : Tracking.read (m.add d x).disk "/r/g/a/1-SNAPSHOT/t" =
      .ok (some (.ofList [(entryKey "a-1-SNAPSHOT.jar" installedOrigin, "")])) := by
    have hlegible : Legible "a-1-SNAPSHOT.jar> " "" := ⟨⟨'a', by decide, by decide⟩, by decide⟩
    have hkey : rereadKey "a-1-SNAPSHOT.jar> " = entryKey "a-1-SNAPSHOT.jar" installedOrigin := by
      decide
    have hparse := Tracking.parse_render_single hlegible (by decide)
    rw [hkey, ← String.toList_ofList (l := Tracking.render _)] at hparse
    have hwritten : Record.apply .empty (originChanges "a-1-SNAPSHOT.jar" [" "]) =
      .ofList [("a-1-SNAPSHOT.jar> ", "")] := by decide
    rw [hadd, Manager.register_eq hpath hname hp hnew, hwritten, hp.read_keep,
      Tracking.load_of_parse hparse]
    rfl
  have hback : Recorded (m.add d x).disk "t" (m.arrivalFile x) installedOrigin := by
    refine ⟨"a-1-SNAPSHOT.jar", .ofList [(entryKey "a-1-SNAPSHOT.jar" installedOrigin, "")], hname,
      ?_, by decide⟩
    rw [recordBeside, hpath]
    exact hread
  refine ⟨hd, hnone, hok, hread, ?_⟩
  have hresolve : m.arrivalFile x = "/r/g/a/1-SNAPSHOT/a-1-SNAPSHOT.jar" := by decide
  have hinstalled : m.resolve (m.installedPath a) = m.arrivalFile x := by decide
  have hthere := (Manager.add_lasts hd hok).isFile (hresolve ▸ hfile)
  rw [← hinstalled] at hback hthere ⊢
  exact Manager.find_installed rfl (by decide) hthere hback

end ArtifactCache
