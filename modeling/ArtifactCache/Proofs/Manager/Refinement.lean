import ArtifactCache.Proofs.Manager.Origin
import ArtifactCache.Proofs.Manager.Places
import ArtifactCache.Proofs.Tracking.Kept

/-! Tracking files amount to a ledger: whatever commands are carried out on a disk, what is found is
what is found in the ledger they lead to. -/
namespace ArtifactCache

open Tracking (Keeps Record Storable)
open Manager (Request Answer Arrival Registered Visit)

variable {m : Manager} {trackingName rel : String} {d d' : Disk} {p : Place} {l : Ledger}
  {directory origins rels : List String} {content : Content}

/-- Whether a disk holds what a ledger says. -/
structure Represents (m : Manager) (trackingName : String) (d : Disk) (l : Ledger) : Prop where
  plain : d.IsPlain
  reached : m.Reached d
  files : ∀ rel, Proper trackingName rel →
    (Path.names rel ∈ l.files ↔ d.isFile (m.resolve rel) = true)
  records : ∀ directory, ∃ r, Keeps d (m.home d ++ (directory ++ [trackingName])) r ∧
    Holds l directory r
  unmarked : l.Unmarked

/-- Only one file is another one, or is there no more. -/
theorem Represents.artifact (h : Represents m trackingName d l) (hp : Proper trackingName rel)
    (hc : d.Changed d' (d.placeOf (m.resolve rel))) (hreached : m.Reached d') {files : Finset (List String)}
    (hrel : Path.names rel ∈ files ↔ d'.isFile (m.resolve rel) = true)
    (hother : ∀ n, n ≠ Path.names rel → (n ∈ files ↔ n ∈ l.files)) :
    Represents m trackingName d' ⟨files, l.origins⟩ := by
  refine ⟨hc.plain, hreached, ?_, ?_, h.unmarked⟩
  · intro rel' hp'
    by_cases heq : Path.names rel' = Path.names rel
    · rw [hp'.eq_of_names hp heq]
      exact hrel
    · have hne : d.placeOf (m.resolve rel') ≠ d.placeOf (m.resolve rel) := by
        rw [(hp'.placeOf m d).1, (hp.placeOf m d).1]
        exact fun hplace => heq (List.append_cancel_left hplace)
      rw [hother _ heq, h.files rel' hp',
        hc.isFile h.plain (hp'.filed m) hne (h.reached.seen (hp'.placeOf m d))]
  · intro directory
    obtain ⟨r, hk, hr⟩ := h.records directory
    refine ⟨r, ?_, hr.storable, hr.contains⟩
    rw [home_changed hc]
    apply Tracking.keeps_of_changed hc _ hk
    rw [(hp.placeOf m d).1]
    exact fun hplace => hp.names_ne directory (List.append_cancel_left hplace).symm

/-- Only one directory has another record. -/
theorem Represents.record (h : Represents m trackingName d l)
    (hc : d.Changed d' (m.home d ++ (directory ++ [trackingName]))) (hreached : m.Reached d') {r : Record}
    {origins : Finset (List String × String × String)}
    (hk : Keeps d' (m.home d ++ (directory ++ [trackingName])) r)
    (hr : Holds ⟨l.files, origins⟩ directory r)
    (hother : ∀ t, t.1 ≠ directory → (t ∈ origins ↔ t ∈ l.origins))
    (hmark : Ledger.Unmarked ⟨l.files, origins⟩) :
    Represents m trackingName d' ⟨l.files, origins⟩ := by
  refine ⟨hc.plain, hreached, ?_, ?_, hmark⟩
  · intro rel hp
    have hne : d.placeOf (m.resolve rel) ≠ m.home d ++ (directory ++ [trackingName]) := by
      rw [(hp.placeOf m d).1]
      exact fun hplace => hp.names_ne directory (List.append_cancel_left hplace)
    rw [hc.isFile h.plain (hp.filed m) hne (h.reached.seen (hp.placeOf m d))]
    exact h.files rel hp
  · intro directory'
    rw [home_changed hc]
    by_cases heq : directory' = directory
    · rw [heq]
      exact ⟨r, hk, hr⟩
    · obtain ⟨r', hk', hr'⟩ := h.records directory'
      refine ⟨r', Tracking.keeps_of_changed hc ?_ hk', hr'.storable, ?_⟩
      · intro hplace
        exact heq (List.append_inj' (List.append_cancel_left hplace) rfl).1
      · intro key
        rw [hr'.contains]
        simp only [hother (_, _) heq]

theorem place_refines (h : Represents m trackingName d l)
    (hp : Proper trackingName rel) (content : Content) :
    (∃ d', m.place d rel content = .ok d' ∧
      Represents m trackingName d' ⟨insert (Path.names rel) l.files, l.origins⟩) ∨
      d.Unwritable (m.resolve rel) ∧ ∃ e, m.place d rel content = .error (.io e) := by
  obtain ⟨hg, htree⟩ := Disk.makeParents_grown h.plain.tree (m.resolve rel)
  unfold Manager.place
  rw [Disk.Unwritable]
  generalize d.makeParents (m.resolve rel) = parents at hg htree
  obtain ⟨d₁, made⟩ := parents
  simp only at hg htree
  cases made with
  | error e => exact .inr ⟨.inl ⟨e, rfl⟩, e, rfl⟩
  | ok _ =>
    cases hw : d₁.write (m.resolve rel) content with
    | error e =>
      exact .inr ⟨.inr ⟨e, Disk.writable_of_write_error hw⟩, e, by simp only [hw, Except.mapError]⟩
    | ok d' =>
      obtain ⟨hc, hfile⟩ := h.plain.write hg htree (hp.filed m) hw
      have hclear : d'.ClearTo m.repository.base :=
        (hp.placeOf m d').2.1 ((hc.plain.isFile_iff (hp.filed m)).1 hfile).2.1
      refine .inl ⟨d', by simp only [hw, Except.mapError],
        h.artifact hp hc (h.reached.changed hc fun _ _ => hclear) ?_ ?_⟩
      · simp [hfile]
      · intro n hn
        rw [Finset.mem_insert, or_iff_right hn]

theorem remove_refines (h : Represents m trackingName d l)
    (hp : Proper trackingName rel) :
    (∃ d', d.removeFile (m.resolve rel) = .ok d' ∧
      Represents m trackingName d' ⟨l.files.erase (Path.names rel), l.origins⟩) ∨
      ∃ e, d.removeFile (m.resolve rel) = .error e := by
  cases hr : d.removeFile (m.resolve rel) with
  | error e => exact .inr ⟨e, rfl⟩
  | ok d' =>
    obtain ⟨hc, hnone⟩ := h.plain.removeFile (hp.filed m) hr
    refine .inl ⟨d', rfl, h.artifact hp hc (h.reached.changed hc ?_) ?_ ?_⟩
    · rw [hnone]
      exact nofun
    · rw [hc.plain.isFile_iff (hp.filed m), hc.placeOf, hnone]
      simp
    · intro n hn
      rw [Finset.mem_erase, and_iff_right hn]

theorem get?_originChanges (name : String) (origins : List String) (key : String) :
    (Manager.originChanges name origins).get? key =
      if ∃ o ∈ origins, key = entryKey name o then some (some "") else none := by
  have hvalue : ∀ e ∈ origins.map fun o => (entryKey name o, some ""), e.2 = some "" := by
    intro e he
    obtain ⟨o, -, rfl⟩ := List.mem_map.1 he
    rfl
  rw [Manager.originChanges, KeyMap.ofList, KeyMap.get?_foldl_insert_of_forall hvalue]
  simp [eq_comm]

/-- A record with more origins holds more origins. -/
theorem Holds.apply {r : Record} (h : Holds l (directoryOf rel) r)
    (horigins : ∀ o ∈ origins, Storable (entryKey (nameOf rel) o) "") :
    Holds (l.register rel origins) (directoryOf rel)
      (r.apply (Manager.originChanges (nameOf rel) origins)) := by
  have hget : ∀ key, (r.apply (Manager.originChanges (nameOf rel) origins)).get? key =
      if ∃ o ∈ origins, key = entryKey (nameOf rel) o then some "" else r.get? key := by
    intro key
    rw [Tracking.get?_apply, get?_originChanges]
    split <;> rfl
  refine ⟨?_, ?_⟩
  · intro e he
    have hmem := (KeyMap.mem_entries_iff _).1 he
    rw [hget] at hmem
    split at hmem
    · rename_i hkey
      obtain ⟨o, ho, hkey⟩ := hkey
      rw [hkey, ← Option.some.inj hmem]
      exact horigins o ho
    · exact h.storable e ((KeyMap.mem_entries_iff _).2 hmem)
  · intro key
    rw [KeyMap.contains, hget]
    split
    · rename_i hkey
      obtain ⟨o, ho, hkey⟩ := hkey
      simp only [Option.isSome_some, true_iff]
      refine ⟨nameOf rel, o, hkey, Finset.mem_union_right _ ?_⟩
      simpa using ho
    · rename_i hkey
      rw [← KeyMap.contains, h.contains]
      constructor
      · rintro ⟨name, origin, rfl, hmem⟩
        exact ⟨name, origin, rfl, Finset.mem_union_left _ hmem⟩
      · rintro ⟨name, origin, rfl, hmem⟩
        rcases Finset.mem_union.1 hmem with hmem | hmem
        · exact ⟨name, origin, rfl, hmem⟩
        · simp only [List.mem_toFinset, List.mem_map, Prod.mk.injEq] at hmem
          obtain ⟨o, ho, -, rfl, rfl⟩ := hmem
          exact absurd ⟨o, ho, rfl⟩ hkey

theorem register_refines (h : Represents m trackingName d l) (ht : Tracked m trackingName)
    (hp : Proper trackingName rel)
    (horigins : ∀ o ∈ origins, Storable (entryKey (nameOf rel) o) "") :
    ((Manager.register d trackingName (m.resolve rel) origins).fault = none ∧
      Represents m trackingName (Manager.register d trackingName (m.resolve rel) origins).disk
        (l.register rel origins)) ∨
      ∃ path e, Manager.trackingFile? trackingName (m.resolve rel) = some path ∧
        d.Unwritable path ∧ (Manager.register d trackingName (m.resolve rel) origins).fault =
          some (.trackingIo path e) := by
  obtain ⟨path, hpath, hfiled, hplace⟩ := ht.trackingFile hp
  obtain ⟨r, hk, hr⟩ := h.records (directoryOf rel)
  rw [← (hplace d).1] at hk
  rw [Manager.register, hpath, hp.fileName m]
  rcases Tracking.update_of_keeps h.plain hfiled hk (Manager.originChanges (nameOf rel) origins)
    with ⟨d', hupdate, hc, hclear, hat⟩ | ⟨hdenied, d', e, hupdate⟩
  · left
    simp only [hupdate]
    refine ⟨trivial, ?_⟩
    have hholds := hr.apply horigins
    have hk' := Tracking.keeps_render hat hholds.storable
    rw [(hplace d).1] at hc hk'
    have hreached := h.reached.changed hc fun _ _ => (hplace d').2.1 hclear
    refine h.record hc hreached hk' hholds ?_ ?_
    · intro t hne
      rw [Finset.mem_union, or_iff_left]
      intro hmem
      obtain ⟨o, -, rfl⟩ := List.mem_map.1 (List.mem_toFinset.1 hmem)
      exact hne rfl
    · intro t hmem
      rcases Finset.mem_union.1 hmem with hmem | hmem
      · exact h.unmarked t hmem
      · obtain ⟨o, -, rfl⟩ := List.mem_map.1 (List.mem_toFinset.1 hmem)
        exact hp.plain
  · right
    simp only [hupdate]
    exact ⟨path, e, rfl, hdenied, rfl⟩

theorem registerAll_refines (h : Represents m trackingName d l) (ht : Tracked m trackingName)
    (hrels : ∀ rel ∈ rels, Proper trackingName rel ∧
      ∀ o ∈ origins, Storable (entryKey (nameOf rel) o) "") :
    ((Manager.registerAll d trackingName origins (rels.map m.resolve)).fault = none ∧
      Represents m trackingName
        (Manager.registerAll d trackingName origins (rels.map m.resolve)).disk
        (rels.foldl (fun l rel => l.register rel origins) l)) ∨
      Manager.DeniedAmong trackingName origins d (rels.map m.resolve) ∧
        ∃ path e, (Manager.registerAll d trackingName origins (rels.map m.resolve)).fault =
          some (.trackingIo path e) := by
  induction rels generalizing d l with
  | nil => exact .inl ⟨rfl, h⟩
  | cons rel rels ih =>
    obtain ⟨hp, horigins⟩ := hrels rel List.mem_cons_self
    rw [List.map_cons, Manager.registerAll, List.foldl_cons, Manager.DeniedAmong]
    rcases register_refines h ht hp horigins with ⟨hfault, hrep⟩ | ⟨path, e, hpath, hdenied, hfault⟩
    · simp only [hfault]
      rcases ih hrep fun rel' hrel' => hrels rel' (List.mem_cons_of_mem _ hrel') with
        hrest | ⟨hdenied, hfault'⟩
      · exact .inl hrest
      · exact .inr ⟨.inr ⟨trivial, hdenied⟩, hfault'⟩
    · simp only [hfault]
      exact .inr ⟨.inl ⟨path, hpath, hdenied⟩, path, e, rfl⟩

theorem add_refines (h : Represents m trackingName d l) (ht : Tracked m trackingName) {x : Arrival}
    (hx : (Command.add x).Admissible m trackingName) :
    ((m.add d x).fault = none ∧ Represents m trackingName (m.add d x).disk (l.add m x)) ∨
      m.Denied trackingName d (.add x) ∧ ∃ path e, (m.add d x).fault = some (.trackingIo path e) := by
  obtain ⟨division, hmode⟩ := ht.mode
  rw [Manager.add, hmode, Ledger.add, Manager.Denied, Manager.arrivalFiles, Manager.arrivalOrigins]
  simp only [Command.Admissible] at hx
  cases hrepo : x.repository with
  | none =>
    simp only [hrepo] at hx ⊢
    have hrels : ∀ rel ∈ [m.installedPath x.artifact], Proper trackingName rel ∧
        ∀ o ∈ [installedOrigin], Storable (entryKey (nameOf rel) o) "" := by
      simpa [installedOrigin] using hx
    have hall := registerAll_refines h ht hrels
    simp only [List.map_cons, List.map_nil, List.foldl_cons, List.foldl_nil] at hall
    exact hall
  | some r =>
    simp only [hrepo] at hx ⊢
    have hrels : ∀ rel ∈ x.contexts.map fun _ => m.downloadedPath x.artifact r,
        Proper trackingName rel ∧
          ∀ o ∈ x.contexts.map r.key, Storable (entryKey (nameOf rel) o) "" := by
      intro rel hrel
      obtain ⟨context, hcontext, rfl⟩ := List.mem_map.1 hrel
      refine ⟨(hx context hcontext).1, ?_⟩
      intro o ho
      obtain ⟨context', hcontext', rfl⟩ := List.mem_map.1 ho
      exact (hx context' hcontext').2
    have hall := registerAll_refines h ht hrels
    rwa [List.map_map, List.foldl_map] at hall

theorem Holds.forget {directory : String} :
    Holds (l.forget directory) (Path.names directory) .empty := by
  refine ⟨nofun, ?_⟩
  intro key
  refine ⟨nofun, ?_⟩
  rintro ⟨name, origin, -, hmem⟩
  exact absurd rfl (Finset.mem_filter.1 hmem).2

theorem forget_refines (h : Represents m trackingName d l) (ht : Tracked m trackingName)
    {directory : String} (hdir : (Command.forget directory).Admissible m trackingName) :
    (∃ d', Tracking.delete d (Path.join (m.resolve directory) trackingName) = .ok d' ∧
      Represents m trackingName (d'.getD d) (l.forget directory)) ∨
      d.Refuses (Path.join (m.resolve directory) trackingName) ∧
        ∃ path e, Tracking.delete d (Path.join (m.resolve directory) trackingName) =
          .error (.trackingIo path e) := by
  obtain ⟨hfiled, hplace⟩ := ht.filed_forget hdir
  obtain ⟨r, hk, -⟩ := h.records (Path.names directory)
  rw [← (hplace d).1] at hk
  have hrep : ∀ {d' : Disk}, d.Changed d' (d.placeOf (Path.join (m.resolve directory) trackingName)) →
      m.Reached d' → Keeps d' (d.placeOf (Path.join (m.resolve directory) trackingName)) .empty →
      Represents m trackingName d' (l.forget directory) := by
    intro d' hc hreached hempty
    rw [(hplace d).1] at hc hempty
    refine h.record hc hreached hempty Holds.forget ?_ ?_
    · intro t hne
      rw [Finset.mem_filter, and_iff_left (by simpa using hne)]
    · intro t hmem
      exact h.unmarked t (Finset.mem_filter.1 hmem).1
  rcases Tracking.delete_of_keeps h.plain hfiled (h.reached.seen (hplace d)) hk with
    ⟨hdelete, rfl⟩ | ⟨d', hdelete, hc, hnone⟩ | ⟨hrefuses, e, hdelete⟩
  · exact .inl ⟨none, hdelete, hrep (.refl h.plain _) h.reached hk⟩
  · have hreached := h.reached.changed hc (by simp [hnone])
    exact .inl ⟨some d', hdelete, hrep hc hreached (.inl ⟨.inl hnone, rfl⟩)⟩
  · exact .inr ⟨hrefuses, _, e, hdelete⟩

end ArtifactCache
