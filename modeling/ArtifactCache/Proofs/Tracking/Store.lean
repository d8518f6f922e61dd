import ArtifactCache.Proofs.Files.Making
import ArtifactCache.Proofs.Tracking.RoundTrip
import ArtifactCache.Tracking.Store
import Mathlib

/-! Tracking files on disk. An update answers the record that was there with its changes; what is
read afterwards is that record just when all of its entries come back from a text as they were. -/
namespace ArtifactCache.Tracking

variable {d d' : Disk} {path text : String} {place : Place} {changes : Changes} {old m : Record}
  {answer : Option Record}

theorem get?_apply (r : Record) (changes : Changes) (key : String) :
    (r.apply changes).get? key = (changes.get? key).getD (r.get? key) := by
  have hchange : ∀ (r : Record) (c : String × Option String) (j : String),
      (Record.change r c.1 c.2).get? j = if j = c.1 then c.2 else r.get? j := by
    intro r c j
    obtain ⟨key, value⟩ := c
    cases value with
    | none => exact KeyMap.get?_erase r key j
    | some value => exact KeyMap.get?_insert r key j value
  have := KeyMap.get?_foldl (g := id) hchange changes.sorted r key
  rwa [Option.map_id_apply] at this

/-- What holds of the entries of a record and of those that are set in it holds of all that follow. -/
theorem forall_apply {P : String → String → Prop} (hold : ∀ e ∈ old.entries, P e.1 e.2)
    (hnew : ∀ key value, changes.get? key = some (some value) → P key value) :
    ∀ e ∈ (old.apply changes).entries, P e.1 e.2 := by
  rintro ⟨key, value⟩ he
  have hget := (KeyMap.mem_entries_iff _).1 he
  rw [get?_apply] at hget
  cases hkey : changes.get? key with
  | none =>
    rw [hkey] at hget
    exact hold _ ((KeyMap.mem_entries_iff old).2 hget)
  | some v =>
    rw [hkey] at hget
    have hv : v = some value := hget
    exact hnew key value (hkey.trans (congrArg some hv))

theorem update_eq (d : Disk) (path : String) (changes : Changes) : update d path changes =
    match d.makeParents path with
    | (d, .error e) => (d, .error (.trackingIo path e))
    | (d, .ok ()) => match d.writable path with
      | .error e => (d, .error (.trackingIo path (if e = .noEntry then .kind .notFound else e)))
      | .ok place => match existing d path place with
        | .error f => (d, .error f)
        | .ok r => (d.put place (.file (.text (String.ofList (render (r.apply changes))))),
            .ok (r.apply changes)) := by
  rw [update, Disk.makeParents]
  cases Path.parent? path with
  | none => rfl
  | some directory =>
    simp only
    cases d.makeDirectories directory with
    | mk d₁ made => cases made <;> rfl

/-- What an update does that succeeds. -/
theorem update_ok (hd : d.IsTree) (h : update d path changes = (d', .ok m)) :
    (d.makeParents path).2 = .ok () ∧ ∃ place old,
      (d.makeParents path).1.locate path = .ok ⟨place, false⟩ ∧ (d.makeParents path).1.Ends place ∧
      (d.makeParents path).1.at? place.dropLast = some .directory ∧
      existing (d.makeParents path).1 path place = .ok old ∧ m = old.apply changes ∧
      d' = (d.makeParents path).1.put place (.file (.text (String.ofList (render m)))) := by
  have htree := (Disk.makeParents_grown hd path).2
  rw [update_eq] at h
  generalize d.makeParents path = p at h htree ⊢
  obtain ⟨d₁, made⟩ := p
  cases made with
  | error e => cases h
  | ok _ =>
    refine ⟨rfl, ?_⟩
    cases hw : d₁.writable path with
    | error e => simp [hw] at h
    | ok place =>
      cases he : existing d₁ path place with
      | error f => simp [hw, he] at h
      | ok old =>
        simp only [hw, he, Prod.mk.injEq, Except.ok.injEq] at h
        obtain ⟨hl, hdir⟩ := Disk.writable_ok hw
        obtain ⟨-, hleads⟩ := Disk.locate_eq_ok_iff.1 hl
        rcases htree.leads hleads (htree.start path) with hdir' | ⟨hend, habove⟩
        · exact absurd hdir' hdir
        · exact ⟨place, old, hl, hend, habove, he, h.2.symm, h.2 ▸ h.1.symm⟩

theorem readText_of_locate (hl : d.locate path = .ok ⟨place, false⟩)
    (hat : d.at? place = some (.file (.text text))) : d.readText path = .ok text := by
  have hr := Disk.resolve_eq_ok_iff.2 ⟨false, hl, hat, nofun⟩
  rw [Disk.readText, hr]
  rfl

theorem load_of_parse (h : parse text.toList = .ok m) (path : String) : load path text = .ok m := by
  rw [load, h]

theorem parse_of_load (h : load path text = .ok m) : parse text.toList = .ok m := by
  rw [load] at h
  split at h
  · rename_i hparse
    rw [hparse, Except.ok.inj h]
  · cases h

/-- A record that is read lies as a text where the path leads. -/
theorem read_eq_some (h : read d path = .ok (some m)) : ∃ p text,
    d.locate path = .ok ⟨p, false⟩ ∧ d.at? p = some (.file (.text text)) ∧
      parse text.toList = .ok m := by
  rw [read] at h
  split at h
  · rename_i text htext
    obtain ⟨r, hload, hr⟩ := Result.map_eq_ok.1 h
    cases hr
    obtain ⟨⟨p, e⟩, hresolve, he⟩ := Result.bind_eq_ok.1 htext
    obtain ⟨slash, hl, hat, hslash⟩ := Disk.resolve_eq_ok_iff.1 hresolve
    split at he
    · rename_i text' hentry
      cases hentry
      cases he
      cases slash with
      | true => cases hslash rfl
      | false => exact ⟨p, text, hl, hat, parse_of_load hload⟩
    · cases he
    · cases he
  · split at h <;> cases h

/-- What is read from a tracking file is trimmed. -/
theorem read_trimmed (h : read d path = .ok (some m)) : ∀ e ∈ m.entries, Trimmed e.1 e.2 := by
  rintro ⟨key, value⟩ he
  obtain ⟨p, text, -, -, hparse⟩ := read_eq_some h
  exact parse_trimmed hparse ((KeyMap.mem_entries_iff _).1 he)

theorem read_of_text (hl : d.locate path = .ok ⟨place, false⟩)
    (hat : d.at? place = some (.file (.text text))) :
    read d path = (load path text).map some := by
  rw [read, readText_of_locate hl hat]

theorem read_of_bytes {bytes : List UInt8} (hl : d.locate path = .ok ⟨place, false⟩)
    (hat : d.at? place = some (.file (.bytes bytes))) :
    read d path = .error (.trackingIo path .notText) := by
  have htext : d.readText path = .error .notText := by
    rw [Disk.readText, Disk.resolve_eq_ok_iff.2 ⟨false, hl, hat, nofun⟩]
    rfl
  rw [read, htext]
  rfl

/-- No file lies where a path leads at which no record is found. -/
theorem not_file_of_read_none {content : Content} (h : read d path = .ok none)
    (hl : d.locate path = .ok ⟨place, false⟩) : d.at? place ≠ some (.file content) := by
  intro hat
  cases content with
  | text text =>
    rw [read_of_text hl hat] at h
    obtain ⟨r, -, hr⟩ := Result.map_eq_ok.1 h
    cases hr
  | bytes bytes =>
    rw [read_of_bytes hl hat] at h
    cases h

theorem read_of_none (h : d.resolve path = .error .noEntry) : read d path = .ok none := by
  have : d.readText path = .error .noEntry := by
    rw [Disk.readText, h]
    rfl
  rw [read, this]
  rfl

/-- What lies at the place a path leads to is what is read there. -/
theorem read_of_existing (hl : d.locate path = .ok ⟨place, false⟩) (hend : d.Ends place)
    (he : existing d path place = .ok old) :
    ∃ answer, read d path = .ok answer ∧ answer.getD .empty = old := by
  rcases hend with hnone | ⟨content, hfile⟩
  · refine ⟨none, read_of_none (Disk.resolve_of_none hl hnone), ?_⟩
    rw [existing, hnone] at he
    exact Except.ok.inj he
  · cases content with
    | bytes bytes =>
      rw [existing, hfile] at he
      cases he
    | text text =>
      rw [existing, hfile] at he
      have hload : load path text = .ok old := he
      exact ⟨some old, by rw [read_of_text hl hfile, hload]; rfl, rfl⟩

theorem read_eq_of_resolve {d₁ : Disk} (h : d.resolve path = d₁.resolve path) :
    read d path = read d₁ path := by
  rw [read, read, Disk.readText, Disk.readText, h]

/-- What an update finds is what could be read before. -/
theorem read_makeParents (hd : d.IsTree) (hok : (d.makeParents path).2 = .ok ())
    (hl : (d.makeParents path).1.locate path = .ok ⟨place, false⟩)
    (hend : (d.makeParents path).1.Ends place) (hread : read (d.makeParents path).1 path = .ok answer) :
    read d path = .ok answer ∨ read d path = .ok none ∧ ".." ∈ Path.names path := by
  have hgrown := (Disk.makeParents_grown hd path).1
  rcases hgrown.locate_back hl with hl' | hl'
  · left
    rw [← hread]
    apply read_eq_of_resolve
    have hat : (d.makeParents path).1.at? place = d.at? place := by
      rcases hgrown.entry place with heq | ⟨-, hdir⟩
      · exact heq
      · exact absurd hdir hend.not_directory
    simp only [Disk.resolve, hl, hl', bind, Except.bind, hat]
  · have hnone : read d path = .ok none := by
      apply read_of_none
      simp only [Disk.resolve, hl', bind, Except.bind]
    by_cases hback : ".." ∈ Path.names path
    · exact .inr ⟨hnone, hback⟩
    · left
      rcases Disk.makeParents_same hd hok hback hl with hsame | habsent
      · rw [hsame] at hread
        exact hread
      · rw [read_of_none (Disk.resolve_of_none hl habsent)] at hread
        rw [hnone, hread]

theorem read_render (hl : d.locate path = .ok ⟨place, false⟩)
    (hat : d.at? place = some (.file (.text (String.ofList (render m))))) :
    read d path = .ok (some m) ↔ ∀ e ∈ m.entries, Storable e.1 e.2 := by
  rw [← parse_render_iff, read_of_text hl hat, load, String.toList_ofList]
  cases parse (render m) with
  | error f => simp [Except.map]
  | ok r => simp [Except.map]

/-- An update answers the record that was there with its changes. That record is read afterwards just
when each of its entries has a trimmed key and a trimmed value without vertical tabs and form feeds,
and its key is not empty and begins with no bracket. -/
theorem update_read_iff (hd : d.IsTree) (h : update d path changes = (d', .ok m)) :
    (∃ answer, read (d.makeParents path).1 path = .ok answer ∧
      (read d path = .ok answer ∨ read d path = .ok none ∧ ".." ∈ Path.names path) ∧
      ∀ key, m.get? key = (changes.get? key).getD ((answer.getD .empty).get? key)) ∧
    (read d' path = .ok (some m) ↔ ∀ e ∈ m.entries, Storable e.1 e.2) := by
  obtain ⟨hok, place, old, hl, hend, -, hexisting, rfl, rfl⟩ := update_ok hd h
  obtain ⟨answer, hread, rfl⟩ := read_of_existing hl hend hexisting
  refine ⟨⟨answer, hread, read_makeParents hd hok hl hend hread, get?_apply _ _⟩, ?_⟩
  apply read_render (Disk.locate_put hl hend _)
  rw [Disk.at?_put _ _ _ _ hend.ne_nil, if_pos rfl]

theorem isTree_singleton (n : String) (content : Content) :
    (⟨[([n], .file content)], []⟩ : Disk).IsTree := by
  apply Disk.isTree_of_entries rfl
  intro x hx
  rw [List.mem_singleton.1 hx]
  rfl

theorem update_read_iff_file :
    let d : Disk := ⟨[(["t"], .file (.text "b>central=\n"))], []⟩
    let m : Record := .ofList [("a>central", ""), ("b>central", "")]
    let d' := (update d "/t" (.ofList [("a>central", some "")])).1
    d.IsTree ∧ update d "/t" (.ofList [("a>central", some "")]) = (d', .ok m) ∧
      read d' "/t" = .ok (some m) := by
  have hd := isTree_singleton "t" (.text "b>central=\n")
  have h : update ⟨[(["t"], .file (.text "b>central=\n"))], []⟩ "/t"
      (.ofList [("a>central", some "")]) =
        (_, .ok (.ofList [("a>central", ""), ("b>central", "")])) :=
    Prod.ext rfl (by cbv)
  exact ⟨hd, h, (update_read_iff hd h).2.2 (by decide)⟩

/-- A vertical tab comes back as a letter. -/
theorem update_vertical_tab : ∃ d' m,
    update {} "t" (.ofList [("a\x0bb>central", some "")]) = (d', .ok m) ∧
      read d' "t" = .ok (some (.ofList [("avb>central", "")])) ∧ read d' "t" ≠ .ok (some m) := by
  have hread : read (update {} "t" (.ofList [("a\x0bb>central", some "")])).1 "t" =
      .ok (some (.ofList [("avb>central", "")])) := by cbv
  have hne : (.ofList [("avb>central", "")] : Record) ≠ .ofList [("a\x0bb>central", "")] := by
    decide
  refine ⟨_, .ofList [("a\x0bb>central", "")], Prod.ext rfl (by cbv), hread, ?_⟩
  intro h
  rw [hread] at h
  exact hne (Option.some.inj (Except.ok.inj h))

end ArtifactCache.Tracking
