import ArtifactCache.Proofs.Files.Lasting
import ArtifactCache.Proofs.Tracking.Store

/-! Updates after the first. Once the directories above a tracking file are there and it can be
written, an update changes what is in it and nothing else on the disk. -/
namespace ArtifactCache.Tracking

variable {d d' : Disk} {path : String} {place : Place} {changes : Changes} {r m : Record}
  {answer : Option Record} {old : Record}

/-- The disk with a record in the tracking file at a place. -/
def keep (d : Disk) (place : Place) (r : Record) : Disk :=
  d.put place (.file (.text (String.ofList (render r))))

theorem keep_keep (d : Disk) (place : Place) (r m : Record) :
    keep (keep d place r) place m = keep d place m :=
  Disk.put_put _ _ _ _

/-- A record whose entries come back as they are written comes back as a whole. -/
theorem load_render (hr : ∀ e ∈ r.entries, Storable e.1 e.2) (path : String) :
    load path (String.ofList (render r)) = .ok r := by
  apply load_of_parse
  rw [String.toList_ofList, parse_render_iff.2 hr]

/-- Whether a tracking file can be written, and the directories above it are there. -/
structure Prepared (d : Disk) (path : String) (place : Place) : Prop where
  tree : d.IsTree
  parents : d.makeParents path = (d, .ok ())
  writable : d.writable path = .ok place

namespace Prepared

theorem of_isDirectory {up : String} (hd : d.IsTree) (hup : Path.parent? path = some up)
    (hdir : d.isDirectory up = true) (hw : d.writable path = .ok place) :
    Prepared d path place := by
  refine ⟨hd, ?_, hw⟩
  simp only [Disk.makeParents, hup]
  exact Disk.makeDirectories_of_isDirectory hd (.inr hdir)

theorem leads (h : Prepared d path place) : d.locate path = .ok ⟨place, false⟩ :=
  (Disk.writable_ok h.writable).1

theorem ends (h : Prepared d path place) :
    d.Ends place ∧ d.at? place.dropLast = some .directory := by
  obtain ⟨hl, hdir⟩ := Disk.writable_ok h.writable
  obtain ⟨-, hleads⟩ := Disk.locate_eq_ok_iff.1 hl
  rcases h.tree.leads hleads (h.tree.start path) with hdir' | hend
  · exact absurd hdir' hdir
  · exact hend

theorem at?_keep (h : Prepared d path place) (r : Record) :
    (keep d place r).at? place = some (.file (.text (String.ofList (render r)))) := by
  rw [keep, Disk.at?_put _ _ _ _ h.ends.1.ne_nil, if_pos rfl]

theorem keep_leads (h : Prepared d path place) (r : Record) :
    (keep d place r).locate path = .ok ⟨place, false⟩ :=
  Disk.locate_put h.leads h.ends.1 _

/-- What was written can be written again. -/
theorem kept (h : Prepared d path place) (r : Record) : Prepared (keep d place r) path place := by
  have htree := h.tree.put h.ends.1.not_directory h.ends.2
    (.file (.text (String.ofList (render r))))
  refine ⟨htree, ?_, Disk.writable_put h.writable h.ends.1 _⟩
  have hok : (d.makeParents path).2 = .ok () := by rw [h.parents]
  apply Disk.makeParents_again htree hok
  rw [h.parents]
  exact h.ends.1.lasts_put _

theorem existing_keep (h : Prepared d path place) (r : Record) :
    existing (keep d place r) path place = load path (String.ofList (render r)) := by
  rw [existing, h.at?_keep]

theorem read_keep (h : Prepared d path place) (r : Record) :
    read (keep d place r) path = (load path (String.ofList (render r))).map some :=
  read_of_text (h.keep_leads r) (h.at?_keep r)

theorem read_keep_storable (h : Prepared d path place)
    (hr : ∀ e ∈ r.entries, Storable e.1 e.2) : read (keep d place r) path = .ok (some r) := by
  rw [h.read_keep, load_render hr]
  rfl

/-- An update puts the record it starts from back with its changes. -/
theorem update_eq (h : Prepared d path place) (he : existing d path place = .ok r)
    (changes : Changes) :
    update d path changes = (keep d place (r.apply changes), .ok (r.apply changes)) := by
  rw [Tracking.update_eq, h.parents]
  simp only [h.writable, he]
  rfl

theorem existing_of_read (h : Prepared d path place) (hr : read d path = .ok answer) :
    existing d path place = .ok (answer.getD .empty) := by
  cases answer with
  | none =>
    rcases h.ends.1 with hnone | ⟨content, hfile⟩
    · rw [existing, hnone]
      rfl
    · exact absurd hfile (not_file_of_read_none hr h.leads)
  | some r =>
    obtain ⟨p, text, hl, hat, hparse⟩ := read_eq_some hr
    cases h.leads.symm.trans hl
    rw [existing, hat]
    exact load_of_parse hparse path

end Prepared

theorem update_makeParents (h : (d.makeParents path).2 = .ok ())
    (hp : Prepared (d.makeParents path).1 path place) (changes : Changes) :
    update d path changes = update (d.makeParents path).1 path changes := by
  have hsplit : d.makeParents path = ((d.makeParents path).1, .ok ()) := Prod.ext rfl h
  rw [update_eq, update_eq, hp.parents, hsplit]

/-- Once the directories above it are made, a tracking file that can be written is prepared. -/
theorem prepared_makeParents (hd : d.IsTree) (hok : (d.makeParents path).2 = .ok ())
    (hw : (d.makeParents path).1.writable path = .ok place) :
    Prepared (d.makeParents path).1 path place :=
  have htree := (Disk.makeParents_grown hd path).2
  ⟨htree, Disk.makeParents_again htree hok (.refl _), hw⟩

theorem prepared_of_not_unwritable (hd : d.IsTree) (h : ¬ d.Unwritable path) :
    (d.makeParents path).2 = .ok () ∧ ∃ place, Prepared (d.makeParents path).1 path place := by
  have hok : (d.makeParents path).2 = .ok () := by
    cases hmade : (d.makeParents path).2 with
    | error e => exact absurd (.inl ⟨e, hmade⟩) h
    | ok _ => rfl
  cases hw : (d.makeParents path).1.writable path with
  | error e => exact absurd (.inr ⟨e, hw⟩) h
  | ok place => exact ⟨hok, place, prepared_makeParents hd hok hw⟩

/-- What updates with the same changes leave of a record: each but the first reads what the one
before it has written. -/
inductive Rewritten (changes : Changes) (old : Record) : Record → Prop
  | once : Rewritten changes old (old.apply changes)
  | again {r m : Record} (h : Rewritten changes old r) (hread : parse (render r) = .ok m) :
    Rewritten changes old (m.apply changes)

/-- What holds of the entries of a record and of those that are set in it holds of all that updates
leave of it, if it is never lost by reading what was written. -/
theorem Rewritten.forall_entries {P : String → String → Prop} (h : Rewritten changes old r)
    (hold : ∀ e ∈ old.entries, P e.1 e.2)
    (hnew : ∀ key value, changes.get? key = some (some value) → P key value)
    (hread : ∀ r m, (∀ e ∈ r.entries, P e.1 e.2) → parse (render r) = .ok m →
      ∀ e ∈ m.entries, P e.1 e.2) : ∀ e ∈ r.entries, P e.1 e.2 := by
  induction h with
  | once => exact forall_apply hold hnew
  | again _ hparse ih => exact forall_apply (hread _ _ ih hparse) hnew

/-- What one or more updates of a tracking file with the same changes did: they made the directories
above it and put another record in the place of the one that was there. -/
structure Updated (d : Disk) (path : String) (place : Place) (changes : Changes) (old r : Record)
    (d' : Disk) : Prop where
  made : (d.makeParents path).2 = .ok ()
  prepared : Prepared (d.makeParents path).1 path place
  existing : existing (d.makeParents path).1 path place = .ok old
  rewritten : Rewritten changes old r
  disk : d' = keep (d.makeParents path).1 place r

/-- What an update did that succeeded. -/
theorem updated_of_update (hd : d.IsTree) (h : update d path changes = (d', .ok m)) :
    ∃ place old, Updated d path place changes old m d' := by
  obtain ⟨hok, place, old, hl, hend, -, hexisting, hm, hd'⟩ := update_ok hd h
  have hw : ∃ place', (d.makeParents path).1.writable path = .ok place' := by
    rw [update_eq] at h
    have hsplit : d.makeParents path = ((d.makeParents path).1, .ok ()) := Prod.ext rfl hok
    rw [hsplit] at h
    simp only at h
    split at h
    · cases h
    · exact ⟨_, by assumption⟩
  obtain ⟨place', hw⟩ := hw
  have hl' := (Disk.writable_ok hw).1
  rw [hl] at hl'
  cases hl'
  exact ⟨place, old, hok, prepared_makeParents hd hok hw, hexisting, hm ▸ .once, hd'⟩

namespace Updated

variable {d'' : Disk}

theorem leads (h : Updated d path place changes old r d') :
    d'.locate path = .ok ⟨place, false⟩ := by
  rw [h.disk]
  exact h.prepared.keep_leads r

theorem at?_place (h : Updated d path place changes old r d') :
    d'.at? place = some (.file (.text (String.ofList (render r)))) := by
  rw [h.disk]
  exact h.prepared.at?_keep r

theorem read_eq (h : Updated d path place changes old r d') :
    read d' path = (load path (String.ofList (render r))).map some :=
  read_of_text h.leads h.at?_place

theorem parse_of_read (h : Updated d path place changes old r d')
    (hr : read d' path = .ok (some m)) : parse (render r) = .ok m := by
  rw [h.read_eq] at hr
  obtain ⟨_, hload, hm⟩ := Result.map_eq_ok.1 hr
  cases hm
  simpa using parse_of_load hload

/-- What holds of all that could be read before holds of all that was there. -/
theorem forall_old {P : String → String → Prop} (h : Updated d path place changes old r d')
    (hread : ∀ m, read (d.makeParents path).1 path = .ok (some m) → ∀ e ∈ m.entries, P e.1 e.2) :
    ∀ e ∈ old.entries, P e.1 e.2 := by
  obtain ⟨answer, hbefore, hanswer⟩ :=
    read_of_existing h.prepared.leads h.prepared.ends.1 h.existing
  cases answer with
  | none =>
    rw [← hanswer]
    exact nofun
  | some m =>
    cases hanswer
    exact hread m hbefore

/-- What was there before is there afterwards. -/
theorem lasts (h : Updated d path place changes old r d') (hd : d.IsTree) : d.Lasts d' := by
  rw [h.disk]
  exact (Disk.makeParents_grown hd path).1.lasts.trans (h.prepared.ends.1.lasts_put _)

/-- The same changes once more. -/
theorem again (h : Updated d path place changes old r d')
    (hu : update d' path changes = (d'', .ok m)) : Updated d path place changes old m d'' := by
  have hp := h.prepared.kept r
  rw [h.disk] at hu
  cases hparse : parse (render r) with
  | error f =>
    have hload : Tracking.existing (keep (d.makeParents path).1 place r) path place =
        .error (.trackingFormat path (.syntaxFailure f)) := by
      rw [h.prepared.existing_keep, load, String.toList_ofList, hparse]
    rw [update_eq, hp.parents] at hu
    simp [hp.writable, hload] at hu
  | ok old' =>
    have hload : Tracking.existing (keep (d.makeParents path).1 place r) path place = .ok old' := by
      rw [h.prepared.existing_keep]
      apply load_of_parse
      rw [String.toList_ofList, hparse]
    rw [hp.update_eq hload, keep_keep] at hu
    cases hu
    exact ⟨h.made, h.prepared, h.existing, h.rewritten.again hparse, rfl⟩

end Updated

end ArtifactCache.Tracking
