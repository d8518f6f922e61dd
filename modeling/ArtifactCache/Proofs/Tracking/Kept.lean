import ArtifactCache.Proofs.Files.Change
import ArtifactCache.Proofs.Tracking.Store

/-! The record that a place keeps. On a disk without links, reading, updating and deleting a tracking
file either do to the record of its place what they say, or fail for a reason of the operating
system. -/
namespace ArtifactCache.Tracking

variable {d d' : Disk} {p q : Place} {path f : String} {r : Record}

/-- Whether a place keeps a record: a tracking file with its text, or nothing if it is empty. -/
def Keeps (d : Disk) (p : Place) (r : Record) : Prop :=
  ((d.at? p = none ∨ d.at? p = some .directory) ∧ r = .empty) ∨
    ∃ text, d.at? p = some (.file (.text text)) ∧ parse text.toList = .ok r

theorem keeps_of_changed (h : d.Changed d' p) (hq : q ≠ p) (hk : Keeps d q r) : Keeps d' q r := by
  rcases hk with ⟨hat, hr⟩ | ⟨text, hat, hparse⟩
  · refine .inl ⟨?_, hr⟩
    rcases h.entry q hq with heq | ⟨-, hdir⟩
    · rwa [heq]
    · exact .inr hdir
  · exact .inr ⟨text, (h.file_iff hq _).2 hat, hparse⟩

theorem keeps_render (hat : d.at? p = some (.file (.text (String.ofList (render r)))))
    (hr : ∀ e ∈ r.entries, Storable e.1 e.2) : Keeps d p r :=
  .inr ⟨_, hat, by rw [String.toList_ofList, parse_render_iff.2 hr]⟩

theorem read_of_keeps (hd : d.IsPlain) (hp : Disk.Filed path f) (hseen : d.Seen path)
    (hk : Keeps d (d.placeOf path) r) :
    (∃ answer, read d path = .ok answer ∧ answer.getD .empty = r) ∨
      d.Refuses path ∧ ∃ e, read d path = .error (.trackingIo path e) := by
  cases hr : d.resolve path with
  | error e =>
    have hread : d.readText path = .error e := by
      rw [Disk.readText, hr]
      rfl
    by_cases he : e = .noEntry
    · subst he
      left
      refine ⟨none, read_of_none hr, ?_⟩
      rcases hk with ⟨-, rfl⟩ | ⟨text, hat, -⟩
      · rfl
      · exact absurd hr (hd.resolve_ne_noEntry hp (hseen _ hat) hat)
    · right
      refine ⟨.inl ⟨e, he, hr⟩, e, ?_⟩
      rw [read, hread]
      simp only [he, if_false]
  | ok x =>
    obtain ⟨p, entry⟩ := x
    obtain ⟨slash, hl, hat, -⟩ := Disk.resolve_eq_ok_iff.1 hr
    cases hd.locate hp hl
    rcases hk with ⟨hnone | hdir, rfl⟩ | ⟨text, hfile, hparse⟩
    · rw [hat] at hnone
      cases hnone
    · rw [hat] at hdir
      cases hdir
      refine .inr ⟨.inr (Disk.isDirectory_iff.2 ⟨_, _, hl, hat⟩), .isDirectory, ?_⟩
      have hread : d.readText path = .error .isDirectory := by
        rw [Disk.readText, hr]
        rfl
      rw [read, hread]
      rfl
    · left
      exact ⟨some r, by rw [read_of_text hl hfile, load_of_parse hparse]; rfl, rfl⟩

theorem existing_of_keeps {d₁ : Disk} (hg : d.Grown d₁) (hend : d₁.Ends p) (hk : Keeps d p r)
    (path : String) : existing d₁ path p = .ok r := by
  rcases hk with ⟨hat, rfl⟩ | ⟨text, hat, hparse⟩
  · rcases hend with hnone | ⟨content, hfile⟩
    · rw [existing, hnone]
    · have := hg.eq_of_file hfile
      rcases hat with hnone | hdir
      · rw [hnone] at this
        cases this
      · rw [hdir] at this
        cases this
  · rw [existing, hg.eq_of_some hat]
    exact load_of_parse hparse path

theorem update_of_keeps (hd : d.IsPlain) (hp : Disk.Filed path f)
    (hk : Keeps d (d.placeOf path) r) (changes : Changes) :
    (∃ d', update d path changes = (d', .ok (r.apply changes)) ∧
      d.Changed d' (d.placeOf path) ∧ d'.ClearTo path ∧ d'.at? (d.placeOf path) =
        some (.file (.text (String.ofList (render (r.apply changes)))))) ∨
      d.Unwritable path ∧ ∃ d' e, update d path changes = (d', .error (.trackingIo path e)) := by
  obtain ⟨hg, ht⟩ := Disk.makeParents_grown hd.tree path
  rw [update_eq, Disk.Unwritable]
  generalize d.makeParents path = prepared at hg ht
  obtain ⟨d₁, made⟩ := prepared
  simp only at hg ht
  cases made with
  | error e => exact .inr ⟨.inl ⟨e, rfl⟩, d₁, e, rfl⟩
  | ok _ =>
    cases hw : d₁.writable path with
    | error e =>
      exact .inr ⟨.inr ⟨e, rfl⟩, d₁, if e = .noEntry then .kind .notFound else e, by simp only [hw]⟩
    | ok place =>
      obtain ⟨hl, hdir⟩ := Disk.writable_ok hw
      have hd₁ := hd.grown hg ht
      obtain ⟨hend, habove⟩ := hd₁.ends_of_locate hl hdir
      have hplace : place = d.placeOf path := by
        have : place = d₁.placeOf path := congrArg Disk.Spot.place (hd₁.locate hp hl)
        rw [this, Disk.placeOf, Disk.placeOf, Disk.start, Disk.start, hg.current]
      subst hplace
      left
      obtain ⟨hc, hat⟩ := Disk.changed_put hd hg ht hend habove
        (.text (String.ofList (render (r.apply changes))))
      refine ⟨_, ?_, hc, hd₁.clearTo_put hl hend habove _, hat⟩
      simp only [hw, existing_of_keeps hg hend hk path]

theorem delete_of_keeps (hd : d.IsPlain) (hp : Disk.Filed path f) (hseen : d.Seen path)
    (hk : Keeps d (d.placeOf path) r) :
    (delete d path = .ok none ∧ r = .empty) ∨
      (∃ d', delete d path = .ok (some d') ∧ d.Changed d' (d.placeOf path) ∧
        d'.at? (d.placeOf path) = none) ∨
      d.Refuses path ∧ ∃ e, delete d path = .error (.trackingIo path e) := by
  rw [delete]
  cases hr : d.resolve path with
  | error e =>
    by_cases he : e = .noEntry
    · subst he
      left
      refine ⟨by simp, ?_⟩
      rcases hk with ⟨-, hr⟩ | ⟨text, hat, -⟩
      · exact hr
      · exact absurd hr (hd.resolve_ne_noEntry hp (hseen _ hat) hat)
    · exact .inr (.inr ⟨.inl ⟨e, he, hr⟩, e, by simp [he]⟩)
  | ok x =>
    obtain ⟨p, entry⟩ := x
    cases entry with
    | directory =>
      obtain ⟨slash, hl, hat, -⟩ := Disk.resolve_eq_ok_iff.1 hr
      exact .inr (.inr ⟨.inr (Disk.isDirectory_iff.2 ⟨_, _, hl, hat⟩), .isDirectory, rfl⟩)
    | link target =>
      obtain ⟨slash, -, hat, -⟩ := Disk.resolve_eq_ok_iff.1 hr
      exact absurd hat (hd.linkless _ _)
    | file content =>
      obtain ⟨d', hremove⟩ := hd.removeFile_of_file hp hr
      obtain ⟨hchanged, hnone⟩ := hd.removeFile hp hremove
      refine .inr (.inl ⟨d', ?_, hchanged, hnone⟩)
      simp only [hremove]

end ArtifactCache.Tracking
