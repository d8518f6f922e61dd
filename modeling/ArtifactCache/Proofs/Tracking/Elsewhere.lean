import ArtifactCache.Proofs.Files.Straight
import ArtifactCache.Proofs.Tracking.Prepared

/-! What updates of a tracking file leave elsewhere. Every other file and every other record is
there as it was, and there are no others. -/
namespace ArtifactCache.Tracking

variable {d d' : Disk} {path other : String} {place p : Place} {changes : Changes}
  {old r m : Record} {answer answer' : Option Record} {content : Content} {spot : Disk.Spot}

theorem apply_apply (r : Record) (changes : Changes) :
    (r.apply changes).apply changes = r.apply changes := by
  apply KeyMap.ext_get?
  intro key
  rw [get?_apply, get?_apply]
  cases changes.get? key <;> rfl

/-- Updates with the same changes do what one of them does, if what is written comes back. -/
theorem Rewritten.eq_apply (h : Rewritten changes old r)
    (hs : ∀ e ∈ (old.apply changes).entries, Storable e.1 e.2) : r = old.apply changes := by
  induction h with
  | once => rfl
  | again _ hread ih =>
    rw [ih, parse_render_iff.2 hs] at hread
    cases hread
    exact apply_apply old changes

/-- Whether the way along a path is not opened by making the directories above another one. -/
def Settled (d : Disk) (path other : String) : Prop :=
  (d.makeParents path).1 = d ∨ d.Straight ∧ ".." ∉ Path.names other

namespace Updated

theorem at?_of_ne (h : Updated d path place changes old r d') (hp : p ≠ place) :
    d'.at? p = (d.makeParents path).1.at? p := by
  rw [h.disk, keep, Disk.at?_put _ _ _ _ h.prepared.ends.1.ne_nil, if_neg hp]

/-- The other files were there before. -/
theorem file_of_ne (h : Updated d path place changes old r d') (hd : d.IsTree) (hp : p ≠ place)
    (hat : d'.at? p = some (.file content)) : d.at? p = some (.file content) := by
  rw [h.at?_of_ne hp] at hat
  exact (Disk.makeParents_grown hd path).1.eq_of_file hat

/-- A path to something that was there led to it before. -/
theorem locate_back (h : Updated d path place changes old r d') (hd : d.IsTree)
    (hs : Settled d path other) (hl : d'.locate other = .ok spot) :
    d.locate other = .ok spot ∨ d.at? spot.place = none := by
  rw [h.disk] at hl
  have hbase := Disk.locate_of_put h.prepared.ends.1 hl
  rcases hs with hsame | ⟨hstraight, hback⟩
  · rw [hsame] at hbase
    exact .inl hbase
  · have hnames : ".." ∉ Disk.pathNames other := by
      intro hmem
      apply hback
      rw [Disk.names_eq_filter]
      exact List.mem_filter.2 ⟨hmem, by decide⟩
    exact (Disk.makeParents_grown hd path).1.locate_straight hd hstraight hnames hbase

/-- The files are the same, but for the tracking file. -/
theorem isFile_eq (h : Updated d path place changes old r d') (hd : d.IsTree)
    (hs : Settled d path other) (hother : ¬ d'.Meets other path) :
    d'.isFile other = d.isFile other := by
  rw [Bool.eq_iff_iff]
  refine ⟨?_, (h.lasts hd).isFile⟩
  intro hfile
  obtain ⟨p, content, hl, hat⟩ := Disk.isFile_iff_locate.1 hfile
  have hp : p ≠ place := by
    rintro rfl
    exact hother ⟨_, _, hl, h.leads, rfl⟩
  have hbefore := h.file_of_ne hd hp hat
  rcases h.locate_back hd hs hl with hl' | hnone
  · exact Disk.isFile_iff_locate.2 ⟨p, content, hl', hbefore⟩
  · rw [hbefore] at hnone
    cases hnone

/-- Whoever reads the tracking file by another path read what was in it before. -/
theorem old_eq (h : Updated d path place changes old r d') (hd : d.IsTree)
    (hs : Settled d path other) (hr : read d other = .ok answer)
    (hl' : d'.locate other = .ok ⟨place, false⟩) : answer.getD .empty = old := by
  have hgrown := (Disk.makeParents_grown hd path).1
  have hold := h.existing
  cases answer with
  | none =>
    have hnone : (d.makeParents path).1.at? place = none := by
      rcases h.prepared.ends.1 with hnone | ⟨content, hfile⟩
      · exact hnone
      · have hbefore := hgrown.eq_of_file hfile
        rcases h.locate_back hd hs hl' with hl | hnone
        · exact absurd hbefore (not_file_of_read_none hr hl)
        · rw [hbefore] at hnone
          cases hnone
    rw [Tracking.existing, hnone] at hold
    exact Except.ok.inj hold
  | some m =>
    obtain ⟨p, text, hl, hat, hparse⟩ := read_eq_some hr
    cases hl'.symm.trans ((h.lasts hd).locate hl (by simp [hat]))
    rw [Tracking.existing, hgrown.eq_of_some hat] at hold
    exact Except.ok.inj ((load_of_parse hparse path).symm.trans hold)

/-- The records are the same, but for the one in the tracking file. -/
theorem read_cases (h : Updated d path place changes old r d') (hd : d.IsTree)
    (hs : Settled d path other) (hr : read d other = .ok answer)
    (hr' : read d' other = .ok answer') : answer' = answer ∨
      d'.Meets other path ∧ answer.getD .empty = old ∧ read d' path = .ok answer' := by
  have hlasts := h.lasts hd
  cases answer' with
  | none =>
    left
    cases answer with
    | none => rfl
    | some m =>
      obtain ⟨p, text, hl, hat, -⟩ := read_eq_some hr
      obtain ⟨content, hat'⟩ := hlasts.file p _ hat
      exact absurd hat' (not_file_of_read_none hr' (hlasts.locate hl (by simp [hat])))
  | some m' =>
    obtain ⟨p, text', hl', hat', hparse'⟩ := read_eq_some hr'
    by_cases hp : p = place
    · right
      subst hp
      refine ⟨⟨_, _, hl', h.leads, rfl⟩, h.old_eq hd hs hr hl', ?_⟩
      rw [read_of_text h.leads hat', load_of_parse hparse' path]
      rfl
    · left
      have hat := h.file_of_ne hd hp hat'
      rcases h.locate_back hd hs hl' with hl | hnone
      · rw [read_of_text hl hat, load_of_parse hparse' other] at hr
        exact Except.ok.inj hr
      · rw [hat] at hnone
        cases hnone

end Updated

end ArtifactCache.Tracking
