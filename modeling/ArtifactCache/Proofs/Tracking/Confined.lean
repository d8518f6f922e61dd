import ArtifactCache.Proofs.Tracking.Store

/-! What an update of a tracking file leaves on the disk. One that fails leaves every file as it was,
and one that succeeds changes only the file to which the path leads. -/
namespace ArtifactCache.Tracking

variable {d d' : Disk} {path : String} {changes : Changes} {f : Fault}

/-- An update that fails makes at most the directories above the path. -/
theorem update_error (h : update d path changes = (d', .error f)) :
    d' = (d.makeParents path).1 := by
  rw [update_eq] at h
  generalize d.makeParents path = p at h ⊢
  obtain ⟨d₁, made⟩ := p
  cases made with
  | error e =>
    cases h
    rfl
  | ok _ =>
    cases hw : d₁.writable path with
    | error e =>
      simp only [hw, Prod.mk.injEq] at h
      exact h.1.symm
    | ok place =>
      cases he : existing d₁ path place with
      | error f =>
        simp only [hw, he, Prod.mk.injEq] at h
        exact h.1.symm
      | ok r => simp [hw, he] at h

/-- An update that fails leaves the same files, and makes at most directories above the path. One that
succeeds leaves the text of the record it answers in the file to which the path leads, where before
was nothing or a file, the one to which the path led if it led to anything; the other files are the
same, and it makes at most directories above the path. -/
theorem update_confined (hd : d.IsTree) (path : String) (changes : Changes) :
    (∀ d' f, update d path changes = (d', .error f) →
      (∀ p content, d'.at? p = some (.file content) ↔ d.at? p = some (.file content)) ∧
      d.Opened d' (Path.above path)) ∧
    ∀ d' m, update d path changes = (d', .ok m) → ∃ place,
      d'.locate path = .ok ⟨place, false⟩ ∧ d.Ends place ∧
      (∀ spot, d.locate path = .ok spot → d.at? spot.place ≠ none → spot.place = place) ∧
      d'.at? place = some (.file (.text (String.ofList (render m)))) ∧
      (∀ p, p ≠ place → ∀ content,
        d'.at? p = some (.file content) ↔ d.at? p = some (.file content)) ∧
      ∃ opened, d.Opened opened (Path.above path) ∧
        d'.current = opened.current ∧ ∀ p, p ≠ place → d'.at? p = opened.at? p := by
  have hopened := Disk.makeParents_opened d path
  refine ⟨?_, ?_⟩
  · intro d' f h
    obtain rfl := update_error h
    exact ⟨hopened.grown.file_iff, hopened⟩
  · intro d' m h
    obtain ⟨-, place, old, hl, hend, -, -, -, rfl⟩ := update_ok hd h
    have hat := fun p => Disk.at?_put (d.makeParents path).1 place
      (.file (.text (String.ofList (render m)))) p hend.ne_nil
    have helse : ∀ p, p ≠ place → _ := fun p hp => (hat p).trans (if_neg hp)
    refine ⟨place, Disk.locate_put hl hend _, hopened.grown.ends_back hend, ?_, ?_, ?_, _, hopened,
      rfl, helse⟩
    · intro spot hspot hthere
      have hkept := hopened.grown.locate hspot hthere
      rw [hl] at hkept
      cases hkept
      rfl
    · rw [hat, if_pos rfl]
    · intro p hp content
      rw [helse p hp]
      exact hopened.grown.file_iff p content

/-- A character that no path may have stops an update after the directory was made; without it the
update makes the file, and leaves the one that is there. -/
theorem update_confined_beside :
    let d : Disk := ⟨[(["t"], .file (.text "b>central=\n"))], []⟩
    d.IsTree ∧
      (∃ d' f, update d "/n/t\x00" (.ofList [("a>", some "")]) = (d', .error f) ∧
        d'.at? ["n"] = some .directory ∧
        ∀ p content, d'.at? p = some (.file content) ↔ d.at? p = some (.file content)) ∧
      ∃ d' m, update d "/n/t" (.ofList [("a>", some "")]) = (d', .ok m) ∧
        d'.at? ["n", "t"] = some (.file (.text (String.ofList (render m)))) ∧
        ∀ p, p ≠ ["n", "t"] → ∀ content,
          d'.at? p = some (.file content) ↔ d.at? p = some (.file content) := by
  intro d
  have hd := isTree_singleton "t" (.text "b>central=\n")
  have herror : update d "/n/t\x00" (.ofList [("a>", some "")]) =
      (⟨[(["n"], .directory), (["t"], .file (.text "b>central=\n"))], []⟩,
        .error (.trackingIo "/n/t\x00" .nulInName)) := by cbv
  have hok : update d "/n/t" (.ofList [("a>", some "")]) =
      (⟨[(["n", "t"], .file (.text (String.ofList (render (.ofList [("a>", "")]))))),
        (["n"], .directory), (["t"], .file (.text "b>central=\n"))], []⟩,
        .ok (.ofList [("a>", "")])) := by cbv
  refine ⟨hd, ⟨_, _, herror, rfl, ?_⟩, _, _, hok, ?_⟩
  · exact ((update_confined hd _ _).1 _ _ herror).1
  · obtain ⟨place, hl, -, -, hat, hother, -⟩ := (update_confined hd _ _).2 _ _ hok
    have hplace : (⟨place, false⟩ : Disk.Spot) = ⟨["n", "t"], false⟩ :=
      (Disk.locate_eq_ok_iff.1 hl).2.eq (Disk.leads_of_walk (by cbv))
    cases hplace
    exact ⟨hat, hother⟩

end ArtifactCache.Tracking
