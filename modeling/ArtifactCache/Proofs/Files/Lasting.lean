import ArtifactCache.Proofs.Files.Making

/-! What lasts when files are written. Directories and links stay, and a file stays a file, so that
a path leads where it led to something, and directories that are there need not be made again. -/
namespace ArtifactCache.Disk

variable {d d' : Disk} {links : Nat} {p : Place} {n : String} {ns : List String} {slash : Bool}
  {spot : Spot} {path up : String} {content : Content}

/-- Whether all that is on a disk is still there on another one, where files may hold something
else. -/
structure Lasts (d d' : Disk) : Prop where
  current : d'.current = d.current
  entry : ∀ p, ¬ d.Ends p → d'.at? p = d.at? p
  file : ∀ p content, d.at? p = some (.file content) → ∃ content', d'.at? p = some (.file content')

theorem Lasts.refl (d : Disk) : Lasts d d :=
  ⟨rfl, fun _ _ => rfl, fun _ content hp => ⟨content, hp⟩⟩

theorem Lasts.trans {d'' : Disk} (h : Lasts d d') (h' : Lasts d' d'') : Lasts d d'' := by
  refine ⟨h'.current.trans h.current, ?_, ?_⟩
  · intro p hp
    have heq := h.entry p hp
    rw [← heq]
    exact h'.entry p (by rwa [Ends, heq])
  · intro p content hp
    obtain ⟨content', hp'⟩ := h.file p content hp
    exact h'.file p content' hp'

theorem Grown.lasts (h : Grown d d') : Lasts d d' := by
  refine ⟨h.current, ?_, fun p content hp => ⟨content, h.eq_of_some hp⟩⟩
  intro p hp
  rcases h.entry p with heq | ⟨hnone, -⟩
  · exact heq
  · exact absurd (.inl hnone) hp

theorem Ends.lasts_put (h : d.Ends p) (content : Content) : Lasts d (d.put p (.file content)) := by
  refine ⟨rfl, ?_, ?_⟩
  · intro q hq
    have hne : q ≠ p := fun heq => hq (heq ▸ h)
    rw [at?_put _ _ _ _ h.ne_nil, if_neg hne]
  · intro q content' hq
    rw [at?_put _ _ _ _ h.ne_nil]
    split
    · exact ⟨content, rfl⟩
    · exact ⟨content', hq⟩

theorem Lasts.directory (h : Lasts d d') (hp : d.at? p = some .directory) :
    d'.at? p = some .directory := by
  rw [h.entry p fun he => he.not_directory hp, hp]

/-- A path that led to something leads there still. -/
theorem Lasts.locate (h : Lasts d d') (hl : d.locate path = .ok spot)
    (hat : d.at? spot.place ≠ none) : d'.locate path = .ok spot := by
  rw [locate_eq_ok_iff] at hl ⊢
  refine ⟨hl.1, ?_⟩
  rw [start, h.current]
  refine leads_congr hl.2 h.entry ?_
  rintro (hnone | ⟨content, hfile⟩)
  · exact absurd hnone hat
  · exact .inr (h.file _ content hfile)

theorem isFile_iff_locate : d.isFile path = true ↔
    ∃ p content, d.locate path = .ok ⟨p, false⟩ ∧ d.at? p = some (.file content) := by
  rw [isFile]
  constructor
  · intro h
    split at h
    · rename_i p content hr
      obtain ⟨slash, hl, hat, hslash⟩ := resolve_eq_ok_iff.1 hr
      cases slash with
      | true => cases hslash rfl
      | false => exact ⟨p, content, hl, hat⟩
    · cases h
  · rintro ⟨p, content, hl, hat⟩
    rw [resolve_eq_ok_iff.2 ⟨false, hl, hat, nofun⟩]

theorem Lasts.isFile (h : Lasts d d') (hf : d.isFile path = true) : d'.isFile path = true := by
  obtain ⟨p, content, hl, hat⟩ := isFile_iff_locate.1 hf
  obtain ⟨content', hat'⟩ := h.file p content hat
  exact isFile_iff_locate.2 ⟨p, content', h.locate hl (by simp [hat]), hat'⟩

theorem Lasts.isDirectory (h : Lasts d d') (hf : d.isDirectory path = true) :
    d'.isDirectory path = true := by
  obtain ⟨p, slash, hl, hat⟩ := isDirectory_iff.1 hf
  exact isDirectory_iff.2 ⟨p, slash, h.locate hl (by simp [hat]), h.directory hat⟩

theorem put_put (d : Disk) (p : Place) (e e' : Entry) : (d.put p e).put p e' = d.put p e' := by
  simp [put, List.filter_filter]

/-- A walk that arrives goes through a directory before its last name. -/
theorem leads_init (hd : d.IsTree) (h : Leads d links p (ns ++ [n]) slash spot)
    (hp : d.at? p = some .directory) :
    ∃ q s, Leads d links p ns true ⟨q, s⟩ ∧ d.at? q = some .directory := by
  generalize hall : ns ++ [n] = all at h
  induction h generalizing ns with
  | done => simp at hall
  | @stay _ p _ _ _ _ ih =>
    cases ns with
    | nil => exact ⟨p, true, .done, hp⟩
    | cons m ns =>
      cases hall
      obtain ⟨q, s, hl, hq⟩ := ih hp rfl
      exact ⟨q, s, .stay hl, hq⟩
  | @back _ p _ _ _ _ ih =>
    cases ns with
    | nil => exact ⟨p, true, .done, hp⟩
    | cons m ns =>
      cases hall
      obtain ⟨q, s, hl, hq⟩ := ih (hd.above _ _ hp) rfl
      exact ⟨q, s, .back hl, hq⟩
  | @last _ p _ _ _ _ =>
    cases ns with
    | nil => exact ⟨p, true, .done, hp⟩
    | cons m ns => simp at hall
  | @enter _ p _ _ _ _ hn hat _ ih =>
    cases ns with
    | nil => exact ⟨p, true, .done, hp⟩
    | cons m ns =>
      cases hall
      obtain ⟨q, s, hl, hq⟩ := ih hat rfl
      exact ⟨q, s, .enter hn hat hl, hq⟩
  | @follow _ p _ _ _ _ target hn hat _ ih =>
    cases ns with
    | nil => exact ⟨p, true, .done, hp⟩
    | cons m ns =>
      cases hall
      have hstart : d.at? (if Path.isRooted target then [] else p) = some .directory := by
        split
        · rfl
        · exact hp
      obtain ⟨q, s, hl, hq⟩ := ih hstart (List.append_assoc _ _ _)
      exact ⟨q, s, .follow hn hat (by rwa [Bool.true_or]), hq⟩

/-- A directory that is there is not made again. -/
theorem makeDirectory_of_isDirectory (hd : d.IsTree) (h : d.isDirectory path = true) :
    ∃ e, e ≠ .noEntry ∧ d.makeDirectory path = .error e := by
  obtain ⟨p, slash, hl, hat⟩ := isDirectory_iff.1 h
  obtain ⟨hcheck, hleads⟩ := locate_eq_ok_iff.1 hl
  cases hnames : (pathNames path).reverse with
  | nil => exact ⟨.alreadyExists, by decide, by simp [makeDirectory, seat, hcheck, hnames]; rfl⟩
  | cons last back =>
    have hsplit : pathNames path = back.reverse ++ [last] := by
      rw [← List.reverse_reverse (pathNames path), hnames, List.reverse_cons]
    rw [hsplit] at hleads
    obtain ⟨q, s, hback, hq⟩ := leads_init hd hleads (hd.start path)
    have hseat : d.seat path = if last = "." ∨ last = ".." then
          .ok ⟨q, none, Path.endsInSlash path⟩
        else if maxName < last.utf8ByteSize then .error .nameTooLong
        else .ok ⟨q, some last, Path.endsInSlash path⟩ := by
      simp only [seat, hcheck, hnames, walk_of_leads hback, hq, bind, Except.bind, pure,
        Except.pure, throw, throwThe, MonadExceptOf.throw]
    rw [makeDirectory, hseat]
    split
    · exact ⟨.alreadyExists, by decide, rfl⟩
    rename_i hdots
    split
    · exact ⟨.nameTooLong, by decide, rfl⟩
    rename_i hlong
    cases hlast : d.at? (q ++ [last]) with
    | some e =>
      refine ⟨.alreadyExists, by decide, ?_⟩
      simp [bind, Except.bind, hlast, throw, throwThe, MonadExceptOf.throw]
    | none =>
      -- The walk would end where nothing is, but the path leads to a directory.
      rw [not_or] at hdots
      obtain ⟨links', hrest⟩ := leads_append hback hq (List.cons_ne_nil last [])
      have hend := hrest (Path.endsInSlash path) _
        (.last ⟨hdots.1, hdots.2, Nat.le_of_not_lt hlong⟩ (.inl hlast))
      cases hleads.eq hend
      rw [hlast] at hat
      cases hat

theorem ancestors_eq_cons (path : String) : ∃ above, Path.ancestors path = path :: above := by
  rw [Path.ancestors]
  cases path.length <;> exact ⟨_, rfl⟩

theorem makeDirectories_of_isDirectory (hd : d.IsTree)
    (h : path = "" ∨ d.isDirectory path = true) : d.makeDirectories path = (d, .ok ()) := by
  obtain ⟨above, habove⟩ := ancestors_eq_cons path
  rw [makeDirectories, habove, makeAll]
  by_cases hpath : path = ""
  · rw [if_pos hpath]
  · have hdir := h.resolve_left hpath
    obtain ⟨e, he, hmake⟩ := makeDirectory_of_isDirectory hd hdir
    rw [if_neg hpath, hmake]
    simp only [he, if_false, hdir, if_true]

theorem makeAll_isDirectory {above : List String} (h : d.makeAll (path :: above) = (d', .ok ())) :
    path = "" ∨ d'.isDirectory path = true := by
  have hmade : ∀ {d₀ : Disk}, d₀.makeDirectory path = .ok d' → d'.isDirectory path = true := by
    intro d₀ hmake
    obtain ⟨hcheck, p, -, hne, rfl, hl⟩ := makeDirectory_leads hmake (Path.endsInSlash path)
    refine isDirectory_iff.2 ⟨p, _, locate_eq_ok_iff.2 ⟨hcheck, hl⟩, ?_⟩
    rw [at?_put _ _ _ _ hne, if_pos rfl]
  rcases makeAll_cons_ok h with ⟨rfl, hdir⟩ | ⟨-, hmake | ⟨d₀, -, -, hmake | ⟨rfl, hdir⟩⟩⟩
  · exact hdir
  · exact .inr (hmade hmake)
  · exact .inr (hmade hmake)
  · exact .inr hdir

/-- The directories above a path are made once. -/
theorem makeParents_again (ht : d'.IsTree) (hok : (d.makeParents path).2 = .ok ())
    (h : Lasts (d.makeParents path).1 d') : d'.makeParents path = (d', .ok ()) := by
  rw [makeParents] at hok h ⊢
  cases hup : Path.parent? path with
  | none => rfl
  | some up =>
    simp only [hup] at hok h
    apply makeDirectories_of_isDirectory ht
    obtain ⟨above, habove⟩ := ancestors_eq_cons up
    rw [makeDirectories, habove] at hok h
    exact (makeAll_isDirectory (Prod.ext rfl hok)).imp_right h.isDirectory

theorem writable_of_locate (hslash : Path.endsInSlash path = false)
    (hl : d.locate path = .ok ⟨p, false⟩) (hp : d.at? p ≠ some .directory) :
    d.writable path = .ok p := by
  simp only [writable, hslash, hl, bind, Except.bind, pure, Except.pure, Bool.false_eq_true,
    if_false]

/-- A file that was written can be written again. -/
theorem writable_put (hw : d.writable path = .ok p) (hend : d.Ends p) (content : Content) :
    (d.put p (.file content)).writable path = .ok p := by
  have hslash : Path.endsInSlash path = false := by
    by_contra hslash
    rw [writable, if_pos (by simpa using hslash)] at hw
    obtain ⟨_, -, hw⟩ := Result.bind_eq_ok.1 hw
    cases hw
  refine writable_of_locate hslash (locate_put (writable_ok hw).1 hend content) ?_
  rw [at?_put _ _ _ _ hend.ne_nil, if_pos rfl]
  exact nofun

end ArtifactCache.Disk
