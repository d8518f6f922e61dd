import ArtifactCache.Proofs.Files.Plain

/-! Writing and removing files on disks without links. Each changes what is at one place, and nothing
is lost elsewhere. -/
namespace ArtifactCache.Disk

variable {d d' : Disk} {p q : Place} {path f : String} {content : Content}

/-- Whether one disk is another one with something else at one place, and perhaps more
directories. -/
structure Changed (d d' : Disk) (p : Place) : Prop where
  plain : d'.IsPlain
  current : d'.current = d.current
  entry : ∀ q, q ≠ p → d'.at? q = d.at? q ∨ (d.at? q = none ∧ d'.at? q = some .directory)
  directory : ∀ q, d.at? q = some .directory → d'.at? q = some .directory

theorem Changed.refl (h : d.IsPlain) (p : Place) : Changed d d p :=
  ⟨h, rfl, fun _ _ => .inl rfl, fun _ hq => hq⟩

theorem Changed.file_iff (h : Changed d d' p) (hq : q ≠ p) (content : Content) :
    d'.at? q = some (.file content) ↔ d.at? q = some (.file content) := by
  rcases h.entry q hq with heq | ⟨hnone, hdir⟩
  · rw [heq]
  · simp [hnone, hdir]

theorem Changed.placeOf (h : Changed d d' p) (path : String) : d'.placeOf path = d.placeOf path := by
  rw [Disk.placeOf, Disk.placeOf, start, start, h.current]

theorem Changed.clearTo (h : Changed d d' p) (hc : d.ClearTo path) : d'.ClearTo path := by
  constructor
  rw [start, h.current]
  exact hc.way.mono h.directory

/-- Whether there is a file changes at one place only, if what is elsewhere could be seen before. -/
theorem Changed.isFile (h : Changed d d' p) (hd : d.IsPlain) (hp : Filed path f)
    (hne : d.placeOf path ≠ p) (hseen : d.Seen path) : d'.isFile path = d.isFile path := by
  rw [Bool.eq_iff_iff, h.plain.isFile_iff hp, hd.isFile_iff hp, h.placeOf]
  simp only [h.file_iff hne]
  constructor
  · rintro ⟨hfits, -, content, hat⟩
    exact ⟨hfits, hseen content hat, content, hat⟩
  · rintro ⟨hfits, hc, content, hat⟩
    exact ⟨hfits, h.clearTo hc, content, hat⟩

theorem changed_put {d₁ : Disk} (hd : d.IsPlain) (hg : d.Grown d₁) (ht : d₁.IsTree)
    (hp : d₁.Ends p) (habove : d₁.at? p.dropLast = some .directory) (content : Content) :
    Changed d (d₁.put p (.file content)) p ∧
      (d₁.put p (.file content)).at? p = some (.file content) := by
  refine ⟨⟨(hd.grown hg ht).put hp.not_directory habove content, hg.current, ?_, ?_⟩, ?_⟩
  · intro q hq
    rw [at?_put _ _ _ _ hp.ne_nil, if_neg hq]
    exact hg.entry q
  · intro q hq
    have hdir := hg.eq_of_some hq
    have hne : q ≠ p := fun heq => hp.not_directory (heq ▸ hdir)
    rw [at?_put _ _ _ _ hp.ne_nil, if_neg hne, hdir]
  · rw [at?_put _ _ _ _ hp.ne_nil, if_pos rfl]

theorem IsPlain.clearTo_put (h : d.IsPlain) {spot : Spot} (hl : d.locate path = .ok spot)
    (hp : d.Ends p) (habove : d.at? p.dropLast = some .directory) (content : Content) :
    (d.put p (.file content)).ClearTo path :=
  (changed_put h (.refl d) h.tree hp habove content).1.clearTo (h.clearTo hl)

theorem IsPlain.ends_of_locate (h : d.IsPlain) {slash : Bool} (hl : d.locate path = .ok ⟨p, slash⟩)
    (hp : d.at? p ≠ some .directory) : d.Ends p ∧ d.at? p.dropLast = some .directory := by
  obtain ⟨-, hleads⟩ := locate_eq_ok_iff.1 hl
  rcases h.tree.leads hleads (h.tree.start path) with hdir | hend
  · exact absurd hdir hp
  · exact hend

/-- A file that is written is there. -/
theorem IsPlain.write (h : d.IsPlain) {d₁ : Disk} (hg : d.Grown d₁) (ht : d₁.IsTree)
    (hp : Filed path f) (hw : d₁.write path content = .ok d') :
    Changed d d' (d.placeOf path) ∧ d'.isFile path = true := by
  obtain ⟨p, hwritable, hput⟩ := Result.bind_eq_ok.1 hw
  cases hput
  obtain ⟨hl, hdir⟩ := writable_ok hwritable
  have hd₁ := h.grown hg ht
  obtain ⟨hend, habove⟩ := hd₁.ends_of_locate hl hdir
  have hplace : p = d.placeOf path := by
    have : p = d₁.placeOf path := congrArg Spot.place (hd₁.locate hp hl)
    rw [this, placeOf, placeOf, start, start, hg.current]
  obtain ⟨hchanged, hat⟩ := changed_put h hg ht hend habove content
  rw [← hplace]
  refine ⟨hchanged, (hchanged.plain.isFile_iff hp).2
    ⟨fits_of_locate hl, hd₁.clearTo_put hl hend habove content, content, ?_⟩⟩
  rw [hchanged.placeOf, ← hplace, hat]

theorem IsPlain.seat_place (h : d.IsPlain) (hp : Filed path f) {dir : Place} {n : String}
    {slash : Bool} (hs : d.seat path = .ok ⟨dir, some n, slash⟩) :
    dir ++ [n] = d.placeOf path := by
  obtain ⟨-, -, -, back, s, hnames, hl⟩ := seat_ok hs
  obtain ⟨back', hnames', hplace, -⟩ := hp.split d
  obtain ⟨rfl, hn⟩ := List.append_inj' (hnames'.symm.trans hnames) rfl
  have hdir : dir = descend (d.start path) (back'.filter (· ≠ ".")) :=
    congrArg Spot.place (h.leads hl)
  rw [hplace, hdir, (List.cons.inj hn).1]

/-- A file that is removed is not there any more. -/
theorem IsPlain.removeFile (h : d.IsPlain) (hp : Filed path f) (hr : d.removeFile path = .ok d') :
    Changed d d' (d.placeOf path) ∧ d'.at? (d.placeOf path) = none := by
  obtain ⟨dir, n, hseat, hat, rfl⟩ := removeFile_ok hr
  rw [← h.seat_place hp hseat]
  have hne : dir ++ [n] ≠ [] := by simp
  refine ⟨⟨h.erase hat, rfl, ?_, ?_⟩, ?_⟩
  · intro q hq
    rw [at?_erase _ _ _ hne, if_neg hq]
    exact .inl rfl
  · intro q hq
    have hother : q ≠ dir ++ [n] := fun heq => hat (heq ▸ hq)
    rw [at?_erase _ _ _ hne, if_neg hother, hq]
  · rw [at?_erase _ _ _ hne, if_pos rfl]

/-- A file that is there can be removed. -/
theorem IsPlain.removeFile_of_file (h : d.IsPlain) (hp : Filed path f)
    (hr : d.resolve path = .ok (p, .file content)) : ∃ d', d.removeFile path = .ok d' := by
  obtain ⟨slash, hl, hat, -⟩ := resolve_eq_ok_iff.1 hr
  obtain ⟨hcheck, hshort⟩ := fits_of_locate hl
  have hclear := h.clearTo hl
  cases h.locate hp hl
  obtain ⟨back, hnames, hplace, hback⟩ := hp.split d
  rw [hplace] at hat
  generalize hdirectory : descend (d.start path) (back.filter (· ≠ ".")) = directory at hat
  have hdir := h.tree.above _ _ hat
  rw [List.dropLast_concat] at hdir
  have hwalk : d.walk true maxLinks (d.start path) back true = .ok ⟨directory, true⟩ := by
    rcases h.tree.walk_append (hback hclear) (hdirectory ▸ hdir) [] with hw | ⟨⟨n, hn, hlong⟩, -⟩
    · rw [List.append_nil, hdirectory] at hw
      rw [hw, walk]
    · have := hshort n (by simp [hnames, hn])
      omega
  have hlong : ¬ maxName < f.utf8ByteSize := Nat.not_lt.2 (hshort f (by simp [hnames]))
  have hseat : d.seat path = .ok ⟨directory, some f, false⟩ := by
    simp only [seat, hcheck, hnames, List.reverse_append, List.reverse_cons, List.reverse_nil,
      List.nil_append, List.singleton_append, List.reverse_reverse, hwalk, hp.not_slash, bind,
      Except.bind, hdir, hp.ne_dot, hp.ne_back, or_self, if_false, hlong, pure, Except.pure]
  refine ⟨d.erase (directory ++ [f]), ?_⟩
  simp only [Disk.removeFile, hseat, bind, Except.bind, hat, Bool.false_eq_true, if_false, pure,
    Except.pure]

end ArtifactCache.Disk
