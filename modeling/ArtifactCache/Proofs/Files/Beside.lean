import ArtifactCache.Proofs.Files.Path

/-! Files in a directory that is given by its path. The path of the directory is found again above the
path of the file, and names one after the other lead where a relative path leads that has them all. -/
namespace ArtifactCache.Path

variable {path base directory rel n f : String} {names : List String}

/-- A name of something in a directory, other than of the directory itself or of the one above. -/
structure IsName (n : String) : Prop where
  ne_empty : n ≠ ""
  ne_dot : n ≠ "."
  ne_back : n ≠ ".."
  notMem : '/' ∉ n.toList

instance : Decidable (IsName n) :=
  decidable_of_iff (n ≠ "" ∧ n ≠ "." ∧ n ≠ ".." ∧ '/' ∉ n.toList)
    ⟨fun h => ⟨h.1, h.2.1, h.2.2.1, h.2.2.2⟩, fun h => ⟨h.1, h.2, h.3, h.4⟩⟩

namespace IsName

theorem not_rooted (h : IsName n) : isRooted n = false := not_rooted_of_notMem h.notMem

/-- A path that ends in a name does not end in a slash. -/
theorem not_slash_append (h : IsName n) (s : String) : endsInSlash (s ++ n) = false := by
  rw [Bool.eq_false_iff, ne_eq, endsInSlash_iff, String.toList_append]
  rintro ⟨cs, hcs⟩
  have hlast : (s.toList ++ n.toList).getLast? = some '/' := by rw [hcs, List.getLast?_concat]
  rw [List.getLast?_append_of_ne_nil _ (by simpa using h.ne_empty)] at hlast
  exact h.notMem (List.mem_of_getLast? hlast)

theorem proper_toList (h : IsName n) : proper n.toList = true := by
  have hdot : n.toList ≠ ['.'] := fun hn => h.ne_dot (String.toList_inj.1 hn)
  simp [proper, h.ne_empty, hdot]

/-- The last name of a path that it is put on. -/
theorem getLast_splitOn_join (h : IsName n) (base : String) :
    (Text.splitOn '/' (join base n)).getLast? = some n := by
  rw [Path.getLast_splitOn_join h.not_rooted, Text.splitOn_eq_singleton h.notMem]
  rfl

end IsName

/-- A path to a name in a directory, of which the path is found when the name is taken off. -/
structure LiesIn (file directory f : String) : Prop where
  parent : parent? file = some directory
  fileName : fileName? file = some f

/-- What is put before a relative path depends on the base alone. -/
theorem exists_join_eq (base : String) :
    ∃ front, ∀ rel, isRooted rel = false → join base rel = front ++ rel := by
  by_cases h : (base = "" || endsInSlash base) = true
  · exact ⟨base, fun rel hrel => by rw [join, hrel, if_neg Bool.false_ne_true, if_pos h]⟩
  · exact ⟨base ++ "/", fun rel hrel => by rw [join, hrel, if_neg Bool.false_ne_true, if_neg h]⟩

theorem join_of_not_slash (hrel : isRooted rel = false) (hbase : base ≠ "")
    (hslash : endsInSlash base = false) : join base rel = base ++ "/" ++ rel := by
  simp [join, hrel, hbase, hslash]

/-- A name and what follows it can be gone along one after the other. -/
theorem join_slash (h : IsName n) (hrel : isRooted rel = false) (base : String) :
    join base (n ++ "/" ++ rel) = join (join base n) rel := by
  have hwhole : isRooted (n ++ "/" ++ rel) = false := by
    rw [String.append_assoc, isRooted_append h.ne_empty, h.not_rooted]
  obtain ⟨front, hfront⟩ := exists_join_eq base
  rw [hfront _ hwhole, hfront _ h.not_rooted,
    join_of_not_slash hrel (by simp [h.ne_empty]) (h.not_slash_append _)]
  simp only [String.append_assoc]

theorem not_rooted_join (h : IsName n) (names : List String) :
    isRooted (Text.join "/" (n :: names)) = false := by
  rw [Text.join_cons, isRooted_append h.ne_empty, h.not_rooted]

/-- Names gone along one after the other, and then another one. -/
theorem join_foldl_join (h : ∀ n ∈ names ++ [f], IsName n) (base : String) :
    join (names.foldl join base) f = join base (Text.join "/" (names ++ [f])) := by
  induction names generalizing base with
  | nil => rfl
  | cons n names ih =>
    obtain ⟨hn, hnames⟩ := List.forall_mem_cons.1 h
    obtain ⟨m, ms, hrest⟩ := List.exists_cons_of_ne_nil (List.concat_ne_nil f names)
    have hjoin : Text.join "/" (n :: (names ++ [f])) =
        n ++ "/" ++ Text.join "/" (names ++ [f]) := by
      rw [Text.join]
      simp
    have hroot : isRooted (Text.join "/" (names ++ [f])) = false := by
      rw [hrest]
      exact not_rooted_join (hnames m (by simp [hrest])) ms
    rw [List.foldl_cons, ih hnames, List.cons_append, hjoin, join_slash hn hroot]

/-- A path is made of all its pieces. -/
theorem ofNamesBack_cut_tail (path : String) :
    ofNamesBack (isRooted path) (Text.cut '/' (tail path)).reverse = path := by
  have htail : Text.join "/" ((Text.cut '/' (tail path)).map String.ofList) =
      String.ofList (tail path) := Text.join_cut '/' _
  rw [ofNamesBack, List.reverse_reverse, htail]
  apply String.toList_inj.1
  rw [String.toList_append, String.toList_ofList, toList_eq_tail path]
  split <;> rfl

theorem namesBack_append (hpath : path ≠ "") (hf : IsName f) :
    namesBack (path ++ ("/" ++ f)) = f.toList :: (Text.cut '/' (tail path)).reverse := by
  have htail : tail (path ++ ("/" ++ f)) = tail path ++ '/' :: f.toList := by
    rw [tail_append hpath, String.toList_append]
    rfl
  rw [namesBack_eq, htail, Text.cut_append, Text.cut_eq_singleton hf.notMem, List.reverse_concat,
    trimIdle_proper hf.proper_toList]

/-- The path of a directory is found above what lies in it, if it ends in a name. -/
theorem parent_join (hdirectory : (Text.splitOn '/' directory).getLast? = some n) (hn : IsName n)
    (hf : IsName f) : parent? (join directory f) = some directory := by
  have hne : directory ≠ "" := by
    rintro rfl
    exact hn.ne_empty (Option.some.inj hdirectory).symm
  have hjoin : join directory f = directory ++ ("/" ++ f) := by
    rw [join_of_not_slash hf.not_rooted hne (not_slash_of_getLast hdirectory hn.ne_empty),
      String.append_assoc]
  have hlast : (Text.cut '/' (tail directory)).getLast? = some n.toList := by
    rw [Text.splitOn, List.getLast?_map] at hdirectory
    obtain ⟨cs, hcs, rfl⟩ := Option.map_eq_some_iff.1 hdirectory
    rw [getLast_cut_tail, hcs, String.toList_ofList]
  have hkept : trimIdle (isRooted directory) (Text.cut '/' (tail directory)).reverse =
      (Text.cut '/' (tail directory)).reverse := by
    obtain ⟨before, hbefore⟩ := List.getLast?_eq_some_iff.1 hlast
    rw [hbefore, List.reverse_concat, trimIdle_proper hn.proper_toList]
  simp only [hjoin, parent?, namesBack_append hne hf, isRooted_append hne, hkept,
    ofNamesBack_cut_tail]

/-- What names lead to lies in the directory that the names before the last one lead to. -/
theorem liesIn_join (hne : names ≠ []) (h : ∀ n ∈ names ++ [f], IsName n) (base : String) :
    LiesIn (join base (Text.join "/" (names ++ [f]))) (names.foldl join base) f := by
  have hf := h f (by simp)
  obtain ⟨before, n, rfl⟩ := (List.eq_nil_or_concat' names).resolve_left hne
  have hn := h n (by simp)
  rw [← join_foldl_join h, List.foldl_append]
  obtain ⟨above, -, hname, -⟩ := parent_of_getLast (hf.getLast_splitOn_join
    (List.foldl join (List.foldl join base before) [n])) hf.ne_empty hf.ne_dot hf.ne_back
  exact ⟨parent_join (hn.getLast_splitOn_join _) hn hf, hname⟩

/-- To go along no names at all is to stay, but for a slash at the end. -/
theorem join_join_empty (hf : IsName f) (base : String) : join (join base "") f = join base f := by
  have hroot : isRooted "" = false := rfl
  by_cases hstays : (base = "" || endsInSlash base) = true
  · have hsame : join base "" = base := by
      rw [join, hroot, if_neg Bool.false_ne_true, if_pos hstays, String.append_empty]
    rw [hsame]
  · have hslash : join base "" = base ++ "/" := by
      rw [join, hroot, if_neg Bool.false_ne_true, if_neg hstays, String.append_empty]
    have hends : endsInSlash (base ++ "/") = true :=
      endsInSlash_iff.2 ⟨base.toList, String.toList_append⟩
    rw [hslash, join, join, hf.not_rooted, hends, if_neg hstays]
    simp

/-- A directory can be gone to along its names one after the other or along all of them at once. -/
theorem join_join_names (hf : IsName f) (h : ∀ n ∈ names, IsName n) (base : String) :
    join (join base (Text.join "/" names)) f = join (names.foldl join base) f := by
  rcases List.eq_nil_or_concat' names with rfl | ⟨before, n, rfl⟩
  · exact join_join_empty hf base
  · rw [List.foldl_append, List.foldl_cons, List.foldl_nil, join_foldl_join h]

end ArtifactCache.Path
