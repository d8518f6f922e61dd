import ArtifactCache.Files.Path
import ArtifactCache.Proofs.Text

/-! The names a path is made of, and those of the paths that are made from it. -/
namespace ArtifactCache.Path

variable {path base rel above f : String} {cs ds n : List Char} {ns : List (List Char)} {rooted : Bool}

theorem isRooted_iff : isRooted path = true ↔ path.toList.head? = some '/' := by
  rw [isRooted, Text.startsWith, List.isPrefixOf_iff_prefix]
  cases path.toList with
  | nil => simp
  | cons c cs => simp [eq_comm]

theorem endsInSlash_iff : endsInSlash path = true ↔ ∃ cs, path.toList = cs ++ ['/'] := by
  rw [endsInSlash, Text.endsWith, List.isSuffixOf_iff_suffix]
  exact ⟨fun ⟨cs, hcs⟩ => ⟨cs, hcs.symm⟩, fun ⟨cs, hcs⟩ => ⟨cs, hcs.symm⟩⟩

theorem not_rooted_of_notMem (h : '/' ∉ f.toList) : isRooted f = false := by
  rw [Bool.eq_false_iff, ne_eq, isRooted_iff]
  exact fun hhead => h (List.mem_of_head? hhead)

theorem not_slash_of_getLast (h : (Text.splitOn '/' path).getLast? = some f) (hn : f ≠ "") :
    endsInSlash path = false := by
  rw [Bool.eq_false_iff, ne_eq, endsInSlash_iff]
  rintro ⟨cs, hcs⟩
  rw [Text.splitOn, hcs, Text.cut_append] at h
  simp [Text.cut] at h
  exact hn h

/-- A name that leads somewhere. -/
def proper (n : List Char) : Bool := n ≠ [] && n ≠ ['.']

/-- The names in a text that lead somewhere. -/
def properNames (cs : List Char) : List (List Char) := (Text.cut '/' cs).filter proper

theorem properNames_nil : properNames [] = [] := rfl

theorem properNames_append (cs ds : List Char) :
    properNames (cs ++ '/' :: ds) = properNames cs ++ properNames ds := by
  rw [properNames, Text.cut_append, List.filter_append]
  rfl

theorem properNames_slash (cs : List Char) : properNames ('/' :: cs) = properNames cs :=
  properNames_append [] cs

theorem names_eq (path : String) : names path = (properNames path.toList).map String.ofList := by
  rw [names, Text.splitOn, List.filter_map, properNames]
  congr 2
  funext n
  have hdot : String.ofList n = "." ↔ n = ['.'] := by
    rw [show "." = String.ofList ['.'] from rfl, String.ofList_inj]
  simp [proper, hdot]

theorem slash_notMem_of_mem_names {n : String} (h : n ∈ names path) : '/' ∉ n.toList :=
  Text.sep_notMem_of_mem_splitOn (List.mem_filter.1 h).1

theorem names_join (h : isRooted rel = false) : names (join base rel) = names base ++ names rel := by
  simp only [names_eq, ← List.map_append]
  congr 1
  rw [join, if_neg (by simp [h])]
  by_cases hbase : base = ""
  · simp [hbase, properNames_nil]
  by_cases hslash : endsInSlash base = true
  · obtain ⟨cs, hcs⟩ := endsInSlash_iff.1 hslash
    simp [hslash, hcs, properNames_append, properNames_nil]
  · simp [hbase, hslash, properNames_append]

theorem isRooted_append (h : path ≠ "") (s : String) : isRooted (path ++ s) = isRooted path := by
  obtain ⟨c, cs, hcs⟩ := List.exists_cons_of_ne_nil (show path.toList ≠ [] by simpa using h)
  rw [Bool.eq_iff_iff, isRooted_iff, isRooted_iff, String.toList_append, hcs]
  rfl

theorem isRooted_join (h : isRooted rel = false) : isRooted (join base rel) = isRooted base := by
  rw [join, if_neg (by simp [h])]
  by_cases hbase : base = ""
  · rw [if_pos (by simp [hbase]), hbase, String.empty_append, h]
    rfl
  · by_cases hslash : endsInSlash base = true
    · simp [hslash, isRooted_append hbase]
    · simp [hbase, hslash, String.append_assoc, isRooted_append hbase]

theorem isRooted_foldl_join {names : List String} (h : ∀ n ∈ names, '/' ∉ n.toList) (base : String) :
    isRooted (names.foldl join base) = isRooted base := by
  induction names generalizing base with
  | nil => rfl
  | cons n names ih =>
    have hn := not_rooted_of_notMem (h n List.mem_cons_self)
    rw [List.foldl_cons, ih fun m hm => h m (List.mem_cons_of_mem _ hm), isRooted_join hn]

theorem filter_trimIdle (rooted : Bool) (ns : List (List Char)) :
    (trimIdle rooted ns).filter proper = ns.filter proper := by
  induction ns with
  | nil => rfl
  | cons n ns ih =>
    rw [trimIdle]
    split
    · rename_i hidle
      have hn : proper n = false := by
        simp only [isIdle, Bool.or_eq_true, Bool.and_eq_true, decide_eq_true_eq] at hidle
        rcases hidle with rfl | ⟨rfl, -⟩ <;> rfl
      rw [ih, List.filter_cons_of_neg (by simp [hn])]
    · rfl

theorem trimIdle_suffix (rooted : Bool) (ns : List (List Char)) : trimIdle rooted ns <:+ ns := by
  induction ns with
  | nil => exact List.suffix_rfl
  | cons n ns ih =>
    rw [trimIdle]
    split
    · exact ih.trans (List.suffix_cons _ _)
    · exact List.suffix_rfl

/-- What stands behind the root of a path, or all of a path that does not start there. -/
def tail (path : String) : List Char := if isRooted path then path.toList.drop 1 else path.toList

theorem namesBack_eq (path : String) :
    namesBack path = trimIdle (isRooted path) (Text.cut '/' (tail path)).reverse := rfl

theorem toList_eq_tail (path : String) :
    path.toList = (if isRooted path then ['/'] else []) ++ tail path := by
  rw [tail]
  split
  · rename_i h
    obtain ⟨cs, hcs⟩ := List.head?_eq_some_iff.1 (isRooted_iff.1 h)
    rw [hcs]
    rfl
  · rfl

theorem tail_append (h : path ≠ "") (s : String) : tail (path ++ s) = tail path ++ s.toList := by
  have happend := toList_eq_tail (path ++ s)
  rw [isRooted_append h, String.toList_append, toList_eq_tail path, List.append_assoc] at happend
  exact (List.append_cancel_left happend).symm

/-- The names of a path behind its root. -/
theorem properNames_tail (path : String) : properNames (tail path) = properNames path.toList := by
  rw [toList_eq_tail path]
  split
  · exact (properNames_slash _).symm
  · rfl

theorem filter_namesBack (path : String) :
    (namesBack path).reverse.filter proper = properNames path.toList := by
  rw [namesBack_eq, List.filter_reverse, filter_trimIdle, ← List.filter_reverse,
    List.reverse_reverse]
  exact properNames_tail path

theorem slash_notMem_of_mem_namesBack (h : n ∈ namesBack path) : '/' ∉ n :=
  Text.sep_notMem_of_mem_cut (List.mem_reverse.1 ((trimIdle_suffix _ _).subset h))

theorem names_ofNamesBack (h : ∀ n ∈ ns, '/' ∉ n) :
    names (ofNamesBack rooted ns) = (ns.reverse.filter proper).map String.ofList := by
  have hjoin : properNames (Text.join "/" (ns.reverse.map String.ofList)).toList =
      ns.reverse.filter proper := by
    cases ns with
    | nil => rfl
    | cons n ns =>
      rw [properNames, show "/" = String.singleton '/' from rfl, Text.cut_join (by simp)]
      intro m hm
      exact h m (List.mem_reverse.1 hm)
  rw [names_eq, ofNamesBack, String.toList_append, ← hjoin]
  cases rooted with
  | false => rfl
  | true => exact congrArg _ (properNames_slash _)

theorem parent_eq (h : parent? path = some above) : ∃ n ns, namesBack path = n :: ns ∧
    above = ofNamesBack (isRooted path) (trimIdle (isRooted path) ns) := by
  rw [parent?] at h
  split at h
  · cases h
  · rename_i n ns hnames
    exact ⟨n, ns, hnames, (Option.some.inj h).symm⟩

/-- The names of a path are those of the path above it and its last one. -/
theorem names_of_parent (h : parent? path = some above) : ∃ n, (namesBack path).head? = some n ∧
    names path = names above ++ ([n].filter proper).map String.ofList := by
  obtain ⟨n, ns, hnames, rfl⟩ := parent_eq h
  refine ⟨n, by rw [hnames]; rfl, ?_⟩
  have hslash : ∀ m ∈ trimIdle (isRooted path) ns, '/' ∉ m := by
    intro m hm
    have hmem : m ∈ namesBack path := by
      rw [hnames]
      exact List.mem_cons_of_mem _ ((trimIdle_suffix _ _).subset hm)
    exact slash_notMem_of_mem_namesBack hmem
  rw [names_eq, ← filter_namesBack, hnames, List.reverse_cons, List.filter_append,
    List.map_append, names_ofNamesBack hslash, List.filter_reverse, List.filter_reverse,
    filter_trimIdle]

theorem isIdle_of_trimIdle {ms : List (List Char)} (h : trimIdle rooted ms = n :: ns) :
    isIdle (ns.isEmpty && !rooted) n = false := by
  induction ms with
  | nil => cases h
  | cons m ms ih =>
    rw [trimIdle] at h
    split at h
    · exact ih h
    · rename_i hidle
      cases h
      simpa using hidle

theorem names_of_parent_ne (h : parent? path = some above) (hne : above ≠ "") :
    ∃ f, names path = names above ++ [f] := by
  obtain ⟨m, hm, hnames⟩ := names_of_parent h
  obtain ⟨n, ns, hback, habove⟩ := parent_eq h
  rw [hback, List.head?_cons, Option.some.injEq] at hm
  have hn : proper n = true := by
    have hidle := isIdle_of_trimIdle hback
    by_contra hproper
    have hsay : n = [] ∨ n = ['.'] := by
      simp only [proper, Bool.and_eq_true, decide_eq_true_eq, not_and_or, not_not] at hproper
      exact hproper
    rcases hsay with rfl | rfl
    · cases hidle
    · have hns : ns = [] ∧ isRooted path = false := by simpa [isIdle] using hidle
      apply hne
      rw [habove, hns.1, hns.2]
      rfl
  rw [← hm, List.filter_cons_of_pos hn] at hnames
  exact ⟨_, hnames⟩

/-- The last piece of a path is not at its root. -/
theorem getLast_cut_tail (path : String) :
    (Text.cut '/' (tail path)).getLast? = (Text.cut '/' path.toList).getLast? := by
  conv_rhs => rw [toList_eq_tail path]
  split
  · rw [show ['/'] ++ tail path = [] ++ '/' :: tail path from rfl, Text.cut_append,
      List.getLast?_append_of_ne_nil _ (Text.cut_ne_nil _ _)]
  · rfl

theorem trimIdle_proper (hn : proper n = true) (rooted : Bool) (ns : List (List Char)) :
    trimIdle rooted (n :: ns) = n :: ns := by
  have hidle : ∀ first, isIdle first n = false := by
    intro first
    simp only [proper, Bool.and_eq_true, decide_eq_true_eq] at hn
    simp [isIdle, hn]
  rw [trimIdle, hidle, if_neg Bool.false_ne_true]

/-- A path ends in the last of its names if that leads somewhere. -/
theorem namesBack_of_getLast (h : (Text.cut '/' path.toList).getLast? = some n)
    (hn : proper n = true) : ∃ ns, namesBack path = n :: ns := by
  rw [← getLast_cut_tail, ← List.head?_reverse] at h
  obtain ⟨ns, hns⟩ := List.head?_eq_some_iff.1 h
  exact ⟨ns, by rw [namesBack_eq, hns, trimIdle_proper hn]⟩

theorem parent_of_getLast (h : (Text.splitOn '/' path).getLast? = some f) (hempty : f ≠ "")
    (hdot : f ≠ ".") (hback : f ≠ "..") : ∃ above, parent? path = some above ∧
      fileName? path = some f ∧ names path = names above ++ [f] := by
  rw [Text.splitOn, List.getLast?_map] at h
  obtain ⟨n, hlast, rfl⟩ := Option.map_eq_some_iff.1 h
  have hdot : n ≠ ['.'] := by
    rintro rfl
    exact hdot rfl
  have hback : n ≠ ['.', '.'] := by
    rintro rfl
    exact hback rfl
  have hn : proper n = true := by simpa [proper, hdot] using hempty
  obtain ⟨ns, hnames⟩ := namesBack_of_getLast hlast hn
  have habove : parent? path =
      some (ofNamesBack (isRooted path) (trimIdle (isRooted path) ns)) := by
    simp [parent?, hnames]
  refine ⟨_, habove, by simp [fileName?, hnames, hdot, hback], ?_⟩
  obtain ⟨m, hm, heq⟩ := names_of_parent habove
  rw [hnames, List.head?_cons, Option.some.injEq] at hm
  rw [heq, ← hm]
  simp [hn]

theorem getLast_splitOn_join (h : isRooted rel = false) :
    (Text.splitOn '/' (join base rel)).getLast? = (Text.splitOn '/' rel).getLast? := by
  have happend : ∀ cs : List Char, (Text.cut '/' (cs ++ '/' :: rel.toList)).getLast? =
      (Text.cut '/' rel.toList).getLast? := by
    intro cs
    rw [Text.cut_append, List.getLast?_append_of_ne_nil _ (Text.cut_ne_nil _ _)]
  simp only [Text.splitOn, List.getLast?_map]
  congr 1
  rw [join, if_neg (by simp [h])]
  by_cases hbase : base = ""
  · simp [hbase]
  by_cases hslash : endsInSlash base = true
  · obtain ⟨cs, hcs⟩ := endsInSlash_iff.1 hslash
    simp [hslash, hcs, happend]
  · simp [hbase, hslash, happend]

theorem isRooted_ofNamesBack_true (ns : List (List Char)) :
    isRooted (ofNamesBack true ns) = true := by
  rw [isRooted_iff, ofNamesBack, String.toList_append]
  rfl

theorem isRooted_ofNamesBack_false (h : ∀ n ∈ ns, '/' ∉ n) (hlast : ns.getLast? ≠ some []) :
    isRooted (ofNamesBack false ns) = false := by
  rw [Bool.eq_false_iff, ne_eq, isRooted_iff, ofNamesBack]
  intro hhead
  cases hns : ns.reverse with
  | nil =>
    rw [hns] at hhead
    cases hhead
  | cons n ns' =>
    have hn : '/' ∉ n := h n (List.mem_reverse.1 (hns ▸ List.mem_cons_self))
    have hne : n ≠ [] := by
      rintro rfl
      apply hlast
      rw [← List.head?_reverse, hns]
      rfl
    obtain ⟨c, cs, rfl⟩ := List.exists_cons_of_ne_nil hne
    have hc : c = '/' := by
      rw [hns] at hhead
      cases ns' with
      | nil => simpa [Text.join] using hhead
      | cons m ns' => simpa [Text.join] using hhead
    exact hn (hc ▸ List.mem_cons_self)

/-- A path that does not start at the root does not begin with an empty name. -/
theorem getLast_namesBack (h : isRooted path = false) : (namesBack path).getLast? ≠ some [] := by
  intro hlast
  obtain ⟨before, hbefore⟩ := trimIdle_suffix (isRooted path) (Text.cut '/' path.toList).reverse
  rw [namesBack, h, if_neg Bool.false_ne_true] at hlast
  rw [h] at hbefore
  have hhead : (Text.cut '/' path.toList).head? = some [] := by
    rw [← List.getLast?_reverse, ← hbefore, List.getLast?_append, hlast]
    rfl
  cases hpath : path.toList with
  | nil =>
    rw [hpath] at hlast
    simp [Text.cut, trimIdle, isIdle] at hlast
  | cons c cs =>
    by_cases hc : c = '/'
    · rw [Bool.eq_false_iff, ne_eq, isRooted_iff, hpath] at h
      exact h (congrArg some hc)
    · obtain ⟨piece, pieces, -, hcons⟩ := Text.cut_cons_of_ne hc cs
      rw [hpath, hcons] at hhead
      cases hhead

/-- The path above another one starts where that one does. -/
theorem isRooted_of_parent (h : parent? path = some above) : isRooted above = isRooted path := by
  obtain ⟨n, ns, hnames, rfl⟩ := parent_eq h
  generalize hroot : isRooted path = rooted
  cases rooted with
  | true => exact isRooted_ofNamesBack_true _
  | false =>
    have hsuffix : trimIdle false ns <:+ namesBack path := by
      rw [hnames]
      exact (trimIdle_suffix _ _).trans (List.suffix_cons _ _)
    apply isRooted_ofNamesBack_false
    · intro m hm
      exact slash_notMem_of_mem_namesBack (hsuffix.subset hm)
    · intro hlast
      obtain ⟨before, hbefore⟩ := hsuffix
      apply getLast_namesBack hroot
      rw [← hbefore, List.getLast?_append, hlast]
      rfl

end ArtifactCache.Path
