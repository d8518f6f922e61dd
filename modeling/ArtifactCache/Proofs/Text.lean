import ArtifactCache.Text
import Mathlib.Data.List.DropRight

/-! What is left when both ends of a text are stripped, and the pieces it is cut into. -/
namespace ArtifactCache.Text

variable {p : Char → Bool} {c sep : Char} {cs ds : List Char}

theorem dropWhile_eq_self (h : ∀ c, cs.head? = some c → p c = false) : cs.dropWhile p = cs := by
  cases cs with
  | nil => rfl
  | cons c cs => rw [List.dropWhile_cons_of_neg (by simp [h c rfl])]

theorem head?_dropWhile_eq_false (h : (cs.dropWhile p).head? = some c) : p c = false := by
  have := List.head?_dropWhile_not p cs
  rwa [h] at this

theorem head?_eq_some_of_extends (h : cs <+: ds) (hc : cs.head? = some c) : ds.head? = some c := by
  obtain ⟨es, rfl⟩ := h
  simp [List.head?_append, hc]

/-- Nothing more can be stripped off. -/
theorem strip_strip (p : Char → Bool) (cs : List Char) : strip p (strip p cs) = strip p cs := by
  have hpre : (cs.dropWhile p).rdropWhile p <+: cs.dropWhile p := List.rdropWhile_prefix p _
  have hself : ((cs.dropWhile p).rdropWhile p).dropWhile p = (cs.dropWhile p).rdropWhile p := by
    apply dropWhile_eq_self
    intro c hc
    exact head?_dropWhile_eq_false (head?_eq_some_of_extends hpre hc)
  change (((cs.dropWhile p).rdropWhile p).dropWhile p).rdropWhile p = (cs.dropWhile p).rdropWhile p
  rw [hself, List.rdropWhile_idempotent]

/-- A text that is stripped already begins with a character that stays. -/
theorem head_of_strip_eq (h : strip p cs = cs) (hc : cs.head? = some c) : p c = false := by
  have hpre : strip p cs <+: cs.dropWhile p := List.rdropWhile_prefix p _
  rw [h] at hpre
  exact head?_dropWhile_eq_false (head?_eq_some_of_extends hpre hc)

theorem getLast?_of_strip_eq (h : strip p cs = cs) (hc : cs.getLast? = some c) : p c = false := by
  rw [← h, strip, List.getLast?_reverse] at hc
  exact head?_dropWhile_eq_false hc

theorem mem_of_mem_strip (h : c ∈ strip p cs) : c ∈ cs := by
  rw [strip, List.mem_reverse] at h
  exact (List.dropWhile_suffix p).subset (List.mem_reverse.1 ((List.dropWhile_suffix p).subset h))

/-- A text that begins with a character that stays begins with it when it is stripped. -/
theorem head?_strip (h : cs.head? = some c) (hc : p c = false) : (strip p cs).head? = some c := by
  obtain ⟨ds, rfl⟩ := List.head?_eq_some_iff.1 h
  rw [strip, List.dropWhile_cons_of_neg (by simp [hc]), List.reverse_cons, List.dropWhile_append]
  split
  · simp [hc]
  · simp

/-- Something is left of a text just when it has a character that stays. -/
theorem strip_ne_nil_iff : strip p cs ≠ [] ↔ ∃ c ∈ cs, p c = false := by
  constructor
  · intro h
    obtain ⟨c, ds, hcons⟩ := List.exists_cons_of_ne_nil h
    refine ⟨c, mem_of_mem_strip (hcons ▸ List.mem_cons_self), ?_⟩
    exact head_of_strip_eq (strip_strip p cs) (by rw [hcons]; rfl)
  · rintro ⟨c, hc, hp⟩ hnil
    have hall : ∀ d ∈ cs.dropWhile p, p d = true := by
      rw [strip, List.reverse_eq_nil_iff, List.dropWhile_eq_nil_iff] at hnil
      exact fun d hd => hnil d (List.mem_reverse.2 hd)
    have hdrop : cs.dropWhile p = [] := by
      cases hrest : cs.dropWhile p with
      | nil => rfl
      | cons d ds =>
        have hd : p d = false := head?_dropWhile_eq_false (congrArg List.head? hrest)
        rw [hall d (hrest ▸ List.mem_cons_self)] at hd
        cases hd
    rw [List.dropWhile_eq_nil_iff.1 hdrop c hc] at hp
    cases hp

/-- What follows a text that begins with a character that stays is not stripped off if there is such
a character in it too. -/
theorem strip_append (hc : ∀ c, cs.head? = some c → p c = false) (hcs : cs ≠ [])
    (hds : ∃ d ∈ ds, p d = false) : ∃ es, es ≠ [] ∧ strip p (cs ++ ds) = cs ++ es := by
  have hhead : ∀ c, (cs ++ ds).head? = some c → p c = false := by
    rw [List.head?_append_of_ne_nil _ hcs]
    exact hc
  have hrest : ds.reverse.dropWhile p ≠ [] := by
    intro hnil
    obtain ⟨d, hd, hp⟩ := hds
    rw [List.dropWhile_eq_nil_iff.1 hnil d (List.mem_reverse.2 hd)] at hp
    cases hp
  refine ⟨(ds.reverse.dropWhile p).reverse, by simpa using hrest, ?_⟩
  rw [strip, dropWhile_eq_self hhead, List.reverse_append, List.dropWhile_append,
    if_neg (by simpa using hrest), List.reverse_append, List.reverse_reverse]

/-- A text is stripped already when it neither begins nor ends in a character that goes. -/
theorem strip_eq_self_iff : strip p cs = cs ↔
    (∀ c, cs.head? = some c → p c = false) ∧ ∀ c, cs.getLast? = some c → p c = false := by
  constructor
  · intro h
    exact ⟨fun c => head_of_strip_eq h, fun c => getLast?_of_strip_eq h⟩
  · rintro ⟨hhead, hlast⟩
    rw [strip, dropWhile_eq_self hhead, dropWhile_eq_self (by simpa using hlast),
      List.reverse_reverse]

/-- A text is cut in one way only into characters of one kind and a rest that begins with another. -/
theorem append_inj_of_stop {cs' ds' : List Char} (hcs : ∀ c ∈ cs, p c = true)
    (hcs' : ∀ c ∈ cs', p c = true) (hds : ∀ d, ds.head? = some d → p d = false)
    (hds' : ∀ d, ds'.head? = some d → p d = false) (h : cs ++ ds = cs' ++ ds') :
    cs = cs' ∧ ds = ds' := by
  have htake : ∀ {cs ds : List Char}, (∀ c ∈ cs, p c = true) →
      (∀ d, ds.head? = some d → p d = false) → (cs ++ ds).takeWhile p = cs := by
    intro cs ds hcs hds
    have hrest : ds.takeWhile p = [] := by
      cases ds with
      | nil => rfl
      | cons d ds => rw [List.takeWhile_cons_of_neg (by simp [hds d rfl])]
    rw [List.takeWhile_append_of_pos hcs, hrest, List.append_nil]
  have hfront : cs = cs' := by rw [← htake hcs hds, h, htake hcs' hds']
  exact ⟨hfront, List.append_cancel_left (hfront ▸ h)⟩

theorem cut_ne_nil (sep : Char) (cs : List Char) : cut sep cs ≠ [] := by
  cases cs with
  | nil => simp [cut]
  | cons c cs =>
    rw [cut]
    split
    · simp
    · split <;> simp

theorem cut_cons_of_ne (h : c ≠ sep) (cs : List Char) : ∃ piece pieces,
    cut sep cs = piece :: pieces ∧ cut sep (c :: cs) = (c :: piece) :: pieces := by
  obtain ⟨piece, pieces, hcut⟩ := List.exists_cons_of_ne_nil (cut_ne_nil sep cs)
  refine ⟨piece, pieces, hcut, ?_⟩
  simp [cut, h, hcut]

theorem cut_append (sep : Char) (cs ds : List Char) :
    cut sep (cs ++ sep :: ds) = cut sep cs ++ cut sep ds := by
  induction cs with
  | nil => simp [cut]
  | cons c cs ih =>
    by_cases hc : c = sep
    · simp [cut, hc, ih]
    · obtain ⟨piece, pieces, hcut, hcons⟩ := cut_cons_of_ne hc cs
      obtain ⟨piece', pieces', hcut', hcons'⟩ := cut_cons_of_ne hc (cs ++ sep :: ds)
      rw [ih, hcut, List.cons_append, List.cons.injEq] at hcut'
      rw [List.cons_append, hcons', hcons, ← hcut'.1, ← hcut'.2]
      rfl

theorem cut_eq_singleton (h : sep ∉ cs) : cut sep cs = [cs] := by
  induction cs with
  | nil => rfl
  | cons c cs ih =>
    rw [List.mem_cons, not_or] at h
    simp [cut, Ne.symm h.1, ih h.2]

theorem sep_notMem_of_mem_cut {piece : List Char} (h : piece ∈ cut sep cs) : sep ∉ piece := by
  induction cs generalizing piece with
  | nil =>
    rw [cut, List.mem_singleton] at h
    simp [h]
  | cons c cs ih =>
    by_cases hc : c = sep
    · rw [cut, if_pos hc, List.mem_cons] at h
      rcases h with rfl | h
      · simp
      · exact ih h
    · obtain ⟨first, pieces, hcut, hcons⟩ := cut_cons_of_ne hc cs
      rw [hcons, List.mem_cons] at h
      rcases h with rfl | h
      · rw [List.mem_cons, not_or]
        exact ⟨Ne.symm hc, ih (hcut ▸ List.mem_cons_self)⟩
      · exact ih (hcut ▸ List.mem_cons_of_mem _ h)

theorem length_cut (sep : Char) (cs : List Char) : (cut sep cs).length = cs.count sep + 1 := by
  induction cs with
  | nil => rfl
  | cons c cs ih =>
    by_cases hc : c = sep
    · rw [cut, if_pos hc, List.length_cons, ih, hc, List.count_cons_self]
    · obtain ⟨piece, pieces, hcut, hcons⟩ := cut_cons_of_ne hc cs
      rw [hcons, List.length_cons, List.count_cons_of_ne hc, ← ih, hcut, List.length_cons]

/-- The pieces of a text have no other characters than the text. -/
theorem mem_of_mem_cut {piece : List Char} (h : piece ∈ cut sep cs) (hc : c ∈ piece) : c ∈ cs := by
  induction cs generalizing piece with
  | nil =>
    rw [cut, List.mem_singleton] at h
    exact h ▸ hc
  | cons d cs ih =>
    by_cases hd : d = sep
    · rw [cut, if_pos hd, List.mem_cons] at h
      rcases h with rfl | h
      · cases hc
      · exact List.mem_cons_of_mem _ (ih h hc)
    · obtain ⟨first, pieces, hcut, hcons⟩ := cut_cons_of_ne hd cs
      rw [hcons, List.mem_cons] at h
      rcases h with rfl | h
      · rcases List.mem_cons.1 hc with rfl | hc
        · exact List.mem_cons_self
        · exact List.mem_cons_of_mem _ (ih (hcut ▸ List.mem_cons_self) hc)
      · exact List.mem_cons_of_mem _ (ih (hcut ▸ List.mem_cons_of_mem _ h) hc)

/-- Every character of a text but the separator is in one of its pieces. -/
theorem exists_mem_cut (hc : c ∈ cs) (hsep : c ≠ sep) : ∃ piece ∈ cut sep cs, c ∈ piece := by
  induction cs with
  | nil => cases hc
  | cons d cs ih =>
    by_cases hd : d = sep
    · rcases List.mem_cons.1 hc with rfl | hc
      · exact absurd hd hsep
      · obtain ⟨piece, hpiece, hmem⟩ := ih hc
        exact ⟨piece, by rw [cut, if_pos hd]; exact List.mem_cons_of_mem _ hpiece, hmem⟩
    · obtain ⟨first, pieces, hcut, hcons⟩ := cut_cons_of_ne hd cs
      rw [hcons]
      rcases List.mem_cons.1 hc with rfl | hc
      · exact ⟨_, List.mem_cons_self, List.mem_cons_self⟩
      · obtain ⟨piece, hpiece, hmem⟩ := ih hc
        rw [hcut, List.mem_cons] at hpiece
        rcases hpiece with rfl | hpiece
        · exact ⟨_, List.mem_cons_self, List.mem_cons_of_mem _ hmem⟩
        · exact ⟨_, List.mem_cons_of_mem _ hpiece, hmem⟩

/-- A joined text is cut into what was joined. -/
theorem cut_join {pieces : List (List Char)} (hne : pieces ≠ [])
    (h : ∀ piece ∈ pieces, sep ∉ piece) :
    cut sep (join (String.singleton sep) (pieces.map String.ofList)).toList = pieces := by
  induction pieces with
  | nil => exact absurd rfl hne
  | cons piece pieces ih =>
    have hpiece := cut_eq_singleton (h piece List.mem_cons_self)
    cases pieces with
    | nil => simpa [join] using hpiece
    | cons next pieces =>
      have hnext := ih (by simp) fun x hx => h x (List.mem_cons_of_mem _ hx)
      have htext : (join (String.singleton sep) ((piece :: next :: pieces).map String.ofList)).toList =
          piece ++ sep ::
            (join (String.singleton sep) ((next :: pieces).map String.ofList)).toList := by
        simp [join]
      rw [htext, cut_append, hpiece, hnext]
      rfl

/-- The pieces of a text make it up again. -/
theorem join_cut (sep : Char) (cs : List Char) :
    join (String.singleton sep) ((cut sep cs).map String.ofList) = String.ofList cs := by
  induction cs with
  | nil => rfl
  | cons c cs ih =>
    by_cases hc : c = sep
    · obtain ⟨piece, pieces, hcut⟩ := List.exists_cons_of_ne_nil (cut_ne_nil sep cs)
      rw [hcut, List.map_cons] at ih
      rw [cut, if_pos hc, hcut, List.map_cons, List.map_cons, join, ih, hc]
      · apply String.toList_inj.1
        simp
      · exact nofun
    · obtain ⟨piece, pieces, hcut, hcons⟩ := cut_cons_of_ne hc cs
      rw [hcut, List.map_cons] at ih
      rw [hcons, List.map_cons]
      apply String.toList_inj.1
      have := congrArg String.toList ih
      cases pieces with
      | nil => simpa [join] using this
      | cons next pieces => simpa [join] using this

/-- A text is cut once where its first separator is. -/
theorem cutOnce_eq_some_iff {pre post : List Char} :
    cutOnce sep cs = some (pre, post) ↔ cs = pre ++ sep :: post ∧ sep ∉ pre := by
  induction cs generalizing pre post with
  | nil => simp [cutOnce]
  | cons c cs ih =>
    rw [cutOnce]
    by_cases hc : c = sep
    · subst hc
      rw [if_pos rfl]
      cases pre with
      | nil => simp
      | cons d pre => simp +contextual
    · rw [if_neg hc]
      cases pre with
      | nil => simp [hc]
      | cons d pre =>
        simp only [Option.map_eq_some_iff, Prod.exists, Prod.mk.injEq, List.cons.injEq, ih,
          List.cons_append, List.mem_cons, not_or]
        constructor
        · rintro ⟨pre', post', ⟨rfl, hpre⟩, ⟨rfl, rfl⟩, rfl⟩
          exact ⟨⟨rfl, rfl⟩, Ne.symm hc, hpre⟩
        · rintro ⟨⟨rfl, rfl⟩, -, hpre⟩
          exact ⟨pre, post, ⟨rfl, hpre⟩, ⟨rfl, rfl⟩, rfl⟩

theorem splitOnce_eq_some_iff {s pre post : String} : splitOnce sep s = some (pre, post) ↔
    s = pre ++ String.singleton sep ++ post ∧ sep ∉ pre.toList := by
  rw [splitOnce, Option.map_eq_some_iff]
  simp only [Prod.exists, Prod.mk.injEq, cutOnce_eq_some_iff]
  constructor
  · rintro ⟨cs, ds, ⟨hs, hcs⟩, rfl, rfl⟩
    exact ⟨String.toList_inj.1 (by simp [hs]), by simpa using hcs⟩
  · rintro ⟨rfl, hpre⟩
    exact ⟨pre.toList, post.toList, ⟨by simp, hpre⟩, by simp, by simp⟩

theorem splitOn_append (sep : Char) (s t : String) :
    splitOn sep (s ++ String.singleton sep ++ t) = splitOn sep s ++ splitOn sep t := by
  simp [splitOn, cut_append]

theorem length_splitOn (sep : Char) (s : String) :
    (splitOn sep s).length = s.toList.count sep + 1 := by
  rw [splitOn, List.length_map, length_cut]

theorem sep_notMem_of_mem_splitOn {s piece : String} (h : piece ∈ splitOn sep s) :
    sep ∉ piece.toList := by
  obtain ⟨cs, hcs, rfl⟩ := List.mem_map.1 h
  rw [String.toList_ofList]
  exact sep_notMem_of_mem_cut hcs

theorem join_splitOn (sep : Char) (s : String) :
    join (String.singleton sep) (splitOn sep s) = s := by
  rw [splitOn, join_cut, String.ofList_toList]

/-- Different texts have different pieces. -/
theorem splitOn_inj {s t : String} : splitOn sep s = splitOn sep t ↔ s = t := by
  refine ⟨fun h => ?_, fun h => h ▸ rfl⟩
  rw [← join_splitOn sep s, h, join_splitOn]

theorem splitOn_eq_singleton {s : String} (h : sep ∉ s.toList) : splitOn sep s = [s] := by
  rw [splitOn, cut_eq_singleton h, List.map_singleton, String.ofList_toList]

theorem splitOn_join {ss : List String} (hne : ss ≠ []) (h : ∀ s ∈ ss, sep ∉ s.toList) :
    splitOn sep (join (String.singleton sep) ss) = ss := by
  have hpieces := @cut_join sep (ss.map String.toList) (by simpa using hne) (by simpa using h)
  rw [List.map_map] at hpieces
  simp only [Function.comp_def, String.ofList_toList, List.map_id'] at hpieces
  rw [splitOn, hpieces, List.map_map]
  simp [Function.comp_def]

theorem join_eq_intercalate (sep : String) (ss : List String) :
    join sep ss = sep.intercalate ss := by
  induction ss with
  | nil => rfl
  | cons s ss ih =>
    cases ss with
    | nil => rfl
    | cons t ss => rw [join, ih, String.intercalate_cons_cons]; exact nofun

theorem join_cons (sep s : String) (ss : List String) :
    join sep (s :: ss) = s ++ String.join (ss.map (sep ++ ·)) := by
  induction ss generalizing s with
  | nil => simp [join]
  | cons t ss ih =>
    rw [join, ih]
    · apply String.toList_inj.1
      simp
    · exact List.cons_ne_nil _ _

end ArtifactCache.Text
