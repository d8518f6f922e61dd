import ArtifactCache.Proofs.Text
import ArtifactCache.Proofs.Tracking.Format

/-! Writing a record and reading it again. An entry whose key begins with no blank is read in two
steps, its key and its value, unless the bracket its key begins with opens a section. -/
namespace ArtifactCache.Tracking

open Text (isBlank strip)

variable {s : Reading} {x c : Char} {seen rest cs : List Char} {r m : Record} {key value : String}
  {es : List (String × String)}

/-- An entry that comes back as it was written. -/
structure Storable (key value : String) : Prop where
  trimmed : Trimmed key value
  head : key.toList.head? ≠ some '['
  key_unfed : Unfed key.toList
  value_unfed : Unfed value.toList

instance (key value : String) : Decidable (Storable key value) :=
  decidable_of_iff ((key ≠ "" ∧ Text.trim key = key ∧ Text.trim value = value) ∧
      key.toList.head? ≠ some '[' ∧ Unfed key.toList ∧ Unfed value.toList)
    ⟨fun ⟨⟨hne, hk, hv⟩, hhead, hkey, hvalue⟩ => ⟨⟨hne, hk, hv⟩, hhead, hkey, hvalue⟩,
      fun ⟨⟨hne, hk, hv⟩, hhead, hkey, hvalue⟩ => ⟨⟨hne, hk, hv⟩, hhead, hkey, hvalue⟩⟩

/-- An entry whose line begins with the first character of its key. -/
structure Legible (key value : String) : Prop where
  head : ∃ c, key.toList.head? = some c ∧ isBlank c = false
  value_trim : Text.trim value = value

/-- What the written form of a trimmed text is read as. -/
def reread (s : String) : String := String.ofList (s.toList.map readBack)

/-- What the written form of a key is read as. -/
def rereadKey (s : String) : String := Text.trim (reread s)

theorem reread_eq_self {s : String} (h : Unfed s.toList) : reread s = s := by
  rw [reread, map_readBack h, String.ofList_toList]

theorem unfed_reread (s : String) : Unfed (reread s).toList := by
  rw [reread, String.toList_ofList]
  exact unfed_map_readBack _

theorem strip_of_trim {s : String} (h : Text.trim s = s) : strip isBlank s.toList = s.toList := by
  have := congrArg String.toList h
  rwa [Text.trim, String.toList_ofList] at this

theorem readBack_of_not_blank (h : isBlank c = false) : readBack c = c := by
  apply readBack_eq_self
  · rintro rfl
    cases h
  · rintro rfl
    cases h

theorem strip_map_readBack (h : strip isBlank cs = cs) :
    strip isBlank (cs.map readBack) = cs.map readBack := by
  rw [Text.strip_eq_self_iff] at h ⊢
  obtain ⟨hhead, hlast⟩ := h
  rw [List.head?_map, List.getLast?_map]
  constructor
  · intro c hc
    obtain ⟨d, hd, rfl⟩ := Option.map_eq_some_iff.1 hc
    rw [readBack_of_not_blank (hhead d hd)]
    exact hhead d hd
  · intro c hc
    obtain ⟨d, hd, rfl⟩ := Option.map_eq_some_iff.1 hc
    rw [readBack_of_not_blank (hlast d hd)]
    exact hlast d hd

theorem skipToLine_eq_self (h : ∀ c, rest.head? = some c → isBlank c = false)
    (seen : List Char) : skipToLine seen rest = ⟨seen, rest⟩ := by
  cases rest with
  | nil => rfl
  | cons c rest =>
    have hc := h c rfl
    have hline : ¬ (c = '\n' ∨ c = '\r') := by
      rintro (rfl | rfl) <;> cases hc
    simp [skipToLine, hline, hc]

theorem skipWhile_eq_self {p : Char → Bool} (h : ∀ c, rest.head? = some c → p c = false)
    (seen : List Char) : Cursor.skipWhile p seen rest = ⟨seen, rest⟩ := by
  cases rest with
  | nil => rfl
  | cons c rest => simp [Cursor.skipWhile, h c rfl]

theorem Trimmed.legible (h : Trimmed key value) : Legible key value := by
  have hne : key.toList ≠ [] := by simpa using h.key_ne
  obtain ⟨c, cs, hcs⟩ := List.exists_cons_of_ne_nil hne
  have hhead : key.toList.head? = some c := by rw [hcs]; rfl
  exact ⟨⟨c, hhead, Text.head_of_strip_eq (strip_of_trim h.key_trim) hhead⟩, h.value_trim⟩

theorem rereadKey_of_trim (h : Text.trim key = key) : rereadKey key = reread key := by
  rw [rereadKey, Text.trim, reread, String.toList_ofList, strip_map_readBack (strip_of_trim h)]

theorem unfed_rereadKey (s : String) : Unfed (rereadKey s).toList := by
  have hmem : ∀ c ∈ (rereadKey s).toList, c ∈ (reread s).toList := by
    intro c hc
    rw [rereadKey, Text.trim, String.toList_ofList] at hc
    exact Text.mem_of_mem_strip hc
  exact ⟨fun h => (unfed_reread s).1 (hmem _ h), fun h => (unfed_reread s).2 (hmem _ h)⟩

theorem trim_rereadKey (s : String) : Text.trim (rereadKey s) = rereadKey s := by
  simp only [rereadKey, Text.trim, String.toList_ofList, Text.strip_strip]

theorem rereadKey_ne_empty_iff :
    rereadKey key ≠ "" ↔ ∃ c ∈ key.toList, isBlank (readBack c) = false := by
  have htext : rereadKey key ≠ "" ↔ strip isBlank (key.toList.map readBack) ≠ [] := by
    rw [rereadKey, Text.trim, reread, String.toList_ofList, ne_eq, ← String.toList_inj,
      String.toList_ofList]
    rfl
  rw [htext, Text.strip_ne_nil_iff]
  simp

/-- A key that was read is read again as it is. -/
theorem rereadKey_rereadKey (s : String) : rereadKey (rereadKey s) = rereadKey s := by
  rw [rereadKey_of_trim (trim_rereadKey s), reread_eq_self (unfed_rereadKey s)]

/-- A key that begins with no blank begins with the same character when it is read. -/
theorem head_rereadKey (h : key.toList.head? = some c) (hc : isBlank c = false) :
    (rereadKey key).toList.head? = some c := by
  have hback : (key.toList.map readBack).head? = some c := by
    rw [List.head?_map, h, Option.map_some, readBack_of_not_blank hc]
  rw [rereadKey, Text.trim, String.toList_ofList, reread, String.toList_ofList]
  exact Text.head?_strip hback hc

/-- The written form of a text that begins with no blank begins with a backslash or as the text. -/
theorem head_escape (h : ∀ c, cs.head? = some c → isBlank c = false)
    (hx : (escape cs).head? = some x) :
    isBlank x = false ∧ (x = '\\' ∨ reserved x = false ∧ cs.head? = some x) := by
  cases cs with
  | nil => cases hx
  | cons c cs =>
    rw [escape_cons] at hx
    rcases escapeChar_cases c with ⟨t, ht⟩ | ⟨hc, hr, -, -⟩
    · rw [ht] at hx
      cases hx
      exact ⟨by decide, .inl rfl⟩
    · rw [hc] at hx
      cases hx
      exact ⟨h _ rfl, .inr ⟨hr, rfl⟩⟩

theorem escape_ne_nil (h : cs ≠ []) : escape cs ≠ [] := by
  cases cs with
  | nil => exact absurd rfl h
  | cons c cs =>
    rw [escape_cons]
    rcases escapeChar_cases c with ⟨t, ht⟩ | ⟨hc, -⟩
    · simp [ht]
    · simp [hc]

/-- The line of a legible entry begins with what is no blank. -/
theorem entryLine_eq_cons (h : Legible key value) : ∃ x tail, entryLine key value = x :: tail ∧
    isBlank x = false ∧ (x = '\\' ∨ reserved x = false ∧ key.toList.head? = some x) := by
  obtain ⟨c, hhead, hc⟩ := h.head
  have hne : escape key.toList ≠ [] := by
    apply escape_ne_nil
    intro hnil
    rw [hnil] at hhead
    cases hhead
  obtain ⟨x, tail, hx⟩ := List.exists_cons_of_ne_nil hne
  refine ⟨x, tail ++ '=' :: escape value.toList ++ ['\n'], ?_, ?_⟩
  · simp [entryLine, hx]
  · refine head_escape ?_ (by rw [hx]; rfl)
    intro d hd
    rw [hhead] at hd
    cases hd
    exact hc

theorem readItem_plain (hb : isBlank x = false) (hx : x ≠ '[')
    (hr : x = '\\' ∨ reserved x = false) (s : Reading) (seen rest : List Char) :
    readItem s seen x rest = toLine <$> readKey s seen (x :: rest) := by
  have hmark : ∀ d, d = ';' ∨ d = '#' ∨ d = '=' ∨ d = ':' → x ≠ d := by
    rintro d hd rfl
    rcases hr with rfl | hr
    · simp at hd
    · rcases hd with rfl | rfl | rfl | rfl <;> cases hr
  have hspace : ∀ d, isBlank d = true → x ≠ d := by
    rintro d hd rfl
    rw [hd] at hb
    cases hb
  rw [readItem, if_neg (by simp [hmark]), if_neg hx, if_neg (by simp [hmark]),
    if_neg (not_or.2 ⟨hspace _ (by decide), hspace _ (by decide)⟩),
    if_neg (not_or.2 ⟨hspace _ (by decide), hspace _ (by decide)⟩)]

theorem readItem_separator (hs : s.pending ≠ []) (seen rest : List Char) :
    readItem s seen '=' rest = toLine <$> readValue s ('=' :: seen) rest := by
  rw [readItem, if_neg (by decide), if_neg (by decide), if_pos (by decide), if_neg hs]

theorem readKey_escape (cs : List Char) (s : Reading) (seen rest : List Char) :
    toLine <$> readKey s seen (escape cs ++ '=' :: rest) =
      .ok ({ s with pending := strip isBlank (cs.map readBack) },
        ⟨(escape cs).reverse ++ seen, '=' :: rest⟩) := by
  have hstay : ∀ seen, skipToLine seen ('=' :: rest) = ⟨seen, '=' :: rest⟩ := by
    apply skipToLine_eq_self
    intro c hc
    cases hc
    decide
  have hread : readText .separator seen (escape cs ++ '=' :: rest) = _ :=
    readText_escape (by decide) (by decide) (by decide) cs seen rest
  simp only [readKey, hread, bind, Except.bind, pure, Except.pure, Functor.map, Except.map, toLine,
    hstay]

/-- At a line that begins with no blank nothing is skipped but the line feed before it. -/
theorem skipToLine_lineFeed (h : ∀ c, rest.head? = some c → isBlank c = false)
    (seen : List Char) : skipToLine seen ('\n' :: rest) = ⟨'\n' :: seen, rest⟩ := by
  have hindent : ¬ (rest.head? = some ' ' ∨ rest.head? = some '\t') := by
    rintro (hspace | htab)
    · cases h _ hspace
    · cases h _ htab
  simp [skipToLine, hindent, skipToLine_eq_self h]

theorem readValue_escape (hcs : strip isBlank cs = cs) (hs : s.inSection = false)
    (seen rest : List Char) :
    toLine <$> readValue s seen (escape cs ++ '\n' :: rest) =
      .ok ({ s with
          pending := []
          record := s.record.insert (String.ofList s.pending) (String.ofList (cs.map readBack)) },
        skipToLine ((escape cs).reverse ++ seen) ('\n' :: rest)) := by
  have hstart : ∀ seen, Cursor.skipWhile (fun c => isBlank c && c != '\n' && c != '\r') seen
      (escape cs ++ '\n' :: rest) = ⟨seen, escape cs ++ '\n' :: rest⟩ := by
    apply skipWhile_eq_self
    intro c hc
    cases hhead : (escape cs).head? with
    | none =>
      rw [List.head?_eq_none_iff.1 hhead] at hc
      cases hc
      decide
    | some d =>
      rw [List.head?_append, hhead] at hc
      cases hc
      simp [(head_escape (fun c => Text.head_of_strip_eq hcs) hhead).1]
  have hread : readText .lineEnd seen (escape cs ++ '\n' :: rest) = _ :=
    readText_escape (by decide) (by decide) (by decide) cs seen rest
  simp only [readValue, hstart, hread, bind, Except.bind, pure, Except.pure, Functor.map,
    Except.map, toLine, strip_map_readBack hcs, hs, Bool.false_eq_true, if_false]

/-- One line is read as one entry, whatever follows it. -/
theorem readItems_entry (h : Legible key value) (hhead : key.toList.head? ≠ some '[')
    (r : Record) (seen rest : List Char) :
    ∃ seen', readItems ⟨[], false, r⟩ ⟨seen, entryLine key value ++ rest⟩ =
      readItems ⟨[], false, r.insert (rereadKey key) (reread value)⟩
        (skipToLine seen' ('\n' :: rest)) := by
  obtain ⟨x, tail, hx, hb, hmark⟩ := entryLine_eq_cons h
  have hopen : x ≠ '[' := by
    rintro rfl
    rcases hmark with hmark | ⟨-, hmark⟩
    · cases hmark
    · exact hhead hmark
  have hline : x :: (tail ++ rest) =
      escape key.toList ++ '=' :: (escape value.toList ++ '\n' :: rest) := by
    rw [← List.cons_append, ← hx]
    simp [entryLine]
  have hkey := readItem_plain hb hopen (hmark.imp_right And.left) ⟨[], false, r⟩ seen (tail ++ rest)
  rw [hline, readKey_escape] at hkey
  rw [hx, List.cons_append, readItems_cons hkey]
  have htoList : strip isBlank (key.toList.map readBack) = (rereadKey key).toList := by
    rw [rereadKey, Text.trim, reread, String.toList_ofList, String.toList_ofList]
  have hpending : (rereadKey key).toList ≠ [] := by
    obtain ⟨c, hfirst, hc⟩ := h.head
    intro hnil
    have := head_rereadKey hfirst hc
    rw [hnil] at this
    cases this
  rw [htoList]
  generalize rereadKey key = name at hpending ⊢
  have hvalue := readItem_separator (s := ⟨name.toList, false, r⟩) hpending
    ((escape key.toList).reverse ++ seen) (escape value.toList ++ '\n' :: rest)
  rw [readValue_escape (strip_of_trim h.value_trim) rfl] at hvalue
  simp only [String.ofList_toList] at hvalue
  exact ⟨_, readItems_cons hvalue⟩

/-- After the line of an entry the next one is read, if it begins with no blank. -/
theorem readItems_entryLine (h : Legible key value) (hhead : key.toList.head? ≠ some '[')
    (hrest : ∀ c, rest.head? = some c → isBlank c = false) (r : Record) (seen : List Char) :
    ∃ seen', readItems ⟨[], false, r⟩ ⟨seen, entryLine key value ++ rest⟩ =
      readItems ⟨[], false, r.insert (rereadKey key) (reread value)⟩ ⟨seen', rest⟩ := by
  obtain ⟨seen', hentry⟩ := readItems_entry h hhead r seen rest
  rw [skipToLine_lineFeed hrest] at hentry
  exact ⟨_, hentry⟩

/-- The lines of entries. -/
def entryLines (es : List (String × String)) : List Char :=
  es.flatMap fun e => entryLine e.1 e.2

/-- An entry whose key is taken for the name of a section. -/
def opensSection (e : String × String) : Bool := e.1.toList.head? = some '['

/-- A record with an entry as it is read from its line. -/
def Record.reread (r : Record) (e : String × String) : Record :=
  r.insert (rereadKey e.1) (Tracking.reread e.2)

theorem entryLines_cons (e : String × String) (es : List (String × String)) :
    entryLines (e :: es) = entryLine e.1 e.2 ++ entryLines es := List.flatMap_cons

theorem head_entryLines (h : ∀ e ∈ es, Legible e.1 e.2) (hc : (entryLines es).head? = some c) :
    isBlank c = false := by
  cases es with
  | nil => cases hc
  | cons e es =>
    obtain ⟨x, tail, hx, hb, -⟩ := entryLine_eq_cons (h e List.mem_cons_self)
    rw [entryLines_cons, hx] at hc
    cases hc
    exact hb

/-- The lines of legible entries are read one after the other. -/
theorem readItems_entryLines (h : ∀ e ∈ es, Legible e.1 e.2)
    (hopen : ∀ e ∈ es, opensSection e = false) (r : Record) (seen : List Char) :
    readItems ⟨[], false, r⟩ ⟨seen, entryLines es⟩ = .ok (es.foldl Record.reread r) := by
  induction es generalizing r seen with
  | nil => exact readItems_nil _ _
  | cons e es ih =>
    have hrest : ∀ e ∈ es, Legible e.1 e.2 := fun d hd => h d (List.mem_cons_of_mem _ hd)
    obtain ⟨seen', hline⟩ := readItems_entryLine (h e List.mem_cons_self)
      (of_decide_eq_false (hopen e List.mem_cons_self)) (fun c => head_entryLines hrest) r seen
    rw [entryLines_cons, hline]
    exact ih hrest (fun d hd => hopen d (List.mem_cons_of_mem _ hd)) _ _

theorem entryLine_of_opensSection {e : String × String} (h : opensSection e = true) :
    ∃ tail, entryLine e.1 e.2 = '[' :: tail := by
  have hhead : e.1.toList.head? = some '[' := of_decide_eq_true h
  obtain ⟨cs, hcs⟩ := List.head?_eq_some_iff.1 hhead
  refine ⟨escape cs ++ '=' :: escape e.2.toList ++ ['\n'], ?_⟩
  simp [entryLine, hcs, escape_cons, show escapeChar '[' = ['['] by decide]

theorem readItems_bracket (h : readItems s ⟨seen, '[' :: rest⟩ = .ok m) : m = s.record := by
  rw [readItems] at h
  simp only at h
  split at h
  · cases h
  · rename_i t next hitem
    rw [readItem, if_neg (by decide), if_pos rfl] at hitem
    obtain ⟨c, hc⟩ := toLine_map_eq hitem
    obtain ⟨p, -, hp⟩ := Result.bind_eq_ok.1 hc
    cases hp
    exact readItems_inSection (s := { s with inSection := true }) rfl h

/-- Whatever is read, it is what stands before the first line that opens a section. -/
theorem eq_of_readItems_entryLines (h : ∀ e ∈ es, Legible e.1 e.2)
    (hm : readItems ⟨[], false, r⟩ ⟨seen, entryLines es⟩ = .ok m) :
    m = (es.takeWhile fun e => !opensSection e).foldl Record.reread r := by
  induction es generalizing r seen with
  | nil =>
    rw [entryLines, List.flatMap_nil, readItems_nil] at hm
    exact (Except.ok.inj hm).symm
  | cons e es ih =>
    have hrest : ∀ e ∈ es, Legible e.1 e.2 := fun d hd => h d (List.mem_cons_of_mem _ hd)
    have he := h e List.mem_cons_self
    rw [entryLines_cons] at hm
    by_cases hopen : opensSection e = true
    · obtain ⟨tail, htail⟩ := entryLine_of_opensSection hopen
      rw [htail, List.cons_append] at hm
      rw [readItems_bracket hm]
      simp [hopen]
    · obtain ⟨seen', hline⟩ := readItems_entryLine he
        (fun hhead => hopen (decide_eq_true hhead)) (fun c => head_entryLines hrest) r seen
      rw [hline] at hm
      rw [List.takeWhile_cons_of_pos (by simpa using hopen)]
      exact ih hrest hm

theorem skipComment_line (h : '\n' ∉ cs) (seen rest : List Char) :
    skipComment seen (cs ++ '\n' :: rest) = ⟨'\n' :: (cs.reverse ++ seen), rest⟩ := by
  induction cs generalizing seen with
  | nil => simp [skipComment]
  | cons c cs ih =>
    rw [List.mem_cons, not_or] at h
    rw [List.cons_append, skipComment, if_neg (Ne.symm h.1), ih h.2]
    simp

/-- A comment in the first column is passed over. -/
theorem readItem_comment (hmark : c = '#' ∨ c = ';') (hcs : '\n' ∉ cs)
    (hseen : Cursor.atLineStart ⟨seen, c :: (cs ++ '\n' :: rest)⟩ = true) (s : Reading) :
    readItem s seen c (cs ++ '\n' :: rest) =
      .ok (toLine (s, ⟨'\n' :: (cs.reverse ++ c :: seen), rest⟩)) := by
  rw [readItem, if_pos hmark.symm, if_pos hseen, skipComment_line hcs]

theorem heading_eq : ∃ cs, heading.toList = '#' :: (cs ++ ['\n']) ∧ '\n' ∉ cs :=
  ⟨heading.toList.tail.dropLast, by decide, by decide⟩

/-- The heading is passed over. -/
theorem parse_render_eq (h : ∀ e ∈ m.entries, Legible e.1 e.2) :
    ∃ seen, parse (render m) = readItems ⟨[], false, .empty⟩ ⟨seen, entryLines m.entries⟩ := by
  obtain ⟨cs, hcs, hline⟩ := heading_eq
  have hitem : readItem ⟨[], false, .empty⟩ [] '#' (cs ++ '\n' :: entryLines m.entries) = _ :=
    readItem_comment (.inl rfl) hline rfl _
  rw [toLine, skipToLine_eq_self fun c => head_entryLines h] at hitem
  have htext : render m = '#' :: (cs ++ '\n' :: entryLines m.entries) := by
    simp [render, hcs, entryLines]
  refine ⟨'\n' :: (cs.reverse ++ ['#']), ?_⟩
  rw [parse, htext, if_neg (by simp [isBlank]), Cursor.start, readItems_cons hitem]

/-- A record is read as its entries are, if none of them opens a section. -/
theorem parse_render_legible (h : ∀ e ∈ m.entries, Legible e.1 e.2)
    (hopen : ∀ e ∈ m.entries, opensSection e = false) :
    parse (render m) = .ok (m.entries.foldl Record.reread .empty) := by
  obtain ⟨seen, hseen⟩ := parse_render_eq h
  rw [hseen, readItems_entryLines h hopen]

theorem parse_render_single (h : Legible key value) (hopen : opensSection (key, value) = false) :
    parse (render (.ofList [(key, value)])) = .ok (.ofList [(rereadKey key, reread value)]) := by
  have hentries : (KeyMap.ofList [(key, value)]).entries = [(key, value)] := rfl
  rw [parse_render_legible, hentries]
  · simp only [List.foldl_cons, List.foldl_nil, Record.reread, KeyMap.ofList]
  · intro e he
    rw [hentries, List.mem_singleton] at he
    rw [he]
    exact h
  · intro e he
    rw [hentries, List.mem_singleton] at he
    rw [he]
    exact hopen

theorem get?_foldl_reread (h : (es.foldl Record.reread r).get? key = some value) :
    r.get? key = some value ∨ ∃ e ∈ es, key = rereadKey e.1 ∧ value = reread e.2 := by
  induction es generalizing r with
  | nil => exact .inl h
  | cons e es ih =>
    rcases ih h with h | ⟨d, hd, hkey⟩
    · rw [Record.reread, KeyMap.get?_insert] at h
      split at h
      · exact .inr ⟨e, List.mem_cons_self, ‹_›, (Option.some.inj h).symm⟩
      · exact .inl h
    · exact .inr ⟨d, List.mem_cons_of_mem _ hd, hkey⟩

/-- What is read of legible entries is one of them as it is read, and it would come back. -/
theorem of_parse_render (hr : ∀ e ∈ r.entries, Legible e.1 e.2) (h : parse (render r) = .ok m)
    (hkey : m.get? key = some value) :
    Storable key value ∧ ∃ e ∈ r.entries, key = rereadKey e.1 ∧ value = reread e.2 := by
  obtain ⟨seen, hseen⟩ := parse_render_eq hr
  have hm := eq_of_readItems_entryLines hr (hseen ▸ h)
  have hget := hkey
  rw [hm] at hget
  rcases get?_foldl_reread hget with hget | ⟨e, he, rfl, rfl⟩
  · cases hget
  · have hplain : opensSection e = false := by simpa using List.mem_takeWhile_imp he
    have he' := (List.takeWhile_sublist _).subset he
    obtain ⟨c, hhead, hc⟩ := (hr e he').head
    refine ⟨⟨parse_trimmed h hkey, ?_, unfed_rereadKey _, unfed_reread _⟩, e, he', rfl, rfl⟩
    rw [head_rereadKey hhead hc, ← hhead]
    exact of_decide_eq_false hplain

theorem Storable.reread_eq (h : Storable key value) : rereadKey key = key ∧ reread value = value :=
  ⟨by rw [rereadKey_of_trim h.trimmed.key_trim, reread_eq_self h.key_unfed],
    reread_eq_self h.value_unfed⟩

/-- A record comes back as it was written just when all of its entries do. -/
theorem parse_render_iff : parse (render m) = .ok m ↔ ∀ e ∈ m.entries, Storable e.1 e.2 := by
  constructor
  · intro h e he
    have hlegible : ∀ e ∈ m.entries, Legible e.1 e.2 := fun e he =>
      (parse_trimmed h ((KeyMap.mem_entries_iff m).1 he)).legible
    exact (of_parse_render hlegible h ((KeyMap.mem_entries_iff m).1 he)).1
  · intro h
    have hlegible : ∀ e ∈ m.entries, Legible e.1 e.2 := fun e he => (h e he).trimmed.legible
    rw [parse_render_legible hlegible fun e he => decide_eq_false (h e he).head]
    have hstep : ∀ r : Record, ∀ e ∈ m.entries, Record.reread r e = r.insert e.1 e.2 := by
      intro r e he
      rw [Record.reread, (h e he).reread_eq.1, (h e he).reread_eq.2]
    rw [List.foldl_ext _ _ _ hstep, KeyMap.foldl_insert_entries]

end ArtifactCache.Tracking
