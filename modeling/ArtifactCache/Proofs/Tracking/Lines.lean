import ArtifactCache.Proofs.Tracking.RoundTrip

/-! Tracking files that were laid out by others. The lines of entries may stand in any order, with
empty lines, lines of blanks and comments before, between and after them. -/
namespace ArtifactCache.Tracking

open Text (isBlank)

variable {r m : Record} {rest cs : List Char} {mark : Char} {key value : String}

/-- A line of a tracking file. -/
inductive Line where
  | entry (key value : String)
  | blank (cs : List Char) (hcs : ∀ c ∈ cs, c = ' ' ∨ c = '\t')
  | comment (mark : Char) (cs : List Char) (hmark : mark = '#' ∨ mark = ';') (hcs : '\n' ∉ cs)

namespace Line

/-- A line with the line feed that ends it. -/
def text : Line → List Char
  | entry key value => entryLine key value
  | blank cs _ => cs ++ ['\n']
  | comment mark cs _ _ => mark :: (cs ++ ['\n'])

def entry? : Line → Option (String × String)
  | entry key value => some (key, value)
  | _ => none

end Line

theorem skipToLine_blanks (hcs : ∀ c ∈ cs, c = ' ' ∨ c = '\t') (seen rest : List Char) :
    skipToLine seen (cs ++ rest) = skipToLine (cs.reverse ++ seen) rest := by
  induction cs generalizing seen with
  | nil => rfl
  | cons c cs ih =>
    have hc : (c ≠ '\n' ∧ c ≠ '\r') ∧ isBlank c = true := by
      rcases hcs c List.mem_cons_self with rfl | rfl <;> decide
    rw [List.cons_append, skipToLine, if_neg (not_or.2 hc.1), if_pos hc.2,
      ih fun d hd => hcs d (List.mem_cons_of_mem _ hd)]
    simp

theorem skipWhile_blanks (hcs : ∀ c ∈ cs, c = ' ' ∨ c = '\t') (seen rest : List Char) :
    Cursor.skipWhile (fun c => c == ' ' || c == '\t') seen (cs ++ '\n' :: rest) =
      ⟨cs.reverse ++ seen, '\n' :: rest⟩ := by
  induction cs generalizing seen with
  | nil => rfl
  | cons c cs ih =>
    have hc : (c == ' ' || c == '\t') = true := by simpa using hcs c List.mem_cons_self
    rw [List.cons_append, Cursor.skipWhile, if_pos hc,
      ih fun d hd => hcs d (List.mem_cons_of_mem _ hd)]
    simp

/-- Whether reading goes on from the head of a line to a record, also if the blanks there are skipped
before. -/
structure Reads (r : Record) (rest : List Char) (m : Record) : Prop where
  start : ∀ seen, Cursor.atLineStart ⟨seen, rest⟩ = true →
    readItems ⟨[], false, r⟩ ⟨seen, rest⟩ = .ok m
  skipped : ∀ seen, Cursor.atLineStart ⟨seen, rest⟩ = true →
    readItems ⟨[], false, r⟩ (skipToLine seen rest) = .ok m

namespace Reads

/-- It does not matter whether the line after a line feed is reached or skipped into. -/
theorem lineFeed (h : Reads r rest m) (seen : List Char) :
    readItems ⟨[], false, r⟩ (skipToLine seen ('\n' :: rest)) = .ok m := by
  rw [skipToLine, if_pos (.inl rfl)]
  split
  · exact h.start _ rfl
  · exact h.skipped _ rfl

theorem of_unskipped (hrest : ∀ c, rest.head? = some c → isBlank c = false)
    (h : ∀ seen, Cursor.atLineStart ⟨seen, rest⟩ = true →
      readItems ⟨[], false, r⟩ ⟨seen, rest⟩ = .ok m) : Reads r rest m := by
  refine ⟨h, ?_⟩
  intro seen hseen
  rw [skipToLine_eq_self hrest]
  exact h seen hseen

theorem nil (r : Record) : Reads r [] r :=
  of_unskipped nofun fun _ _ => readItems_nil _ _

theorem entry (he : Storable key value) (h : Reads (r.insert key value) rest m) :
    Reads r (entryLine key value ++ rest) m := by
  refine of_unskipped ?_ ?_
  · obtain ⟨x, tail, hx, hb, -⟩ := entryLine_eq_cons he.trimmed.legible
    rw [hx]
    intro c hc
    cases hc
    exact hb
  · intro seen _
    obtain ⟨seen', hentry⟩ := readItems_entry he.trimmed.legible he.head r seen rest
    rw [hentry, he.reread_eq.1, he.reread_eq.2]
    exact h.lineFeed seen'

theorem comment (hmark : mark = '#' ∨ mark = ';') (hcs : '\n' ∉ cs) (h : Reads r rest m) :
    Reads r (mark :: (cs ++ '\n' :: rest)) m := by
  refine of_unskipped ?_ ?_
  · intro c hc
    cases hc
    rcases hmark with rfl | rfl <;> decide
  · intro seen hseen
    rw [readItems_cons (readItem_comment hmark hcs hseen _)]
    exact h.skipped _ rfl

theorem blank (hcs : ∀ c ∈ cs, c = ' ' ∨ c = '\t') (h : Reads r rest m) :
    Reads r (cs ++ '\n' :: rest) m := by
  constructor
  · intro seen _
    cases cs with
    | nil =>
      have hitem : readItem ⟨[], false, r⟩ seen '\n' rest =
          .ok (toLine (⟨[], false, r⟩, ⟨'\n' :: seen, rest⟩)) := by
        rw [readItem]
        simp
      rw [List.nil_append, readItems_cons hitem]
      exact h.skipped _ rfl
    | cons c cs =>
      have hc := hcs c List.mem_cons_self
      have hskip := skipWhile_blanks (fun d hd => hcs d (List.mem_cons_of_mem _ hd)) (c :: seen) rest
      have hitem : readItem ⟨[], false, r⟩ seen c (cs ++ '\n' :: rest) =
          .ok (⟨[], false, r⟩, ⟨'\n' :: (cs.reverse ++ c :: seen), rest⟩) := by
        rw [readItem, hskip]
        rcases hc with rfl | rfl <;> rfl
      rw [List.cons_append, readItems_cons hitem]
      exact h.start _ rfl
  · intro seen _
    rw [skipToLine_blanks hcs]
    exact h.lineFeed _

/-- Lines are read one after the other. -/
theorem flatMap (lines : List Line)
    (h : ∀ e ∈ lines.filterMap Line.entry?, Storable e.1 e.2) (r : Record) :
    Reads r (lines.flatMap Line.text)
      ((lines.filterMap Line.entry?).foldl (fun r e => r.insert e.1 e.2) r) := by
  induction lines generalizing r with
  | nil => exact .nil r
  | cons line lines ih =>
    rw [List.flatMap_cons]
    cases line with
    | entry key value =>
      have hentries : (Line.entry key value :: lines).filterMap Line.entry? =
          (key, value) :: lines.filterMap Line.entry? := rfl
      rw [hentries] at h ⊢
      exact .entry (h _ List.mem_cons_self) (ih (fun e he => h e (List.mem_cons_of_mem _ he)) _)
    | blank cs hcs =>
      have hentries : (Line.blank cs hcs :: lines).filterMap Line.entry? =
          lines.filterMap Line.entry? := rfl
      rw [hentries] at h ⊢
      simpa [Line.text] using (ih h r).blank hcs
    | comment mark cs hmark hcs =>
      have hentries : (Line.comment mark cs hmark hcs :: lines).filterMap Line.entry? =
          lines.filterMap Line.entry? := rfl
      rw [hentries] at h ⊢
      simpa [Line.text] using (ih h r).comment hmark hcs

end Reads

variable {lines : List Line}

theorem eq_nil_of_blank (h : (lines.flatMap Line.text).all isBlank = true) :
    lines.filterMap Line.entry? = [] := by
  rw [List.filterMap_eq_nil_iff]
  intro line hline
  cases line with
  | entry key value =>
    have hmem : '=' ∈ lines.flatMap Line.text :=
      List.mem_flatMap.2 ⟨_, hline, by simp [Line.text, entryLine]⟩
    cases List.all_eq_true.1 h _ hmem
  | blank => rfl
  | comment => rfl

/-- Lines are read as the record of their entries. -/
theorem parse_flatMap (hm : ∀ e ∈ m.entries, Storable e.1 e.2)
    (h : (lines.filterMap Line.entry?).Perm m.entries) :
    parse (lines.flatMap Line.text) = .ok m := by
  have hreads := Reads.flatMap lines (fun e he => hm e (h.subset he)) .empty
  rw [KeyMap.foldl_insert_of_perm h] at hreads
  rw [parse]
  split
  next hblank =>
    rw [eq_nil_of_blank hblank] at h
    rw [← KeyMap.foldl_insert_of_perm h]
    rfl
  next => exact hreads.start [] rfl

/-- The lines that are written for the entries of a record that comes back are read as that record in
any order, with any empty lines, lines of blanks and comments around them, and with the heading or
without it. -/
theorem parse_laid_out (hm : ∀ e ∈ m.entries, Storable e.1 e.2) (lines : List Line)
    (h : (lines.filterMap Line.entry?).Perm m.entries) :
    parse (lines.flatMap Line.text) = .ok m ∧
      parse (heading.toList ++ lines.flatMap Line.text) = .ok m := by
  refine ⟨parse_flatMap hm h, ?_⟩
  -- The heading is a comment like any other.
  obtain ⟨cs, hcs, hline⟩ := heading_eq
  have htext : heading.toList ++ lines.flatMap Line.text =
      (Line.comment '#' cs (.inl rfl) hline :: lines).flatMap Line.text := by
    rw [List.flatMap_cons, hcs]
    rfl
  rw [htext]
  exact parse_flatMap hm h

/-- Two entries in the other order, with their marks, between what is passed over. -/
theorem parse_laid_out_marks :
    let m : Record := .ofList [("a#b>", "x=y"), ("c;d>", "")]
    let lines : List Line := [.blank [' ', '\t'] (by simp),
      .comment ';' ['[', '\r'] (.inr rfl) (by decide), .entry "c;d>" "", .blank [] nofun,
      .blank ['\t'] (by simp), .entry "a#b>" "x=y",
      .comment '#' ['k', '=', 'v'] (.inl rfl) (by decide)]
    (∀ e ∈ m.entries, Storable e.1 e.2) ∧ (lines.filterMap Line.entry?).Perm m.entries ∧
      parse (lines.flatMap Line.text) = .ok m ∧
      parse (heading.toList ++ lines.flatMap Line.text) = .ok m := by
  intro m lines
  have hm : ∀ e ∈ m.entries, Storable e.1 e.2 := by decide
  have hlines : (lines.filterMap Line.entry?).Perm m.entries := by decide
  exact ⟨hm, hlines, parse_laid_out hm lines hlines⟩

end ArtifactCache.Tracking
