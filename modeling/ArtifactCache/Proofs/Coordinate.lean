import ArtifactCache.Coordinate
import ArtifactCache.Proofs.Text

/-! Which texts are coordinates, and which come back as they were read. -/
namespace ArtifactCache

open Text (splitOn)

variable {s : String} {fs : List String} {a : Artifact} {m : Metadata}

namespace Artifact

/-- The fields of a coordinate and the artifact that they name. -/
inductive Names : List String → Artifact → Prop
  | plain (g n v : String) : Names [g, n, v] ⟨g, n, "", "jar", v⟩
  | extended (g n e v : String) : Names [g, n, e, v] ⟨g, n, "", e, v⟩
  | classified (g n e c v : String) : Names [g, n, e, c, v] ⟨g, n, c, e, v⟩

/-- Whether the fields are given that an artifact cannot do without. -/
structure Complete (a : Artifact) : Prop where
  group_ne : a.group ≠ ""
  name_ne : a.name ≠ ""
  version_ne : a.version ≠ ""

/-- Whether a coordinate can name an artifact: it is complete and has no colon in any field. -/
structure Nameable (a : Artifact) : Prop extends Complete a where
  colonless : ∀ f ∈ [a.group, a.name, a.classifier, a.extension, a.version], ':' ∉ f.toList

instance (a : Artifact) : Decidable a.Nameable :=
  decidable_of_iff ((a.group ≠ "" ∧ a.name ≠ "" ∧ a.version ≠ "") ∧
      ∀ f ∈ [a.group, a.name, a.classifier, a.extension, a.version], ':' ∉ f.toList)
    ⟨fun ⟨⟨hg, hn, hv⟩, hcolon⟩ => ⟨⟨hg, hn, hv⟩, hcolon⟩,
      fun ⟨⟨hg, hn, hv⟩, hcolon⟩ => ⟨⟨hg, hn, hv⟩, hcolon⟩⟩

/-- Fields are accepted just if they are those of an artifact that is complete. -/
theorem accept_eq_ok_iff {group name extension classifier version : String} {f : Fault} :
    (if group = "" ∨ name = "" ∨ version = "" then .error f
      else .ok ⟨group, name, classifier, extension, version⟩ : Except Fault Artifact) = .ok a ↔
    a = ⟨group, name, classifier, extension, version⟩ ∧ a.Complete := by
  constructor
  · intro h
    split at h
    next => cases h
    next hfields =>
      cases h
      simp only [not_or] at hfields
      exact ⟨rfl, hfields.1, hfields.2.1, hfields.2.2⟩
  · rintro ⟨rfl, hgroup, hname, hversion⟩
    rw [if_neg (by simp [hgroup, hname, hversion])]

theorem parse_eq_ok_iff : parse s = .ok a ↔ Names (splitOn ':' s) a ∧ a.Complete := by
  rw [parse]
  generalize splitOn ':' s = fs
  constructor
  · intro h
    split at h
    · obtain ⟨rfl, hcomplete⟩ := accept_eq_ok_iff.1 h
      exact ⟨.plain .., hcomplete⟩
    · obtain ⟨rfl, hcomplete⟩ := accept_eq_ok_iff.1 h
      exact ⟨.extended .., hcomplete⟩
    · obtain ⟨rfl, hcomplete⟩ := accept_eq_ok_iff.1 h
      exact ⟨.classified .., hcomplete⟩
    · cases h
  · rintro ⟨hnames, hcomplete⟩
    cases hnames with
    | plain => exact accept_eq_ok_iff.2 ⟨rfl, hcomplete⟩
    | extended => exact accept_eq_ok_iff.2 ⟨rfl, hcomplete⟩
    | classified => exact accept_eq_ok_iff.2 ⟨rfl, hcomplete⟩

theorem Names.ends (h : Names fs a) : fs.length ∈ [3, 4, 5] ∧ fs[0]? = some a.group ∧
    fs[1]? = some a.name ∧ fs.getLast? = some a.version := by
  cases h <;> simp

theorem Names.mem (h : Names fs a) :
    ∀ f ∈ [a.group, a.name, a.classifier, a.extension, a.version], f ∈ fs ∨ f = "" ∨ f = "jar" := by
  cases h <;> simp

theorem exists_names (h : fs.length ∈ [3, 4, 5]) : ∃ a, Names fs a := by
  match fs with
  | [g, n, v] => exact ⟨_, .plain g n v⟩
  | [g, n, e, v] => exact ⟨_, .extended g n e v⟩
  | [g, n, e, c, v] => exact ⟨_, .classified g n e c v⟩
  | [] | [_] | [_, _] | _ :: _ :: _ :: _ :: _ :: _ :: _ => simp at h

/-- Between two and four colons divide an artifact's coordinate, and its first, second and last field
are not empty. -/
theorem exists_parse_iff : (∃ a, parse s = .ok a) ↔ s.toList.count ':' ∈ [2, 3, 4] ∧
    (splitOn ':' s)[0]? ≠ some "" ∧ (splitOn ':' s)[1]? ≠ some "" ∧
    (splitOn ':' s).getLast? ≠ some "" := by
  have hlength : (splitOn ':' s).length ∈ [3, 4, 5] ↔ s.toList.count ':' ∈ [2, 3, 4] := by
    simp [Text.length_splitOn]
  rw [← hlength]
  simp only [parse_eq_ok_iff]
  constructor
  · rintro ⟨a, hnames, hgroup, hname, hversion⟩
    obtain ⟨hcount, hfirst, hsecond, hlast⟩ := hnames.ends
    rw [hfirst, hsecond, hlast]
    exact ⟨hcount, by simpa using hgroup, by simpa using hname, by simpa using hversion⟩
  · rintro ⟨hcount, hgroup, hname, hversion⟩
    obtain ⟨a, hnames⟩ := exists_names hcount
    obtain ⟨-, hfirst, hsecond, hlast⟩ := hnames.ends
    rw [hfirst] at hgroup
    rw [hsecond] at hname
    rw [hlast] at hversion
    exact ⟨a, hnames, by simpa using hgroup, by simpa using hname, by simpa using hversion⟩

/-- The fields of the coordinate of an artifact; an empty classifier is none of them. -/
def fields (a : Artifact) : List String :=
  [a.group, a.name, a.extension] ++ (if a.classifier = "" then [] else [a.classifier]) ++ [a.version]

theorem display_eq (a : Artifact) : a.display = Text.join ":" a.fields := by
  by_cases h : a.classifier = ""
  · simp [display, fields, Text.join, h, String.append_assoc]
  · simp [display, fields, Text.join, h, String.append_assoc]

theorem mem_of_mem_fields {f : String} (h : f ∈ a.fields) :
    f ∈ [a.group, a.name, a.classifier, a.extension, a.version] := by
  simp only [fields, List.mem_append, List.mem_cons, List.not_mem_nil, or_false] at h ⊢
  rcases h with ((rfl | rfl | rfl) | h) | rfl
  · simp
  · simp
  · simp
  · split at h
    · cases h
    · simp [List.mem_singleton.1 h]
  · simp

theorem names_fields (a : Artifact) : Names a.fields a := by
  obtain ⟨g, n, c, e, v⟩ := a
  by_cases h : c = ""
  · subst h
    exact .extended g n e v
  · rw [fields, if_neg h]
    exact .classified g n e c v

theorem splitOn_display (h : a.Nameable) : splitOn ':' a.display = a.fields := by
  rw [display_eq]
  exact Text.splitOn_join (by simp [fields]) fun f hf => h.colonless f (mem_of_mem_fields hf)

theorem parse_display (h : a.Nameable) : parse a.display = .ok a := by
  rw [parse_eq_ok_iff, splitOn_display h]
  exact ⟨names_fields a, h.toComplete⟩

theorem nameable_of_parse (h : parse s = .ok a) : a.Nameable := by
  obtain ⟨hnames, hcomplete⟩ := parse_eq_ok_iff.1 h
  refine ⟨hcomplete, ?_⟩
  intro f hf
  rcases hnames.mem f hf with hmem | rfl | rfl
  · exact Text.sep_notMem_of_mem_splitOn hmem
  · decide
  · decide

/-- The fields of a coordinate in the form in which it is displayed: an extension that was left out is
`jar`, and an empty classifier is left out. -/
def inFull : List String → List String
  | [g, n, v] => [g, n, "jar", v]
  | [g, n, e, c, v] => if c = "" then [g, n, e, v] else [g, n, e, c, v]
  | fs => fs

theorem Names.fields_eq (h : Names fs a) : a.fields = inFull fs := by
  cases h with
  | plain => rfl
  | extended => rfl
  | classified g n e c v =>
    by_cases hc : c = ""
    · simp [fields, inFull, hc]
    · simp [fields, inFull, hc]

end Artifact

namespace Metadata

theorem parse_eq_ok_iff : parse s = .ok m ↔
    splitOn ':' s = [m.group, m.name, m.version, m.type] ∧ m.type ≠ "" := by
  rw [parse]
  generalize splitOn ':' s = fs
  constructor
  · intro h
    split at h
    · split at h
      next => cases h
      next ht =>
        cases h
        exact ⟨rfl, ht⟩
    · cases h
  · rintro ⟨rfl, ht⟩
    exact if_neg ht

theorem exists_parse_iff : (∃ m, parse s = .ok m) ↔
    s.toList.count ':' = 3 ∧ (splitOn ':' s).getLast? ≠ some "" := by
  have hlength : (splitOn ':' s).length = 4 ↔ s.toList.count ':' = 3 := by
    simp [Text.length_splitOn]
  rw [← hlength]
  simp only [parse_eq_ok_iff]
  constructor
  · rintro ⟨m, hfields, htype⟩
    simpa [hfields] using htype
  · rintro ⟨hcount, htype⟩
    obtain ⟨g, n, v, t, hfields⟩ := List.length_eq_four.1 hcount
    rw [hfields] at htype ⊢
    exact ⟨⟨g, n, v, t⟩, rfl, by simpa using htype⟩

theorem display_eq (m : Metadata) :
    m.display = Text.join ":" [m.group, m.name, m.version, m.type] := by
  simp [display, Text.join, String.append_assoc]

/-- A document's coordinate is displayed as it was read. -/
theorem display_of_parse (h : parse s = .ok m) : m.display = s := by
  rw [display_eq, ← (parse_eq_ok_iff.1 h).1]
  exact Text.join_splitOn ':' s

end Metadata

/-- A text is an artifact's coordinate just if between two and four colons divide it and its first,
second and last fields are not empty. The artifact that it names is read again from the coordinate
displayed for it, which has the fields of the text with an extension and without an empty classifier.
Every artifact whose fields can stand in a coordinate comes back from the one displayed for it. A text
is a document's coordinate just if three colons divide it and its last field is not empty, and it is
displayed as it was read. -/
theorem coordinates_come_back :
    (∀ s, (∃ a, Artifact.parse s = .ok a) ↔ s.toList.count ':' ∈ [2, 3, 4] ∧
      (splitOn ':' s)[0]? ≠ some "" ∧ (splitOn ':' s)[1]? ≠ some "" ∧
      (splitOn ':' s).getLast? ≠ some "") ∧
    (∀ s a, Artifact.parse s = .ok a → Artifact.parse a.display = .ok a ∧
      splitOn ':' a.display = Artifact.inFull (splitOn ':' s)) ∧
    (∀ a : Artifact, Artifact.parse a.display = .ok a ↔ a.Nameable) ∧
    (∀ s, (∃ m, Metadata.parse s = .ok m) ↔
      s.toList.count ':' = 3 ∧ (splitOn ':' s).getLast? ≠ some "") ∧
    ∀ s m, Metadata.parse s = .ok m → m.display = s := by
  refine ⟨fun s => Artifact.exists_parse_iff, ?_, ?_, fun s => Metadata.exists_parse_iff,
    fun s m => Metadata.display_of_parse⟩
  · intro s a h
    have hnameable := Artifact.nameable_of_parse h
    refine ⟨Artifact.parse_display hnameable, ?_⟩
    rw [Artifact.splitOn_display hnameable]
    exact (Artifact.parse_eq_ok_iff.1 h).1.fields_eq
  · intro a
    exact ⟨Artifact.nameable_of_parse, Artifact.parse_display⟩

/-- A coordinate with an empty classifier, one with a classifier and no extension, and a document that
belongs to nothing. -/
theorem coordinates_come_back_empty :
    Artifact.parse "g:a:e::1" = .ok ⟨"g", "a", "", "e", "1"⟩ ∧
      Artifact.parse "g:a:e:1" = .ok ⟨"g", "a", "", "e", "1"⟩ ∧
      Artifact.parse "g:a::c:1" = .ok ⟨"g", "a", "c", "", "1"⟩ ∧
      Metadata.parse ":::t" = .ok ⟨"", "", "", "t"⟩ ∧
      Metadata.display ⟨"", "", "", "t"⟩ = ":::t" := by
  have hempty : Artifact.parse "g:a:e::1" = .ok ⟨"g", "a", "", "e", "1"⟩ := rfl
  have hdocument : Metadata.parse ":::t" = .ok ⟨"", "", "", "t"⟩ := rfl
  obtain ⟨-, hagain, hback, -, hsame⟩ := coordinates_come_back
  exact ⟨hempty, (hagain _ _ hempty).1, (hback ⟨"g", "a", "c", "", "1"⟩).2 (by decide), hdocument,
    hsame _ _ hdocument⟩

end ArtifactCache
