import ArtifactCache.Proofs.Text
import ArtifactCache.Version

/-! What a base version keeps of a version, and where the build time begins and ends. -/
namespace ArtifactCache.Version

variable {cs rest stem s t : List Char} {c : Char} {n : Nat} {version v w : String}

/-- A build time: eight digits, a dot, six digits, a dash and a serial number. -/
structure BuildTime where
  date : List Char
  time : List Char
  serial : List Char
  length_date : date.length = 8
  length_time : time.length = 6
  serial_ne_nil : serial ≠ []
  digits : ∀ c ∈ date ++ (time ++ serial), c.isDigit = true

namespace BuildTime

def text (t : BuildTime) : List Char := t.date ++ '.' :: (t.time ++ '-' :: t.serial)

/-- A build time begins with a digit, whatever follows it. -/
theorem head_text (t : BuildTime) (s : List Char) :
    ∃ d, (t.text ++ s).head? = some d ∧ d.isDigit = true := by
  have hdate := t.length_date
  obtain ⟨d, ds, hcons⟩ : ∃ d ds, t.date = d :: ds := by
    apply List.exists_cons_of_ne_nil
    intro hnil
    rw [hnil] at hdate
    cases hdate
  refine ⟨d, by simp [text, hcons], t.digits d ?_⟩
  simp [hcons]

/-- Where no digit follows, a build time ends with the last of its digits. -/
theorem append_inj {t u : BuildTime} {rest rest' : List Char}
    (hrest : ∀ d, rest.head? = some d → d.isDigit = false)
    (hrest' : ∀ d, rest'.head? = some d → d.isDigit = false)
    (h : t.text ++ rest = u.text ++ rest') : t.text = u.text ∧ rest = rest' := by
  simp only [text, List.append_assoc, List.cons_append] at h
  obtain ⟨hdate, h⟩ := List.append_inj h (t.length_date.trans u.length_date.symm)
  obtain ⟨htime, h⟩ := List.append_inj (List.cons.inj h).2 (t.length_time.trans u.length_time.symm)
  obtain ⟨hserial, h⟩ := Text.append_inj_of_stop (fun c hc => t.digits c (by simp [hc]))
    (fun c hc => u.digits c (by simp [hc])) hrest hrest' (List.cons.inj h).2
  exact ⟨by rw [text, text, hdate, htime, hserial], h⟩

theorem text_inj {t u : BuildTime} (h : t.text = u.text) : t = u := by
  obtain ⟨date, time, serial, hdate, htime, _, _⟩ := t
  obtain ⟨date', time', serial', hdate', htime', _, _⟩ := u
  simp only [text] at h
  obtain ⟨rfl, hrest⟩ := List.append_inj h (hdate.trans hdate'.symm)
  obtain ⟨rfl, hserial⟩ := List.append_inj (List.cons.inj hrest).2 (htime.trans htime'.symm)
  obtain rfl := (List.cons.inj hserial).2
  rfl

end BuildTime

theorem dropDigits_eq (h : dropDigits n cs = some rest) : ∃ ds, cs = ds ++ rest ∧ ds.length = n ∧
    ∀ c ∈ ds, c.isDigit = true := by
  rw [dropDigits] at h
  split at h
  next hdigits =>
    cases h
    simp only [Bool.and_eq_true, decide_eq_true_eq, List.all_eq_true] at hdigits
    exact ⟨cs.take n, (List.take_append_drop n cs).symm, List.length_take_of_le hdigits.1, hdigits.2⟩
  next => cases h

theorem dropChar_eq (h : dropChar c cs = some rest) : cs = c :: rest := by
  cases cs with
  | nil => cases h
  | cons d ds =>
    rw [dropChar] at h
    split at h
    next hd => rw [hd, Option.some.inj h]
    next => cases h

/-- What is taken off the back of a version is a build time. -/
theorem dropBuildTime_eq (h : dropBuildTime cs = some rest) :
    ∃ t : BuildTime, cs.reverse = rest.reverse ++ t.text := by
  rw [dropBuildTime] at h
  obtain ⟨_, hguard, h⟩ := Option.bind_eq_some_iff.1 h
  obtain ⟨afterDash, hdash, h⟩ := Option.bind_eq_some_iff.1 h
  obtain ⟨afterTime, htime, h⟩ := Option.bind_eq_some_iff.1 h
  obtain ⟨afterDot, hdot, hdate⟩ := Option.bind_eq_some_iff.1 h
  obtain ⟨time, rfl, htimeLength, htimeDigits⟩ := dropDigits_eq htime
  obtain ⟨date, rfl, hdateLength, hdateDigits⟩ := dropDigits_eq hdate
  have hserial : cs.takeWhile Char.isDigit ≠ [] := by
    intro hnil
    simp [guard, hnil] at hguard
  have hserialDigits : ∀ c ∈ cs.takeWhile Char.isDigit, c.isDigit = true :=
    fun c hc => List.mem_takeWhile_imp hc
  have hcs : cs = cs.takeWhile Char.isDigit ++ cs.dropWhile Char.isDigit :=
    List.takeWhile_append_dropWhile.symm
  generalize cs.takeWhile Char.isDigit = serial at hserial hserialDigits hcs
  rw [dropChar_eq hdash, dropChar_eq hdot] at hcs
  refine ⟨⟨date.reverse, time.reverse, serial.reverse, by simpa using hdateLength,
    by simpa using htimeLength, by simpa using hserial, ?_⟩, by simp [hcs, BuildTime.text]⟩
  intro c hc
  simp only [List.mem_append, List.mem_reverse] at hc
  rcases hc with hc | hc | hc
  · exact hdateDigits c hc
  · exact htimeDigits c hc
  · exact hserialDigits c hc

theorem dropDigits_append (hlength : cs.length = n) (hdigits : ∀ c ∈ cs, c.isDigit = true)
    (rest : List Char) : dropDigits n (cs ++ rest) = some rest := by
  have htake : (cs ++ rest).take n = cs := by rw [← hlength, List.take_left]
  have hdrop : (cs ++ rest).drop n = rest := by rw [← hlength, List.drop_left]
  have hle : n ≤ (cs ++ rest).length := by rw [← hlength, List.length_append]; omega
  rw [dropDigits, htake, hdrop, if_pos]
  simp only [Bool.and_eq_true, decide_eq_true_eq, List.all_eq_true]
  exact ⟨hle, hdigits⟩

theorem dropChar_cons (c : Char) (cs : List Char) : dropChar c (c :: cs) = some cs := if_pos rfl

/-- A build time is taken off the back of a version, whatever stands before it. -/
theorem dropBuildTime_text (t : BuildTime) (rest : List Char) :
    dropBuildTime (t.text.reverse ++ rest) = some rest := by
  have hserial : ∀ c ∈ t.serial.reverse, c.isDigit = true := fun c hc =>
    t.digits c (by simp [List.mem_reverse.1 hc])
  have htime : ∀ c ∈ t.time.reverse, c.isDigit = true := fun c hc =>
    t.digits c (by simp [List.mem_reverse.1 hc])
  have hdate : ∀ c ∈ t.date.reverse, c.isDigit = true := fun c hc =>
    t.digits c (by simp [List.mem_reverse.1 hc])
  have hcs : t.text.reverse ++ rest = t.serial.reverse ++
      '-' :: (t.time.reverse ++ '.' :: (t.date.reverse ++ rest)) := by
    simp [BuildTime.text]
  have htake : (t.text.reverse ++ rest).takeWhile Char.isDigit = t.serial.reverse := by
    rw [hcs, List.takeWhile_append_of_pos hserial, List.takeWhile_cons_of_neg (by decide),
      List.append_nil]
  have hdrop : (t.text.reverse ++ rest).dropWhile Char.isDigit =
      '-' :: (t.time.reverse ++ '.' :: (t.date.reverse ++ rest)) := by
    rw [hcs, List.dropWhile_append_of_pos hserial, List.dropWhile_cons_of_neg (by decide)]
  have hne : t.serial.reverse ≠ [] := by simpa using t.serial_ne_nil
  simp only [dropBuildTime, htake, hdrop, guard, if_pos hne, Option.pure_def, Option.bind_eq_bind,
    Option.bind_some, dropChar_cons, dropDigits_append (by simpa using t.length_time) htime,
    dropDigits_append (by simpa using t.length_date) hdate]

/-- A version of a certain time: the time is all of it, or stands behind one line up to a dash. -/
structure Timed (version stem : String) (t : BuildTime) : Prop where
  text : version.toList = stem.toList ++ t.text
  stem : stem = "" ∨ stem.toList.getLast? = some '-' ∧ '\n' ∉ stem.toList

theorem stem?_of_timed {stem : String} {t : BuildTime} (h : Timed version stem t) :
    stem? version.toList = some stem.toList := by
  have hdrop : dropBuildTime version.toList.reverse = some stem.toList.reverse := by
    rw [h.text, List.reverse_append, dropBuildTime_text]
  rcases h.stem with rfl | ⟨hlast, hline⟩
  · rw [stem?, hdrop]
    rfl
  · obtain ⟨cs, hcs⟩ := List.head?_eq_some_iff.1 (List.head?_reverse ▸ hlast)
    have hcsLine : '\n' ∉ cs := fun hmem => hline (List.mem_reverse.1 (hcs ▸ .tail _ hmem))
    rw [stem?, hdrop, hcs]
    simp only [hcsLine, not_false_eq_true, and_self, if_true, ← hcs, List.reverse_reverse]

theorem exists_timed (h : stem? version.toList = some stem) :
    ∃ t, Timed version (String.ofList stem) t := by
  rw [stem?] at h
  split at h
  next hdrop =>
    cases h
    obtain ⟨t, ht⟩ := dropBuildTime_eq hdrop
    exact ⟨t, by simpa using ht, .inl rfl⟩
  next c rest hdrop =>
    split at h
    next hdash =>
      cases h
      obtain ⟨t, ht⟩ := dropBuildTime_eq hdrop
      obtain ⟨rfl, hline⟩ := hdash
      exact ⟨t, by simpa using ht, .inr ⟨by simp, by simpa using hline⟩⟩
    next => cases h
  next => cases h

/-- There is one way only to take a version apart into a build time and what stands before it. -/
theorem Timed.unique {stem stem' : String} {t t' : BuildTime} (h : Timed version stem t)
    (h' : Timed version stem' t') : stem' = stem ∧ t' = t := by
  have hstem : stem' = stem :=
    String.toList_inj.1 (Option.some.inj ((stem?_of_timed h').symm.trans (stem?_of_timed h)))
  refine ⟨hstem, BuildTime.text_inj ?_⟩
  exact List.append_cancel_left (h'.text.symm.trans (hstem ▸ h.text))

theorem base_of_timed {stem : String} {t : BuildTime} (h : Timed version stem t) :
    base version = stem ++ snapshotWord := by
  simp only [base, stem?_of_timed h, String.ofList_toList]

theorem base_of_not_timed (h : ∀ stem t, ¬ Timed version stem t) : base version = version := by
  cases hstem : stem? version.toList with
  | none => rw [base, hstem]
  | some stem =>
    obtain ⟨t, ht⟩ := exists_timed hstem
    exact absurd ht (h _ _)

theorem stem?_snapshotWord (stem : List Char) : stem? (stem ++ snapshotWord.toList) = none := by
  simp [stem?, snapshotWord, dropBuildTime, guard, failure]

/-- A version without a build time is its own base version. -/
theorem base_base (version : String) : base (base version) = base version := by
  cases hstem : stem? version.toList with
  | none => simp only [base, hstem]
  | some stem =>
    have hbase : base version = String.ofList (stem ++ snapshotWord.toList) := by
      simp only [base, hstem, String.ofList_append, String.ofList_toList]
    rw [hbase, base, String.toList_ofList, stem?_snapshotWord]

theorem base_cases (v : String) : base v = v ∨ ∃ (stem : List Char) (t : BuildTime),
    v.toList = stem ++ t.text ∧ (base v).toList = stem ++ snapshotWord.toList := by
  by_cases h : ∃ stem t, Timed v stem t
  · obtain ⟨stem, t, ht⟩ := h
    exact .inr ⟨stem.toList, t, ht.text, by rw [base_of_timed ht, String.toList_append]⟩
  · exact .inl (base_of_not_timed fun stem t ht => h ⟨stem, t, ht⟩)

/-- A base version has no characters but those of the version and of the snapshot word. -/
theorem mem_base (h : c ∈ (base version).toList) :
    c ∈ version.toList ∨ c ∈ snapshotWord.toList := by
  rcases base_cases version with hself | ⟨stem, t, hversion, hbase⟩
  · exact .inl (hself ▸ h)
  · rw [hbase, List.mem_append] at h
    exact h.imp_left fun hstem => hversion ▸ List.mem_append_left _ hstem

theorem base_ne_of_ne (h : version ≠ "..") : base version ≠ ".." := by
  rcases base_cases version with hself | ⟨stem, t, -, hbase⟩
  · rwa [hself]
  · intro heq
    have hmem : 'S' ∈ (base version).toList := by simp [hbase, snapshotWord]
    rw [heq] at hmem
    revert hmem
    decide

/-- A build time is not taken for the snapshot word. -/
theorem buildTime_append_ne (t : BuildTime) (rest rest' : List Char) :
    t.text ++ rest ≠ snapshotWord.toList ++ rest' := by
  intro h
  obtain ⟨d, hd, hdigit⟩ := t.head_text rest
  rw [h] at hd
  cases hd
  revert hdigit
  decide

/-- The versions that are their own base versions are those without a build time. -/
theorem base_eq_self_iff : base version = version ↔ ∀ stem t, ¬ Timed version stem t := by
  refine ⟨?_, base_of_not_timed⟩
  intro hself stem t h
  have htext : stem.toList ++ snapshotWord.toList = stem.toList ++ t.text := by
    rw [← String.toList_append, ← base_of_timed h, hself, h.text]
  refine buildTime_append_ne t [] [] ?_
  rw [List.append_nil, List.append_nil, List.append_cancel_left htext]

/-- Of two versions with one base version, what no digit begins can be told from what it follows. -/
theorem append_inj_of_base (hbase : base v = base w)
    (hs : ∀ d, s.head? = some d → d.isDigit = false) (ht : ∀ d, t.head? = some d → d.isDigit = false)
    (h : v.toList ++ s = w.toList ++ t) : v = w ∧ s = t := by
  rw [← String.toList_inj] at hbase ⊢
  rcases base_cases v with hv | ⟨stem, time, hv, hbv⟩ <;>
    rcases base_cases w with hw | ⟨stem', time', hw, hbw⟩
  · rw [hv, hw] at hbase
    exact ⟨hbase, List.append_cancel_left (hbase ▸ h)⟩
  · rw [hv, hbw] at hbase
    rw [hbase, hw, List.append_assoc, List.append_assoc, List.append_cancel_left_eq] at h
    exact (buildTime_append_ne time' t s h.symm).elim
  · rw [hw, hbv] at hbase
    rw [← hbase, hv, List.append_assoc, List.append_assoc, List.append_cancel_left_eq] at h
    exact (buildTime_append_ne time s t h).elim
  · have hstem : stem = stem' := List.append_cancel_right (hbv.symm.trans (hbase.trans hbw))
    rw [hv, hw, hstem, List.append_assoc, List.append_assoc, List.append_cancel_left_eq] at h
    obtain ⟨htime, hrest⟩ := BuildTime.append_inj hs ht h
    exact ⟨by rw [hv, hw, hstem, htime], hrest⟩

end ArtifactCache.Version
