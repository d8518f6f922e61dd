import ArtifactCache.Proofs.Tracking.Prepared

/-! Updates in any order. Change sets without a key in common can be applied to a tracking file one
after the other in any order, and again: the disk is the same in the end, to the last character. -/
namespace ArtifactCache.Tracking

variable {d d' : Disk} {path : String} {place : Place} {r : Record} {answer : Option Record}
  {c : Changes} {cs run : List Changes} {key : String} {value : Option String}

/-- Applies change sets to a tracking file one after the other, as long as that succeeds. -/
def updateAll (d : Disk) (path : String) : List Changes → Except Fault Disk
  | [] => .ok d
  | c :: cs =>
    match update d path c with
    | (_, .error f) => .error f
    | (d, .ok _) => updateAll d path cs

/-- Applies change sets to a record one after the other. -/
def Record.applyAll (r : Record) (cs : List Changes) : Record := cs.foldl Record.apply r

theorem applyAll_cons (r : Record) (c : Changes) (cs : List Changes) :
    r.applyAll (c :: cs) = (r.apply c).applyAll cs := List.foldl_cons ..

/-- A key that no change set has is kept as it is. -/
theorem get?_applyAll_of_none (h : ∀ c ∈ cs, c.get? key = none) (r : Record) :
    (r.applyAll cs).get? key = r.get? key := by
  induction cs generalizing r with
  | nil => rfl
  | cons c cs ih =>
    rw [applyAll_cons, ih fun c' hc' => h c' (List.mem_cons_of_mem _ hc'), get?_apply,
      h c List.mem_cons_self]
    rfl

/-- What change sets that agree about a key make of it. -/
theorem get?_applyAll (h : ∀ c ∈ cs, ∀ v, c.get? key = some v → v = value)
    (hex : ∃ c ∈ cs, (c.get? key).isSome) (r : Record) : (r.applyAll cs).get? key = value := by
  induction cs generalizing r with
  | nil =>
    obtain ⟨c, hc, -⟩ := hex
    cases hc
  | cons c cs ih =>
    rw [applyAll_cons]
    by_cases hlater : ∃ c' ∈ cs, (c'.get? key).isSome
    · exact ih (fun c' hc' => h c' (List.mem_cons_of_mem _ hc')) hlater _
    -- None of the later ones has the key, so the first one decides.
    have hnone : ∀ c' ∈ cs, c'.get? key = none := by
      intro c' hc'
      by_contra hsome
      exact hlater ⟨c', hc', Option.isSome_iff_ne_none.2 hsome⟩
    have hfirst : (c.get? key).isSome := by
      obtain ⟨c', hc', hsome⟩ := hex
      rcases List.mem_cons.1 hc' with rfl | hc'
      · exact hsome
      · exact absurd ⟨c', hc', hsome⟩ hlater
    obtain ⟨v, hv⟩ := Option.isSome_iff_exists.1 hfirst
    rw [get?_applyAll_of_none hnone, get?_apply, hv, h c List.mem_cons_self v hv]
    rfl

/-- Change sets without a key in common agree about every key. -/
theorem agree_of_disjoint (h : cs.Pairwise fun c c' => c.keys.Disjoint c'.keys) (hc : c ∈ cs)
    (hkey : c.get? key = some value) : ∀ c' ∈ cs, ∀ v, c'.get? key = some v → v = value := by
  intro c' hc' v hkey'
  have hor : cs.Pairwise fun c c' => c = c' ∨ c.keys.Disjoint c'.keys := h.imp Or.inr
  have hsymm : Std.Symm fun c c' : Changes => c = c' ∨ c.keys.Disjoint c'.keys :=
    ⟨fun _ _ h => h.imp Eq.symm List.Disjoint.symm⟩
  rcases hor.forall_of_forall (fun _ _ => .inl rfl) hc hc' with heq | hdisjoint
  · rw [← heq, hkey] at hkey'
    exact (Option.some.inj hkey').symm
  · have hmem := (KeyMap.get?_isSome_iff_mem_keys c).1 (Option.isSome_of_eq_some hkey)
    have hmem' := (KeyMap.get?_isSome_iff_mem_keys c').1 (Option.isSome_of_eq_some hkey')
    exact absurd hmem' (hdisjoint hmem)

/-- The order of change sets without a key in common does not matter, nor how often each is
applied. -/
theorem applyAll_eq (h : cs.Pairwise fun c c' => c.keys.Disjoint c'.keys)
    (hrun : ∀ c, c ∈ run ↔ c ∈ cs) (r : Record) : r.applyAll run = r.applyAll cs := by
  apply KeyMap.ext_get?
  intro key
  by_cases hkey : ∃ c ∈ cs, (c.get? key).isSome
  · obtain ⟨c, hc, hsome⟩ := hkey
    obtain ⟨value, hvalue⟩ := Option.isSome_iff_exists.1 hsome
    have hagree := agree_of_disjoint h hc hvalue
    have hagree' : ∀ c' ∈ run, ∀ v, c'.get? key = some v → v = value :=
      fun c' hc' => hagree c' ((hrun c').1 hc')
    rw [get?_applyAll hagree ⟨c, hc, hsome⟩, get?_applyAll hagree' ⟨c, (hrun c).2 hc, hsome⟩]
  · have hnone : ∀ c ∈ cs, c.get? key = none := by
      intro c hc
      by_contra hsome
      exact hkey ⟨c, hc, Option.isSome_iff_ne_none.2 hsome⟩
    rw [get?_applyAll_of_none hnone,
      get?_applyAll_of_none fun c hc => hnone c ((hrun c).1 hc)]

/-- The values that a change set gives to keys come back as they are written. -/
def Changes.Storable (c : Changes) : Prop :=
  ∀ key value, c.get? key = some (some value) → Tracking.Storable key value

theorem storable_applyAll (hr : ∀ e ∈ r.entries, Storable e.1 e.2) (hcs : ∀ c ∈ cs, c.Storable) :
    ∀ e ∈ (r.applyAll cs).entries, Storable e.1 e.2 := by
  induction cs generalizing r with
  | nil => exact hr
  | cons c cs ih =>
    rw [applyAll_cons]
    exact ih (forall_apply hr (hcs c List.mem_cons_self))
      fun c' hc' => hcs c' (List.mem_cons_of_mem _ hc')

/-- After an update of a record that comes back as it was written, the next one starts from that
record. -/
theorem Prepared.updateAll_keep (h : Prepared d path place)
    (hr : ∀ e ∈ r.entries, Storable e.1 e.2) (hcs : ∀ c ∈ cs, c.Storable) :
    updateAll (keep d place r) path cs = .ok (keep d place (r.applyAll cs)) := by
  induction cs generalizing r with
  | nil => rfl
  | cons c cs ih =>
    have hupdate := (h.kept r).update_eq ((h.existing_keep r).trans (load_render hr path)) c
    rw [keep_keep] at hupdate
    rw [updateAll, hupdate, applyAll_cons]
    exact ih (forall_apply hr (hcs c List.mem_cons_self))
      fun c' hc' => hcs c' (List.mem_cons_of_mem _ hc')

/-- Change sets without a key in common leave the same disk behind in whatever order they are
applied, and however often each of them is. The record that was read before, once the directories
above the tracking file are there, is read with all the changes then. -/
theorem updateAll_any_order (hd : d.IsTree) (hwrite : ¬ d.Unwritable path)
    (hread : read (d.makeParents path).1 path = .ok answer)
    (hold : ∀ e ∈ (answer.getD .empty).entries, Storable e.1 e.2) (hne : cs ≠ [])
    (hdisjoint : cs.Pairwise fun c c' => c.keys.Disjoint c'.keys) (hcs : ∀ c ∈ cs, c.Storable) :
    (read d path = .ok answer ∨ read d path = .ok none ∧ ".." ∈ Path.names path) ∧
    ∃ d' m, (∀ run, (∀ c, c ∈ run ↔ c ∈ cs) → updateAll d path run = .ok d') ∧
      d'.readText path = .ok (String.ofList (render m)) ∧ read d' path = .ok (some m) ∧
      ∀ key, (∀ c ∈ cs, ∀ v, c.get? key = some v → m.get? key = v) ∧
        ((∀ c ∈ cs, c.get? key = none) → m.get? key = (answer.getD .empty).get? key) := by
  obtain ⟨hok, place, hp⟩ := prepared_of_not_unwritable hd hwrite
  have hexisting := hp.existing_of_read hread
  refine ⟨read_makeParents hd hok hp.leads hp.ends.1 hread, ?_⟩
  generalize hbase : (d.makeParents path).1 = base at hp hexisting
  generalize answer.getD .empty = old at hold hexisting ⊢
  have hall := storable_applyAll hold hcs
  refine ⟨keep base place (old.applyAll cs), old.applyAll cs, ?_, ?_, ?_, ?_⟩
  · intro run hrun
    rw [← applyAll_eq hdisjoint hrun old]
    cases run with
    | nil =>
      obtain ⟨c, hc⟩ := List.exists_mem_of_ne_nil cs hne
      cases (hrun c).2 hc
    | cons c run =>
      have hstorable : ∀ c' ∈ c :: run, c'.Storable := fun c' hc' => hcs c' ((hrun c').1 hc')
      have hfirst : update d path c = (keep base place (old.apply c), .ok (old.apply c)) := by
        rw [update_makeParents hok (hbase ▸ hp), hbase]
        exact hp.update_eq hexisting c
      rw [updateAll, hfirst, applyAll_cons]
      exact hp.updateAll_keep (forall_apply hold (hstorable c List.mem_cons_self))
        fun c' hc' => hstorable c' (List.mem_cons_of_mem _ hc')
  · exact readText_of_locate (hp.keep_leads _) (hp.at?_keep _)
  · exact hp.read_keep_storable hall
  · intro key
    refine ⟨?_, ?_⟩
    · intro c hc v hv
      have hsome : (c.get? key).isSome := Option.isSome_of_eq_some hv
      exact get?_applyAll (agree_of_disjoint hdisjoint hc hv) ⟨c, hc, hsome⟩ old
    · intro hnone
      exact get?_applyAll_of_none hnone old

theorem updateAll_any_order_pair :
    let d : Disk := ⟨[(["t"], .file (.text "a>=\n"))], []⟩
    let cs : List Changes := [.ofList [("a>", none), ("a>x", some "")], .ofList [("b>y", some "")]]
    d.IsTree ∧ ∃ d' m, updateAll d "/t" cs = .ok d' ∧ updateAll d "/t" (cs.reverse ++ cs) = .ok d' ∧
      read d' "/t" = .ok (some m) ∧ m.get? "a>" = none ∧ m.get? "b>y" = some "" := by
  intro d cs
  have hd : d.IsTree := isTree_singleton "t" (.text "a>=\n")
  have hparents : d.makeParents "/t" = (d, .ok ()) := by cbv
  have hwrite : ¬ d.Unwritable "/t" := by
    have hwritable : d.writable "/t" = .ok ["t"] := by cbv
    rintro (⟨e, he⟩ | ⟨e, he⟩)
    · rw [hparents] at he
      cases he
    · rw [hparents, hwritable] at he
      cases he
  have hread : read (d.makeParents "/t").1 "/t" = .ok (some (.ofList [("a>", "")])) := by
    rw [hparents]
    cbv
  have hstorable : ∀ c ∈ cs, c.Storable := by
    intro c hc key value hkey
    have hentry := (KeyMap.mem_entries_iff c).2 hkey
    have hall : ∀ c ∈ cs, ∀ e ∈ c.entries, ∀ v, e.2 = some v → Storable e.1 v := by decide
    exact hall c hc _ hentry value rfl
  have hdisjoint : cs.Pairwise fun c c' => c.keys.Disjoint c'.keys := by
    have hkeys : ∀ key ∈ (KeyMap.ofList [("a>", none), ("a>x", some "")] : Changes).keys,
        key ∉ (KeyMap.ofList [("b>y", some "")] : Changes).keys := by decide
    exact List.pairwise_pair.2 fun {key} hkey hkey' => hkeys key hkey hkey'
  obtain ⟨-, d', m, hrun, -, hread', hget⟩ := updateAll_any_order hd hwrite hread (by decide)
    (by decide) hdisjoint hstorable
  refine ⟨hd, d', m, hrun cs fun _ => Iff.rfl, hrun _ (by simp [cs, or_comm]), hread', ?_, ?_⟩
  · exact (hget "a>").1 _ List.mem_cons_self none (by decide)
  · exact (hget "b>y").1 _ (List.mem_cons_of_mem _ List.mem_cons_self) (some "") (by decide)

end ArtifactCache.Tracking
