import ArtifactCache.Proofs.Config
import ArtifactCache.Proofs.Selection
import ArtifactCache.Provider

/-! The manager of a repository. A setting that cannot be understood is reported; it does not lead to a
manager that keeps no record of origins. -/
namespace ArtifactCache

open Ranking (Rejected Decides priorityKey)

variable {c : Config} {r : LocalRepository} {context key : String} {f : Factory} {m : Manager}
  {s : Selected Manager}

namespace Ranking

variable {α : Type} {registry : Registry α} {ranking : Ranking α} {job name : String}

/-- A component that is not disabled is among the candidates that may be used. -/
theorem exists_enabled (h : ofRegistry registry c job = .ok ranking) {component : Component α}
    (hmem : component ∈ registry.components) (hname : component.name ∉ disabled c job) :
    ∃ x ∈ ranking.enabled, x.name = component.name ∧ x.value = component.value := by
  obtain ⟨x, hx, hok⟩ := (mem_candidates h).2 component hmem
  obtain ⟨hxname, hvalue, henabled⟩ := candidate_ok hok
  refine ⟨x, List.mem_filter.2 ⟨hx, ?_⟩, hxname, hvalue⟩
  simpa [henabled] using hname

/-- A candidate that may be used is a component that is not disabled. -/
theorem component_of_enabled (h : ofRegistry registry c job = .ok ranking) {x : Candidate α}
    (hx : x ∈ ranking.enabled) : x.name ∉ disabled c job ∧
      ∃ component ∈ registry.components, x.name = component.name ∧ x.value = component.value := by
  obtain ⟨hx, henabled⟩ := List.mem_filter.1 hx
  obtain ⟨component, hmem, hok⟩ := (mem_candidates h).1 x hx
  obtain ⟨hname, hvalue, heq⟩ := candidate_ok hok
  refine ⟨?_, component, hmem, hname, hvalue⟩
  rw [hname]
  simpa [heq] using henabled

end Ranking

namespace Division

variable {ranking : Ranking Choice}

/-- Whether the value under a key cannot be understood, of those that a division is selected by: the
priorities of the choices and, if the first choice that is enabled reads them, the flags about
branches. -/
inductive Malformed (c : Config) : String → Prop
  | priority {name : String} (hname : name ∈ choices.names)
    (h : c.NotNumber (priorityKey job name)) : Malformed c (priorityKey job name)
  | flag {name : String} {ranking : Ranking Choice} (hname : name ∈ Split.flags)
    (hranking : Ranking.ofRegistry choices c job = .ok ranking)
    (hfirst : ranking.enabled.head?.map (·.name) = some "default")
    (h : c.NotBoolean (Split.key name)) : Malformed c (Split.key name)

/-- The choice that reads the flags about branches is known by its name. -/
theorem value_of_enabled (h : Ranking.ofRegistry choices c job = .ok ranking)
    {x : Candidate Choice} (hx : x ∈ ranking.enabled) :
    x.value = .configured ↔ x.name = "default" := by
  obtain ⟨-, component, hmem, hname, hvalue⟩ := Ranking.component_of_enabled h hx
  rw [hname, hvalue]
  rcases List.mem_cons.1 hmem with rfl | hmem
  · exact iff_of_true rfl rfl
  · rw [List.mem_singleton.1 hmem]
    exact iff_of_false nofun (by decide)

/-- A choice fails only for a flag that cannot be understood. -/
theorem division_blames (choice : Choice) (c : Config) :
    Blames (choice.division c) fun key => choice = .configured ∧
      ∃ name ∈ Split.flags, key = Split.key name ∧ c.NotBoolean (Split.key name) := by
  cases choice with
  | configured => exact ((Split.ofConfig_blames c).bind fun _ _ => .pure _).congr (by simp)
  | alwaysFlat => exact (Blames.pure _).congr (by simp)

/-- No choice is passed over. -/
theorem rejected_eq_nil {cs : List (Candidate Choice)}
    (h : Rejected (fun choice : Choice => choice.division c) cs) : cs = [] := by
  cases cs with
  | nil => rfl
  | cons x cs =>
    obtain ⟨f, hf, hconfig⟩ := h x List.mem_cons_self
    rcases division_blames x.value c with ⟨division, hok, -⟩ | ⟨key, problem, herror, -⟩
    · cases hok.symm.trans hf
    · cases herror.symm.trans hf
      cases hconfig

/-- A division is selected unless a setting cannot be understood or all choices are disabled. -/
theorem select_blames (c : Config) (context : String) : Blames (select c context) (Malformed c) ∨
    (∀ key, ¬ Malformed c key) ∧ (∀ name ∈ choices.names, name ∈ Ranking.disabled c job) ∧
      ∃ f, select c context = .error f ∧ f.isConfig = false := by
  rcases Ranking.ofRegistry_blames choices c job with
    ⟨ranking, hranking, hgood⟩ | ⟨key, problem, herror, x, hx, rfl, hbad⟩
  · have hselect : select c context =
        ranking.select context fun choice => choice.division c := by
      rw [select, hranking]
      rfl
    have hpriority : ∀ name ∈ choices.names, ¬ c.NotNumber (priorityKey job name) := by
      intro name hname hbad
      obtain ⟨x, hx, rfl⟩ := List.mem_map.1 hname
      exact hgood _ ⟨x, hx, rfl, hbad⟩
    rw [hselect]
    rcases Ranking.select_cases ranking context fun choice => choice.division c with
      ⟨before, x, after, henabled, hbefore, -, hmade⟩ | ⟨hrejected, f, hf, hconfig⟩
    · left
      rw [rejected_eq_nil hbefore, List.nil_append] at henabled
      have hx : x ∈ ranking.enabled := henabled ▸ List.mem_cons_self
      rcases division_blames x.value c with
        ⟨division, hok, hgood'⟩ | ⟨key, problem, herror, hvalue, name, hname, rfl, hbad⟩
      · refine .inl ⟨_, by rw [hmade, hok]; rfl, ?_⟩
        rintro key (⟨hname, hbad⟩ | @⟨name, _, hname, hranking', hfirst, hbad⟩)
        · exact hpriority _ hname hbad
        · cases hranking.symm.trans hranking'
          rw [henabled] at hfirst
          exact hgood' _ ⟨(value_of_enabled hranking hx).2 (by simpa using hfirst), name, hname, rfl,
            hbad⟩
      · refine .inr ⟨_, problem, by rw [hmade, herror]; rfl, .flag hname hranking ?_ hbad⟩
        rw [henabled, List.head?_cons, Option.map_some,
          (value_of_enabled hranking hx).1 hvalue]
    · right
      have hnone := rejected_eq_nil hrejected
      refine ⟨?_, ?_, f, hf, hconfig⟩
      · rintro key (⟨hname, hbad⟩ | ⟨-, hranking', hfirst, -⟩)
        · exact hpriority _ hname hbad
        · cases hranking.symm.trans hranking'
          rw [hnone] at hfirst
          cases hfirst
      · intro name hname
        by_contra hnot
        obtain ⟨component, hmem, rfl⟩ := List.mem_map.1 hname
        obtain ⟨x, hx, -⟩ := Ranking.exists_enabled hranking hmem hnot
        rw [hnone] at hx
        cases hx
  · left
    refine .inr ⟨_, problem, by rw [select, herror]; rfl, .priority ?_ hbad⟩
    exact List.mem_map_of_mem hx

end Division

namespace Factory

/-- Whether the value under a key cannot be understood, of those that an enhanced manager is made
from. -/
def Malformed (c : Config) (key : String) : Prop :=
  key = trackingNameKey ∧ c.NotFileName ∨ Division.Malformed c key

theorem serves_of_make (h : f.make c r = .ok m) : r.contentType ∈ f.types := by
  by_contra hnot
  rw [make.eq_def, if_pos (by simpa using hnot)] at h
  cases h

/-- A manager that keeps records calls them what the configuration says. -/
theorem trackingName_of_make {division : Division} {trackingName : String} (h : f.make c r = .ok m)
    (hmode : m.mode = .enhanced division trackingName) : c.trackingName = .ok trackingName := by
  have hserves := serves_of_make h
  cases f with
  | simple =>
    rw [make, if_neg (by simpa using hserves)] at h
    cases h
    cases hmode
  | enhanced =>
    rw [make, if_neg (by simpa using hserves)] at h
    obtain ⟨name, hname, h⟩ := Result.bind_eq_ok.1 h
    obtain ⟨_, -, h⟩ := Result.bind_eq_ok.1 h
    cases h
    cases hmode
    exact hname

theorem make_of_not_serves (h : r.contentType ∉ f.types) (c : Config) :
    ∃ fault, f.make c r = .error fault ∧ fault.isConfig = false := by
  rw [make.eq_def, if_pos (by simpa using h)]
  exact ⟨_, rfl, rfl⟩

/-- An enhanced manager is made of a repository it is there for, unless a setting cannot be understood
or all choices of a division are disabled. -/
theorem enhanced_make_blames (h : r.contentType ∈ enhanced.types) (c : Config) :
    Blames (enhanced.make c r) (Malformed c) ∨ (∀ key, ¬ Malformed c key) ∧
      (∀ name ∈ Division.choices.names, name ∈ Ranking.disabled c Division.job) ∧
      ∃ fault, enhanced.make c r = .error fault ∧ fault.isConfig = false := by
  have hmake : enhanced.make c r = (do
      let trackingName ← c.trackingName
      let division ← Division.select c (Division.context r)
      return ⟨r, .enhanced division.value trackingName⟩) := by
    rw [make, if_neg (by simpa using h)]
  rw [hmake]
  rcases Division.select_blames c (Division.context r) with
    hblames | ⟨hgood, hdisabled, fault, hfault, hconfig⟩
  · left
    refine (c.trackingName_blames.bind fun _ _ => hblames.bind fun _ _ => .pure _).congr ?_
    intro key
    simp [Malformed]
  · rcases c.trackingName_blames with
      ⟨trackingName, hok, hplain⟩ | ⟨key, problem, herror, rfl, hbad⟩
    · right
      refine ⟨fun key => not_or.2 ⟨hplain key, hgood key⟩, hdisabled, fault, ?_, hconfig⟩
      rw [hok, hfault]
      rfl
    · exact .inl (.inr ⟨_, problem, by rw [herror]; rfl, .inl ⟨rfl, hbad⟩⟩)

end Factory

namespace Provider

variable {ranking : Ranking Factory}

/-- Whether the search for a manager comes to the enhanced ones: no factory that is tried before them
serves the repository. -/
def Reaches (ranking : Ranking Factory) (r : LocalRepository) : Prop :=
  ∃ before x after, ranking.enabled = before ++ x :: after ∧ x.value = .enhanced ∧
    ∀ y ∈ before, r.contentType ∉ y.value.types

theorem name_of_enabled (h : Ranking.ofRegistry factories c job = .ok ranking)
    {x : Candidate Factory} (hx : x ∈ ranking.enabled) : x.name = x.value.name := by
  obtain ⟨-, component, hmem, hname, hvalue⟩ := Ranking.component_of_enabled h hx
  rw [hname, hvalue]
  rcases List.mem_cons.1 hmem with rfl | hmem
  · rfl
  · rw [List.mem_singleton.1 hmem]
    rfl

theorem enhanced_enabled (h : Ranking.ofRegistry factories c job = .ok ranking)
    (hname : Factory.enhanced.name ∉ Ranking.disabled c job) :
    ∃ x ∈ ranking.enabled, x.value = .enhanced := by
  obtain ⟨x, hx, -, hvalue⟩ := Ranking.exists_enabled h List.mem_cons_self hname
  exact ⟨x, hx, hvalue⟩

theorem select_eq (h : Ranking.ofRegistry factories c job = .ok ranking) (r : LocalRepository) :
    select c r = ranking.select (Division.context r) fun f => f.make c r := by
  rw [select, h]
  rfl

/-- The factory that was selected, after others that could not make a manager. -/
theorem select_ok (h : select c r = .ok s) :
    ∃ ranking before x after, Ranking.ofRegistry factories c job = .ok ranking ∧
      ranking.enabled = before ++ x :: after ∧
      Rejected (fun f : Factory => f.make c r) before ∧ x.value.make c r = .ok s.value ∧
      s.name = x.name := by
  obtain ⟨ranking, hranking, -⟩ := Result.bind_eq_ok.1 h
  rw [select_eq hranking] at h
  rcases Ranking.select_cases ranking (Division.context r) fun f => f.make c r with
    ⟨before, x, after, henabled, hbefore, -, hmade⟩ | ⟨-, fault, hfault, -⟩
  · rw [hmade] at h
    obtain ⟨manager, hmanager, rfl⟩ := Result.map_eq_ok.1 h
    exact ⟨ranking, before, x, after, hranking, henabled, hbefore, hmanager, rfl⟩
  · cases hfault.symm.trans h

theorem trackingName_of_select {division : Division} {trackingName : String}
    (h : select c r = .ok s) (hmode : s.value.mode = .enhanced division trackingName) :
    c.trackingName = .ok trackingName := by
  obtain ⟨_, _, x, _, -, -, -, hmade, -⟩ := select_ok h
  exact Factory.trackingName_of_make hmade hmode

/-- A manager comes from a factory that is enabled and serves the repository. One that keeps no record
of origins is made of a repository that an enhanced one could serve only where it ranks before it, or
the enhanced one or all ways to divide a repository are disabled, and not because a setting cannot be
understood. Where the search comes to the enhanced one, such a setting is reported. -/
theorem select_not_masked (c : Config) (r : LocalRepository) :
    (∀ s, select c r = .ok s → ∃ f : Factory, s.name = f.name ∧
      f.name ∉ Ranking.disabled c job ∧ r.contentType ∈ f.types ∧ f.make c r = .ok s.value) ∧
    (∀ s, select c r = .ok s → s.name = Factory.simple.name →
      r.contentType ∈ Factory.enhanced.types →
      ∃ ranking, Ranking.ofRegistry factories c job = .ok ranking ∧
        ([Factory.simple.name, Factory.enhanced.name].Sublist (ranking.candidates.map (·.name)) ∨
          Factory.enhanced.name ∈ Ranking.disabled c job ∨
          (∀ name ∈ Division.choices.names, name ∈ Ranking.disabled c Division.job) ∧
            ∀ key, ¬ Factory.Malformed c key)) ∧
    ∀ ranking, Ranking.ofRegistry factories c job = .ok ranking → Reaches ranking r →
      r.contentType ∈ Factory.enhanced.types → (∃ key, Factory.Malformed c key) →
      ∃ key problem, Factory.Malformed c key ∧ select c r = .error (.config key problem) := by
  refine ⟨?_, ?_, ?_⟩
  · intro s hs
    obtain ⟨ranking, before, x, after, hranking, henabled, -, hmade, hname⟩ := select_ok hs
    have hx : x ∈ ranking.enabled := by simp [henabled]
    have hxname := name_of_enabled hranking hx
    obtain ⟨hdisabled, -⟩ := Ranking.component_of_enabled hranking hx
    exact ⟨x.value, hname.trans hxname, hxname ▸ hdisabled, Factory.serves_of_make hmade, hmade⟩
  · intro s hs hsimple hserves
    obtain ⟨ranking, before, x, after, hranking, henabled, hbefore, -, hname⟩ := select_ok hs
    refine ⟨ranking, hranking, or_iff_not_imp_right.2 fun hnot => ?_⟩
    rw [not_or] at hnot
    obtain ⟨y, hy, hvalue⟩ := enhanced_enabled hranking hnot.1
    have hyname := name_of_enabled hranking hy
    rw [hvalue] at hyname
    rw [henabled, List.mem_append, List.mem_cons] at hy
    rcases hy with hy | rfl | hy
    · -- The enhanced factory was passed over, and that is never for a fault of the configuration.
      obtain ⟨fault, hfault, hconfig⟩ := hbefore y hy
      simp only [hvalue] at hfault
      rcases Factory.enhanced_make_blames hserves c with
        (⟨manager, hok, -⟩ | ⟨key, problem, herror, -⟩) | ⟨hgood, hdisabled, -⟩
      · cases hok.symm.trans hfault
      · cases herror.symm.trans hfault
        cases hconfig
      · exact absurd ⟨hdisabled, hgood⟩ hnot.2
    · exact absurd (hsimple.symm.trans (hname.trans hyname)) (by decide)
    · have hpair : [x, y].Sublist ranking.enabled := by
        rw [henabled]
        exact ((List.singleton_sublist.2 hy).cons_cons x).trans (List.sublist_append_right _ _)
      have hnames := (hpair.trans List.filter_sublist).map (·.name)
      rwa [List.map_cons, List.map_singleton, ← hname, hsimple, hyname] at hnames
  · rintro ranking hranking ⟨before, x, after, henabled, hvalue, hbefore⟩ hserves ⟨key, hkey⟩
    have hrejected : Rejected (fun f : Factory => f.make c r) before :=
      fun y hy => Factory.make_of_not_serves (hbefore y hy) c
    rcases Factory.enhanced_make_blames hserves c with
      (⟨-, -, hgood⟩ | ⟨key, problem, herror, hbad⟩) | ⟨hgood, -⟩
    · exact absurd hkey (hgood key)
    · have hdecides : Decides (fun f : Factory => f.make c r) x := by
        intro fault hfault
        simp only [hvalue, herror] at hfault
        cases hfault
        rfl
      refine ⟨key, problem, hbad, ?_⟩
      rw [select_eq hranking, Ranking.select_of_decides henabled hrejected hdecides, hvalue, herror]
      rfl
    · exact absurd hkey (hgood key)

/-- A flag about branches that is neither true nor false is reported, although the repository could
have a manager that reads no flags. -/
theorem select_not_masked_flag :
    let c := ((Config.empty.set (Split.key "split") "maybe").set (Ranking.key job "order")
      "enhanced,simple").set (Ranking.key Division.job "order") "default,noop"
    let r : LocalRepository := ⟨"/r", ""⟩
    Factory.Malformed c (Split.key "split") ∧ (∃ m, Factory.simple.make c r = .ok m) ∧
      ∃ key problem, Factory.Malformed c key ∧ select c r = .error (.config key problem) := by
  intro c r
  have hflag : Factory.Malformed c (Split.key "split") :=
    .inr (.flag (by decide) rfl rfl ⟨"maybe", by decide, by decide, by decide⟩)
  have hreaches : ∃ ranking, Ranking.ofRegistry factories c job = .ok ranking ∧
      Reaches ranking r := ⟨_, rfl, [], _, _, rfl, rfl, nofun⟩
  obtain ⟨ranking, hranking, hreaches⟩ := hreaches
  obtain ⟨-, -, hreport⟩ := select_not_masked c r
  exact ⟨hflag, ⟨_, rfl⟩, hreport ranking hranking hreaches (by decide) ⟨_, hflag⟩⟩

end Provider
end ArtifactCache
