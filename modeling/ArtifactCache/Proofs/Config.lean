import ArtifactCache.Proofs.Result
import ArtifactCache.Ranking
import ArtifactCache.Split

/-! Settings that cannot be understood. What is made from a configuration fails just when a setting
that is read for it cannot be understood, and names such a setting. -/
namespace ArtifactCache

variable {α β : Type} {x : Except Fault α} {f : α → Except Fault β} {bad bad' : String → Prop}
  {c : Config} {job : String}

/-- Whether a result fails just when there is a bad key, and then names one. -/
def Blames (x : Except Fault α) (bad : String → Prop) : Prop :=
  (∃ a, x = .ok a ∧ ∀ key, ¬ bad key) ∨
    ∃ key problem, x = .error (.config key problem) ∧ bad key

namespace Blames

theorem congr (h : Blames x bad) (hbad : ∀ key, bad key ↔ bad' key) : Blames x bad' := by
  simpa only [Blames, hbad] using h

theorem pure (a : α) : Blames (Pure.pure a) fun _ => False :=
  .inl ⟨a, rfl, fun _ => not_false⟩

/-- What is read after something else is not reached if that fails. -/
theorem bind (h : Blames x bad) (hf : ∀ a, x = .ok a → Blames (f a) bad') :
    Blames (x >>= f) fun key => bad key ∨ bad' key := by
  rcases h with ⟨a, rfl, hgood⟩ | ⟨key, problem, rfl, hbad⟩
  · rcases hf a rfl with ⟨b, hb, hgood'⟩ | ⟨key, problem, hb, hbad⟩
    · exact .inl ⟨b, hb, fun key => not_or.2 ⟨hgood key, hgood' key⟩⟩
    · exact .inr ⟨key, problem, hb, .inr hbad⟩
  · exact .inr ⟨key, problem, rfl, .inl hbad⟩

theorem mapM {f : α → Except Fault β} {bad : α → String → Prop} (h : ∀ a, Blames (f a) (bad a))
    (as : List α) : Blames (as.mapM f) fun key => ∃ a ∈ as, bad a key := by
  induction as with
  | nil => exact (pure []).congr (by simp)
  | cons a as ih =>
    rw [List.mapM_cons]
    refine ((h a).bind fun _ _ => ih.bind fun _ _ => pure _).congr ?_
    intro key
    simp

end Blames

namespace Config

/-- Whether the value of a setting is neither true nor false. -/
def NotBoolean (c : Config) (key : String) : Prop :=
  ∃ value, c.text? key = some value ∧ Text.lowerAscii value ≠ "true" ∧ Text.lowerAscii value ≠ "false"

/-- Whether the value of a setting is no number. -/
def NotNumber (c : Config) (key : String) : Prop :=
  ∃ value, c.text? key = some value ∧
    Numeral.Binary.read? Numeral.single (Text.trim value) = none

/-- Whether a configuration gives tracking files a name that files in a directory cannot have. -/
def NotFileName (c : Config) : Prop :=
  isPlainName (Text.trim (c.textOr trackingNameKey defaultTrackingName)) = false

theorem boolean_blames (c : Config) (key : String) (default : Bool) :
    Blames (c.boolean key default) fun k => k = key ∧ c.NotBoolean key := by
  rw [boolean]
  split
  · rename_i hnone
    refine .inl ⟨default, rfl, ?_⟩
    rintro _ ⟨-, value, hvalue, -⟩
    cases hnone.symm.trans hvalue
  · rename_i value hvalue
    split
    · rename_i htrue
      refine .inl ⟨true, rfl, ?_⟩
      rintro _ ⟨-, value', hvalue', hne, -⟩
      cases hvalue.symm.trans hvalue'
      exact hne htrue
    · rename_i htrue
      split
      · rename_i hfalse
        refine .inl ⟨false, rfl, ?_⟩
        rintro _ ⟨-, value', hvalue', -, hne⟩
        cases hvalue.symm.trans hvalue'
        exact hne hfalse
      · rename_i hfalse
        exact .inr ⟨key, _, rfl, rfl, value, hvalue, htrue, hfalse⟩

theorem number?_blames (c : Config) (key : String) :
    Blames (c.number? key) fun k => k = key ∧ c.NotNumber key := by
  rw [number?]
  split
  · rename_i hnone
    refine .inl ⟨none, rfl, ?_⟩
    rintro _ ⟨-, value, hvalue, -⟩
    cases hnone.symm.trans hvalue
  · rename_i value hvalue
    cases hread : Numeral.Binary.read? Numeral.single (Text.trim value) with
    | some x =>
      refine .inl ⟨some x, rfl, ?_⟩
      rintro _ ⟨-, value', hvalue', hnone⟩
      cases hvalue.symm.trans hvalue'
      cases hread.symm.trans hnone
    | none => exact .inr ⟨key, _, rfl, rfl, value, hvalue, hread⟩

theorem trackingName_blames (c : Config) :
    Blames c.trackingName fun k => k = trackingNameKey ∧ c.NotFileName := by
  rw [trackingName]
  by_cases hplain : isPlainName (Text.trim (c.textOr trackingNameKey defaultTrackingName)) = true
  · refine .inl ⟨_, if_pos hplain, ?_⟩
    rintro _ ⟨-, hnot⟩
    rw [NotFileName, hplain] at hnot
    cases hnot
  · exact .inr ⟨_, _, if_neg hplain, rfl, Bool.eq_false_iff.2 hplain⟩

end Config

/-- The names of the settings about branches that are true or false. -/
def Split.flags : List String :=
  ["split", "splitLocal", "splitRemote", "splitRemoteRepository", "splitRemoteRepositoryLast"]

theorem Split.ofConfig_blames (c : Config) : Blames (Split.ofConfig c) fun key =>
    ∃ name ∈ Split.flags, key = Split.key name ∧ c.NotBoolean (Split.key name) := by
  refine ((c.boolean_blames _ _).bind fun _ _ => (c.boolean_blames _ _).bind fun _ _ =>
    (c.boolean_blames _ _).bind fun _ _ => (c.boolean_blames _ _).bind fun _ _ =>
    (c.boolean_blames _ _).bind fun _ _ => .pure _).congr ?_
  intro key
  simp [Split.flags]

namespace Ranking

/-- The key of the priority that a configuration gives to a component. -/
def priorityKey (job name : String) : String := key job ("priority." ++ name)

theorem candidate_blames (c : Config) (job : String) (x : Component α) :
    Blames (candidate c job x) fun k =>
      k = priorityKey job x.name ∧ c.NotNumber (priorityKey job x.name) :=
  ((c.number?_blames _).bind fun _ _ => .pure _).congr fun key => by simp [priorityKey]

/-- Components cannot be ranked just when a priority in the configuration is no number. -/
theorem ofRegistry_blames (r : Registry α) (c : Config) (job : String) :
    Blames (ofRegistry r c job) fun k => ∃ x ∈ r.components,
      k = priorityKey job x.name ∧ c.NotNumber (priorityKey job x.name) :=
  ((Blames.mapM (candidate_blames c job) r.components).bind fun _ _ => .pure _).congr
    fun key => by simp

end Ranking
end ArtifactCache
