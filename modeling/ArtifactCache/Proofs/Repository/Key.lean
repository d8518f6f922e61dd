import ArtifactCache.Proofs.Repository.Remote
import ArtifactCache.Proofs.Text

/-! The key of a repository manager tells apart what it serves, as far as the digest does. -/
namespace ArtifactCache

variable {members R S : List String} {c d : String} {r s : RemoteRepository}

namespace Text

theorem toList_loop (bs : ByteArray) (i : Nat) (before : List UInt8) :
    ByteArray.toList.loop bs i before = before.reverse ++ bs.data.toList.drop i := by
  fun_induction ByteArray.toList.loop bs i before with
  | case1 i before hi ih =>
    have hlength : i < bs.data.toList.length := by simpa using hi
    rw [ih, List.drop_eq_getElem_cons hlength]
    simp [ByteArray.get!, hi]
  | case2 i before hi =>
    rw [List.drop_eq_nil_of_le (by simpa using Nat.le_of_not_lt hi), List.append_nil]

/-- Different texts have different bytes. -/
theorem toUTF8_inj {s t : String} : s.toUTF8.toList = t.toUTF8.toList ↔ s = t := by
  have hbytes : ∀ bs : ByteArray, bs.toList = bs.data.toList := fun bs => by
    rw [ByteArray.toList, toList_loop, List.reverse_nil, List.nil_append, List.drop_zero]
  rw [hbytes, hbytes, Array.toList_inj, ← ByteArray.ext_iff]
  exact String.toByteArray_inj

end Text

namespace Sha256

/-- Whether the digest does not collide on two lists of bytes. -/
def Separates (bytes bytes' : List UInt8) : Prop := digest bytes = digest bytes' → bytes = bytes'

end Sha256

namespace RemoteRepository

/-- The bytes whose digest tells apart what a repository manager serves in a context. -/
def scopeBytes (members : List String) (context : String) : List UInt8 :=
  (scope members context).toUTF8.toList

theorem key_of_members (h : r.members = some members) (context : String) :
    r.key context = r.id ++ "-" ++ Sha256.digest (scopeBytes members context) := by
  rw [key, h, scopeBytes]

theorem mergeSort_eq_iff : R.mergeSort (· ≤ ·) = S.mergeSort (· ≤ ·) ↔ R.Perm S := by
  constructor
  · intro h
    exact (List.mergeSort_perm R _).symm.trans (h ▸ List.mergeSort_perm S _)
  · intro h
    have hsorted : ∀ T : List String, (T.mergeSort (· ≤ ·)).Pairwise (· ≤ ·) := fun T => by
      have htrans : ∀ a b c : String, decide (a ≤ b) = true → decide (b ≤ c) = true →
          decide (a ≤ c) = true := by
        simpa using fun a b c : String => String.le_trans
      have htotal : ∀ a b : String, (decide (a ≤ b) || decide (b ≤ a)) = true := by
        simpa using fun a b : String => String.le_total a b
      simpa using List.pairwise_mergeSort htrans htotal T
    apply List.Perm.eq_of_pairwise (fun _ _ _ _ => String.le_antisymm) (hsorted R) (hsorted S)
    exact (List.mergeSort_perm R _).trans (h.trans (List.mergeSort_perm S _).symm)

/-- Where there are no line breaks, the lines of a scope are the context and the sorted members. -/
theorem splitOn_scope (hc : '\n' ∉ c.toList) (hR : ∀ id ∈ R, '\n' ∉ id.toList) :
    Text.splitOn '\n' (scope R c) = c :: R.mergeSort (· ≤ ·) := by
  rw [scope, ← Text.join_cons]
  refine Text.splitOn_join (List.cons_ne_nil _ _) fun line hline => ?_
  rcases List.mem_cons.1 hline with rfl | hline
  · exact hc
  · exact hR line (List.mem_mergeSort.1 hline)

theorem scope_eq_iff (hc : '\n' ∉ c.toList) (hd : '\n' ∉ d.toList) (hR : ∀ id ∈ R, '\n' ∉ id.toList)
    (hS : ∀ id ∈ S, '\n' ∉ id.toList) : scope R c = scope S d ↔ c = d ∧ R.Perm S := by
  rw [← @Text.splitOn_inj '\n', splitOn_scope hc hR, splitOn_scope hd hS, List.cons.injEq,
    mergeSort_eq_iff]

/-- Two repository managers have one key just when they have one identifier, serve one context and
answer for the same members, each as often, in any order. -/
theorem key_eq_iff (hr : r.members = some R) (hs : s.members = some S) (hc : '\n' ∉ c.toList)
    (hd : '\n' ∉ d.toList) (hR : ∀ id ∈ R, '\n' ∉ id.toList) (hS : ∀ id ∈ S, '\n' ∉ id.toList)
    (hsha : Sha256.Separates (scopeBytes R c) (scopeBytes S d)) :
    r.key c = s.key d ↔ r.id = s.id ∧ c = d ∧ R.Perm S := by
  have hbytes : scopeBytes R c = scopeBytes S d ↔ scope R c = scope S d := Text.toUTF8_inj
  rw [key_of_members hr, key_of_members hs, ← scope_eq_iff hc hd hR hS, ← hbytes]
  constructor
  · intro h
    have hchars := congrArg String.toList h
    simp only [String.toList_append] at hchars
    obtain ⟨hid, hdigest⟩ := List.append_inj' hchars ((length_digest _).trans (length_digest _).symm)
    exact ⟨String.toList_inj.1 (List.append_cancel_right hid), hsha (String.toList_inj.1 hdigest)⟩
  · rintro ⟨hid, hscope⟩
    rw [hid, hscope]

/-- A manager of two repositories: the order of its members does not count, the context does. -/
theorem key_eq_iff_reordered :
    let r : RemoteRepository := ⟨"nexus", "https://nexus.example.org", "default", some ["b", "a"]⟩
    let s : RemoteRepository := ⟨"nexus", "https://nexus.example.org", "default", some ["a", "b"]⟩
    r.key "project" = s.key "project" ∧ r.key "project" ≠ s.key "plugin" := by
  intro r s
  have hmembers : ∀ id ∈ ["b", "a"], '\n' ∉ id.toList := by decide
  have hmembers' : ∀ id ∈ ["a", "b"], '\n' ∉ id.toList := by decide
  have hscope : ∀ context,
      scope ["a", "b"] context = context ++ String.join (["a", "b"].map ("\n" ++ ·)) := fun context => by
    rw [scope, List.mergeSort_of_pairwise (by decide)]
  have hproject : scope ["b", "a"] "project" = scope ["a", "b"] "project" :=
    (scope_eq_iff (by decide) (by decide) hmembers hmembers').2 ⟨rfl, List.Perm.swap _ _ _⟩
  have hsame : Sha256.Separates (scopeBytes ["b", "a"] "project") (scopeBytes ["a", "b"] "project") :=
    fun _ => by rw [scopeBytes, scopeBytes, hproject]
  have hother : Sha256.Separates (scopeBytes ["b", "a"] "project") (scopeBytes ["a", "b"] "plugin") := by
    intro h
    rw [scopeBytes, scopeBytes, hproject, hscope, hscope] at h
    exact absurd h (by decide +kernel)
  constructor
  · have hiff := key_eq_iff (r := r) (s := s) (c := "project") (d := "project") rfl rfl (by decide)
      (by decide) hmembers hmembers' hsame
    exact hiff.2 ⟨rfl, rfl, List.Perm.swap _ _ _⟩
  · have hiff := key_eq_iff (r := r) (s := s) (c := "project") (d := "plugin") rfl rfl (by decide)
      (by decide) hmembers hmembers' hother
    intro hkey
    exact absurd (hiff.1 hkey).2.1 (by decide)

end RemoteRepository
end ArtifactCache
