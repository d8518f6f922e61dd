import Mathlib.Data.List.Basic
import ArtifactCache.Repository.Remote

/-! A digest is 64 digits. It has no slash, so the key of a repository has one only if its identifier
does. -/
namespace ArtifactCache

theorem Text.length_hex {width n : Nat} (h : (Nat.toDigits 16 n).length ≤ width) :
    (Text.hex width n).length = width := by
  rw [hex, String.length_ofList, List.length_append, List.length_replicate]
  omega

theorem Text.digitChar_ne_slash (d : Nat) : Nat.digitChar d ≠ '/' := by
  grind [Nat.digitChar]

theorem Text.slash_notMem_toDigitsCore (base fuel n : Nat) (ds : List Char) (h : '/' ∉ ds) :
    '/' ∉ Nat.toDigitsCore base fuel n ds := by
  induction fuel generalizing n ds with
  | zero => exact h
  | succ fuel ih =>
    have hcons : '/' ∉ Nat.digitChar (n % base) :: ds :=
      List.not_mem_cons_of_ne_of_not_mem (Ne.symm (digitChar_ne_slash _)) h
    rw [Nat.toDigitsCore]
    split
    · exact hcons
    · exact ih _ _ hcons

theorem Text.slash_notMem_hex (width n : Nat) : '/' ∉ (Text.hex width n).toList := by
  rw [Text.hex, String.toList_ofList, List.mem_append, not_or]
  exact ⟨fun h => by simp [List.mem_replicate] at h, slash_notMem_toDigitsCore _ _ _ _ (by simp)⟩

theorem length_digest (bytes : List UInt8) : (Sha256.digest bytes).toList.length = 64 := by
  have hword : ∀ w : UInt32, (Text.hex 8 w.toNat).toList.length = 8 := fun w => by
    have hdigits : (Nat.toDigits 16 w.toNat).length ≤ 8 :=
      (Nat.length_toDigits_le_iff (by decide) (by decide)).2 w.toNat_lt
    exact Text.length_hex hdigits
  simp [Sha256.digest, Sha256.Chain.words, String.join, hword]

theorem slash_notMem_digest (bytes : List UInt8) : '/' ∉ (Sha256.digest bytes).toList := by
  rw [Sha256.digest]
  simp [String.toList_join, Text.slash_notMem_hex]

theorem RemoteRepository.slash_notMem_key {r : RemoteRepository} (h : '/' ∉ r.id.toList)
    (context : String) : '/' ∉ (r.key context).toList := by
  rw [key]
  split
  · exact h
  · simp [h, slash_notMem_digest]

end ArtifactCache
