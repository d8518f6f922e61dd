import ArtifactCache.Proofs.Files.FileName
import ArtifactCache.Proofs.Manager.Availability

/-! When nothing can be answered. The places where an artifact can lie are looked at in order up to
the first that has a file that may be used or a file whose record cannot be read. -/
namespace ArtifactCache

open Manager (Request Answer Visit look visitsOf recordBeside trackingFile?)

variable {m : Manager} {d d' : Disk} {division : Division} {trackingName file : String} {q : Request}
  {files before after : List String} {f : Fault}

namespace Manager

/-- Whether a file is there and the tracking file beside it cannot be read. -/
def Unreadable (d : Disk) (trackingName file : String) (f : Fault) : Prop :=
  d.isFile file = true ∧
    ∃ path, trackingFile? trackingName file = some path ∧ Tracking.read d path = .error f

/-- The places that are looked at. -/
def visited (m : Manager) (d : Disk) (trackingName : String) (q : Request) : List String :=
  (m.visits d trackingName q).map Visit.file

theorem Unreadable.eq {f' : Fault} (h : Unreadable d trackingName file f)
    (h' : Unreadable d trackingName file f') : f = f' := by
  obtain ⟨-, path, hpath, hread⟩ := h
  obtain ⟨-, path', hpath', hread'⟩ := h'
  rw [hpath] at hpath'
  cases hpath'
  rw [hread] at hread'
  exact Except.error.inj hread'

end Manager
end ArtifactCache
