import Toolpath.Cloud.Export
import Toolpath.Proofs.Files.Sink
import Toolpath.Proofs.Files.Storage

/-! # Writing point files to sinks

A point file is written in many pieces, and a sink may give out in any of them.
What the sink has taken by then is the front of the file, and the failure is
reported: only a file that the sink has taken as a whole counts as written. The
file under a path is emptied before anything is written, so it holds what has
been written by then and nothing of what it held before.
-/

namespace Toolpath

theorem Utf8.encode_flatten (pieces : List (List Char)) :
    (pieces.map encode).flatten = encode pieces.flatten := by
  induction pieces with
  | nil => rfl
  | cons piece pieces ih =>
      rw [List.map_cons, List.flatten_cons, ih, List.flatten_cons]
      exact List.flatMap_append.symm

namespace PointCloud

/-- A point file is written as if it were written in one go. -/
theorem write_eq (cloud : PointCloud) (format : PointFormat) (delimiter : String) (sink : Sink) :
    cloud.write format delimiter sink =
      let written := sink.write (Utf8.encode (cloud.render format delimiter))
      (written.1.mapError .io, written.2) := by
  rw [render, ← Utf8.encode_flatten, ← Sink.writeAll_eq_write]
  rfl

theorem write_unlimited (cloud : PointCloud) (format : PointFormat) (delimiter : String) :
    cloud.write format delimiter {} =
      (.ok (), { taken := (Utf8.encode (cloud.render format delimiter)).toArray }) := by
  rw [write_eq, Sink.write_of_unlimited]
  rfl

/-- A sink without a limit takes the whole text of a point file. One that takes `n` bytes and then
fails is enough exactly for a file of up to `n` bytes; a larger one fails with the failure of the
sink. Either way the sink holds the first bytes of the file, as many as it takes, and it makes no
difference into which pieces the file is cut. -/
theorem write_ok_iff_fits (cloud : PointCloud) (format : PointFormat) (delimiter : String)
    (n : Nat) :
    let complete := cloud.write format delimiter {}
    let output := complete.2.taken.toList
    let written := cloud.write format delimiter { capacity := some n }
    (complete.1 = .ok () ∧ output = Utf8.encode (cloud.render format delimiter)) ∧
      (written.1 = .ok () ↔ output.length ≤ n) ∧
      (¬output.length ≤ n → written.1 = .error (.io .sinkFull)) ∧
      written.2.taken.toList = output.take n ∧
      ∀ pieces : List (List UInt8), pieces.flatten = output →
        let cut := Sink.writeAll { capacity := some n } pieces
        written = (cut.1.mapError .io, cut.2) := by
  intro complete output written
  have hcomplete := cloud.write_unlimited format delimiter
  have houtput : output = Utf8.encode (cloud.render format delimiter) :=
    congrArg (·.2.taken.toList) hcomplete
  have hwritten : written =
      (if output.length ≤ n then .ok () else .error (.io .sinkFull),
        { capacity := some n, taken := (output.take n).toArray }) := by
    simp only [written, write_eq, ← houtput, Sink.write_of_capacity]
    split <;> rfl
  refine ⟨⟨congrArg Prod.fst hcomplete, houtput⟩, ?_, ?_, ?_, ?_⟩
  · rw [hwritten]
    split
    next hfits => exact iff_of_true rfl hfits
    next hover => exact iff_of_false nofun hover
  · intro hover
    rw [hwritten, if_neg hover]
  · rw [hwritten]
  · intro pieces hpieces
    rw [Sink.writeAll_eq_write, hpieces, houtput]
    exact cloud.write_eq format delimiter _

section Storing

variable {fs : FileSystem} {path : String} {faults : Faults} (cloud : PointCloud)
  (format : PointFormat) (delimiter : String)

/-- A file that cannot be opened for writing leaves everything as it was. -/
theorem store_of_create_eq_error {cause : IoFailure} (h : faults.create fs path = .error cause) :
    cloud.store format delimiter fs path faults = (.error (.io cause), fs) := by
  rw [store, h]

variable {location : Location} (h : faults.create fs path = .ok location)

include h

/-- A file that has been opened holds what has been written of the text. -/
theorem store_snd_of_create :
    (cloud.store format delimiter fs path faults).2 =
      fs.put location (.file (Sink.reached (faults.writing path)
        (Utf8.encode (cloud.render format delimiter)))) := by
  rw [store, h]
  simp only [write_eq, Sink.taken_write_upTo]

/-- A file that has been opened holds the whole text exactly if writing does not fail. -/
theorem store_eq_ok_iff_of_create :
    (cloud.store format delimiter fs path faults).1 = .ok () ↔
      Sink.reached (faults.writing path) (Utf8.encode (cloud.render format delimiter)) =
        Utf8.encode (cloud.render format delimiter) := by
  rw [← Sink.write_upTo_eq_ok_iff, store, h]
  simp only [write_eq]
  refine ⟨mapError_eq_ok, fun hok => ?_⟩
  rw [hok]
  rfl

end Storing

end PointCloud

end Toolpath
