import Emulator.Qcow2.Refcount

/-!
# The snapshot table

`qcow2_read_snapshots` and `qcow_write_snapshots` of `qcow2-snapshot.c`. A string is the list of its bytes without
the final NUL.
-/

namespace Emulator.Qcow2

open BDRVQcowState

/-- The value as a C `int`. -/
def toInt (z : ℤ) : ℤ := z.bmod 4294967296

variable (g : Image)

end Emulator.Qcow2
