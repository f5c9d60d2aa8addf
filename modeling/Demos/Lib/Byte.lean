import Mathlib.Data.Fintype.Basic

/-!
# Facts about bytes

There are only 256 bytes, so a decidable fact about every byte is settled by trying them all.
-/

namespace Demos.Lib

/-- What holds of all 256 values holds of every byte. -/
theorem forall_byte {P : UInt8 → Prop} (h : ∀ i : Fin 256, P (.ofFin i)) (c : UInt8) : P c := by
  have hc := h c.toFin
  rwa [UInt8.ofFin_toFin] at hc

end Demos.Lib
