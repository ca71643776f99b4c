/-
  EchOS.Kernel.Acpi.Table

  The part that all ACPI tables start with (`sdt_header` of `kernel/acpi/acpi.h`), in a
  memory with a byte at every address.
-/
import EchOS.Basic

namespace EchOS

/-- `header.Length` of the table at `table`, little-endian behind the four bytes of the
    signature. -/
def headerLength (memory : Word → Byte) (table : Word) : BitVec 32 :=
  memory (table + 7#64) ++ memory (table + 6#64) ++ memory (table + 5#64) ++ memory (table + 4#64)

section Table

variable (memory : Word → Byte) (table : Word)

/-- The bytes of the table. -/
def tableByte (k : Nat) : Byte := memory (table + BitVec.ofNat 64 k)

def tableLength : Nat := (headerLength memory table).toNat

theorem tableLength_lt : tableLength memory table < 2 ^ 32 := (headerLength memory table).isLt

/-- The Length as an operand next to a `size_t`. -/
theorem toNat_headerLength :
    ((headerLength memory table).setWidth 64).toNat = tableLength memory table := by
  have hlt := tableLength_lt memory table
  rw [BitVec.toNat_setWidth]
  exact Nat.mod_eq_of_lt (Nat.lt_trans hlt (by decide))

end Table

end EchOS
