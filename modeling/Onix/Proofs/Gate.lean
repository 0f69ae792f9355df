import Onix.Proofs.Interrupt
import Onix.Spec.Gate

/-! From a call of the library to the function of the kernel and back. -/

namespace Onix.Context

open Function X86

variable {l : Labels} {offset esp0 : BitVec 32} {c k r : Cpu} {args : List (BitVec 32)} {nr : ℕ} {q : Reg}

/-- The table leads the number of a library call to the function it is for. -/
theorem LibCall.table (call : LibCall) :
    syscallTable call.passed.1 = call.handler.1 ∧ call.passed.2 = call.handler.2 := by
  cases call <;> exact ⟨by rfl, rfl⟩

/-- The user process of `pair` calls `write`. -/
def writing : LibCall := .write 1 0x9000 12

end Onix.Context
