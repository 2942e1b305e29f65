import SpirvKernel.Emission.State

/-!
# Emission of terminators
-/

namespace SpirvKernel.Emission

/-- The cases of a switch: a literal as wide as the selector, then the block. -/
def switchCases (width : IntWidth) : List (UInt64 × BlockId) → Emit (List Word)
  | [] => pure []
  | (literal, target) :: cases => do
    let block ← label target
    let rest ← switchCases width cases
    pure (Word.ofLiteral (literal &&& width.mask) (width = .i64) ++ block :: rest)

def emitTerminator (t : Task) : Terminator → Emit Unit
  | .ret none => emit .ret []
  | .ret (some v) => do
    let x ← operand v
    emit .retValue [x]
  | .branch target => do
    let block ← label target
    emit .branch [block]
  | .condBranch cond thenBlock elseBlock => do
    let c ← operand cond
    let yes ← label thenBlock
    let no ← label elseBlock
    emit .branchConditional [c, yes, no]
  | .switch selector cases default => do
    let type ← typeOf t selector
    match type.scalarClass with
    | .int width =>
      let x ← operand selector
      let block ← label default
      let rest ← switchCases width cases
      emit .switch (x :: block :: rest)
    | _ => Attempt.fail (.unsupported (.switchOn selector))
  | .unreachable => emit .unreachable []

end SpirvKernel.Emission
