import SpirvKernel.Attempt
import SpirvKernel.Binary.Enumerant
import SpirvKernel.Binary.Instruction
import SpirvKernel.Binary.Layout
import SpirvKernel.Binary.Listing
import SpirvKernel.Binary.Literal
import SpirvKernel.Binary.Opcode
import SpirvKernel.Binary.Word
import SpirvKernel.Dictionary
import SpirvKernel.Emission.Function
import SpirvKernel.Emission.Stage
import SpirvKernel.Emission.State
import SpirvKernel.Emission.Storage
import SpirvKernel.Emission.Terminator
import SpirvKernel.Emission.Value
import SpirvKernel.Fault
import SpirvKernel.Id.Entity
import SpirvKernel.Id.Ledger
import SpirvKernel.Id.Supply
import SpirvKernel.Id.Table
import SpirvKernel.Kernel.Constant
import SpirvKernel.Kernel.Draft
import SpirvKernel.Kernel.Method
import SpirvKernel.Kernel.Operator
import SpirvKernel.Kernel.Storage
import SpirvKernel.Kernel.Ty
import SpirvKernel.Kernel.Value
import SpirvKernel.Module
import SpirvKernel.Proofs.Operand
import SpirvKernel.Proofs.Run
import SpirvKernel.Selection.Conversion
import SpirvKernel.Selection.Intrinsic
import SpirvKernel.Selection.Operator
import SpirvKernel.Text.CharacterClass
import SpirvKernel.Text.Quoted
import SpirvKernel.Text.Utf8
import SpirvKernel.Proofs.Dictionary.Growth
import SpirvKernel.Proofs.Dictionary.Soundness
import SpirvKernel.Proofs.Dictionary.Requests
import SpirvKernel.Proofs.Dictionary.Reading
import SpirvKernel.Proofs.Emission.Line
import SpirvKernel.Proofs.Emission.Step
import SpirvKernel.Proofs.Emission.Effect
import SpirvKernel.Proofs.Emission.Lowering
import SpirvKernel.Proofs.Emission.Terminator
import SpirvKernel.Proofs.Emission.Storage
import SpirvKernel.Proofs.Emission.Block
import SpirvKernel.Proofs.Emission.Function
import SpirvKernel.Proofs.Emission.Words
import SpirvKernel.Proofs.Emission.Method
import SpirvKernel.Proofs.Module.Reservation
import SpirvKernel.Proofs.Module.Assembly
import SpirvKernel.Proofs.Module.ResultIds
import SpirvKernel.Proofs.Emission.Shape
import SpirvKernel.Proofs.Module.Grammar
import SpirvKernel.Proofs.Emission.Mention
import SpirvKernel.Proofs.Module.References
import SpirvKernel.Proofs.Emission.DataFlow
import SpirvKernel.Proofs.Emission.ControlFlow
import SpirvKernel.Proofs.Emission.Footprint
import SpirvKernel.Proofs.Emission.Failure
import SpirvKernel.Proofs.Module.Lifecycle
import SpirvKernel.Proofs.Outcome
import SpirvKernel.Proofs.WellFormed
import SpirvKernel.Proofs.Dictionary.Capacity
import SpirvKernel.Proofs.Emission.Decision
import SpirvKernel.Proofs.Emission.Acceptance
import SpirvKernel.Proofs.Emission.Capacity
import SpirvKernel.Proofs.Module.Acceptance
import SpirvKernel.Proofs.Dictionary.Filing
import SpirvKernel.Proofs.Dictionary.Distinctness
import SpirvKernel.Proofs.Emission.Budget
import SpirvKernel.Proofs.Module.Reliability
import SpirvKernel.Proofs.Naming
import SpirvKernel.Proofs.Emission.Likeness
import SpirvKernel.Proofs.Emission.Mirror
import SpirvKernel.Proofs.Module.Likeness
import SpirvKernel.Proofs.Module.Renaming
import SpirvKernel.Proofs.Dictionary.Order
import SpirvKernel.Proofs.Dictionary.Correspondence
import SpirvKernel.Proofs.Module.Preparation
import SpirvKernel.Proofs.Module.Order
import SpirvKernel.Proofs.Module.Sections
import SpirvKernel.Proofs.Module.FunctionIds
import SpirvKernel.Proofs.Emission.Memory
import SpirvKernel.Proofs.Module.Closedness
import SpirvKernel.Proofs.Module.Memory
import SpirvKernel.Proofs.Module.EntryPoint
import SpirvKernel.Proofs.Emission.Silence
import SpirvKernel.Proofs.Module.DebugNames
import SpirvKernel.Proofs.Dictionary.Closure
import SpirvKernel.Proofs.Dictionary.DeclarationOrder
import SpirvKernel.Proofs.Id.Conservation
import SpirvKernel.Proofs.Emission.Tariff
import SpirvKernel.Proofs.Emission.Names
import SpirvKernel.Proofs.Kernel.Edit
import SpirvKernel.Proofs.Kernel.Numbering
import SpirvKernel.Proofs.Kernel.History
import SpirvKernel.Proofs.Module.Construction
import SpirvKernel.Proofs.Binary.ReadBack
import SpirvKernel.Proofs.Binary.Stream
import SpirvKernel.Proofs.Binary.Literal
import SpirvKernel.Proofs.Binary.Listing
import SpirvKernel.Proofs.Dictionary.Capabilities
import SpirvKernel.Proofs.Module.Requests
import SpirvKernel.Proofs.Module.Capabilities
import SpirvKernel.Proofs.Emission.Requests
import SpirvKernel.Proofs.Dictionary.HostNumbers
import SpirvKernel.Proofs.Module.HostNumbers
import SpirvKernel.Proofs.Dictionary.Exhaustion
import SpirvKernel.Proofs.Module.Foresight
import SpirvKernel.Proofs.Kernel.ScalarClass
import SpirvKernel.Proofs.Selection.Conversion
import SpirvKernel.Proofs.Kernel.Storage
import SpirvKernel.Proofs.Id.Table
