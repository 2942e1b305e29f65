import SpirvKernel.Binary.Layout
import SpirvKernel.Text.Quoted

/-!
# Listings

A listing shows a word stream as text: the header, if there is one, as comments, then one instruction
to a line, then a comment that counts the words which form no instruction.
-/

namespace SpirvKernel.Listing

def numerals (ws : List Word) : List String := ws.map fun w => toString w.toNat

/-- Operands are decimal numbers, but for a string operand that ends. -/
def operands (op : Option Opcode) (ws : List Word) : List String :=
  match op.bind Opcode.textOperand? with
  | none => numerals ws
  | some start =>
    match Literal.decode? (ws.drop start) with
    | none => numerals ws
    | some (text, used) =>
      numerals (ws.take start) ++ [Text.Quoted.encode text] ++ numerals (ws.drop (start + used))

def mnemonic (code : UInt16) : String :=
  match Opcode.ofCode? code with
  | some op => op.mnemonic
  | none => s!"Op<{code.toNat}>"

def instruction (i : Instruction) : String :=
  " ".intercalate (mnemonic i.code :: operands (Opcode.ofCode? i.code) i.operands)

/-- The header's comment lines and the words after it. -/
def header : List Word → List String × List Word
  | magic :: version :: generator :: bound :: schema :: body =>
    if magic = Layout.magic then
      (["; SPIR-V",
        s!"; Version: {version.toNat / 65536 % 256}.{version.toNat / 256 % 256}",
        s!"; Generator: {generator.toNat}",
        s!"; Bound: {bound.toNat}",
        s!"; Schema: {schema.toNat}"], body)
    else ([], magic :: version :: generator :: bound :: schema :: body)
  | ws => ([], ws)

def trailer (rest : List Word) : List String :=
  if rest.isEmpty then [] else [s!"; {rest.length} trailing words not decoded"]

def lines (ws : List Word) : List String :=
  let (comments, body) := header ws
  let (is, rest) := Instruction.decodeAll body
  comments ++ is.map instruction ++ trailer rest

def render (ws : List Word) : String := String.join ((lines ws).map (· ++ "\n"))

end SpirvKernel.Listing
