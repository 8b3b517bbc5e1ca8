/-
# Compiling

A function is compiled in two stages: its body is taken as it is or simplified
(`Draft`), then checked for the form in which it is to run and made an
artifact (`Draft.isolated`, `Draft.integrated`). Both keep the place in the
stream of every instruction, so that a fault in compiled code names the same
instruction as a fault in the stream.
-/
import StackMachine.Compiled.Artifact
import StackMachine.Compiled.Source
import StackMachine.Peephole

namespace StackMachine

/-- A body ready to be made an artifact. -/
structure Draft where
  func : Nat
  signature : Signature
  code : Code
  /-- For each instruction, its place in the body it came from. -/
  origins : List Nat
  deriving DecidableEq, Repr

namespace Draft

/-- The origin of an instruction; past the end, the place itself. -/
def origin (d : Draft) (pc : Nat) : Nat := d.origins.getD pc pc

/-- The place in the stream of every instruction. -/
def ips (d : Draft) : List Nat :=
  (List.range d.code.length).map fun pc => d.signature.start + d.origin pc

def compiledBody (d : Draft) : CompiledBody := ⟨d.func, d.code, d.ips⟩

/-- An operand that must be there is there, and a jump stays inside the body. -/
def checkOperand (d : Draft) (pc : Nat) (i : Instr) : Except CompileError Unit :=
  if i.op.needsOperand && i.operand.isNone then .error (.missingOperand i.op pc)
  else if i.op.isJump then
    let target := i.operand.getD (-1)
    if 0 ≤ target.toInt ∧ target.toInt ≤ d.code.length then .ok ()
    else .error (.jumpsOut d.func pc target)
  else .ok ()

/-- Check the instructions from `pc` on; the first that fails decides the
error. -/
def checkFrom (check : Nat → Instr → Except CompileError Unit) :
    (pc : Nat) → Code → Except CompileError Unit
  | _, [] => .ok ()
  | pc, i :: is => do
    check pc i
    checkFrom check (pc + 1) is

/-- What isolated code may hold: nothing that calls or reaches the heap. -/
def checkIsolated (d : Draft) (pc : Nat) (i : Instr) : Except CompileError Unit :=
  if i.op.isolable then d.checkOperand pc i else .error (.unsupported i.op)

/-- The artifact that runs apart from the machine. -/
def isolated (d : Draft) : Except CompileError Artifact := do
  checkFrom d.checkIsolated 0 d.code
  return .isolated d.compiledBody d.signature.arity (max d.signature.locals d.signature.arity)

/-- The artifact that runs on the machine. -/
def integrated (d : Draft) : Except CompileError Artifact := do
  checkFrom d.checkOperand 0 d.code
  return .integrated d.compiledBody

/-- The artifact of a given form. -/
def emit (d : Draft) : CodeForm → Except CompileError Artifact
  | .isolated => d.isolated
  | .integrated => d.integrated

end Draft

namespace Source

/-- A function's body as it is. -/
def plain (s : Source) (func : Nat) : Except CompileError Draft := do
  let signature ← s.signature func
  let code ← s.body func
  return ⟨func, signature, code, List.range code.length⟩

/-- A function's body, simplified. -/
def simplified (s : Source) (func : Nat) : Except CompileError Draft := do
  let d ← s.plain func
  let out := Peephole.simplify d.code
  return { d with code := Peephole.code out, origins := out.map Traced.origin }

def draft (s : Source) (simplify : Bool) (func : Nat) : Except CompileError Draft :=
  if simplify then s.simplified func else s.plain func

/-- Compile a function as the settings say. -/
def compile (s : Source) (form : CodeForm) (simplify : Bool) (func : Nat) :
    Except CompileError Artifact := do
  let d ← s.draft simplify func
  d.emit form

end Source

/-- Compile a function of a program as the settings say. -/
def Program.compile (p : Program) (s : Settings) (func : Nat) : Except CompileError Artifact :=
  (Source.program p).compile s.form s.simplify func

end StackMachine
