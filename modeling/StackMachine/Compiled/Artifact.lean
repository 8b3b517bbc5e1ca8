/-
# Compiled bodies

A compiled body is a body whose jumps stay inside it, together with the place
in the stream that each of its instructions stands for. It runs in one of two
forms: isolated, on a `Context`, or integrated, on the machine itself.
-/
import StackMachine.Compiled.Isolated

namespace StackMachine

/-- The code of one function and, for each instruction, its place in the
stream. -/
structure CompiledBody where
  func : Nat
  code : Code
  ips : List Nat
  deriving DecidableEq, Repr

/-- The instruction at `pc`, with its place in the stream. -/
def CompiledBody.site? (b : CompiledBody) (pc : Nat) : Option (Nat × Instr) :=
  b.code[pc]?.map fun i => (b.ips.getD pc 0, i)

/-- What compiling a function gives. -/
inductive Artifact where
  | isolated (body : CompiledBody) (arity locals : Nat)
  | integrated (body : CompiledBody)
  deriving DecidableEq, Repr

namespace Machine

/-- Execute one instruction of integrated code. Its jumps were checked when it
was compiled. -/
def integrated (env : Env) (func : Nat) (i : Instr) : Exec Flow :=
  match i.op with
  | .jump when => branch i.op when (((i.operand.getD 0) |> Instr.place?).getD 0)
  -- a negative index names no function, and is refused as the last index of all
  | .call => return .call (((i.operand.getD 0) |> Instr.place?).getD (UInt64.size - 1))
  | .ret => do
    let v ← pop i.op
    let _ ← leave i.op (some v)
    return .returned
  | .retVoid => do
    let _ ← leave i.op none
    return .returned
  | .halt => throw (.haltInCompiled func)
  | _ => do
    exec env.settings i
    return .next

/-- Take the arguments of a call off the stack, the last one first. Those taken
before the stack runs out are gone. -/
def popArgs : Nat → Exec (List Value)
  | 0 => return []
  | n + 1 => do
    let v ← pop .call
    let vs ← popArgs n
    return vs ++ [v]

/-- A context for isolated code, with its arguments taken off the stack. -/
def isolate (s : Settings) (func arity locals : Nat) : Exec Context := do
  let args ← popArgs arity
  let m ← get
  return { func
           locals := args ++ Value.zeros (locals - arity)
           globals := m.globals
           maxGlobals := s.maxGlobals }

/-- Write globals that isolated code has written. -/
def writeBack (s : Settings) (globals : List Value) : List Nat → Exec Unit
  | [] => return ()
  | k :: ks => do
    storeGlobal s (Int64.ofNat k) (globals.getD k .zero)
    writeBack s globals ks

/-- Print what isolated code has printed. -/
def printAll (lines : Array String) (m : Machine) : Machine :=
  { m with output := m.output ++ lines }

/-- What isolated code leaves behind when it ends: its globals and its value. -/
def rejoin (s : Settings) (c : Context) : Exec Unit := do
  writeBack s c.globals c.dirty
  match c.result with
  | none => return ()
  | some v => push v

end Machine

end StackMachine
