/-
# Bodies to compile

Compiling starts from a body whose jumps are relative to it, and from what is
known about the function. Both come from a program, or are given outright.

* `Program.localBody`: a function's body with its jumps made relative; a jump
  out of the body is refused;
* `Program.signature`: what is known about a function whose body passes the check of
  stack heights;
* `Source`: the two origins of bodies under one view.
-/
import StackMachine.Heights

namespace StackMachine

/-- Why a function cannot be compiled. -/
inductive CompileError where
  | noSuchFunction (func : Nat)
  | unsupported (op : Opcode)
  | missingOperand (op : Opcode) (pc : Nat)
  | jumpsOut (func pc : Nat) (target : Int64)
  | refused (cause : HeightError)
  /-- The compiler itself gave up. -/
  | crashed (reason : String)
  deriving DecidableEq, Repr

def CompileError.message : CompileError → String
  | noSuchFunction f => "function index " ++ decimal f ++ " out of bounds"
  | unsupported op => "unsupported opcode in compiled code: " ++ op.name
  | missingOperand op pc => "missing operand for " ++ op.name ++ " at " ++ decimal pc
  | jumpsOut f pc t =>
    "jump at " ++ decimal pc ++ " targets " ++ decimal t.toInt ++ ", outside function " ++ decimal f
  | refused e => "verification failed: " ++ e.message
  | crashed r => "compiler panicked: " ++ r

/-- What is known about a function to be compiled. -/
structure Signature where
  name : String
  arity : Nat
  locals : Nat
  /-- The greatest height of its operand stack. -/
  stackLimit : Nat
  /-- Global slots named anywhere in the program. -/
  globals : Nat
  /-- Where the body starts in the stream. -/
  start : Nat
  returns : Bool
  deriving DecidableEq, Repr

namespace Program

/-- A jump of the body of `func`, which starts at `start` and has `size`
instructions, made relative to the start. The difference is that of 64-bit integers
and wraps, as in a release build, which has no checks for overflow. -/
def relocate (func start size pc : Nat) (i : Instr) : Except CompileError Instr :=
  if !i.op.isJump then .ok i
  else
    match i.operand with
    | none => .error (.missingOperand i.op pc)
    | some target =>
      let relative := target - Int64.ofNat start
      if 0 ≤ relative.toInt ∧ relative.toInt ≤ size then .ok ⟨i.op, some relative⟩
      else .error (.jumpsOut func pc target)

/-- The instructions from `pc` on, relocated; the first that cannot be decides
the error. -/
def relocateFrom (func start size : Nat) : (pc : Nat) → Code → Except CompileError Code
  | _, [] => .ok []
  | pc, i :: is => do
    let i ← relocate func start size pc i
    let is ← relocateFrom func start size (pc + 1) is
    return i :: is

/-- The body of a function, with jumps relative to its first instruction. -/
def localBody (p : Program) (func : Nat) : Except CompileError Code :=
  match p.functions[func]?, p.body? func with
  | some f, some body => relocateFrom func f.entry body.length 0 body
  | _, _ => .error (.noSuchFunction func)

/-- What is known about a function. -/
def signature (p : Program) (func : Nat) : Except CompileError Signature :=
  match p.functions[func]? with
  | none => .error (.noSuchFunction func)
  | some f => do
    let body ← p.localBody func
    match Heights.analyze body p.functions with
    | .error e => throw (.refused e)
    | .ok stackLimit =>
      return { name := f.name
               arity := f.arity
               locals := f.frameSize
               stackLimit
               globals := p.globalsCount
               start := f.entry
               returns := f.returns }

end Program

/-- Where bodies come from. -/
inductive Source where
  | program (p : Program)
  | given (functions : List (Signature × Code)) (constants : List Int64)
  deriving Repr

namespace Source

/-- The number of functions. -/
def size : Source → Nat
  | program p => p.functions.length
  | given fs _ => fs.length

def constants : Source → List Int64
  | program p => p.constants
  | given _ cs => cs

/-- The body of a function, with jumps relative to its first instruction. -/
def body (s : Source) (func : Nat) : Except CompileError Code :=
  match s with
  | program p => p.localBody func
  | given fs _ =>
    match fs[func]? with
    | some (_, code) => .ok code
    | none => .error (.noSuchFunction func)

def signature (s : Source) (func : Nat) : Except CompileError Signature :=
  match s with
  | program p => p.signature func
  | given fs _ =>
    match fs[func]? with
    | some (g, _) => .ok g
    | none => .error (.noSuchFunction func)

end Source

end StackMachine
