/-
# Instructions that transfer control

A call takes its arguments off the operand stack into the locals of a new
frame. A return cuts the stack back to its height at the call and leaves the
returned value there, if there is one.

* `Machine.enter`, `Machine.leave`: the beginning and the end of a call;
* `Machine.interpret`: the meaning of one instruction of the stream, where a
  call is only decoded: who serves it is decided in `StackMachine.Run`.
-/
import StackMachine.Machine.Data

namespace StackMachine

/-- Where control goes after an instruction. -/
inductive Flow where
  | next
  | jump (target : Nat)
  /-- A call was made out; it is still to be served. -/
  | call (func : Nat)
  /-- A frame was left. -/
  | returned
  /-- The whole run has stopped. -/
  | stop
  deriving DecidableEq, Repr

namespace Machine

/-- Begin a call of a function; gives the place where its body starts. -/
def enter (p : Program) (func returnIp : Nat) : Exec Nat := fun m =>
  match p.functions[func]? with
  | none => .error (.noSuchFunction (Int64.ofNat func)) m
  | some f =>
    let params := f.arity
    if m.stack.length < params then .error (.stackUnderflow .call) m
    else
      let args := (m.stack.take params).reverse
      let stack := m.stack.drop params
      let frame : Frame :=
        { func := some func
          returnIp := some returnIp
          base := stack.length
          locals := args ++ Value.zeros (f.frameSize - params) }
      .ok f.entry { m with stack, frames := frame :: m.frames }

/-- End the innermost call, with a value or without; `op` is named if there is
no call to end. -/
def leave (op : Opcode) (value : Option Value) : Exec Frame := fun m =>
  match m.frames with
  | [] => .error (.stackUnderflow op) m
  | f :: fs =>
    let stack := m.stack.drop (m.stack.length - f.base)
    .ok f { m with frames := fs, stack := value.toList ++ stack }

/-- Return from the innermost frame. Leaving the outermost one stops the run. -/
def returnWith (op : Opcode) (value : Option Value) : Exec Flow := fun m =>
  match m.frames with
  | ⟨_, none, _, _⟩ :: fs =>
    .ok .stop { m with frames := fs, stop := some (.halted value) }
  | _ =>
    match leave op value m with
    | .error e m => .error e m
    | .ok f m => .ok .returned { m with ip := f.returnIp.getD m.ip }

/-- A place in the stream, or just past its end. -/
def jumpTarget (p : Program) (i : Instr) : Except Fault Nat := do
  let t ← i.target
  if t ≤ p.size then return t else throw (.badJump (Int64.ofNat t))

/-- The function a call names. -/
def callee (p : Program) (i : Instr) : Except Fault Nat := do
  let n ← i.arg
  match slot? n p.functions.length with
  | some f => return f
  | none => throw (.noSuchFunction n)

/-- Where a jump goes; a conditional one takes its condition off the stack. -/
def branch (op : Opcode) (when : Branch) (target : Nat) : Exec Flow :=
  match when with
  | .always => return .jump target
  | .on truth => do
    let v ← pop op
    return if v.truth = truth then .jump target else .next

/-- Execute one instruction of the stream. -/
def interpret (env : Env) (i : Instr) : Exec Flow :=
  match i.op with
  | .jump when => do
    let t ← jumpTarget env.program i
    branch i.op when t
  | .call => do
    let f ← callee env.program i
    return .call f
  | .ret => do
    let v ← pop i.op
    returnWith i.op (some v)
  | .retVoid => returnWith i.op none
  | .halt => do
    modify fun m => { m with stop := some (.halted none) }
    return .stop
  | _ => do
    exec env.settings i
    return .next

end Machine

end StackMachine
