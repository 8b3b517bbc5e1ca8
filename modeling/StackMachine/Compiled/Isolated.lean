/-
# Code that runs apart from the machine

Isolated code has an operand stack of its own, the locals of one call and a
copy of the globals. It can neither call nor reach the heap. What it prints and
which globals it writes is kept until it ends.

* `Context`: what it runs on;
* `Context.exec`: the meaning of one instruction;
* `Context.step`, `Context.run`: running code by itself.
-/
import StackMachine.Machine.Control

namespace StackMachine

/-- What isolated code runs on. -/
structure Context where
  func : Nat
  /-- The operand stack, top first. -/
  stack : List Value := []
  locals : List Value
  globals : List Value
  maxGlobals : Nat
  /-- The globals written, in the order of the writes. -/
  dirty : List Nat := []
  result : Option Value := none
  output : Array String := #[]
  deriving DecidableEq, Repr

/-- Whether isolated code may hold an opcode. -/
def Opcode.isolable : Opcode → Bool
  | .call | .allocArray | .loadElem | .storeElem | .allocStruct | .loadField | .storeField
  | .new => false
  | _ => true

namespace Context

abbrev Exec (α : Type) := EStateM Fault Context α

def push (v : Value) : Exec Unit := fun c =>
  .ok () { c with stack := v :: c.stack }

def pop (op : Opcode) : Exec Value := fun c =>
  match c.stack with
  | [] => .error (.stackUnderflow op) c
  | v :: vs => .ok v { c with stack := vs }

def peek (op : Opcode) : Exec Value := fun c =>
  match c.stack with
  | [] => .error (.stackUnderflow op) c
  | v :: _ => .ok v c

def print (line : String) : Exec Unit := fun c =>
  .ok () { c with output := c.output.push line }

/-- Execute one instruction. `returned` stands for the end of the code. A local
to be written is looked up before its new value is taken off the stack, a global
after. -/
def exec (i : Instr) : Exec Flow :=
  match i.op with
  | .pushInt => do
    let n ← i.arg
    push (.int n)
    return .next
  | .pushBool b => do
    push (.bool b)
    return .next
  | .pop => do
    let _ ← pop i.op
    return .next
  | .dup => do
    let v ← peek i.op
    push v
    return .next
  | .binary b => do
    let r ← pop i.op
    let l ← pop i.op
    let v ← b.eval l r
    push v
    return .next
  | .unary u => do
    let x ← pop i.op
    let v ← u.eval x
    push v
    return .next
  | .jump .always => do
    let t ← i.target
    return .jump t
  | .jump (.on truth) => do
    let t ← i.target
    let v ← pop i.op
    return if v.truth = truth then .jump t else .next
  | .loadLocal => do
    let n ← i.arg
    let c ← get
    let k ← slot .local n c.locals.length
    push (c.locals.getD k .zero)
    return .next
  | .storeLocal => do
    let n ← i.arg
    let k ← slot .local n (← get).locals.length
    let v ← pop i.op
    modify fun c => { c with locals := c.locals.set k v }
    return .next
  | .loadGlobal => do
    let n ← i.arg
    let c ← get
    let k ← slot .global n c.globals.length
    push (c.globals.getD k .zero)
    return .next
  | .storeGlobal => do
    let n ← i.arg
    let v ← pop i.op
    let k ← slot .global n (← get).maxGlobals
    modify fun c => { c with globals := setGrowing c.globals k v, dirty := c.dirty ++ [k] }
    return .next
  | .printInt => do
    let v ← pop i.op
    let n ← v.toInt
    print (decimal n.toInt)
    return .next
  | .printBool => do
    let v ← pop i.op
    print (Value.bool v.truth).display
    return .next
  | .ret => do
    let v ← pop i.op
    modify fun c => { c with result := some v }
    return .returned
  | .retVoid => return .returned
  | .halt => do
    throw (.haltInCompiled (← get).func)
  | .call | .allocArray | .loadElem | .storeElem | .allocStruct | .loadField | .storeField
  | .new => throw (.unsupported i.op)

/-- Execute one instruction whose opcode is among those supported; any other is
refused. -/
def execOnly (supported : Opcode → Bool) (i : Instr) : Exec Flow :=
  if supported i.op then exec i else throw (.unsupported i.op)

/-- What comes of one step of isolated code. -/
inductive Step where
  /-- It goes on at `pc`. -/
  | on (pc : Nat) (context : Context)
  | ended (context : Context)
  | failed (cause : Fault) (context : Context)
  deriving DecidableEq, Repr

/-- Execute the instruction at `pc`. Running off the end of the code ends it. -/
def step (code : Code) (pc : Nat) (c : Context) : Step :=
  match code[pc]? with
  | none => .ended c
  | some i =>
    match exec i c with
    | .error e c => .failed e c
    | .ok .next c => .on (pc + 1) c
    | .ok (.jump t) c => .on t c
    | .ok _ c => .ended c

/-- Run isolated code from `pc` to its end, for at most `fuel` steps. `none`
stands for code that has not ended yet. -/
def run (code : Code) : (fuel pc : Nat) → Context → Option (EStateM.Result Fault Context Unit)
  | 0, _, _ => none
  | fuel + 1, pc, c =>
    match step code pc c with
    | .on pc c => run code fuel pc c
    | .ended c => some (.ok () c)
    | .failed e c => some (.error e c)

end Context

end StackMachine
