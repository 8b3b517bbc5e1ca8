/-
# Instructions that move data

Every instruction but jumps, calls, returns and the halt works on the operand
stack, the variables, the heap and the output alone, and goes on with the next
instruction. `Machine.exec` is their one meaning; compiled code that runs on the
machine uses it too.
-/
import StackMachine.Machine.Basic
import StackMachine.Operator

namespace StackMachine.Machine

/-- Execute an instruction that moves data. An instruction that transfers
control is refused. -/
def exec (s : Settings) (i : Instr) : Exec Unit :=
  match i.op with
  | .pushInt => do
    let n ← i.arg
    push (.int n)
  | .pushBool b => push (.bool b)
  | .pop => do
    let _ ← pop i.op
  | .dup => do
    let v ← peek i.op
    push v
  | .binary b => do
    let r ← pop i.op
    let l ← pop i.op
    let v ← b.eval l r
    push v
  | .unary u => do
    let x ← pop i.op
    let v ← u.eval x
    push v
  | .loadLocal => do
    let k ← i.arg
    let v ← loadLocal k
    push v
  | .storeLocal => do
    let k ← i.arg
    let v ← pop i.op
    storeLocal k v
  | .loadGlobal => do
    let k ← i.arg
    let v ← loadGlobal k
    push v
  | .storeGlobal => do
    let k ← i.arg
    let v ← pop i.op
    storeGlobal s k v
  | .allocArray => do
    let n ← popInt i.op
    let v ← allocArray s n
    push v
  | .allocStruct | .new => do
    let type ← i.arg
    let n ← popInt i.op
    let v ← allocStruct s i.op type n
    push v
  | .loadElem => do
    let k ← popInt i.op
    let a ← popRef i.op
    let o ← (← get).heap.get a
    let v ← o.elem k
    push v
  | .storeElem => do
    let v ← pop i.op
    let k ← popInt i.op
    let a ← popRef i.op
    inHeap (Heap.setElem a k v)
  | .loadField => do
    let k ← i.arg
    let a ← popRef i.op
    let o ← (← get).heap.get a
    let v ← o.field k
    push v
  | .storeField => do
    let k ← i.arg
    let v ← pop i.op
    let a ← popRef i.op
    inHeap (Heap.setField a k v)
  | .printInt => do
    let n ← popInt i.op
    print (decimal n.toInt)
  | .printBool => do
    let v ← pop i.op
    print (Value.bool v.truth).display
  | .jump _ | .call | .ret | .retVoid | .halt => throw (.unsupported i.op)

end StackMachine.Machine
