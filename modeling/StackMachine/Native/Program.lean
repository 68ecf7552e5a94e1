import StackMachine.Native.Leaf

/-!
# Compiled programs

Compilation turns the code of a function into a list of operations whose jumps name operations
instead of byte offsets. It succeeds when all of the code can be read and every jump leads to
the start of an instruction or to the end of the code. Calls to leaf functions are replaced by
their bodies.
-/

namespace StackMachine.Native

/-- An operation of a compiled program. A jump names the operation to go on with; the number of
operations stands for the end. -/
inductive Op where
  | nop
  | push (w : Word)
  | pop
  | dup
  | binary (op : BinaryOp)
  | unary (op : UnaryOp)
  | jump (branch : Branch) (target : Nat)
  | call (callee : UInt16)
  | ret
  | loadLocal (index : UInt8)
  | storeLocal (index : UInt8)
  | loadGlobal (index : UInt16)
  | storeGlobal (index : UInt16)
  | arrayNew
  | arrayLoad
  | arrayStore
  | arrayLen
  | printInt
  | readInt
  | halt
  /-- The start of a leaf's body: checks that the call would have had room. -/
  | enterLeaf (callee : UInt16)
  /-- The end of a leaf's body: gives zero if there is no value to return. -/
  | exitLeaf
deriving DecidableEq, Inhabited

/-- An operation and the place in the code it comes from. -/
structure Inst where
  op : Op
  location : Location
deriving DecidableEq, Inhabited

/-- A compiled function. -/
structure Program where
  function : UInt16
  insts : Array Inst
  hasLoops : Bool
  inlinedCalls : Nat
deriving DecidableEq, Inhabited

/-- Choices of the compiler. -/
structure Options where
  /-- Whether leaf functions are spliced into their callers. -/
  inline : Bool := true
  /-- The most instructions of a leaf, its `ret` included. -/
  maxLeafSize : Nat := 16
deriving DecidableEq, Repr, Inhabited

/-- Why a function cannot be compiled. -/
inductive CompileError where
  | unknownFunction (function : UInt16)
  | decode (pc : Nat) (fault : Fault)
  | jumpOutOfRange (pc : Nat) (target : Int)
  | jumpIntoInstruction (pc target : Nat)
deriving DecidableEq, Repr, Inhabited

/-- The text of the error. -/
def CompileError.message : CompileError → String
  | unknownFunction function =>
    "function " ++ Decimal.ofNat function.toNat ++ " does not exist"
  | decode pc fault =>
    "undecodable instruction at " ++ Hex.marked 4 pc ++ ": " ++ fault.message
  | jumpOutOfRange pc target =>
    "jump at " ++ Hex.marked 4 pc ++ " leaves the function (target " ++ Decimal.ofInt target
      ++ ")"
  | jumpIntoInstruction pc target =>
    "jump at " ++ Hex.marked 4 pc ++ " lands inside an instruction (target "
      ++ Hex.marked 4 target ++ ")"

/-! ## Lowering -/

/-- The operation of an instruction that ends at `next`. A jump still names a byte offset. -/
def lower (next : Nat) : Instr → Op
  | .nop => .nop
  | .pushInt n => .push (.ofInt n)
  | .pushDouble pattern => .push (.ofDouble pattern)
  | .pop => .pop
  | .dup => .dup
  | .binary op => .binary op
  | .unary op => .unary op
  | .jump branch offset => .jump branch (Code.jumpPlace next offset).toNat
  | .call callee => .call callee
  | .ret => .ret
  | .loadLocal index => .loadLocal index
  | .storeLocal index => .storeLocal index
  | .loadGlobal index => .loadGlobal index
  | .storeGlobal index => .storeGlobal index
  | .arrayNew => .arrayNew
  | .arrayLoad => .arrayLoad
  | .arrayStore => .arrayStore
  | .arrayLen => .arrayLen
  | .printInt => .printInt
  | .readInt => .readInt
  | .halt => .halt

/-- The operations of a leaf's body, in place of the call at `location`. -/
def splice (callee : UInt16) (leaf : Leaf) (location : Location) : List Inst :=
  ⟨.enterLeaf callee, location⟩
    :: leaf.body.map (fun (pc, i) => ⟨lower (pc + i.size) i, ⟨callee, pc⟩⟩)
    ++ [⟨.exitLeaf, ⟨callee, leaf.retPc⟩⟩]

/-- The leaf that takes the place of an instruction of `function`, with its number. -/
def spliced? (image : Image) (options : Options) (function : UInt16) :
    Instr → Option (UInt16 × Leaf)
  | .call callee =>
    if options.inline ∧ callee ≠ function then
      (leaf? image callee options.maxLeafSize).map fun leaf => (callee, leaf)
    else none
  | _ => none

/-- The operations of the instruction at `pc`. -/
def emit (image : Image) (options : Options) (function : UInt16) (pc : Nat) (i : Instr) :
    List Inst :=
  match spliced? image options function i with
  | some (callee, leaf) => splice callee leaf ⟨function, pc⟩
  | none => [⟨lower (pc + i.size) i, ⟨function, pc⟩⟩]

/-! ## Jumps -/

/-- The error of a jump that leaves the code. -/
def strayJump? (length pc : Nat) (i : Instr) : Option CompileError :=
  match i.jumpOffset? with
  | none => none
  | some offset =>
    match Code.jumpTarget (pc + i.size) offset length with
    | .ok _ => none
    | .error _ => some (.jumpOutOfRange pc (Code.jumpPlace (pc + i.size) offset))

/-- Where the operations of each byte offset start, counted from `index` on. -/
def starts (index : Nat) : List (Nat × List Inst) → List (Nat × Nat)
  | [] => []
  | (pc, insts) :: rest => (pc, index) :: starts (index + insts.length) rest

/-- Lets a jump name an operation. -/
def relocate (starts : List (Nat × Nat)) (inst : Inst) : Except CompileError Inst :=
  match inst.op with
  | .jump branch place =>
    match starts.lookup place with
    | some target => .ok ⟨.jump branch target, inst.location⟩
    | none => .error (.jumpIntoInstruction inst.location.pc place)
  | _ => .ok inst

/-- Whether the operation with a given index jumps to itself or back. -/
def jumpsBack (inst : Inst) (index : Nat) : Bool :=
  match inst.op with
  | .jump _ target => target ≤ index
  | _ => false

/-- Whether the operation starts a spliced function. -/
def Inst.entersLeaf (inst : Inst) : Bool :=
  match inst.op with
  | .enterLeaf _ => true
  | _ => false

/-! ## Compilation -/

/-- Puts the operations of the instructions together and resolves the jumps. -/
def link (function : UInt16) (length : Nat) (chunks : List (Nat × List Inst)) :
    Except CompileError Program :=
  let unlinked := chunks.flatMap Prod.snd
  let starts := starts 0 chunks ++ [(length, unlinked.length)]
  match unlinked.mapM (relocate starts) with
  | .error e => .error e
  | .ok insts =>
    .ok
      { function
        insts := insts.toArray
        hasLoops := insts.zipIdx.any fun (inst, index) => jumpsBack inst index
        inlinedCalls := insts.countP Inst.entersLeaf }

/-- Compiles a function. -/
def compile (image : Image) (function : UInt16) (options : Options) :
    Except CompileError Program :=
  match image.function? function with
  | none => .error (.unknownFunction function)
  | some f =>
    let sweep := f.code.sweep
    match sweep.instrs.findSome? fun (pc, i) => strayJump? f.code.size pc i with
    | some e => .error e
    | none =>
      match sweep.stuck with
      | some (pc, fault) => .error (.decode pc fault)
      | none =>
        link function f.code.size
          (sweep.instrs.map fun (pc, i) => (pc, emit image options function pc i))

/-! ## Stack growth -/

/-- Operations that may leave one more word on the stack than they found. -/
def Op.grows : Op → Bool
  | .push _ | .dup | .loadLocal _ | .loadGlobal _ | .readInt | .exitLeaf => true
  | _ => false

/-- Whether the operation is a call. -/
def Op.isCall : Op → Bool
  | .call _ => true
  | _ => false

/-- A program ready to run: whether pushes always have to be checked against the limit of the
stack, and else the most words it can add. -/
structure Routine where
  program : Program
  alwaysChecked : Bool
  growth : Nat
deriving DecidableEq, Inhabited

/-- Prepares a program. Without loops and calls every operation is executed at most once, which
bounds the growth of the stack. -/
def Program.prepare (p : Program) : Routine where
  program := p
  alwaysChecked := p.hasLoops || p.insts.any fun inst => inst.op.isCall
  growth := p.insts.countP fun inst => inst.op.grows

/-- A one-line description of a compiled function. -/
def Routine.describe (r : Routine) : String :=
  let bool (b : Bool) : String := if b then "true" else "false"
  "CompiledFunction \x7b function: " ++ Decimal.ofNat r.program.function.toNat
    ++ ", has_loops: " ++ bool r.program.hasLoops
    ++ ", inlined_calls: " ++ Decimal.ofNat r.program.inlinedCalls
    ++ ", instruction_count: " ++ Decimal.ofNat r.program.insts.size ++ " \x7d"

end StackMachine.Native
