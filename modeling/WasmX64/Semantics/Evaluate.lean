import WasmX64.Semantics.Step

/-!
# Evaluation

The meaning of bodies and calls.  `evaluate` runs a list of instructions with a
bound on its length and says how it ended: at its end, by a branch out of it, by a
return or by a trap.  Traps name the function and the instruction, numbered the way
`Instr.count` counts.
-/

namespace WasmX64

inductive Outcome where
  | next (state : State)
  /-- A branch to the block `depth` levels further out. -/
  | branch (depth : Nat) (state : State)
  | returned (state : State)
  | trapped (kind : TrapKind) (func : UInt32) (instr : Nat)
  | stuck
  | outOfFuel

/-- The state after a block: its results lie on the stack of its surroundings. -/
def State.leaveBlock (state : State) (arity : Nat) (outer : List UInt64) : State :=
  state.withStack (state.stack.take arity ++ outer)

/-- The state in which the body of a function starts: arguments, which were pushed
in order, and then zeros. -/
def State.enter (state : State) (function : Function) (params : Nat) : State :=
  { state with
    locals := ((state.stack.take params).reverse ++
      List.replicate function.locals.length 0).toArray
    stack := [] }

def State.resume (caller callee : State) (type : FuncType) : State :=
  { callee with
    locals := caller.locals
    stack := callee.stack.take type.results.length ++ caller.stack.drop type.params.length }

def Module.callee? (module : Module) (index : UInt32) : Option (Function × FuncType) := do
  let function ← module.functions[index.toNat]?
  let type ← module.types[function.type.toNat]?
  return (function, type)

def Module.tableCallee (module : Module) (entry : UInt64) (type : UInt32) :
    Except TrapKind UInt32 :=
  match module.table[entry.toNat]? with
  | none => .error .undefinedElement
  | some index =>
    match module.functions[index.toNat]? with
    | none => .error .undefinedElement
    | some function =>
      if module.canonicalType function.type = module.canonicalType type then .ok index
      else .error .typeMismatch

/-- Runs instructions of a function from a position on, with a bound on the steps. -/
def evaluate (module : Module) (host : Host) :
    Nat → UInt32 → Nat → List Instr → State → Outcome
  | 0, _, _, _, _ => .outOfFuel
  | _ + 1, _, _, [], state => .next state
  | fuel + 1, func, position, instr :: rest, state =>
    let after := position + instr.count
    /- Runs a nested body and goes on behind the block. -/
    let nested (start : Nat) (body : List Instr) (state : State) : Outcome :=
      match evaluate module host fuel func start body (state.withStack []) with
      | .next inner | .branch 0 inner =>
        evaluate module host fuel func after rest
          (inner.leaveBlock instr.results.length state.stack)
      | .branch (depth + 1) inner => .branch depth inner
      | outcome => outcome
    /- Calls a function and goes on behind the call. -/
    let call (index : UInt32) (caller : State) : Outcome :=
      match module.callee? index with
      | none => .stuck
      | some (function, type) =>
        match evaluate module host fuel index 0 function.body
            (caller.enter function type.params.length) with
        | .next inner | .branch _ inner | .returned inner =>
          evaluate module host fuel func after rest (caller.resume inner type)
        | outcome => outcome
    match instr.op, state.stack with
    | .unreachable, _ => .trapped .unreachable func position
    | .block, _ => nested (position + 1) instr.body state
    | .loop, _ =>
      match evaluate module host fuel func (position + 1) instr.body
          (state.withStack []) with
      | .next inner =>
        evaluate module host fuel func after rest
          (inner.leaveBlock instr.results.length state.stack)
      | .branch 0 inner =>
        evaluate module host fuel func position (instr :: rest)
          (inner.withStack state.stack)
      | .branch (depth + 1) inner => .branch depth inner
      | outcome => outcome
    | .branchIf, condition :: stack =>
      let state := state.withStack stack
      if condition ≠ 0 then nested (position + 1) instr.body state
      else if instr.hasElse then
        nested (position + Instr.countAll instr.body + 2) instr.elseBody state
      else evaluate module host fuel func after rest state
    | .br, _ => .branch instr.index.toNat state
    | .brIf, condition :: stack =>
      let state := state.withStack stack
      if condition ≠ 0 then .branch instr.index.toNat state
      else evaluate module host fuel func after rest state
    | .brTable, selector :: stack =>
      let depth := instr.targets[selector.toNat]?.getD instr.default
      .branch depth.toNat (state.withStack stack)
    | .ret, _ => .returned state
    | .call, _ => call instr.index state
    | .callIndirect, entry :: stack =>
      match module.tableCallee entry instr.index with
      | .error kind => .trapped kind func position
      | .ok index => call index (state.withStack stack)
    | _, _ =>
      match state.step host instr with
      | .done state => evaluate module host fuel func after rest state
      | .trap kind => .trapped kind func position
      | .stuck => .stuck

/-- The state a module starts in: globals at their initial values and the least
memory. -/
def Module.initialState (module : Module) (host : Host) : State :=
  { globals := module.globals.map fun global => global.init.bits
    memory := { pages := if module.memory.isSome then host.minPages.toNat else 0 } }

inductive CallOutcome where
  | values (results : List UInt64) (state : State)
  | trapped (kind : TrapKind) (func : UInt32) (instr : Nat)
  | stuck
  | outOfFuel

/-- Calls a function with raw arguments. -/
def Module.invoke (module : Module) (host : Host) (fuel : Nat) (index : UInt32)
    (args : List UInt64) (state : State) : CallOutcome :=
  match module.callee? index with
  | none => .stuck
  | some (function, type) =>
    let caller := state.withStack args.reverse
    match evaluate module host fuel index 0 function.body
        (caller.enter function type.params.length) with
    | .next inner | .branch _ inner | .returned inner =>
      .values (inner.stack.take type.results.length) inner
    | .trapped kind func instr => .trapped kind func instr
    | .stuck => .stuck
    | .outOfFuel => .outOfFuel

end WasmX64
