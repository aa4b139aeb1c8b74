import Gobstones.Check.Basic
import Gobstones.Native.Frame
import Gobstones.Native.Inline
/-!
# Native code of programs

This module generates native code for a program and for every module that it links
to.  The code consists of an entry stub, the routines, and the fault stubs.  The
entry stub takes the board in {lit}`rdi` and the result buffer in {lit}`rsi`.

While routines run, {lit}`r15` points to the result buffer, {lit}`rsi` keeps the stack
pointer of the entry stub, and {lit}`rdi` points right above the returned values.

Main definitions:

- {lit}`Program.modules`: a program and the modules behind it.
- {lit}`RoutineCompiler.code`: the code of the instructions of a routine.
- {lit}`compile`: the native code of a program.
-/

namespace Gobstones

/-- Add a program and the modules behind it to a list of programs, each module name once
and the program in front of its links. -/
def Program.modulesFrom (program : Program) (found : List Program) : List Program :=
  if found.any (·.moduleName = program.moduleName) then found
  else
    program.links.attach.foldl
      (fun (found : List Program) (link : { l // l ∈ program.links }) =>
        have : sizeOf link.val.target < sizeOf program := Program.sizeOf_target_lt link.property
        link.val.target.modulesFrom found)
      (found ++ [program])
termination_by sizeOf program

/-- A program and the modules behind it, the program first. -/
def Program.modules (program : Program) : List Program :=
  program.modulesFrom []

namespace Native

/-! ## Results -/

/-- The type suffix of a returned variable, which has to be that of a scalar. -/
def resultType (name : String) : Except NativeError ValueType :=
  match (Polyname.type? name).bind ValueType.ofName? with
  | some .tuple => .error (.untypedResult name)
  | some type => .ok type
  | none => .error (.untypedResult name)

/-- The names and types of returned variables. -/
def resultTypes (names : List String) : Except NativeError (List (String × ValueType)) :=
  names.mapM fun name => (resultType name).map (Polyname.base name, ·)

/-- The names of the variables that the first return of variables lists. -/
def returnedNames (routine : Routine) : List String :=
  (routine.code.toList.findSome? fun
    | .returnVars _ names => some names
    | _ => none).getD []

/-! ## Routines -/

/-- The labels of the compiled routines, each under its module and its name. -/
abbrev RoutineLabels := List ((String × String) × Label)

/-- What the code of a routine depends on. -/
structure RoutineCompiler where
  program : Program
  routine : Routine
  layout : FrameLayout
  routines : RoutineLabels
  labels : List (String × Label)

/-- The place of a returned value after the callee has left. -/
def returnedValue (i : Nat) : Except NativeError Memory :=
  (wordOffset (min (i + 1) maxWords)).map fun disp => ⟨.rdi, -disp⟩

/-- Take as many words off the stack. -/
def dropWords (n : Nat) : Except NativeError (List Instr) :=
  if n = 0 then .ok [] else (wordOffset n).map fun disp => [.aluImm .add .rsp disp]

/-- Push a word. -/
def pushWord (word : Int64) : List Instr :=
  if word.toInt32.toInt64 = word then [.pushImm word.toInt32] else [.movImm .rax word, .push .rax]

/-- Compare {lit}`rax` with a word. -/
def compareWord (word : Int64) : List Instr :=
  if word.toInt32.toInt64 = word then [.aluImm .cmp .rax word.toInt32]
  else [.movImm .rcx word, .alu .cmp .rax .rcx]

/-- Leave a frame. -/
def epilogue : List Instr :=
  [.mov .rsp .rbp, .pop .rbp, .ret]

/-- Put the number of bytes of all cells into {lit}`rax`. -/
def snapshotSize : List Instr :=
  [.mov .rax .r13, .imul .rax .r14, .shl .rax 4]

/-- Copy from {lit}`rdx` to {lit}`r9` while a cursor stays below {lit}`r10`. -/
def copyLoop (cursor : Register) (top done : Label) : List Instr :=
  [.bind top, .alu .cmp cursor .r10, .jcc .ae done, .load .rcx (deref .rdx),
    .store (deref .r9) .rcx, .aluImm .add .rdx 8, .aluImm .add .r9 8, .jmp top, .bind done]

/-- Save the cells and the head on the stack. -/
def enterCode (top done : Label) : List Instr :=
  snapshotSize ++
  [.alu .sub .rsp .rax, .mov .rdx .rbx, .mov .r9 .rsp, .mov .r10 .rbx, .alu .add .r10 .rax] ++
  copyLoop .rdx top done ++ [.push .r11, .push .r12]

/-- Restore the cells and the head from the stack. -/
def leaveCode (top done : Label) : List Instr :=
  [.pop .r12, .pop .r11] ++ snapshotSize ++
  [.mov .rdx .rsp, .mov .r9 .rbx, .mov .r10 .rbx, .alu .add .r10 .rax] ++
  copyLoop .r9 top done

/-- Open a frame with local variables that have no value. -/
def prologue (start : Label) (locals : Nat) : List Instr :=
  [.bind start, .push .rbp, .mov .rbp .rsp] ++
    if locals = 0 then [] else .movImm .rax sentinel :: List.replicate locals (.push .rax)

namespace RoutineCompiler

/-- The word of a literal, which must not be a tuple. -/
def constantWord (value : Value) : Except NativeError Int64 :=
  match value.toWord? with
  | some word => .ok word
  | none => .error (.unsupported (.tupleConstant value))

/-- The label of a jump. -/
def jumpLabel (rc : RoutineCompiler) (name : String) : Except NativeError Label :=
  match rc.labels.lookup name with
  | some label => .ok label
  | none => .error (.unsupported (.unknownLabel name))

/-- Emit a jump to the stub of a failure. -/
def failWith (em : Emitter) (cause : FaultCause) : Emitter :=
  let (label, em) := em.fault cause.message
  em.emit (.jmp label)

/-- Push the value of a variable, which must have one. -/
def pushVariable (rc : RoutineCompiler) (em : Emitter) (name : String) :
    Except NativeError Emitter := do
  let memory ← rc.layout.memory name
  let (fault, em) := em.fault (FaultCause.uninitialized name).message
  return em.emitAll
    [.load .rax memory, .movImm .rcx sentinel, .alu .cmp .rax .rcx, .jcc .e fault, .push .rax]

/-- Leave {lit}`n` values right below {lit}`rdi` and return. -/
def returnValues (em : Emitter) (n : Nat) : Except NativeError Emitter := do
  return em.emitAll ((← dropWords n) ++ .mov .rdi .rsp :: epilogue)

/-- Leave {lit}`n` values right below {lit}`rdi`, restore the board, and return. -/
def leaveAndReturn (em : Emitter) (n : Nat) : Except NativeError Emitter := do
  let drop ← dropWords n
  let (top, em) := em.fresh
  let (done, em) := em.fresh
  return em.emitAll (drop ++ .mov .rdi .rsp :: leaveCode top done ++ epilogue)

/-- Save the board. -/
def enter (em : Emitter) : Emitter :=
  let (top, em) := em.fresh
  let (done, em) := em.fresh
  em.emitAll (enterCode top done)

/-- Push the first {lit}`n` returned values. -/
def pushResults (n : Nat) : Except NativeError (List Instr) :=
  if frameLimit ≤ n then .error (.frameTooLarge frameLimit)
  else (List.range n).mapM fun i => (returnedValue i).map .pushMem

/-- Call a compiled routine, drop its arguments and push its results. -/
def callRoutine (rc : RoutineCompiler) (em : Emitter) (program : Program) (callee : Routine)
    (argc : Nat) : Except NativeError Emitter :=
  if callee.arity ≠ argc then
    .ok (failWith em (.wrongArity callee.kind callee.name callee.params argc))
  else
    match rc.routines.lookup (program.moduleName, callee.name) with
    | none => .error (.unsupported (.notCompiled callee.name program.moduleName))
    | some label => do
      let drop ← dropWords argc
      let results ← pushResults callee.resultCount
      return em.emitAll (.call label :: drop ++ results)

/-- Emit a builtin in line. -/
def inlineBuiltin (em : Emitter) (name : String) : Except NativeError Emitter :=
  match em.builtin? name with
  | some em => .ok em
  | none =>
    if name ∈ Builtin.typedInstances.map (·.1.name) then .error (.unsupported (.untypedBuiltin name))
    else .error (.unsupported (.noInlineCode name))

/-- Call what a name stands for. -/
def call (rc : RoutineCompiler) (em : Emitter) (name : String) (argc : Nat) :
    Except NativeError Emitter :=
  match rc.program.resolve? name with
  | none => .ok (failWith em (.undefinedRoutine name))
  | some (.builtin builtin) =>
    if builtin.arity ≠ argc then
      .ok (failWith em (.wrongArity builtin.kind builtin.name builtin.params argc))
    else inlineBuiltin em builtin.name
  | some (.own callee) => rc.callRoutine em rc.program callee argc
  | some (.external program callee) => rc.callRoutine em program callee argc

/-- Jump unless the value on top of the stack is one of the words. -/
def jumpUnlessListed (words : List Int64) (matched target : Label) : List Instr :=
  .pop .rax :: words.flatMap (fun word => compareWord word ++ [.jcc .e matched]) ++
    [.jmp target, .bind matched]

/-- Emit one instruction of a routine. -/
def instruction (rc : RoutineCompiler) (em : Emitter) : Instruction → Except NativeError Emitter
  | .pushConst value => do
    let word ← constantWord value
    if word = sentinel then .error (.unsupported (.reservedInteger value))
    else return em.emitAll (pushWord word)
  | .pushFrom name => rc.pushVariable em name
  | .popTo name => do return em.emit (.popMem (← rc.layout.memory name))
  | .delVar name => do
    let memory ← rc.layout.memory name
    return em.emitAll [.movImm .rax sentinel, .store memory .rax]
  | .setImmutable _ | .unsetImmutable _ => .ok em
  | .label name => do return em.emit (.bind (← rc.jumpLabel name))
  | .jump name => do return em.emit (.jmp (← rc.jumpLabel name))
  | .jumpIfFalse name => do
    let label ← rc.jumpLabel name
    return em.emitAll [.pop .rax, .test .rax .rax, .jcc .e label]
  | .jumpIfNotIn values name => do
    let target ← rc.jumpLabel name
    let words ← values.mapM constantWord
    let (matched, em) := em.fresh
    return em.emitAll (jumpUnlessListed words matched target)
  | .raise message => .ok (failWith em (.thrown message))
  | .call name argc => rc.call em name argc
  | .ret n => returnValues em n
  | .returnVars n names => do
    let em ← names.foldlM (fun em name => rc.pushVariable em (Polyname.base name)) em
    returnValues em n
  | .enter => .ok (enter em)
  | .leave => .error (.unsupported (.leaveWithoutReturn rc.routine.kind rc.routine.name))

/-- Emit the instructions of a routine.  The end of a transaction and the return after it
make one piece of code. -/
def code (rc : RoutineCompiler) (em : Emitter) : List Instruction → Except NativeError Emitter
  | [] => .ok em
  | .leave :: .ret n :: rest => do rc.code (← leaveAndReturn em n) rest
  | first :: rest => do rc.code (← rc.instruction em first) rest

end RoutineCompiler

/-- Hand out labels for the labels of a routine. -/
def codeLabels (em : Emitter) (labels : List (String × Label)) :
    List Instruction → List (String × Label) × Emitter
  | [] => (labels, em)
  | .label name :: rest =>
    let (label, em) := em.fresh
    codeLabels em ((name, label) :: labels) rest
  | _ :: rest => codeLabels em labels rest

/-- Emit a routine of a program at its label. -/
def emitRoutine (routines : RoutineLabels) (program : Program) (em : Emitter) (routine : Routine) :
    Except NativeError Emitter := do
  let start := (routines.lookup (program.moduleName, routine.name)).getD 0
  let (labels, em) := codeLabels em [] routine.code.toList
  let layout := FrameLayout.ofRoutine routine
  let rc : RoutineCompiler := { program, routine, layout, routines, labels }
  let em ← rc.code (em.emitAll (prologue start layout.locals)) routine.code.toList
  return RoutineCompiler.failWith em (.ranOff routine.kind routine.name)

/-! ## Programs -/

/-- Hand out labels for the routines of a program. -/
def routineLabels (moduleName : String) (em : Emitter) (found : RoutineLabels) :
    List Routine → RoutineLabels × Emitter
  | [] => (found, em)
  | routine :: rest =>
    let (label, em) := em.fresh
    routineLabels moduleName em (((moduleName, routine.name), label) :: found) rest

/-- Hand out labels for the routines of several programs. -/
def moduleLabels (em : Emitter) (found : RoutineLabels) : List Program → RoutineLabels × Emitter
  | [] => (found, em)
  | program :: rest =>
    let (found, em) := routineLabels program.moduleName em found program.routines
    moduleLabels em found rest

/-- Copy the first {lit}`n` returned values into the result buffer. -/
def copyResults (n : Nat) : Except NativeError (List Instr) := do
  let copies ← (List.range n).mapM fun i => do
    let source ← returnedValue i
    let disp ← wordOffset i
    return [Instr.load .rax source, .store ⟨.r15, disp⟩ .rax]
  return copies.flatten

/-- The entry stub: save the registers of the host, set up the registers of routines, call
the entrypoint, and store its results and the head. -/
def entryStub (entry : Label) (copies : List Instr) : List Instr :=
  saveHostRegisters ++
  [.mov .r15 .rsi, .mov .rsi .rsp, .load32 .r13 (memAt .rdi 0), .load32 .r14 (memAt .rdi 4),
    .load32 .r11 (memAt .rdi 8), .load32 .r12 (memAt .rdi 12), .lea .rbx (memAt .rdi 16),
    .call entry] ++ copies ++
  [.store32 (memAt .rbx (-8)) .r11, .store32 (memAt .rbx (-4)) .r12, .alu .xor .rax .rax] ++
  restoreHostRegisters ++ [.ret]

/-- Native code with the names and types of its results. -/
structure NativeCode where
  instrs : Array Instr
  labels : Nat
  linked : LinkedCode
  results : List (String × ValueType)

namespace NativeCode

/-- The offset of the entry stub. -/
def entry (_code : NativeCode) : Nat :=
  0

end NativeCode

/-- Check that a module is fit for native code. -/
def checkLayout (program : Program) : Except NativeError Unit :=
  if program.layoutProblems.isEmpty then .ok () else .error (.rejected program.layoutProblems)

/-- Emit the routines of a program. -/
def emitRoutines (routines : RoutineLabels) (em : Emitter) (program : Program) :
    Except NativeError Emitter :=
  program.routines.foldlM (emitRoutine routines program) em

/-- Emit the whole code of a program whose execution starts at {lit}`entry`. -/
def emitProgram (program : Program) (entry : Routine) (results : Nat) :
    Except NativeError Emitter := do
  let modules := program.modules
  let (routines, em) := moduleLabels .empty [] modules
  match routines.lookup (program.moduleName, entry.name) with
  | none => throw .noEntrypoint
  | some label =>
    let em := em.emitAll (entryStub label (← copyResults results))
    let em ← modules.foldlM (emitRoutines routines) em
    return em.placeStubs

/-- The native code of a program and of everything that it can call. -/
def compile (program : Program) : Except NativeError NativeCode :=
  match program.entrypoint? with
  | none => .error .noEntrypoint
  | some entry => do
    let results ← resultTypes (returnedNames entry)
    program.modules.forM checkLayout
    let em ← emitProgram program entry results.length
    match em.link with
    | .error e => throw (.link e)
    | .ok linked =>
      return { instrs := em.instrs, labels := em.labels, linked, results }

end Native
end Gobstones
