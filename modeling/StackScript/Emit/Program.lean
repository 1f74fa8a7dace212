import StackScript.Emit.Body
import StackScript.Emit.Intrinsics
import StackScript.Typed.Facts

/-!
# Emitting programs

A checked program as a module.

## Design Notes

Functions are numbered in this order: functions of the host, declared host functions, functions and
methods in order of declaration, the three functions of every module, the top-level statements, and
then function literals and named functions used as values, as they are found.  An async function is
two: the first starts the second as a task and gives the task's promise, and the second settles it.
-/

namespace StackScript

namespace Plan

/-- A function of the program with its number, and the table slot of its task if it is async. -/
structure Placed where
  routine : Typed.Routine
  index : Nat
  slot : Nat

/-- Numbers functions from a number and a table slot on. -/
def number : Nat → Nat → List Typed.Routine → List Placed
  | _, _, [] => []
  | i, slot, r :: rest =>
    ⟨r, i, slot⟩ ::
      if r.sig.isAsync then number (i + 2) (slot + 1) rest else number (i + 1) slot rest

/-- The declared host functions. -/
def externalSigs (symbols : SymbolTable) : List FunctionSig :=
  symbols.functions.filter (·.kind = .external)

/-- All imports. -/
def imports (symbols : SymbolTable) : List Import :=
  HostImport.imports ++ (externalSigs symbols).map fun sig =>
    { provider := HostImport.provider
      name := sig.name
      ty := .of (sig.params.map Ty.slotType) sig.ret.valType? }

/-- The functions of a program with their numbers. -/
def placed (p : Typed.Program) : List Placed :=
  number (imports p.symbols).length 0 p.routines

/-- The table slots of async functions, in order. -/
def entries (fs : List Placed) : List Nat :=
  (fs.filter (·.routine.sig.isAsync)).map (·.index + 1)

/-- The number of the first function after those of the program. -/
def afterRoutines (p : Typed.Program) : Nat :=
  let fs := placed p
  (imports p.symbols).length + fs.length + (entries fs).length

/-- The methods of numbered functions. -/
def methodTable (fs : List Placed) : MethodTable :=
  fs.foldl (fun t f =>
    match f.routine.owner with
    | some (struct, slot) => t.insert struct slot f.index
    | none => t) .empty

/-- The numbers of all functions that are known in advance. -/
def ofProgram (p : Typed.Program) (config : CompileConfig) : Plan :=
  let fs := placed p
  let next := afterRoutines p
  { symbols := p.symbols
    externals := (externalSigs p.symbols).mapIdx fun i sig =>
      (sig.name, HostImport.imports.length + i)
    direct := fs.filterMap fun f =>
      if f.routine.owner.isNone then some (f.routine.sig.name, f.index) else none
    methods := methodTable fs
    strConcat := next
    strEq := next + 1
    arrayGrow := next + 2
    arrayCapacity := config.arrayCapacity.toNat }

/-- Whether the numbers of all functions that are known in advance have 32 bits. -/
def fits (p : Typed.Program) : Bool :=
  afterRoutines p + Intrinsic.all.length ≤ Layout.addressLimit

/-- The number of the function with the top-level statements. -/
def scriptIndex (p : Typed.Program) : Option Nat :=
  if p.script.isEmpty then none else some (afterRoutines p + Intrinsic.all.length)

/-- The state before anything is emitted. -/
def initialState (p : Typed.Program) (config : CompileConfig) : Emit.State :=
  { data := .ofBase config.dataBase.toNat
    types := []
    table := entries (placed p)
    nextFunction :=
      afterRoutines p + Intrinsic.all.length + (if p.script.isEmpty then 0 else 1)
    jobs := []
    strings := []
    units := []
    thunks := []
    locals := []
    places := [] }

end Plan

namespace Emit

/-- Emits a function with locals of its own. -/
def function (name : String) (params : List ValType) (ret : Option ValType)
    (exported : Option String) (body : Emit (List Code)) : Emit Function := do
  modify fun st => { st with locals := [], places := [] }
  let code ← body
  return {
    name
    ty := .of params ret
    locals := (← get).locals
    body := Code.flatList code ++ [.end_]
    export_ := exported }

/-- Keeps parameters in the locals from a number on. -/
def bindParams : Nat → List Variable → Emit Unit
  | _, [] => return ()
  | i, v :: vs => do
    bindLocal v i
    bindParams (i + 1) vs

/-- Ends a body that has to leave with a value: the end is not reached. -/
def guardEnd (ret : Option ValType) : List Code :=
  if ret.isSome then [.op .unreachable] else []

/-- A site at the start of a function. -/
def site (plan : Plan) (paramCount : Nat) (captures : List Variable) (ret : ReturnMode) : Site :=
  { plan, paramCount, captures, ret, labels := [] }

/-! ### Functions of the program -/

/-- The name of a function for callers from outside. -/
def exportName (config : CompileConfig) (r : Typed.Routine) : Option String :=
  if r.sig.isExport || r.sig.name = "main" || config.exportAll then some r.fullName else none

/-- Copies parameters to an environment in a local. -/
def packParams (env : Nat) (slots : List ValType) : List Op :=
  (slots.mapIdx fun i ty => [.get env, .get i, .write (.ofVal ty) (Layout.word * i)]).flatten

/-- The function that starts a task and gives its promise. -/
def starter (plan : Plan) (f : Plan.Placed) (slots : List ValType) : Emit (List Code) := do
  let s := site plan slots.length [] .direct
  let (env, packing) ←
    if slots.isEmpty then pure (Op.const 0, [])
    else do
      let (env, allocation) ← alloc s (Layout.word * slots.length)
      pure (Op.get env, allocation ++ packParams env slots)
  return Code.ops (packing ++ [.const f.slot, env, .host .taskSpawn])

/-- Takes parameters out of the environment, which is the second parameter, from a slot on. -/
def unpackParams (s : Site) : Nat → List (Variable × ValType) → Emit (List Op)
  | _, [] => return []
  | slot, (v, ty) :: rest => do
    let i ← newLocal s ty
    bindLocal v i
    return [.get 1, .read (.ofVal ty) (Layout.word * slot), .set i]
      ++ (← unpackParams s (slot + 1) rest)

/-- The function that runs as the task and settles the promise. -/
def entry (plan : Plan) (r : Typed.Routine) (slots : List ValType) : Emit (List Code) := do
  let value := r.sig.ret.valType?
  let s := site plan 2 [] (.resolve value)
  let unpacking ← unpackParams s 0 (r.params.zip slots)
  let body ← stmts s r.body
  let leave ← if value.isSome then pure [.unreachable] else returnOps s
  return Code.ops unpacking ++ body ++ Code.ops leave

/-- The functions of a function or method. -/
def routine (plan : Plan) (config : CompileConfig) (f : Plan.Placed) : Emit (List Function) := do
  let r := f.routine
  let slots := r.sig.params.map Ty.slotType
  let exported := exportName config r
  if r.sig.isAsync then
    let first ← function r.fullName slots (some .i32) exported (starter plan f slots)
    let second ← function (r.fullName ++ "$entry") [.i32, .i32] none none (entry plan r slots)
    return [first, second]
  else
    let ret := r.sig.ret.valType?
    let only ← function r.fullName slots ret exported do
      bindParams 0 r.params
      return (← stmts (site plan slots.length [] .direct) r.body) ++ guardEnd ret
    return [only]

/-- The functions of all functions and methods. -/
def routines (plan : Plan) (config : CompileConfig) : List Plan.Placed → Emit (List Function)
  | [] => return []
  | f :: fs => do
    let first ← routine plan config f
    return first ++ (← routines plan config fs)

/-- The function with the top-level statements. -/
def script (plan : Plan) (ss : List Typed.Stmt) : Emit (List Function) := do
  if ss.isEmpty then return []
  else
    return [← function "_start" [] none (some "_start") (stmts (site plan 0 [] .direct) ss)]

/-! ### Functions found on the way -/

/-- The body of a function literal. -/
def literalBody (s : Site) (ret : Option ValType) : Typed.Body → Emit (List Code)
  | .expr e => do
    let code ← expr s e
    if e.ty = .never then return code ++ guardEnd ret
    else if ret.isNone && e.ty.valType?.isSome then return code ++ [.op .drop]
    else return code
  | .block ss => do
    return (← stmts s ss) ++ guardEnd ret

/-- The number of a named function. -/
def namedIndex (plan : Plan) (sig : FunctionSig) : Emit Nat :=
  orDefect (.unknownFunction sig.name)
    ((if sig.kind = .external then plan.externals else plan.direct).lookup sig.name)

/-- The function of a job. -/
def job (plan : Plan) : Job → Emit Function
  | .lambda id ty params captures body =>
    match ty with
    | .fn paramTys ret =>
      let slots := .i32 :: paramTys.map Ty.slotType
      let name := "lambda$" ++ toString id
      function name slots ret.valType? none do
        bindParams 1 params
        literalBody (site plan slots.length captures .direct) ret.valType? body
    | ty => throw (.lambdaType ty)
  | .thunk sig => do
    let slots := .i32 :: sig.params.map Ty.slotType
    let name := sig.name ++ "$thunk"
    function name slots sig.effectiveRet.valType? none do
      let target ← namedIndex plan sig
      return Code.ops ((List.range sig.params.length).map (fun i => .get (i + 1))
        ++ [.callFn target])

/-- The functions of all jobs, those that are found meanwhile included. -/
def drain (plan : Plan) : Nat → Emit (List Function)
  | 0 => throw .endless
  | fuel + 1 => do
    let st ← get
    match st.jobs with
    | [] => return []
    | j :: rest =>
      set { st with jobs := rest }
      let f ← job plan j
      return f :: (← drain plan fuel)

/-- All functions of a program. -/
def functions (plan : Plan) (config : CompileConfig) (p : Typed.Program) :
    Emit (List Function) := do
  let own ← routines plan config (Plan.placed p)
  let top ← script plan p.script
  let found ← drain plan (p.facts.length + p.symbols.functions.length + 1)
  return own ++ Intrinsic.all ++ top ++ found

end Emit

namespace Typed.Program

/-- How to run the main function. -/
def mainEntry (p : Typed.Program) (plan : Plan) : Option Entry := do
  let sig ← p.symbols.function? "main"
  if sig.kind = .user then
    let index ← plan.direct.lookup "main"
    some ⟨index.toUInt32, sig.isAsync, sig.ret.valType?⟩
  else none

/-- The least number of pages for memory up to an address. -/
def pagesFor (stop : Nat) : Nat :=
  max ((stop + pageSize - 1) / pageSize) 1

/-- Whether functions behind a number of imports, and types of indirect calls, have numbers of 32 bits,
and the locals and instructions of every function do too. -/
def numbersFit (imports : Nat) (functions : List Function) (types : List FuncType) : Bool :=
  imports + functions.length ≤ Layout.addressLimit && types.length ≤ Layout.addressLimit &&
    functions.all fun f => f.ty.params.length + f.locals.length ≤ Layout.addressLimit &&
      f.body.length ≤ Layout.addressLimit

/-- A checked program as a module. -/
def emit (p : Typed.Program) (config : CompileConfig) : Except Defect Module := do
  let plan := Plan.ofProgram p config
  if !Plan.fits p then throw .tooLarge
  let (functions, st) ← (Emit.functions plan config p).run (Plan.initialState p config)
  if st.data.stop < Layout.addressLimit &&
      numbersFit (Plan.imports p.symbols).length functions st.types then
    return {
      types := st.types
      imports := Plan.imports p.symbols
      functions
      table := st.table.map (·.toUInt32)
      data := st.data.segments.map fun (addr, bytes) => ⟨addr.toUInt32, bytes⟩
      minPages := (max config.memoryPages.toNat (pagesFor st.data.stop)).toUInt32
      heapBase := st.data.stop.toUInt32
      start := (Plan.scriptIndex p).map (·.toUInt32)
      main := p.mainEntry plan }
  else throw .tooLarge

end Typed.Program

end StackScript
