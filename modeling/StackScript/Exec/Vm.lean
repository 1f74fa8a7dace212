import StackScript.Exec.Step

/-!
# Running modules

Tasks take turns: one runs until it returns, has to wait, or has used up its instructions, and then
the next one that is ready runs.  When none is ready, the machine waits for work of the host.

## Design Notes

A program may run forever, so the two loops take a bound on their rounds.  When it is reached, the
result is `none`, which is neither a value nor a fault; with a greater bound the run goes further.
-/

namespace StackScript

/-- How a turn ends. -/
inductive Slice where
  | finished (value : Option Value)
  | blocked (t : Task)
  /-- The task has used up its instructions. -/
  | yielded (t : Task)

/-- What running a module gives. -/
structure Execution where
  /-- What the main function gives; of an async one, what its promise gives. -/
  value : Option Value
  /-- The lines that the program has written. -/
  output : List String

namespace Run

/-- Runs instructions of a task until its turn ends; with `fuel`, a turn has that many. -/
def instructions (img : Image) : Nat → Option Nat → Task → Run (Option Slice)
  | 0, _, _ => return none
  | limit + 1, fuel, t =>
    if fuel = some 0 then return some (.yielded t)
    else do
      match ← step img t with
      | .next t => instructions img limit (fuel.map (· - 1)) t
      | .finished v => return some (.finished v)
      | .blocked t => return some (.blocked t)

/-- One turn of a task; a task that waits goes on if its promise is settled. -/
def slice (img : Image) (limit : Nat) (t : Task) : Run (Option Slice) := do
  match t.awaiting with
  | none => instructions img limit img.config.fuel t
  | some h =>
    match (← get).promises.state h with
    | .error e => throw (.promise e)
    | .ok (.resolved v) =>
      instructions img limit img.config.fuel { t with awaiting := none, stack := .i64 v :: t.stack }
    | .ok (.rejected _) => throw (.rejected h)
    | .ok .pending => return some (.blocked t)

/-- The machine after a turn of a task. -/
def afterSlice (id : Nat) : Slice → Run Unit
  | .finished v =>
    modify fun st => if st.root = some id then { st with rootResult := some v } else st
  | .blocked t => keep t
  | .yielded t => do
    keep t
    wake [id]

/-- Takes the next task that is ready. -/
def nextReady : Run (Option Nat) := do
  let st ← get
  match st.ready with
  | [] => return none
  | id :: rest =>
    set { st with ready := rest }
    return some id

/-- Waits for work of the host and settles its promise. -/
def awaitHost : Run Unit := do
  let st ← get
  match st.work.wait with
  | some (c, work) =>
    set { st with work }
    complete c
  | none => throw (.deadlock st.tasks.length)

/-- Lets tasks take turns until a goal is reached. -/
def drive (img : Image) (sliceLimit : Nat) (goal : Machine → Bool) : Nat → Run (Option Unit)
  | 0 => return none
  | limit + 1 => do
    if goal (← get) then return some ()
    else
      match ← nextReady with
      | none =>
        awaitHost
        drive img sliceLimit goal limit
      | some id =>
        match ← take id with
        | none => drive img sliceLimit goal limit
        | some t =>
          match ← slice img sliceLimit t with
          | none => return none
          | some ending =>
            afterSlice id ending
            drive img sliceLimit goal limit

/-- A run after which no result is asked for, whatever comes of it. -/
def withoutRoot {α : Type} (x : Run α) : Run α := fun st =>
  match x st with
  | .ok a st => .ok a { st with root := none }
  | .error e st => .error e { st with root := none }

/-- Calls a function in a task of its own and runs until it returns. -/
def invoke (img : Image) (limit : Nat) (index : Nat) (args : List Value) :
    Run (Option (Option Value)) := do
  let id ← spawn img index args
  modify fun st => { st with root := some id, rootResult := none }
  match ← withoutRoot (drive img limit (·.rootResult.isSome) limit) with
  | none => return none
  | some () =>
    let st ← get
    set { st with rootResult := none }
    return some (st.rootResult.getD none)

/-- Whether a promise is settled; an unknown one counts as settled. -/
def isSettled (h : PromiseHandle) (st : Machine) : Bool :=
  match st.promises.state h with
  | .ok s => s.isSettled
  | .error _ => true

/-- Runs until a promise is settled; gives its value. -/
def settled (img : Image) (limit : Nat) (h : PromiseHandle) : Run (Option (BitVec 64)) := do
  match ← drive img limit (isSettled h) limit with
  | none => return none
  | some () =>
    let st ← get
    match st.promises.state h with
    | .error e => throw (.promise e)
    | .ok (.resolved v) => return some v
    | .ok (.rejected _) => throw (.rejected h)
    | .ok .pending => throw (.deadlock st.tasks.length)

/-- Fails unless every declared host function is provided. -/
def link (img : Image) : Run Unit := do
  let host := (← get).host
  match (img.source.imports.drop HostImport.all.length).find? (!host.provides ·.name) with
  | some i => throw (.link i.name)
  | none => return ()

/-- Runs the main function and waits for its promise if it is async. -/
def mainValue (img : Image) (limit : Nat) (e : Entry) : Run (Option (Option Value)) := do
  match ← invoke img limit e.function.toNat [] with
  | none => return none
  | some value =>
    if e.isAsync then
      match value with
      | none => throw .stackUnderflow
      | some v =>
        let h ← ofExcept v.toI32
        match ← settled img limit ⟨h.toNat⟩ with
        | none => return none
        | some bits => return some (e.result.map (Value.ofPayload bits))
    else return some value

/-- Takes the output. -/
def takeOutput : Run (List String) := do
  let st ← get
  set { st with host := { st.host with output := #[] } }
  return st.host.output.toList

/-- Runs the top-level statements and then the main function. -/
def entry (img : Image) (limit : Nat) : Run (Option Execution) := do
  link img
  modify fun st => { st with status := .running }
  let started ←
    match img.source.start with
    | none => pure (some none)
    | some index => invoke img limit index.toNat []
  if started.isNone then return none
  else
    let value ←
      match img.source.main with
      | none => pure (some none)
      | some e => mainValue img limit e
    match value with
    | none => return none
    | some value => return some ⟨value, ← takeOutput⟩

/-- A run after which the machine shows how it ended. -/
def withStatus {α : Type} (x : Run (Option α)) : Run (Option α) := fun st =>
  match x st with
  | .ok (some a) st => .ok (some a) { st with status := .finished }
  | .ok none st => .ok none st
  | .error e st => .error e { st with status := .failed }

end Run

/-- A loaded module with its machine. -/
structure Vm where
  image : Image
  machine : Machine

namespace Vm

/-- Loads a module, with the files that its program can reach. -/
def ofModule (m : Module) (config : RunConfig) (files : Directory) : Except Fault Vm := do
  let image ← Image.ofModule m config
  let memory ← Memory.ofModule m config.maxMemoryPages.toNat
  return ⟨image, { memory, work := { directory := files } }⟩

/-- The result of a step and the machine after it. -/
def perform {α : Type} (vm : Vm) (x : Run α) : Except Fault α × Vm :=
  match x vm.machine with
  | .ok a machine => (.ok a, { vm with machine })
  | .error e machine => (.error e, { vm with machine })

/-- Provides a declared host function. -/
def register (vm : Vm) (name : String) (f : HostFunction) : Vm :=
  { vm with machine := { vm.machine with host := vm.machine.host.register name f } }

/-- Runs the module. -/
def run (vm : Vm) (limit : Nat) : Except Fault (Option Execution) × Vm :=
  vm.perform (Run.withStatus (Run.entry vm.image limit))

/-- Calls a function by its name for callers from outside. -/
def call (vm : Vm) (limit : Nat) (name : String) (args : List Value) : Except Fault (Option (Option Value)) × Vm :=
  vm.perform do
    Run.link vm.image
    match vm.image.source.export? name with
    | none => throw (.unknownExport name)
    | some index => Run.invoke vm.image limit index args

/-- Runs until a promise is settled; gives its value. -/
def settle (vm : Vm) (limit : Nat) (h : PromiseHandle) : Except Fault (Option (BitVec 64)) × Vm :=
  vm.perform (Run.settled vm.image limit h)

/-- The text of a string object. -/
def readString (vm : Vm) (ptr : BitVec 32) : Except Fault String :=
  match Memory.readStr ptr vm.machine.memory with
  | .ok bytes _ => .ok (Utf8.decodeLossy bytes)
  | .error e _ => .error e

/-- Bytes of the memory. -/
def readBytes (vm : Vm) (addr len : Nat) : Except Fault (List UInt8) :=
  match Memory.read addr len vm.machine.memory with
  | .ok bytes _ => .ok bytes
  | .error e _ => .error e

/-- Takes the output. -/
def takeOutput (vm : Vm) : List String × Vm :=
  (vm.machine.host.output.toList,
    { vm with machine := { vm.machine with host := { vm.machine.host with output := #[] } } })

end Vm

end StackScript
