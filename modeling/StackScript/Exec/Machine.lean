import StackScript.Exec.Memory
import StackScript.Exec.Task
import StackScript.Host.External
import StackScript.Host.Import
import StackScript.Host.Work
import StackScript.Number.Shortest

/-!
# Machines

The state of a running module, and the functions of the host that act on it.

## Design Notes

A step that fails keeps what it did before.
-/

namespace StackScript

/-- How far a module has come. -/
inductive Status where
  | ready | running | finished | failed
  deriving DecidableEq, Repr

/-- The state of a running module. -/
structure Machine where
  memory : Memory
  /-- Promises, with the numbers of the tasks that wait. -/
  promises : PromiseRegistry Nat := {}
  /-- Tasks that are not running at the moment. -/
  tasks : List Task := []
  /-- The numbers of tasks that can go on, in order. -/
  ready : List Nat := []
  nextTask : Nat := 1
  /-- The task whose result is asked for. -/
  root : Option Nat := none
  /-- The result of that task, once it is there. -/
  rootResult : Option (Option Value) := none
  work : HostWork := {}
  host : Host := {}
  status : Status := .ready

/-- A step on a machine. -/
abbrev Run := EStateM Fault Machine

namespace Run

/-- Fails as a computation does. -/
@[inline]
def ofExcept {α : Type} : Except Fault α → Run α
  | .ok a => pure a
  | .error e => throw e

/-- A step on the memory. -/
@[inline]
def onMemory {α : Type} (x : Memory.Action α) : Run α := fun st =>
  let memory := st.memory
  let st := { st with memory := .empty }
  match x memory with
  | .ok a memory => .ok a { st with memory }
  | .error e memory => .error e { st with memory }

/-- A new promise. -/
def createPromise : Run PromiseHandle := do
  let st ← get
  let (h, promises) := st.promises.create
  set { st with promises }
  return h

/-- Lets tasks go on, in order. -/
def wake (ids : List Nat) : Run Unit :=
  modify fun st => { st with ready := st.ready ++ ids }

/-- Settles a promise and lets those who wait go on. -/
def settle (h : PromiseHandle) (s : PromiseState) : Run Unit := do
  let st ← get
  match st.promises.settle h s with
  | .error e => throw (.promise e)
  | .ok (waiters, promises) =>
    set { st with promises }
    wake waiters

/-- Adds a task to those that are not running. -/
def keep (t : Task) : Run Unit :=
  modify fun st => { st with tasks := t :: st.tasks }

/-- Takes a task out of those that are not running. -/
def take (id : Nat) : Run (Option Task) := do
  let st ← get
  match st.tasks.find? (·.id = id) with
  | none => return none
  | some t =>
    set { st with tasks := st.tasks.eraseP (·.id = id) }
    return some t

/-- A new task that calls a function, ready to run. -/
def spawn (img : Image) (index : Nat) (args : List Value) : Run Nat := do
  let id := (← get).nextTask
  modify fun st => { st with nextTask := id + 1 }
  let t ← ofExcept ((Task.ofArgs id args).enter img index)
  keep t
  wake [id]
  return id

/-! ### Functions of the host -/

/-- What a function of the host does to its caller. -/
inductive Reply where
  | value (v : Option Value)
  /-- The caller has to wait. -/
  | suspend (h : PromiseHandle)

/-- The argument at a place. -/
def argument (args : List Value) (i : Nat) : Run Value :=
  match args[i]? with
  | some v => pure v
  | none => throw .stackUnderflow

/-- The argument at a place, as a number of 32 bits. -/
def argI32 (args : List Value) (i : Nat) : Run (BitVec 32) := do
  ofExcept (← argument args i).toI32

/-- The argument at a place, as a number of 64 bits. -/
def argI64 (args : List Value) (i : Nat) : Run (BitVec 64) := do
  ofExcept (← argument args i).toI64

/-- The bytes that two arguments, address and length, name. -/
def argBytes (args : List Value) (i : Nat) : Run (List UInt8) := do
  let ptr ← argument args i
  let len ← argument args (i + 1)
  let ptr ← ofExcept ptr.toI32
  let len ← ofExcept len.toI32
  onMemory (Memory.read ptr.toNat len.toNat)

/-- The text that two arguments, address and length, name. -/
def argText (args : List Value) (i : Nat) : Run String := do
  return Utf8.decodeLossy (← argBytes args i)

/-- The promise that an argument names. -/
def argPromise (args : List Value) (i : Nat) : Run PromiseHandle := do
  return ⟨(← argI32 args i).toNat⟩

/-- A number as a value of 32 bits. -/
def ofNat (n : Nat) : Value :=
  .i32 (BitVec.ofNat 32 n)

/-- A new string object. -/
def textValue (text : String) : Run Value := do
  return ofNat (← onMemory (Memory.allocStr (Utf8.encode text)))

/-- Asks for work; gives its promise. -/
def submit (r : Request) : Run Value := do
  let h ← createPromise
  modify fun st => { st with work := st.work.submit h r }
  return ofNat h.number

/-- Waits for a promise on behalf of a task. -/
def awaitPromise (task : Nat) (h : PromiseHandle) : Run Reply := do
  let st ← get
  match st.promises.wait h task with
  | .error e => throw (.promise e)
  | .ok (some (.resolved value), _) => return .value (some (.i64 value))
  | .ok (some (.rejected _), _) => throw (.rejected h)
  | .ok (_, promises) =>
    set { st with promises }
    return .suspend h

/-- A reply with a value. -/
def give (x : Run Value) : Run Reply := do
  return .value (some (← x))

/-- A reply without a value. -/
def finish (x : Run Unit) : Run Reply := do
  x
  return .value none

/-- A call of a function of the host. -/
def hostCall (img : Image) (task : Nat) (args : List Value) : HostImport → Run Reply
  | .log => finish do
    let line ← argText args 0
    if img.config.captureOutput then
      modify fun st => { st with host := st.host.log line }
  | .alloc => give do
    let size ← argI32 args 0
    return ofNat (← onMemory (Memory.alloc size.toNat))
  | .httpGet => give do
    let url ← argText args 0
    submit (.httpGet url)
  | .httpPost => give do
    let url ← argText args 0
    let body ← argBytes args 2
    submit (.httpPost url body)
  | .fileRead => give do
    let path ← argText args 0
    submit (.readFile path)
  | .fileWrite => give do
    let path ← argText args 0
    let contents ← argBytes args 2
    submit (.writeFile path contents)
  | .timerSchedule => give do
    let ms ← argI32 args 0
    let now := (← get).work.clock
    submit (.sleep (now + ms.toInt.toNat))
  | .taskSpawn => give do
    let slot ← argI32 args 0
    let index ← ofExcept (img.tableEntry slot)
    let h ← createPromise
    let env ← argument args 1
    let _ ← spawn img index [ofNat h.number, env]
    return ofNat h.number
  | .promiseResolve => finish do
    let h ← argPromise args 0
    settle h (.resolved (← argI64 args 1))
  | .promiseReject => finish do
    let h ← argPromise args 0
    settle h (.rejected (← argI64 args 1))
  | .promiseAwait => do
    let h ← argPromise args 0
    awaitPromise task h
  | .fmtI64 => give do
    let n ← argI64 args 0
    textValue (toString n.toInt)
  | .fmtU64 => give do
    let n ← argI64 args 0
    textValue (toString n.toNat)
  | .fmtF64 => give do
    let x ← ofExcept (← argument args 0).toF64
    textValue (DecimalLayout.plain.render x)

/-- A call of a registered function. -/
def externalCall (name : String) (args : List Value) : Run (Option Value) := do
  let st ← get
  let (result, host) := st.host.call name args
  set { st with host }
  ofExcept result

/-! ### Finished work -/

/-- A new result object with a tag and a payload. -/
def resultObject (tag : Nat) (payload : Value) : Run (BitVec 64) := do
  let object ← onMemory (Memory.alloc (2 * Layout.word))
  let ptr := BitVec.ofNat 32 object
  onMemory (Memory.store .i32 ptr 0 (ofNat tag))
  onMemory (Memory.store (.ofVal payload.ty) ptr Layout.payload payload)
  return BitVec.ofNat 64 object

/-- The payload for the promise of finished work. -/
def outcomePayload : Outcome → Run (BitVec 64)
  | .unit => return 0
  | .text (.ok bytes) => do
    let str ← onMemory (Memory.allocStr bytes)
    resultObject 0 (ofNat str)
  | .text (.error message) => do
    let str ← textValue message
    resultObject 1 str
  | .count (.ok n) => resultObject 0 (ofNat n)
  | .count (.error message) => do
    let str ← textValue message
    resultObject 1 str

/-- Settles the promise of finished work. -/
def complete (c : Completion) : Run Unit := do
  let payload ← outcomePayload c.outcome
  settle c.handle (.resolved payload)

end Run

end StackScript
