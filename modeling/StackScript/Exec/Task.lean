import StackScript.Exec.Image
import StackScript.Exec.Numeric

/-!
# Tasks

A task is a thread of execution with a stack of its own: calls that have not returned, and operands.

## Design Notes

All frames of a task share one operand stack; a frame knows how many operands were there before it.
-/

namespace StackScript

/-- What a label belongs to. -/
inductive LabelKind where
  | block | loop | cond
  deriving DecidableEq, Repr

/-- An open block, loop or condition. -/
structure Label where
  kind : LabelKind
  /-- Where it ends; of a loop, where it starts. -/
  target : Nat
  /-- The number of operands at its start. -/
  height : Nat
  /-- The number of operands that a branch takes along. -/
  arity : Nat
  deriving DecidableEq, Repr

/-- A call that has not returned. -/
structure Frame where
  /-- The place of the function among the defined ones. -/
  function : Nat
  /-- The next instruction. -/
  pc : Nat
  locals : Array Value
  /-- The number of operands below those of the call. -/
  base : Nat
  /-- Open labels, the innermost first. -/
  labels : List Label
  deriving DecidableEq, Repr

/-- A thread of execution. -/
structure Task where
  id : Nat
  /-- Calls that have not returned, the innermost first. -/
  frames : List Frame
  stack : Stack
  /-- The promise that the task waits for; its value is pushed when the task goes on. -/
  awaiting : Option PromiseHandle
  deriving DecidableEq, Repr

/-- How far a task has come. -/
inductive Progress where
  /-- It can go on. -/
  | next (t : Task)
  /-- Its outermost call has returned. -/
  | finished (value : Option Value)
  /-- It waits for a promise. -/
  | blocked (t : Task)

namespace Frame

/-- Opens a label. -/
def openLabel (f : Frame) (l : Label) : Frame :=
  { f with labels := l :: f.labels }

/-- Jumps to the label a number of levels out. -/
def branch (f : Frame) (s : Stack) (depth : Nat) : Except Fault (Frame × Stack) :=
  match f.labels.drop depth with
  | [] => .error (.malformed (.branchDepth depth))
  | l :: outer =>
    match l.kind with
    | .loop => .ok ({ f with pc := l.target + 1, labels := l :: outer }, s.truncate l.height)
    | .block | .cond =>
      match s.split? l.arity with
      | none => .error .stackUnderflow
      | some (carried, rest) =>
        .ok ({ f with pc := l.target + 1, labels := outer },
          (Stack.truncate rest l.height).pushAll carried)

/-- Reads a local. -/
def getLocal (f : Frame) (i : Nat) : Except Fault Value :=
  match f.locals[i]? with
  | some v => .ok v
  | none => .error (.malformed (.unknownLocal i))

/-- Writes a local. -/
def setLocal (f : Frame) (i : Nat) (v : Value) : Except Fault Frame :=
  if i < f.locals.size then .ok { f with locals := f.locals.setIfInBounds i v }
  else .error (.malformed (.unknownLocal i))

end Frame

namespace Task

/-- A task that has not started, with operands in the order in which they were pushed. -/
def ofArgs (id : Nat) (args : List Value) : Task :=
  ⟨id, [], args.reverse, none⟩

/-- Calls a defined function with arguments from the stack. -/
def enter (img : Image) (t : Task) (index : Nat) : Except Fault Task :=
  match img.defined? index with
  | none => .error (.unknownFunction index)
  | some (place, f) =>
    let depth := t.frames.length
    if img.config.maxCallDepth ≤ depth then .error (.stackOverflow depth)
    else
      match t.stack.split? f.ty.params.length with
      | none => .error .stackUnderflow
      | some (args, rest) =>
        .ok { t with
          frames := ⟨place, 0, args.toArray ++ f.locals, rest.length, []⟩ :: t.frames
          stack := rest }

/-- Returns from the innermost call with its results. -/
def leave (img : Image) (t : Task) : Except Fault Progress :=
  match t.frames with
  | [] => .error (.malformed .noReturn)
  | f :: outer =>
    let arity := (img.functions[f.function]?.elim 0 (·.ty.results.length))
    match t.stack.split? arity with
    | none => .error .stackUnderflow
    | some (results, rest) =>
      if rest.length < f.base then .error .stackUnderflow
      else if outer.isEmpty then .ok (.finished results.head?)
      else
        .ok (.next { t with
          frames := outer
          stack := (Stack.truncate rest f.base).pushAll results })

end Task

end StackScript
