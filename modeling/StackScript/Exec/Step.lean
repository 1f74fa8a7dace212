import StackScript.Exec.Machine

/-!
# Instructions at work

## Design Notes

A construct is entered by opening a label and left by closing it; the operands that it leaves stay on
the stack.  A jump forward also drops the operands that the construct does not give.
-/

namespace StackScript

namespace Run

/-- The caller with the value of an import on its stack; the value must be the declared one. -/
def returnValue (i : Import) (t : Task) : Option Value → Except Fault Progress
  | none =>
    if i.ty.results.isEmpty then .ok (.next t) else .error (.host i.name .wrongType)
  | some v =>
    if i.ty.results.head? = some v.ty then .ok (.next { t with stack := v :: t.stack })
    else .error (.host i.name .wrongType)

/-- Calls an imported function; the first ones are always those of the host. -/
def callImport (img : Image) (t : Task) (index : Nat) (i : Import) : Run Progress := do
  match t.stack.split? i.ty.params.length with
  | none => throw .stackUnderflow
  | some (args, rest) =>
    let t := { t with stack := rest }
    match HostImport.ofIndex? index with
    | some op =>
      match ← hostCall img t.id args op with
      | .value v => ofExcept (returnValue i t v)
      | .suspend h => return .blocked { t with awaiting := some h }
    | none => ofExcept (returnValue i t (← externalCall i.name args))

/-- Calls a function. -/
def call (img : Image) (t : Task) (index : Nat) : Run Progress :=
  match img.imports[index]? with
  | some i => callImport img t index i
  | none => ofExcept (Progress.next <$> t.enter img index)

/-- Calls the function in a table slot, which must have the expected type. -/
def callIndirect (img : Image) (t : Task) (slot : BitVec 32) (type : Nat) :
    Except Fault Progress := do
  let index ← img.tableEntry slot
  match img.types[type]? with
  | none => throw (.malformed (.unknownType type))
  | some expected =>
    if img.funcType? index = some expected then return .next (← t.enter img index)
    else throw (.indirectTypeMismatch index)

/-- The task with a frame and a stack. -/
@[inline]
def proceed (id : Nat) (outer : List Frame) (f : Frame) (s : Stack) : Progress :=
  .next ⟨id, f :: outer, s, none⟩

/-- Runs an instruction without structure in the innermost frame of a task. -/
def execOp (img : Image) (fn : LoadedFunction) (id : Nat) (f : Frame) (outer : List Frame)
    (s : Stack) : Op → Run Progress
  | .unreachable => throw (.trap fn.name .unreachable)
  | .br depth => do
    let (f, s) ← ofExcept (f.branch s depth.toNat)
    return proceed id outer f s
  | .brIf depth => do
    let (c, s) ← ofExcept s.popI32
    if c = 0 then return proceed id outer f s
    else
      let (f, s) ← ofExcept (f.branch s depth.toNat)
      return proceed id outer f s
  | .return_ => ofExcept (Task.leave img ⟨id, f :: outer, s, none⟩)
  | .call index => call img ⟨id, f :: outer, s, none⟩ index.toNat
  | .callIndirect type => do
    let (slot, s) ← ofExcept s.popI32
    ofExcept (callIndirect img ⟨id, f :: outer, s, none⟩ slot type.toNat)
  | .drop => do
    let (_, s) ← ofExcept s.pop
    return proceed id outer f s
  | .localGet i => do
    let v ← ofExcept (f.getLocal i.toNat)
    return proceed id outer f (v :: s)
  | .localSet i => do
    let (v, s) ← ofExcept s.pop
    return proceed id outer (← ofExcept (f.setLocal i.toNat v)) s
  | .localTee i => do
    let (v, _) ← ofExcept s.pop
    return proceed id outer (← ofExcept (f.setLocal i.toNat v)) s
  | .i32Const v => return proceed id outer f (.i32 v :: s)
  | .i64Const v => return proceed id outer f (.i64 v :: s)
  | .f64Const v => return proceed id outer f (.f64 v :: s)
  | .load kind offset => do
    let (addr, s) ← ofExcept s.popI32
    let v ← onMemory (Memory.load kind addr offset.toNat)
    return proceed id outer f (v :: s)
  | .store kind offset => do
    let (v, s) ← ofExcept s.pop
    let (addr, s) ← ofExcept s.popI32
    onMemory (Memory.store kind addr offset.toNat v)
    return proceed id outer f s
  | .memoryCopy => do
    let (len, s) ← ofExcept s.popI32
    let (source, s) ← ofExcept s.popI32
    let (target, s) ← ofExcept s.popI32
    onMemory (Memory.copy target source len)
    return proceed id outer f s
  | .num op => do
    let s ← ofExcept (op.eval fn.name s)
    return proceed id outer f s

/-- The number of values of a construct. -/
def arityOf (ty : Option ValType) : Nat :=
  if ty.isSome then 1 else 0

/-- Runs the instruction at a position; the frame already stands behind it. -/
def exec (img : Image) (fn : LoadedFunction) (id : Nat) (f : Frame) (outer : List Frame)
    (s : Stack) (pc : Nat) : Instr → Run Progress
  | .block ty =>
    return proceed id outer (f.openLabel ⟨.block, fn.jumps.endOf pc, s.length, arityOf ty⟩) s
  | .loop _ => return proceed id outer (f.openLabel ⟨.loop, pc, s.length, 0⟩) s
  | .if_ ty => do
    let (c, s) ← ofExcept s.popI32
    let f := f.openLabel ⟨.cond, fn.jumps.endOf pc, s.length, arityOf ty⟩
    if c = 0 then
      let target := (fn.jumps.elseOf pc).elim (fn.jumps.endOf pc) (· + 1)
      return proceed id outer { f with pc := target } s
    else return proceed id outer f s
  | .else_ =>
    match f.labels with
    | [] => throw (.malformed .elseOutside)
    | l :: _ => return proceed id outer { f with pc := l.target } s
  | .end_ =>
    match f.labels with
    | [] => ofExcept (Task.leave img ⟨id, f :: outer, s, none⟩)
    | _ :: labels => return proceed id outer { f with labels } s
  | .op o => execOp img fn id f outer s o

/-- Runs the next instruction of a task that waits for nothing. -/
def step (img : Image) (t : Task) : Run Progress :=
  match t with
  | ⟨id, frames, s, _⟩ =>
    match frames with
    | [] => throw (.malformed .noFrames)
    | f :: outer =>
      match img.functions[f.function]? with
      | none => throw (.unknownFunction f.function)
      | some fn =>
        let pc := f.pc
        match fn.body[pc]? with
        | none => throw (.malformed (.pastEnd fn.name))
        | some instr => exec img fn id { f with pc := pc + 1 } outer s pc instr

end Run

end StackScript
