import StackScript.Proofs.Emit.Valid

/-!
# Which code starts tasks and settles promises

A task settles its promise with a fixed sequence of instructions: it names the promise in its first
parameter, gives a value, settles, and returns.  The function that starts a task does so with a fixed
sequence too.  No other code starts tasks or settles promises, and no code of a task writes to the
parameter with its promise.
-/

namespace StackScript

open Typed

/-! ## Careful code -/

/-- What a function of a module is for. -/
inductive Role where
  /-- It starts the task in a table slot. -/
  | starter (slot : Nat)
  /-- It runs as a task and settles the promise in its first parameter. -/
  | task
  | ordinary
  deriving DecidableEq

/-- How far a function is with the call that only its role makes. -/
inductive Stage where
  | idle
  /-- The promise, or the table slot, is on the stack. -/
  | named
  /-- The value, or the environment, is on the stack as well. -/
  | given
  | made

/-- The functions that all code may call: none of them starts a task or settles a promise, and none is
the function of a task. -/
inductive Plan.Calls (plan : Plan) : Nat → Prop
  | host {h : HostImport} (spawn : h ≠ .taskSpawn) (resolve : h ≠ .promiseResolve)
      (reject : h ≠ .promiseReject) : Calls plan h.index
  | direct {name i} (found : plan.direct.lookup name = some i) : Calls plan i
  | external {name i} (found : plan.externals.lookup name = some i) : Calls plan i
  | method {struct slot i} (found : plan.methods.get? struct slot = some i) : Calls plan i
  | strConcat : Calls plan plan.strConcat
  | strEq : Calls plan plan.strEq
  | arrayGrow : Calls plan plan.arrayGrow

namespace Role

/-- The locals that a function keeps as they are. -/
def kept : Role → Nat → Prop
  | .task, i => i = 0
  | _, _ => False

/-- Instructions that a function which keeps some locals may run at any time. -/
def Allows (r : Role) (plan : Plan) (K : Nat → Prop) : Op → Prop
  | .call c => ∃ i, c = i.toUInt32 ∧ plan.Calls i
  | .localSet i | .localTee i => ¬K i.toNat
  | .return_ => r ≠ .task
  | _ => True

/-- The instruction that names the promise or the table slot. -/
def Names : Role → Op → Prop
  | .task, o => o = .get 0
  | .starter slot, o => o = .const slot
  | .ordinary, _ => False

/-- The call that only the role makes. -/
def Makes : Role → Op → Prop
  | .task, o => o = .host .promiseResolve
  | .starter _, o => o = .host .taskSpawn
  | .ordinary, _ => False

end Role

/-- Instructions that give the value or the environment. -/
def Op.Gives : Op → Prop
  | .localGet _ | .i32Const _ | .i64Const _ => True
  | _ => False

/-- Code that makes the call of its role only in its fixed sequence. -/
inductive Code.Careful (plan : Plan) (r : Role) (K : Nat → Prop) : Stage → List Code → Prop
  | nil : Careful plan r K .idle []
  | op {o xs} (allowed : r.Allows plan K o) (rest : Careful plan r K .idle xs) :
      Careful plan r K .idle (.op o :: xs)
  | block {ty body xs} (inner : Careful plan r K .idle body) (rest : Careful plan r K .idle xs) :
      Careful plan r K .idle (.block ty body :: xs)
  | loop {body xs} (inner : Careful plan r K .idle body) (rest : Careful plan r K .idle xs) :
      Careful plan r K .idle (.loop body :: xs)
  | cond {ty body xs} (inner : Careful plan r K .idle body) (rest : Careful plan r K .idle xs) :
      Careful plan r K .idle (.cond ty body :: xs)
  | condElse {ty body other xs} (inner : Careful plan r K .idle body)
      (inner' : Careful plan r K .idle other) (rest : Careful plan r K .idle xs) :
      Careful plan r K .idle (.condElse ty body other :: xs)
  | name {o xs} (names : r.Names o) (rest : Careful plan r K .named xs) :
      Careful plan r K .idle (.op o :: xs)
  | give {o xs} (gives : o.Gives) (rest : Careful plan r K .given xs) :
      Careful plan r K .named (.op o :: xs)
  | convert {c xs} (rest : Careful plan r K .given xs) :
      Careful plan r K .given (.op (.num (.convert c)) :: xs)
  | make {o xs} (makes : r.Makes o) (rest : Careful plan r K .made xs) :
      Careful plan r K .given (.op o :: xs)
  /-- A task returns when its promise is settled. -/
  | leave {xs} (task : r = .task) (rest : Careful plan r K .idle xs) :
      Careful plan r K .made (.op .return_ :: xs)
  /-- The promise of a task is the value of the function that starts it. -/
  | stop {slot} (starter : r = .starter slot) : Careful plan r K .made []

namespace Code

variable {plan : Plan} {r : Role} {K : Nat → Prop} {xs ys : List Code}

/-- Code after careful code; a task that has settled its promise has returned before. -/
theorem Careful.append {stage : Stage} (h : Careful plan r K stage xs) (hr : ∀ slot, r ≠ .starter slot)
    (h' : Careful plan r K .idle ys) : Careful plan r K stage (xs ++ ys) := by
  induction h with
  | nil => exact h'
  | op allowed _ ih => exact .op allowed ih
  | block inner _ _ ih => exact .block inner ih
  | loop inner _ _ ih => exact .loop inner ih
  | cond inner _ _ ih => exact .cond inner ih
  | condElse inner inner' _ _ _ ih => exact .condElse inner inner' ih
  | name names _ ih => exact .name names ih
  | give gives _ ih => exact .give gives ih
  | convert _ ih => exact .convert ih
  | make makes _ ih => exact .make makes ih
  | leave task _ ih => exact .leave task ih
  | stop starter => exact absurd starter (hr _)

/-- Instructions that may run at any time. -/
abbrev AllAllowed (r : Role) (plan : Plan) (K : Nat → Prop) : List Op → Prop :=
  Op.All (r.Allows plan K)

theorem Careful.ops_append {os : List Op} (h : AllAllowed r plan K os) (h' : Careful plan r K .idle ys) :
    Careful plan r K .idle (ops os ++ ys) := by
  induction os with
  | nil => exact h'
  | cons o os ih =>
    obtain ⟨ho, hos⟩ := Op.all_cons.1 h
    exact .op ho (ih hos)

@[simp] theorem careful_ops {os : List Op} (h : AllAllowed r plan K os) : Careful plan r K .idle (ops os) := by
  simpa using Careful.ops_append h .nil

@[simp] theorem careful_op {o : Op} (h : r.Allows plan K o) : Careful plan r K .idle [.op o] := .op h .nil

/-- Code that does not run past its end. -/
def Closed (code : List Code) : Prop :=
  code.getLast? = some (.op .unreachable) ∨ code.getLast? = some (.op .return_)

theorem Closed.append {code : List Code} (h : Closed code) (front : List Code) : Closed (front ++ code) := by
  refine h.imp (fun h => ?_) fun h => ?_
  · rw [List.getLast?_append, h]
    rfl
  · rw [List.getLast?_append, h]
    rfl

end Code

/-! ## Instructions -/

namespace Role

variable {r : Role} {plan : Plan} {K : Nat → Prop} {n : Nat}

@[simp] theorem allows_of_idle {o : Op} (h : o.Idle) : r.Allows plan K o := by
  cases o with
  | call | localSet | localTee | return_ => exact h.elim
  | _ => exact trivial

@[simp] theorem allows_get : r.Allows plan K (.get n) := trivial

@[simp] theorem allows_callFn (h : plan.Calls n) : r.Allows plan K (.callFn n) := ⟨n, rfl, h⟩

@[simp] theorem allows_host {h : HostImport} (spawn : h ≠ .taskSpawn) (resolve : h ≠ .promiseResolve)
    (reject : h ≠ .promiseReject) : r.Allows plan K (.host h) :=
  allows_callFn (.host spawn resolve reject)

@[simp] theorem allows_br {depth : UInt32} : r.Allows plan K (.br depth) := trivial

@[simp] theorem allows_brIf {depth : UInt32} : r.Allows plan K (.brIf depth) := trivial

end Role

end StackScript
