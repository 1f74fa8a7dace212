import StackScript.Emit.Objects

/-!
# Valid code

Code whose branches, locals, calls and types exist.
-/

namespace StackScript

/-- How many labels, locals, functions and types there are. -/
structure Bounds where
  depth : Nat
  locals : Nat
  functions : Nat
  types : Nat

namespace Bounds

/-- The bounds inside one more block. -/
@[reducible] def deeper (b : Bounds) : Bounds :=
  { b with depth := b.depth + 1 }

end Bounds

/-- An instruction that refers only to what exists. -/
def Op.Valid (b : Bounds) : Op → Prop
  | .br depth | .brIf depth => depth.toNat < b.depth
  | .localGet i | .localSet i | .localTee i => i.toNat < b.locals
  | .call f => f.toNat < b.functions
  | .callIndirect t => t.toNat < b.types
  | _ => True

namespace Code

mutual

/-- Code that refers only to what exists. -/
@[simp] def Valid (b : Bounds) : Code → Prop
  | op o => o.Valid b
  | block _ body => AllValid b.deeper body
  | loop body => AllValid b.deeper body
  | cond _ body => AllValid b.deeper body
  | condElse _ body other => AllValid b.deeper body ∧ AllValid b.deeper other

/-- Code in order that refers only to what exists. -/
@[simp] def AllValid (b : Bounds) : List Code → Prop
  | [] => True
  | c :: cs => Valid b c ∧ AllValid b cs

end

end Code

/-! ## Instructions -/

theorem toNat_toUInt32_le (n : Nat) : n.toUInt32.toNat ≤ n :=
  Nat.mod_le n _

theorem HostImport.index_lt (i : HostImport) : i.index < HostImport.all.length := by
  cases i <;> decide

namespace Op

variable {b : Bounds} {n : Nat}

variable {o : Op} {os : List Op}

/-- What exists is still there inside one more block. -/
theorem Valid.deeper (h : o.Valid b) : o.Valid b.deeper := by
  cases o with
  | br | brIf => exact Nat.lt_succ_of_lt h
  | _ => exact h

/-- Numbers are cut to 32 bits, which makes them no greater. -/
@[simp] theorem valid_get (h : n < b.locals) : (get n).Valid b :=
  Nat.lt_of_le_of_lt (toNat_toUInt32_le n) h

@[simp] theorem valid_set (h : n < b.locals) : (set n).Valid b :=
  Nat.lt_of_le_of_lt (toNat_toUInt32_le n) h

@[simp] theorem valid_callFn (h : n < b.functions) : (callFn n).Valid b :=
  Nat.lt_of_le_of_lt (toNat_toUInt32_le n) h

@[simp] theorem valid_host {i : HostImport} (h : HostImport.all.length ≤ b.functions) : (host i).Valid b :=
  valid_callFn (Nat.lt_of_lt_of_le i.index_lt h)

@[simp] theorem valid_callIndirect (h : n < b.types) : (callIndirect n.toUInt32).Valid b :=
  Nat.lt_of_le_of_lt (toNat_toUInt32_le n) h

/-- An instruction that refers to nothing, and does not leave the function. -/
def Idle : Op → Prop
  | .br _ | .brIf _ | .localGet _ | .localSet _ | .localTee _ | .call _ | .callIndirect _ | .return_ => False
  | _ => True

@[simp] theorem valid_of_idle (h : o.Idle) : o.Valid b := by
  cases o with
  | br | brIf | localGet | localSet | localTee | call | callIndirect => exact h.elim
  | _ => exact True.intro

@[simp] theorem valid_return : return_.Valid b := True.intro

@[simp] theorem idle_of_value : (∀ n, (const n).Idle) ∧ (∀ v, (i64Const v).Idle) ∧ ∀ v, (f64Const v).Idle :=
  ⟨fun _ => trivial, fun _ => trivial, fun _ => trivial⟩

@[simp] theorem idle_of_access {kind : MemKind} : (read kind n).Idle ∧ (write kind n).Idle := ⟨trivial, trivial⟩

@[simp] theorem idle_num {op : NumOp} : (num op).Idle := trivial

@[simp] theorem idle_named : head.Idle ∧ add.Idle ∧ sub.Idle ∧ mul.Idle ∧ isZero.Idle ∧ differ.Idle ∧ below.Idle ∧
    notBelow.Idle ∧ unreachable.Idle ∧ drop.Idle ∧ memoryCopy.Idle := by
  repeat' constructor

@[simp] theorem idle_wordConst {w : Layout.Word} : (Emit.wordConst w).Idle := by
  cases w <;> exact True.intro

@[simp] theorem idle_intConst {value : Int} {ty : Ty} : (Emit.intConst value ty).Idle :=
  idle_wordConst

/-- All instructions have a property. -/
def All (P : Op → Prop) (os : List Op) : Prop :=
  ∀ o ∈ os, P o

section

variable {P : Op → Prop}

@[simp] theorem all_nil : All P [] := nofun

@[simp] theorem all_cons : All P (o :: os) ↔ P o ∧ All P os := List.forall_mem_cons

@[simp] theorem all_append {os' : List Op} : All P (os ++ os') ↔ All P os ∧ All P os' := List.forall_mem_append

end

/-- Instructions in order that refer only to what exists. -/
abbrev AllValid (b : Bounds) : List Op → Prop :=
  All (·.Valid b)

/-- Instructions that refer to nothing, and do not leave the function. -/
abbrev AllIdle : List Op → Prop :=
  All Idle

@[simp] theorem allValid_of_allIdle (h : AllIdle os) : AllValid b os := fun o ho => valid_of_idle (h o ho)

@[simp] theorem allIdle_offsetWords : AllIdle offsetWords := by
  simp [offsetWords]

@[simp] theorem allIdle_normalize (kind : IntKind) : AllIdle (Emit.normalize kind) := by
  unfold Emit.normalize
  split
  · split <;> simp
  · simp

@[simp] theorem allIdle_narrow (ty : Option ValType) : AllIdle (Emit.narrow ty) := by
  rcases ty with _ | _ | _ | _ <;> simp [Emit.narrow]

theorem allIdle_cast {source target : Ty} (h : Emit.cast? source target = some os) : AllIdle os := by
  unfold Emit.cast? at h
  split at h
  · cases h; simp
  · cases h; simp
  · cases h; simp
  · cases h
    rw [AllIdle, all_append]
    constructor
    · split
      · simp
      · split <;> simp
    · split <;> simp
  · cases h

@[simp] theorem allValid_widen {ty : ValType} : AllValid b (Emit.widen ty) := by
  cases ty <;> simp [Emit.widen]

end Op

/-! ## Code -/

namespace Code

variable {b : Bounds}

@[simp] theorem allValid_append {xs ys : List Code} : AllValid b (xs ++ ys) ↔ AllValid b xs ∧ AllValid b ys := by
  induction xs with
  | nil => simp
  | cons x xs ih => simp [ih, and_assoc]

@[simp] theorem allValid_ops {os : List Op} : AllValid b (ops os) ↔ Op.AllValid b os := by
  induction os with
  | nil => simp [ops]
  | cons o os ih =>
    simp only [ops] at ih
    simp [ops, ih]

theorem flatList_append (xs ys : List Code) : flatList (xs ++ ys) = flatList xs ++ flatList ys := by
  induction xs with
  | nil => rfl
  | cons c cs ih => rw [List.cons_append, flatList, flatList, ih, List.append_assoc]

theorem flatList_ops (os : List Op) : flatList (ops os) = os.map .op := by
  induction os with
  | nil => rfl
  | cons o os ih => exact congrArg (Instr.op o :: ·) ih

theorem flatList_singleton (c : Code) : flatList [c] = c.flat := List.append_nil _

end Code

end StackScript
