import StackScript.Exec.Step

/-!
# Faults of operands

Operators, accesses to the memory and the way operands are taken off the stack fail with faults of
their own kind only.  What else a run can report comes from calls, jumps and promises.
-/

namespace StackScript

/-- Faults of operands and the memory. -/
def Fault.Local : Fault → Prop
  | trap _ _ | stackUnderflow | typeMismatch _ _ | outOfBounds _ _ | outOfMemory _ => True
  | _ => False

/-- Faults of a module that refers to what it does not have. -/
def Fault.Structural : Fault → Prop
  | malformed _ | unknownFunction _ => True
  | _ => False

/-- Faults that any instruction can report: a promise is already settled only where one is to be
settled, and only the scheduler finds a deadlock. -/
def Fault.Plain : Fault → Prop
  | deadlock _ | promise (.alreadySettled _) => False
  | _ => True

/-- Plain faults that do not show a module to be no module. -/
def Fault.Ordinary (e : Fault) : Prop :=
  e.Plain ∧ ¬e.Structural

/-- Faults that are not the scheduler's own. -/
def Fault.OfTask : Fault → Prop
  | deadlock _ => False
  | _ => True

theorem Fault.Local.ordinary {e : Fault} (h : e.Local) : e.Ordinary := by
  cases e <;> simp_all [Local, Ordinary, Plain, Structural]

theorem Fault.Plain.ofTask {e : Fault} (h : e.Plain) : e.OfTask := by
  cases e <;> simp_all [Plain, OfTask]

theorem Fault.OfTask.ne_deadlock {e : Fault} (h : e.OfTask) (n : Nat) : e ≠ .deadlock n := by
  rintro rfl
  exact h

/-! ## Computations -/

section Computations

variable {α β : Type} {P P' : Fault → Prop} {r : Except Fault α} {f : α → Except Fault β}

/-- All faults of a computation have a property. -/
def Fails (P : Fault → Prop) (r : Except Fault α) : Prop :=
  ∀ e, r = .error e → P e

theorem fails_ok (a : α) : Fails P (.ok a) := by
  rintro e ⟨⟩

theorem fails_error {e : Fault} (h : P e) : Fails P (.error e : Except Fault α) := by
  rintro _ ⟨⟩
  exact h

theorem fails_pure (a : α) : Fails P (pure a) :=
  fails_ok a

theorem Fails.bind (hr : Fails P r) (hf : ∀ a, Fails P (f a)) : Fails P (r >>= f) := by
  cases r with
  | ok a => exact hf a
  | error e => exact fails_error (hr e rfl)

theorem Fails.map {g : α → β} (hr : Fails P r) : Fails P (g <$> r) := by
  cases r with
  | ok a => exact fails_ok (g a)
  | error e => exact fails_error (hr e rfl)

theorem Fails.mono (hr : Fails P r) (h : ∀ e, P e → P' e) : Fails P' r := fun e he => h e (hr e he)

end Computations

/-! ## Operands -/

section Operands

variable (s : Stack) (v : Value)

theorem fails_toI32 : Fails Fault.Local v.toI32 := by
  cases v <;> simp [Fails, Value.toI32, Fault.Local]

theorem fails_toI64 : Fails Fault.Local v.toI64 := by
  cases v <;> simp [Fails, Value.toI64, Fault.Local]

theorem fails_toF64 : Fails Fault.Local v.toF64 := by
  cases v <;> simp [Fails, Value.toF64, Fault.Local]

theorem fails_pop : Fails Fault.Local s.pop := by
  cases s with
  | nil => exact fails_error trivial
  | cons v rest => exact fails_ok _

theorem fails_popI32 : Fails Fault.Local s.popI32 :=
  (fails_pop s).bind fun p => (fails_toI32 p.1).bind fun _ => fails_pure _

theorem fails_popI64 : Fails Fault.Local s.popI64 :=
  (fails_pop s).bind fun p => (fails_toI64 p.1).bind fun _ => fails_pure _

theorem fails_popF64 : Fails Fault.Local s.popF64 :=
  (fails_pop s).bind fun p => (fails_toF64 p.1).bind fun _ => fails_pure _

theorem fails_lift {α : Type} (name : String) (r : Except Trap α) : Fails Fault.Local (Trap.lift name r) := by
  cases r with
  | ok a => exact fails_ok a
  | error cause => exact fails_error trivial

theorem fails_conversion (c : Conversion) : Fails Fault.Local (c.eval v) := by
  cases c with
  | wrap | bitsFloat => exact (fails_toI64 v).bind fun _ => fails_pure _
  | extend signed => exact (fails_toI32 v).bind fun _ => fails_pure _
  | toFloat w signed =>
    cases w with
    | w32 => exact (fails_toI32 v).bind fun _ => fails_pure _
    | w64 => exact (fails_toI64 v).bind fun _ => fails_pure _
  | truncate w signed =>
    cases w with
    | w32 | w64 => exact (fails_toF64 v).bind fun _ => fails_pure _
  | floatBits => exact (fails_toF64 v).bind fun _ => fails_pure _

/-- Operators fail because of their operands only. -/
theorem fails_numOp (name : String) (op : NumOp) : Fails Fault.Local (op.eval name s) := by
  cases op with
  | eqz w =>
    cases w with
    | w32 => exact (fails_popI32 s).bind fun _ => fails_pure _
    | w64 => exact (fails_popI64 s).bind fun _ => fails_pure _
  | rel w r =>
    cases w with
    | w32 => exact (fails_popI32 s).bind fun b => (fails_popI32 b.2).bind fun _ => fails_pure _
    | w64 => exact (fails_popI64 s).bind fun b => (fails_popI64 b.2).bind fun _ => fails_pure _
  | arith w op =>
    cases w with
    | w32 =>
      exact (fails_popI32 s).bind fun b => (fails_popI32 b.2).bind fun _ =>
        (fails_lift name _).bind fun _ => fails_pure _
    | w64 =>
      exact (fails_popI64 s).bind fun b => (fails_popI64 b.2).bind fun _ =>
        (fails_lift name _).bind fun _ => fails_pure _
  | bits op => exact (fails_popI32 s).bind fun b => (fails_popI32 b.2).bind fun _ => fails_pure _
  | floatRel | floatArith => exact (fails_popF64 s).bind fun b => (fails_popF64 b.2).bind fun _ => fails_pure _
  | floatNeg => exact (fails_popF64 s).bind fun _ => fails_pure _
  | convert c => exact (fails_pop s).bind fun p => (fails_conversion p.1 c).bind fun _ => fails_pure _

end Operands

/-! ## The memory -/

namespace Memory

variable {α β : Type} {P P' : Fault → Prop} {x : Action α} {f : α → Action β}

/-- All faults of a step on a memory have a property. -/
def Fails (P : Fault → Prop) (x : Action α) : Prop :=
  ∀ m e m', x m = .error e m' → P e

theorem fails_pure (a : α) : Fails P (pure a : Action α) := by
  rintro m e m' ⟨⟩

theorem fails_get : Fails P (get : Action Memory) := by
  rintro m e m' ⟨⟩

theorem fails_modify (g : Memory → Memory) : Fails P (modify g : Action PUnit) := by
  rintro m e m' ⟨⟩

theorem fails_throw {e : Fault} (h : P e) : Fails P (throw e : Action α) := by
  rintro m _ m' ⟨⟩
  exact h

theorem Fails.bind (hx : Fails P x) (hf : ∀ a, Fails P (f a)) : Fails P (x >>= f) := by
  intro m e m' h
  cases hm : x m with
  | ok a m₁ =>
    have hfa : f a m₁ = .error e m' := by simpa only [Bind.bind, EStateM.bind, hm] using h
    exact hf a m₁ e m' hfa
  | error e₁ m₁ =>
    obtain ⟨rfl, rfl⟩ : e₁ = e ∧ m₁ = m' := by
      simpa only [Bind.bind, EStateM.bind, hm, EStateM.Result.error.injEq] using h
    exact hx m e₁ m₁ hm

theorem fails_ofExcept {r : Except Fault α} (h : StackScript.Fails P r) : Fails P (ofExcept r) := by
  cases r with
  | ok a => exact fails_pure a
  | error e => exact fails_throw (h e rfl)

theorem fails_inBounds (addr len : Nat) : Fails Fault.Local (inBounds addr len) := by
  intro m e m' h
  unfold inBounds at h
  split at h
  · cases h
  · cases h
    trivial

theorem fails_numberOf (v : Value) (kind : MemKind) : StackScript.Fails Fault.Local (numberOf v kind) := by
  cases kind with
  | u8 | i32 => exact (fails_toI32 v).bind fun _ => StackScript.fails_pure _
  | i64 => exact (fails_toI64 v).bind fun _ => StackScript.fails_pure _
  | f64 => exact (fails_toF64 v).bind fun _ => StackScript.fails_pure _

theorem fails_load (kind : MemKind) (addr : BitVec 32) (offset : Nat) : Fails Fault.Local (load kind addr offset) :=
  (fails_inBounds _ _).bind fun _ => fails_get.bind fun _ => fails_pure _

theorem fails_store (kind : MemKind) (addr : BitVec 32) (offset : Nat) (v : Value) :
    Fails Fault.Local (store kind addr offset v) :=
  (fails_inBounds _ _).bind fun _ => (fails_ofExcept (fails_numberOf v kind)).bind fun _ =>
    fails_modify _

theorem fails_copy (target source len : BitVec 32) : Fails Fault.Local (copy target source len) :=
  (fails_inBounds _ _).bind fun _ => (fails_inBounds _ _).bind fun _ => fails_modify _

theorem fails_read (addr len : Nat) : Fails Fault.Local (read addr len) :=
  (fails_inBounds _ _).bind fun _ => fails_get.bind fun _ => fails_pure _

theorem fails_write (addr : Nat) (bs : List UInt8) : Fails Fault.Local (write addr bs) :=
  (fails_inBounds _ _).bind fun _ => fails_modify _

theorem fails_alloc (size : Nat) : Fails Fault.Local (alloc size) := by
  refine fails_get.bind fun m => ?_
  dsimp only
  split
  · exact fails_throw trivial
  · exact (fails_modify _).bind fun _ => fails_pure _

theorem fails_allocStr (bs : List UInt8) : Fails Fault.Local (allocStr bs) :=
  (fails_alloc _).bind fun _ => (fails_write _ _).bind fun _ => (fails_write _ _).bind fun _ =>
    fails_pure _

end Memory

end StackScript
