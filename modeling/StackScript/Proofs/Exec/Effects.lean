import StackScript.Exec.Vm
import StackScript.Proofs.Exec.Faults
import StackScript.Proofs.Exec.Promises

/-!
# Effects of instructions

What a step of a task can do to promises, tasks and work of the host.  Most instructions touch none of
them; those that do are calls of a few functions of the host.
-/

namespace StackScript

namespace Run

variable {α β : Type}

/-! ## How steps end -/

/-- A step ends with a result and a machine that have `Q`, or fails with a fault and a machine that
have `E`. -/
def Ends (x : Run α) (m : Machine) (E : Fault → Machine → Prop) (Q : α → Machine → Prop) : Prop :=
  match x m with
  | .ok a m' => Q a m'
  | .error e m' => E e m'

variable {x : Run α} {f : α → Run β} {m m' : Machine} {E E' : Fault → Machine → Prop}
  {Q Q' : α → Machine → Prop} {R : β → Machine → Prop}

/-- A sequence ends as its last step does. -/
theorem ends_bind (h : Ends x m E fun a m' => Ends (f a) m' E R) : Ends (x >>= f) m E R := by
  unfold Ends at h ⊢
  simp only [bind, EStateM.bind]
  split at h <;> next hx => simpa only [hx] using h

theorem ends_pure {a : α} (h : Q a m) : Ends (pure a) m E Q := h

theorem ends_throw {e : Fault} (h : E e m) : Ends (throw e) m E Q := h

theorem ends_get {Q : Machine → Machine → Prop} (h : Q m m) : Ends get m E Q := h

theorem ends_set {Q : PUnit → Machine → Prop} (h : Q ⟨⟩ m') : Ends (set m') m E Q := h

theorem ends_modify {Q : PUnit → Machine → Prop} {g : Machine → Machine} (h : Q ⟨⟩ (g m)) : Ends (modify g) m E Q := h

theorem ends_ofExcept {r : Except Fault α} (hok : ∀ a, r = .ok a → Q a m)
    (herror : ∀ e, r = .error e → E e m) : Ends (ofExcept r) m E Q := by
  cases r with
  | ok a => exact hok a rfl
  | error e => exact herror e rfl

theorem Ends.mono (h : Ends x m E Q) (hE : ∀ e m', E e m' → E' e m') (hQ : ∀ a m', Q a m' → Q' a m') :
    Ends x m E' Q' := by
  unfold Ends at h ⊢
  split at h
  · exact hQ _ _ h
  · exact hE _ _ h

/-- The run itself can be used in what it ends with. -/
theorem Ends.withRun (h : Ends x m E Q) :
    Ends x m (fun e m' => x m = .error e m' ∧ E e m') fun a m' => x m = .ok a m' ∧ Q a m' := by
  unfold Ends at h ⊢
  split at h <;> next hx => exact ⟨hx, h⟩

theorem Ends.of_ok (h : Ends x m E Q) {a : α} (hx : x m = .ok a m') : Q a m' := by
  simpa only [Ends, hx] using h

theorem Ends.of_error (h : Ends x m E Q) {e : Fault} (hx : x m = .error e m') : E e m' := by
  simpa only [Ends, hx] using h

end Run

/-! ## Steps that schedule nothing -/

/-- Two machines with the same promises, tasks and work of the host. -/
structure Machine.SameSchedule (m m' : Machine) : Prop where
  promises : m'.promises = m.promises
  tasks : m'.tasks = m.tasks
  ready : m'.ready = m.ready
  nextTask : m'.nextTask = m.nextTask
  work : m'.work = m.work

theorem Machine.SameSchedule.refl (m : Machine) : m.SameSchedule m :=
  ⟨rfl, rfl, rfl, rfl, rfl⟩

theorem Machine.SameSchedule.trans {m₁ m₂ m₃ : Machine} (h : m₁.SameSchedule m₂)
    (h' : m₂.SameSchedule m₃) : m₁.SameSchedule m₃ :=
  ⟨h'.promises.trans h.promises, h'.tasks.trans h.tasks, h'.ready.trans h.ready,
    h'.nextTask.trans h.nextTask, h'.work.trans h.work⟩

namespace Run

variable {α β : Type} {x : Run α} {f : α → Run β}

/-- A step that schedules nothing, even if it fails. -/
def Quiet (x : Run α) : Prop :=
  ∀ m, Ends x m (fun e m' => e.Ordinary ∧ m.SameSchedule m') fun _ m' => m.SameSchedule m'

theorem quiet_pure (a : α) : Quiet (pure a) := fun m => .refl m

variable {e : Fault} {r : Except Fault α} {m : Machine} {memory : Memory}

theorem quiet_throw (h : e.Ordinary) : Quiet (throw e : Run α) := fun m => ⟨h, .refl m⟩

theorem quiet_ofExcept (h : Fails Fault.Ordinary r) : Quiet (ofExcept r) := fun m =>
  ends_ofExcept (fun _ _ => .refl m) fun e he => ⟨h e he, .refl m⟩

theorem quiet_operand (h : Fails Fault.Local r) : Quiet (ofExcept r) :=
  quiet_ofExcept (h.mono fun _ => Fault.Local.ordinary)

theorem onMemory_of_ok {x : Memory.Action α} {a : α}
    (h : x m.memory = .ok a memory) : onMemory x m = .ok a { m with memory } := by
  simp only [onMemory, h]

theorem onMemory_of_error {x : Memory.Action α}
    (h : x m.memory = .error e memory) : onMemory x m = .error e { m with memory } := by
  simp only [onMemory, h]

theorem quiet_onMemory {x : Memory.Action α} (h : Memory.Fails Fault.Local x) : Quiet (onMemory x) := by
  intro m
  unfold Ends
  cases hx : x m.memory with
  | ok a memory =>
    rw [onMemory_of_ok hx]
    exact ⟨rfl, rfl, rfl, rfl, rfl⟩
  | error e memory =>
    rw [onMemory_of_error hx]
    exact ⟨(h _ _ _ hx).ordinary, rfl, rfl, rfl, rfl, rfl⟩

theorem Quiet.bind (hx : Quiet x) (hf : ∀ a, Quiet (f a)) : Quiet (x >>= f) := by
  intro m
  refine ends_bind ((hx m).mono (fun _ _ h => h) fun a m₁ h => ?_)
  exact (hf a m₁).mono (fun _ _ h' => ⟨h'.1, h.trans h'.2⟩) fun _ _ h' => h.trans h'

/-! ### Arguments of functions of the host -/

theorem quiet_argument (args : List Value) (i : Nat) : Quiet (argument args i) := by
  unfold argument
  split
  · exact quiet_pure _
  · exact quiet_throw (Fault.Local.ordinary trivial)

theorem quiet_argI32 (args : List Value) (i : Nat) : Quiet (argI32 args i) :=
  (quiet_argument args i).bind fun v => quiet_operand (fails_toI32 v)

theorem quiet_argI64 (args : List Value) (i : Nat) : Quiet (argI64 args i) :=
  (quiet_argument args i).bind fun v => quiet_operand (fails_toI64 v)

theorem quiet_argBytes (args : List Value) (i : Nat) : Quiet (argBytes args i) :=
  (quiet_argument args i).bind fun ptr => (quiet_argument args (i + 1)).bind fun len =>
    (quiet_operand (fails_toI32 ptr)).bind fun _ => (quiet_operand (fails_toI32 len)).bind fun _ =>
      quiet_onMemory (Memory.fails_read _ _)

theorem quiet_argText (args : List Value) (i : Nat) : Quiet (argText args i) :=
  (quiet_argBytes args i).bind fun _ => quiet_pure _

theorem quiet_textValue (text : String) : Quiet (textValue text) :=
  (quiet_onMemory (Memory.fails_allocStr _)).bind fun _ => quiet_pure _

/-- An argument that is a number is there and has its type. -/
theorem argI32_ends (args : List Value) (i : Nat) (m : Machine) :
    Ends (argI32 args i) m (fun e m' => e.Ordinary ∧ m' = m) fun w m' => m' = m ∧ args[i]? = some (.i32 w) := by
  refine ends_bind ?_
  unfold argument
  split
  next v hv =>
    refine ends_pure ?_
    refine ends_ofExcept ?_ fun e he => ⟨(fails_toI32 v e he).ordinary, rfl⟩
    intro w hw
    cases v with
    | i32 w' =>
      cases hw
      exact ⟨rfl, hv⟩
    | i64 | f64 => cases hw
  next => exact ends_throw ⟨Fault.Local.ordinary trivial, rfl⟩

theorem quiet_externalCall (name : String) (args : List Value) : Quiet (externalCall name args) := by
  intro m
  refine ends_bind (ends_get (ends_bind (ends_set ?_)))
  refine ends_ofExcept (fun _ _ => ⟨rfl, rfl, rfl, rfl, rfl⟩) fun e he => ⟨?_, rfl, rfl, rfl, rfl, rfl⟩
  split at he
  · cases he
    exact ⟨trivial, id⟩
  · next x _ =>
    cases hx : x.function x.past args with
    | ok v =>
      rw [hx] at he
      cases he
    | error message =>
      rw [hx] at he
      cases he
      exact ⟨trivial, id⟩

end Run

/-! ## What instructions do -/

/-- The function of the host that the next instruction of a task calls, and its arguments. -/
def Task.hostCall? (img : Image) (t : Task) : Option (HostImport × List Value) := do
  let f ← t.frames.head?
  let fn ← img.functions[f.function]?
  match ← fn.body[f.pc]? with
  | .op (.call index) =>
    let i ← img.imports[index.toNat]?
    let op ← HostImport.ofIndex? index.toNat
    let (args, _) ← t.stack.split? i.ty.params.length
    some (op, args)
  | _ => none

/-- What a run does to promises and tasks. -/
inductive Event where
  /-- A program asks for work. -/
  | submits (h : PromiseHandle)
  /-- A program starts a task on a function, with a promise for its result. -/
  | starts (task function : Nat) (h : PromiseHandle)
  /-- A task settles a promise. -/
  | settles (task : Nat) (h : PromiseHandle)
  /-- The outermost call of a task returns. -/
  | finishes (task : Nat)
  /-- The promise of work is to be settled, with or without success. -/
  | delivers (h : PromiseHandle) (failure : Option Fault)
  | fails (e : Fault)

/-- The fault of something that fails. -/
def Event.fault? : Event → Option Fault
  | fails e => some e
  | delivers _ failure => failure
  | _ => none

namespace Machine

/-- What settling a promise does to a machine: those who waited are ready. -/
structure Settles (h : PromiseHandle) (m m' : Machine) : Prop where
  settled : ∃ s waiters, s.isSettled = true ∧ m.promises.settle h s = .ok (waiters, m'.promises) ∧
    m'.ready = m.ready ++ waiters
  work : m'.work = m.work
  tasks : m'.tasks = m.tasks
  nextTask : m'.nextTask = m.nextTask

/-- What an instruction of a task that goes on, or fails, does to a machine. -/
inductive Effect (img : Image) (t : Task) (m m' : Machine) : List Event → Prop
  | quiet (same : m.SameSchedule m') : Effect img t m m' []
  /-- It asks for work and has a promise for it. -/
  | submits {op args} (call : t.hostCall? img = some (op, args)) (async : op.isAsync = true)
      (r : Request) (promises : m'.promises = m.promises.create.2)
      (work : m'.work = m.work.submit m.promises.create.1 r) (tasks : m'.tasks = m.tasks)
      (ready : m'.ready = m.ready) (nextTask : m'.nextTask = m.nextTask) :
      Effect img t m m' [.submits m.promises.create.1]
  /-- It starts a task and has a promise for it. -/
  | spawns {args slot index env task} (call : t.hostCall? img = some (.taskSpawn, args))
      (arguments : args[0]? = some (.i32 slot) ∧ args[1]? = some env)
      (entry : img.tableEntry slot = .ok index)
      (enters : (Task.ofArgs m.nextTask
        [Run.ofNat m.promises.create.1.number, env]).enter img index = .ok task)
      (promises : m'.promises = m.promises.create.2) (work : m'.work = m.work)
      (tasks : m'.tasks = task :: m.tasks) (ready : m'.ready = m.ready ++ [m.nextTask])
      (nextTask : m'.nextTask = m.nextTask + 1) :
      Effect img t m m' [.starts m.nextTask index m.promises.create.1]
  /-- It has a promise for a task that cannot be started. -/
  | abandons {args} (call : t.hostCall? img = some (.taskSpawn, args))
      (promises : m'.promises = m.promises.create.2) (work : m'.work = m.work)
      (tasks : m'.tasks = m.tasks) (ready : m'.ready = m.ready)
      (nextTask : m.nextTask ≤ m'.nextTask) : Effect img t m m' []
  /-- It settles a promise. -/
  | settles {op args w} (call : t.hostCall? img = some (op, args))
      (settling : op = .promiseResolve ∨ op = .promiseReject) (argument : args[0]? = some (.i32 w))
      (settles : m.Settles ⟨w.toNat⟩ m') : Effect img t m m' [.settles t.id ⟨w.toNat⟩]

/-- What an instruction does to a machine after which the task with a number has to wait for a
promise. -/
structure Waits (id : Nat) (h : PromiseHandle) (m m' : Machine) : Prop where
  wait : m.promises.wait h id = .ok (none, m'.promises)
  work : m'.work = m.work
  tasks : m'.tasks = m.tasks
  ready : m'.ready = m.ready
  nextTask : m'.nextTask = m.nextTask

variable {img : Image} {t : Task} {m m₁ m' : Machine} {log : List Event}

theorem Settles.after {h : PromiseHandle} (hs : m₁.Settles h m') (same : m.SameSchedule m₁) : m.Settles h m' := by
  obtain ⟨⟨s, waiters, hsettled, hsettle, hready⟩, work, tasks, nextTask⟩ := hs
  rw [same.promises] at hsettle
  rw [same.ready] at hready
  exact ⟨⟨s, waiters, hsettled, hsettle, hready⟩, work.trans same.work, tasks.trans same.tasks,
    nextTask.trans same.nextTask⟩

theorem Effect.after (h : Effect img t m₁ m' log) (same : m.SameSchedule m₁) : Effect img t m m' log := by
  cases h with
  | quiet same' => exact .quiet (same.trans same')
  | submits call async r promises work tasks ready nextTask =>
    rw [same.promises] at promises work ⊢
    rw [same.work] at work
    exact .submits call async r promises work (tasks.trans same.tasks) (ready.trans same.ready)
      (nextTask.trans same.nextTask)
  | spawns call arguments entry enters promises work tasks ready nextTask =>
    rw [same.nextTask, same.promises] at enters
    rw [same.promises] at promises ⊢
    rw [same.tasks] at tasks
    rw [same.ready, same.nextTask] at ready
    rw [same.nextTask] at nextTask ⊢
    exact .spawns call arguments entry enters promises (work.trans same.work) tasks ready nextTask
  | abandons call promises work tasks ready nextTask =>
    rw [same.promises] at promises
    rw [same.nextTask] at nextTask
    exact .abandons call promises (work.trans same.work) (tasks.trans same.tasks) (ready.trans same.ready) nextTask
  | settles call settling argument settles =>
    exact .settles call settling argument (settles.after same)

end Machine

/-! ### Functions of the host -/

namespace Run

variable {img : Image} {t : Task} {op : HostImport} {args : List Value} {m : Machine}

/-- What a reply of a function of the host leaves. -/
def Reply.Follows (img : Image) (t : Task) (m : Machine) : Reply → Machine → Prop
  | .value _, m' => ∃ log, m.Effect img t m' log
  | .suspend h, m' => (∃ args, t.hostCall? img = some (.promiseAwait, args)) ∧ m.Waits t.id h m'

/-- The faults of functions of the host. -/
inductive HostFault (img : Image) (t : Task) (m : Machine) : Fault → Prop
  | ordinary {e} (he : e.Ordinary) : HostFault img t m e
  /-- A task cannot be started. -/
  | spawn {args slot index task e} (call : t.hostCall? img = some (.taskSpawn, args))
      (entry : img.tableEntry slot = .ok index) (enter : Task.enter img task index = .error e) :
      HostFault img t m e
  /-- A promise is already settled. -/
  | settle {op args w p} (call : t.hostCall? img = some (op, args))
      (settling : op = .promiseResolve ∨ op = .promiseReject) (argument : args[0]? = some (.i32 w))
      (promise : m.promises.get? ⟨w.toNat⟩ = some p) (settled : p.state.isSettled = true) :
      HostFault img t m (.promise (.alreadySettled ⟨w.toNat⟩))

/-- What a failed call of a function of the host leaves. -/
def HostFails (img : Image) (t : Task) (m : Machine) (e : Fault) (m' : Machine) : Prop :=
  HostFault img t m e ∧ ∃ log, m.Effect img t m' log

variable {m₁ : Machine} {e : Fault}

theorem HostFault.after (h : HostFault img t m₁ e) (same : m.SameSchedule m₁) : HostFault img t m e := by
  cases h with
  | ordinary he => exact .ordinary he
  | spawn call entry enter => exact .spawn call entry enter
  | settle call settling argument promise settled =>
    exact .settle call settling argument (same.promises ▸ promise) settled

theorem HostFails.of_ordinary {m' : Machine} (he : e.Ordinary) (same : m.SameSchedule m') : HostFails img t m e m' :=
  ⟨.ordinary he, [], .quiet same⟩

theorem Quiet.hostFails {α β : Type} {x : Run α} {f : α → Run β} {Q : β → Machine → Prop}
    (hx : Quiet x) (hf : ∀ a m', m.SameSchedule m' → Ends (f a) m' (HostFails img t m) Q) :
    Ends (x >>= f) m (HostFails img t m) Q :=
  ends_bind ((hx m).mono (fun _ _ h => .of_ordinary h.1 h.2) hf)

theorem ends_give {x : Run Value} (h : Ends x m (HostFails img t m) fun _ m' =>
    ∃ log, m.Effect img t m' log) : Ends (give x) m (HostFails img t m) (Reply.Follows img t m) :=
  ends_bind (h.mono (fun _ _ h => h) fun _ _ h => ends_pure h)

theorem ends_finish {x : Run Unit} (h : Ends x m (HostFails img t m) fun _ m' =>
    ∃ log, m.Effect img t m' log) : Ends (finish x) m (HostFails img t m) (Reply.Follows img t m) :=
  ends_bind (h.mono (fun _ _ h => h) fun _ _ h => ends_pure h)

theorem Quiet.follows {α : Type} {x : Run α} (hx : Quiet x) :
    Ends x m (HostFails img t m) fun _ m' => ∃ log, m.Effect img t m' log :=
  (hx m).mono (fun _ _ h => .of_ordinary h.1 h.2) fun _ _ h => ⟨[], .quiet h⟩

theorem submit_ends (call : t.hostCall? img = some (op, args))
    (async : op.isAsync = true) (r : Request) (same : m.SameSchedule m₁) :
    Ends (submit r) m₁ (HostFails img t m) fun _ m' => ∃ log, m.Effect img t m' log := by
  refine ends_bind (ends_bind (ends_get (ends_bind (ends_set (ends_pure ?_)))))
  refine ends_bind (ends_modify (ends_pure ⟨[.submits m₁.promises.create.1], ?_⟩))
  exact Machine.Effect.after (.submits call async r rfl rfl rfl rfl rfl) same

/-- A new task has the next number and is ready; a task that cannot start takes a number. -/
theorem spawn_ends (img : Image) (index : Nat) (args : List Value) (m : Machine) : Ends (spawn img index args) m
      (fun e m' => (Task.ofArgs m.nextTask args).enter img index = .error e ∧
        m' = { m with nextTask := m.nextTask + 1 })
      fun id m' => ∃ t, (Task.ofArgs m.nextTask args).enter img index = .ok t ∧ id = m.nextTask ∧
        m' = { m with
          nextTask := m.nextTask + 1, tasks := t :: m.tasks, ready := m.ready ++ [m.nextTask] } := by
  refine ends_bind (ends_get (ends_bind (ends_modify ?_)))
  refine ends_bind (ends_ofExcept (fun t ht => ?_) fun e he => ⟨he, rfl⟩)
  exact ends_bind (ends_modify (ends_bind (ends_modify (ends_pure ⟨t, ht, rfl, rfl⟩))))

theorem settle_ends {s : PromiseState} (h : PromiseHandle) (settled : s.isSettled = true) (m : Machine) :
    Ends (settle h s) m (fun e m' => m' = m ∧ ∃ f, e = .promise f ∧ m.promises.settle h s = .error f)
      fun _ m' => m.Settles h m' := by
  refine ends_bind (ends_get ?_)
  cases hs : m.promises.settle h s with
  | error f => exact ends_throw ⟨rfl, f, rfl, rfl⟩
  | ok r => exact ends_bind (ends_set (ends_modify ⟨⟨s, r.1, settled, hs, rfl⟩, rfl, rfl, rfl⟩))

theorem settleCall_ends {s : PromiseState} {w : BitVec 32} (call : t.hostCall? img = some (op, args))
    (settling : op = .promiseResolve ∨ op = .promiseReject) (argument : args[0]? = some (.i32 w))
    (settled : s.isSettled = true) (same : m.SameSchedule m₁) :
    Ends (settle ⟨w.toNat⟩ s) m₁ (HostFails img t m) fun _ m' => ∃ log, m.Effect img t m' log := by
  refine (settle_ends _ settled m₁).mono ?_ ?_
  · rintro e _ ⟨rfl, f, rfl, hf⟩
    rw [same.promises] at hf
    obtain rfl | ⟨p, hp, hp', rfl⟩ := PromiseRegistry.settle_eq_error hf
    · exact .of_ordinary ⟨trivial, id⟩ same
    · exact ⟨.settle call settling argument hp hp', [], .quiet same⟩
  · exact fun _ m' h => ⟨_, .settles call settling argument (h.after same)⟩

theorem awaitPromise_ends (call : t.hostCall? img = some (.promiseAwait, args)) (h : PromiseHandle)
    (same : m.SameSchedule m₁) : Ends (awaitPromise t.id h) m₁ (HostFails img t m) (Reply.Follows img t m) := by
  refine ends_bind (ends_get ?_)
  rcases hw : m₁.promises.wait h t.id with e | ⟨state, promises⟩
  · obtain rfl := PromiseRegistry.wait_eq_error hw
    exact ends_throw (.of_ordinary ⟨trivial, id⟩ same)
  · obtain _ | _ | v | v := state
    · rw [same.promises] at hw
      exact ends_bind (ends_set (ends_pure ⟨⟨args, call⟩, hw, same.work, same.tasks, same.ready, same.nextTask⟩))
    · obtain ⟨p, -, hp, hs, -⟩ := PromiseRegistry.wait_eq_some.1 hw
      rw [hs] at hp
      cases hp
    · exact ends_pure ⟨[], .quiet same⟩
    · exact ends_throw (.of_ordinary ⟨trivial, id⟩ same)

theorem enter_eq_error {index : Nat} (h : t.enter img index = .error e) :
    e.Ordinary ∨ img.defined? index = none ∧ e = .unknownFunction index := by
  unfold Task.enter at h
  split at h
  next missing =>
    cases h
    exact .inr ⟨missing, rfl⟩
  next =>
    dsimp only at h
    split at h
    · cases h
      exact .inl ⟨trivial, id⟩
    · split at h <;> cases h
      exact .inl ⟨trivial, id⟩

theorem fails_enter (img : Image) (t : Task) (index : Nat) : Fails Fault.Plain (t.enter img index) := by
  intro e he
  obtain he | ⟨-, rfl⟩ := enter_eq_error he
  · exact he.1
  · trivial

theorem fails_tableEntry (img : Image) (slot : BitVec 32) : Fails Fault.Ordinary (img.tableEntry slot) := by
  unfold Image.tableEntry
  dsimp only
  split
  · exact fails_ok _
  · exact fails_error ⟨trivial, id⟩

theorem HostFault.ofTask (h : HostFault img t m e) : e.OfTask := by
  cases h with
  | ordinary he => exact he.1.ofTask
  | spawn call entry enter => exact (fails_enter _ _ _ e enter).ofTask
  | settle => trivial

theorem spawnTask_ends (call : t.hostCall? img = some (.taskSpawn, args)) :
    Ends (hostCall img t.id args .taskSpawn) m (HostFails img t m) (Reply.Follows img t m) := by
  refine ends_give (ends_bind ((argI32_ends args 0 m).mono ?_ ?_))
  · rintro e _ ⟨he, rfl⟩
    exact .of_ordinary he (.refl _)
  rintro slot _ ⟨rfl, hslot⟩
  refine ends_bind (ends_ofExcept (fun index hindex => ?_) fun e he =>
    .of_ordinary (fails_tableEntry img slot e he) (.refl _))
  refine ends_bind (ends_bind (ends_get (ends_bind (ends_set (ends_pure ?_)))))
  unfold argument
  split
  next env henv =>
    refine ends_bind (ends_pure (ends_bind ((spawn_ends img index _ _).mono ?_ ?_)))
    · rintro e _ ⟨he, rfl⟩
      exact ⟨.spawn call hindex he, [], .abandons call rfl rfl rfl rfl (Nat.le_succ _)⟩
    · rintro id _ ⟨task, henter, rfl, rfl⟩
      exact ends_pure ⟨_, .spawns call ⟨hslot, henv⟩ hindex henter rfl rfl rfl rfl rfl⟩
  next =>
    exact ends_bind (ends_throw ⟨.ordinary (Fault.Local.ordinary trivial), [],
      .abandons call rfl rfl rfl rfl (Nat.le_refl _)⟩)

/-- What a call of a function of the host does. -/
theorem hostCall_ends (call : t.hostCall? img = some (op, args)) :
    Ends (hostCall img t.id args op) m (HostFails img t m) (Reply.Follows img t m) := by
  cases op with
  | log =>
    refine ends_finish ((quiet_argText args 0).hostFails fun line m₁ same => ?_)
    split
    · exact ends_modify ⟨[], .quiet (same.trans ⟨rfl, rfl, rfl, rfl, rfl⟩)⟩
    · exact ends_pure ⟨[], .quiet same⟩
  | alloc =>
    exact ends_give (((quiet_argI32 args 0).bind fun size =>
      (quiet_onMemory (Memory.fails_alloc _)).bind fun _ => quiet_pure _).follows)
  | httpGet =>
    exact ends_give ((quiet_argText args 0).hostFails fun url m₁ same => submit_ends call rfl _ same)
  | httpPost =>
    exact ends_give ((quiet_argText args 0).hostFails fun url m₁ same =>
      ends_bind ((quiet_argBytes args 2 m₁).mono (fun e _ h => .of_ordinary h.1 (same.trans h.2))
        fun body m₂ h => submit_ends call rfl _ (same.trans h)))
  | fileRead =>
    exact ends_give ((quiet_argText args 0).hostFails fun path m₁ same => submit_ends call rfl _ same)
  | fileWrite =>
    exact ends_give ((quiet_argText args 0).hostFails fun path m₁ same =>
      ends_bind ((quiet_argBytes args 2 m₁).mono (fun e _ h => .of_ordinary h.1 (same.trans h.2))
        fun contents m₂ h => submit_ends call rfl _ (same.trans h)))
  | timerSchedule =>
    exact ends_give ((quiet_argI32 args 0).hostFails fun ms m₁ same =>
      ends_bind (ends_get (submit_ends call rfl _ same)))
  | taskSpawn => exact spawnTask_ends call
  | promiseResolve | promiseReject =>
    refine ends_finish (ends_bind (ends_bind ((argI32_ends args 0 m).mono ?_ ?_)))
    · rintro e _ ⟨he, rfl⟩
      exact .of_ordinary he (.refl _)
    · rintro w _ ⟨rfl, hw⟩
      exact ends_pure ((quiet_argI64 args 1).hostFails fun v m₁ same =>
        settleCall_ends call (by simp) hw rfl same)
  | promiseAwait =>
    exact ((quiet_argI32 args 0).bind fun w => quiet_pure _).hostFails fun h m₁ same =>
      awaitPromise_ends call h same
  | fmtI64 | fmtU64 =>
    exact ends_give (((quiet_argI64 args 0).bind fun n => quiet_textValue _).follows)
  | fmtF64 =>
    exact ends_give (((quiet_argument args 0).bind fun v => (quiet_operand (fails_toF64 v)).bind fun x =>
      quiet_textValue _).follows)

/-! ### Finished work -/

theorem quiet_resultObject (tag : Nat) (payload : Value) : Quiet (resultObject tag payload) :=
  (quiet_onMemory (Memory.fails_alloc _)).bind fun _ =>
    (quiet_onMemory (Memory.fails_store _ _ _ _)).bind fun _ =>
      (quiet_onMemory (Memory.fails_store _ _ _ _)).bind fun _ => quiet_pure _

theorem quiet_outcomePayload (o : Outcome) : Quiet (outcomePayload o) := by
  rcases o with _ | (message | bytes) | (message | n)
  · exact quiet_pure _
  · exact (quiet_textValue message).bind fun _ => quiet_resultObject 1 _
  · exact (quiet_onMemory (Memory.fails_allocStr bytes)).bind fun _ => quiet_resultObject 0 _
  · exact (quiet_textValue message).bind fun _ => quiet_resultObject 1 _
  · exact quiet_resultObject 0 _

/-- Finished work settles its promise, or its payload finds no room, or the promise cannot be
settled. -/
theorem complete_ends (c : Completion) (m : Machine) :
    Ends (complete c) m (fun e m' => e.OfTask ∧ m.SameSchedule m' ∧ ((∃ m₁, outcomePayload c.outcome m = .error e m₁) ∨
          ∃ f s, e = .promise f ∧ m.promises.settle c.handle s = .error f)) fun _ m' => m.Settles c.handle m' := by
  refine ends_bind ((quiet_outcomePayload c.outcome m).withRun.mono ?_ ?_)
  · rintro e m₁ ⟨hrun, he, same⟩
    exact ⟨he.1.ofTask, same, .inl ⟨m₁, hrun⟩⟩
  · rintro payload m₁ ⟨-, same⟩
    refine (settle_ends (s := .resolved payload) c.handle rfl m₁).mono ?_ fun _ _ h => h.after same
    rintro e _ ⟨rfl, f, rfl, hf⟩
    rw [same.promises] at hf
    exact ⟨trivial, same, .inr ⟨f, _, rfl, hf⟩⟩

end Run

end StackScript
