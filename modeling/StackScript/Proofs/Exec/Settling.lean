import StackScript.Proofs.Emit.Roles
import StackScript.Proofs.Exec.Position
import StackScript.Proofs.Exec.Integrity

/-!
# Tasks settle their own promises

A loaded module whose functions have roles, and what its tasks keep.  The outermost call of a started
task has the task's promise in its first local for as long as it runs; it settles this promise once, and
returns right after.  No other call settles a promise.
-/

namespace StackScript

open Code (flatList)

/-! ## Loaded modules -/

/-- Code of a function with a role inside a number of labels. -/
def Code.Ahead (plan : Plan) (r : Role) (depth : Nat) (code : List Code) : Prop :=
  Careful plan r r.kept .idle code ∧ (r = .task → depth = 0 → Closed code)

/-- The functions of a loaded module have roles. -/
structure Image.Cast (img : Image) (plan : Plan) (role : Nat → Role) : Prop where
  plays : ∀ {place : Nat} {fn : LoadedFunction}, img.functions[place]? = some fn →
    fn.Holds (Code.Ahead plan (role (img.imports.size + place)))
  task : ∀ {place : Nat} {fn : LoadedFunction}, img.functions[place]? = some fn →
    role (img.imports.size + place) = .task → fn.ty = .of [.i32, .i32] none
  calls : ∀ {i : Nat}, plan.Calls i → i < Layout.addressLimit ∧ role i ≠ .task ∧
    ∀ h, HostImport.ofIndex? i = some h →
      h ≠ .taskSpawn ∧ h ≠ .promiseResolve ∧ h ≠ .promiseReject
  hosts : ∀ h : HostImport, ∃ i, img.imports[h.index]? = some i ∧ i.ty = h.ty
  slots : ∀ {i slot : Nat}, role i = .starter slot →
    ∃ j, img.tableEntry (BitVec.ofNat 32 slot) = .ok j ∧ role j = .task
  offers : ∀ {i : Nat}, img.source.Offers i → role i ≠ .task

theorem Image.tableEntry_eq_ok {img : Image} {slot index : Nat} (hslot : slot < twoPow 31)
    (h : img.table[slot]? = some index) : img.tableEntry (BitVec.ofNat 32 slot) = .ok index := by
  have htwo : twoPow 31 = 2 ^ 31 := rfl
  have hnat : (BitVec.ofNat 32 slot).toNat = slot := by
    rw [BitVec.toNat_ofNat]
    omega
  have hint : (BitVec.ofNat 32 slot).toInt = slot := by
    rw [BitVec.toInt_eq_toNat_of_lt (by omega), hnat]
  simp [tableEntry, hint, h]

/-- Async functions are two functions each, so their slots have 31 bits. -/
theorem Plan.length_entries_lt {p : Typed.Program} (hfits : fits p = true) :
    (entries (placed p)).length < twoPow 31 := by
  have hlimit : afterRoutines p + Intrinsic.all.length ≤ Layout.addressLimit := by
    simpa [fits] using hfits
  have hle : (entries (placed p)).length ≤ (placed p).length := by
    rw [entries, List.length_map]
    exact List.length_filter_le _ _
  have htwo : Layout.addressLimit = 2 * twoPow 31 := by decide
  have hall : Intrinsic.all.length = 3 := rfl
  simp only [afterRoutines] at hlimit
  omega

/-- **A compiled module is loaded with the roles of its functions.** -/
theorem Compiled.cast {p : Typed.Program} {config : CompileConfig} {fns : List Function}
    {st : Emit.State} {m : Module} (h : Compiled p config fns st m) {runConfig : RunConfig} {img : Image}
    (himg : Image.ofModule m runConfig = .ok img) : img.Cast (Plan.ofProgram p config) (Plan.role p) := by
  obtain ⟨hsource, himports, -, htable, -, -⟩ := Image.ofModule_eq_ok himg
  have hsize : img.imports.size = m.imports.length := by
    rw [himports, List.size_toArray]
  refine {
    plays := fun {place fn} hfn => ?_
    task := fun {place fn} hfn htask => ?_
    calls := fun {i} hcalls => ?_
    hosts := fun host => ?_
    slots := fun {i slot} hstarter => ?_
    offers := fun {i} hoffers => ?_ }
  · obtain ⟨f, hf, hload⟩ := Image.exists_load himg hfn
    obtain ⟨code, hbody, hcareful, hclosed⟩ := (h.plays hf).body
    rw [hsize]
    exact Image.holds_of_load hload hbody ⟨hcareful, fun htask _ => hclosed htask⟩
  · obtain ⟨f, hf, hload⟩ := Image.exists_load himg hfn
    obtain ⟨j, -, rfl⟩ := Image.load_eq_ok hload
    rw [hsize] at htask
    exact ((h.plays hf).task htask).1
  · have hcallable := Plan.Calls.spec hcalls
    exact ⟨hcallable.small h.fits, hcallable.role, hcallable.host⟩
  · refine ⟨⟨HostImport.provider, host.text, host.ty⟩, ?_, rfl⟩
    rw [himports, h.imports, List.getElem?_toArray, Plan.imports]
    have hall : HostImport.all[host.index]? = some host := HostImport.ofIndex?_index host
    rw [List.getElem?_append_left (by simpa [HostImport.imports] using host.index_lt), HostImport.imports,
      List.getElem?_map, hall]
    rfl
  · obtain ⟨j, hj, htask⟩ := Plan.entry_of_starter hstarter
    obtain ⟨k, -, hentries⟩ := h.emitted.table
    obtain ⟨hlt, -⟩ := List.getElem?_eq_some_iff.1 hj
    have hsmall : j < Layout.addressLimit := by
      have hlimit : Plan.afterRoutines p + Intrinsic.all.length ≤ Layout.addressLimit := by
        simpa [Plan.fits] using h.fits
      have hbefore : j < Plan.afterRoutines p := by
        refine Nat.lt_of_not_le fun hge => ?_
        rw [Plan.role_of_ge hge] at htask
        cases htask
      omega
    refine ⟨j, Image.tableEntry_eq_ok (Nat.lt_trans hlt (Plan.length_entries_lt h.fits)) ?_, htask⟩
    rw [htable, List.getElem?_toArray, h.table, hentries, List.map_append, List.map_append,
      List.getElem?_append_left (by simpa using hlt), List.getElem?_map, List.getElem?_map, hj]
    simp [toNat_toUInt32 hsmall]
  · rw [hsource] at hoffers
    cases hoffers with
    | start hstart => exact h.role_start hstart
    | main hmain => exact h.role_main hmain
    | exported hexported => exact h.role_export hexported

/-- A loaded module with the roles of its functions. -/
structure Staging where
  image : Image
  plan : Plan
  role : Nat → Role
  cast : image.Cast plan role

/-! ## Code ahead of a frame -/

theorem Code.Closed.of_cons {c : Code} {xs : List Code} (h : Closed (c :: xs))
    (hunreachable : c ≠ .op .unreachable) (hreturn : c ≠ .op .return_) : Closed xs := by
  cases xs with
  | nil =>
    obtain h | h := h
    · exact absurd (Option.some.inj h) hunreachable
    · exact absurd (Option.some.inj h) hreturn
  | cons x xs => simpa only [Closed, List.getLast?_cons_cons] using h

theorem Code.not_closed_nil : ¬Closed [] := by
  rintro (h | h) <;> cases h

/-- Constructs are entered only where no call of the role is under way. -/
theorem Code.opens_ahead (plan : Plan) (r : Role) :
    Code.Opens (fun d code => (∃ stage, Careful plan r r.kept stage code) ∧ (r = .task → d = 0 → Closed code))
      (Ahead plan r) where
  nil _ := ⟨.nil, nofun⟩
  block := by
    rintro d ty body xs ⟨⟨stage, hcareful⟩, hclosed⟩
    cases hcareful with
    | block inner rest => exact ⟨⟨inner, nofun⟩, rest, fun ht hd => (hclosed ht hd).of_cons nofun nofun⟩
  loop := by
    rintro d body xs ⟨⟨stage, hcareful⟩, hclosed⟩
    cases hcareful with
    | loop inner rest => exact ⟨⟨inner, nofun⟩, rest, fun ht hd => (hclosed ht hd).of_cons nofun nofun⟩
  cond := by
    rintro d ty body xs ⟨⟨stage, hcareful⟩, hclosed⟩
    cases hcareful with
    | cond inner rest => exact ⟨⟨inner, nofun⟩, rest, fun ht hd => (hclosed ht hd).of_cons nofun nofun⟩
  condElse := by
    rintro d ty body other xs ⟨⟨stage, hcareful⟩, hclosed⟩
    cases hcareful with
    | condElse inner inner' rest =>
      exact ⟨⟨inner, nofun⟩, ⟨inner', nofun⟩, rest, fun ht hd => (hclosed ht hd).of_cons nofun nofun⟩

/-! ## Frames -/

variable {fn : LoadedFunction}

namespace Frame

/-- The role of the function that a frame runs. -/
def role (S : Staging) (f : Frame) : Role :=
  S.role (S.image.imports.size + f.function)

/-- A frame that has some code of a function ahead, and how far it is with the call of its role. -/
structure Faces (S : Staging) (fn : LoadedFunction) (B : List Instr) (rest : List Code) (stage : Stage)
    (f : Frame) : Prop where
  function : S.image.functions[f.function]? = some fn
  body : fn.body = B.toArray
  stands : Stands (Code.Ahead S.plan (f.role S)) B fn.jumps f.pc rest f.labels
  careful : Code.Careful S.plan (f.role S) (f.role S).kept stage rest
  closed : f.role S = .task → f.labels.length = 0 → Code.Closed rest

/-- A frame that stands in careful code. -/
def Acts (S : Staging) (stage : Stage) (f : Frame) : Prop :=
  ∃ fn B rest, f.Faces S fn B rest stage

/-- The frame of a task's own function is the outermost one of a started task, and has the task's
promise in its first local. -/
inductive Suits (S : Staging) : Option PromiseHandle → Frame → List Frame → Prop
  | task {h f} (role : f.role S = .task) (promise : f.locals[0]? = some (Run.ofNat h.number)) :
      Suits S (some h) f []
  | ordinary {f} (role : f.role S ≠ .task) : Suits S none f []
  | inner {own f g outer} (role : f.role S ≠ .task) : Suits S own f (g :: outer)

/-- Frames that wait for inner calls. -/
inductive Waiting (S : Staging) (own : Option PromiseHandle) : List Frame → Prop
  | nil : Waiting S own []
  | cons {f outer} (acts : f.Acts S .idle) (suits : f.Suits S own outer) (rest : Waiting S own outer) :
      Waiting S own (f :: outer)

/-- What a frame names for the call of its role: the promise of the task, or the slot of the task. -/
def subject (S : Staging) (f : Frame) : Option Value :=
  match f.role S with
  | .task => f.locals[0]?
  | .starter slot => some (Run.ofNat slot)
  | .ordinary => none

variable {S : Staging} {f : Frame} {outer : List Frame} {own : Option PromiseHandle}

theorem Suits.outermost (h : f.Suits S own outer) (task : f.role S = .task) :
    outer = [] ∧ ∃ h, own = some h ∧ f.locals[0]? = some (Run.ofNat h.number) := by
  cases h with
  | task _ promise => exact ⟨rfl, _, rfl, promise⟩
  | ordinary role | inner role => exact absurd task role

theorem Suits.own_eq_none (h : f.Suits S own []) (role : f.role S ≠ .task) : own = none := by
  cases h with
  | task role' => exact absurd role' role
  | ordinary => rfl

/-- The same function with the same first local, if it is that of a task. -/
theorem Suits.of_eq {f' : Frame} (h : f.Suits S own outer) (hrole : f'.role S = f.role S)
    (hlocal : f.role S = .task → f'.locals[0]? = f.locals[0]?) : f'.Suits S own outer := by
  cases h with
  | task role promise => exact .task (hrole.trans role) ((hlocal role).trans promise)
  | ordinary role => exact .ordinary (hrole ▸ role)
  | inner role => exact .inner (hrole ▸ role)

/-- Behind an instruction, with other locals. -/
theorem Faces.next {fn : LoadedFunction} {B : List Instr} {o : Op} {xs : List Code} {stage stage' : Stage}
    (h : f.Faces S fn B (.op o :: xs) stage)
    (hstands : Stands (Code.Ahead S.plan (f.role S)) B fn.jumps (f.pc + 1) xs f.labels)
    (hcareful : Code.Careful S.plan (f.role S) (f.role S).kept stage' xs) (hunreachable : o ≠ .unreachable)
    (hreturn : o ≠ .return_) (locals : Array Value) : ({ f with pc := f.pc + 1, locals } : Frame).Acts S stage' := by
  refine ⟨fn, B, xs, h.function, h.body, hstands, hcareful, fun task hlabels => ?_⟩
  refine (h.closed task hlabels).of_cons (fun heq => hunreachable ?_) fun heq => hreturn ?_
  · exact Code.op.inj heq
  · exact Code.op.inj heq

/-- At another place of the same body. -/
theorem Faces.jump {B : List Instr} {rest rest' : List Code} {stage : Stage}
    {labels : List Label} {pc : Nat} (h : f.Faces S fn B rest stage)
    (hstands : Stands (Code.Ahead S.plan (f.role S)) B fn.jumps pc rest' labels)
    (hahead : Code.Ahead S.plan (f.role S) labels.length rest') : ({ f with pc, labels } : Frame).Acts S .idle :=
  ⟨fn, B, rest', h.function, h.body, hstands, hahead.1, hahead.2⟩

end Frame

/-- The operands while the call of a role is under way: what is named, and the value for it. -/
def Stage.Holds (subject : Option Value) : Stage → Stack → Prop
  | .idle, _ | .made, _ => True
  | .named, s => ∃ v rest, subject = some v ∧ s = v :: rest
  | .given, s => ∃ w v rest, subject = some v ∧ s = w :: v :: rest

/-! ## Tasks -/

namespace Task

variable {S : Staging} {f : Frame} {outer : List Frame} {stage : Stage} {own : Option PromiseHandle} {t t' : Task}

/-- A task with a promise of its own, or none, whose innermost call is at a stage. -/
structure At (S : Staging) (own : Option PromiseHandle) (stage : Stage) (f : Frame) (outer : List Frame)
    (t : Task) : Prop where
  frames : t.frames = f :: outer
  acts : f.Acts S stage
  suits : f.Suits S own outer
  waiting : Frame.Waiting S own outer
  holds : stage.Holds (f.subject S) t.stack
  awaits : t.awaiting ≠ none → stage = .idle

/-- A task with a promise of its own, or none, and whether it has settled it. -/
def Tends (S : Staging) (own : Option PromiseHandle) (done : Prop) (t : Task) : Prop :=
  ∃ f outer stage, t.At S own stage f outer ∧ (done ↔ stage = .made ∧ f.role S = .task)

/-- A task in the middle of ordinary code. -/
theorem Tends.of_idle (frames : t.frames = f :: outer) (acts : f.Acts S .idle)
    (suits : f.Suits S own outer) (waiting : Frame.Waiting S own outer) : t.Tends S own False :=
  ⟨f, outer, .idle, ⟨frames, acts, suits, waiting, trivial, fun _ => rfl⟩, by simp⟩

/-- A function starts at the start of its code. -/
theorem acts_start {place : Nat} (hfn : S.image.functions[place]? = some fn)
    (locals : Array Value) (base : Nat) : (⟨place, 0, locals, base, []⟩ : Frame).Acts S .idle := by
  obtain ⟨code, hbody, hlocates, hcareful, hclosed⟩ := S.cast.plays hfn
  exact ⟨fn, _, code, hfn, hbody, .top List.drop_zero hlocates, hcareful, hclosed⟩

variable {index : Nat} {done : Prop} {args : List Value}

/-- A call of a function that is no task. -/
theorem Tends.enter (h : t.enter S.image index = .ok t') (hrole : S.role index ≠ .task)
    (hframes : t.frames = [] → own = none) (hwaiting : Frame.Waiting S own t.frames) : t'.Tends S own False := by
  obtain ⟨place, fn, args, rest, ⟨hfn, rfl⟩, -, -, rfl⟩ := Run.enter_eq_ok h
  refine .of_idle rfl (acts_start hfn _ _) ?_ hwaiting
  cases hcase : t.frames with
  | nil =>
    obtain rfl := hframes hcase
    exact .ordinary hrole
  | cons g outer => exact .inner hrole

/-- A task starts with its promise. -/
theorem Tends.start {id : Nat} {h : PromiseHandle} {env : Value}
    (henter : (Task.ofArgs id [Run.ofNat h.number, env]).enter S.image index = .ok t)
    (hrole : S.role index = .task) : t.Tends S (some h) False := by
  obtain ⟨place, fn, args, rest, ⟨hfn, rfl⟩, -, hsplit, rfl⟩ := Run.enter_eq_ok henter
  refine .of_idle rfl (acts_start hfn _ _) (.task hrole ?_) .nil
  rw [S.cast.task hfn hrole] at hsplit
  obtain rfl : [Run.ofNat h.number, env] = args := by
    cases hsplit
    rfl
  rw [Array.getElem?_append_left (by simp)]
  rfl

theorem Tends.congr {done' : Prop} (h : t.Tends S own done) (hdone : done ↔ done') : t.Tends S own done' := by
  obtain ⟨f, outer, stage, hat, hstage⟩ := h
  exact ⟨f, outer, stage, hat, hdone.symm.trans hstage⟩

/-- A task gets the value that it has waited for. -/
theorem Tends.resume (h : t.Tends S own done) (awaits : t.awaiting ≠ none) (v : Value) :
    ({ t with awaiting := none, stack := v :: t.stack } : Task).Tends S own done := by
  obtain ⟨f, outer, stage, hat, hdone⟩ := h
  obtain rfl := hat.awaits awaits
  exact ⟨f, outer, .idle, ⟨hat.frames, hat.acts, hat.suits, hat.waiting, trivial, fun _ => rfl⟩, hdone⟩

/-! ### Functions of the host -/

theorem toNat_host (host : HostImport) : host.index.toUInt32.toNat = host.index :=
  toNat_toUInt32 (Nat.lt_trans host.index_lt (by decide))

/-- **Only the call of a role starts a task or settles a promise**, with what the role names. -/
theorem At.hostCall (h : t.At S own stage f outer) {op : HostImport} (call : t.hostCall? S.image = some (op, args))
    (hop : op = .taskSpawn ∨ op = .promiseResolve ∨ op = .promiseReject) :
    stage = .given ∧ (∃ v, f.subject S = some v ∧ args[0]? = some v) ∧ ((op = .promiseResolve ∧ f.role S = .task) ∨
        (op = .taskSpawn ∧ ∃ slot, f.role S = .starter slot)) := by
  obtain ⟨fn, B, rest, hfaces⟩ := h.acts
  simp only [hostCall?, h.frames, List.head?_cons, Option.bind_eq_bind, Option.bind_some, hfaces.function] at call
  obtain ⟨instr, hinstr, call⟩ := Option.bind_eq_some_iff.1 call
  split at call
  next index =>
    obtain ⟨i, hi, call⟩ := Option.bind_eq_some_iff.1 call
    obtain ⟨op', hindex, call⟩ := Option.bind_eq_some_iff.1 call
    obtain ⟨⟨args', rest'⟩, hsplit, call⟩ := Option.bind_eq_some_iff.1 call
    cases call
    rw [hfaces.body, List.getElem?_toArray] at hinstr
    obtain ⟨xs, rfl⟩ := hfaces.stands.exists_op hinstr
    have hmade {host : HostImport} (hhost : Op.call index = .host host) (two : host.ty.params.length = 2)
        (holds : Stage.given.Holds (f.subject S) t.stack) :
        op = host ∧ ∃ v, f.subject S = some v ∧ args'[0]? = some v := by
      obtain ⟨w, v, s, hsubject, hstack⟩ := holds
      obtain ⟨i', hi', hty⟩ := S.cast.hosts host
      have hnat : index.toNat = host.index := by
        cases hhost
        exact toNat_host host
      rw [hnat] at hi hindex
      rw [HostImport.ofIndex?_index] at hindex
      cases hindex
      obtain rfl : i = i' := Option.some.inj (hi.symm.trans hi')
      rw [hty, two, hstack] at hsplit
      cases hsplit
      exact ⟨rfl, v, hsubject, rfl⟩
    have holds := h.holds
    have hcareful := hfaces.careful
    cases hcareful with
    | op allowed _ =>
      obtain ⟨k, rfl, hcalls⟩ := allowed
      obtain ⟨hsmall, -, hhost⟩ := S.cast.calls hcalls
      rw [toNat_toUInt32 hsmall] at hindex
      obtain ⟨hspawn, hresolve, hreject⟩ := hhost op hindex
      obtain rfl | rfl | rfl := hop
      · exact absurd rfl hspawn
      · exact absurd rfl hresolve
      · exact absurd rfl hreject
    | name names _ =>
      cases hrole : f.role S <;> simp [hrole, Role.Names, Op.get, Op.const] at names
    | give gives _ => exact gives.elim
    | make makes _ =>
      cases hrole : f.role S with
      | task =>
        rw [hrole] at makes
        obtain ⟨rfl, hargument⟩ := hmade makes rfl holds
        exact ⟨rfl, hargument, .inl ⟨rfl, rfl⟩⟩
      | starter slot =>
        rw [hrole] at makes
        obtain ⟨rfl, hargument⟩ := hmade makes rfl holds
        exact ⟨rfl, hargument, .inr ⟨rfl, slot, rfl⟩⟩
      | ordinary =>
        rw [hrole] at makes
        exact makes.elim
  next => cases call

/-- A task settles only its own promise, and only if it has not done so. -/
theorem Tends.settles (h : t.Tends S own done) {op : HostImport} (call : t.hostCall? S.image = some (op, args))
    (settling : op = .promiseResolve ∨ op = .promiseReject) :
    ¬done ∧ op = .promiseResolve ∧ ∃ h, own = some h ∧ args[0]? = some (Run.ofNat h.number) := by
  obtain ⟨f, outer, stage, hat, hdone⟩ := h
  obtain ⟨rfl, ⟨v, hsubject, hargument⟩, ⟨rfl, task⟩ | ⟨rfl, -⟩⟩ := hat.hostCall call (.inr settling)
  · refine ⟨fun hd => absurd (hdone.1 hd).1 nofun, rfl, ?_⟩
    obtain ⟨-, h, hown, hlocal⟩ := hat.suits.outermost task
    simp only [Frame.subject, task, hlocal] at hsubject
    cases hsubject
    exact ⟨h, hown, hargument⟩
  · simp at settling

/-- A task starts only functions of tasks. -/
theorem Tends.spawns (h : t.Tends S own done)
    (call : t.hostCall? S.image = some (.taskSpawn, args)) {slot : BitVec 32} (argument : args[0]? = some (.i32 slot))
    (entry : S.image.tableEntry slot = .ok index) : S.role index = .task := by
  obtain ⟨f, outer, stage, hat, -⟩ := h
  obtain ⟨-, ⟨v, hsubject, hargument⟩, ⟨hresolve, -⟩ | ⟨-, number, hrole⟩⟩ := hat.hostCall call (.inl rfl)
  · cases hresolve
  · simp only [Frame.subject, hrole, Run.ofNat] at hsubject
    cases hsubject
    rw [argument] at hargument
    cases hargument
    obtain ⟨j, hj, htask⟩ := S.cast.slots hrole
    rw [entry] at hj
    cases hj
    exact htask

/-! ### Instructions -/

/-- The function that the next instruction of a task calls through the table. -/
def indirectCall? (img : Image) (t : Task) : Option Nat := do
  let f ← t.frames.head?
  let fn ← img.functions[f.function]?
  let instr ← fn.body[f.pc]?
  match instr, t.stack with
  | .op (.callIndirect type), .i32 slot :: _ =>
    let ty ← img.types[type.toNat]?
    let index ← (img.tableEntry slot).toOption
    if img.funcType? index = some ty then some index else none
  | _, _ => none

/-- A call through the table is one of a function with one of the module's types. -/
theorem funcType?_of_indirectCall? {img : Image} {t : Task} {i : Nat} (h : t.indirectCall? img = some i) :
    ∃ ty ∈ img.types, img.funcType? i = some ty := by
  unfold indirectCall? at h
  obtain ⟨f, -, h⟩ := Option.bind_eq_some_iff.1 h
  obtain ⟨fn, -, h⟩ := Option.bind_eq_some_iff.1 h
  obtain ⟨instr, -, h⟩ := Option.bind_eq_some_iff.1 h
  split at h
  · obtain ⟨ty, hty, h⟩ := Option.bind_eq_some_iff.1 h
    obtain ⟨index, -, h⟩ := Option.bind_eq_some_iff.1 h
    split at h
    next htyped =>
      cases h
      exact ⟨ty, Array.mem_of_getElem? hty, htyped⟩
    next => cases h
  · cases h

/-- The next instruction of a task resolves a promise. -/
def Resolves (img : Image) (t : Task) : Prop :=
  ∃ args, t.hostCall? img = some (.promiseResolve, args)

end Task

/-- What comes of an instruction of a task that has not settled its promise yet, and whether it does so
now.  A task with a promise does not finish before. -/
def Progress.Tends (S : Staging) (own : Option PromiseHandle) (now : Prop) : Progress → Prop
  | .next t => t.Tends S own now
  | .blocked t => ¬now ∧ t.Tends S own False
  | .finished _ => own = none

theorem Progress.Tends.congr {S : Staging} {own : Option PromiseHandle} {now now' : Prop} {p : Progress}
    (h : p.Tends S own now) (hnow : now ↔ now') : p.Tends S own now' := by
  cases p with
  | next t => exact Task.Tends.congr h hnow
  | blocked t => exact ⟨fun hn => h.1 (hnow.2 hn), h.2⟩
  | finished v => exact h

namespace Task

section Step

variable {S : Staging} {f : Frame} {outer : List Frame} {stage : Stage} {own : Option PromiseHandle}
  {t : Task} {id : Nat} {s : Stack} {p : Progress}

/-- A call that is no task's own returns. -/
theorem tends_leave (hrole : f.role S ≠ .task) (suits : f.Suits S own outer)
    (waiting : Frame.Waiting S own outer) {g : Frame}
    (left : Task.leave S.image ⟨id, g :: outer, s, none⟩ = .ok p) : p.Tends S own False := by
  obtain ⟨g', outer', results, rest, hframes, -, -, ⟨hnil, rfl⟩ | ⟨hne, rfl⟩⟩ := Run.leave_eq_ok left
  · cases hframes
    subst hnil
    exact suits.own_eq_none hrole
  · cases hframes
    cases waiting with
    | nil => exact absurd rfl hne
    | cons acts outerSuits rest => exact Tends.of_idle rfl acts outerSuits rest

/-- A frame at another place. -/
theorem tends_proceed (acts : f.Acts S .idle) (suits : f.Suits S own outer)
    (waiting : Frame.Waiting S own outer) : (Run.proceed id outer f s).Tends S own False :=
  Tends.of_idle rfl acts suits waiting

variable {o : Op}

variable {B : List Instr} {xs : List Code} {s' : Stack} {name : String}

/-- An instruction that may run at any time. -/
theorem tends_of_allowed (hfaces : f.Faces S fn B (.op o :: xs) .idle) (suits : f.Suits S own outer)
    (waiting : Frame.Waiting S own outer) (allowed : (f.role S).Allows S.plan (f.role S).kept o)
    (hcareful : Code.Careful S.plan (f.role S) (f.role S).kept .idle xs)
    (hstands : Stands (Code.Ahead S.plan (f.role S)) B fn.jumps (f.pc + 1) xs f.labels)
    (direct : ∀ i, indirectCall? S.image ⟨id, f :: outer, s, none⟩ = some i → S.role i ≠ .task)
    (hget : fn.body[f.pc]? = some (.op o)) (hleads : o.Leads S.image fn.name id { f with pc := f.pc + 1 } outer s p) :
    p.Tends S own False := by
  have hnext (hunreachable : o ≠ .unreachable) (hreturn : o ≠ .return_) :
      ({ f with pc := f.pc + 1 } : Frame).Acts S .idle :=
    hfaces.next hstands hcareful hunreachable hreturn f.locals
  have hsuits (pc : Nat) (labels : List Label) : ({ f with pc, labels } : Frame).Suits S own outer :=
    suits.of_eq rfl fun _ => rfl
  have hjump {f' : Frame} {s s' : Stack} {depth : Nat}
      (jump : ({ f with pc := f.pc + 1 } : Frame).branch s depth = .ok (f', s')) :
      (Run.proceed id outer f' s').Tends S own False := by
    obtain ⟨rest', hf', hstands', hahead⟩ := hstands.branch_eq_ok jump
    rw [hf']
    exact tends_proceed (hfaces.jump hstands' hahead) (hsuits _ _) waiting
  have hlocal {i : UInt32} (hi : ¬(f.role S).kept i.toNat) (v : Value) :
      ({ f with pc := f.pc + 1, locals := f.locals.setIfInBounds i.toNat v } : Frame).Suits S own outer := by
    refine suits.of_eq rfl fun task => ?_
    rw [task] at hi
    exact Array.getElem?_setIfInBounds_ne hi
  have hcall {i : Nat} {s : Stack} {t : Task} (hunreachable : o ≠ .unreachable) (hreturn : o ≠ .return_)
      (hrole : S.role i ≠ .task)
      (entered : enter S.image ⟨id, { f with pc := f.pc + 1 } :: outer, s, none⟩ i = .ok t) :
      t.Tends S own False :=
    .enter entered hrole (fun h => nomatch h) (.cons (hnext hunreachable hreturn) (hsuits _ _) waiting)
  cases hleads with
  | br jump => exact hjump jump
  | brIfNot | drop | localGet | i32Const | i64Const | f64Const | load | store | memoryCopy | num =>
    exact tends_proceed (hnext Op.noConfusion Op.noConfusion) (hsuits _ _) waiting
  | brIf top nonzero jump => exact hjump jump
  | return_ left => exact tends_leave allowed suits waiting left
  | call defined entered =>
    obtain ⟨i, rfl, hcalls⟩ := allowed
    obtain ⟨hsmall, hrole, -⟩ := S.cast.calls hcalls
    rw [toNat_toUInt32 hsmall] at entered
    exact hcall Op.noConfusion Op.noConfusion hrole entered
  | import_ imported arguments returned =>
    obtain rfl := Run.returnValue_eq_ok returned
    exact Tends.of_idle rfl (hnext Op.noConfusion Op.noConfusion) (hsuits _ _) waiting
  | await imported arguments awaits =>
    exact ⟨fun h => h, Tends.of_idle rfl (hnext Op.noConfusion Op.noConfusion) (hsuits _ _) waiting⟩
  | @callIndirect type slot s' index t top entry known typed entered =>
    obtain ⟨ty, hty⟩ := Option.isSome_iff_exists.1 known
    refine hcall Op.noConfusion Op.noConfusion (direct index ?_) entered
    simp [indirectCall?, hfaces.function, hget, top, entry, typed, hty, Except.toOption]
  | localSet | localTee =>
    exact tends_proceed (hfaces.next hstands hcareful Op.noConfusion Op.noConfusion _) (hlocal allowed _) waiting

/-- The call of a role is under way, or has been made. -/
theorem tends_of_underway {stage' : Stage} (hfaces : f.Faces S fn B (.op o :: xs) stage)
    (suits : f.Suits S own outer) (waiting : Frame.Waiting S own outer)
    (hcareful : Code.Careful S.plan (f.role S) (f.role S).kept stage' xs) (hunreachable : o ≠ .unreachable)
    (hreturn : o ≠ .return_) (hstands : Stands (Code.Ahead S.plan (f.role S)) B fn.jumps (f.pc + 1) xs f.labels)
    (holds : stage'.Holds (f.subject S) s') : (Run.proceed id outer { f with pc := f.pc + 1 } s').Tends S own
      (stage' = .made ∧ f.role S = .task) := by
  have hnext := hfaces.next hstands hcareful hunreachable hreturn f.locals
  have hsuits : ({ f with pc := f.pc + 1 } : Frame).Suits S own outer := suits.of_eq rfl fun _ => rfl
  exact ⟨_, outer, stage', ⟨rfl, hnext, hsuits, waiting, holds, fun h => absurd rfl h⟩, Iff.rfl⟩

theorem eval_convert_eq_ok {c : Conversion} {v : Value} {rest : Stack}
    (h : (NumOp.convert c).eval name (v :: rest) = .ok s') : ∃ w, s' = w :: rest := by
  obtain ⟨r, hr, h⟩ := except_bind_eq_ok.1 h
  cases hr
  obtain ⟨w, -, h⟩ := except_bind_eq_ok.1 h
  obtain rfl := except_pure_eq_ok.1 h
  exact ⟨w, rfl⟩

/-- The call of a role is one of a function of the host, which gives its value at once. -/
theorem host_of_makes {r : Role} (h : r.Makes o) : ∃ host, o = .host host ∧
    host ≠ .promiseAwait ∧ (r = .task → host = .promiseResolve) := by
  cases r with
  | task => exact ⟨_, h, nofun, fun _ => rfl⟩
  | starter slot => exact ⟨_, h, nofun, nofun⟩
  | ordinary => exact h.elim

/-- A function of the host gives its value at once, or waits for a promise. -/
theorem leads_host {host : HostImport} (hwait : host ≠ .promiseAwait)
    (hleads : (Op.host host).Leads S.image name id f outer s p) :
    ∃ i args rest v, S.image.imports[host.index]? = some i ∧
      s.split? i.ty.params.length = some (args, rest) ∧ p = Run.proceed id outer f (v ++ rest) := by
  have hnat := toNat_host host
  obtain ⟨i, hi, -⟩ := S.cast.hosts host
  cases hleads with
  | call defined =>
    rw [hnat, hi] at defined
    cases defined
  | import_ imported arguments returned =>
    rw [hnat] at imported
    obtain rfl := Run.returnValue_eq_ok returned
    exact ⟨_, _, _, _, imported, arguments, rfl⟩
  | await imported arguments awaits =>
    rw [hnat, HostImport.ofIndex?_index] at awaits
    exact absurd (Option.some.inj awaits) hwait

/-- **An instruction of a task** that has settled its promise ends it.  Any other one leaves a task that
has settled its promise if this is what the instruction does. -/
theorem Tends.step {done : Prop} {m m' : Machine} (h : t.Tends S own done) (free : t.awaiting = none)
    (direct : ∀ i, t.indirectCall? S.image = some i → S.role i ≠ .task) (hstep : Run.step S.image t m = .ok p m') :
    (done → ∃ v, p = .finished v) ∧ (¬done → p.Tends S own (t.Resolves S.image)) := by
  obtain ⟨f, outer, stage, hat, hdone⟩ := h
  obtain ⟨fn, B, rest, hfaces⟩ := hat.acts
  have hresolves (hstage : ¬(stage = .given ∧ f.role S = .task)) : False ↔ t.Resolves S.image := by
    refine ⟨False.elim, ?_⟩
    rintro ⟨args, call⟩
    obtain ⟨hgiven, -, ⟨-, htask⟩ | ⟨hspawn, -⟩⟩ := hat.hostCall call (.inr (.inl rfl))
    · exact hstage ⟨hgiven, htask⟩
    · cases hspawn
  obtain ⟨number, frames, s, awaiting⟩ := t
  obtain rfl : frames = f :: outer := hat.frames
  obtain rfl : awaiting = none := free
  obtain ⟨o, xs, rfl, hget, hleads, hstands⟩ | ⟨rfl, hlabels, -, hend⟩ |
      ⟨hrest, pc', labels', s', rest', rfl, -, hstands, hahead⟩ :=
    Run.step_leads (Code.opens_ahead S.plan (f.role S)) hfaces.function hfaces.body hfaces.stands
      ⟨⟨stage, hfaces.careful⟩, hfaces.closed⟩
      ((Run.step_obeys _ _ _).of_ok hstep).1
  · have hcareful := hfaces.careful
    have holds := hat.holds
    cases hcareful with
    | op allowed rest =>
      refine ⟨fun hd => absurd (hdone.1 hd).1 Stage.noConfusion, fun _ => ?_⟩
      exact (tends_of_allowed hfaces hat.suits hat.waiting allowed rest hstands direct hget hleads).congr
        (hresolves nofun)
    | name names rest =>
      refine ⟨fun hd => absurd (hdone.1 hd).1 Stage.noConfusion, fun _ => ?_⟩
      have hnamed {v : Value} (hsubject : f.subject S = some v) (hunreachable : o ≠ .unreachable)
          (hreturn : o ≠ .return_) : (Run.proceed number outer { f with pc := f.pc + 1 } (v :: s)).Tends S own
            (Resolves S.image ⟨number, f :: outer, s, none⟩) :=
        (tends_of_underway hfaces hat.suits hat.waiting rest hunreachable hreturn hstands
          ⟨v, s, hsubject, rfl⟩).congr ((iff_false_intro nofun).trans (hresolves nofun))
      cases hrole : f.role S with
      | task =>
        obtain rfl : o = .get 0 := by rwa [hrole] at names
        cases hleads with
        | localGet read => exact hnamed (by simpa [Frame.subject, hrole] using read) Op.noConfusion Op.noConfusion
      | starter slot =>
        obtain rfl : o = .const slot := by rwa [hrole] at names
        cases hleads with
        | i32Const => exact hnamed (by simp [Frame.subject, hrole, Run.ofNat]) Op.noConfusion Op.noConfusion
      | ordinary =>
        rw [hrole] at names
        exact names.elim
    | give gives rest =>
      refine ⟨fun hd => absurd (hdone.1 hd).1 Stage.noConfusion, fun _ => ?_⟩
      obtain ⟨v, below, hsubject, rfl⟩ := holds
      have hgiven (w : Value) (hunreachable : o ≠ .unreachable) (hreturn : o ≠ .return_) :
          (Run.proceed number outer { f with pc := f.pc + 1 } (w :: v :: below)).Tends S own
            (Resolves S.image ⟨number, f :: outer, v :: below, none⟩) :=
        (tends_of_underway hfaces hat.suits hat.waiting rest hunreachable hreturn hstands
          ⟨w, v, below, hsubject, rfl⟩).congr ((iff_false_intro nofun).trans (hresolves nofun))
      cases o with
      | localGet i =>
        cases hleads with
        | localGet read => exact hgiven _ Op.noConfusion Op.noConfusion
      | i32Const w =>
        cases hleads with
        | i32Const => exact hgiven _ Op.noConfusion Op.noConfusion
      | i64Const w =>
        cases hleads with
        | i64Const => exact hgiven _ Op.noConfusion Op.noConfusion
      | _ => exact gives.elim
    | @convert c _ rest =>
      refine ⟨fun hd => absurd (hdone.1 hd).1 Stage.noConfusion, fun _ => ?_⟩
      obtain ⟨w, v, below, hsubject, rfl⟩ := holds
      cases hleads with
      | num eval =>
        obtain ⟨w', rfl⟩ := eval_convert_eq_ok eval
        refine (tends_of_underway hfaces hat.suits hat.waiting rest Op.noConfusion Op.noConfusion hstands
          ⟨w', v, below, hsubject, rfl⟩).congr ((iff_false_intro nofun).trans ⟨False.elim, ?_⟩)
        -- a conversion is no call
        rintro ⟨args, call⟩
        simp [hostCall?, hfaces.function, hget] at call
    | make makes rest =>
      refine ⟨fun hd => absurd (hdone.1 hd).1 Stage.noConfusion, fun _ => ?_⟩
      obtain ⟨host, rfl, hwait, htask⟩ := host_of_makes makes
      obtain ⟨i, args, below, v, hi, hsplit, rfl⟩ := leads_host hwait hleads
      refine (tends_of_underway hfaces hat.suits hat.waiting rest Op.noConfusion Op.noConfusion hstands trivial).congr ?_
      refine (and_iff_right rfl).trans ⟨fun task => ⟨args, ?_⟩, ?_⟩
      · obtain rfl := htask task
        have hindex := HostImport.ofIndex?_index .promiseResolve
        obtain ⟨c, hcall, hc⟩ : ∃ c, Op.host .promiseResolve = .call c ∧
            c.toNat = HostImport.index .promiseResolve := ⟨_, rfl, toNat_host _⟩
        rw [hcall] at hget
        simp [hostCall?, hfaces.function, hget, hc, hi, hsplit, hindex]
      · rintro ⟨args', call⟩
        obtain ⟨-, -, ⟨-, task⟩ | ⟨hspawn, -⟩⟩ := hat.hostCall call (.inr (.inl rfl))
        · exact task
        · cases hspawn
    | leave task rest =>
      refine ⟨fun _ => ?_, fun hnot => absurd (hdone.2 ⟨rfl, task⟩) hnot⟩
      obtain ⟨rfl, -⟩ := hat.suits.outermost task
      cases hleads with
      | return_ left =>
        obtain ⟨g, outer', results, rest, hframes, -, -, ⟨-, rfl⟩ | ⟨hne, -⟩⟩ := Run.leave_eq_ok left
        · exact ⟨_, rfl⟩
        · cases hframes
          exact absurd rfl hne
  · have hrole : f.role S ≠ .task := fun task =>
      Code.not_closed_nil (hfaces.closed task (by rw [hlabels]; rfl))
    refine ⟨fun hd => absurd (hdone.1 hd).2 hrole, fun _ => ?_⟩
    cases hend with
    | end_ labels => cases hlabels.symm.trans labels
    | leave _ left => exact (tends_leave hrole hat.suits hat.waiting left).congr (hresolves fun h => hrole h.2)
  · have hcareful := hfaces.careful
    refine ⟨fun hd => ?_, fun _ => ?_⟩
    · obtain ⟨rfl, task⟩ := hdone.1 hd
      cases hcareful with
      | leave => exact absurd rfl (hrest _ _)
      | stop starter =>
        rw [starter] at task
        cases task
    · refine (tends_proceed (hfaces.jump hstands hahead) (hat.suits.of_eq rfl fun _ => rfl)
        hat.waiting).congr (hresolves ?_)
      rintro ⟨rfl, -⟩
      cases hcareful with
      | convert | make => exact absurd rfl (hrest _ _)

end Step

end Task

end StackScript
