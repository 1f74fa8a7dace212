import StackScript.Proofs.Emit.Ledger

/-!
# Roles of the functions of a module

The number of a function says what it is for.  An async function is two functions: the first one starts
the second one as a task.  All other functions are ordinary, and emitted code calls only those that are
not tasks.
-/

namespace StackScript

/-! ## Numbers and roles -/

variable {i : Nat}

namespace Plan

/-- The roles of functions in order, if the next task has a table slot. -/
def roles : Nat → List Typed.Routine → List Role
  | _, [] => []
  | slot, r :: rest =>
    if r.sig.isAsync then .starter slot :: .task :: roles (slot + 1) rest
    else .ordinary :: roles slot rest

/-- The role of the function with a number. -/
def role (p : Typed.Program) (index : Nat) : Role :=
  (List.replicate (imports p.symbols).length Role.ordinary ++ roles 0 p.routines)[index]?.getD .ordinary

theorem role_of_lt {p : Typed.Program} (h : i < (imports p.symbols).length) : role p i = .ordinary := by
  rw [role, List.getElem?_append_left (by simpa using h), List.getElem?_replicate, if_pos h]
  rfl

theorem role_add (p : Typed.Program) (k : Nat) :
    role p ((imports p.symbols).length + k) = (roles 0 p.routines)[k]?.getD .ordinary := by
  rw [role, List.getElem?_append_right (by simp), List.length_replicate, Nat.add_sub_cancel_left]

/-- A numbered function has the role of its first function. -/
theorem roles_of_mem : ∀ {rs : List Typed.Routine} {i slot : Nat} {f : Placed}, f ∈ number i slot rs →
    ∃ k, f.index = i + k ∧
      (roles slot rs)[k]? = some (if f.routine.sig.isAsync then .starter f.slot else .ordinary)
  | _ :: _, _, _, _, hf => by
    unfold number at hf
    unfold roles
    rcases List.mem_cons.mp hf with rfl | hf
    · refine ⟨0, rfl, ?_⟩
      split <;> rfl
    · split at hf
      · obtain ⟨k, hk, hrole⟩ := roles_of_mem hf
        refine ⟨k + 2, by omega, ?_⟩
        rw [if_pos ‹_›]
        exact hrole
      · obtain ⟨k, hk, hrole⟩ := roles_of_mem hf
        refine ⟨k + 1, by omega, ?_⟩
        rw [if_neg ‹_›]
        exact hrole

/-- The entries of numbered functions are the numbers with the role of a task. -/
theorem mem_entries_number : ∀ {rs : List Typed.Routine} {i slot j : Nat},
    j ∈ entries (number i slot rs) ↔ ∃ k, j = i + k ∧ (roles slot rs)[k]? = some .task
  | [], _, _, _ => by simp [number, entries, roles]
  | r :: rs, i, slot, j => by
    unfold number roles
    cases hasync : r.sig.isAsync with
    | true =>
      have ih := @mem_entries_number rs (i + 2) (slot + 1) j
      simp only [entries, if_true, List.filter_cons, hasync, List.map_cons, List.mem_cons] at ih ⊢
      rw [ih]
      constructor
      · rintro (rfl | ⟨k, rfl, hk⟩)
        · exact ⟨1, rfl, rfl⟩
        · exact ⟨k + 2, by omega, hk⟩
      · rintro ⟨_ | _ | k, rfl, hk⟩
        · cases hk
        · exact .inl rfl
        · exact .inr ⟨k, by omega, hk⟩
    | false =>
      have ih := @mem_entries_number rs (i + 1) slot j
      simp only [entries, Bool.false_eq_true, if_false, List.filter_cons, hasync] at ih ⊢
      rw [ih]
      constructor
      · rintro ⟨k, rfl, hk⟩
        exact ⟨k + 1, by omega, hk⟩
      · rintro ⟨_ | k, rfl, hk⟩
        · cases hk
        · exact ⟨k, by omega, hk⟩

theorem length_roles : ∀ (rs : List Typed.Routine) (i slot : Nat),
    (roles slot rs).length = (number i slot rs).length + (entries (number i slot rs)).length
  | [], _, _ => rfl
  | r :: rs, i, slot => by
    unfold number roles
    cases hasync : r.sig.isAsync with
    | true =>
      have ih := length_roles rs (i + 2) (slot + 1)
      simp only [entries, if_true, List.filter_cons, hasync, List.length_cons, List.map_cons] at ih ⊢
      omega
    | false =>
      have ih := length_roles rs (i + 1) slot
      simp only [entries, Bool.false_eq_true, if_false, List.filter_cons, hasync, List.length_cons] at ih ⊢
      omega

/-- A function that starts a task has a slot of the table for it. -/
theorem slot_lt_of_mem : ∀ {rs : List Typed.Routine} {i slot slot' : Nat},
    .starter slot' ∈ roles slot rs → slot' < slot + (entries (number i slot rs)).length
  | r :: rs, i, _, _, h => by
    unfold roles at h
    unfold number
    cases hasync : r.sig.isAsync with
    | true =>
      simp only [hasync, if_true, List.mem_cons, Role.starter.injEq, reduceCtorEq, false_or] at h
      simp only [entries, if_true, List.filter_cons, hasync, List.length_cons, List.map_cons]
      obtain rfl | h := h
      · omega
      · have ih := @slot_lt_of_mem rs (i + 2) _ _ h
        simp only [entries] at ih
        omega
    | false =>
      simp only [hasync, Bool.false_eq_true, if_false, List.mem_cons, reduceCtorEq, false_or] at h
      have ih := @slot_lt_of_mem rs (i + 1) _ _ h
      simpa [entries, hasync] using ih

variable {p : Typed.Program} {config : CompileConfig}

theorem role_placed {f : Placed} (hf : f ∈ placed p) :
    role p f.index = if f.routine.sig.isAsync then .starter f.slot else .ordinary := by
  obtain ⟨k, hk, hrole⟩ := roles_of_mem hf
  rw [hk, role_add, hrole]
  rfl

/-- What is not ordinary is a function of the program. -/
theorem roles_of_role (h : role p i ≠ .ordinary) :
    ∃ k, i = (imports p.symbols).length + k ∧ (roles 0 p.routines)[k]? = some (role p i) := by
  have hge : (imports p.symbols).length ≤ i := Nat.le_of_not_lt fun hlt => h (role_of_lt hlt)
  obtain ⟨k, rfl⟩ := Nat.exists_eq_add_of_le hge
  refine ⟨k, rfl, ?_⟩
  rw [role_add] at h ⊢
  cases hk : (roles 0 p.routines)[k]? with
  | none =>
    rw [hk] at h
    exact absurd rfl h
  | some r => rfl

/-- **The functions of tasks are those with entries in the table.** -/
theorem mem_entries : i ∈ entries (placed p) ↔ role p i = .task := by
  rw [placed, mem_entries_number]
  constructor
  · rintro ⟨k, rfl, hk⟩
    rw [role_add, hk]
    rfl
  · intro h
    obtain ⟨k, hi, hk⟩ := roles_of_role (p := p) (i := i) (by rw [h]; exact Role.noConfusion)
    exact ⟨k, hi, h ▸ hk⟩

/-- A function that starts a task finds it in the table. -/
theorem entry_of_starter {slot : Nat} (h : role p i = .starter slot) :
    ∃ j, (entries (placed p))[slot]? = some j ∧ role p j = .task := by
  obtain ⟨k, -, hk⟩ := roles_of_role (p := p) (i := i) (by rw [h]; exact Role.noConfusion)
  have hmem : Role.starter slot ∈ roles 0 p.routines := List.mem_of_getElem? (h ▸ hk)
  have hlt : slot < (entries (placed p)).length := by
    have hslot := @slot_lt_of_mem p.routines (imports p.symbols).length _ _ hmem
    rwa [Nat.zero_add] at hslot
  refine ⟨_, List.getElem?_eq_getElem hlt, ?_⟩
  exact mem_entries.1 (List.getElem_mem hlt)

/-- Functions behind those of the program are ordinary. -/
theorem role_of_ge (h : afterRoutines p ≤ i) : role p i = .ordinary := by
  have hlength := length_roles p.routines (imports p.symbols).length 0
  rw [role, List.getElem?_eq_none]
  · rfl
  · simp only [afterRoutines, placed] at h
    rw [List.length_append, List.length_replicate, hlength]
    omega

/-! ## Calls -/

/-- A number in the table of methods is that of a method. -/
theorem mem_of_methodTable {struct : String} {slot : Nat} {fs : List Placed}
    (h : (methodTable fs).get? struct slot = some i) : ∃ f ∈ fs, f.index = i := by
  induction fs using List.reverseRecOn with
  | nil => cases h
  | append_singleton fs g ih =>
    have hold (h : (methodTable fs).get? struct slot = some i) : ∃ f ∈ fs ++ [g], f.index = i := by
      obtain ⟨f, hf, rfl⟩ := ih h
      exact ⟨f, List.mem_append_left _ hf, rfl⟩
    cases howner : g.routine.owner with
    | none =>
      rw [methodTable_concat_function howner] at h
      exact hold h
    | some place =>
      obtain ⟨struct', slot'⟩ := place
      rw [methodTable_concat_method howner, MethodTable.get?_insert] at h
      split at h
      · split at h
        · cases h
        · cases h
          exact ⟨g, by simp, rfl⟩
      · exact hold h

/-- A function that no call of emitted code leads astray: it is known in advance, is no task, and is none of the
functions of the host that start tasks and settle promises. -/
structure Callable (p : Typed.Program) (i : Nat) : Prop where
  bound : i < afterRoutines p + Intrinsic.all.length
  role : role p i ≠ .task
  host : ∀ h, HostImport.ofIndex? i = some h → h ≠ .taskSpawn ∧ h ≠ .promiseResolve ∧ h ≠ .promiseReject

theorem le_imports (symbols : SymbolTable) : HostImport.all.length ≤ (imports symbols).length := by
  simp [imports, HostImport.imports]

theorem ofIndex?_of_ge (h : HostImport.all.length ≤ i) : HostImport.ofIndex? i = none :=
  List.getElem?_eq_none h

theorem Callable.small (h : Callable p i) (hfits : fits p = true) : i < Layout.addressLimit :=
  Nat.lt_of_lt_of_le h.bound (by simpa [fits] using hfits)

theorem callable_placed {f : Placed} (hf : f ∈ placed p) : Callable p f.index := by
  obtain ⟨hlo, hhi⟩ := placed_bounds hf
  refine ⟨by omega, ?_, fun h hh => ?_⟩
  · rw [role_placed hf]
    split <;> simp
  · rw [ofIndex?_of_ge (Nat.le_trans (le_imports _) hlo)] at hh
    cases hh

theorem callable_intrinsic {k : Nat} (hk : k < Intrinsic.all.length) : Callable p (afterRoutines p + k) := by
  have hge : HostImport.all.length ≤ afterRoutines p + k := by
    refine Nat.le_trans (le_imports p.symbols) ?_
    simp only [afterRoutines]
    omega
  refine ⟨by omega, ?_, fun h hh => ?_⟩
  · rw [role_of_ge (Nat.le_add_right _ _)]
    exact Role.noConfusion
  · rw [ofIndex?_of_ge hge] at hh
    cases hh

/-- **What emitted code may call.** -/
theorem Calls.spec (h : (ofProgram p config).Calls i) : Callable p i := by
  have himports : (imports p.symbols).length ≤ afterRoutines p := by
    simp only [afterRoutines]
    omega
  cases h with
  | @host h spawn resolve reject =>
    have hlt : h.index < (imports p.symbols).length :=
      Nat.lt_of_lt_of_le (HostImport.index_lt h) (le_imports _)
    refine ⟨by omega, by simp [role_of_lt hlt], fun h' hh => ?_⟩
    rw [HostImport.ofIndex?_index] at hh
    cases hh
    exact ⟨spawn, resolve, reject⟩
  | direct found =>
    obtain ⟨f, hf, hfi⟩ := List.mem_filterMap.mp (Emit.mem_of_lookup found)
    split at hfi
    · obtain ⟨-, rfl⟩ := Prod.mk.inj (Option.some.inj hfi)
      exact callable_placed hf
    · cases hfi
  | external found =>
    obtain ⟨k, hk⟩ := List.getElem?_of_mem (Emit.mem_of_lookup found)
    simp only [ofProgram, List.getElem?_mapIdx, Option.map_eq_some_iff, Prod.mk.injEq] at hk
    obtain ⟨sig, hsig, -, rfl⟩ := hk
    have hlt := (List.getElem?_eq_some_iff.mp hsig).1
    have hlength : (imports p.symbols).length = HostImport.imports.length + (externalSigs p.symbols).length := by
      simp [imports]
    have hge : HostImport.all.length ≤ HostImport.imports.length + k := by
      simp [HostImport.imports]
    refine ⟨by omega, by simp [role_of_lt (p := p) (i := HostImport.imports.length + k) (by omega)], fun h hh => ?_⟩
    rw [ofIndex?_of_ge hge] at hh
    cases hh
  | method found =>
    obtain ⟨f, hf, rfl⟩ := mem_of_methodTable found
    exact callable_placed hf
  | strConcat => exact callable_intrinsic (k := 0) (by decide)
  | strEq => exact callable_intrinsic (k := 1) (by decide)
  | arrayGrow => exact callable_intrinsic (k := 2) (by decide)

end Plan

/-! ## Functions -/

/-- A function whose code is careful in its role.  The function of a task takes the task's promise and
an environment, and callers from outside have no name for it. -/
structure Function.Plays (plan : Plan) (r : Role) (f : Function) : Prop where
  body : ∃ code, f.body = Code.flatList code ++ [.end_] ∧ Code.Careful plan r r.kept .idle code ∧
    (r = .task → Code.Closed code)
  task : r = .task → f.ty = .of [.i32, .i32] none ∧ f.export_ = none

/-- The locals of a function have 32 bits. -/
def Function.Small (f : Function) : Prop :=
  f.ty.params.length + f.locals.length ≤ Layout.addressLimit

namespace Role

/-- What any function may run, one that is no task may run. -/
theorem Allows.of_ne_task {r r' : Role} {plan : Plan} {K : Nat → Prop} {o : Op} (h : r.Allows plan K o)
    (hr : r' ≠ .task) : r'.Allows plan K o := by
  cases o with
  | return_ => exact hr
  | _ => exact h

end Role

namespace Emit

variable {plan : Plan}

/-- A function that is no task is made of careful code. -/
theorem plays_function (captures : List Variable) {c : Scope} {name : String} {params : List ValType}
    {ret : Option ValType} {exported : Option String} {places : List (Nat × Nat)} {body x : Emit (List Code)} {r : Role}
    (hr : r ≠ .task) (hx : Shows (site plan params.length captures .direct) c x fun hi code =>
      (site plan params.length captures .direct).Small hi → Code.Careful plan r r.kept .idle code)
    (hstart : ∀ st : State, body.run (st.atStart []) = x.run (st.atStart places))
    (habove : ∀ st : State, State.Above params.length c (st.atStart places)) (st : State) :
    Yields (function name params ret exported body) st (fun _ => True) fun f _ => f.Small → f.Plays plan r := by
  refine Yields.mono (hx.function hstart habove st) (fun _ => id) ?_
  rintro f st' ⟨-, -, hty, -, hlocals, code, hcareful, hcode⟩ hsmall
  rw [Function.Small, hty, hlocals] at hsmall
  exact ⟨⟨code, hcode, hcareful hsmall, fun task => absurd task hr⟩, fun task => absurd task hr⟩

/-! ### Functions of the program -/

theorem allAllowed_packParams {r : Role} {K : Nat → Prop} (env : Nat) (slots : List ValType) :
    Code.AllAllowed r plan K (packParams env slots) := by
  intro o ho
  obtain ⟨ops, hops, ho⟩ := List.mem_flatten.mp ho
  obtain ⟨i, hi, rfl⟩ := List.mem_mapIdx.mp hops
  have hall : Code.AllAllowed r plan K [.get env, .get i, .write (.ofVal slots[i]) (Layout.word * i)] := by
    simp
  exact hall o ho

theorem shows_starter (f : Plan.Placed) (slots : List ValType) :
    Shows (site plan slots.length [] .direct) (.free False) (starter plan f slots) fun hi code =>
      (site plan slots.length [] .direct).Small hi →
        Code.Careful plan (.starter f.slot) (Role.starter f.slot).kept .idle code := by
  have hwhole {packing : List Op} {env : Op} (hpacking : Code.AllAllowed .ordinary plan (fun _ => False) packing)
      (henv : env.Gives) : Code.Careful plan (.starter f.slot) (fun _ => False) .idle
        (Code.ops (packing ++ [.const f.slot, env, .host .taskSpawn])) := by
    rw [Code.ops, List.map_append]
    refine .ops_append (fun o ho => (hpacking o ho).of_ne_task Role.noConfusion) ?_
    exact .name rfl (.give henv (.make rfl (.stop rfl)))
  simp only [starter, pure_bind]
  split
  · exact .pure fun _ _ => hwhole Op.all_nil trivial
  · refine shows_alloc _ _ fun env => .pure fun hi henv hsmall => hwhole ?_ trivial
    have hset : Role.ordinary.Allows plan (fun _ => False) (.set env) := id
    exact Op.all_append.2 ⟨by simp [hset], allAllowed_packParams env slots⟩

/-- The roles of the functions of a routine. -/
def routineRoles (f : Plan.Placed) : List Role :=
  if f.routine.sig.isAsync then [.starter f.slot, .task] else [.ordinary]

theorem plays_routine (config : CompileConfig) (f : Plan.Placed) (st : State) :
    Yields (routine plan config f) st (fun _ => True) fun fns _ =>
      List.Forall₂ (fun r g => g.Small → g.Plays plan r) (routineRoles f) fns := by
  unfold routine routineRoles
  dsimp only
  split
  · refine yields_bind (Yields.mono (plays_function [] Role.noConfusion (shows_starter f _) (fun _ => rfl)
      (fun _ => State.above_free _ _) st) (fun _ => id) fun first st₁ hfirst => ?_)
    have habove : ∀ k, Role.task.kept k → k < 2 := by
      rintro _ rfl
      exact Nat.two_pos
    refine yields_bind (Yields.mono ((shows_entry plan f.routine _ False).function (fun _ => rfl) (above_nil habove) st₁)
      (fun _ => id) ?_)
    rintro second st₂ ⟨-, -, hty, hexport, hlocals, code, ⟨hsound, hclosed⟩, hcode⟩
    refine yields_pure (.cons hfirst (.cons (fun hsmall => ⟨⟨code, hcode, ?_, fun _ => hclosed⟩, ?_⟩) .nil))
    · rw [Function.Small, hty, hlocals] at hsmall
      exact hsound.careful hsmall
    · exact fun _ => ⟨hty, hexport⟩
  · refine yields_bind (Yields.mono (plays_function [] (r := .ordinary) Role.noConfusion ?_
      (run_bindParams_bind _ _ _) (fun _ => State.above_free _ _) st) (fun _ => id) fun only st₁ honly => yields_pure (.cons honly .nil))
    exact (shows_guarded _ _ fun _ _ => Nat.zero_le _).mono fun _ _ h => h.careful

theorem plays_routines (config : CompileConfig) : ∀ (rs : List Typed.Routine) (i slot : Nat) (st : State),
    Yields (routines plan config (Plan.number i slot rs)) st (fun _ => True) fun fns _ =>
      List.Forall₂ (fun r g => g.Small → g.Plays plan r) (Plan.roles slot rs) fns
  | [], _, _, _ => yields_pure .nil
  | r :: rs, i, slot, st => by
    unfold Plan.number Plan.roles routines
    refine yields_bind (Yields.mono (plays_routine config ⟨r, i, slot⟩ st) (fun _ => id) ?_)
    intro first st₁ hfirst
    unfold routineRoles at hfirst
    dsimp only at hfirst
    split at hfirst <;> rename_i hasync
    · rw [if_pos hasync, if_pos hasync]
      refine yields_bind (Yields.mono (plays_routines config rs _ _ st₁) (fun _ => id) ?_)
      exact fun rest st₂ hrest => yields_pure (List.rel_append hfirst hrest)
    · rw [if_neg hasync, if_neg hasync]
      refine yields_bind (Yields.mono (plays_routines config rs _ _ st₁) (fun _ => id) ?_)
      exact fun rest st₂ hrest => yields_pure (List.rel_append hfirst hrest)

theorem plays_script (ss : List Typed.Stmt) (st : State) : Yields (script plan ss) st (fun _ => True) fun fns _ =>
      ∀ f ∈ fns, f.Small → f.Plays plan .ordinary := by
  unfold script
  split
  · exact yields_pure nofun
  · have hbody : Shows (site plan 0 [] .direct) (.free False) (stmts (site plan 0 [] .direct) ss) fun hi code =>
        (site plan 0 [] .direct).Small hi → Code.Careful plan .ordinary Role.ordinary.kept .idle code :=
      (shows_stmts ss fun _ _ => Nat.zero_le _).mono fun _ _ h => h.careful
    refine yields_bind (Yields.mono (plays_function [] Role.noConfusion hbody (fun _ => rfl)
      (fun _ => State.above_free _ _) st) (fun _ => id) fun f st' hf => yields_pure ?_)
    simpa using hf

/-! ### Functions found on the way -/

theorem plays_job (j : Job) (st : State) :
    Yields (job plan j) st (fun _ => True) fun f _ => f.Small → f.Plays plan .ordinary := by
  cases j with
  | lambda id ty params captures body =>
    cases ty with
    | fn paramTys ret =>
      refine plays_function captures (r := .ordinary) Role.noConfusion ?_ (run_bindParams_bind _ _ _)
        (fun _ => State.above_free _ _) st
      exact (shows_literalBody _ body fun _ _ => Nat.zero_le _).mono fun _ _ h => h.careful
    | _ => exact True.intro
  | thunk sig =>
    refine plays_function [] (r := .ordinary) Role.noConfusion ?_ (fun _ => rfl) (fun _ => State.above_free _ _) st
    refine (Shows.orDefect (V := fun _ i => plan.Calls i) fun i _ found => ?_).bind fun target => ?_
    · split at found
      · exact .external found
      · exact .direct found
    · refine .pure fun _ hcalls _ => Code.careful_ops (Op.all_append.2 ⟨?_, by simp [hcalls]⟩)
      intro o ho
      obtain ⟨k, -, rfl⟩ := List.mem_map.mp ho
      exact Role.allows_get

theorem plays_drain : ∀ (fuel : Nat) (st : State), Yields (drain plan fuel) st (fun _ => True) fun fns _ =>
      ∀ f ∈ fns, f.Small → f.Plays plan .ordinary
  | 0, _ => True.intro
  | fuel + 1, _ => by
    unfold drain
    refine yields_bind (yields_get ?_)
    split
    · exact yields_pure nofun
    · next j rest hjobs =>
      refine yields_bind (yields_set (yields_bind ?_))
      refine Yields.mono (plays_job j _) (fun _ => id) fun f st₁ hf => ?_
      refine yields_bind (Yields.mono (plays_drain fuel st₁) (fun _ => id) fun fns st₂ hfns => ?_)
      exact yields_pure (List.forall_mem_cons.2 ⟨hf, hfns⟩)

end Emit

theorem Intrinsic.plays {plan : Plan} {f : Function} (hf : f ∈ Intrinsic.all) : f.Plays plan .ordinary := by
  have hset (n : Nat) : Role.ordinary.Allows plan Role.ordinary.kept (.set n) := nofun
  have htee (n : UInt32) : Role.ordinary.Allows plan Role.ordinary.kept (.localTee n) := nofun
  have hreturn : Role.ordinary.Allows plan Role.ordinary.kept .return_ := Role.noConfusion
  refine ⟨?_, nofun⟩
  simp only [Intrinsic.all, List.mem_cons, List.not_mem_nil, or_false] at hf
  obtain rfl | rfl | rfl := hf
  · refine ⟨_, rfl, Code.careful_ops ?_, nofun⟩
    simp [hset, Intrinsic.bytesOf]
  · refine ⟨_, rfl, ?_, nofun⟩
    have hunequal : Code.Careful plan .ordinary Role.ordinary.kept .idle (Code.ops [.const 0, .return_]) :=
      Code.careful_ops (by simp [hreturn])
    simp only [List.append_assoc, List.cons_append, List.nil_append]
    refine .ops_append (by simp [htee]) (.cond hunequal (.block (.loop ?_ .nil) (by simp)))
    exact .ops_append (by simp) (.ops_append (by simp) (.cond hunequal (by simp [hset])))
  · refine ⟨_, rfl, ?_, nofun⟩
    simp only [List.append_assoc, List.cons_append, List.nil_append]
    refine .ops_append (by simp [hset]) (.ops_append (by simp) (.cond (by simp [hreturn]) ?_))
    refine .ops_append (by simp [hset]) (.ops_append (by simp) (.cond (by simp [hset]) ?_))
    refine .ops_append (by simp) (.ops_append (by simp [hset]) (.ops_append (by simp) ?_))
    exact .ops_append (by simp) (by simp)

/-! ## Modules -/

namespace Emit

/-- **All functions of a program play their roles.** -/
theorem plays_functions (config : CompileConfig) (p : Typed.Program) (st : State) :
    Yields (functions plan config p) st (fun _ => True) fun fns _ => ∀ k (f : Function), fns[k]? = some f → f.Small →
        f.Plays plan (Plan.role p ((Plan.imports p.symbols).length + k)) := by
  refine yields_bind (Yields.mono (plays_routines config p.routines _ 0 st) (fun _ => id) ?_)
  intro own st₁ hown
  refine yields_bind (Yields.mono (plays_script p.script st₁) (fun _ => id) fun top st₂ htop => ?_)
  refine yields_bind (Yields.mono (plays_drain _ st₂) (fun _ => id) fun found st₃ hfound => yields_pure ?_)
  intro k f hf hsmall
  rw [Plan.role_add]
  obtain ⟨hlength, hget⟩ := List.forall₂_iff_get.1 hown
  rw [List.append_assoc, List.append_assoc] at hf
  by_cases hk : k < own.length
  · have hk' : k < (Plan.roles 0 p.routines).length := hlength ▸ hk
    rw [List.getElem?_append_left hk, List.getElem?_eq_getElem hk] at hf
    rw [List.getElem?_eq_getElem hk']
    cases hf
    exact hget k hk' hk hsmall
  · have hge := Nat.le_of_not_lt hk
    rw [List.getElem?_eq_none (hlength ▸ hge)]
    rw [List.getElem?_append_right hge] at hf
    have hmem := List.mem_of_getElem? hf
    simp only [List.mem_append] at hmem
    obtain hmem | hmem | hmem := hmem
    · exact Intrinsic.plays hmem
    · exact htop f hmem hsmall
    · exact hfound f hmem hsmall

end Emit

namespace Compiled

variable {p : Typed.Program} {config : CompileConfig} {fns : List Function} {st : Emit.State} {m : Module}

/-- **All functions of a compiled module play their roles.** -/
theorem plays (h : Compiled p config fns st m) {k : Nat} {f : Function} (hf : m.functions[k]? = some f) :
    f.Plays (Plan.ofProgram p config) (Plan.role p (m.imports.length + k)) := by
  rw [h.functions] at hf
  rw [h.imports]
  refine (Emit.plays_functions config p _).of_ok h.run k f hf ?_
  have hnumbers := h.numbers
  simp only [Typed.Program.numbersFit, Bool.and_eq_true, List.all_eq_true, decide_eq_true_eq] at hnumbers
  exact (hnumbers.2 f (List.mem_of_getElem? hf)).1

/-- Callers from outside do not reach functions of tasks. -/
theorem role_start (h : Compiled p config fns st m) {i : UInt32} (hstart : m.start = some i) :
    Plan.role p i.toNat ≠ .task := by
  have hcount := h.count_le
  have hinitial := h.initial_le
  rw [h.start] at hstart
  obtain ⟨n, hn, rfl⟩ := Option.map_eq_some_iff.mp hstart
  unfold Plan.scriptIndex at hn
  split at hn
  · cases hn
  · next hscript =>
    cases hn
    simp only [Plan.initialState, hscript, Bool.false_eq_true, if_false] at hinitial
    rw [toNat_toUInt32 (by omega), Plan.role_of_ge (Nat.le_add_right _ _)]
    exact Role.noConfusion

theorem role_main (h : Compiled p config fns st m) {e : Entry} (hmain : m.main = some e) :
    Plan.role p e.function.toNat ≠ .task := by
  rw [h.main] at hmain
  obtain ⟨sig, -, hmain⟩ := Option.bind_eq_some_iff.mp hmain
  split at hmain
  · obtain ⟨i, hi, hmain⟩ := Option.bind_eq_some_iff.mp hmain
    cases hmain
    have hcallable := Plan.Calls.spec (.direct hi)
    rw [toNat_toUInt32 (hcallable.small h.fits)]
    exact hcallable.role
  · cases hmain

theorem role_export (h : Compiled p config fns st m) {name : String}
    (hexport : m.export? name = some i) : Plan.role p i ≠ .task := by
  intro htask
  obtain ⟨k, hk, rfl⟩ := Option.map_eq_some_iff.1 hexport
  obtain ⟨hlt, hname, -⟩ := List.findIdx?_eq_some_iff_getElem.1 hk
  have hplays := h.plays (List.getElem?_eq_getElem hlt)
  rw [Nat.add_comm] at htask
  rw [(hplays.task htask).2] at hname
  simp at hname

end Compiled

end StackScript
