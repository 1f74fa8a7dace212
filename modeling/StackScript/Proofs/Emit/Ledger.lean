import StackScript.Proofs.Compile
import StackScript.Proofs.Emit.Shown

/-!
# Which function comes of what

The functions of a module are made one after the other, and the jobs that they leave are done in the order
in which they were left.  This module follows the emitter through a whole program: it says which function
of the module comes of which routine, of the top-level statements and of which job, that all of them refer only to
what exists, and where the code of every expression is.

## Design Notes

A job has the same position among all jobs as its function among those found on the way, and as its entry
in the table among those that are not known in advance.  So a table slot that code mentions can be traced
to the job that was left with it.
-/

namespace StackScript

open Typed

/-- A function whose body refers only to what exists. -/
def Function.Valid (functions types : Nat) (f : Function) : Prop :=
  ∃ code, f.body = Code.flatList code ++ [.end_] ∧
    Code.AllValid ⟨0, f.ty.params.length + f.locals.length, functions, types⟩ code

variable {vs : List Variable} {xs : List Typed.Expr} {first : Nat} {t : SymbolTable} {fl : List Flow} {j : Job}

namespace Emit

/-! ## All jobs so far -/

/-- A state with all jobs so far, of which some are done.  The jobs have the numbers from `base` on, and
the table slots behind those of `entries`. -/
structure State.Ledger (plan : Plan) (entries : List Nat) (base : Nat) (js : List Job) (done : Nat)
    (st : State) : Prop where
  table : st.table = entries ++ List.range' base js.length
  next : st.nextFunction = base + js.length
  done_le : done ≤ js.length
  waiting : st.jobs = js.drop done
  thunks : ∀ name a, st.thunks.lookup name = some a → ∃ k sig, plan.symbols.function? name = some sig ∧
    js[k]? = some (.thunk sig) ∧ (a, (thunkWords (entries.length + k)).flatMap (·.bytes)) ∈ st.data.segments
  sound : st.Sound

variable {plan : Plan} {entries : List Nat} {base done : Nat} {js : List Job} {st st' : State}

/-- A job that waits is one of all jobs, and has its position in the table. -/
theorem State.Schedules.position {slot : Nat} (h : st.Schedules slot j)
    (htable : st.table = entries ++ List.range' base js.length) (hdone : done ≤ js.length)
    (hwaiting : st.jobs = js.drop done) : ∃ k, done ≤ k ∧ js[k]? = some j ∧ slot = entries.length + k := by
  obtain ⟨k, hk, hslot⟩ := h
  rw [hwaiting, List.getElem?_drop] at hk
  rw [htable, hwaiting] at hslot
  simp only [List.length_append, List.length_range', List.length_drop] at hslot
  exact ⟨done + k, Nat.le_add_right _ _, hk, by omega⟩

namespace State.Ledger

theorem frame (h : st.Ledger plan entries base js done) (locals : List ValType) (places : List (Nat × Nat)) :
    State.Ledger plan entries base js done { st with locals, places } :=
  ⟨h.table, h.next, h.done_le, h.waiting, h.thunks, ⟨h.sound.data, h.sound.strings⟩⟩

/-- One more job is done. -/
theorem take (h : st.Ledger plan entries base js done) {rest : List Job} (hjobs : st.jobs = j :: rest) :
    js[done]? = some j ∧ State.Ledger plan entries base js (done + 1) { st with jobs := rest } := by
  have hdrop : js.drop done = j :: rest := h.waiting ▸ hjobs
  have hj : js[done]? = some j := by
    rw [← Nat.add_zero done, ← List.getElem?_drop, hdrop]
    rfl
  refine ⟨hj, h.table, h.next, (List.getElem?_eq_some_iff.1 hj).1, ?_, h.thunks, ⟨h.sound.data, h.sound.strings⟩⟩
  rw [← List.drop_drop, hdrop]
  rfl

/-- **A path adds jobs to the ledger.** -/
theorem path (h : st.Ledger plan entries base js done) (hpath : Path plan st st') :
    ∃ js', js <+: js' ∧ st'.Ledger plan entries base js' done := by
  obtain ⟨ks, hks⟩ := hpath.leaves
  have hdone := h.done_le
  have htable : st'.table = entries ++ List.range' base (js ++ ks).length := by
    rw [hks.table, h.table, h.next, List.append_assoc, List.length_append, List.range'_append_1]
  have hwaiting : st'.jobs = (js ++ ks).drop done := by
    rw [hks.jobs, h.waiting, List.drop_append_of_le_length hdone]
  have hle : done ≤ (js ++ ks).length := by
    rw [List.length_append]
    omega
  refine ⟨js ++ ks, List.prefix_append _ _, htable, ?_, hle, hwaiting, fun name a ha => ?_, hpath.sound h.sound⟩
  · rw [hks.next, h.next, List.length_append, Nat.add_assoc]
  · rcases hpath.thunks ha with hold | ⟨slot, sig, hsig, hslot, hseg⟩
    · obtain ⟨k, sig, hsig, hk, hseg⟩ := h.thunks name a hold
      exact ⟨k, sig, hsig, by rw [List.getElem?_append_left (List.getElem?_eq_some_iff.1 hk).1, hk],
        hpath.later.segments.subset hseg⟩
    · obtain ⟨k, -, hk, rfl⟩ := hslot.position htable hle hwaiting
      exact ⟨k, sig, hsig, hk, hseg⟩

end State.Ledger

/-! ## The way to the last state -/

/-- A state on the way to the last one, which knows all jobs. -/
def State.Within (st : State) (plan : Plan) (entries : List Nat) (base done : Nat) (final : State)
    (all : List Job) : Prop :=
  ∃ js, st.Ledger plan entries base js done ∧ st.Later final ∧ js <+: all

variable {final : State} {all : List Job}

namespace State.Within

/-- A job that waits is one of all jobs, and not one of those that are done. -/
theorem scheduled (h : st.Within plan entries base done final all) {slot : Nat}
    (hslot : st.Schedules slot j) : ∃ k, done ≤ k ∧ all[k]? = some j ∧ slot = entries.length + k := by
  obtain ⟨js, hledger, -, hjs⟩ := h
  obtain ⟨k, hle, hk, rfl⟩ := hslot.position hledger.table hledger.done_le hledger.waiting
  obtain ⟨more, rfl⟩ := hjs
  exact ⟨k, hle, by rw [List.getElem?_append_left (List.getElem?_eq_some_iff.1 hk).1, hk], rfl⟩

end State.Within

/-! ## Steps -/

/-- A step that may add to the ledger and takes nothing back. -/
def Tracks {α : Type} (plan : Plan) (entries : List Nat) (base done : Nat) (x : Emit α)
    (V : State → List Job → α → Prop) : Prop :=
  ∀ st js, st.Ledger plan entries base js done → Yields x st (fun _ => True) fun a st' =>
    st.Later st' ∧ ∃ js', js <+: js' ∧ st'.Ledger plan entries base js' done ∧
      ∀ final all, st'.Later final → js' <+: all → V final all a

namespace Tracks

variable {α β : Type} {x : Emit α} {f : α → Emit β} {V : State → List Job → α → Prop} {W : State → List Job → β → Prop}

theorem bind (hx : Tracks plan entries base done x V)
    (hf : ∀ a, Tracks plan entries base done (f a) fun final all b => V final all a → W final all b) :
    Tracks plan entries base done (x >>= f) W := by
  intro st js hst
  refine yields_bind (Yields.mono (hx st js hst) (fun _ => id) ?_)
  rintro a st₁ ⟨hlater₁, js₁, hjs₁, hledger₁, hv⟩
  refine Yields.mono (hf a st₁ js₁ hledger₁) (fun _ => id) ?_
  rintro b st₂ ⟨hlater₂, js₂, hjs₂, hledger₂, hw⟩
  refine ⟨hlater₁.trans hlater₂, js₂, hjs₁.trans hjs₂, hledger₂, fun final all hfinal hall => ?_⟩
  exact hw final all hfinal hall (hv final all (hlater₂.trans hfinal) (hjs₂.trans hall))

theorem pure {a : α} (h : ∀ final all, V final all a) : Tracks plan entries base done (pure a) V :=
  fun st js hst => yields_pure ⟨.refl st, js, List.prefix_rfl, hst, fun final all _ _ => h final all⟩

/-- The run of a step, with the state after it on the way to the last one. -/
theorem withRun (h : Tracks plan entries base done x V) :
    Tracks plan entries base done x fun final all a => V final all a ∧
      ∃ before after, x.run before = .ok (a, after) ∧ after.Within plan entries base done final all := by
  intro st js hst
  refine Yields.mono (Yields.withRun (h st js hst)) (fun _ => id) ?_
  rintro a st' ⟨⟨hlater, js', hjs, hledger, hv⟩, hrun⟩
  refine ⟨hlater, js', hjs, hledger, fun final all hfinal hall => ⟨hv final all hfinal hall, ?_⟩⟩
  exact ⟨st, st', hrun, js', hledger, hfinal, hall⟩

end Tracks

/-! ## Functions -/

variable {count : Nat} {name : String} {ret : Option ValType} {exported : Option String} {s : Site} {c : Scope}
  {g : Function} {r : Typed.Routine} {own : List Function}

/-- A function starts with the places of its parameters. -/
theorem inside_paramPlaces {low : Nat} (hfirst : Variable.From first vs)
    (hcount : low + vs.length ≤ count) (st : State) :
    State.Inside count first low (st.atStart (paramPlaces low vs)) := by
  refine ⟨fun id i hi => ?_, ?_⟩
  · obtain ⟨v, hv, rfl, hle, hlt⟩ := bounds_paramPlaces hi
    exact ⟨hfirst v hv, hle, by simp only [List.length_nil]; omega⟩
  · rw [paramPlaces, List.map_reverse, List.map_map, List.nodup_reverse]
    have hsnd : (vs.zipIdx low).map (Prod.snd ∘ fun v => (v.1.id, v.2)) = List.range' low vs.length :=
      List.zipIdx_map_snd low vs
    rw [hsnd]
    exact List.nodup_range'

/-- The run of a function is that of its body. -/
theorem run_function {params : List ValType} {body : Emit (List Code)} {f : Function} :
    (function name params ret exported body).run st = .ok (f, st') ↔
      ∃ code, body.run (st.atStart []) = .ok (code, st') ∧
        f = { name, ty := .of params ret, locals := st'.locals, body := Code.flatList code ++ [.end_],
              export_ := exported } := by
  unfold function
  simp only [run_bind_eq_ok, run_modify_eq_ok, run_get_eq_ok, run_pure_eq_ok]
  constructor
  · rintro ⟨_, _, rfl, code, st₁, hcode, _, _, ⟨rfl, rfl⟩, rfl, rfl⟩
    exact ⟨code, hcode, rfl⟩
  · rintro ⟨code, hcode, rfl⟩
    exact ⟨(), _, rfl, code, st', hcode, _, _, ⟨rfl, rfl⟩, rfl, rfl⟩

/-- What the run of a function shows, whose body starts with some places of parameters. -/
theorem Shows.function {s : Site} {c : Scope} {name : String} {params : List ValType} {ret : Option ValType}
    {exported : Option String} {places : List (Nat × Nat)} {body x : Emit (List Code)} {V : State → List Code → Prop}
    (hx : Shows s c x V) (hstart : ∀ st : State, body.run (st.atStart []) = x.run (st.atStart places))
    (habove : ∀ st : State, State.Above s.paramCount c (st.atStart places)) (st : State) :
    Yields (function name params ret exported body) st (fun _ => True) fun f st' =>
      Path s.plan (st.atStart places) st' ∧ st'.Above s.paramCount c ∧
        f.ty = .of params ret ∧ f.export_ = exported ∧ f.locals = st'.locals ∧
          ∃ code, V st' code ∧ f.body = Code.flatList code ++ [.end_] := by
  have hbody : Yields body (st.atStart []) (fun _ => True) fun code st' =>
      st'.Above s.paramCount c ∧ Path s.plan (st.atStart places) st' ∧ ∀ hi, Path s.plan st' hi → V hi code := by
    unfold Yields
    rw [hstart]
    exact hx _ (habove st)
  refine yields_bind (yields_modify (yields_bind (Yields.mono hbody (fun _ => id) ?_)))
  rintro code st' ⟨habove', hpath, hv⟩
  exact yields_bind (yields_get (yields_pure ⟨hpath, habove', rfl, rfl, rfl, code, hv _ .refl, rfl⟩))

/-- A function with the code of a body at a site, made on the way from a state to another. -/
structure Made (s : Site) (c : Scope) (xs : List Typed.Expr) (vs : List Variable) (fl : List Flow) (st : State)
    (g : Function) (st' : State) : Prop where
  path : Path s.plan st st'
  above : st'.Above s.paramCount c
  params : g.ty.params.length = s.paramCount
  locals : g.locals = st'.locals
  sound : ∃ code, Sound s c xs vs fl st' code ∧ g.body = Code.flatList code ++ [.end_]

/-- A function is valid with the types of a state and the functions of the plan, if its body has 32 bits. -/
def State.Validates (st : State) (plan : Plan) (g : Function) : Prop :=
  ∀ functions, (∀ i, plan.Calls i → i < functions) → HostImport.all.length ≤ functions →
    g.body.length ≤ Layout.addressLimit → g.Valid functions st.types.length

theorem Made.validates (h : Made s c xs vs fl st g st') (hk : c.Knows)
    (hlabels : s.labels = []) (hfirst : s.captures ≠ [] ∨ s.ret ≠ .direct → 0 < s.paramCount) {final : State}
    (hlater : st'.Later final) : final.Validates s.plan g := by
  obtain ⟨code, hsound, hcode⟩ := h.sound
  intro functions hcalls hhost hsmall
  rw [hcode, List.length_append] at hsmall
  refine ⟨code, hcode, hsound.valid hk hlabels ?_ ⟨?_, hlater.types.length_le, hcalls, hhost, fun hs => ?_⟩⟩
  · rw [Site.Fits, hlabels]
    exact Nat.le_trans (by simp) hsmall
  · exact Nat.le_of_eq (by rw [h.params, h.locals])
  · exact Nat.add_pos_left (h.params ▸ hfirst hs) _

theorem Made.nodes (h : Made s c xs vs fl st g st') (hk : c.Knows) :
    ∀ x ∈ xs, Node s.plan g.ty.params.length s.captures st' x g.body ∨ st'.Defers xs x := by
  obtain ⟨code, hsound, hcode⟩ := h.sound
  intro x hx
  rw [h.params, hcode]
  exact (hsound.nodes hk x hx).imp_left fun hnode => hnode.mono (List.prefix_append _ _).isInfix

/-- A function whose body follows a path adds to the ledger. -/
theorem tracks_of_path {x : Emit Function} (places : List (Nat × Nat))
    (hx : ∀ st : State, Yields x st (fun _ => True) fun g st' =>
      Path plan (st.atStart places) st' ∧ ∀ final : State, st'.Later final → final.Validates plan g) :
    Tracks plan entries base done x fun final _ g => final.Validates plan g := by
  intro st js hst
  refine Yields.mono (hx st) (fun _ => id) fun f st' ⟨hpath, hvalid⟩ => ?_
  obtain ⟨js', hjs, hledger⟩ := (hst.frame [] places).path hpath
  have hlater := hpath.later
  refine ⟨?_, js', hjs, hledger, fun final _ hfinal _ => hvalid final hfinal⟩
  exact ⟨hlater.strings, hlater.thunks, hlater.segments, hlater.base, hlater.types, hlater.table⟩

/-! ### Bodies -/

section

variable {s : Site} {c : Scope}

theorem shows_unpackParams : ∀ {vs : List (Variable × ValType)} (slot : Nat), Variable.From c.first (vs.map Prod.fst) →
    Shows s c (unpackParams s slot vs) fun hi os => IsLocal s c hi 1 → AllSteady s c hi 0 os
  | [], _, _ => .pure fun _ _ => Op.all_nil
  | (_, ty) :: _, slot, hv => by
    obtain ⟨hfirst, hrest⟩ := List.forall_mem_cons.1 hv
    refine shows_declareLocal ty hfirst fun i => (shows_unpackParams (slot + 1) hrest).bind fun ops => ?_
    exact .pure fun hi hops hi' henv => by simp [henv, hi', hops henv]

/-- The body of a task, behind the code that takes its parameters out of the environment; its end is not reached. -/
theorem shows_entry (plan : Plan) (r : Typed.Routine) (slots : List ValType) (sized : Prop) :
    Shows (site plan 2 [] (.resolve r.sig.ret.valType?)) ⟨0, Role.task.kept, sized⟩ (entry plan r slots) fun hi code =>
      Sound (site plan 2 [] (.resolve r.sig.ret.valType?)) ⟨0, Role.task.kept, sized⟩ (stmtNodes r.body)
        (stmtReads r.body) (stmtFlow r.body) hi code ∧ Code.Closed code := by
  unfold entry
  generalize r.sig.ret.valType? = ret
  have henv {hi : State} : IsLocal (site plan 2 [] (.resolve ret)) ⟨0, Role.task.kept, sized⟩ hi 1 :=
    ⟨Nat.one_ne_zero, fun _ => Nat.lt_add_right _ (Nat.lt_succ_self 1)⟩
  refine (shows_unpackParams 0 fun _ _ => Nat.zero_le _).bind fun unpacking => ?_
  refine (shows_stmts r.body fun _ _ => Nat.zero_le _).bind fun body => ?_
  cases ret with
  | some ty =>
    refine .pure fun hi hbody hunpack => ⟨?_, Code.Closed.append (.inl rfl) _⟩
    exact (hbody.opsAppend (hunpack henv)).appendOps (by simp)
  | none =>
    refine .pure fun hi hbody hunpack => ⟨?_, Code.Closed.append (.inr rfl) _⟩
    refine (hbody.opsAppend (hunpack henv)).appendIdle
      (.idle ⟨fun _ => nofun, fun hs => ?_, fun _ => ?_, refers_ops fun _ b hb => ?_⟩ rfl)
    · exact nomatch hs.2.1
    · exact .name rfl (.give trivial (.make rfl (.leave rfl .nil)))
    · simp [hb.first (.inr (by simp [site])), hb.host]

theorem Sound.guarded {hi : State} {code : List Code}
    (h : Sound s c xs vs fl hi code) (ret : Option ValType) : Sound s c xs vs fl hi (code ++ guardEnd ret) := by
  unfold guardEnd
  split
  · exact h.appendOp (by simp)
  · rwa [List.append_nil]

/-- The body of a function that is not async. -/
theorem shows_guarded (ret : Option ValType) (ss : List Typed.Stmt) (hd : Variable.From c.first (stmtDecls ss)) :
    Shows s c (do return (← stmts s ss) ++ guardEnd ret) (Sound s c (stmtNodes ss) (stmtReads ss) (stmtFlow ss)) :=
  (shows_stmts ss hd).bind fun _ => .pure fun _ h => h.guarded ret

theorem shows_literalBody (ret : Option ValType) (body : Typed.Body) (hd : Variable.From c.first body.decls) :
    Shows s c (literalBody s ret body) (Sound s c body.nodes body.reads body.flow) := by
  cases body with
  | expr e =>
    refine (shows_expr e hd).bind fun code => ?_
    split
    · exact .pure fun hi h => h.guarded ret
    · split
      · exact .pure fun hi h => h.appendOp (by simp)
      · exact .pure fun hi h => h
  | block ss => exact shows_guarded ret ss hd

end

/-! ### Origins -/

/-- The step for a function or method that is not async. -/
def plainFunction (plan : Plan) (config : CompileConfig) (r : Typed.Routine) : Emit Function :=
  function r.fullName (r.sig.params.map Ty.slotType) r.sig.ret.valType? (exportName config r) do
    bindParams 0 r.params
    return (← stmts (site plan (r.sig.params.map Ty.slotType).length [] .direct) r.body) ++ guardEnd r.sig.ret.valType?

/-- The step for the function that starts the task of an async function. -/
def starterFunction (plan : Plan) (config : CompileConfig) (f : Plan.Placed) : Emit Function :=
  function f.routine.fullName (f.routine.sig.params.map Ty.slotType) (some .i32)
    (exportName config f.routine) (starter plan f (f.routine.sig.params.map Ty.slotType))

/-- The step for the task of an async function. -/
def entryFunction (plan : Plan) (r : Typed.Routine) : Emit Function :=
  function (r.fullName ++ "$entry") [.i32, .i32] none none (entry plan r (r.sig.params.map Ty.slotType))

/-- The step for the top-level statements. -/
def scriptFunction (plan : Plan) (ss : List Typed.Stmt) : Emit Function :=
  function "_start" [] none (some "_start") (stmts (site plan 0 [] .direct) ss)

theorem routine_plain (plan : Plan) (config : CompileConfig) {f : Plan.Placed}
    (h : f.routine.sig.isAsync = false) :
    routine plan config f = (do return [← plainFunction plan config f.routine]) := by
  unfold routine plainFunction
  simp only [h, Bool.false_eq_true, if_false]

theorem routine_async (plan : Plan) (config : CompileConfig) {f : Plan.Placed}
    (h : f.routine.sig.isAsync = true) :
    routine plan config f = (do
      let first ← starterFunction plan config f
      let second ← entryFunction plan f.routine
      return [first, second]) := by
  unfold routine starterFunction entryFunction
  simp only [h, if_true]

/-- A step that makes a function with code of the program, with the variables that it captures and the
expressions in it. -/
inductive Origin (plan : Plan) (config : CompileConfig) (p : Typed.Program) :
    Emit Function → List Variable → List Typed.Expr → Prop
  | plain {f} (placed : f ∈ Plan.placed p) (sync : f.routine.sig.isAsync = false) :
      Origin plan config p (plainFunction plan config f.routine) [] (stmtNodes f.routine.body)
  | entry {f} (placed : f ∈ Plan.placed p) (async : f.routine.sig.isAsync = true) :
      Origin plan config p (entryFunction plan f.routine) [] (stmtNodes f.routine.body)
  | script : Origin plan config p (scriptFunction plan p.script) [] (stmtNodes p.script)
  | literal {id ty params captures body}
      (node : (⟨id, ty, .lambda params captures body⟩ : Typed.Expr) ∈ p.nodes) :
      Origin plan config p (job plan (.lambda id ty params captures body)) captures body.nodes

/-! ### What functions show -/

theorem above_nil (h : ∀ k, c.kept k → k < count) (st : State) : State.Above count c (st.atStart []) :=
  ⟨fun _ => ⟨nofun, .nil⟩, h, nofun⟩

theorem allValid_packParams {b : Bounds} {env : Nat} {slots : List ValType} (henv : env < b.locals)
    (hslots : slots.length ≤ b.locals) : Op.AllValid b (packParams env slots) := by
  intro o ho
  obtain ⟨ops, hops, ho⟩ := List.mem_flatten.mp ho
  obtain ⟨i, hi, rfl⟩ := List.mem_mapIdx.mp hops
  have hlt : i < b.locals := Nat.lt_of_lt_of_le hi hslots
  have hall : Op.AllValid b [.get env, .get i, .write (.ofVal slots[i]) (Layout.word * i)] := by
    simp [henv, hlt]
  exact hall o ho

/-- A function that is valid by itself follows a path. -/
theorem Shows.validates {params : List ValType} {body : Emit (List Code)}
    (h : Shows (site plan params.length [] .direct) (.free True) body fun hi code =>
      ∀ b, (site plan params.length [] .direct).Bounded hi b → Code.AllValid b code) (st : State) :
    Yields (Emit.function name params ret exported body) st (fun _ => True) fun g st' => g.ty = .of params ret ∧
      Path plan (st.atStart []) st' ∧ ∀ final : State, st'.Later final → final.Validates plan g := by
  refine Yields.mono (h.function (fun _ => rfl) (above_nil nofun) st) (fun _ => id) ?_
  rintro g st' ⟨hpath, -, hty, -, hlocals, code, hvalid, hcode⟩
  refine ⟨hty, hpath, fun final hlater functions hcalls hhost _ => ⟨code, hcode, hvalid _ ?_⟩⟩
  exact ⟨by rw [hty, hlocals]; exact Nat.le_refl _, hlater.types.length_le, hcalls, hhost, by simp [site]⟩

theorem yields_starterFunction (plan : Plan) (config : CompileConfig) (f : Plan.Placed) (st : State) :
    Yields (starterFunction plan config f) st (fun _ => True) fun g st' =>
      Path plan (st.atStart []) st' ∧ ∀ final : State, st'.Later final → final.Validates plan g := by
  refine Yields.mono (Shows.validates ?_ st) (fun _ => id) fun _ _ h => h.2
  simp only [starter, pure_bind]
  split
  · exact .pure fun _ b hb => by simp [hb.host]
  · refine shows_alloc _ _ fun env => .pure fun hi henv b hb => ?_
    have hlt : env < b.locals := henv.lt (.inr trivial) hb
    simp [hlt, hb.host, allValid_packParams hlt (Nat.le_of_add_right_le hb.locals)]

theorem yields_entryFunction (plan : Plan) (r : Typed.Routine) (st : State) :
    Yields (entryFunction plan r) st (fun _ => True)
      (Made (site plan 2 [] (.resolve r.sig.ret.valType?)) ⟨0, Role.task.kept, True⟩ (stmtNodes r.body)
        (stmtReads r.body) (stmtFlow r.body) (st.atStart [])) := by
  refine Yields.mono ((shows_entry plan r _ True).function (fun _ => rfl) (above_nil ?_) st) (fun _ => id) ?_
  · rintro _ rfl
    exact Nat.two_pos
  · rintro g st' ⟨hpath, habove, hty, -, hlocals, code, ⟨hsound, -⟩, hcode⟩
    exact ⟨hpath, habove, hty ▸ rfl, hlocals, code, hsound, hcode⟩

theorem yields_plainFunction (plan : Plan) (config : CompileConfig)
    (hr : r.params.length = r.sig.params.length) (st : State) : Yields (plainFunction plan config r) st (fun _ => True)
      (Made (site plan (r.sig.params.map Ty.slotType).length [] .direct) (.free True) (stmtNodes r.body)
        (stmtReads r.body) (stmtFlow r.body) (st.atStart (paramPlaces 0 r.params))) := by
  have habove (st : State) : State.Above (r.sig.params.map Ty.slotType).length (.free True)
      (st.atStart (paramPlaces 0 r.params)) :=
    ⟨fun _ => inside_paramPlaces (fun _ _ => Nat.zero_le _) (by simp [hr]) st, nofun, fun _ _ _ => id⟩
  refine Yields.mono (Shows.function (shows_guarded _ _ fun _ _ => Nat.zero_le _) (run_bindParams_bind _ _ _) habove st)
    (fun _ => id) ?_
  rintro g st' ⟨hpath, habove, hty, -, hlocals, hsound⟩
  exact ⟨hpath, habove, hty ▸ rfl, hlocals, hsound⟩

theorem yields_scriptFunction (plan : Plan) (ss : List Typed.Stmt) (st : State) :
    Yields (scriptFunction plan ss) st (fun _ => True)
      (Made (site plan 0 [] .direct) (.free True) (stmtNodes ss) (stmtReads ss) (stmtFlow ss) (st.atStart [])) := by
  refine Yields.mono (Shows.function (c := .free True) (shows_stmts ss fun _ _ => Nat.zero_le _) (fun _ => rfl)
    (above_nil nofun) st) (fun _ => id) ?_
  rintro g st' ⟨hpath, habove, hty, -, hlocals, hsound⟩
  exact ⟨hpath, habove, hty ▸ rfl, hlocals, hsound⟩

/-- The function of a literal: the environment is its first parameter, which it keeps. -/
theorem yields_literalJob (plan : Plan) (id : Nat) {params captures : List Variable} {body : Typed.Body} (ret : Ty) (hparams : Variable.From first params) (hd : Variable.From first body.decls) (st : State) :
    Yields (job plan (.lambda id (.fn (params.map (·.ty)) ret) params captures body)) st (fun _ => True) fun g st' =>
      g.ty = closureType (params.map (·.ty)) ret ∧
        Made (site plan (ValType.i32 :: (params.map (·.ty)).map Ty.slotType).length captures .direct) ⟨first, (· = 0), True⟩
          body.nodes body.reads body.flow (st.atStart (paramPlaces 1 params)) g st' := by
  have habove (st : State) : State.Above (ValType.i32 :: (params.map (·.ty)).map Ty.slotType).length ⟨first, (· = 0), True⟩
      (st.atStart (paramPlaces 1 params)) := by
    have hinside := inside_paramPlaces hparams (show 1 + params.length ≤ params.length + 1 by omega) st
    refine ⟨fun _ => ⟨fun id i hi => ?_, hinside.single⟩, ?_, fun id i hi hzero => ?_⟩
    · obtain ⟨hfirst, -, hroom⟩ := hinside.bounds id i hi
      exact ⟨hfirst, Nat.zero_le _, by simpa using hroom⟩
    · rintro _ rfl
      exact Nat.succ_pos _
    · exact Nat.ne_of_gt (hinside.bounds id i hi).2.1 hzero
  refine Yields.mono (Shows.function (shows_literalBody ret.valType? body hd) (run_bindParams_bind _ _ _) habove st)
    (fun _ h => h) ?_
  rintro g st' ⟨hpath, habove, hty, -, hlocals, hsound⟩
  exact ⟨hty, hpath, habove, hty ▸ rfl, hlocals, hsound⟩

/-- A function made of a literal loads what it captures from its environment, and nothing else. -/
theorem Made.loads (h : Made s ⟨first, (· = 0), True⟩ xs vs fl st g st') (hdirect : s.ret = .direct)
    (houter : ∀ v ∈ s.captures, v.id < first) (hroom : g.ty.params.length + g.locals.length ≤ Layout.addressLimit) :
    EnvLoads g.body (envLoads s.captures vs) := by
  obtain ⟨code, hsound, hcode⟩ := h.sound
  rw [h.params, h.locals] at hroom
  rw [hcode, ← List.append_nil (envLoads s.captures vs)]
  exact (hsound.loads ⟨rfl, hdirect, houter, hroom⟩).append (.quiet trivial .nil)

theorem yields_thunkJob (plan : Plan) (sig : FunctionSig) (st : State) :
    Yields (job plan (.thunk sig)) st (fun _ => True) fun g st' => g.ty = closureType sig.params sig.effectiveRet ∧
      Path plan (st.atStart []) st' ∧ ∀ final : State, st'.Later final → final.Validates plan g := by
  refine Shows.validates (Shows.bind (.orDefect (V := fun _ i => plan.Calls i) fun i _ found => ?_) fun target => ?_) st
  · split at found
    · exact .external found
    · exact .direct found
  · refine .pure fun _ hcalls b hb => Code.allValid_ops.2 (Op.all_append.2 ⟨fun o ho => ?_, by simp [hb.calls _ hcalls]⟩)
    obtain ⟨k, hk, rfl⟩ := List.mem_map.1 ho
    have hlt := List.mem_range.1 hk
    have hlocals := hb.locals
    simp only [site, List.length_cons, List.length_map] at hlocals
    exact Op.valid_get (by omega)

/-! ## Programs -/

variable {config : CompileConfig} {p : Typed.Program}

theorem params_length (h : r.WellTyped t) : r.params.length = r.sig.params.length := by
  obtain ⟨-, -, -, -, -, htys, -⟩ := h
  rw [← htys, List.length_map]

theorem tracks_routine (config : CompileConfig) {f : Plan.Placed} (h : f.routine.WellTyped t) :
    Tracks plan entries base done (routine plan config f) fun final _ out => ∀ g ∈ out, final.Validates plan g := by
  cases hasync : f.routine.sig.isAsync with
  | false =>
    rw [routine_plain plan config hasync]
    refine (tracks_of_path (paramPlaces 0 f.routine.params) fun st => ?_).bind fun _ => .pure fun _ _ h => by simpa using h
    exact Yields.mono (yields_plainFunction plan config (params_length h) st) (fun _ => id) fun _ _ made =>
      ⟨made.path, fun _ => made.validates (.inr trivial) rfl (by simp [site])⟩
  | true =>
    rw [routine_async plan config hasync]
    refine (tracks_of_path [] (yields_starterFunction plan config f)).bind fun _ => ?_
    refine Tracks.bind (tracks_of_path [] fun st => ?_) fun _ => .pure fun _ _ hsecond hfirst => by simp [hfirst, hsecond]
    exact Yields.mono (yields_entryFunction plan f.routine st) (fun _ => id) fun _ _ made =>
      ⟨made.path, fun _ => made.validates (.inr trivial) rfl fun _ => Nat.two_pos⟩

/-- A routine has its functions where its number says. -/
structure RoutineMade (plan : Plan) (entries : List Nat) (base : Nat) (config : CompileConfig) (first : Nat)
    (own : List Function) (final : State) (all : List Job) (f : Plan.Placed) : Prop where
  made : ∃ before after out, (routine plan config f).run before = .ok (out, after) ∧
    after.Within plan entries base 0 final all ∧ first ≤ f.index ∧ out <+: own.drop (f.index - first)

theorem RoutineMade.cons {k : Nat} {front : List Function} {f : Plan.Placed}
    (h : RoutineMade plan entries base config (first + k) own final all f) (hk : front.length = k) :
    RoutineMade plan entries base config first (front ++ own) final all f := by
  obtain ⟨before, after, out, hrun, hafter, hfirst, hout⟩ := h
  refine ⟨before, after, out, hrun, hafter, by omega, ?_⟩
  have hindex : f.index - first = front.length + (f.index - (first + k)) := by omega
  rwa [hindex, List.drop_append, Nat.add_sub_cancel_left, List.drop_eq_nil_of_le (Nat.le_add_right _ _),
    List.nil_append]

theorem length_routine {f : Plan.Placed} {out : List Function} (h : (routine plan config f).run st = .ok (out, st')) :
    out.length = if f.routine.sig.isAsync then 2 else 1 := by
  cases hasync : f.routine.sig.isAsync with
  | false =>
    rw [routine_plain plan config hasync] at h
    simp only [run_bind_eq_ok, run_pure_eq_ok] at h
    obtain ⟨_, _, -, rfl, -⟩ := h
    rfl
  | true =>
    rw [routine_async plan config hasync] at h
    simp only [run_bind_eq_ok, run_pure_eq_ok] at h
    obtain ⟨_, _, -, _, _, -, rfl, -⟩ := h
    rfl

/-- **The routines of a program have their functions where their numbers say.** -/
theorem tracks_routines (config : CompileConfig) : ∀ (rs : List Typed.Routine) (i slot : Nat),
    (∀ r ∈ rs, r.WellTyped t) →
      Tracks plan entries base 0 (routines plan config (Plan.number i slot rs)) fun final all own =>
        (∀ g ∈ own, final.Validates plan g) ∧
          ∀ f ∈ Plan.number i slot rs, RoutineMade plan entries base config i own final all f
  | [], _, _, _ => .pure fun _ _ => ⟨nofun, nofun⟩
  | r :: rs, i, slot, h => by
    obtain ⟨hr, hrs⟩ := List.forall_mem_cons.1 h
    have hstep (f : Plan.Placed) (hf : f.routine = r) (hi : f.index = i) (k slot' : Nat)
        (hk : k = if r.sig.isAsync then 2 else 1) :
        Tracks plan entries base 0 (routines plan config (f :: Plan.number (i + k) slot' rs))
          fun final all own => (∀ g ∈ own, final.Validates plan g) ∧ ∀ g ∈ f :: Plan.number (i + k) slot' rs,
            RoutineMade plan entries base config i own final all g := by
      refine (tracks_routine config (hf ▸ hr)).withRun.bind fun out => ?_
      refine (tracks_routines config rs (i + k) slot' hrs).bind fun own => .pure ?_
      rintro final all ⟨hvalid, hown⟩ ⟨hvalid', before, after, hrun, hafter⟩
      refine ⟨List.forall_mem_append.2 ⟨hvalid', hvalid⟩,
        List.forall_mem_cons.2 ⟨⟨before, after, out, hrun, hafter, Nat.le_of_eq hi.symm, ?_⟩, fun g hg => ?_⟩⟩
      · rw [hi, Nat.sub_self]
        exact List.prefix_append _ _
      · exact (hown g hg).cons (by rw [length_routine hrun, hf, hk])
    rw [Plan.number]
    cases hasync : r.sig.isAsync with
    | true => exact hstep ⟨r, i, slot⟩ rfl rfl 2 (slot + 1) (by simp [hasync])
    | false => exact hstep ⟨r, i, slot⟩ rfl rfl 1 slot (by simp [hasync])

theorem tracks_script (plan : Plan) (ss : List Typed.Stmt) :
    Tracks plan entries base 0 (script plan ss) fun final all top => (∀ g ∈ top, final.Validates plan g) ∧ (ss ≠ [] →
      ∃ before after g, top = [g] ∧ (scriptFunction plan ss).run before = .ok (g, after) ∧
        after.Within plan entries base 0 final all) := by
  unfold script
  split
  next hempty => exact .pure fun _ _ => ⟨nofun, fun h => absurd (List.isEmpty_iff.1 hempty) h⟩
  next =>
    have hscript : Tracks plan entries base 0 (scriptFunction plan ss) fun final _ g => final.Validates plan g :=
      tracks_of_path [] fun st => Yields.mono (yields_scriptFunction plan ss st) (fun _ => id) fun _ _ made =>
        ⟨made.path, fun _ => made.validates (.inr trivial) rfl (by simp [site])⟩
    refine Tracks.bind hscript.withRun fun g => .pure ?_
    rintro final all ⟨hvalid, before, after, hrun, hafter⟩
    exact ⟨by simpa using hvalid, fun _ => ⟨before, after, g, rfl, hrun, hafter⟩⟩

theorem tracks_job (hj : j.WellTyped t) :
    Tracks plan entries base done (job plan j) fun final _ g => final.Validates plan g := by
  cases hj with
  | @lambda Γ n id ty params captures body n' _ _ literal =>
    have hliteral := literal.literal
    obtain ⟨ret, rfl⟩ := hliteral.ty
    refine tracks_of_path (paramPlaces 1 params) fun st => ?_
    exact Yields.mono (yields_literalJob plan id ret (fun v hv => (hliteral.params.bounds hv).1)
      hliteral.decls st) (fun _ h => h) fun _ _ ⟨_, made⟩ =>
        ⟨made.path, fun _ => made.validates (.inr trivial) rfl fun _ => Nat.succ_pos _⟩
  | thunk =>
    exact tracks_of_path [] fun st => Yields.mono (yields_thunkJob plan _ st) (fun _ => id) fun _ _ h => h.2

/-- A job has its function at a position. -/
def JobMade (plan : Plan) (entries : List Nat) (base : Nat) (final : State) (all : List Job) (found : List Function)
    (i k : Nat) (j : Job) : Prop :=
  ∃ before after f, found[i]? = some f ∧ (job plan j).run before = .ok (f, after) ∧
    after.Within plan entries base (k + 1) final all

/-- **Jobs have their functions in the order in which they were left.** -/
theorem tracks_drain {found : List Function} (h : Drains plan st found st')
    (hst : st.Ledger plan entries base js done) : st.Later st' ∧ ∃ all, js <+: all ∧
      st'.Ledger plan entries base all all.length ∧ found.length + done = all.length ∧
      (∀ g ∈ found, st'.Validates plan g) ∧
      ∀ i j, all[done + i]? = some j → JobMade plan entries base st' all found i (done + i) j := by
  induction h generalizing js done with
  | @done st hnone =>
    have hdone : done = js.length := by
      have hlength := congrArg List.length (hst.waiting.symm.trans hnone)
      simp only [List.length_drop, List.length_nil] at hlength
      have hle := hst.done_le
      omega
    refine ⟨.refl st, js, List.prefix_rfl, hdone ▸ hst, by simp [hdone], nofun, fun i j hj => ?_⟩
    rw [List.getElem?_eq_none (by omega)] at hj
    cases hj
  | @step st st₁ st' j rest _ f _ hcons htyped hrun _ _ ih =>
    obtain ⟨hj, htaken⟩ := hst.take hcons
    obtain ⟨hlater₁, js₁, hjs₁, hledger₁, hvalid⟩ := Yields.of_ok (tracks_job htyped _ _ htaken) hrun
    obtain ⟨hlater, all, hall, hledger, hlength, hothers, hmade⟩ := ih hledger₁
    have hstep : st.Later st₁ := ⟨hlater₁.strings, hlater₁.thunks, hlater₁.segments, hlater₁.base, hlater₁.types,
      hlater₁.table⟩
    refine ⟨hstep.trans hlater, all, hjs₁.trans hall, hledger, by rw [List.length_cons]; omega,
      List.forall_mem_cons.2 ⟨hvalid _ all hlater hall, hothers⟩, fun i k hk => ?_⟩
    cases i with
    | zero =>
      obtain ⟨more, rfl⟩ := hjs₁.trans hall
      rw [Nat.add_zero, List.getElem?_append_left (List.getElem?_eq_some_iff.1 hj).1, hj] at hk
      cases hk
      exact ⟨_, st₁, f, rfl, hrun, js₁, hledger₁, hlater, hall⟩
    | succ i =>
      have hindex : done + (i + 1) = done + 1 + i := by omega
      rw [hindex] at hk ⊢
      exact hmade i k hk

/-- The functions of a program, each with the step that it comes of, when the emitter ends in a state after
some jobs. -/
structure Unfolded (p : Typed.Program) (config : CompileConfig) (fns : List Function) (final : State)
    (all : List Job) : Prop where
  ledger : final.Ledger (Plan.ofProgram p config) (Plan.entries (Plan.placed p))
    (Plan.initialState p config).nextFunction all all.length
  routines : ∀ f ∈ Plan.placed p, RoutineMade (Plan.ofProgram p config) (Plan.entries (Plan.placed p))
    (Plan.initialState p config).nextFunction config (Plan.imports p.symbols).length fns final all f
  script : p.script ≠ [] → ∃ before after, ∃ g ∈ fns,
    (scriptFunction (Plan.ofProgram p config) p.script).run before = .ok (g, after) ∧
      after.Within (Plan.ofProgram p config) (Plan.entries (Plan.placed p))
        (Plan.initialState p config).nextFunction 0 final all
  count : (Plan.imports p.symbols).length ≤ (Plan.initialState p config).nextFunction
  dataBase : final.data.base = Layout.align config.dataBase.toNat
  valid : ∀ g ∈ fns, g ∈ Intrinsic.all ∨ final.Validates (Plan.ofProgram p config) g
  jobs : ∀ k j, all[k]? = some j → JobMade (Plan.ofProgram p config) (Plan.entries (Plan.placed p))
    (Plan.initialState p config).nextFunction final all fns
      ((Plan.initialState p config).nextFunction - (Plan.imports p.symbols).length + k) k j

theorem ledger_initialState (p : Typed.Program) (config : CompileConfig) :
    (Plan.initialState p config).Ledger (Plan.ofProgram p config) (Plan.entries (Plan.placed p))
      (Plan.initialState p config).nextFunction [] 0 where
  table := (List.append_nil _).symm
  next := rfl
  done_le := Nat.le_refl _
  waiting := rfl
  thunks := nofun
  sound := ⟨DataRegion.ordered_ofBase _, nofun⟩

theorem RoutineMade.append {more : List Function} {f : Plan.Placed}
    (h : RoutineMade plan entries base config first own final all f) :
    RoutineMade plan entries base config first (own ++ more) final all f := by
  obtain ⟨before, after, out, hrun, hafter, hfirst, hout⟩ := h
  refine ⟨before, after, out, hrun, hafter, hfirst, hout.trans ?_⟩
  rw [List.drop_append]
  exact List.prefix_append _ _

/-- **Every function comes of its step.** -/
theorem unfolded_of_run {fns : List Function} (h : p.WellTyped) (hfits : Plan.fits p = true)
    (hrun : (Emit.functions (Plan.ofProgram p config) config p).run (Plan.initialState p config) = .ok (fns, final)) :
    ∃ all, Unfolded p config fns final all := by
  have hplan := Plan.complete_ofProgram h hfits config
  have hcount := (Yields.of_ok (functions_spec h hfits config) hrun).count
  obtain ⟨strict, n, n', returns, hscript⟩ := h.script
  unfold Emit.functions at hrun
  simp only [run_bind_eq_ok, run_pure_eq_ok] at hrun
  obtain ⟨own, st₁, hown, top, st₂, htop, found, _, hfound, rfl, rfl⟩ := hrun
  obtain ⟨hlater₁, js₁, -, hledger₁, hroutines⟩ := Yields.of_ok
    (tracks_routines config p.routines _ 0 (fun r hr => (h.routines r hr).1) _ _ (ledger_initialState p config)) hown
  obtain ⟨hlater₂, js₂, hjs₂, hledger₂, htopMade⟩ := Yields.of_ok (tracks_script _ p.script _ _ hledger₁) htop
  have htyped : ∀ j ∈ st₂.jobs, j.WellTyped p.symbols := by
    obtain ⟨⟨js, hjs⟩, -⟩ := Yields.of_ok (makes_routines hplan config (routine_wellTyped h)) hown
    obtain ⟨⟨ks, hks⟩, -⟩ := Yields.of_ok (makes_script hplan hscript) htop
    intro j hj
    rw [(hjs.trans hks).jobs] at hj
    exact (hjs.trans hks).typed j hj
  obtain ⟨hlater₃, all, hall, hledger, hlength, hfoundValid, hjobs⟩ := tracks_drain (drains_of_run hplan htyped hfound) hledger₂
  have hnext := hledger.next
  rw [hnext] at hcount
  simp only [List.length_append] at hcount
  have hbase := ((hlater₁.trans hlater₂).trans hlater₃).base
  obtain ⟨hownValid, hroutines⟩ := hroutines _ all (hlater₂.trans hlater₃) (hjs₂.trans hall)
  obtain ⟨htopValid, htopMade⟩ := htopMade _ all hlater₃ hall
  refine ⟨all, hledger, fun f hf => ?_, fun hne => ?_, by omega, hbase, fun g hg => ?_, fun k j hj => ?_⟩
  · have hmade := hroutines f hf
    rw [List.append_assoc, List.append_assoc]
    exact hmade.append
  · obtain ⟨before, after, g, rfl, hrun, hafter⟩ := htopMade hne
    exact ⟨before, after, g, by simp, hrun, hafter⟩
  · simp only [List.mem_append] at hg
    rcases hg with ((hg | hg) | hg) | hg
    · exact .inr (hownValid g hg)
    · exact .inl hg
    · exact .inr (htopValid g hg)
    · exact .inr (hfoundValid g hg)
  · have hposition := hjobs k j (by rwa [Nat.zero_add])
    rw [Nat.zero_add] at hposition
    obtain ⟨before, after, f, hf, hrun, hafter⟩ := hposition
    refine ⟨before, after, f, ?_, hrun, hafter⟩
    rw [List.getElem?_append_right (by simp only [List.length_append]; omega), ← hf]
    congr 1
    simp only [List.length_append]
    omega

/-! ## Where expressions are -/

/-- No variable is visible outside of all functions. -/
theorem fresh_outer (t : SymbolTable) (strict : Bool) (n : Nat) : (Check.outer t strict).Fresh n :=
  ⟨nofun, nofun⟩

/-- Every expression of a well-typed program is well typed. -/
theorem allTyped_nodes (h : p.WellTyped) : Judgement.AllTyped p.symbols p.nodes p.nodes := by
  intro x hx
  rcases List.mem_append.1 hx with hx | hx
  · obtain ⟨r, hr, hx⟩ := List.mem_flatMap.1 hx
    obtain ⟨strict, n, n', returns, hparams, -, hbody, -⟩ := (h.routines r hr).1
    have henters := (@Context.enters_bindAll ((Check.outer p.symbols strict).function n r.sig.ret) _ _ hparams).inner
    have htyped := hbody.allTyped (henters.fresh (fresh_outer p.symbols strict n).function)
    refine (henters.symbols ▸ htyped).mono (fun y hy => ?_) x hx
    exact List.mem_append_left _ (List.mem_flatMap.2 ⟨r, hr, hy⟩)
  · obtain ⟨strict, n, n', returns, hbody⟩ := h.script
    exact (hbody.allTyped (fresh_outer p.symbols strict n).function).mono (List.subset_append_right _ _) x hx

/-- A function literal of a well-typed program, with what the rules say about it. -/
theorem exists_literalTyped (h : p.WellTyped) {id : Nat} {ty : Ty} {params captures : List Variable} {body : Typed.Body}
    (hnode : (⟨id, ty, .lambda params captures body⟩ : Typed.Expr) ∈ p.nodes) :
    ∃ Γ n, Γ.Fresh n ∧ Judgement.LiteralTyped Γ n ty params captures body := by
  obtain ⟨Γ, n, n', -, hfresh, hliteral⟩ := allTyped_nodes h _ hnode (Expr.not_negatedIn rfl)
  exact ⟨Γ, n, hfresh, hliteral.literal⟩

/-- A function with the code of an expression, the step that it comes of and the state after that. -/
structure Visit (p : Typed.Program) (config : CompileConfig) (final : State) (all : List Job) (x : Typed.Expr)
    (g : Function) (step : Emit Function) (captures : List Variable) (after : State) : Prop where
  origin : ∃ xs, Origin (Plan.ofProgram p config) config p step captures xs
  run : ∃ before, step.run before = .ok (g, after)
  within : ∃ done, after.Within (Plan.ofProgram p config) (Plan.entries (Plan.placed p))
    (Plan.initialState p config).nextFunction done final all
  single : (after.places.map Prod.snd).Nodup
  locals : g.locals = after.locals
  node : Node (Plan.ofProgram p config) g.ty.params.length captures after x g.body

/-- An expression that has its code in a function. -/
def Visited (p : Typed.Program) (config : CompileConfig) (fns : List Function) (final : State) (all : List Job)
    (x : Typed.Expr) : Prop :=
  ∃ g ∈ fns, ∃ step captures after, Visit p config final all x g step captures after

namespace Unfolded

variable {fns : List Function}

/-- The expressions of a function have their code in it, or in a function to come. -/
theorem visited_of_origin {s : Site} {c : Scope} {step : Emit Function} {start before after : State} {g : Function} {done : Nat}
    (horigin : Origin (Plan.ofProgram p config) config p step s.captures xs)
    (hrun : step.run before = .ok (g, after)) (hg : g ∈ fns) (hxs : xs ⊆ p.nodes)
    (hafter : after.Within (Plan.ofProgram p config) (Plan.entries (Plan.placed p))
      (Plan.initialState p config).nextFunction done final all)
    (made : Made s c xs vs fl start g after) (hs : s.plan = Plan.ofProgram p config) (hk : c.Knows)
    (hlater : ∀ k id ty params captures body, done ≤ k → all[k]? = some (.lambda id ty params captures body) →
      (⟨id, ty, .lambda params captures body⟩ : Typed.Expr) ∈ p.nodes →
        ∀ x ∈ body.nodes, Visited p config fns final all x) : ∀ x ∈ xs, Visited p config fns final all x := by
  intro x hx
  rcases made.nodes hk x hx with hnode | ⟨slot, id, ty, params, vs, body, hliteral, hslot, hx⟩
  · exact ⟨g, hg, step, s.captures, after, ⟨xs, horigin⟩, ⟨before, hrun⟩, ⟨done, hafter⟩, (made.above.inside hk).single,
      made.locals, hs ▸ hnode⟩
  · obtain ⟨k, hk, hjob, -⟩ := hafter.scheduled hslot
    exact hlater k id ty params vs body hk hjob (hxs hliteral) x hx

/-- The expressions in a function literal have their code in its function, or in one to come. -/
theorem visited_literal (h : Unfolded p config fns final all) (hp : p.WellTyped) (k id : Nat) (ty : Ty)
    (params captures : List Variable) (body : Typed.Body) (hjob : all[k]? = some (.lambda id ty params captures body))
    (hnode : (⟨id, ty, .lambda params captures body⟩ : Typed.Expr) ∈ p.nodes) :
    ∀ x ∈ body.nodes, Visited p config fns final all x := by
  have hlt := (List.getElem?_eq_some_iff.1 hjob).1
  obtain ⟨Γ, n, -, hliteral⟩ := exists_literalTyped hp hnode
  obtain ⟨ret, rfl⟩ := hliteral.ty
  obtain ⟨before, after, g, hg, hrun, hafter⟩ := h.jobs k _ hjob
  obtain ⟨-, made⟩ := Yields.of_ok (yields_literalJob _ id ret
    (fun v hv => (hliteral.params.bounds hv).1) hliteral.decls before) hrun
  refine visited_of_origin (.literal hnode) hrun (List.mem_of_getElem? hg) ?_ hafter made rfl (.inr trivial) ?_
  · have hparts := (p.withParts _ hnode).subset
    rw [Expr.nodes, Form.nodes_lambda] at hparts
    exact fun x hx => hparts (List.mem_cons_of_mem _ hx)
  · intro k' id' ty' params' captures' body' hle hjob' hnode'
    exact h.visited_literal hp k' id' ty' params' captures' body' hjob' hnode'
termination_by all.length - k

/-- **Every expression of a program has its code in a function.** -/
theorem visited (h : Unfolded p config fns final all) (hp : p.WellTyped) :
    ∀ x ∈ p.nodes, Visited p config fns final all x := by
  refine List.forall_mem_append.2 ⟨fun x hx => ?_, fun x hx => ?_⟩
  · obtain ⟨r, hr, hx⟩ := List.mem_flatMap.1 hx
    obtain ⟨f, hf, rfl⟩ : ∃ f ∈ Plan.placed p, f.routine = r := Plan.exists_placed hr
    obtain ⟨before, after, out, hrun, hafter, -, hout⟩ := h.routines f hf
    have hxs : stmtNodes f.routine.body ⊆ p.nodes := fun y hy =>
      List.mem_append_left _ (List.mem_flatMap.2 ⟨_, hr, hy⟩)
    have hmem {g : Function} (hg : g ∈ out) : g ∈ fns := (List.drop_suffix _ _).subset (hout.subset hg)
    cases hasync : f.routine.sig.isAsync with
    | false =>
      rw [routine_plain _ config hasync] at hrun
      simp only [run_bind_eq_ok, run_pure_eq_ok] at hrun
      obtain ⟨g, _, hrun, rfl, rfl⟩ := hrun
      have made := Yields.of_ok (yields_plainFunction _ config (params_length (routine_wellTyped hp f hf)) before) hrun
      exact visited_of_origin (.plain hf hasync) hrun (hmem List.mem_cons_self) hxs hafter made rfl (.inr trivial)
        (fun k id ty params captures body _ => h.visited_literal hp k id ty params captures body) x hx
    | true =>
      rw [routine_async _ config hasync] at hrun
      simp only [run_bind_eq_ok, run_pure_eq_ok] at hrun
      obtain ⟨w, _, -, g, _, hrun, rfl, rfl⟩ := hrun
      have made := Yields.of_ok (yields_entryFunction _ f.routine _) hrun
      exact visited_of_origin (.entry hf hasync) hrun (hmem (by simp)) hxs hafter made rfl (.inr trivial)
        (fun k id ty params captures body _ => h.visited_literal hp k id ty params captures body) x hx
  · have hne : p.script ≠ [] := by
      rintro hnil
      rw [hnil, stmtNodes] at hx
      cases hx
    obtain ⟨before, after, g, hg, hrun, hafter⟩ := h.script hne
    have made := Yields.of_ok (yields_scriptFunction _ p.script before) hrun
    exact visited_of_origin .script hrun hg (List.subset_append_right _ _) hafter made rfl (.inr trivial)
      (fun k id ty params captures body _ => h.visited_literal hp k id ty params captures body) x hx

end Unfolded

end Emit

/-! ## Modules -/

/-- A module with all that it comes from. -/
structure Unfolding (p : Typed.Program) (config : CompileConfig) (m : Module) (st : Emit.State) (all : List Job) :
    Prop where
  compiled : Compiled p config m.functions st m
  unfolded : Emit.Unfolded p config m.functions st all
  data : m.data = st.data.segments.map fun s => ⟨s.1.toUInt32, s.2⟩
  pages : m.minPages = (max config.memoryPages.toNat (Typed.Program.pagesFor st.data.stop)).toUInt32
  heapBase : m.heapBase = st.data.stop.toUInt32
  stop : st.data.stop < Layout.addressLimit

theorem unfolding_of_compile {source : String} {config : CompileConfig} {p : Typed.Program} {m : Module}
    (hp : checkSource source config.strictMatch = .ok p) (hm : compile source config = .ok m) :
    ∃ st all, Unfolding p config m st all := by
  obtain ⟨p', fns, st, hp', hc⟩ := compiled_of_compile hm
  obtain rfl : p = p' := Except.ok.inj (hp.symm.trans hp')
  obtain ⟨all, hall⟩ := Emit.unfolded_of_run hc.typed hc.fits hc.run
  obtain rfl := hc.functions
  rw [compile_eq_emit hp] at hm
  cases hemit : p.emit config with
  | error d =>
    rw [hemit] at hm
    cases hm
  | ok m' =>
    rw [hemit] at hm
    cases hm
    simp only [Typed.Program.emit, hc.fits, hc.run, bind, Except.bind, Bool.not_true, Bool.false_eq_true,
      if_false, pure, Except.pure, Bool.and_eq_true, decide_eq_true_eq] at hemit
    split at hemit
    next hsmall =>
      have hdata := congrArg Module.data (Except.ok.inj hemit)
      have hpages := congrArg Module.minPages (Except.ok.inj hemit)
      have hbase := congrArg Module.heapBase (Except.ok.inj hemit)
      exact ⟨st, all, hc, hall, hdata.symm, hpages.symm, hbase.symm, hsmall.1⟩
    · cases hemit

/-- The function in a table slot. -/
def Module.HasInSlot (m : Module) (slot : Nat) (f : Function) : Prop :=
  ∃ i : UInt32, m.table[slot]? = some i ∧ m.imports.length ≤ i.toNat ∧ m.functions[i.toNat - m.imports.length]? = some f

namespace Unfolding

variable {p : Typed.Program} {config : CompileConfig} {m : Module} {st : Emit.State} {all : List Job}

theorem hasInSlot (h : Unfolding p config m st all) {slot i : Nat} {f : Function} (hslot : st.table[slot]? = some i)
    (hi : (Plan.imports p.symbols).length ≤ i)
    (hf : m.functions[i - (Plan.imports p.symbols).length]? = some f) : m.HasInSlot slot f := by
  have himports := h.compiled.imports
  have hlt := (List.getElem?_eq_some_iff.1 hf).1
  have hcount := h.compiled.count_le
  have hnat : i.toUInt32.toNat = i := toNat_toUInt32 (by rw [himports] at hcount; omega)
  refine ⟨i.toUInt32, by rw [h.compiled.table, List.getElem?_map, hslot]; rfl, ?_, ?_⟩
  · rwa [hnat, himports]
  · rwa [hnat, himports]

/-- The function of a job is in the table slot of the job. -/
theorem hasInSlot_job (h : Unfolding p config m st all) {k : Nat} (hj : all[k]? = some j) :
    ∃ before after f, m.HasInSlot ((Plan.entries (Plan.placed p)).length + k) f ∧
      (Emit.job (Plan.ofProgram p config) j).run before = .ok (f, after) ∧ f ∈ m.functions := by
  obtain ⟨before, after, f, hf, hrun, -⟩ := h.unfolded.jobs k j hj
  have hcount := h.unfolded.count
  refine ⟨before, after, f, h.hasInSlot ?_ (Nat.le_trans hcount (Nat.le_add_right _ k)) ?_, hrun,
    List.mem_of_getElem? hf⟩
  · rw [h.unfolded.ledger.table, List.getElem?_append_right (Nat.le_add_right _ _), Nat.add_sub_cancel_left,
      List.getElem?_range' (List.getElem?_eq_some_iff.1 hj).1, Nat.one_mul]
  · rwa [Nat.sub_add_comm hcount]

/-- Every function has locals and positions with numbers of 32 bits. -/
theorem small (h : Unfolding p config m st all) {f : Function} (hf : f ∈ m.functions) :
    f.ty.params.length + f.locals.length ≤ Layout.addressLimit ∧ f.body.length ≤ Layout.addressLimit := by
  have hnumbers := h.compiled.numbers
  simp only [Typed.Program.numbersFit, Bool.and_eq_true, decide_eq_true_eq, List.all_eq_true] at hnumbers
  exact hnumbers.2 f hf

end Unfolding

end StackScript
