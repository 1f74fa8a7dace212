import StackScript.Proofs.Emit.Body
import StackScript.Proofs.Emit.Plan

/-!
# Well-typed programs can be emitted

## Design Notes

Every function literal becomes one job and every named function at most one, so the number of jobs to
come is bounded by the function literals in the jobs so far and the functions without a job.  This
sum falls with every job.
-/

namespace StackScript

open Typed

variable {vs : List Variable} {s : Site}

namespace Emit

/-! ## Steps that make functions -/

variable {plan : Plan} {n n₁ n' : Nat} {es fs : List Typed.Expr} {st st₁ st' : State}

/-- A step from a state makes functions of some expressions, or one of them is an array literal that is
too large.  Its result has the property `V`. -/
def Makes {α : Type} (plan : Plan) (es : List Typed.Expr) (st : State) (x : Emit α) (V : α → Prop) : Prop :=
  Yields x st (fun d => d = .tooLarge ∧ ∃ e ∈ es, ¬e.LiteralFits plan.arrayCapacity)
    fun a st' => (∃ js, Leaves plan es st st' js) ∧ V a

namespace Makes

variable {α β : Type} {x : Emit α} {f : α → Emit β} {V : α → Prop} {W : β → Prop}

theorem bind (hx : Makes plan es st x V) (hf : ∀ a st₁, V a → Makes plan fs st₁ (f a) W) :
    Makes plan (es ++ fs) st (x >>= f) W := by
  refine yields_bind (Yields.mono hx ?_ ?_)
  · rintro d ⟨rfl, e, he, hbig⟩
    exact ⟨rfl, e, List.mem_append_left _ he, hbig⟩
  · rintro a st₁ ⟨⟨js, hjs⟩, hv⟩
    refine Yields.mono (hf a st₁ hv) ?_ ?_
    · rintro d ⟨rfl, e, he, hbig⟩
      exact ⟨rfl, e, List.mem_append_right _ he, hbig⟩
    · rintro b st' ⟨⟨ks, hks⟩, hw⟩
      exact ⟨⟨js ++ ks, hjs.trans hks⟩, hw⟩

theorem pure {a : α} (h : V a) : Makes plan [] st (pure a) V :=
  yields_pure ⟨⟨[], .none nofun (.none rfl rfl rfl) rfl⟩, h⟩

/-- A step that only looks at the result of another one. -/
theorem bindPure {b : α → β} (hx : Makes plan es st x V) (h : ∀ a, V a → W (b a)) :
    Makes plan es st (do return b (← x)) W :=
  List.append_nil es ▸ hx.bind fun a _ hv => pure (h a hv)

end Makes

/-- A state at the start of a function, with the places of parameters. -/
@[reducible] def State.atStart (st : State) (places : List (Nat × Nat)) : State :=
  { st with locals := [], places }

variable {js rest : List Job} {places : List (Nat × Nat)} {strict returns : Bool} {ss : List Typed.Stmt}
  {r : Typed.Routine} {j : Job}

/-- What is left behind does not depend on the locals of a function. -/
theorem Leaves.ofFrame {locals : List ValType}
    (h : Leaves plan es { st with locals, places } st' js) : Leaves plan es st st' js :=
  ⟨⟨h.jobs, h.next, h.table⟩, h.typed, h.nodes, h.fits, h.weight, h.literals, h.thunks, h.fresh⟩

/-- **A function is made of its body**, which starts without locals. -/
theorem makes_function {name : String} {params : List ValType} {ret : Option ValType}
    {exported : Option String} {body x : Emit (List Code)}
    (hstart : body.run (st.atStart []) = x.run (st.atStart places))
    (hx : ∃ n n', Emits plan n n' es (st.atStart places) x) :
    Makes plan es st (function name params ret exported body) fun _ => True := by
  obtain ⟨n, n', hx⟩ := hx
  have hbody : Emits plan n n' es (st.atStart places) x → Yields body (st.atStart [])
      (fun d => d = .tooLarge ∧ ∃ e ∈ es, ¬e.LiteralFits plan.arrayCapacity) fun _ st' =>
        Grows plan n n' es (st.atStart places) st' := by
    unfold Emits Yields
    rw [hstart]
    exact id
  refine yields_bind (yields_modify (yields_bind (Yields.mono (hbody hx) (fun _ => id) fun code st' hg => ?_)))
  obtain ⟨js, hjs⟩ := hg.leaves
  exact yields_bind (yields_get (yields_pure ⟨⟨js, hjs.ofFrame⟩, trivial⟩))

/-! ## Starts of functions -/

/-- The parameters of a function in the locals from a number on, the last one first. -/
def paramPlaces (i : Nat) (vs : List Variable) : List (Nat × Nat) :=
  ((vs.zipIdx i).map fun v => (v.1.id, v.2)).reverse

theorem run_bindParams : ∀ (vs : List Variable) (i : Nat) (st : State),
    (bindParams i vs).run st = .ok ((), { st with places := paramPlaces i vs ++ st.places })
  | [], _, _ => rfl
  | v :: vs, i, st => by
    rw [bindParams, run_bind_of_ok _ (rfl : (bindLocal v i).run st = .ok ((), { st with
      places := (v.id, i) :: st.places })), run_bindParams vs (i + 1)]
    simp [paramPlaces, List.zipIdx_cons]

theorem run_bindParams_bind {α : Type} (i : Nat) (vs : List Variable) (x : Emit α) (st : State) :
    (do
      bindParams i vs
      x).run (st.atStart []) =
      x.run (st.atStart (paramPlaces i vs)) := by
  rw [run_bind_of_ok _ (run_bindParams vs i _), List.append_nil]

theorem bounds_paramPlaces {i : Nat} {place : Nat × Nat} (h : place ∈ paramPlaces i vs) :
    ∃ v ∈ vs, v.id = place.1 ∧ i ≤ place.2 ∧ place.2 < i + vs.length := by
  obtain ⟨⟨v, k⟩, hv, rfl⟩ := List.mem_map.1 (List.mem_reverse.1 h)
  obtain ⟨hle, hlt, -⟩ := List.mem_zipIdx hv
  exact ⟨v, List.fst_mem_of_mem_zipIdx hv, rfl, hle, hlt⟩

/-- Every parameter has a place. -/
theorem exists_paramPlace (i : Nat) {v : Variable} (hv : v ∈ vs) : ∃ j, (paramPlaces i vs).lookup v.id = some j := by
  obtain ⟨k, hk⟩ := List.getElem?_of_mem hv
  refine exists_lookup (a := i + k) ?_
  exact List.mem_reverse.2 (List.mem_map.2 ⟨(v, i + k), List.mk_add_mem_zipIdx_iff_getElem?.2 hk, rfl⟩)

variable {ret : Ty} {Γ : Context}

/-- A function can be emitted when its parameters have places. -/
theorem Ready.start (hplan : s.plan.Complete) (hsymbols : Γ.symbols = s.plan.symbols) (hbelow : Γ.Below n)
    (hnum : Variable.NumberedFrom n vs) (hvs : ∀ v ∈ vs, ∃ j, st.places.lookup v.id = some j) :
    Ready s ((Γ.function n ret).bindAll vs) (n + vs.length) st := by
  have hready : Ready s (Γ.function n ret) (n + vs.length) st := {
    plan := hplan
    symbols := hsymbols
    labels := nofun
    below := fun name v hv => Nat.lt_of_lt_of_le (hbelow name v hv) (Nat.le_add_right _ _)
    own := fun name v hv hown => absurd (hbelow name v hv) (Nat.not_lt_of_le hown) }
  exact hready.bindAll fun v hv => ⟨(hnum.bounds hv).2, hvs v hv⟩

/-- A body reads its own variables and those that are visible around the function. -/
theorem covers_of_visible {Γ' : Context} {reads : List Variable}
    (hnum : Variable.NumberedFrom n vs) (hfirst : Γ'.first = n) (hfind : ∀ name v, Γ'.scopes.find? name = some v →
      ((Γ.function n ret).bindAll vs).scopes.find? name = some v) (hsees : Γ'.Sees (n + vs.length) reads)
    (hcaptures : ∀ v ∈ reads, v.id < n → (∃ name, Γ.scopes.find? name = some v) →
      ∃ w ∈ s.captures, w.id = v.id) : Covers s Γ' reads := by
  intro v hv hlt
  rw [hfirst] at hlt
  obtain ⟨name, hname⟩ := hsees v hv (Nat.lt_of_lt_of_le hlt (Nat.le_add_right _ _))
  rcases Context.find?_bindAll (hfind name v hname) with hmem | hname
  · exact absurd (hnum.bounds hmem).1 (Nat.not_le_of_lt hlt)
  · exact hcaptures v hv hlt ⟨name, hname⟩

/-! ## Functions of the program -/

theorem emits_starter (f : Plan.Placed) (slots : List ValType) : Emits plan n n [] st (starter plan f slots) := by
  simp only [starter, pure_bind]
  split
  · exact .pure
  · exact (emits_alloc _ _).leafBind fun _ _ _ => .pure

/-- Parameters of a task are declared in order. -/
theorem emits_unpackParams : ∀ (slot : Nat) {n : Nat} {vs : List Variable} {slots : List ValType} {st : State},
    Variable.NumberedFrom n vs → vs.length = slots.length →
      Emits plan n (n + vs.length) [] st (unpackParams s slot (vs.zip slots))
  | _, _, [], [], _, _, _ => by
    rw [List.zip_nil_left, unpackParams]
    exact .pure
  | slot, _, _ :: vs, ty :: slots, _, hnum, hlen => by
    obtain ⟨hv, hvs⟩ := hnum.cons
    have hlen' : vs.length = slots.length := Nat.succ.inj hlen
    rw [List.zip_cons_cons, unpackParams, List.length_cons, ← Nat.add_assoc, Nat.add_right_comm]
    refine emits_declareLocal s ty hv fun i st₁ _ _ => ?_
    exact (emits_unpackParams (slot + 1) hvs hlen').bindLeaf fun _ _ _ => .pure

/-- The parameters of a task have places. -/
theorem place_of_unpackParams : ∀ {slot : Nat} {vs : List Variable} {slots : List ValType}
    {st st' : State} {ops : List Op}, vs.length = slots.length →
      (unpackParams s slot (vs.zip slots)).run st = .ok (ops, st') → (∀ v ∈ vs, ∃ j, st'.places.lookup v.id = some j) ∧
          ∀ id, st.places.lookup id ≠ none → st'.places.lookup id ≠ none
  | _, [], [], _, _, _, _, h => by
    simp only [List.zip_nil_left, unpackParams, run_pure_eq_ok] at h
    obtain ⟨-, rfl⟩ := h
    exact ⟨List.forall_mem_nil _, fun _ h => h⟩
  | _, _ :: _, _ :: _, _, _, _, hlen, h => by
    rw [List.zip_cons_cons, unpackParams, run_declareLocal] at h
    simp only [run_bind_eq_ok, run_pure_eq_ok] at h
    obtain ⟨rest, st₂, hrest, -, rfl⟩ := h
    obtain ⟨hvs, hkeep⟩ := place_of_unpackParams (Nat.succ.inj hlen) hrest
    refine ⟨fun w hw => ?_, fun id hid => hkeep id ?_⟩
    · rcases List.mem_cons.mp hw with rfl | hw
      · exact Option.ne_none_iff_exists'.mp (hkeep w.id (by simp [State.declare]))
      · exact hvs w hw
    · simp only [State.declare, List.lookup_cons]
      split
      · exact Option.some_ne_none _
      · exact hid

/-- The statements of a function, in a site at its start. -/
theorem emits_routineBody {t : SymbolTable} (hplan : s.plan.Complete)
    (hsymbols : t = s.plan.symbols) (hnum : Variable.NumberedFrom n vs)
    (hbody : (Judgement.stmts (((Check.outer t strict).function n ret).bindAll vs).inner
      (n + vs.length) ss returns n').Derivable) (hvs : ∀ v ∈ vs, ∃ j, st.places.lookup v.id = some j) :
    Emits s.plan (n + vs.length) n' (stmtNodes ss) st (stmts s ss) := by
  have hbelow : (Check.outer t strict).Below n := fun name v hv => by cases hv
  have hready : Ready s (((Check.outer t strict).function n ret).bindAll vs) (n + vs.length) st :=
    .start hplan hsymbols hbelow hnum hvs
  refine emittable_of_derivable hbody s st hready.inner ?_
  refine covers_of_visible hnum (Context.bindAll_first ..) (fun _ _ h => h) hbody.visible ?_
  rintro v - - ⟨name, hname⟩
  cases hname

theorem emits_entry (hplan : plan.Complete) (hr : r.WellTyped plan.symbols) :
    ∃ n n', Emits plan n n' (stmtNodes r.body) (st.atStart []) (entry plan r (r.sig.params.map Ty.slotType)) := by
  obtain ⟨strict, n, n', returns, hnum, htys, hbody, -⟩ := hr
  have hlen : r.params.length = (r.sig.params.map Ty.slotType).length := by simp [← htys]
  refine ⟨n, n', (emits_unpackParams 0 hnum hlen).bindRun fun unpacking st₁ hrun hg₁ => ?_⟩
  refine (emits_routineBody (s := site plan 2 [] (.resolve r.sig.ret.valType?)) hplan rfl hnum hbody
    (place_of_unpackParams hlen hrun).1).bindLeaf fun body st₂ _ => ?_
  split
  · exact .pure
  · exact (emits_returnOps _).leafBind fun _ _ _ => .pure

/-- The function of a function or method that is not async. -/
theorem makes_plainRoutine (hplan : plan.Complete)
    (hr : r.WellTyped plan.symbols) (name : String) (ret : Option ValType) (exported : Option String) :
    Makes plan (stmtNodes r.body) st (function name (r.sig.params.map Ty.slotType) ret exported (do
        bindParams 0 r.params
        return (← stmts (site plan (r.sig.params.map Ty.slotType).length [] .direct) r.body)
          ++ guardEnd ret)) fun _ => True := by
  obtain ⟨strict, n, n', returns, hnum, htys, hbody, -⟩ := hr
  refine makes_function (run_bindParams_bind ..) ⟨n + r.params.length, n', ?_⟩
  exact (emits_routineBody (s := site plan (r.sig.params.map Ty.slotType).length [] .direct) hplan rfl
    hnum hbody fun _ => exists_paramPlace 0).bindLeaf fun _ _ _ => .pure

/-- **The functions of a well-typed function or method are made.** -/
theorem makes_routine (hplan : plan.Complete) (config : CompileConfig) (f : Plan.Placed)
    (hr : f.routine.WellTyped plan.symbols) :
    Makes plan (stmtNodes f.routine.body) st (routine plan config f) fun fns =>
      fns.length = if f.routine.sig.isAsync then 2 else 1 := by
  cases hasync : f.routine.sig.isAsync with
  | true =>
    simp only [routine, hasync, if_true]
    refine Makes.bind (makes_function rfl ⟨0, 0, emits_starter f _⟩) fun first st₁ _ => ?_
    exact (makes_function rfl (emits_entry hplan hr)).bindPure fun _ _ => rfl
  | false =>
    simp only [routine, hasync, Bool.false_eq_true, if_false]
    exact (makes_plainRoutine hplan hr _ _ _).bindPure fun _ _ => rfl

/-- The functions of numbered functions and methods are made. -/
theorem makes_routines (hplan : plan.Complete) (config : CompileConfig) :
    ∀ {fs : List Plan.Placed} {st : State}, (∀ f ∈ fs, f.routine.WellTyped plan.symbols) →
      Makes plan (fs.flatMap fun f => stmtNodes f.routine.body) st (routines plan config fs)
        fun fns => fns.length = fs.length + (Plan.entries fs).length
  | [], _, _ => .pure rfl
  | f :: fs, _, h => by
    rw [List.flatMap_cons, routines]
    refine (makes_routine hplan config f (h f (List.mem_cons_self ..))).bind fun first st₁ hfirst => ?_
    refine (makes_routines hplan config fun g hg => h g (List.mem_cons_of_mem _ hg)).bindPure fun rest hrest => ?_
    rw [List.length_append, hfirst, hrest]
    simp only [Plan.entries, List.filter_cons, List.length_cons]
    split <;> simp <;> omega

/-- The function of the top-level statements is made. -/
theorem makes_script (hplan : plan.Complete)
    (h : (Judgement.stmts ((Check.outer plan.symbols strict).function n .void) n ss returns n').Derivable) :
    Makes plan (stmtNodes ss) st (script plan ss) fun fns => fns.length = if ss.isEmpty then 0 else 1 := by
  unfold script
  cases ss with
  | nil =>
    rw [stmtNodes]
    exact .pure rfl
  | cons t ts =>
    refine Makes.bindPure (V := fun _ => True) (makes_function rfl ⟨n, n', ?_⟩) fun _ _ => rfl
    have hready : Ready (site plan 0 [] .direct)
        (((Check.outer plan.symbols strict).function n .void).bindAll []) (n + 0) (st.atStart []) :=
      .start hplan rfl (fun _ _ hv => by cases hv) rfl (List.forall_mem_nil _)
    refine emittable_of_derivable h _ _ hready fun v hv hlt => ?_
    obtain ⟨name, hname⟩ := h.visible v hv hlt
    cases hname

/-! ## Functions found on the way -/

/-- The body of a function literal is emitted with its captures. -/
theorem emits_literalBody {id : Nat} {ty : Ty} {ret : Option ValType}
    {params captures : List Variable} {body : Typed.Body} (hplan : s.plan.Complete)
    (hsymbols : Γ.symbols = s.plan.symbols) (hbelow : Γ.Below n)
    (h : (Judgement.expr Γ n ⟨id, ty, .lambda params captures body⟩ n').Derivable) (hcaptures : s.captures = captures)
    (hvs : ∀ v ∈ params, ∃ j, st.places.lookup v.id = some j) :
    Emits s.plan (n + params.length) n' body.nodes st (literalBody s ret body) := by
  cases h with
  | @lambdaExpr _ _ _ known _ _ e _ hnum hbody _ =>
    have hready : Ready s ((Γ.function n known).bindAll params) (n + params.length) st :=
      .start hplan hsymbols hbelow hnum hvs
    have hcovers : Covers s ((Γ.function n known).bindAll params) e.reads :=
      covers_of_visible hnum (Context.bindAll_first ..) (fun _ _ h => h) hbody.visible
        fun v hv hlt _ => hcaptures ▸ Typed.Body.exists_capture hv hlt
    rw [literalBody, Typed.Body.nodes]
    refine ((emittable_of_derivable hbody).1 s st hready hcovers).bindLeaf fun code _ _ => ?_
    split
    · exact .pure
    · split <;> exact .pure
  | @lambdaBlock _ _ _ ret' _ ss _ _ hnum hbody _ =>
    have hready : Ready s ((Γ.function n ret').bindAll params) (n + params.length) st :=
      .start hplan hsymbols hbelow hnum hvs
    have hcovers : Covers s ((Γ.function n ret').bindAll params).inner (stmtReads ss) :=
      covers_of_visible hnum (Context.bindAll_first ..) (fun _ _ h => h) hbody.visible
        fun v hv hlt _ => hcaptures ▸ Typed.Body.exists_capture hv hlt
    rw [literalBody, Typed.Body.nodes]
    exact (emittable_of_derivable hbody s st hready.inner hcovers).bindLeaf fun _ _ _ => .pure

/-- **The function of a job is made.** -/
theorem makes_job (hplan : plan.Complete) (hj : j.WellTyped plan.symbols) :
    Makes plan j.nodes st (job plan j) fun _ => True := by
  cases hj with
  | @lambda Γ n id ty params captures body n' hsymbols hbelow hliteral =>
    obtain ⟨ret, rfl⟩ := hliteral.literal.ty
    refine makes_function (run_bindParams_bind ..) ⟨n + params.length, n', ?_⟩
    exact emits_literalBody (s := site plan _ captures .direct) hplan hsymbols hbelow hliteral rfl
      fun _ => exists_paramPlace 1
  | @thunk sig hsig hkind =>
    simp only [job]
    obtain ⟨target, htarget⟩ : ∃ i, (if sig.kind = .external then plan.externals
        else plan.direct).lookup sig.name = some i := by
      cases hk : sig.kind with
      | user => simpa using hplan.user sig hsig hk
      | external => simpa using hplan.external sig hsig hk
      | builtin b => exact absurd hk (hkind b)
    exact makes_function rfl ⟨0, 0, (Emits.orDefect htarget).leafBind fun _ _ _ => .pure⟩

/-- The functions of all jobs of a state, with the state after them. -/
structure Drained (plan : Plan) (st : State) (fns : List Function) (st' : State) : Prop where
  fits : ∀ j ∈ st.jobs, ∀ e ∈ j.nodes, e.LiteralFits plan.arrayCapacity
  /-- Every further function has the next number and a slot in the table. -/
  found : ∃ k, fns.length = st.jobs.length + k ∧ st'.nextFunction = st.nextFunction + k ∧
    st'.table = st.table ++ List.range' st.nextFunction k

/-- The most functions that come of the jobs of a state. -/
def State.remaining (t : SymbolTable) (st : State) : Nat :=
  Job.weights st.jobs + st.unnamed t

/-- One job is done, and others may be left. -/
theorem Drained.cons {f : Function} {fns : List Function}
    (hjobs : st.jobs = j :: rest) (hleaves : Leaves plan j.nodes { st with jobs := rest } st₁ js)
    (h : Drained plan st₁ fns st') : Drained plan st (f :: fns) st' := by
  have hnew : st₁.jobs = rest ++ js := hleaves.jobs
  refine ⟨?_, ?_⟩
  · intro k hk e he
    rw [hjobs] at hk
    rcases List.mem_cons.mp hk with rfl | hk
    · rcases hleaves.fits e he with hfits | ⟨k', hk', he'⟩
      · exact hfits
      · exact h.fits k' (hnew ▸ List.mem_append_right _ hk') e he'
    · exact h.fits k (hnew ▸ List.mem_append_left _ hk) e he
  · obtain ⟨k, hlen, hnext, htable⟩ := h.found
    have hnext₁ : st₁.nextFunction = st.nextFunction + js.length := hleaves.next
    have htable₁ : st₁.table = st.table ++ List.range' st.nextFunction js.length := hleaves.table
    refine ⟨js.length + k, ?_, ?_, ?_⟩
    · rw [List.length_cons, hlen, hnew, hjobs, List.length_append, List.length_cons]
      omega
    · rw [hnext, hnext₁, Nat.add_assoc]
    · rw [htable, htable₁, hnext₁, List.append_assoc, List.range'_append_1]

theorem Leaves.typed_after (h : Leaves plan es { st with jobs := rest } st₁ js)
    (hcons : st.jobs = j :: rest) (hjobs : ∀ k ∈ st.jobs, k.WellTyped plan.symbols) :
    ∀ k ∈ st₁.jobs, k.WellTyped plan.symbols := by
  intro k hk
  rcases List.mem_append.1 (h.jobs ▸ hk) with hk | hk
  · exact hjobs k (hcons ▸ List.mem_cons_of_mem _ hk)
  · exact h.typed k hk

/-- **All functions found on the way are made**, before the bound is reached. -/
theorem drain_spec (hplan : plan.Complete) : ∀ {fuel : Nat} {st : State},
    (∀ j ∈ st.jobs, j.WellTyped plan.symbols) → st.remaining plan.symbols < fuel → Yields (drain plan fuel) st
        (fun d => d = .tooLarge ∧ ∃ j ∈ st.jobs, ∃ e ∈ j.nodes, ¬e.LiteralFits plan.arrayCapacity)
        fun fns st' => Drained plan st fns st'
  | fuel + 1, st, hjobs, hfuel => by
    unfold drain
    refine yields_bind (yields_get ?_)
    split
    · next hnone =>
      refine yields_pure ⟨fun j hj => ?_, 0, ?_, rfl, ?_⟩
      · rw [hnone] at hj
        cases hj
      · rw [hnone]
        rfl
      · simp
    · next j rest hcons =>
      have hmem {k : Job} (hk : k ∈ rest) : k ∈ st.jobs := hcons ▸ List.mem_cons_of_mem _ hk
      have hj : j ∈ st.jobs := hcons ▸ List.mem_cons_self ..
      refine yields_bind (yields_set (yields_bind ?_))
      refine Yields.mono (makes_job hplan (hjobs j hj)) ?_ ?_
      · rintro d ⟨rfl, e, he, hbig⟩
        exact ⟨rfl, j, hj, e, he, hbig⟩
      · rintro f st₁ ⟨⟨js, hleaves⟩, -⟩
        have hnew : st₁.jobs = rest ++ js := hleaves.jobs
        have hfuel₁ : st₁.remaining plan.symbols < fuel := by
          have hweight : Job.weights js + st₁.unnamed plan.symbols ≤
              st.unnamed plan.symbols + lambdaCount j.nodes := hleaves.weight
          simp only [State.remaining, hcons, hnew, Job.weights, Job.weights_append, Job.weight] at hfuel hweight ⊢
          omega
        refine yields_bind (Yields.mono (drain_spec hplan (hleaves.typed_after hcons hjobs) hfuel₁) ?_ ?_)
        · rintro d ⟨rfl, k, hk, e, he, hbig⟩
          refine ⟨rfl, ?_⟩
          rcases List.mem_append.mp (hnew ▸ hk) with hk | hk
          · exact ⟨k, hmem hk, e, he, hbig⟩
          · exact ⟨j, hj, e, hleaves.nodes k hk e he, hbig⟩
        · intro fns st' hdrained
          exact yields_pure (hdrained.cons hcons hleaves)

/-- Jobs done one after the other, each with its function and the jobs that it leaves. -/
inductive Drains (plan : Plan) : State → List Function → State → Prop
  | done {st : State} (none : st.jobs = []) : Drains plan st [] st
  | step {st st₁ st' : State} {j : Job} {rest js : List Job} {f : Function} {fns : List Function}
      (next : st.jobs = j :: rest) (typed : j.WellTyped plan.symbols)
      (run : (job plan j).run { st with jobs := rest } = .ok (f, st₁))
      (leaves : Leaves plan j.nodes { st with jobs := rest } st₁ js) (others : Drains plan st₁ fns st') :
      Drains plan st (f :: fns) st'

theorem drains_of_run (hplan : plan.Complete) : ∀ {fuel : Nat} {st st' : State} {fns : List Function},
    (∀ j ∈ st.jobs, j.WellTyped plan.symbols) → (drain plan fuel).run st = .ok (fns, st') → Drains plan st fns st'
  | 0, _, _, _, _, hrun => nomatch hrun
  | _ + 1, _, _, fns, hjobs, hrun => by
    unfold drain at hrun
    simp only [run_bind_eq_ok, run_get_eq_ok] at hrun
    obtain ⟨_, _, ⟨rfl, rfl⟩, hrun⟩ := hrun
    split at hrun
    next hnone =>
      cases hrun
      exact .done hnone
    next j rest hcons =>
      simp only [run_bind_eq_ok, run_pure_eq_ok] at hrun
      obtain ⟨_, _, ⟨⟩, f, st₁, hf, fns, _, hfns, rfl, rfl⟩ := hrun
      have hj := hjobs j (hcons ▸ List.mem_cons_self)
      obtain ⟨⟨js, hleaves⟩, -⟩ := Yields.of_ok (makes_job hplan hj) hf
      exact .step hcons hj hf hleaves (drains_of_run hplan (hleaves.typed_after hcons hjobs) hfns)

/-! ## All functions -/

/-- All functions of a program, with the state after them. -/
structure Emitted (p : Typed.Program) (config : CompileConfig) (fns : List Function) (st : State) : Prop where
  fits : ∀ e ∈ p.nodes, e.LiteralFits config.arrayCapacity.toNat
  count : (Plan.imports p.symbols).length + fns.length = st.nextFunction
  /-- The table holds tasks, and functions behind those that are known in advance. -/
  table : ∃ k, st.nextFunction = (Plan.initialState p config).nextFunction + k ∧
    st.table = Plan.entries (Plan.placed p) ++
      List.range' (Plan.initialState p config).nextFunction k

variable {p : Typed.Program}

theorem routine_wellTyped (h : p.WellTyped) : ∀ f ∈ Plan.placed p, f.routine.WellTyped p.symbols :=
  fun f hf => (h.routines f.routine (by
    rw [← Plan.map_routine_number p.routines (Plan.imports p.symbols).length 0]
    exact List.mem_map_of_mem hf)).1

theorem flatMap_placed {β : Type} (g : Typed.Routine → List β) :
    (Plan.placed p).flatMap (fun f => g f.routine) = p.routines.flatMap g := by
  conv_rhs => rw [← Plan.map_routine_number p.routines (Plan.imports p.symbols).length 0, List.flatMap_map]
  rfl

/-- **All functions of a well-typed program are made**, unless an array literal is too large. -/
theorem functions_spec (h : p.WellTyped) (hfits : Plan.fits p = true) (config : CompileConfig) :
    Yields (Emit.functions (Plan.ofProgram p config) config p) (Plan.initialState p config)
      (fun d => d = .tooLarge ∧ ∃ e ∈ p.nodes, ¬e.LiteralFits config.arrayCapacity.toNat)
      fun fns st => Emitted p config fns st := by
  have hplan := Plan.complete_ofProgram h hfits config
  have hnodes := flatMap_placed (p := p) (stmtNodes ·.body)
  obtain ⟨strict, n, n', returns, hscript⟩ := h.script
  unfold Emit.functions
  refine yields_bind (Yields.mono (makes_routines hplan config (routine_wellTyped h)) ?_ ?_)
  · rintro d ⟨rfl, e, he, hbig⟩
    exact ⟨rfl, e, List.mem_append_left _ (hnodes ▸ he), hbig⟩
  rintro own st₁ ⟨⟨js, hjs⟩, hlen₁⟩
  refine yields_bind (Yields.mono (makes_script hplan hscript) ?_ ?_)
  · rintro d ⟨rfl, e, he, hbig⟩
    exact ⟨rfl, e, List.mem_append_right _ he, hbig⟩
  rintro top st₂ ⟨⟨ks, hks⟩, hlen₂⟩
  have hleaves : Leaves (Plan.ofProgram p config) p.nodes (Plan.initialState p config) st₂ (js ++ ks) := by
    have htrans := hjs.trans hks
    rwa [hnodes] at htrans
  have hjobs : st₂.jobs = js ++ ks := hleaves.jobs
  have hfuel : st₂.remaining p.symbols < p.facts.length + p.symbols.functions.length + 1 := by
    have hweight : Job.weights (js ++ ks) + st₂.unnamed p.symbols ≤
        (Plan.initialState p config).unnamed p.symbols + lambdaCount p.nodes := hleaves.weight
    have hunnamed : (Plan.initialState p config).unnamed p.symbols ≤ p.symbols.functions.length :=
      List.countP_le_length
    have hcount := p.lambdaCount_le
    rw [State.remaining, hjobs]
    omega
  refine yields_bind (Yields.mono (drain_spec hplan (hjobs ▸ hleaves.typed) hfuel) ?_ ?_)
  · rintro d ⟨rfl, j, hj, e, he, hbig⟩
    exact ⟨rfl, e, hleaves.nodes j (hjobs ▸ hj) e he, hbig⟩
  intro found st' hdrained
  obtain ⟨k, hlen, hnext, htable⟩ := hdrained.found
  have hnext₂ := hleaves.next
  refine yields_pure ⟨fun e he => ?_, ?_, (js ++ ks).length + k, ?_, ?_⟩
  · rcases hleaves.fits e he with hfits | ⟨j, hj, he'⟩
    · exact hfits
    · exact hdrained.fits j (hjobs ▸ hj) e he'
  · rw [hnext, hnext₂]
    simp only [List.length_append, hlen, hlen₁, hlen₂, hjobs, Plan.initialState, Plan.afterRoutines]
    omega
  · rw [hnext, hnext₂, Nat.add_assoc]
  · rw [htable, hleaves.table, hnext₂, List.append_assoc, List.range'_append_1]
    rfl

end Emit

end StackScript
