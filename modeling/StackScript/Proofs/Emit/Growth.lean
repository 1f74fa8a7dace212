import StackScript.Proofs.Emit.Paths
import StackScript.Proofs.Typing.Subtrees

/-!
# What emission adds

Emission never takes anything back.  This module says which places of variables and which jobs the emission of
a well-typed tree adds, and how the parts of a tree combine.

## Design Notes

`Grows` carries the numbers of the variables that are declared on the way, and the expressions that are
emitted.  The expressions of a function literal are not emitted with the literal but with the job that
it leaves, so they are found among the expressions of the jobs.
-/

namespace StackScript

open Typed

/-! ## Jobs -/

/-- The expressions that a job emits. -/
def Job.nodes : Job → List Typed.Expr
  | .lambda _ _ _ _ body => body.nodes
  | .thunk _ => []

/-- The most jobs that come of a job, itself included. -/
def Job.weight (j : Job) : Nat :=
  lambdaCount j.nodes + 1

/-- The most jobs that come of jobs, themselves included. -/
@[simp] def Job.weights : List Job → Nat
  | [] => 0
  | j :: js => j.weight + weights js

@[simp] theorem Job.weights_append (js ks : List Job) : weights (js ++ ks) = weights js + weights ks := by
  induction js with
  | nil => simp
  | cons j js ih => simp [ih, Nat.add_assoc]

/-- The numbers of the function literals that a job emits, its own first. -/
def Job.literals : Job → List Nat
  | .lambda id _ _ _ body => id :: literalIds body.nodes
  | .thunk _ => []

/-- The named function that a job wraps. -/
def Job.named? : Job → Option String
  | .lambda _ _ _ _ _ => none
  | .thunk sig => some sig.name

/-- Every visible variable has a number below `n`. -/
def Context.Below (Γ : Context) (n : Nat) : Prop :=
  ∀ name v, Γ.scopes.find? name = some v → v.id < n

/-- Jobs that the emission of a well-typed program leaves. -/
inductive Job.WellTyped (t : SymbolTable) : Job → Prop
  | lambda {Γ n id ty params captures body n'} (symbols : Γ.symbols = t) (below : Γ.Below n)
      (literal : (Judgement.expr Γ n ⟨id, ty, .lambda params captures body⟩ n').Derivable) :
      WellTyped t (.lambda id ty params captures body)
  | thunk {sig} (found : t.function? sig.name = some sig) (kind : ∀ b, sig.kind ≠ .builtin b) :
      WellTyped t (.thunk sig)

namespace Emit

/-- The number of functions that are not used as a value so far. -/
def State.unnamed (t : SymbolTable) (st : State) : Nat :=
  t.functions.countP fun f => (st.thunks.lookup f.name).isNone

/-- The jobs that the emission of some expressions leaves. -/
structure Leaves (plan : Plan) (es : List Typed.Expr) (st st' : State) (js : List Job) : Prop
    extends st.Leaves st' js where
  typed : ∀ j ∈ js, j.WellTyped plan.symbols
  nodes : ∀ j ∈ js, ∀ e ∈ j.nodes, e ∈ es
  fits : ∀ e ∈ es, e.LiteralFits plan.arrayCapacity ∨ ∃ j ∈ js, e ∈ j.nodes
  weight : Job.weights js + st'.unnamed plan.symbols
    ≤ st.unnamed plan.symbols + lambdaCount es
  /-- There is one job for each function literal. -/
  literals : js.flatMap Job.literals = literalIds es
  /-- There is one job for each named function that becomes a value. -/
  thunks : st'.thunks.map Prod.fst = (js.filterMap Job.named?).reverse ++ st.thunks.map Prod.fst
  fresh : (st.thunks.map Prod.fst).Nodup → (st'.thunks.map Prod.fst).Nodup

/-- What the emission of expressions adds to a state; the variables that they declare have numbers from `n`
up to `n'`. -/
structure Grows (plan : Plan) (n n' : Nat) (es : List Typed.Expr) (st st' : State) : Prop where
  le : n ≤ n'
  places : ∀ id < n, st'.places.lookup id = st.places.lookup id
  leaves : ∃ js, Leaves plan es st st' js

variable {plan : Plan} {n n₁ n' : Nat} {es fs : List Typed.Expr} {st st₁ st' : State}

theorem Leaves.trans {js ks : List Job} (h : Leaves plan es st st₁ js)
    (h' : Leaves plan fs st₁ st' ks) : Leaves plan (es ++ fs) st st' (js ++ ks) where
  toLeaves := h.toLeaves.trans h'.toLeaves
  typed := fun j hj => (List.mem_append.mp hj).elim (h.typed j) (h'.typed j)
  nodes := fun j hj e he => by
    rcases List.mem_append.mp hj with hj | hj
    · exact List.mem_append_left _ (h.nodes j hj e he)
    · exact List.mem_append_right _ (h'.nodes j hj e he)
  fits := fun e he => by
    rcases List.mem_append.mp he with he | he
    · exact (h.fits e he).imp_right fun ⟨j, hj, hm⟩ => ⟨j, List.mem_append_left _ hj, hm⟩
    · exact (h'.fits e he).imp_right fun ⟨j, hj, hm⟩ => ⟨j, List.mem_append_right _ hj, hm⟩
  weight := by
    have hw := h.weight
    have hw' := h'.weight
    rw [Job.weights_append, lambdaCount_append]
    omega
  literals := by rw [List.flatMap_append, h.literals, h'.literals, literalIds_append]
  thunks := by
    rw [h'.thunks, h.thunks, List.filterMap_append, List.reverse_append, List.append_assoc]
  fresh := fun hnodup => h'.fresh (h.fresh hnodup)

/-- Plain expressions leave no job. -/
theorem Leaves.none (hplain : ∀ e ∈ es, e.Plain plan.arrayCapacity) (same : st.Leaves st' [])
    (thunks : st'.thunks = st.thunks) : Leaves plan es st st' [] where
  toLeaves := same
  typed := nofun
  nodes := nofun
  fits := fun e he => .inl (hplain e he).fits
  weight := by simp [lambdaCount_eq_zero hplain, State.unnamed, thunks]
  literals := by simp [literalIds_eq_nil hplain]
  thunks := by simp [thunks]
  fresh := by simp [thunks]

namespace Grows

/-- **Growth adds up.** -/
theorem trans (h : Grows plan n n₁ es st st₁) (h' : Grows plan n₁ n' fs st₁ st') :
    Grows plan n n' (es ++ fs) st st' where
  le := Nat.le_trans h.le h'.le
  places := fun id hid => (h'.places id (Nat.lt_of_lt_of_le hid h.le)).trans (h.places id hid)
  leaves := by
    obtain ⟨js, hjs⟩ := h.leaves
    obtain ⟨ks, hks⟩ := h'.leaves
    exact ⟨js ++ ks, hjs.trans hks⟩

/-- A change of what growth does not speak about, on the way over plain expressions. -/
theorem ofSame (hplain : ∀ e ∈ es, e.Plain plan.arrayCapacity) (places : st'.places = st.places)
    (same : st.Leaves st' []) (thunks : st'.thunks = st.thunks) : Grows plan n n es st st' where
  le := Nat.le_refl n
  places := fun id _ => by rw [places]
  leaves := ⟨[], .none hplain same thunks⟩

theorem refl (st : State) : Grows plan n n [] st st :=
  ofSame nofun rfl (.none rfl rfl rfl) rfl

/-- Numbers of variables may be left out. -/
theorem upTo (h : Grows plan n n₁ es st st') (hle : n₁ ≤ n') : Grows plan n n' es st st' :=
  ⟨Nat.le_trans h.le hle, h.places, h.leaves⟩

/-- The same growth for one more plain expression. -/
theorem cons (h : Grows plan n n' es st st') {e : Typed.Expr} (he : e.Plain plan.arrayCapacity) :
    Grows plan n n' (e :: es) st st' := by
  have hself : Grows plan n n [e] st st := ofSame (by simpa using he) rfl (.none rfl rfl rfl) rfl
  exact hself.trans h

end Grows

/-! ## Steps -/

/-- From a state, a step emits some expressions, or one of them is an array literal that is too large. -/
def Emits {α : Type} (plan : Plan) (n n' : Nat) (es : List Typed.Expr) (st : State) (x : Emit α) : Prop :=
  Yields x st (fun d => d = .tooLarge ∧ ∃ e ∈ es, ¬e.LiteralFits plan.arrayCapacity) fun _ st' =>
    Grows plan n n' es st st'

namespace Emits

variable {α β : Type} {x : Emit α} {f : α → Emit β}

/-- **Steps in order emit the expressions of both.** -/
theorem bindRun (hx : Emits plan n n₁ es st x)
    (hf : ∀ a st₁, x.run st = .ok (a, st₁) → Grows plan n n₁ es st st₁ → Emits plan n₁ n' fs st₁ (f a)) :
    Emits plan n n' (es ++ fs) st (x >>= f) := by
  refine yields_bind (Yields.mono (Yields.withRun hx) ?_ ?_)
  · rintro d ⟨rfl, e, he, hbig⟩
    exact ⟨rfl, e, List.mem_append_left _ he, hbig⟩
  · rintro a st₁ ⟨hg, hrun⟩
    refine Yields.mono (hf a st₁ hrun hg) ?_ fun b st' hg' => hg.trans hg'
    rintro d ⟨rfl, e, he, hbig⟩
    exact ⟨rfl, e, List.mem_append_right _ he, hbig⟩

theorem bind (hx : Emits plan n n₁ es st x) (hf : ∀ a st₁, Grows plan n n₁ es st st₁ → Emits plan n₁ n' fs st₁ (f a)) :
    Emits plan n n' (es ++ fs) st (x >>= f) :=
  hx.bindRun fun a st₁ _ => hf a st₁

/-- A second step that emits no expression. -/
theorem bindLeaf (hx : Emits plan n n₁ es st x)
    (hf : ∀ a st₁, Grows plan n n₁ es st st₁ → Emits plan n₁ n' [] st₁ (f a)) : Emits plan n n' es st (x >>= f) :=
  List.append_nil es ▸ hx.bind hf

/-- A first step that emits no expression. -/
theorem leafBind (hx : Emits plan n n₁ [] st x)
    (hf : ∀ a st₁, Grows plan n n₁ [] st st₁ → Emits plan n₁ n' es st₁ (f a)) : Emits plan n n' es st (x >>= f) :=
  hx.bind hf

theorem pure {a : α} : Emits plan n n [] st (pure a) :=
  yields_pure (.refl st)

theorem map {g : α → β} (h : Emits plan n n' es st x) : Emits plan n n' es st (g <$> x) :=
  h.bindLeaf fun _ _ _ => .pure

theorem upTo (h : Emits plan n n₁ es st x) (hle : n₁ ≤ n') : Emits plan n n' es st x :=
  Yields.mono h (fun _ => id) fun _ _ hg => hg.upTo hle

/-- The same step for one more plain expression. -/
theorem cons (h : Emits plan n n' es st x) {e : Typed.Expr} (he : e.Plain plan.arrayCapacity) :
    Emits plan n n' (e :: es) st x := by
  refine Yields.mono h ?_ fun _ _ hg => hg.cons he
  rintro d ⟨rfl, x, hx, hbig⟩
  exact ⟨rfl, x, List.mem_cons_of_mem _ hx, hbig⟩

/-- The same step for more plain expressions. -/
theorem ofPlain (h : Emits plan n n' [] st x) :
    ∀ {es : List Typed.Expr}, (∀ e ∈ es, e.Plain plan.arrayCapacity) → Emits plan n n' es st x
  | [], _ => h
  | e :: _, hplain =>
    (h.ofPlain fun f hf => hplain f (List.mem_cons_of_mem _ hf)).cons (hplain e (List.mem_cons_self ..))

theorem orDefect {d : Defect} {o : Option α} {a : α} (ho : o = some a) : Emits plan n n [] st (orDefect d o) := by
  rw [ho]
  exact pure

/-- A step that changes nothing growth speaks about. -/
theorem ofSame (h : Yields x st (fun _ => False) fun _ st' =>
    st'.places = st.places ∧ st.Leaves st' [] ∧ st'.thunks = st.thunks) : Emits plan n n [] st x :=
  Yields.mono h (fun _ => False.elim) fun _ _ ⟨places, same, thunks⟩ => .ofSame nofun places same thunks

end Emits

/-! ## Locals -/

theorem emits_newLocal (s : Site) (ty : ValType) : Emits plan n n [] st (newLocal s ty) :=
  .ofSame (yields_bind (yields_get (yields_bind (yields_set (yields_pure ⟨rfl, .none rfl rfl rfl, rfl⟩)))))

/-- The state after a new local for a variable. -/
theorem run_declareLocal (s : Site) (ty : ValType) (v : Variable) {α : Type} (k : Nat → Emit α)
    (st : State) :
    (do
      let i ← newLocal s ty
      bindLocal v i
      k i : Emit α).run st = (k (s.paramCount + st.locals.length)).run (st.declare s.paramCount v ty) := rfl

/-- A new local for the next variable. -/
theorem emits_declareLocal (s : Site) (ty : ValType) {v : Variable} (hv : v.id = n) {α : Type} {k : Nat → Emit α}
    (hk : ∀ i st₁, Grows plan n (n + 1) [] st st₁ → st₁.places.lookup v.id = some i →
      Emits plan (n + 1) n' es st₁ (k i)) :
    Emits plan n n' es st (do
      let i ← newLocal s ty
      bindLocal v i
      k i) := by
  have hgrow : Grows plan n (n + 1) [] st (st.declare s.paramCount v ty) := {
    le := Nat.le_succ n
    places := fun id hid => by
      rw [State.declare, List.lookup_cons, beq_false_of_ne (by omega)]
    leaves := ⟨[], .none nofun (.none rfl rfl rfl) rfl⟩ }
  have hnext := hk (s.paramCount + st.locals.length) _ hgrow (by simp [State.declare])
  rw [Emits, Yields, run_declareLocal]
  exact Yields.mono hnext (fun _ => id) fun _ _ hg => hgrow.trans hg

end Emit

end StackScript
