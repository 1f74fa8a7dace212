import StackScript.Proofs.Emit.Pieces

/-!
# Well-typed trees can be emitted
-/

namespace StackScript

open Typed

namespace Emit

/-! ## Trees that can be emitted -/

section

variable (Γ : Context)

/-- An expression can be emitted wherever its context is ready. -/
def ExprEmits (n : Nat) (e : Typed.Expr) (n' : Nat) : Prop :=
  ∀ s st, Ready s Γ n st → Covers s Γ e.reads → Emits s.plan n n' e.nodes st (expr s e)

/-- An expression can be emitted as a place to write to. -/
def PlaceEmits (n : Nat) (e : Typed.Expr) (n' : Nat) : Prop :=
  ∀ s st, Ready s Γ n st → Covers s Γ e.reads → Emits s.plan n n' e.nodes st (place s e)

/-- Expressions can be emitted one after the other. -/
def ArgsEmit : Nat → List Typed.Expr → Nat → Prop
  | n, [], n' => n = n'
  | n, e :: es, n' => ∃ n₁, ExprEmits Γ n e n₁ ∧ ArgsEmit n₁ es n'

/-- The pieces of a string can be emitted. -/
def PartsEmit (n : Nat) (ps : List Part) (n' : Nat) : Prop :=
  ∀ s st, Ready s Γ n st → Covers s Γ (partReads ps) → Emits s.plan n n' (partNodes ps) st (parts s ps)

/-- Field values can be emitted for an object in a local. -/
def InitsEmit (n : Nat) (fs : List Init) (n' : Nat) : Prop :=
  ∀ s st object, Ready s Γ n st → Covers s Γ (initReads fs) →
    Emits s.plan n n' (initNodes fs) st (fieldStores s object fs)

/-- Arms can be emitted in the block of their match. -/
def ArmsEmit (n : Nat) (as : List Arm) (n' : Nat) : Prop :=
  ∀ s st value, Ready s Γ n st → Covers s Γ (armReads as) →
    Emits s.plan n n' (armNodes as) st (arms (s.inside .plain) value as)

/-- A statement can be emitted, and the context after it is ready. -/
def StmtEmits (n : Nat) (t : Typed.Stmt) (Γ' : Context) (n' : Nat) : Prop :=
  ∀ s st, Ready s Γ n st → Covers s Γ t.reads → Emits s.plan n n' t.nodes st (stmt s t) ∧
    ∀ code st', (stmt s t).run st = .ok (code, st') → Ready s Γ' n' st'

/-- Statements can be emitted. -/
def StmtsEmit (n : Nat) (ts : List Typed.Stmt) (n' : Nat) : Prop :=
  ∀ s st, Ready s Γ n st → Covers s Γ (stmtReads ts) → Emits s.plan n n' (stmtNodes ts) st (stmts s ts)

end

end Emit

/-- What a judgement says about emission. -/
def Judgement.Emittable : Judgement → Prop
  | expr Γ n e n' => Emit.ExprEmits Γ n e n' ∧ (e.form.Assignable → Emit.PlaceEmits Γ n e n')
  | args Γ n _ es n' => Emit.ArgsEmit Γ n es n'
  | parts Γ n ps n' => Emit.PartsEmit Γ n ps n'
  | inits Γ n _ fs n' => Emit.InitsEmit Γ n fs n'
  | arms Γ n _ _ as n' => Emit.ArmsEmit Γ n as n'
  | stmt Γ n t _ Γ' n' => Emit.StmtEmits Γ n t Γ' n'
  | stmts Γ n ts _ n' => Emit.StmtsEmit Γ n ts n'

namespace Emit

variable {n n₁ n' id : Nat} {s : Site} {Γ : Context} {st st' : State} {ty elem : Ty} {name : String}
  {v : Variable} {e : Typed.Expr} {es : List Typed.Expr} {ss : List Typed.Stmt} {capacity : Nat}

/-! ## Lists of expressions -/

theorem emits_exprs : ∀ {es : List Typed.Expr} {n n' : Nat} {s : Site} {st : State},
    ArgsEmit Γ n es n' → Ready s Γ n st → Covers s Γ (exprReads es) → Emits s.plan n n' (exprNodes es) st (exprs s es)
  | [], n, n', _, _, h, _, _ => by
    obtain rfl : n = n' := h
    rw [exprs]
    exact .pure
  | _ :: _, _, _, s, st, h, hready, hcovers => by
    obtain ⟨n₁, he, hes⟩ := h
    rw [exprs]
    refine (he s st hready hcovers.left).bind fun a st₁ hg => ?_
    exact (emits_exprs hes (hready.after hg) hcovers.right).bindLeaf fun _ _ _ => .pure

theorem emits_partArgs : ∀ {es : List Typed.Expr} {n n' : Nat} {s : Site} {st : State},
    ArgsEmit Γ n es n' → Ready s Γ n st → Covers s Γ (exprReads es) →
      Emits s.plan n n' (exprNodes es) st (partArgs s es)
  | [], n, n', _, _, h, _, _ => by
    obtain rfl : n = n' := h
    rw [partArgs]
    exact .pure
  | e :: es, n, n', s, st, h, hready, hcovers => by
    obtain ⟨n₁, he, hes⟩ := h
    rw [partArgs]
    refine (he s st hready hcovers.left).bind fun a st₁ hg => ?_
    have hready₁ := hready.after hg
    split
    · refine (emits_stringParts s).leafBind fun _ _ hg₂ => ?_
      exact (emits_partArgs hes (hready₁.after hg₂) hcovers.right).bindLeaf fun _ _ _ => .pure
    · exact (emits_partArgs hes hready₁ hcovers.right).bindLeaf fun _ _ _ => .pure

theorem emits_elementStores {array : Nat} {kind : MemKind} :
    ∀ {es : List Typed.Expr} {n n' : Nat} {s : Site} {st : State} (i : Nat),
      ArgsEmit Γ n es n' → Ready s Γ n st → Covers s Γ (exprReads es) →
        Emits s.plan n n' (exprNodes es) st (elementStores s array kind i es)
  | [], n, n', _, _, _, h, _, _ => by
    obtain rfl : n = n' := h
    rw [elementStores]
    exact .pure
  | _ :: _, _, _, s, st, i, h, hready, hcovers => by
    obtain ⟨n₁, he, hes⟩ := h
    rw [elementStores]
    refine (he s st hready hcovers.left).bind fun a st₁ hg => ?_
    exact (emits_elementStores (i + 1) hes (hready.after hg) hcovers.right).bindLeaf fun _ _ _ => .pure

/-! ## Statements in order -/

theorem Ready.bindAll : ∀ {vs : List Variable} {Γ : Context}, Ready s Γ n st →
    (∀ v ∈ vs, v.id < n ∧ ∃ i, st.places.lookup v.id = some i) → Ready s (Γ.bindAll vs) n st
  | [], _, h, _ => h
  | v :: _, _, h, hvs => by
    obtain ⟨hid, i, hi⟩ := hvs v (List.mem_cons_self ..)
    rw [Context.bindAll_cons]
    exact (h.bind hid hi).bindAll fun w hw => hvs w (List.mem_cons_of_mem _ hw)

theorem Covers.congr {Γ' : Context} {vs : List Variable} (h : Covers s Γ vs)
    (hfirst : Γ'.first = Γ.first) : Covers s Γ' vs := fun v hv hlt => h v hv (hfirst ▸ hlt)

variable {t : Typed.Stmt} {ps : List Part} {slot : Nat}

/-- A statement that declares no variable leaves its context. -/
theorem StmtEmits.ofSame (h : ∀ s st, Ready s Γ n st → Covers s Γ t.reads →
    Emits s.plan n n' t.nodes st (stmt s t)) : StmtEmits Γ n t Γ n' :=
  fun s st hready hcovers => ⟨h s st hready hcovers, fun _ _ hrun =>
    hready.after (Yields.of_ok (h s st hready hcovers) hrun)⟩

/-! ## Expressions -/

variable {f : Form} {value l r i : Typed.Expr} {op : BinaryOp}

/-- What a form needs when it is emitted itself: no job, and no array literal. -/
theorem ExprEmits.node (plain : f.isPlain = true)
    (h : ∀ s st, Ready s Γ n st → Covers s Γ f.reads → Emits s.plan n n' f.nodes st (expr s ⟨id, ty, f⟩)) :
    ExprEmits Γ n ⟨id, ty, f⟩ n' :=
  fun s st hready hcovers => (h s st hready hcovers).cons (Expr.plain_of_form plain)

/-- A form that is no place is only read. -/
theorem emittable_value (value : f.isPlace = false) (h : ExprEmits Γ n ⟨id, ty, f⟩ n') :
    (Judgement.expr Γ n ⟨id, ty, f⟩ n').Emittable := by
  refine ⟨h, fun hplace => ?_⟩
  cases hplace <;> cases value

theorem emittable_node (plain : f.isPlain = true) (value : f.isPlace = false)
    (h : ∀ s st, Ready s Γ n st → Covers s Γ f.reads → Emits s.plan n n' f.nodes st (expr s ⟨id, ty, f⟩)) :
    (Judgement.expr Γ n ⟨id, ty, f⟩ n').Emittable :=
  emittable_value value (.node plain h)

theorem exprEmits_logical (hop : op.isLogical = true) (hl : ExprEmits Γ n l n₁) (hr : ExprEmits Γ n₁ r n') :
    ExprEmits Γ n ⟨id, ty, .binary op l r⟩ n' := by
  refine .node rfl fun s st hready hcovers => ?_
  cases op with
  | and | or =>
    rw [expr]
    refine (hl s st hready hcovers.left).bind fun a st₁ hg => ?_
    exact (hr _ st₁ ((hready.after hg).inside .plain) hcovers.right).bindLeaf fun _ _ _ => .pure
  | _ => cases hop

theorem exprEmits_binary (hop : op.Gives l.ty ty) (hl : ExprEmits Γ n l n₁) (hr : ExprEmits Γ n₁ r n') :
    ExprEmits Γ n ⟨id, ty, .binary op l r⟩ n' := by
  refine .node rfl fun s st hready hcovers => ?_
  rw [expr_binary s (not_logical hop)]
  refine (hl s st hready hcovers.left).bind fun a st₁ hg => ?_
  refine (hr s st₁ (hready.after hg) hcovers.right).bindLeaf fun b st₂ _ => ?_
  exact (emits_binaryOps s hop).leafBind fun _ _ _ => .pure

theorem exprEmits_negLiteral {id' : Nat} {ty' : Ty} {value : Nat} :
    ExprEmits Γ n ⟨id, ty, .unary .neg ⟨id', ty', .int value⟩⟩ n := by
  intro s st _ _
  rw [Expr.nodes, Form.nodes, expr]
  refine Emits.cons ?_ (Expr.plain_of_form rfl)
  exact Emits.cons .pure (Expr.plain_of_form rfl)

theorem exprEmits_neg (hty : e.ty.Negatable) (hle : n ≤ n') (he : ExprEmits Γ n e n') :
    ExprEmits Γ n ⟨id, e.ty, .unary .neg e⟩ n' := by
  intro s st hready hcovers
  cases hlit : e.intLiteral? with
  | some v =>
    obtain ⟨id', ty', form⟩ := e
    unfold Expr.intLiteral? at hlit
    split at hlit
    · next value hform =>
      obtain rfl : form = .int value := hform
      exact (exprEmits_negLiteral s st hready hcovers).upTo hle
    · cases hlit
  | none =>
    rw [expr]
    simp only [hlit]
    refine Emits.cons ?_ (Expr.plain_of_form rfl)
    exact (he s st hready hcovers).bindLeaf fun _ _ _ => emits_negate hty

/-- Every conversion between number types has instructions. -/
theorem exists_cast {source target : Ty} (hs : source.isNumeric = true) (ht : target.isNumeric = true) :
    ∃ ops, cast? source target = some ops := by
  cases source with
  | int | float =>
    cases target with
    | int | float => exact ⟨_, rfl⟩
    | _ => cases ht
  | _ => cases hs

theorem exprEmits_call {sig : FunctionSig} (hsig : Γ.symbols.function? sig.name = some sig)
    (hes : ArgsEmit Γ n es n') : ExprEmits Γ n ⟨id, ty, .call (Check.directTarget sig) es⟩ n' := by
  refine .node rfl fun s st hready hcovers => ?_
  rw [hready.symbols] at hsig
  have hindex (st₁ : State) : Emits s.plan n' n' [] st₁ (targetIndex s (Check.directTarget sig)) :=
    emits_targetIndex hready.plan hsig
  generalize Check.directTarget sig = target at hindex ⊢
  by_cases hb : ∃ b, target = .builtin b
  · obtain ⟨b, rfl⟩ := hb
    rw [expr]
    exact (emits_partArgs hes hready hcovers).bindLeaf fun _ _ _ => .pure
  · rw [expr]
    · refine (emits_exprs hes hready hcovers).bindLeaf fun a st₁ _ => ?_
      exact (hindex st₁).leafBind fun _ _ _ => .pure
    · exact fun b hb' => hb ⟨b, hb'⟩

theorem exprEmits_indirect {ret : Ty} {params : List Ty} {f : Typed.Expr} (hty : f.ty = .fn params ret)
    (hf : ExprEmits Γ n f n₁) (hes : ArgsEmit Γ n₁ es n') : ExprEmits Γ n ⟨id, ty, .indirect f es⟩ n' := by
  refine .node rfl fun s st hready hcovers => ?_
  rw [expr]
  simp only [hty]
  refine (hf s st hready hcovers.left).bind fun callee st₁ hg₁ => ?_
  refine (emits_newLocal s .i32).leafBind fun value st₂ hg₂ => ?_
  refine (emits_exprs hes ((hready.after hg₁).after hg₂) hcovers.right).bindLeaf fun _ _ _ => ?_
  exact (emits_typeIndex _).leafBind fun _ _ _ => .pure

theorem exprEmits_push {receiver : Typed.Expr} (hreceiver : PlaceEmits Γ n receiver n₁)
    (hvalue : ExprEmits Γ n₁ value n') : ExprEmits Γ n ⟨id, ty, .push receiver value⟩ n' := by
  refine .node rfl fun s st hready hcovers => ?_
  rw [expr]
  refine (hreceiver s st hready hcovers.left).bind fun target st₁ hg => ?_
  refine (hvalue s st₁ (hready.after hg) hcovers.right).bindLeaf fun _ _ _ => ?_
  refine (emits_newLocal s _).leafBind fun item _ _ => ?_
  exact (emits_pushOps s target.1 item _).leafBind fun _ _ _ => .pure

theorem exprEmits_index (hty : e.ty.element? = some elem)
    (he : ExprEmits Γ n e n₁) (hi : ExprEmits Γ n₁ i n') : ExprEmits Γ n ⟨id, ty, .index e i⟩ n' := by
  refine .node rfl fun s st hready hcovers => ?_
  rw [expr]
  exact (emits_elementAddress hty (he s st hready hcovers.left) fun st₁ hg =>
    hi s st₁ (hready.after hg) hcovers.right).bindLeaf fun _ _ _ => .pure

/-- Constants in order are plain. -/
theorem plain_of_literals {ls : List Literal} (h : es.mapM (·.literal?) = some ls) :
    ∀ x ∈ exprNodes es, x.Plain capacity := by
  intro x hx
  obtain ⟨e, l, -, hconst, hx⟩ := (constants_of_literals h).2.2 x hx
  exact hconst.plain x hx

theorem exprEmits_array (hle : n ≤ n') (hes : ArgsEmit Γ n es n') : ExprEmits Γ n ⟨id, .array elem, .array es⟩ n' := by
  intro s st hready hcovers
  rw [Expr.nodes, Form.nodes, expr]
  refine (emits_literalCapacity id (.array elem) es).bind fun cap st₁ hg₁ => ?_
  split
  · next literals hliterals =>
    refine Emits.upTo (Emits.ofPlain ?_ (plain_of_literals hliterals)) hle
    refine (emits_mapM (fun l _ => emits_literalWord l) literals st₁).leafBind fun words _ _ => ?_
    exact emits_template s _ _
  · refine (emits_alloc s _).leafBind fun a st₂ hg₂ => ?_
    exact (emits_elementStores 0 hes ((hready.after hg₁).after hg₂) hcovers).bindLeaf fun _ _ _ => .pure

theorem exprEmits_structLit {size : Nat} {fs : List Init} (hle : n ≤ n') (hfs : InitsEmit Γ n fs n') :
    ExprEmits Γ n ⟨id, ty, .structLit size fs⟩ n' := by
  refine .node rfl fun s st hready hcovers => ?_
  rw [expr]
  simp only
  split
  · next literals hliterals =>
    obtain ⟨hls, -, -, hnodes⟩ := literals_of_fields hliterals
    rw [Form.nodes, hnodes]
    refine Emits.upTo (Emits.ofPlain ?_ (plain_of_literals hls)) hle
    have hword (f : Nat × Literal) (st : State) : Emits s.plan n n [] st (do return (f.1, ← literalWord f.2)) :=
      (emits_literalWord f.2).leafBind fun _ _ _ => .pure
    exact (emits_mapM hword literals st).leafBind fun _ _ _ => emits_template s _ _
  · refine (emits_alloc s _).leafBind fun a st₁ hg => ?_
    exact (hfs s st₁ a.1 (hready.after hg) hcovers).bindLeaf fun _ _ _ => .pure

/-- A function literal is emitted later; here its captures are read. -/
theorem exprEmits_lambda {params : List Variable} {body : Typed.Body}
    (h : (Judgement.expr Γ n ⟨id, ty, .lambda params (body.captures n) body⟩ n').Derivable) :
    ExprEmits Γ n ⟨id, ty, .lambda params (body.captures n) body⟩ n' := by
  intro s st hready hcovers
  have hsees := h.visible
  simp only [Judgement.context, Judgement.start, Judgement.reads, Expr.reads, Form.reads] at hsees
  rw [expr]
  refine (emits_addLambda h.start_le_stop (.lambda hready.symbols hready.below h)).bindLeaf fun slot _ hg => ?_
  exact emits_closure (hready.after hg) (fun v hv => hsees v hv (Body.of_mem_captures hv).2) hcovers slot

/-! ## Places -/

theorem placeEmits_local (hv : Γ.scopes.find? name = some v) (hown : Γ.first ≤ v.id) :
    PlaceEmits Γ n ⟨id, v.ty, .local_ v⟩ n := by
  intro s st hready _
  obtain ⟨i, hi⟩ := hready.own name v hv hown
  rw [place_local]
  refine Emits.cons ?_ (Expr.plain_of_form rfl)
  refine yields_bind (yields_get ?_)
  rw [hi]
  exact yields_bind (yields_pure (yields_pure (.refl st)))

theorem placeEmits_field (he : ExprEmits Γ n e n') : PlaceEmits Γ n ⟨id, ty, .field e slot⟩ n' := by
  intro s st hready hcovers
  rw [place]
  refine Emits.cons ?_ (Expr.plain_of_form rfl)
  exact (he s st hready hcovers).bindLeaf fun _ _ _ => (emits_newLocal s .i32).leafBind fun _ _ _ => .pure

theorem placeEmits_index (hty : e.ty.element? = some elem)
    (he : ExprEmits Γ n e n₁) (hi : ExprEmits Γ n₁ i n') : PlaceEmits Γ n ⟨id, ty, .index e i⟩ n' := by
  intro s st hready hcovers
  rw [place]
  refine Emits.cons ?_ (Expr.plain_of_form rfl)
  refine (emits_elementAddress hty (he s st hready hcovers.left) fun st₁ hg =>
    hi s st₁ (hready.after hg) hcovers.right).bindLeaf fun _ _ _ => ?_
  exact (emits_newLocal s .i32).leafBind fun _ _ _ => .pure

/-! ## Pieces and arms -/

theorem partsEmit_text {t : String} (h : PartsEmit Γ n ps n') : PartsEmit Γ n (.text t :: ps) n' := by
  intro s st hready hcovers
  rw [parts]
  split
  · exact h s st hready hcovers
  · refine (emits_strConst _).leafBind fun addr st₁ hg => ?_
    exact (h s st₁ (hready.after hg) hcovers).bindLeaf fun _ _ _ => .pure

theorem partsEmit_expr (hplain : Check.isPlain e.ty = true)
    (he : ExprEmits Γ n e n₁) (h : PartsEmit Γ n₁ ps n') : PartsEmit Γ n (.expr e :: ps) n' := by
  intro s st hready hcovers
  rw [parts]
  refine (he s st hready hcovers.left).bind fun a st₁ hg₁ => (emits_stringify hplain).leafBind fun b st₂ hg₂ => ?_
  exact (h s st₂ ((hready.after hg₁).after hg₂) hcovers.right).bindLeaf fun _ _ _ => .pure

theorem armsEmit_cons {scrutinee : Ty} {p : Typed.Pattern} {as : List Arm} (hp : p.Fits Γ.symbols n scrutinee)
    (he : ExprEmits (Γ.arm p) (n + p.binder?.toList.length) e n₁)
    (h : ArmsEmit Γ n₁ as n') : ArmsEmit Γ n (⟨p, e⟩ :: as) n' := by
  intro s st value hready hcovers
  rw [arms]
  refine (emits_pattern (s := s.inside .plain) hp value st).bindRun fun test st₁ hrun hg₁ => ?_
  have hready₁ : Ready (s.inside .plain) (Γ.arm p) (n + p.binder?.toList.length) st₁ := by
    refine ((hready.inside .plain).after hg₁).inner.bindAll fun v hv => ⟨?_, ?_⟩
    · have hpos := List.length_pos_of_mem hv
      have hid := hp.binder v hv
      omega
    · exact place_of_pattern hp hrun v hv
  have hcovers₁ : Covers (s.inside .plain) (Γ.arm p) e.reads :=
    hcovers.left.congr (Context.bindAll_first ..)
  refine (he _ st₁ hready₁ hcovers₁).bind fun body st₂ hg₂ => ?_
  exact (h s st₂ value (hready.after (hg₁.trans hg₂)) hcovers.right).bindLeaf fun _ _ _ => .pure

/-! ## Statements -/

theorem stmtEmits_let (hv : v.id = n') (he : ExprEmits Γ n e n') :
    StmtEmits Γ n (.let_ id v e) (Γ.bind v) (n' + 1) := by
  intro s st hready hcovers
  rw [stmt]
  have hemits : Emits s.plan n (n' + 1) e.nodes st (do
      let a ← expr s e
      let i ← newLocal s v.ty.slotType
      bindLocal v i
      return a ++ [.op (.set i)]) :=
    (he s st hready hcovers).bindLeaf fun a st₁ hg => emits_declareLocal s _ hv fun _ _ _ _ => .pure
  refine ⟨hemits, fun code st' hrun => ?_⟩
  have hready' := hready.after (Yields.of_ok hemits hrun)
  simp only [run_bind_eq_ok (x := expr s e), run_declareLocal, run_pure_eq_ok] at hrun
  obtain ⟨a, st₁, -, -, rfl⟩ := hrun
  exact hready'.bind (hv ▸ Nat.lt_succ_self _) (List.lookup_cons_self ..)

theorem stmtEmits_assign {target : Typed.Expr} {op : Option BinaryOp}
    (hop : ∀ o, op = some o → o.Computes target.ty) (htarget : PlaceEmits Γ n target n₁)
    (hvalue : ExprEmits Γ n₁ value n') : StmtEmits Γ n (.assign target op value) Γ n' := by
  refine .ofSame fun s st hready hcovers => ?_
  simp only [Stmt.nodes, stmt, pure_bind]
  refine (htarget s st hready hcovers.left).bind fun p st₁ hg => ?_
  refine (hvalue s st₁ (hready.after hg) hcovers.right).bindLeaf fun v st₂ _ => ?_
  cases op with
  | none => exact (emits_storeAssigned s target.ty p.1).leafBind fun _ _ _ => .pure
  | some op =>
    refine (emits_binaryOps s (.value (hop op rfl))).leafBind fun _ _ _ => ?_
    exact (emits_storeAssigned s target.ty p.1).leafBind fun _ _ _ => .pure

theorem stmtEmits_for (hty : e.ty = .array elem) (hv : v.id = n₁) (he : ExprEmits Γ n e n₁)
    (hss : StmtsEmit (Γ.loop.inner.bind v).inner (n₁ + 1) ss n') : StmtEmits Γ n (.for_ id v e ss) Γ n' := by
  refine .ofSame fun s st hready hcovers => ?_
  rw [stmt, hty]
  refine emits_forLoop hv (he s st hready hcovers.left) fun st₁ i hg hplace => ?_
  have hinside := (((hready.after hg).inside .loopExit).inside .plain).inside .loopNext
  have hready₁ := (hinside.loop (by simp [Site.inside])).inner.bind (hv ▸ Nat.lt_succ_self _) hplace
  exact hss _ st₁ hready₁.inner hcovers.right

theorem stmtEmits_jump {isBreak : Bool} (hstmt : ∀ s, stmt s t = jump s isBreak)
    (hnodes : t.nodes = []) (hloop : Γ.inLoop = true) : StmtEmits Γ n t Γ n := by
  refine .ofSame fun s st hready _ => ?_
  rw [hnodes, hstmt]
  exact emits_jump hready hloop isBreak

/-- **Well-typed trees can be emitted.** -/
theorem emittable_of_derivable {j : Judgement} (h : j.Derivable) : j.Emittable := by
  induction h with
  | int | float | bool =>
    refine emittable_node rfl rfl fun s st _ _ => ?_
    rw [expr]
    exact .pure
  | str | bytes =>
    refine emittable_node rfl rfl fun s st _ _ => ?_
    rw [expr]
    exact (emits_strConst _).leafBind fun _ _ _ => .pure
  | interp _ ih =>
    refine emittable_node rfl rfl fun s st hready hcovers => ?_
    rw [expr]
    exact (ih s st hready hcovers).bindLeaf fun _ _ _ => emits_joinPieces s _
  | local_ found own =>
    refine ⟨.node rfl fun s st hready hcovers => ?_, fun _ => placeEmits_local found own⟩
    rw [expr]
    exact (emits_readVariable hready found hcovers).bindLeaf fun _ _ _ => .pure
  | captured found =>
    refine emittable_node rfl rfl fun s st hready hcovers => ?_
    rw [expr]
    exact (emits_readVariable hready found hcovers).bindLeaf fun _ _ _ => .pure
  | function found kind =>
    obtain rfl := (SymbolTable.function?_mem found).2
    refine emittable_node rfl rfl fun s st hready _ => ?_
    rw [expr]
    exact (emits_functionConst (hready.symbols ▸ found) kind rfl).leafBind fun _ _ _ => .pure
  | unit =>
    refine emittable_node rfl rfl fun s st _ _ => ?_
    rw [expr]
    exact (emits_unitConst _ _).leafBind fun _ _ _ => .pure
  | logical kind _ _ _ _ ihl ihr => exact emittable_value rfl (exprEmits_logical kind ihl.1 ihr.1)
  | binary _ _ _ result ihl ihr => exact emittable_value rfl (exprEmits_binary result ihl.1 ihr.1)
  | not _ _ ih | arrayLength _ _ ih | byteLength _ _ ih | await _ _ ih =>
    refine emittable_node rfl rfl fun s st hready hcovers => ?_
    rw [expr]
    exact (ih.1 s st hready hcovers).bindLeaf fun _ _ _ => .pure
  | negLiteral => exact emittable_value rfl exprEmits_negLiteral
  | neg operand negatable ih =>
    exact emittable_value rfl (exprEmits_neg negatable operand.start_le_stop ih.1)
  | cast _ source target ih =>
    obtain ⟨ops, hops⟩ := exists_cast source target
    refine emittable_node rfl rfl fun s st hready hcovers => ?_
    rw [expr]
    exact (ih.1 s st hready hcovers).bindLeaf fun _ _ _ => (Emits.orDefect hops).leafBind fun _ _ _ => .pure
  | call found _ ih =>
    obtain rfl := (SymbolTable.function?_mem found).2
    exact emittable_value rfl (exprEmits_call found ih)
  | static found method _ _ ih =>
    refine emittable_node rfl rfl fun s st hready hcovers => ?_
    rw [expr]
    · refine (emits_exprs ih hready hcovers).bindLeaf fun _ _ _ => ?_
      exact (emits_methodIndex hready.plan (hready.symbols ▸ found) method).leafBind fun _ _ _ => .pure
    · intros
      contradiction
  | method _ _ found method _ _ ihr ih =>
    refine emittable_node rfl rfl fun s st hready hcovers => ?_
    rw [expr]
    refine (ihr.1 s st hready hcovers.left).bind fun receiver _ hg => ?_
    refine (emits_exprs ih (hready.after hg) hcovers.right).bindLeaf fun _ _ _ => ?_
    exact (emits_methodIndex hready.plan (hready.symbols ▸ found) method).leafBind fun _ _ _ => .pure
  | indirect _ calleeTy _ ihf ih => exact emittable_value rfl (exprEmits_indirect calleeTy ihf.1 ih)
  | variantOnly =>
    refine emittable_node rfl rfl fun s st _ _ => ?_
    rw [expr]
    exact emits_taggedOnly s _
  | variantOf _ _ _ ih | outcome _ _ ih =>
    refine emittable_node rfl rfl fun s st hready hcovers => ?_
    rw [expr]
    exact emits_tagged s _ fun st₁ hg => ih.1 s st₁ (hready.after hg) hcovers
  | push _ _ place _ _ ihr ihv => exact emittable_value rfl (exprEmits_push (ihr.2 place) ihv.1)
  | pop _ receiverTy _ ih =>
    refine emittable_node rfl rfl fun s st hready hcovers => ?_
    rw [expr]
    simp only [receiverTy]
    exact (ih.1 s st hready hcovers).bindLeaf fun _ _ _ => (emits_newLocal s .i32).leafBind fun _ _ _ => .pure
  | field _ _ _ _ ih =>
    refine ⟨.node rfl fun s st hready hcovers => ?_, fun _ => placeEmits_field ih.1⟩
    rw [expr]
    refine (ih.1 s st hready hcovers).bindLeaf fun _ _ _ => ?_
    split <;> exact .pure
  | index _ element _ _ iho ihp =>
    exact ⟨exprEmits_index element iho.1 ihp.1, fun _ => placeEmits_index element iho.1 ihp.1⟩
  | array elements ih => exact emittable_value rfl (exprEmits_array elements.start_le_stop ih)
  | structLit _ fields ih => exact emittable_value rfl (exprEmits_structLit fields.start_le_stop ih)
  | try_ _ _ _ ih =>
    refine emittable_node rfl rfl fun s st hready hcovers => ?_
    rw [expr]
    exact (ih.1 s st hready hcovers).bindLeaf fun _ _ _ => emits_tryCode s _ _
  | match_ _ _ ihs iha =>
    refine emittable_node rfl rfl fun s st hready hcovers => ?_
    rw [expr]
    refine (ihs.1 s st hready hcovers.left).bind fun v st₁ hg₁ => ?_
    refine (emits_newLocal s _).leafBind fun value st₂ hg₂ => ?_
    have hready₂ := ((hready.after hg₁).after hg₂).inside .plain
    exact (iha (s.inside .plain) st₂ value hready₂ hcovers.right).bindLeaf fun _ _ _ => .pure
  | lambdaExpr params body result =>
    exact emittable_value rfl (exprEmits_lambda (.lambdaExpr params body result))
  | lambdaBlock params body result =>
    exact emittable_value rfl (exprEmits_lambda (.lambdaBlock params body result))
  | block _ ih =>
    refine emittable_node rfl rfl fun s st hready hcovers => ?_
    rw [expr]
    exact ih s st hready.inner hcovers
  | argsNil => rfl
  | argsCons _ _ _ ihe ihes => exact ⟨_, ihe.1, ihes⟩
  | partsNil =>
    intro s st _ _
    rw [parts]
    exact .pure
  | partsText _ ih => exact partsEmit_text ih
  | partsExpr _ plain _ ihe ih => exact partsEmit_expr plain ihe.1 ih
  | initsNil =>
    intro s st object _ _
    rw [fieldStores]
    exact .pure
  | initsCons _ _ _ _ ihe ih =>
    intro s st object hready hcovers
    rw [fieldStores]
    refine (ihe.1 s st hready hcovers.left).bind fun a st₁ hg => ?_
    exact (ih s st₁ object (hready.after hg) hcovers.right).bindLeaf fun _ _ _ => .pure
  | armsNil =>
    intro s st value _ _
    rw [arms]
    exact .pure
  | armsCons pattern _ _ _ ihe ih => exact armsEmit_cons pattern ihe.1 ih
  | let_ _ _ _ ih => exact stmtEmits_let rfl ih.1
  | assign _ place _ _ combine iht ihv => exact stmtEmits_assign combine (iht.2 place) ihv.1
  | ifThen _ _ _ ihc ih =>
    refine .ofSame fun s st hready hcovers => ?_
    rw [stmt]
    refine (ihc.1 s st hready hcovers.left).bind fun cond st₁ hg => ?_
    exact (ih _ st₁ ((hready.after hg).inside .plain).inner hcovers.right).bindLeaf fun _ _ _ => .pure
  | ifElse _ _ _ _ ihc iht ihe =>
    refine .ofSame fun s st hready hcovers => ?_
    rw [Stmt.nodes, stmt, List.append_assoc]
    refine (ihc.1 s st hready hcovers.left.left).bind fun cond st₁ hg₁ => ?_
    have hready₁ := ((hready.after hg₁).inside .plain).inner
    refine (iht _ st₁ hready₁ hcovers.left.right).bind fun body st₂ hg₂ => ?_
    exact (ihe _ st₂ (hready₁.after hg₂) hcovers.right).bindLeaf fun _ _ _ => .pure
  | while_ _ _ _ ihc ih =>
    refine .ofSame fun s st hready hcovers => ?_
    rw [stmt]
    have hinside := (hready.inside .loopExit).inside .loopNext
    refine (ihc.1 _ st hinside hcovers.left).bind fun cond st₁ hg => ?_
    have hready₁ := ((hinside.after hg).loop (by simp [Site.inside])).inner
    exact (ih _ st₁ hready₁ hcovers.right).bindLeaf fun _ _ _ => .pure
  | for_ _ iterableTy _ ihi ih => exact stmtEmits_for iterableTy rfl ihi.1 ih
  | break_ inLoop | continue_ inLoop => exact stmtEmits_jump (fun _ => rfl) rfl inLoop
  | returnNone =>
    refine .ofSame fun s st _ _ => ?_
    rw [stmt]
    exact (emits_returnOps s).leafBind fun _ _ _ => .pure
  | returnSome _ _ _ ih =>
    refine .ofSame fun s st hready hcovers => ?_
    rw [stmt]
    exact (ih.1 s st hready hcovers).bindLeaf fun _ _ _ => (emits_returnOps s).leafBind fun _ _ _ => .pure
  | exprStmt _ ih =>
    refine .ofSame fun s st hready hcovers => ?_
    rw [stmt]
    exact (ih.1 s st hready hcovers).bindLeaf fun _ _ _ => .pure
  | blockStmt _ ih =>
    refine .ofSame fun s st hready hcovers => ?_
    rw [stmt_block]
    exact ih s st hready.inner hcovers
  | stmtsNil =>
    intro s st _ _
    rw [stmts]
    exact .pure
  | stmtsCons head _ ihh iht =>
    intro s st hready hcovers
    rw [stmts]
    obtain ⟨_, -, henters⟩ := head.after
    obtain ⟨hemits, hafter⟩ := ihh s st hready hcovers.left
    refine hemits.bindRun fun a st₁ hrun _ => ?_
    exact (iht s st₁ (hafter a st₁ hrun) (hcovers.right.congr henters.first)).bindLeaf fun _ _ _ => .pure

end Emit

end StackScript
