import StackScript.Proofs.Emit.Growth

/-!
# The steps of emission

What each step of the emitter needs, and what it adds.
-/

namespace StackScript

open Typed

/-- Every function that a program can name has a number. -/
structure Plan.Complete (plan : Plan) : Prop where
  user : ∀ sig, plan.symbols.function? sig.name = some sig → sig.kind = .user →
    ∃ i, plan.direct.lookup sig.name = some i
  external : ∀ sig, plan.symbols.function? sig.name = some sig → sig.kind = .external →
    ∃ i, plan.externals.lookup sig.name = some i
  method : ∀ struct shape slot m, plan.symbols.struct? struct = some shape →
    shape.methods[slot]? = some m → ∃ i, plan.methods.get? struct slot = some i

variable {ty result : Ty} {op : BinaryOp} {sig : FunctionSig} {t : SymbolTable}

namespace Emit

/-- A site and a state at which a tree can be emitted that is well typed in the context, when `n` is the
number of the next variable. -/
structure Ready (s : Site) (Γ : Context) (n : Nat) (st : State) : Prop where
  plan : s.plan.Complete
  symbols : Γ.symbols = s.plan.symbols
  labels : Γ.inLoop = true → .loopExit ∈ s.labels ∧ .loopNext ∈ s.labels
  below : Γ.Below n
  own : ∀ name v, Γ.scopes.find? name = some v → Γ.first ≤ v.id →
    ∃ i, st.places.lookup v.id = some i

/-- The site captures every outer variable among the given ones. -/
def Covers (s : Site) (Γ : Context) (vs : List Variable) : Prop :=
  ∀ v ∈ vs, v.id < Γ.first → ∃ w ∈ s.captures, w.id = v.id

variable {plan : Plan} {n n₁ n' : Nat} {s : Site} {Γ : Context} {st st' : State} {es fs : List Typed.Expr}
  {vs ws : List Variable} {v : Variable}

/-! ## Readiness -/

theorem Covers.left (h : Covers s Γ (vs ++ ws)) : Covers s Γ vs := fun v hv =>
  h v (List.mem_append_left _ hv)

theorem Covers.right (h : Covers s Γ (vs ++ ws)) : Covers s Γ ws := fun v hv =>
  h v (List.mem_append_right _ hv)

/-- **Emission keeps readiness.** -/
theorem Ready.after (h : Ready s Γ n st) (hg : Grows plan n n' es st st') : Ready s Γ n' st' where
  plan := h.plan
  symbols := h.symbols
  labels := h.labels
  below := fun name v hv => Nat.lt_of_lt_of_le (h.below name v hv) hg.le
  own := fun name v hv hfirst => by
    rw [hg.places v.id (h.below name v hv)]
    exact h.own name v hv hfirst

/-- A block around changes nothing. -/
theorem Ready.inside (h : Ready s Γ n st) (l : Label) : Ready (s.inside l) Γ n st where
  plan := h.plan
  symbols := h.symbols
  labels := fun hloop =>
    ⟨List.mem_cons_of_mem _ (h.labels hloop).1, List.mem_cons_of_mem _ (h.labels hloop).2⟩
  below := h.below
  own := h.own

theorem Ready.inner (h : Ready s Γ n st) : Ready s Γ.inner n st :=
  ⟨h.plan, h.symbols, h.labels, h.below, h.own⟩

/-- The labels of a loop around. -/
theorem Ready.loop (h : Ready s Γ n st) (hlabels : .loopExit ∈ s.labels ∧ .loopNext ∈ s.labels) : Ready s Γ.loop n st :=
  ⟨h.plan, h.symbols, fun _ => hlabels, h.below, h.own⟩

/-- A variable that has a place becomes visible. -/
theorem Ready.bind (h : Ready s Γ n st) {i : Nat} (hid : v.id < n)
    (hplace : st.places.lookup v.id = some i) : Ready s (Γ.bind v) n st where
  plan := h.plan
  symbols := h.symbols
  labels := h.labels
  below := fun name w hw => by
    rcases Context.find?_bind hw with rfl | hw
    · exact hid
    · exact h.below name w hw
  own := fun name w hw hfirst => by
    rcases Context.find?_bind hw with rfl | hw
    · exact ⟨i, hplace⟩
    · exact h.own name w hw hfirst

/-! ## Constants -/

theorem emits_strConst (bs : List UInt8) : Emits plan n n [] st (strConst bs) := by
  refine .ofSame (yields_bind (yields_get ?_))
  split
  · exact yields_pure ⟨rfl, .none rfl rfl rfl, rfl⟩
  · exact yields_bind (yields_set (yields_pure ⟨rfl, .none rfl rfl rfl, rfl⟩))

theorem emits_unitConst (enum : String) (tag : Nat) : Emits plan n n [] st (unitConst enum tag) := by
  refine .ofSame (yields_bind (yields_get ?_))
  split
  · exact yields_pure ⟨rfl, .none rfl rfl rfl, rfl⟩
  · exact yields_bind (yields_set (yields_pure ⟨rfl, .none rfl rfl rfl, rfl⟩))

theorem emits_wordsConst (words : List Layout.Word) : Emits plan n n [] st (wordsConst words) :=
  .ofSame (yields_bind (yields_get (yields_bind (yields_set (yields_pure ⟨rfl, .none rfl rfl rfl, rfl⟩)))))

theorem emits_literalWord (l : Literal) : Emits plan n n [] st (literalWord l) := by
  cases l with
  | word w => exact .pure
  | bytes bs => exact (emits_strConst bs).bindLeaf fun _ _ _ => .pure

/-- Steps on the members of a list that emit no expression. -/
theorem emits_mapM {α β : Type} {f : α → Emit β} (hf : ∀ a st, Emits plan n n [] st (f a)) :
    ∀ (as : List α) (st : State), Emits plan n n [] st (as.mapM f)
  | [], _ => by
    rw [List.mapM_nil]
    exact .pure
  | a :: as, st => by
    rw [List.mapM_cons]
    exact (hf a st).leafBind fun _ st₁ _ => (emits_mapM hf as st₁).bindLeaf fun _ _ _ => .pure

/-! ## Functions -/

/-- A function literal leaves its own job. -/
theorem emits_addLambda {id : Nat} {params captures : List Variable} {body : Typed.Body}
    (hle : n ≤ n') (htyped : Job.WellTyped plan.symbols (.lambda id ty params captures body)) :
    Emits plan n n' (Expr.nodes ⟨id, ty, .lambda params captures body⟩) st
      (addJob (.lambda id ty params captures body)) := by
  refine yields_bind (yields_get (yields_bind (yields_set (yields_pure ?_))))
  have hself : (⟨id, ty, .lambda params captures body⟩ : Typed.Expr).LiteralFits plan.arrayCapacity :=
    nofun
  refine ⟨hle, fun _ _ => rfl, [.lambda id ty params captures body], ?_⟩
  exact {
    toLeaves := State.leaves_withJob st _
    typed := by simpa using htyped
    nodes := by
      intro j hj e he
      obtain rfl := List.mem_singleton.mp hj
      rw [Expr.nodes, Form.nodes_lambda]
      exact List.mem_cons_of_mem _ he
    fits := by
      intro e he
      rw [Expr.nodes, Form.nodes_lambda, List.mem_cons] at he
      rcases he with rfl | he
      · exact .inl hself
      · exact .inr ⟨_, List.mem_singleton_self _, he⟩
    weight := by
      simp [Expr.nodes, lambdaCount_cons, Job.weight, Job.nodes, Expr.isLambda, State.unnamed, Nat.add_comm]
    literals := by
      rw [Expr.nodes, Form.nodes_lambda, literalIds, List.filter_cons_of_pos rfl]
      exact List.append_nil _
    thunks := rfl
    fresh := fun hnodup => hnodup }

/-- The first use of a function as a value leaves one name fewer for later. -/
theorem unnamed_cons_lt {addr : Nat} (hsig : sig ∈ t.functions)
    (hnone : st.thunks.lookup sig.name = none) (hthunks : st'.thunks = (sig.name, addr) :: st.thunks) :
    st'.unnamed t < st.unnamed t := by
  have hle (fs : List FunctionSig) : fs.countP (fun f => (st'.thunks.lookup f.name).isNone)
        ≤ fs.countP fun f => (st.thunks.lookup f.name).isNone := by
    refine List.countP_mono_left fun f _ hf => ?_
    rw [hthunks, List.lookup_cons] at hf
    split at hf
    · cases hf
    · exact hf
  obtain ⟨fs, gs, hsplit⟩ := List.append_of_mem hsig
  have hfs := hle fs
  have hgs := hle gs
  have hself : (st'.thunks.lookup sig.name).isNone = false := by simp [hthunks]
  simp only [State.unnamed, hsplit, List.countP_append, List.countP_cons, hself, hnone]
  simp only [Bool.false_eq_true, if_false, Option.isNone_none, if_true]
  omega

theorem not_mem_names {entries : List (String × Nat)} {name : String} (h : entries.lookup name = none) :
    name ∉ entries.map Prod.fst := by
  intro hmem
  obtain ⟨entry, hentry, rfl⟩ := List.mem_map.1 hmem
  simpa using List.lookup_eq_none_iff.1 h entry hentry

theorem emits_functionConst (hsig : plan.symbols.function? sig.name = some sig) (hkind : ∀ b, sig.kind ≠ .builtin b)
    (hs : s.plan = plan) : Emits plan n n [] st (functionConst s sig.name) := by
  refine yields_bind (yields_get ?_)
  split
  · exact yields_pure (.refl st)
  · next hnone =>
    rw [hs, hsig]
    refine yields_bind (yields_pure (yields_bind (yields_bind (yields_get (yields_bind
      (yields_set (yields_pure ?_)))))))
    refine yields_bind (yields_bind (yields_get (yields_bind (yields_set (yields_pure ?_)))))
    refine yields_bind (yields_modify (yields_pure ⟨Nat.le_refl n, fun _ _ => rfl, [.thunk sig], ?_⟩))
    exact {
      toLeaves := ⟨rfl, rfl, rfl⟩
      typed := by simpa using Job.WellTyped.thunk hsig hkind
      nodes := by
        intro j hj e he
        obtain rfl := List.mem_singleton.mp hj
        cases he
      fits := List.forall_mem_nil _
      weight := by
        have hsum : Job.weights [.thunk sig] = 1 := rfl
        rw [hsum, Nat.add_comm]
        exact unnamed_cons_lt (SymbolTable.function?_mem hsig).1 hnone rfl
      literals := rfl
      thunks := rfl
      fresh := fun hnodup => List.nodup_cons.2 ⟨not_mem_names hnone, hnodup⟩ }

theorem emits_typeIndex (ty : FuncType) : Emits plan n n [] st (typeIndex ty) := by
  refine .ofSame (yields_bind (yields_get ?_))
  split
  · exact yields_pure ⟨rfl, .none rfl rfl rfl, rfl⟩
  · exact yields_bind (yields_set (yields_pure ⟨rfl, .none rfl rfl rfl, rfl⟩))

/-! ## Variables and jumps -/

/-- A variable is read from its local or from the environment. -/
theorem emits_readVariable (h : Ready s Γ n st) {name : String} (hv : Γ.scopes.find? name = some v)
    (hcovers : Covers s Γ [v]) : Emits plan n n [] st (readVariable s v) := by
  refine yields_bind (yields_get ?_)
  split
  · exact yields_pure (.refl st)
  · next hnone =>
    have houter : v.id < Γ.first := by
      refine Nat.lt_of_not_le fun hfirst => ?_
      obtain ⟨i, hi⟩ := h.own name v hv hfirst
      rw [hi] at hnone
      cases hnone
    obtain ⟨w, hw, hid⟩ := hcovers v (List.mem_singleton_self v) houter
    split
    · exact yields_pure (.refl st)
    · next hslot =>
      rw [captureSlot?, List.findIdx?_eq_none_iff] at hslot
      exact absurd hid (by simpa using hslot w hw)

theorem emits_returnOps (s : Site) : Emits plan n n [] st (returnOps s) := by
  unfold returnOps
  split
  · exact .pure
  · exact (emits_newLocal s _).leafBind fun _ _ _ => .pure
  · exact .pure

theorem emits_jump (h : Ready s Γ n st) (hloop : Γ.inLoop = true) (isBreak : Bool) :
    Emits plan n n [] st (jump s isBreak) := by
  have hmem : (if isBreak then Label.loopExit else .loopNext) ∈ s.labels := by
    cases isBreak
    · exact (h.labels hloop).2
    · exact (h.labels hloop).1
  have hsome : (labelDepth s (if isBreak then .loopExit else .loopNext)).isSome = true := by
    rw [labelDepth, List.findIdx?_isSome]
    exact List.any_eq_true.mpr ⟨_, hmem, by simp⟩
  obtain ⟨depth, hdepth⟩ := Option.isSome_iff_exists.mp hsome
  exact (Emits.orDefect hdepth).leafBind fun _ _ _ => .pure

/-! ## Operators -/

/-- Every operator that a type has is an instruction, but for strings. -/
theorem exists_numericOp (h : op.Gives ty result) (hty : ty ≠ .str) : ∃ num, numericOp? op ty = some num := by
  have numeric (ty : Ty) (hnum : ty.isNumeric = true)
      (hop : op = .add ∨ op = .sub ∨ op = .mul ∨ op = .div ∨ op.isComparison = true) :
      ∃ num, numericOp? op ty = some num := by
    cases ty with
    | int kind => cases op <;> simp_all [numericOp?, intOp?, BinaryOp.isComparison]
    | float => cases op <;> simp_all [numericOp?, floatOp?, BinaryOp.isComparison]
    | _ => cases hnum
  cases h with
  | value hcomputes =>
    cases hcomputes with
    | add operands => exact numeric ty (operands.resolve_right hty) (.inl rfl)
    | arith kind operands => exact numeric ty operands (.inr (kind.imp_right (·.imp_right .inl)))
    | rem operands =>
      cases ty with
      | int kind => exact ⟨_, rfl⟩
      | _ => cases operands
  | truth hcompares =>
    cases hcompares with
    | equality kind operands =>
      have hcomparison : op.isComparison = true := by rcases kind with rfl | rfl <;> rfl
      by_cases hnum : ty.isNumeric = true
      · exact numeric ty hnum (by simp [hcomparison])
      · have hbool : ty = .bool := by simpa [Check.isPlain, hnum, hty] using operands
        subst hbool
        rcases kind with rfl | rfl <;> exact ⟨_, rfl⟩
    | order kind operands =>
      have hcomparison : op.isComparison = true := by
        rcases kind with rfl | rfl | rfl | rfl <;> rfl
      exact numeric ty operands (by simp [hcomparison])

theorem not_logical (h : op.Gives ty result) : op.isLogical = false := by
  cases h with
  | value hcomputes =>
    cases hcomputes with
    | add | rem => rfl
    | arith kind => rcases kind with rfl | rfl | rfl <;> rfl
  | truth hcompares =>
    cases hcompares with
    | equality kind => rcases kind with rfl | rfl <;> rfl
    | order kind => rcases kind with rfl | rfl | rfl | rfl <;> rfl

/-- Operators on strings. -/
theorem gives_str (h : op.Gives .str result) : op = .add ∨ op = .eq ∨ op = .ne := by
  cases h with
  | value hcomputes =>
    cases hcomputes with
    | add => exact .inl rfl
    | arith _ operands | rem operands => cases operands
  | truth hcompares =>
    cases hcompares with
    | equality kind => exact .inr kind
    | order _ operands => cases operands

theorem emits_binaryOps (s : Site) (h : op.Gives ty result) : Emits plan n n [] st (binaryOps s op ty) := by
  by_cases hty : ty = .str
  · subst hty
    rcases gives_str h with rfl | rfl | rfl <;> exact .pure
  · obtain ⟨num, hnum⟩ := exists_numericOp h hty
    unfold binaryOps
    split
    all_goals first | exact absurd rfl hty | skip
    refine (Emits.orDefect hnum).leafBind fun num st₁ _ => ?_
    split <;> exact .pure

theorem emits_negate (h : ty.Negatable) {operand : List Code} : Emits plan n n [] st (negate ty operand) := by
  cases h with
  | float => exact .pure
  | int =>
    simp only [negate]
    split <;> exact .pure

/-! ## Strings -/

theorem emits_stringify (h : Check.isPlain ty = true) : Emits plan n n [] st (stringify ty) := by
  cases ty with
  | str | float | int => exact .pure
  | bool => exact (emits_strConst _).leafBind fun _ _ _ => (emits_strConst _).leafBind fun _ _ _ => .pure
  | _ => cases h

theorem emits_joinPieces (s : Site) (pieces : List (List Code)) : Emits plan n n [] st (joinPieces s pieces) := by
  cases pieces with
  | nil => exact (emits_strConst []).leafBind fun _ _ _ => .pure
  | cons => exact .pure

theorem emits_stringParts (s : Site) : Emits plan n n [] st (stringParts s) :=
  (emits_newLocal s .i32).leafBind fun _ _ _ => .pure

/-! ## Calls -/

theorem emits_targetIndex (hplan : s.plan.Complete) (hsig : s.plan.symbols.function? sig.name = some sig) :
    Emits plan n n [] st (targetIndex s (Check.directTarget sig)) := by
  unfold Check.directTarget
  split
  · next hkind =>
    obtain ⟨i, hi⟩ := hplan.user sig hsig hkind
    exact .orDefect hi
  · next hkind =>
    obtain ⟨i, hi⟩ := hplan.external sig hsig hkind
    exact .orDefect hi
  · exact .pure

theorem emits_methodIndex (hplan : s.plan.Complete) {struct : String} {slot : Nat}
    {shape : StructShape} {m : MethodSig} (hshape : s.plan.symbols.struct? struct = some shape)
    (hm : shape.methods[slot]? = some m) : Emits plan n n [] st (targetIndex s (.static struct slot)) := by
  obtain ⟨i, hi⟩ := hplan.method struct shape slot m hshape hm
  exact .orDefect hi

/-! ## Patterns -/

/-- A pattern declares its variable. -/
theorem emits_pattern {p : Typed.Pattern} (h : p.Fits t n ty) :
    ∀ (value : Nat) (st : State), Emits plan n (n + p.binder?.toList.length) [] st (pattern s value p) := by
  induction h with
  | wildcard | float | bool | tag => exact fun _ _ => .pure
  | bind => exact fun _ _ => emits_declareLocal s _ rfl fun _ _ _ _ => .pure
  | @int literal kind =>
    obtain ⟨ne, hne⟩ : ∃ ne, numericOp? .ne (.int kind) = some ne := ⟨_, rfl⟩
    exact fun _ _ => (Emits.orDefect hne).leafBind fun _ _ _ => .pure
  | intAsFloat =>
    obtain ⟨ne, hne⟩ : ∃ ne, numericOp? .ne .float = some ne := ⟨_, rfl⟩
    exact fun _ _ => (Emits.orDefect hne).leafBind fun _ _ _ => .pure
  | str => exact fun _ _ => (emits_strConst _).leafBind fun _ _ _ => .pure
  | variant _ _ ih =>
    intro value st
    exact (emits_newLocal s _).leafBind fun payload st₁ _ => (ih payload st₁).bindLeaf fun _ _ _ => .pure

/-- The variable of a pattern has a place. -/
theorem place_of_pattern {p : Typed.Pattern} (h : p.Fits t n ty) :
    ∀ {value : Nat} {st st' : State} {ops : List Op}, (pattern s value p).run st = .ok (ops, st') →
      ∀ v ∈ p.binder?.toList, ∃ i, st'.places.lookup v.id = some i := by
  induction h with
  | @bind name ty =>
    intro value st st' ops hrun v hv
    obtain rfl : v = ⟨n, name, ty, false⟩ := by simpa [Typed.Pattern.binder?] using hv
    rw [pattern, run_declareLocal, run_pure_eq_ok] at hrun
    obtain ⟨-, rfl⟩ := hrun
    exact ⟨_, List.lookup_cons_self ..⟩
  | variant _ _ ih =>
    intro value st st' ops hrun v hv
    simp only [pattern, run_bind_eq_ok, run_pure_eq_ok] at hrun
    obtain ⟨payload, st₁, -, inner, st₂, hinner, -, rfl⟩ := hrun
    exact ih hinner v (by simpa [Typed.Pattern.binder?] using hv)
  | wildcard | int | intAsFloat | float | bool | str | tag =>
    intro value st st' ops hrun v hv
    simp [Typed.Pattern.binder?] at hv

/-! ## Objects -/

theorem emits_alloc (s : Site) (size : Nat) : Emits plan n n [] st (alloc s size) :=
  (emits_newLocal s .i32).leafBind fun _ _ _ => .pure

theorem emits_template (s : Site) (words : List Layout.Word) (size : Nat) :
    Emits plan n n [] st (template s words size) :=
  (emits_wordsConst words).leafBind fun _ _ _ => (emits_alloc s size).leafBind fun _ _ _ => .pure

theorem emits_taggedOnly (s : Site) (tag : Nat) : Emits plan n n [] st (tagged s tag none) :=
  (emits_alloc s _).leafBind fun _ _ _ => Emits.pure.leafBind fun _ _ _ => .pure

theorem emits_tagged (s : Site) (tag : Nat) {x : Emit (List Code)}
    (hx : ∀ st₁, Grows plan n n [] st st₁ → Emits plan n n' es st₁ x) :
    Emits plan n n' es st (tagged s tag (some (ty, x))) :=
  (emits_alloc s _).leafBind fun _ st₁ hg => (hx st₁ hg).map.bindLeaf fun _ _ _ => .pure

/-- Every captured variable can be read. -/
theorem emits_captureAll (env : Nat) : ∀ {vs : List Variable} {st : State} (slot : Nat),
    Ready s Γ n st → (∀ v ∈ vs, ∃ name, Γ.scopes.find? name = some v) → Covers s Γ vs →
      Emits plan n n [] st (captureAll s env slot vs)
  | [], _, _, _, _, _ => .pure
  | v :: vs, _, slot, hready, hvisible, hcovers => by
    obtain ⟨name, hv⟩ := hvisible v (List.mem_cons_self ..)
    have hcovers' : Covers s Γ ([v] ++ vs) := hcovers
    refine (emits_readVariable hready hv hcovers'.left).leafBind fun value st₁ hg => ?_
    have hrest := emits_captureAll env (slot + 1) (hready.after hg)
      (fun w hw => hvisible w (List.mem_cons_of_mem _ hw)) hcovers'.right
    exact hrest.leafBind fun _ _ _ => .pure

theorem emits_closure (hready : Ready s Γ n st)
    (hvisible : ∀ v ∈ vs, ∃ name, Γ.scopes.find? name = some v) (hcovers : Covers s Γ vs) (slot : Nat) :
    Emits plan n n [] st (closure s slot vs) := by
  simp only [closure, pure_bind]
  split
  · exact (emits_alloc s _).leafBind fun _ _ _ => .pure
  · refine (emits_alloc s _).leafBind fun a st₁ hg => ?_
    refine (emits_captureAll a.1 0 (hready.after hg) hvisible hcovers).leafBind fun _ _ _ => ?_
    exact (emits_alloc s _).leafBind fun _ _ _ => .pure

/-! ## Places -/

theorem emits_storeAssigned (s : Site) (ty : Ty) (p : Place) : Emits plan n n [] st (storeAssigned s ty p) := by
  unfold storeAssigned
  split
  · exact (emits_newLocal s _).leafBind fun _ _ _ => .pure
  · exact .pure

theorem emits_pushOps (s : Site) (p : Place) (item : Nat) (kind : MemKind) :
    Emits plan n n [] st (pushOps s p item kind) :=
  (emits_newLocal s .i32).leafBind fun _ _ _ => .pure

/-- The address of an element of a value that has some. -/
theorem emits_elementAddress {objectTy positionTy elem : Ty} {object position : Emit (List Code)}
    (helem : objectTy.element? = some elem) (hobject : Emits plan n n₁ es st object)
    (hposition : ∀ st₁, Grows plan n n₁ es st st₁ → Emits plan n₁ n' fs st₁ position) :
    Emits plan n n' (es ++ fs) st (elementAddress s objectTy positionTy object position) := by
  refine hobject.bind fun objectCode st₁ hg₁ => (emits_newLocal s .i32).leafBind fun base st₂ hg₂ => ?_
  have hg : Grows plan n n₁ es st st₂ := by simpa using hg₁.trans hg₂
  refine (hposition st₂ hg).bindLeaf fun _ _ _ => (emits_newLocal s .i32).leafBind fun i st₄ _ => ?_
  cases objectTy with
  | array | bytes => exact .pure
  | _ => cases helem

/-! ## Control -/

theorem emits_tryCode (s : Site) (ty : Ty) (operand : List Code) : Emits plan n n [] st (tryCode s ty operand) :=
  (emits_newLocal s .i32).leafBind fun _ _ _ => (emits_returnOps s).leafBind fun _ _ _ => .pure

theorem emits_forLoop {elem : Ty} {iterable body : Emit (List Code)} (hv : v.id = n₁)
    (hiterable : Emits plan n n₁ es st iterable) (hbody : ∀ st₁ i, Grows plan n (n₁ + 1) es st st₁ →
      st₁.places.lookup v.id = some i → Emits plan (n₁ + 1) n' fs st₁ body) :
    Emits plan n n' (es ++ fs) st (forLoop s (.array elem) v iterable body) := by
  refine hiterable.bind fun arrayCode st₁ hg₁ => (emits_newLocal s .i32).leafBind fun array st₂ hg₂ => ?_
  refine (emits_newLocal s .i32).leafBind fun len st₃ hg₃ => (emits_newLocal s .i32).leafBind fun i st₄ hg₄ => ?_
  refine emits_declareLocal s _ hv fun item st₅ hg₅ hplace => ?_
  have hg : Grows plan n (n₁ + 1) es st st₅ := by
    simpa using (((hg₁.trans hg₂).trans hg₃).trans hg₄).trans hg₅
  exact (hbody st₅ item hg hplace).bindLeaf fun _ _ _ => .pure

/-- The capacity of an array literal, unless the literal is too large. -/
theorem emits_literalCapacity (id : Nat) (ty : Ty) (elements : List Typed.Expr) :
    Emits s.plan n n [⟨id, ty, .array elements⟩] st (literalCapacity s elements.length) := by
  simp only [literalCapacity]
  split
  · next hfits =>
    refine Emits.pure.cons ⟨fun es hes => ?_, rfl⟩
    cases hes
    exact hfits
  · next hbig =>
    exact yields_throw ⟨rfl, _, List.mem_singleton_self _, fun hfits => hbig (hfits elements rfl)⟩

end Emit

end StackScript
