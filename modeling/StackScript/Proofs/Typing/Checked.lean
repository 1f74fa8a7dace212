import StackScript.Proofs.Typing.Lexical
import StackScript.Proofs.Typing.Rules
import StackScript.Proofs.Typing.Spans

/-!
# What checking gives

A type error is at a place of the tree that was checked, or covers two of them.  A checked tree is derivable by the
typing rules, and all its names stand for what lexical scope says.

## Design Notes

As for reading a program, a good place is left open.

Every helper of the checker has one lemma that says what it gives; the induction on trees uses these lemmas only.
A number literal may be checked after the operand on its right.  It declares no variable, so the rules, which go
from left to right, hold of it in front of that operand as well.
-/

namespace StackScript

open Judgement

/-! ## Looking up declarations -/

/-- A search that counts from a number on gives the place of what it finds. -/
theorem getElem?_of_search {α β : Type} {s : Nat → List α → Option (Nat × β)} {P : α → β → Prop}
    (nil : ∀ i, s i [] = none)
    (cons : ∀ {i a as place b}, s i (a :: as) = some (place, b) → (i = place ∧ P a b) ∨ s (i + 1) as = some (place, b)) :
    ∀ {as : List α} {i place : Nat} {b : β}, s i as = some (place, b) → i ≤ place ∧ ∃ a, as[place - i]? = some a ∧ P a b
  | [], i, _, _, h => absurd ((nil i).symm.trans h) nofun
  | a :: _, i, place, _, h => by
    obtain ⟨rfl, ha⟩ | h := cons h
    · exact ⟨Nat.le_refl _, a, by simp, ha⟩
    · obtain ⟨hle, hget⟩ := getElem?_of_search nil cons h
      have hplace : place - i = (place - (i + 1)) + 1 := by omega
      exact ⟨by omega, by rwa [hplace, List.getElem?_cons_succ]⟩

section

variable {name : String} {place : Nat}

theorem EnumShape.getElem?_of_variantFrom {vs : List VariantShape} {v : VariantShape}
    (h : variantFrom name 0 vs = some (place, v)) : vs[place]? = some v := by
  obtain ⟨-, _, hget, rfl⟩ := getElem?_of_search (P := Eq) (fun _ => rfl) (by grind [variantFrom]) h
  exact hget

theorem StructShape.getElem?_of_methodFrom {ms : List MethodSig} {m : MethodSig}
    (h : methodFrom name 0 ms = some (place, m)) : ms[place]? = some m := by
  obtain ⟨-, _, hget, rfl⟩ := getElem?_of_search (P := Eq) (fun _ => rfl) (by grind [methodFrom]) h
  exact hget

theorem StructShape.getElem?_of_fieldFrom {fs : List (String × Ty)} {ty : Ty}
    (h : fieldFrom name 0 fs = some (place, ty)) : fs[place]? = some (name, ty) := by
  obtain ⟨-, _, hget, rfl⟩ := getElem?_of_search (P := fun f ty => f = (name, ty)) (fun _ => rfl) (by grind [fieldFrom]) h
  exact hget

end

variable {ty : Ty}

namespace SymbolTable

variable {t : SymbolTable} {name : String} {tag : Nat} {span : Span}

theorem payload?_of_variant? {e : String} {shape : EnumShape}
    {v : VariantShape} (he : t.enum? e = some shape) (hv : shape.variant? name = some (tag, v)) :
    t.payload? (.enum e) tag = some v.payload := by
  simp [payload?, he, EnumShape.getElem?_of_variantFrom hv]

/-! ## Patterns -/

theorem literalPattern_eq_ok {given : Given} {wanted : Ty} {p q : Typed.Pattern} :
    literalPattern (ty = wanted) given ty span p = .ok q ↔ ty = wanted ∧ p = q := by
  unfold literalPattern
  split <;> simp_all

theorem payload?_of_variantOf {qualifier : Option String}
    {payload : Option Ty} (h : t.variantOf qualifier name ty span = .ok (tag, payload)) :
    t.payload? ty tag = some payload := by
  have ofEnum {e : String} (h : variantOf.enumVariant t name span e = .ok (tag, payload)) :
      t.payload? (.enum e) tag = some payload := by
    unfold variantOf.enumVariant at h
    split at h
    · next hv =>
      obtain ⟨rfl, rfl⟩ := Prod.mk.inj (Except.ok.inj h)
      obtain ⟨shape, hs, hv⟩ := Option.bind_eq_some_iff.mp hv
      exact payload?_of_variant? hs hv
    · cases h
  unfold variantOf at h
  split at h
  · split at h
    · cases h; rfl
    · split at h <;> cases h
      rfl
  · split at h
    · split at h
      · cases h
      · exact ofEnum h
    · exact ofEnum h
  · cases h

/-- **A checked pattern fits the type of the matched value.** -/
theorem pattern_fits {id : Nat} :
    ∀ (p : Pattern) {ty : Ty} {q : Typed.Pattern}, t.pattern id p ty = .ok q → q.Fits t id ty
  | ⟨.wildcard, _⟩, _, _, h => by
    simp only [pattern, Except.ok.injEq] at h
    exact h ▸ .wildcard
  | ⟨.binding _, _⟩, _, _, h => by
    unfold pattern at h
    split at h
    · next tag v hv =>
      cases h
      unfold variant? at hv
      split at hv
      · obtain ⟨shape, hs, hv⟩ := Option.bind_eq_some_iff.mp hv
        exact .tag (payload?_of_variant? hs hv)
      · cases hv
    · cases h
      exact .bind
  | ⟨.int _, _⟩, _, _, h => by
    unfold pattern at h
    split at h
    · split at h
      · next hc => cases h; exact .int hc
      · cases h
    · obtain ⟨rfl, rfl⟩ := literalPattern_eq_ok.mp h
      exact .intAsFloat
  | ⟨.float _, _⟩, _, _, h => by
    obtain ⟨rfl, rfl⟩ := literalPattern_eq_ok.mp h
    exact .float
  | ⟨.bool _, _⟩, _, _, h => by
    obtain ⟨rfl, rfl⟩ := literalPattern_eq_ok.mp h
    exact .bool
  | ⟨.str _, _⟩, _, _, h => by
    obtain ⟨rfl, rfl⟩ := literalPattern_eq_ok.mp h
    exact .str
  | ⟨.variant qualifier name none, span⟩, ty, q, h => by
    simp only [pattern, except_bind_eq_ok, except_pure_eq_ok] at h
    obtain ⟨⟨tag, payload⟩, hv, rfl⟩ := h
    exact .tag (payload?_of_variantOf hv)
  | ⟨.variant _ _ (some inner), _⟩, _, _, h => by
    simp only [pattern, except_bind_eq_ok] at h
    obtain ⟨⟨tag, payload⟩, hv, h⟩ := h
    split at h
    · next payloadTy heq =>
      obtain rfl : payload = some payloadTy := heq
      simp only [except_bind_eq_ok, except_pure_eq_ok] at h
      obtain ⟨p, hp, rfl⟩ := h
      exact .variant (payload?_of_variantOf hv) (pattern_fits inner hp)
    · cases h

end SymbolTable

/-! ## Contexts -/

namespace Context

@[simp] theorem bindAll_cons (Γ : Context) (v : Variable) (vs : List Variable) :
    Γ.bindAll (v :: vs) = (Γ.bind v).bindAll vs := rfl

@[simp] theorem bindAll_first (Γ : Context) (vs : List Variable) : (Γ.bindAll vs).first = Γ.first := by
  induction vs generalizing Γ with
  | nil => rfl
  | cons v vs ih => rw [bindAll_cons, ih]; rfl

end Context

/-! ## Checking steps -/

theorem Context.Shows.bindAll {t : SymbolTable} {ρ : Env} {Γ : Context} {vs : List Variable} (h : Γ.Shows t ρ) :
    (Γ.bindAll vs).Shows t (ρ.bindAll vs) := by
  induction vs generalizing Γ ρ with
  | nil => exact h
  | cons v vs ih => exact ih (h.bind v)

variable {expected : Option Ty}

namespace Check

variable {P : Span → Prop} {α β : Type} {n : Nat}

/-- A checking step that fails only at good places, and gives what has `V`. -/
abbrev Gives (P : Span → Prop) (n : Nat) (x : Check α) (V : α → Nat → Prop) : Prop :=
  Yields x n (fun e => P e.span) V

/-- A checking step that declares nothing. -/
def Answers (P : Span → Prop) (x : Check α) (V : α → Prop) : Prop :=
  ∀ n, Gives P n x fun a n' => n = n' ∧ V a

section

variable {x : Check α} {f : α → Check β} {V : α → Prop} {W : β → Nat → Prop}

theorem Gives.bind {V : α → Nat → Prop} (hx : Gives P n x V) (hf : ∀ a n', V a n' → Gives P n' (f a) W) :
    Gives P n (x >>= f) W :=
  yields_bind (hx.mono (fun _ => id) hf)

theorem Answers.bind (hx : Answers P x V) (hf : ∀ a, V a → Gives P n (f a) W) : Gives P n (x >>= f) W :=
  yields_bind ((hx n).mono (fun _ => id) fun a _ h => h.1 ▸ hf a h.2)

theorem Answers.gives {W : α → Nat → Prop} (hx : Answers P x V) (h : ∀ a, V a → W a n) : Gives P n x W :=
  (hx n).mono (fun _ => id) fun a _ ha => ha.1 ▸ h a ha.2

theorem Gives.placed {V : α → Nat → Prop} (h : Gives P n x V) : Placed P (x.run n) := by
  intro e he
  rwa [Gives, Yields, he] at h

variable {fault : TypeFault}

variable {span : Span} {c : Prop} {a : α}

theorem gives_fail {V : α → Nat → Prop} (h : P span) : Gives P n (fail fault span) V :=
  h

theorem gives_guard [Decidable c] {V : α → Nat → Prop}
    (hx : c → Gives P n x V) (h : P span) : Gives P n (if c then x else fail fault span) V := by
  split
  next hc => exact hx hc
  next => exact gives_fail h

theorem answers_pure (h : V a) : Answers P (pure a) V := fun _ => ⟨rfl, h⟩

theorem answers_fail (h : P span) : Answers P (fail fault span) V :=
  fun _ => h

theorem answers_guard [Decidable c] (h : P span) (ha : c → V a) :
    Answers P (if c then pure a else fail fault span) V :=
  fun _ => gives_guard (fun hc => answers_pure (ha hc) _) h

theorem answers_lift {x : Except TypeError α} (h : Placed P x) : Answers P (liftM x : Check α) fun a => x = .ok a := by
  intro n
  cases x with
  | ok a => exact ⟨rfl, rfl⟩
  | error e => exact h e rfl

/-- An expression that fits the wanted type is handed on. -/
theorem Gives.require_bind {wanted : Ty} {e : Typed.Expr} {f : Typed.Expr → Check β} (h : P span)
    (hf : wanted.accepts e.ty = true → Gives P n (f e) W) : Gives P n (require wanted e span >>= f) W := by
  refine yields_bind (gives_guard (fun hty => ?_) h)
  exact hf hty

end

variable {Γ : Context} {span : Span} {t : SymbolTable} {ρ : Env}

theorem gives_declare {name : String} {isConst : Bool} :
    Gives P n (declare name ty isConst) fun v n' => v = ⟨n, name, ty, isConst⟩ ∧ n' = n + 1 :=
  ⟨rfl, rfl⟩

theorem gives_declareParams : ∀ {ps : List Param} {tys : List Ty} {Γ : Context} {n : Nat},
    Gives P n (declareParams Γ ps tys) fun r n' => r.2 = Γ.bindAll r.1 ∧ Variable.NumberedFrom n r.1 ∧
      n' = n + r.1.length ∧ (tys.length = ps.length → r.1.map (·.name) = ps.map (·.name) ∧ r.1.map (·.ty) = tys)
  | [], [], _, _ => ⟨rfl, rfl, rfl, fun _ => ⟨rfl, rfl⟩⟩
  | [], _ :: _, _, _ => ⟨rfl, rfl, rfl, nofun⟩
  | _ :: _, [], _, _ => ⟨rfl, rfl, rfl, nofun⟩
  | _ :: _, _ :: _, _, _ => by
    refine gives_declare.bind fun v n₁ hv => ?_
    obtain ⟨rfl, rfl⟩ := hv
    refine gives_declareParams.bind fun r n' hr => ?_
    obtain ⟨vs, Γ'⟩ := r
    obtain ⟨hΓ, hnum, hn, htys⟩ := hr
    refine yields_pure ⟨hΓ, ?_, by simp at hn ⊢; omega, fun hlen => ?_⟩
    · unfold Variable.NumberedFrom at hnum ⊢
      simp_all [List.range'_succ]
    · obtain ⟨hnames, htys⟩ := htys (Nat.succ.inj hlen)
      simp_all

theorem answers_requireCount {name : String} {params : List Ty} {args : List Expr} (h : P span) :
    Answers P (requireCount name params args span) fun _ => params.length = args.length :=
  answers_guard h id

variable {ret object : Ty} {value id : Nat} {op : BinaryOp} {x q : String}

theorem answers_requireReturn {name : String} {returns : Bool} (h : P span) :
    Answers P (requireReturn name ret returns span) fun _ => ret = .void ∨ returns = true :=
  answers_guard h (by simp)

theorem literalTy_eq_float (h : ∀ kind, literalTy expected ≠ .int kind) : literalTy expected = .float := by
  unfold literalTy at h ⊢
  split at h
  · rfl
  · exact (h _ rfl).elim
  · exact (h _ rfl).elim

theorem answers_intLiteral (h : P span) :
    Answers P (intLiteral value expected span) fun ty => ty.HoldsLiteral value := by
  unfold intLiteral
  split
  next kind _ => exact answers_guard h fun hc => .inr ⟨kind, rfl, hc⟩
  next hne => exact answers_pure (.inl (literalTy_eq_float hne))

theorem answers_negatedLiteral (h : P span) :
    Answers P (negatedLiteral value expected span) fun ty => ty.HoldsLiteral (-value) ∧ ty.Negatable := by
  unfold negatedLiteral
  split
  next kind _ =>
    split
    · exact answers_fail h
    next hs => exact answers_guard h fun hc => ⟨.inr ⟨kind, rfl, hc⟩, .int (by simpa using hs)⟩
  next hne =>
    rw [literalTy_eq_float hne]
    exact answers_pure ⟨.inl rfl, .float⟩

theorem answers_negated (h : P span) : Answers P (negated ty span) fun ty' => ty = ty' ∧ ty.Negatable := by
  unfold negated
  split
  · exact answers_pure ⟨rfl, .float⟩
  · exact answers_guard h fun hs => ⟨rfl, .int hs⟩
  · exact answers_fail h

theorem answers_arithmetic (h : P span) : Answers P (arithmetic op ty span) fun ty' => ty = ty' ∧ op.Computes ty := by
  refine answers_guard h fun hf => ⟨rfl, ?_⟩
  cases op <;> simp only [Bool.or_eq_true, decide_eq_true_eq, Bool.false_eq_true] at hf
  · exact .add hf
  · exact .arith (.inl rfl) hf
  · exact .arith (.inr (.inl rfl)) hf
  · exact .arith (.inr (.inr rfl)) hf
  · exact .rem hf

theorem answers_binaryResult (h : P span) : Answers P (binaryResult op ty span) fun ty' => op.Gives ty ty' := by
  have harith : Answers P (arithmetic op ty span) fun ty' => op.Gives ty ty' := fun n =>
    (answers_arithmetic h).gives fun ty' hty => ⟨rfl, hty.1 ▸ .value hty.2⟩
  cases op with
  | eq => exact answers_guard h fun hp => .truth (.equality (.inl rfl) hp)
  | ne => exact answers_guard h fun hp => .truth (.equality (.inr rfl) hp)
  | lt => exact answers_guard h fun hp => .truth (.order (.inl rfl) hp)
  | le => exact answers_guard h fun hp => .truth (.order (.inr (.inl rfl)) hp)
  | gt => exact answers_guard h fun hp => .truth (.order (.inr (.inr (.inl rfl))) hp)
  | ge => exact answers_guard h fun hp => .truth (.order (.inr (.inr (.inr rfl))) hp)
  | add | sub | mul | div | rem | and | or => exact harith

theorem answers_name (hΓ : Γ.Shows t ρ) (h : P span) : Answers P (name Γ id x span) fun u =>
      Lexical t (.expr ρ ⟨id, .ident x, span⟩ u) ∧ ∀ n, Derivable (.expr Γ n u n) := by
  have hfind := hΓ.find x
  unfold name
  split
  next v hv =>
    refine answers_pure ⟨.bound (hfind ▸ hv) (by split <;> simp), fun n => ?_⟩
    split
    next hle => exact .local_ hv hle
    next hlt => exact .captured hv (Nat.lt_of_not_le hlt)
  next hnone =>
    split
    next sig hsig =>
      split
      · exact answers_fail h
      next hkind =>
        exact answers_pure ⟨.function (hfind ▸ hnone) (hΓ.symbols ▸ hsig) hkind, fun n => .function hsig hkind⟩
    · exact answers_fail h

theorem answers_path (h : P span) : Answers P (path Γ id q x span) fun u =>
    Lexical t (.expr ρ ⟨id, .path q x, span⟩ u) ∧ ∀ n, Derivable (.expr Γ n u n) := by
  unfold path
  split
  next shape hs =>
    split
    next tag v hv =>
      split
      · exact answers_fail h
      next hp =>
        have hnone : v.payload = none := by simpa using hp
        exact answers_pure ⟨.node rfl rfl .exprsNil, fun n => .unit (hnone ▸ SymbolTable.payload?_of_variant? hs hv)⟩
    · exact answers_fail h
  · split <;> exact answers_fail h

/-- What the sort of a callee says about it. -/
theorem callee_cases (Γ : Context) (f : Expr) :
    (∃ id n span, f = ⟨id, .ident n, span⟩ ∧ Γ.scopes.find? n = none ∧ callee Γ f = .direct n) ∨
      (∃ id q n span, f = ⟨id, .path q n, span⟩ ∧ callee Γ f = .path q n) ∨
      callee Γ f = .value ∧ ∀ as, (ExprForm.call f as).parts? = some (f :: as) := by
  obtain ⟨id, form, span⟩ := f
  cases form with
  | ident n =>
    cases hfind : Γ.scopes.find? n with
    | none => exact .inl ⟨id, n, span, rfl, hfind, by simp [callee, hfind]⟩
    | some v => exact .inr (.inr ⟨by simp [callee, hfind], fun _ => rfl⟩)
  | path q n => exact .inr (.inl ⟨id, q, n, span, rfl, rfl⟩)
  | _ => exact .inr (.inr ⟨rfl, fun _ => rfl⟩)

theorem answers_requireAssignable {u : Typed.Expr} (h : P span) :
    Answers P (requireAssignable u span) fun _ => u.form.Assignable := by
  unfold requireAssignable
  split
  next v hf =>
    rw [hf]
    split
    · exact answers_fail h
    next hc => exact answers_pure (.local_ (by simpa using hc))
  · exact answers_fail h
  · exact answers_fail h
  next hf => exact answers_pure (hf ▸ .field)
  next hf => exact answers_pure (hf ▸ .index)
  · exact answers_fail h

/-- What the symbols say about a path in front of arguments. -/
def PathCallee.Declared (t : SymbolTable) (q : String) : PathCallee → Prop
  | .variant tag payload => t.payload? (.enum q) tag = some payload
  | .method slot sig => ∃ shape m, t.struct? q = some shape ∧ shape.methods[slot]? = some m ∧
      m.hasSelf = false ∧ m.sig = sig

theorem answers_pathCallee (h : P span) : Answers P (pathCallee Γ q x span) (PathCallee.Declared Γ.symbols q) := by
  unfold pathCallee
  split
  next shape hs =>
    split
    next tag v hv => exact answers_pure (SymbolTable.payload?_of_variant? hs hv)
    · exact answers_fail h
  · split
    next shape hs =>
      split
      next slot m hm =>
        split
        · exact answers_fail h
        next hself =>
          exact answers_pure ⟨shape, m, hs, StructShape.getElem?_of_methodFrom hm, by simpa using hself, rfl⟩
      · exact answers_fail h
    · exact answers_fail h

/-- What the symbols and the type of the receiver say about a method of a value. -/
def Method.Declared (t : SymbolTable) (receiver : Ty) : Method → Prop
  | .user struct slot sig => receiver = .struct struct ∧ ∃ shape m,
      t.struct? struct = some shape ∧ shape.methods[slot]? = some m ∧ m.hasSelf = true ∧ m.sig = sig
  | .push elem => receiver = .array elem
  | .pop elem => receiver = .array elem
  | .arrayLength => ∃ elem, receiver = .array elem
  | .byteLength => receiver = .str ∨ receiver = .bytes

theorem answers_method {receiver : Ty} (h : P span) :
    Answers P (method Γ receiver x span) (Method.Declared Γ.symbols receiver) := by
  unfold method
  dsimp only
  split
  · split
    next slot m hm =>
      obtain ⟨shape, hs, hm⟩ := Option.bind_eq_some_iff.mp hm
      exact answers_guard h fun hself => ⟨rfl, shape, m, hs, StructShape.getElem?_of_methodFrom hm, hself, rfl⟩
    · exact answers_fail h
  next elem =>
    split
    · exact answers_pure rfl
    · exact answers_pure rfl
    · exact answers_pure ⟨elem, rfl⟩
    · exact answers_fail h
  · exact answers_guard h fun _ => .inl rfl
  · exact answers_guard h fun _ => .inr rfl
  · exact answers_fail h

theorem answers_field (h : P span) : Answers P (field Γ object x span) fun f =>
    ∃ struct shape, object = .struct struct ∧ Γ.symbols.struct? struct = some shape ∧
      shape.fields[f.1]? = some (x, f.2) := by
  unfold field
  split
  next struct =>
    split
    next f hf =>
      obtain ⟨shape, hs, hf⟩ := Option.bind_eq_some_iff.mp hf
      exact answers_pure ⟨struct, shape, rfl, hs, StructShape.getElem?_of_fieldFrom hf⟩
    · exact answers_fail h
  · exact answers_fail h

theorem answers_element (h : P span) : Answers P (element object span) fun ty => object.element? = some ty := by
  unfold element
  split
  · exact answers_pure rfl
  · exact answers_pure rfl
  · exact answers_fail h

theorem answers_tryResult {operand : Ty} (h : P span) : Answers P (tryResult operand ret span) fun ty =>
    ∃ err ok, operand = .result ty err ∧ ret = .result ok err := by
  unfold tryResult
  split
  · split
    · exact answers_guard h fun heq => ⟨_, _, rfl, by rw [heq]⟩
    · exact answers_fail h
  · exact answers_fail h

theorem gives_lambdaHead {params : List Param} {ret : Option TypeExpr}
    (hparams : ∀ p ∈ params, AllGood P p.spans) (hret : ∀ e ∈ ret, AllGood P e.spans) :
    Gives P n (lambdaHead Γ params ret expected) fun head n' =>
      head.context = (Γ.function n (head.hint.getD .void)).bindAll head.params ∧
        Variable.NumberedFrom n head.params ∧ n' = n + head.params.length ∧
        (head.params.map (·.name) = params.map (·.name) ∧ head.params.map (·.ty) = head.paramTys) ∧
          ∀ ty, head.declared = some ty → head.hint = some ty := by
  refine (answers_lift (SymbolTable.placed_resolveParams hparams)).bind fun tys htys => ?_
  refine (answers_lift (SymbolTable.placed_resolve? hret)).bind fun declared _ => yields_bind (yields_get ?_)
  refine gives_declareParams.bind fun r n' hr => ?_
  obtain ⟨vs, Γ'⟩ := r
  obtain ⟨hΓ, hnum, hn, hlen⟩ := hr
  refine yields_pure ⟨hΓ, hnum, hn, hlen (by rw [SymbolTable.resolveAll_length htys, List.length_map]), ?_⟩
  rintro ty rfl
  rfl

theorem answers_lambdaResult {declared hint : Option Ty} (h : P span)
    (hhint : ∀ ty, declared = some ty → hint = some ty) :
    Answers P (lambdaResult declared ty span) (LiteralResult (hint.getD .void) ty) := by
  unfold lambdaResult
  split
  next d =>
    rw [hhint d rfl]
    exact answers_guard h .declared
  · exact answers_pure .inferred

/-- The type of the arms so far does not change any more once there is one, and it accepts the new
arm. -/
theorem answers_joinArm {result : Option Ty} (h : P span) : Answers P (joinArm result ty span) fun result' =>
    (∀ r, result = some r → result' = some r) ∧ (∀ r, result' = some r → r.accepts ty = true) ∧
      (result' = none → ty = .never) := by
  unfold joinArm
  split
  · refine answers_pure ⟨nofun, ?_⟩
    split
    next hn => exact ⟨nofun, fun _ => hn⟩
    · exact ⟨fun r hr => by simp [← Option.some.inj hr, Ty.accepts], nofun⟩
  · exact answers_guard h fun hacc => ⟨fun _ => id, fun _ hr => Option.some.inj hr ▸ hacc, nofun⟩

/-- A number literal declares no variable, and is well typed wherever it stands. -/
theorem answers_numericLiteral : ∀ (e : Expr) {expected : Option Ty}, isNumericLiteral e = true →
    Answers (fun _ => True) (expr Γ expected e) fun u => ∀ n, Derivable (.expr Γ n u n)
  | ⟨_, .int _, _⟩, _, _ => by
    rw [expr]
    exact fun k => (answers_intLiteral trivial).bind fun _ hr => ⟨rfl, fun n => .int hr⟩
  | ⟨_, .float _, _⟩, _, _ => by
    rw [expr]
    exact answers_pure fun n => .float
  | ⟨_, .unary .neg ⟨_, .int _, _⟩, _⟩, _, _ => by
    rw [expr]
    exact fun k => (answers_negatedLiteral trivial).bind fun _ hr => ⟨rfl, fun n => .negLiteral hr.1 hr.2⟩
  | ⟨_, .unary .neg ⟨_, .float _, _⟩, _⟩, _, _ => by
    simp only [expr]
    refine fun k => (answers_pure (V := fun u => ∀ n, Derivable (.expr Γ n u n)) fun n => .float).bind fun u hu => ?_
    exact (answers_negated trivial).bind fun ty hty => ⟨rfl, fun n => hty.1 ▸ .neg (hu n) hty.2⟩
  | ⟨_, .unary .neg ⟨litId, .unary .neg e, span⟩, _⟩, _, hl => by
    rw [expr]
    · refine fun k => (answers_numericLiteral ⟨litId, .unary .neg e, span⟩ hl).bind fun u hu => ?_
      exact (answers_negated trivial).bind fun ty hty => ⟨rfl, fun n => hty.1 ▸ .neg (hu n) hty.2⟩
    · nofun

/-! ## Trees -/

section

variable (merge : ∀ {a b : Span}, P a → P b → P (a.merge b))

include merge

set_option linter.unusedSectionVars false in
mutual

/-- **A type error in an expression is at a place of the expression.  Otherwise the expression is well typed, and
names have their lexical meaning.** -/
theorem gives_expr : ∀ (e : Expr) {Γ : Context} {ρ : Env} {expected : Option Ty} {n : Nat}, AllGood P e.spans →
    Γ.Shows t ρ → Gives P n (expr Γ expected e) fun u n' => Lexical t (.expr ρ e u) ∧ Derivable (.expr Γ n u n')
  | ⟨_, .int _, _⟩, _, _, _, _, h, _ => by
    rw [expr]
    exact (answers_intLiteral (allGood_cons.1 h).1).bind fun _ hr => ⟨.node rfl rfl .exprsNil, .int hr⟩
  | ⟨_, .float _, _⟩, _, _, _, _, h, _ => by rw [expr]; exact ⟨.node rfl rfl .exprsNil, .float⟩
  | ⟨_, .bool _, _⟩, _, _, _, _, h, _ => by rw [expr]; exact ⟨.node rfl rfl .exprsNil, .bool⟩
  | ⟨_, .str _, _⟩, _, _, _, _, h, _ => by rw [expr]; exact ⟨.node rfl rfl .exprsNil, .str⟩
  | ⟨_, .bytes _, _⟩, _, _, _, _, h, _ => by rw [expr]; exact ⟨.node rfl rfl .exprsNil, .bytes⟩
  | ⟨_, .interp ps, _⟩, _, _, _, _, h, hΓ => by
    replace h := allGood_cons.1 h
    rw [expr]
    exact (gives_parts ps h.2 hΓ).bind fun us _ hus => ⟨.node rfl rfl hus.1, .interp hus.2⟩
  | ⟨_, .ident _, _⟩, _, _, _, n, h, hΓ => by
    rw [expr]
    exact (answers_name hΓ (allGood_cons.1 h).1).gives fun _ hu => ⟨hu.1, hu.2 n⟩
  | ⟨_, .path _ _, _⟩, _, _, _, n, h, _ => by
    rw [expr]
    exact (answers_path (allGood_cons.1 h).1).gives fun _ hu => ⟨hu.1, hu.2 n⟩
  | ⟨id, .binary op lhs rhs, span⟩, _, ρ, _, n, h, hΓ => by
    obtain ⟨-, hl, hr⟩ := allGood_node.1 h
    have hboth : P (lhs.span.merge rhs.span) := merge (Expr.span_good hl) (Expr.span_good hr)
    have hdone {l r : Typed.Expr} {ty : Ty} (hl : Lexical t (.expr ρ lhs l)) (hr : Lexical t (.expr ρ rhs r)) :
        Lexical t (.expr ρ ⟨id, .binary op lhs rhs, span⟩ ⟨id, ty, .binary op l r⟩) :=
      .node rfl rfl (.exprsCons hl (.exprsCons hr .exprsNil))
    rw [expr]
    split
    next hop =>
      refine (gives_expr lhs hl hΓ).bind fun l _ hl' => .require_bind (Expr.span_good hl) fun hlty => ?_
      refine (gives_expr rhs hr hΓ).bind fun r _ hr' => .require_bind (Expr.span_good hr) fun hrty => ?_
      exact ⟨hdone hl'.1 hr'.1, .logical hop hl'.2 hlty hr'.2 hrty⟩
    · dsimp only
      split
      next hlit =>
        refine (gives_expr rhs hr hΓ).bind fun r n₁ hr' => Gives.bind (gives_expr lhs hl hΓ).withRun fun l n₂ hl' => ?_
        split
        · exact gives_fail (Expr.span_good hl)
        next hsame =>
          refine (answers_binaryResult hboth).bind fun ty hty => ⟨hdone hl'.1.1 hr'.1, ?_⟩
          -- the literal on the left is checked last, but declares nothing
          have hlit : isNumericLiteral lhs = true := (Bool.and_eq_true _ _ ▸ hlit).1
          obtain ⟨rfl, hlhs⟩ := (answers_numericLiteral lhs hlit n₁).of_ok hl'.2
          exact .binary (hlhs n) hr'.2 (Decidable.not_not.mp hsame) hty
      · refine (gives_expr lhs hl hΓ).bind fun l _ hl' => (gives_expr rhs hr hΓ).bind fun r _ hr' => ?_
        split
        · exact gives_fail (Expr.span_good hr)
        next hsame =>
          exact (answers_binaryResult hboth).bind fun ty hty =>
            ⟨hdone hl'.1 hr'.1, .binary hl'.2 hr'.2 (Decidable.not_not.mp hsame) hty⟩
  | ⟨_, .unary .not e, _⟩, _, _, _, _, h, hΓ => by
    replace h := allGood_cons.1 h
    rw [expr]
    refine (gives_expr e h.2 hΓ).bind fun u _ hu => .require_bind (Expr.span_good h.2) fun hty => ?_
    exact ⟨.node rfl rfl (.exprsCons hu.1 .exprsNil), .not hu.2 hty⟩
  | ⟨_, .unary .neg ⟨eid, form, espan⟩, _⟩, _, _, _, _, h, hΓ => by
    replace h := allGood_cons.1 h
    by_cases hint : ∃ value, form = .int value
    · obtain ⟨value, rfl⟩ := hint
      rw [expr]
      refine (answers_negatedLiteral h.1).bind fun _ hr => ⟨.node rfl rfl (.exprsCons ?_ .exprsNil), ?_⟩
      · exact .node rfl rfl .exprsNil
      · exact .negLiteral hr.1 hr.2
    · rw [expr]
      · refine Gives.bind (gives_expr ⟨eid, form, espan⟩ h.2 hΓ) fun u _ hu => ?_
        refine (answers_negated h.1).bind fun ty hty => ⟨.node rfl rfl (.exprsCons hu.1 .exprsNil), ?_⟩
        exact hty.1 ▸ .neg hu.2 hty.2
      · rintro _ value _ ⟨rfl, rfl, rfl⟩
        exact hint ⟨value, rfl⟩
  | ⟨_, .cast e ty, _⟩, _, _, _, _, h, hΓ => by
    replace h := allGood_node.1 h
    rw [expr]
    refine (answers_lift (SymbolTable.placed_resolve ty h.2.2)).bind fun _ _ => ?_
    refine (gives_expr e h.2.1 hΓ).bind fun u _ hu => gives_guard (fun hnum => ?_) h.1
    rw [Bool.and_eq_true] at hnum
    exact ⟨.node rfl rfl (.exprsCons hu.1 .exprsNil), .cast hu.2 hnum.1 hnum.2⟩
  | ⟨id, .call f as, span⟩, Γ, ρ, _, n, h, hΓ => by
    obtain ⟨hspan, hf, has⟩ := allGood_node.1 h
    have hcall {n₁ : Nat} {x : String} {tys : List Ty} {r : List Typed.Expr → Typed.Expr}
        (hr : ∀ us n', tys.length = as.length → Lexical t (.exprs ρ as us) → Derivable (.args Γ n₁ tys us n') →
          Lexical t (.expr ρ ⟨id, .call f as, span⟩ (r us)) ∧ Derivable (.expr Γ n (r us) n')) :
        Gives P n₁ (do requireCount x tys as span; let us ← args Γ tys as; return r us) fun u n' =>
          Lexical t (.expr ρ ⟨id, .call f as, span⟩ u) ∧ Derivable (.expr Γ n u n') :=
      (answers_requireCount hspan).bind fun _ hlen => (gives_args as hlen has hΓ).bind fun us n' hus =>
        hr us n' hlen hus.1 hus.2
    rw [expr]
    obtain ⟨fid, x, fspan, rfl, hnone, hc⟩ | ⟨fid, q, x, fspan, rfl, hc⟩ | ⟨hc, hparts⟩ := callee_cases Γ f
    · simp only [hc]
      split
      next sig hsig =>
        exact hcall fun us _ _ hus hargs => ⟨.direct (hΓ.find x ▸ hnone) (hΓ.symbols ▸ hsig) hus, .call hsig hargs⟩
      · exact gives_fail (Expr.span_good hf)
    · simp only [hc]
      refine (answers_pathCallee (Expr.span_good hf)).bind fun c hdecl => ?_
      cases c with
      | method slot sig =>
        obtain ⟨shape, m, hs, hm, hself, rfl⟩ := hdecl
        exact hcall fun us _ _ hus hargs => ⟨.node rfl rfl hus, .static hs hm hself hargs⟩
      | variant tag payload =>
        refine hcall fun us _ hlen hus hargs => ?_
        -- a variant carries at most one value, so nothing is dropped
        cases payload with
        | none =>
          cases hargs
          obtain rfl := List.length_eq_zero_iff.1 hlen.symm
          exact ⟨.node rfl rfl .exprsNil, .variantOnly hdecl⟩
        | some ty =>
          cases hargs with
          | argsCons head headTy tail =>
            cases tail
            exact ⟨.node rfl rfl hus, .variantOf hdecl head headTy⟩
    · simp only [hc]
      refine (gives_expr f hf hΓ).bind fun u _ hu => ?_
      split
      next hty =>
        exact hcall fun us _ _ hus hargs => ⟨.node (hparts as) rfl (.exprsCons hu.1 hus), .indirect hu.2 hty hargs⟩
      · exact gives_fail (Expr.span_good hf)
  | ⟨id, .methodCall receiver x as, span⟩, _, ρ, _, _, h, hΓ => by
    obtain ⟨hspan, hr, has⟩ := allGood_node.1 h
    rw [expr]
    refine (gives_expr receiver hr hΓ).bind fun r _ hr' => (answers_method hspan).bind fun c hdecl => ?_
    have hself {form : Typed.Form} {ty : Ty} (hform : form.parts? = some [r]) (hlen : ([] : List Ty).length = as.length) :
        Lexical t (.expr ρ ⟨id, .methodCall receiver x as, span⟩ ⟨id, ty, form⟩) := by
      obtain rfl := List.length_eq_zero_iff.1 hlen.symm
      exact .node rfl hform (.exprsCons hr'.1 .exprsNil)
    cases c with
    | user s slot sig =>
      obtain ⟨hrty, shape, m, hs, hm, hself, rfl⟩ := hdecl
      exact (answers_requireCount hspan).bind fun _ hlen => (gives_args as hlen has hΓ).bind fun us _ hus =>
        ⟨.node rfl rfl (.exprsCons hr'.1 hus.1), .method hr'.2 hrty hs hm hself hus.2⟩
    | push elem =>
      refine (answers_requireCount hspan).bind fun _ hlen => (gives_args as hlen has hΓ).bind fun us _ hus => ?_
      obtain ⟨hlex, hargs⟩ := hus
      cases hargs with
      | argsCons head headTy tail =>
        cases tail
        exact (answers_requireAssignable (Expr.span_good hr)).bind fun _ hp =>
          ⟨.node rfl rfl (.exprsCons hr'.1 hlex), .push hr'.2 hdecl hp head headTy⟩
    | pop elem =>
      exact (answers_requireCount hspan).bind fun _ hlen =>
        (answers_requireAssignable (Expr.span_good hr)).bind fun _ hp => ⟨hself rfl hlen, .pop hr'.2 hdecl hp⟩
    | arrayLength =>
      obtain ⟨elem, hrty⟩ := hdecl
      exact (answers_requireCount hspan).bind fun _ hlen => ⟨hself rfl hlen, .arrayLength hr'.2 hrty⟩
    | byteLength =>
      exact (answers_requireCount hspan).bind fun _ hlen => ⟨hself rfl hlen, .byteLength hr'.2 hdecl⟩
  | ⟨_, .field object _, _⟩, _, _, _, _, h, hΓ => by
    replace h := allGood_cons.1 h
    rw [expr]
    refine (gives_expr object h.2 hΓ).bind fun u _ hu => (answers_field h.1).bind fun f hf => ?_
    obtain ⟨struct, shape, hty, hs, hf⟩ := hf
    exact ⟨.node rfl rfl (.exprsCons hu.1 .exprsNil), .field hu.2 hty hs hf⟩
  | ⟨_, .index object position, _⟩, _, _, _, _, h, hΓ => by
    replace h := allGood_node.1 h
    rw [expr]
    refine (gives_expr object h.2.1 hΓ).bind fun u _ hu => (gives_expr position h.2.2 hΓ).bind fun w _ hw => ?_
    refine gives_guard (fun hint => (answers_element h.1).bind fun ty hty => ?_) (Expr.span_good h.2.2)
    exact ⟨.node rfl rfl (.exprsCons hu.1 (.exprsCons hw.1 .exprsNil)), .index hu.2 hty hw.2 hint⟩
  | ⟨_, .await e, _⟩, _, _, _, _, h, hΓ => by
    replace h := allGood_cons.1 h
    rw [expr]
    refine (gives_expr e h.2 hΓ).bind fun u _ hu => ?_
    split
    next hty => exact ⟨.node rfl rfl (.exprsCons hu.1 .exprsNil), .await hu.2 hty⟩
    · exact gives_fail (Expr.span_good h.2)
  | ⟨_, .try_ e, _⟩, _, _, _, _, h, hΓ => by
    replace h := allGood_cons.1 h
    rw [expr]
    refine (gives_expr e h.2 hΓ).bind fun u _ hu => (answers_tryResult (Expr.span_good h.2)).bind fun _ hty => ?_
    obtain ⟨err, ok, hty, hret⟩ := hty
    exact ⟨.node rfl rfl (.exprsCons hu.1 .exprsNil), .try_ hu.2 hty hret⟩
  | ⟨_, .outcome _ e, _⟩, _, _, expected, _, h, hΓ => by
    replace h := allGood_cons.1 h
    by_cases hexp : ∃ ok err, expected = some (.result ok err)
    · obtain ⟨ok, err, rfl⟩ := hexp
      rw [expr]
      refine (gives_expr e h.2 hΓ).bind fun u _ hu => .require_bind (Expr.span_good h.2) fun hty => ?_
      exact ⟨.node rfl rfl (.exprsCons hu.1 .exprsNil), .outcome hu.2 hty⟩
    · rw [expr]
      · exact gives_fail h.1
      · exact fun ok err heq => hexp ⟨ok, err, heq⟩
  | ⟨_, .array [], _⟩, _, _, expected, _, h, hΓ => by
    replace h := allGood_cons.1 h
    by_cases hexp : ∃ elem, expected = some (.array elem)
    · obtain ⟨elem, rfl⟩ := hexp
      rw [expr]
      exact (gives_elements [] h.2 hΓ).bind fun us _ hus => ⟨.node rfl rfl hus.1, .array hus.2⟩
    · rw [expr]
      · exact gives_fail h.1
      · exact fun elem heq => hexp ⟨elem, heq⟩
  | ⟨_, .array (first :: rest), _⟩, _, _, expected, _, h, hΓ => by
    replace h := allGood_cons.1 h
    by_cases hexp : ∃ elem, expected = some (.array elem)
    · obtain ⟨elem, rfl⟩ := hexp
      rw [expr]
      exact (gives_elements (first :: rest) h.2 hΓ).bind fun us _ hus => ⟨.node rfl rfl hus.1, .array hus.2⟩
    · replace h := h.imp_right allGood_append.1
      rw [expr]
      · refine (gives_expr first h.2.1 hΓ).bind fun u _ hu => ?_
        split
        · exact gives_fail (Expr.span_good h.2.1)
        · refine (gives_elements rest h.2.2 hΓ).bind fun us _ hus => ⟨.node rfl rfl (.exprsCons hu.1 hus.1), ?_⟩
          exact .array (.argsCons hu.2 (by simp [Ty.accepts]) hus.2)
      · exact fun elem heq => hexp ⟨elem, heq⟩
  | ⟨_, .structLit _ fs, _⟩, _, _, _, _, h, hΓ => by
    replace h := allGood_cons.1 h
    rw [expr]
    split
    next shape hs =>
      refine (gives_fields fs h.2 hΓ).bind fun us _ hus => ?_
      split
      · exact gives_fail h.1
      · exact ⟨.node rfl rfl hus.1, .structLit hs hus.2⟩
    · exact gives_fail h.1
  | ⟨_, .match_ scrutinee as, _⟩, _, _, _, _, h, hΓ => by
    replace h := allGood_node.1 h
    rw [expr]
    refine (gives_expr scrutinee h.2.1 hΓ).bind fun u _ hu => (gives_arms as h.2.2 hΓ).bind fun us _ hus => ?_
    dsimp only
    split
    · exact (answers_lift (SymbolTable.placed_requireExhaustive h.1)).bind fun _ _ =>
        ⟨.match_ hu.1 hus.1, .match_ hu.2 hus.2.2⟩
    · exact ⟨.match_ hu.1 hus.1, .match_ hu.2 hus.2.2⟩
  | ⟨_, .lambda _ _ (.expr e), _⟩, _, _, _, _, h, hΓ => by
    simp only [Expr.spans, ExprForm.spans, LambdaBody.spans, allGood_cons, allGood_append, allGood_flatMap,
      Option.mem_toList] at h
    obtain ⟨-, ⟨hparams, hret⟩, he⟩ := h
    rw [expr]
    refine (gives_lambdaHead hparams hret).bind fun head n₁ hhead => ?_
    obtain ⟨hctx, hnum, rfl, ⟨hnames, htys⟩, hhint⟩ := hhead
    unfold lambdaOf
    rw [hctx, Context.bindAll_first, ← htys]
    refine (gives_expr e he (hΓ.function _ _).bindAll).bind fun u _ hu => ?_
    exact (answers_lambdaResult (Expr.span_good he) hhint).bind fun _ hres =>
      ⟨.lambdaExpr hnames hu.1, .lambdaExpr hnum hu.2 hres⟩
  | ⟨_, .lambda _ _ (.block ⟨ss, _⟩), _⟩, _, _, _, _, h, hΓ => by
    simp only [Expr.spans, ExprForm.spans, LambdaBody.spans, Block.spans, allGood_cons, allGood_append,
      allGood_flatMap, Option.mem_toList] at h
    obtain ⟨hspan, ⟨hparams, hret⟩, -, hss⟩ := h
    rw [expr]
    refine (gives_lambdaHead hparams hret).bind fun head n₁ hhead => ?_
    obtain ⟨hctx, hnum, rfl, ⟨hnames, htys⟩, -⟩ := hhead
    unfold lambdaOf
    rw [hctx, Context.bindAll_first, ← htys]
    refine (gives_stmts ss hss (hΓ.function _ _).bindAll.inner).bind fun us _ hus => ?_
    exact (answers_requireReturn hspan).bind fun _ hres => ⟨.lambdaBlock hnames hus.1, .lambdaBlock hnum hus.2 hres⟩
  | ⟨_, .block ⟨ss, _⟩, _⟩, _, _, _, _, h, hΓ => by
    rw [expr]
    exact (gives_stmts ss (allGood_cons.1 (allGood_cons.1 h).2).2 hΓ.inner).bind fun us _ hus => ⟨.block hus.1, .block hus.2⟩

theorem gives_args : ∀ (es : List Expr) {Γ : Context} {ρ : Env} {tys : List Ty} {n : Nat}, tys.length = es.length →
    AllGood P (exprSpans es) → Γ.Shows t ρ →
      Gives P n (args Γ tys es) fun us n' => Lexical t (.exprs ρ es us) ∧ Derivable (.args Γ n tys us n')
  | [], _, _, [], _, _, _, _ => ⟨.exprsNil, .argsNil⟩
  | e :: es, _, _, _ :: _, _, hlen, h, hΓ => by
    replace h := allGood_append.1 h
    rw [args]
    refine (gives_expr e h.1 hΓ).bind fun u _ hu => .require_bind (Expr.span_good h.1) fun hty => ?_
    exact (gives_args es (Nat.succ.inj hlen) h.2 hΓ).bind fun us _ hus =>
      ⟨.exprsCons hu.1 hus.1, .argsCons hu.2 hty hus.2⟩

theorem gives_elements : ∀ (es : List Expr) {Γ : Context} {ρ : Env} {elem : Ty} {n : Nat}, AllGood P (exprSpans es) →
    Γ.Shows t ρ → Gives P n (elements Γ elem es) fun us n' =>
      Lexical t (.exprs ρ es us) ∧ Derivable (.args Γ n (.replicate us.length elem) us n')
  | [], _, _, _, _, _, _ => by rw [elements]; exact ⟨.exprsNil, .argsNil⟩
  | e :: es, _, _, _, _, h, hΓ => by
    replace h := allGood_append.1 h
    rw [elements]
    refine (gives_expr e h.1 hΓ).bind fun u _ hu => .require_bind (Expr.span_good h.1) fun hty => ?_
    exact (gives_elements es h.2 hΓ).bind fun us _ hus => ⟨.exprsCons hu.1 hus.1, .argsCons hu.2 hty hus.2⟩

theorem gives_parts : ∀ (ps : List InterpPart) {Γ : Context} {ρ : Env} {n : Nat}, AllGood P (partSpans ps) →
    Γ.Shows t ρ → Gives P n (parts Γ ps) fun us n' =>
      Lexical t (.exprs ρ (ps.filterMap InterpPart.expr?) (us.filterMap Typed.Part.expr?)) ∧
        Derivable (.parts Γ n us n')
  | [], _, _, _, _, _ => by rw [parts]; exact ⟨.exprsNil, .partsNil⟩
  | .text _ :: ps, _, _, _, h, hΓ => by
    rw [partSpans] at h
    rw [parts]
    exact (gives_parts ps h hΓ).bind fun us _ hus => ⟨hus.1, .partsText hus.2⟩
  | .expr e :: ps, _, _, _, h, hΓ => by
    replace h := allGood_append.1 h
    rw [parts]
    refine (gives_expr e h.1 hΓ).bind fun u _ hu => gives_guard (fun hp => ?_) (Expr.span_good h.1)
    exact (gives_parts ps h.2 hΓ).bind fun us _ hus => ⟨.exprsCons hu.1 hus.1, .partsExpr hu.2 hp hus.2⟩

theorem gives_fields : ∀ (fs : List FieldInit) {Γ : Context} {ρ : Env} {shape : StructShape} {seen : List String}
    {n : Nat}, AllGood P (fieldSpans fs) → Γ.Shows t ρ → Gives P n (fields Γ shape seen fs) fun us n' =>
      Lexical t (.exprs ρ (fs.map (·.value)) (us.map (·.value))) ∧ Derivable (.inits Γ n shape us n')
  | [], _, _, _, _, _, _, _ => by rw [fields]; exact ⟨.exprsNil, .initsNil⟩
  | ⟨_, e, _⟩ :: fs, _, _, _, _, _, h, hΓ => by
    simp only [fieldSpans, allGood_cons, allGood_append] at h
    obtain ⟨hspan, he, hfs⟩ := h
    rw [fields]
    split
    next place ty hf =>
      split
      · exact gives_fail hspan
      · refine (gives_expr e he hΓ).bind fun u _ hu => .require_bind (Expr.span_good he) fun hty => ?_
        have hget := StructShape.getElem?_of_fieldFrom hf
        exact (gives_fields fs hfs hΓ).bind fun us _ hus => ⟨.exprsCons hu.1 hus.1, .initsCons hget hu.2 hty hus.2⟩
    · exact gives_fail hspan

/-- The type of all arms is the one of the arms before, if there is one already. -/
theorem gives_arms : ∀ (as : List MatchArm) {Γ : Context} {ρ : Env} {scrutinee : Ty} {expected before : Option Ty}
    {n : Nat}, AllGood P (armSpans as) → Γ.Shows t ρ →
      Gives P n (arms Γ scrutinee expected before as) fun us n' => Lexical t (.arms ρ as us.1) ∧
        (∀ ty, before = some ty → us.2 = some ty) ∧ Derivable (.arms Γ n scrutinee (us.2.getD .never) us.1 n')
  | [], _, _, _, _, _, _, _, _ => by rw [arms]; exact ⟨.armsNil, fun _ => id, .armsNil⟩
  | ⟨p, body, span⟩ :: as, Γ, ρ, scrutinee, expected, before, n, h, hΓ => by
    simp only [armSpans, allGood_cons, allGood_append] at h
    obtain ⟨-, ⟨hp, hbody⟩, has⟩ := h
    rw [arms]
    refine yields_bind (yields_get ?_)
    refine (answers_lift (SymbolTable.placed_pattern p scrutinee hp)).bind fun q hq => ?_
    -- the same for an arm with a variable and for one without
    have hrest {inner : Context} {k : Nat} (hinner : inner = Γ.arm q) (hk : k = n + q.binder?.toList.length) :
        Gives P k (do
          let u ← expr inner (before <|> expected) body
          let result ← joinArm before u.ty body.span
          let (us, result) ← arms Γ scrutinee expected result as
          return ((⟨q, u⟩ : Typed.Arm) :: us, result)) fun us n' =>
            Lexical t (.arms ρ (⟨p, body, span⟩ :: as) us.1) ∧ (∀ ty, before = some ty → us.2 = some ty) ∧
              Derivable (.arms Γ n scrutinee (us.2.getD .never) us.1 n') := by
      subst hinner hk
      refine (gives_expr body hbody hΓ.inner.bindAll).bind fun u n₁ hu => ?_
      refine (answers_joinArm (Expr.span_good hbody)).bind fun joined hj => ?_
      refine (gives_arms as has hΓ).bind fun us _ hus => ?_
      obtain ⟨hkeep, hacc, hnever⟩ := hj
      obtain ⟨hlex, hkeep', hrest⟩ := hus
      refine ⟨.armsCons (hΓ.symbols ▸ hq) hu.1 hlex, fun ty hty => hkeep' ty (hkeep ty hty), ?_⟩
      refine .armsCons (SymbolTable.pattern_fits p hq) hu.2 ?_ hrest
      cases joined with
      | none => simp [Ty.accepts, hnever rfl]
      | some ty => simpa [hkeep' ty rfl] using hacc ty rfl
    split
    next v hv =>
      refine yields_bind (yields_set (yields_bind (yields_pure (hrest ?_ ?_))))
      · rw [Context.arm, hv]
        rfl
      · rw [hv]
        rfl
    next hv =>
      refine yields_bind (yields_pure (hrest ?_ ?_))
      · rw [Context.arm, hv]
        rfl
      · rw [hv]
        rfl

/-- **The same for statements.** -/
theorem gives_stmts : ∀ (ss : List Stmt) {Γ : Context} {ρ : Env} {n : Nat}, AllGood P (stmtSpans ss) → Γ.Shows t ρ →
    Gives P n (stmts Γ ss) fun us n' => Lexical t (.stmts ρ ss us.1) ∧ Derivable (.stmts Γ n us.1 us.2 n')
  | [], _, _, _, _, _ => by rw [stmts]; exact ⟨.stmtsNil, .stmtsNil⟩
  | s :: ss, _, _, _, h, hΓ => by
    replace h := allGood_append.1 h
    rw [stmts]
    refine (gives_stmt s h.1 hΓ).bind ?_
    rintro ⟨u, returns, Γ'⟩ _ ⟨ρ', hu, hΓ', hd⟩
    exact (gives_stmts ss h.2 hΓ').bind fun us _ hus => ⟨.stmtsCons hu hus.1, .stmtsCons hd hus.2⟩

theorem gives_stmt : ∀ (s : Stmt) {Γ : Context} {ρ : Env} {n : Nat}, AllGood P s.spans → Γ.Shows t ρ →
    Gives P n (stmt Γ s) fun r n' =>
      ∃ ρ', Lexical t (.stmt ρ s r.1 ρ') ∧ r.2.2.Shows t ρ' ∧ Derivable (.stmt Γ n r.1 r.2.1 r.2.2 n')
  | ⟨.let_ id x isConst annotation init, span⟩, Γ, ρ, n, h, hΓ => by
    simp only [Stmt.spans, StmtForm.spans, allGood_cons, allGood_append, allGood_flatMap, Option.mem_toList] at h
    obtain ⟨-, hty, hinit⟩ := h
    rw [stmt]
    refine (answers_lift (SymbolTable.placed_resolve? hty)).bind fun annotated _ =>
      (gives_expr init hinit hΓ).bind fun u n₁ hu => ?_
    have hrest (hacc : (annotated.getD u.ty).accepts u.ty = true) : Gives P n₁ (do
        let ty := annotated.getD u.ty
        if ty.isEmpty then fail (.invalid (.bindTo x ty)) init.span
        else
          let v ← declare x ty isConst
          return (Typed.Stmt.let_ id v u, false, Γ.bind v)) fun r n' =>
            ∃ ρ', Lexical t (.stmt ρ ⟨.let_ id x isConst annotation init, span⟩ r.1 ρ') ∧ r.2.2.Shows t ρ' ∧
              Derivable (.stmt Γ n r.1 r.2.1 r.2.2 n') := by
      dsimp only
      split
      · exact gives_fail (Expr.span_good hinit)
      next hne =>
        refine gives_declare.bind fun v n₂ hv => ?_
        obtain ⟨rfl, rfl⟩ := hv
        exact ⟨_, .let_ hu.1 rfl, hΓ.bind _, .let_ hu.2 hacc (by simpa using hne)⟩
    split
    · exact .require_bind (Expr.span_good hinit) hrest
    · exact hrest (by simp [Ty.accepts])
  | ⟨.assign target _ value, _⟩, _, ρ, _, h, hΓ => by
    obtain ⟨-, htarget, hvalue⟩ := allGood_node.1 h
    rw [stmt]
    refine (gives_expr target htarget hΓ).bind fun u _ hu => ?_
    refine (answers_requireAssignable (Expr.span_good htarget)).bind fun _ hp => ?_
    refine (gives_expr value hvalue hΓ).bind fun w _ hw => .require_bind (Expr.span_good hvalue) fun hty => ?_
    split
    · refine (answers_arithmetic (Expr.span_good hvalue)).bind fun _ ho => ⟨ρ, .assign hu.1 hw.1, hΓ, ?_⟩
      exact .assign hu.2 hp hw.2 hty fun o' ho' => Option.some.inj ho' ▸ ho.2
    · exact ⟨ρ, .assign hu.1 hw.1, hΓ, .assign hu.2 hp hw.2 hty nofun⟩
  | ⟨.if_ cond ⟨ss, _⟩ none, _⟩, _, ρ, _, h, hΓ => by
    obtain ⟨-, hcond, hss⟩ := allGood_node.1 h
    replace hss := (allGood_cons.1 hss).2
    rw [stmt]
    refine (gives_expr cond hcond hΓ).bind fun u _ hu => .require_bind (Expr.span_good hcond) fun hty => ?_
    exact (gives_stmts ss hss hΓ.inner).bind fun us _ hus => ⟨ρ, .ifThen hu.1 hus.1, hΓ, .ifThen hu.2 hty hus.2⟩
  | ⟨.if_ cond ⟨ss, _⟩ (some ⟨es, _⟩), _⟩, _, ρ, _, h, hΓ => by
    simp only [Stmt.spans, StmtForm.spans, Block.spans, allGood_cons, allGood_append] at h
    obtain ⟨-, ⟨hcond, -, hss⟩, -, hes⟩ := h
    rw [stmt]
    refine (gives_expr cond hcond hΓ).bind fun u _ hu => .require_bind (Expr.span_good hcond) fun hty => ?_
    refine (gives_stmts ss hss hΓ.inner).bind fun us _ hus => (gives_stmts es hes hΓ.inner).bind fun ws _ hws => ?_
    exact ⟨ρ, .ifElse hu.1 hus.1 hws.1, hΓ, .ifElse hu.2 hty hus.2 hws.2⟩
  | ⟨.while_ cond ⟨ss, _⟩, _⟩, _, ρ, _, h, hΓ => by
    obtain ⟨-, hcond, hss⟩ := allGood_node.1 h
    replace hss := (allGood_cons.1 hss).2
    rw [stmt]
    refine (gives_expr cond hcond hΓ).bind fun u _ hu => .require_bind (Expr.span_good hcond) fun hty => ?_
    exact (gives_stmts ss hss hΓ.loop.inner).bind fun us _ hus => ⟨ρ, .while_ hu.1 hus.1, hΓ, .while_ hu.2 hty hus.2⟩
  | ⟨.for_ _ _ iterable ⟨ss, _⟩, _⟩, _, ρ, _, h, hΓ => by
    obtain ⟨-, hiterable, hss⟩ := allGood_node.1 h
    replace hss := (allGood_cons.1 hss).2
    rw [stmt]
    refine (gives_expr iterable hiterable hΓ).bind fun u _ hu => ?_
    split
    next hty =>
      refine gives_declare.bind fun v _ hv => ?_
      obtain ⟨rfl, rfl⟩ := hv
      exact (gives_stmts ss hss (hΓ.loop.inner.bind _).inner).bind fun us _ hus =>
        ⟨ρ, .for_ hu.1 rfl hus.1, hΓ, .for_ hu.2 hty hus.2⟩
    · exact gives_fail (Expr.span_good hiterable)
  | ⟨.break_, _⟩, _, ρ, _, h, hΓ => by
    rw [stmt]
    exact gives_guard (fun hl => ⟨ρ, .break_, hΓ, .break_ hl⟩) (allGood_cons.1 h).1
  | ⟨.continue_, _⟩, _, ρ, _, h, hΓ => by
    rw [stmt]
    exact gives_guard (fun hl => ⟨ρ, .continue_, hΓ, .continue_ hl⟩) (allGood_cons.1 h).1
  | ⟨.return_ none, _⟩, _, ρ, _, h, hΓ => by
    rw [stmt]
    exact gives_guard (fun hret => ⟨ρ, .returnNone, hΓ, .returnNone hret⟩) (allGood_cons.1 h).1
  | ⟨.return_ (some e), _⟩, _, ρ, _, h, hΓ => by
    replace h := allGood_cons.1 h
    rw [stmt]
    split
    · exact (gives_expr e h.2 hΓ).bind fun _ _ _ => gives_fail (Expr.span_good h.2)
    next hret =>
      refine (gives_expr e h.2 hΓ).bind fun u _ hu => .require_bind (Expr.span_good h.2) fun hty => ?_
      exact ⟨ρ, .returnSome hu.1, hΓ, .returnSome hu.2 hret hty⟩
  | ⟨.expr e, _⟩, _, ρ, _, h, hΓ => by
    replace h := allGood_cons.1 h
    rw [stmt]
    exact (gives_expr e h.2 hΓ).bind fun u _ hu => ⟨ρ, .exprStmt hu.1, hΓ, .exprStmt hu.2⟩
  | ⟨.block ⟨ss, _⟩, _⟩, _, ρ, _, h, hΓ => by
    rw [stmt]
    exact (gives_stmts ss (allGood_cons.1 (allGood_cons.1 h).2).2 hΓ.inner).bind fun us _ hus => ⟨ρ, .blockStmt hus.1, hΓ, .blockStmt hus.2⟩

end

end

end Check

end StackScript
