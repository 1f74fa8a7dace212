import StackScript.Proofs.Tree.Spans
import StackScript.Proofs.Typing.Symbols
import StackScript.Typing.Patterns

/-!
# Places of errors in declarations

An error in a declaration or in a pattern is at a place of the tree that was checked.

## Design Notes

As for reading a program, a good place is left open.
-/

namespace StackScript

variable {P : Span → Prop} {α β : Type}

/-! ## Places at hand -/

theorem allGood_node {s : Span} {spans spans' : List Span} :
    AllGood P (s :: (spans ++ spans')) ↔ P s ∧ AllGood P spans ∧ AllGood P spans' := by
  rw [allGood_cons, allGood_append]

theorem Expr.span_good {e : Expr} (h : AllGood P e.spans) : P e.span :=
  h _ (by cases e; simp [Expr.spans])

/-- A result without an error at a bad place. -/
def Placed (P : Span → Prop) (x : Except TypeError α) : Prop :=
  ∀ e, x = .error e → P e.span

variable {span : Span}

namespace Placed

variable {x : Except TypeError α} {f : α → Except TypeError β}

theorem ok {a : α} : Placed P (.ok a) := nofun

theorem error {fault : TypeFault} (h : P span) : Placed P (.error ⟨fault, span⟩ : Except _ α) :=
  fun _ he => Except.error.inj he ▸ h

theorem guard {c : Prop} [Decidable c] {a : α} {fault : TypeFault} (h : P span) :
    Placed P (if c then .ok a else .error ⟨fault, span⟩) := by
  split
  · exact ok
  · exact error h

theorem bind (hx : Placed P x) (hf : ∀ a, Placed P (f a)) : Placed P (x >>= f) := by
  intro e he
  cases x with
  | error e' => cases he; exact hx _ rfl
  | ok a => exact hf a e he

theorem foldlM {γ : Type} {step : γ → α → Except TypeError γ} :
    ∀ {as : List α} {c : γ}, (∀ c, ∀ a ∈ as, Placed P (step c a)) → Placed P (as.foldlM step c)
  | [], _, _ => ok
  | a :: _, c, h => by
    rw [List.foldlM_cons]
    exact (h c a (by simp)).bind fun c' => foldlM fun c a ha => h c a (by simp [ha])

end Placed

/-! ## Declarations -/

namespace SymbolTable

variable {t : SymbolTable}

mutual

theorem placed_resolve : ∀ e : TypeExpr, AllGood P e.spans → Placed P (t.resolve e)
  | ⟨.named _, _⟩, h => by
    rw [resolve]
    split
    · exact .ok
    · split
      · exact .ok
      · split
        · exact .ok
        · exact .error (allGood_cons.1 h).1
  | ⟨.array elem, _⟩, h => by
    simp only [TypeExpr.spans, TypeForm.spans, allGood_cons] at h
    rw [resolve]
    exact (placed_resolve elem h.2).bind fun _ => .ok
  | ⟨.result ok err, _⟩, h => by
    simp only [TypeExpr.spans, TypeForm.spans, allGood_cons, allGood_append] at h
    rw [resolve]
    exact (placed_resolve ok h.2.1).bind fun _ => (placed_resolve err h.2.2).bind fun _ => .ok
  | ⟨.promise inner, _⟩, h => by
    simp only [TypeExpr.spans, TypeForm.spans, allGood_cons] at h
    rw [resolve]
    exact (placed_resolve inner h.2).bind fun _ => .ok
  | ⟨.fn params ret, _⟩, h => by
    simp only [TypeExpr.spans, TypeForm.spans, allGood_cons, allGood_append] at h
    rw [resolve]
    exact (placed_resolveAll params h.2.1).bind fun _ => (placed_resolve ret h.2.2).bind fun _ => .ok

theorem placed_resolveAll : ∀ es : List TypeExpr, AllGood P (typeSpans es) → Placed P (t.resolveAll es)
  | [], _ => by rw [resolveAll]; exact .ok
  | e :: es, h => by
    simp only [typeSpans, allGood_append] at h
    rw [resolveAll]
    exact (placed_resolve e h.1).bind fun _ => (placed_resolveAll es h.2).bind fun _ => .ok

end

theorem placed_resolve? {o : Option TypeExpr} (h : ∀ e ∈ o, AllGood P e.spans) : Placed P (t.resolve? o) := by
  cases o with
  | none => exact .ok
  | some e => exact (placed_resolve e (h e rfl)).bind fun _ => .ok

/-- The types of parameters. -/
theorem placed_resolveParams {ps : List Param} (h : ∀ p ∈ ps, AllGood P p.spans) :
    Placed P (t.resolveAll (ps.map (·.ty))) := by
  refine placed_resolveAll _ ?_
  simp only [typeSpans_eq, allGood_flatMap, List.forall_mem_map]
  exact fun p hp => (allGood_cons.1 (h p hp)).2

variable {d : FunctionDecl} {i : Item} {ty : Ty}

theorem FunctionDecl.spans_good (h : AllGood P d.spans) :
    P d.span ∧ (∀ p ∈ d.params, AllGood P p.spans) ∧ (∀ e ∈ d.ret, AllGood P e.spans) ∧
      ∀ b ∈ d.body, AllGood P b.spans := by
  simpa [FunctionDecl.spans, and_assoc] using h

theorem placed_addTypeName (h : AllGood P i.spans) : Placed P (t.addTypeName i) := by
  unfold addTypeName
  split
  · split
    · exact .error (allGood_cons.1 h).1
    · exact .ok
  · split
    · exact .error (allGood_cons.1 h).1
    · exact .ok
  · exact .ok

theorem placed_signature (h : AllGood P d.spans) : Placed P (t.signature d) := by
  obtain ⟨-, hparams, hret, -⟩ := FunctionDecl.spans_good h
  exact (placed_resolveParams hparams).bind fun _ => (placed_resolve? hret).bind fun _ => .ok

theorem placed_addFields : ∀ {ds : List FieldDecl} {fields : List (String × Ty)},
    (∀ d ∈ ds, AllGood P d.spans) → Placed P (t.addFields fields ds)
  | [], _, _ => .ok
  | d :: _, _, h => by
    obtain ⟨⟨hspan, hty⟩, hds⟩ := List.forall_mem_cons.1 h |>.imp_left allGood_cons.1
    refine (placed_resolve d.ty hty).bind fun _ => ?_
    split
    · exact .error hspan
    · exact placed_addFields hds

theorem placed_addMethods {fields : List (String × Ty)} : ∀ {ds : List FunctionDecl} {methods : List MethodSig},
    (∀ d ∈ ds, AllGood P d.spans) → Placed P (t.addMethods fields methods ds)
  | [], _, _ => .ok
  | _ :: _, _, h => by
    obtain ⟨hd, hds⟩ := List.forall_mem_cons.1 h
    rw [addMethods]
    split
    · exact .error (FunctionDecl.spans_good hd).1
    · exact (placed_signature hd).bind fun _ => placed_addMethods hds

theorem placed_addVariants : ∀ {ds : List VariantDecl} {variants : List VariantShape},
    (∀ d ∈ ds, AllGood P d.spans) → Placed P (t.addVariants variants ds)
  | [], _, _ => .ok
  | _ :: _, _, h => by
    obtain ⟨⟨hspan, hpayload⟩, hds⟩ := List.forall_mem_cons.1 h |>.imp_left allGood_cons.1
    rw [addVariants]
    split
    · exact .error hspan
    · exact (placed_resolve? (by simpa using hpayload)).bind fun _ => placed_addVariants hds

theorem placed_addItem {names : SymbolTable} (h : AllGood P i.spans) : Placed P (names.addItem t i) := by
  cases i with
  | struct d =>
    simp only [Item.spans, allGood_cons, allGood_append, allGood_flatMap] at h
    exact (placed_addFields h.2.1).bind fun _ => (placed_addMethods h.2.2).bind fun _ => .ok
  | enum d =>
    simp only [Item.spans, allGood_cons, allGood_flatMap] at h
    exact (placed_addVariants h.2).bind fun _ => .ok
  | function d =>
    have hspan : P d.span := (FunctionDecl.spans_good h).1
    rw [addItem]
    split
    · exact .error hspan
    · refine (placed_signature h).bind fun _ => ?_
      split
      · exact .error hspan
      · exact .ok
  | stmt s => exact .ok

/-- Collecting declarations fails only at good places. -/
theorem placed_ofItems {items : List Item} (h : ∀ i ∈ items, AllGood P i.spans) : Placed P (ofItems items) :=
  (Placed.foldlM fun _ i hi => placed_addTypeName (h i hi)).bind fun _ =>
    .foldlM fun _ i hi => placed_addItem (h i hi)

/-! ## Patterns -/

theorem placed_literalPattern {fits : Bool} {given : Given} {p : Typed.Pattern}
    (h : P span) : Placed P (literalPattern fits given ty span p) :=
  .guard h

theorem placed_variantOf {qualifier : Option String} {name : String} (h : P span) :
    Placed P (t.variantOf qualifier name ty span) := by
  have henum (e : String) : Placed P (variantOf.enumVariant t name span e) := by
    unfold variantOf.enumVariant
    split
    · exact .ok
    · exact .error h
  unfold variantOf
  dsimp only
  split
  · split
    · exact .ok
    · split
      · exact .ok
      · exact .error h
  · split
    · split
      · exact .error h
      · exact henum _
    · exact henum _
  · exact .error h

theorem placed_pattern {id : Nat} : ∀ (p : Pattern) (ty : Ty), AllGood P p.spans → Placed P (t.pattern id p ty)
  | ⟨.wildcard, _⟩, _, _ => by rw [pattern]; exact .ok
  | ⟨.binding _, _⟩, _, _ => by
    rw [pattern]
    split <;> exact .ok
  | ⟨.int _, span⟩, ty, h => by
    have hspan : P span := (allGood_cons.1 h).1
    cases ty with
    | int kind => exact .guard hspan
    | _ => exact placed_literalPattern hspan
  | ⟨.float value, span⟩, ty, h | ⟨.bool value, span⟩, ty, h | ⟨.str value, span⟩, ty, h => by
    rw [pattern]
    exact placed_literalPattern (allGood_cons.1 h).1
  | ⟨.variant _ _ none, _⟩, _, h => by
    rw [pattern]
    exact (placed_variantOf (allGood_cons.1 h).1).bind fun _ => .ok
  | ⟨.variant _ _ (some inner), _⟩, _, h => by
    simp only [Pattern.spans, PatternForm.spans, allGood_cons] at h
    rw [pattern]
    refine (placed_variantOf h.1).bind fun r => ?_
    obtain ⟨tag, payload⟩ := r
    cases payload with
    | some payloadTy => exact (placed_pattern inner payloadTy h.2).bind fun _ => .ok
    | none => exact .error h.1

theorem placed_requireExhaustive {patterns : List Typed.Pattern} (h : P span) :
    Placed P (t.requireExhaustive patterns ty span) :=
  .guard h

end SymbolTable

end StackScript
