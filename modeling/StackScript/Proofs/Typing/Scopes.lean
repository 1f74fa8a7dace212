import StackScript.Proofs.Typing.Checked

/-!
# Numbers and scopes of variables

What a well-typed tree says about the numbers of the variables that it declares, and about the scopes
of the variables that it reads.
-/

namespace StackScript

/-! ## Looking up bound names -/

namespace ScopeChain

variable {α : Type}

/-- A name that is found after a binding was bound by it or found before. -/
theorem find?_bind {c : ScopeChain α} {name m : String} {a b : α}
    (h : (c.bind name a).find? m = some b) : (m = name ∧ a = b) ∨ c.find? m = some b := by
  unfold bind at h
  split at h
  · exact .inr h
  · next scope outer heq =>
    unfold find? lookup at h ⊢
    rw [heq]
    simp only [lookupIn, List.lookup_cons] at h ⊢
    by_cases hm : m = name
    · left
      simp only [hm, beq_self_eq_true, Option.map_some] at h
      exact ⟨hm, Option.some.inj h⟩
    · right
      have hne : (m == name) = false := by simpa using hm
      rw [hne] at h
      exact h

end ScopeChain

namespace Context

variable {Γ : Context} {name : String} {v w : Variable}

theorem find?_bind (h : (Γ.bind v).scopes.find? name = some w) : v = w ∨ Γ.scopes.find? name = some w :=
  (ScopeChain.find?_bind h).imp_left And.right

theorem find?_bindAll : ∀ {vs : List Variable} {Γ : Context},
    (Γ.bindAll vs).scopes.find? name = some w → w ∈ vs ∨ Γ.scopes.find? name = some w
  | [], _, h => .inr h
  | v :: _, Γ, h => by
    rcases find?_bindAll (Γ := Γ.bind v) h with h | h
    · exact .inl (.tail _ h)
    · rcases find?_bind h with rfl | h
      · exact .inl (.head _)
      · exact .inr h

@[simp] theorem bindAll_symbols (Γ : Context) (vs : List Variable) : (Γ.bindAll vs).symbols = Γ.symbols := by
  induction vs generalizing Γ with
  | nil => rfl
  | cons v vs ih => rw [bindAll_cons, ih]; rfl

end Context

variable {vs : List Variable} {v : Variable}

variable {n id : Nat} {w : Variable}

theorem Variable.NumberedFrom.bounds (h : NumberedFrom n vs) (hv : v ∈ vs) : n ≤ v.id ∧ v.id < n + vs.length := by
  have hid : v.id ∈ List.range' n vs.length := h ▸ List.mem_map_of_mem hv
  simpa using hid

theorem Variable.NumberedFrom.cons (h : NumberedFrom n (v :: vs)) : v.id = n ∧ NumberedFrom (n + 1) vs := by
  simpa [NumberedFrom, List.range'_succ] using h

theorem Typed.Pattern.Fits.binder {t : SymbolTable} {p : Typed.Pattern} {ty : Ty}
    (h : p.Fits t id ty) : ∀ v ∈ p.binder?.toList, v.id = id := by
  induction h with
  | bind => simp [Typed.Pattern.binder?]
  | variant _ _ ih => simpa [Typed.Pattern.binder?] using ih
  | wildcard | int | intAsFloat | float | bool | str | tag => simp [Typed.Pattern.binder?]

namespace Judgement

/-! ## Numbers -/

/-- The number of the next variable before the tree. -/
def start : Judgement → Nat
  | expr _ n _ _ | args _ n _ _ _ | parts _ n _ _ | inits _ n _ _ _ => n
  | arms _ n _ _ _ _ | stmt _ n _ _ _ _ | stmts _ n _ _ _ => n

/-- The number of the next variable after the tree. -/
def stop : Judgement → Nat
  | expr _ _ _ n | args _ _ _ _ n | parts _ _ _ n | inits _ _ _ _ n => n
  | arms _ _ _ _ _ n | stmt _ _ _ _ _ n | stmts _ _ _ _ n => n

/-- **Numbers grow along a tree.** -/
theorem Derivable.start_le_stop {j : Judgement} (h : Derivable j) : j.start ≤ j.stop := by
  induction h <;> simp only [start, stop] at * <;> omega

/-! ## Contexts -/

/-- The context of a tree. -/
def context : Judgement → Context
  | expr Γ _ _ _ | args Γ _ _ _ _ | parts Γ _ _ _ | inits Γ _ _ _ _ => Γ
  | arms Γ _ _ _ _ _ | stmt Γ _ _ _ _ _ | stmts Γ _ _ _ _ => Γ

/-! ## Reads -/

/-- The variables that a tree reads. -/
def reads : Judgement → List Variable
  | expr _ _ e _ => e.reads
  | args _ _ _ es _ => Typed.exprReads es
  | parts _ _ ps _ => Typed.partReads ps
  | inits _ _ _ fs _ => Typed.initReads fs
  | arms _ _ _ _ as _ => Typed.armReads as
  | stmt _ _ s _ _ _ => s.reads
  | stmts _ _ ss _ _ => Typed.stmtReads ss

end Judgement

/-! ## Captures -/

theorem Variable.any_addNew : (Variable.addNew vs v).any (·.id = id) = (vs.any (·.id = id) || v.id = id) := by
  unfold Variable.addNew
  split
  · next h =>
    by_cases hid : v.id = id
    · simpa [hid] using h
    · simp [hid]
  · simp

theorem Variable.mem_addNew (h : w ∈ Variable.addNew vs v) : w ∈ vs ∨ w = v := by
  unfold Variable.addNew at h
  split at h
  · exact .inl h
  · simpa using h

theorem Variable.any_foldl_addNew : ∀ {ws vs : List Variable},
    (ws.foldl Variable.addNew vs).any (·.id = id) = (vs.any (·.id = id) || ws.any (·.id = id))
  | [], _ => by simp
  | _ :: _, _ => by
    rw [List.foldl_cons, any_foldl_addNew, any_addNew, List.any_cons, Bool.or_assoc]

theorem Variable.mem_foldl_addNew : ∀ {ws vs : List Variable}, w ∈ ws.foldl Variable.addNew vs → w ∈ vs ∨ w ∈ ws
  | [], _, h => .inl h
  | x :: ws, vs, h => by
    have hrest : w ∈ Variable.addNew vs x ∨ w ∈ ws := mem_foldl_addNew h
    rcases hrest with h | h
    · rcases mem_addNew h with h | rfl
      · exact .inl h
      · exact .inr (.head _)
    · exact .inr (.tail _ h)

namespace Typed.Body

variable {first : Nat} {b : Body}

/-- **A function literal captures every outer variable that it reads.** -/
theorem exists_capture (hv : v ∈ b.reads) (hlt : v.id < first) : ∃ w ∈ b.captures first, w.id = v.id := by
  have hmem : v ∈ b.reads.filter (·.id < first) := by simpa using ⟨hv, hlt⟩
  have hany : (b.captures first).any (·.id = v.id) = true := by
    rw [captures, Variable.any_foldl_addNew, Bool.or_eq_true, List.any_eq_true]
    exact .inr (List.any_eq_true.mpr ⟨v, hmem, by simp⟩)
  simpa using List.any_eq_true.mp hany

/-- It captures nothing else. -/
theorem of_mem_captures (hv : v ∈ b.captures first) : v ∈ b.reads ∧ v.id < first := by
  rcases Variable.mem_foldl_addNew hv with h | h
  · cases h
  · simpa using h

end Typed.Body

/-! ## Visibility -/

namespace Context

/-- Variables with numbers below `n` are visible. -/
def Sees (Γ : Context) (n : Nat) (vs : List Variable) : Prop :=
  ∀ v ∈ vs, v.id < n → ∃ name, Γ.scopes.find? name = some v

end Context

end StackScript
