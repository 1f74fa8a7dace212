import StackScript.Compile
import StackScript.Proofs.Tree.Reading
import StackScript.Proofs.Typing.Checked

/-!
# Checked programs
-/

namespace StackScript

/-! ## Bodies -/

/-- Everything that an item defines has a body; only functions of the host have none. -/
def Item.HasBodies : Item → Prop
  | .function d => d.isExternal = false → d.body.isSome
  | .struct d => ∀ m ∈ d.methods, m.body.isSome
  | _ => True

variable {p : Program} {source : String} {strict : Bool} {typed : Typed.Program}

/-- **The items of a parsed program have their bodies.** -/
theorem parse_hasBodies {tokens : List Token} (h : parse tokens = .ok p) : ∀ i ∈ p.items, i.HasBodies := by
  intro i hi
  have hfit := (parse_spec (N := fun _ => True) (fun _ _ _ _ => trivial) h).2 i hi
  cases i with
  | function d => exact hfit.2
  | struct d => exact fun m hm => (hfit.2 m hm).2
  | enum | stmt => trivial

/-! ## Routines -/

open Judgement

/-- A well-typed function or method: its parameters have the types of its signature, its body is well
typed, and it does not end without the result it owes. -/
def Typed.Routine.WellTyped (t : SymbolTable) (r : Typed.Routine) : Prop :=
  ∃ (strict : Bool) (n n' : Nat) (returns : Bool),
    Variable.NumberedFrom n r.params ∧ r.params.map (·.ty) = r.sig.params ∧
      Derivable (.stmts (((Check.outer t strict).function n r.sig.ret).bindAll r.params).inner
        (n + r.params.length) r.body returns n') ∧
      (r.sig.ret = .void ∨ returns = true)

/-- The signature of a function or method is the one that the table has for it. -/
def Typed.Routine.Declared (t : SymbolTable) (r : Typed.Routine) : Prop :=
  match r.owner with
  | none => t.function? r.sig.name = some r.sig ∧ r.sig.kind = .user
  | some (struct, slot) => ∃ shape m, t.struct? struct = some shape ∧ shape.methods[slot]? = some m ∧ m.sig = r.sig

/-- A well-typed program: its functions, methods and top-level statements are well typed, and every
function and method of the table has a body. -/
structure Typed.Program.WellTyped (p : Typed.Program) : Prop where
  functionNames : (p.symbols.functions.map (·.name)).Nodup
  routines : ∀ r ∈ p.routines, r.WellTyped p.symbols ∧ r.Declared p.symbols
  functionBody : ∀ {name sig}, p.symbols.function? name = some sig → sig.kind = .user →
    ∃ r ∈ p.routines, r.owner = none ∧ r.sig = sig
  methodBody : ∀ {struct shape slot m}, p.symbols.struct? struct = some shape →
    shape.methods[slot]? = some m →
      ∃ r ∈ p.routines, r.owner = some (struct, slot) ∧ r.sig = m.sig
  script : ∃ (strict : Bool) (n n' : Nat) (returns : Bool),
    Derivable (.stmts ((Check.outer p.symbols strict).function n .void) n p.script returns n')

/-! ## Duties -/

/-- A function or method that is to be checked. -/
structure Duty where
  decl : FunctionDecl
  owner : Option (String × Nat)
  sig : FunctionSig

namespace Duty

def hasBody (j : Duty) : Bool :=
  j.decl.body.isSome

/-- The methods of a struct, the first one in slot `slot`. -/
def ofMethods (struct : String) : Nat → List FunctionDecl → List MethodSig → List Duty
  | slot, d :: ds, m :: ms => ⟨d, some (struct, slot), m.sig⟩ :: ofMethods struct (slot + 1) ds ms
  | _, _, _ => []

/-- The functions and methods of an item. -/
def ofItem (t : SymbolTable) : Item → List Duty
  | .function d => if d.isExternal then [] else ((t.function? d.name).map fun sig => ⟨d, none, sig⟩).toList
  | .struct d => ofMethods d.name 0 d.methods (((t.struct? d.name).map (·.methods)).getD [])
  | .enum _ | .stmt _ => []

/-- A routine that comes of a duty. -/
structure Done (t : SymbolTable) (j : Duty) (r : Typed.Routine) : Prop where
  owner : r.owner = j.owner
  sig : r.sig = j.sig
  good : j.sig.params.length = j.decl.params.length → r.Scopes t j.decl ∧ r.WellTyped t

theorem mem_ofMethods {struct : String} {j : Duty} : ∀ {slot : Nat} {ds : List FunctionDecl} {ms : List MethodSig},
    j ∈ ofMethods struct slot ds ms ↔
      ∃ i d m, ds[i]? = some d ∧ ms[i]? = some m ∧ j = ⟨d, some (struct, slot + i), m.sig⟩
  | _, [], _ => by simp [ofMethods]
  | _, _ :: _, [] => by simp [ofMethods]
  | _, d :: _, m :: _ => by
    rw [ofMethods, List.mem_cons, mem_ofMethods]
    constructor
    · rintro (rfl | ⟨i, d', m', hd, hm, rfl⟩)
      · exact ⟨0, d, m, rfl, rfl, rfl⟩
      · exact ⟨i + 1, d', m', hd, hm, by rw [Nat.add_right_comm, Nat.add_assoc]⟩
    · rintro ⟨_ | i, d', m', hd, hm, rfl⟩
      · cases hd
        cases hm
        exact .inl rfl
      · exact .inr ⟨i, d', m', hd, hm, by rw [Nat.add_right_comm, Nat.add_assoc]⟩

theorem map_decl_ofMethods {struct : String} : ∀ {slot : Nat} {ds : List FunctionDecl} {ms : List MethodSig},
    ms.length = ds.length → (ofMethods struct slot ds ms).map decl = ds
  | _, [], _, _ => rfl
  | _, _ :: _, _ :: _, h => by rw [ofMethods, List.map_cons, map_decl_ofMethods (Nat.succ.inj h)]

end Duty

/-- Every routine comes of a duty, and the other way round. -/
theorem exists_of_forall₂ {α β : Type} {R : α → β → Prop} {as : List α} {bs : List β} (h : List.Forall₂ R as bs) :
    (∀ b ∈ bs, ∃ a ∈ as, R a b) ∧ ∀ a ∈ as, ∃ b ∈ bs, R a b := by
  induction h with
  | nil => exact ⟨nofun, nofun⟩
  | cons hab _ ih => grind

namespace Check

variable {P : Span → Prop} {t : SymbolTable} {strict : Bool} {n : Nat}

theorem shows_outer (t : SymbolTable) (strict : Bool) (first : Nat) (ret : Ty) :
    ((outer t strict).function first ret).Shows t [] :=
  ⟨rfl, fun _ => rfl, by simp [Context.function, ScopeChain.push]⟩

section

variable (merge : ∀ {a b : Span}, P a → P b → P (a.merge b))

include merge

theorem gives_routine {owner : Option (String × Nat)} {d : FunctionDecl} {sig : FunctionSig}
    (h : AllGood P d.spans) : Gives P n (routine (outer t strict) owner d sig) fun r _ =>
      List.Forall₂ (Duty.Done t) ([⟨d, owner, sig⟩].filter Duty.hasBody) r.toList := by
  obtain ⟨hspan, -, -, hbody⟩ := SymbolTable.FunctionDecl.spans_good h
  unfold routine
  split
  next hnone =>
    rw [List.filter_cons_of_neg (by simp [Duty.hasBody, hnone])]
    exact yields_pure .nil
  next body hsome =>
    obtain ⟨ss, bodySpan⟩ := body
    have hss : AllGood P (stmtSpans ss) := (allGood_cons.1 (hbody _ hsome)).2
    refine yields_bind (yields_get (gives_declareParams.bind fun r n₁ hr => ?_))
    obtain ⟨vs, Γ⟩ := r
    dsimp only at hr
    obtain ⟨rfl, hnum, rfl, hlen⟩ := hr
    refine (gives_stmts merge ss hss (shows_outer t strict n sig.ret).bindAll.inner).bind fun us n₂ hus => ?_
    refine (answers_requireReturn hspan).bind fun _ hret => ?_
    rw [List.filter_cons_of_pos (by simp [Duty.hasBody, hsome])]
    refine yields_pure (.cons ⟨rfl, rfl, fun heq => ?_⟩ .nil)
    obtain ⟨hnames, htys⟩ := hlen heq
    exact ⟨⟨hnames, _, hsome, hus.1⟩, strict, n, n₂, us.2, hnum, htys, hus.2, hret⟩

theorem gives_methods {struct : String} : ∀ {ds : List FunctionDecl} {slot : Nat} {ms : List MethodSig} {n : Nat},
    (∀ d ∈ ds, AllGood P d.spans) → Gives P n (methods (outer t strict) struct slot ds ms) fun rs _ =>
      List.Forall₂ (Duty.Done t) ((Duty.ofMethods struct slot ds ms).filter Duty.hasBody) rs
  | [], _, _, _, _ => .nil
  | _ :: _, _, [], _, _ => .nil
  | _ :: _, _, _ :: _, _, h => by
    obtain ⟨hd, hds⟩ := List.forall_mem_cons.1 h
    refine (gives_routine merge hd).bind fun r _ hr => (gives_methods hds).bind fun rs _ hrs => yields_pure ?_
    rw [Duty.ofMethods, ← List.singleton_append, List.filter_append]
    exact List.rel_append hr hrs

theorem gives_routines : ∀ {items : List Item} {n : Nat}, (∀ i ∈ items, AllGood P i.spans) →
    Gives P n (routines (outer t strict) items) fun rs _ =>
      List.Forall₂ (Duty.Done t) ((items.flatMap (Duty.ofItem t)).filter Duty.hasBody) rs
  | [], _, _ => .nil
  | .function d :: items, n, h => by
    obtain ⟨hd, hitems⟩ := List.forall_mem_cons.1 h
    have hrest (r : Option Typed.Routine) {k : Nat}
        (hr : List.Forall₂ (Duty.Done t) ((Duty.ofItem t (.function d)).filter Duty.hasBody) r.toList) :
        Gives P k (do return r.toList ++ (← routines (outer t strict) items)) fun rs _ => List.Forall₂ (Duty.Done t)
          (((Item.function d :: items).flatMap (Duty.ofItem t)).filter Duty.hasBody) rs := by
      rw [List.flatMap_cons, List.filter_append]
      exact (gives_routines hitems).bind fun rs _ hrs => yields_pure (List.rel_append hr hrs)
    rw [routines]
    split
    next sig hext hsig =>
      refine (gives_routine merge hd).bind fun r _ hr => hrest r ?_
      rwa [Duty.ofItem, hext, show t.function? d.name = some sig from hsig]
    next hother =>
      refine yields_bind (yields_pure (hrest none ?_))
      rw [Duty.ofItem]
      cases hext : d.isExternal with
      | true => exact .nil
      | false =>
        cases hsig : t.function? d.name with
        | none => exact .nil
        | some sig => exact (hother sig hext hsig).elim
  | .struct _ :: _, _, h => by
    obtain ⟨hd, hitems⟩ := List.forall_mem_cons.1 h
    simp only [Item.spans, allGood_cons, allGood_append, allGood_flatMap] at hd
    rw [routines, List.flatMap_cons, List.filter_append]
    exact (gives_methods merge hd.2.2).bind fun ms _ hms => (gives_routines hitems).bind fun rs _ hrs =>
      yields_pure (List.rel_append hms hrs)
  | .enum _ :: items, n, h | .stmt _ :: items, n, h => by
    show Gives P n (routines (outer t strict) items) _
    exact gives_routines (List.forall_mem_cons.1 h).2

theorem gives_program {p : Program} (h : AllGood P p.spans) : Gives P n (do
    let rs ← routines (outer t strict) p.items
    let first ← get
    let (script, _) ← stmts ((outer t strict).function first .void) p.script
    return (⟨t, rs, script⟩ : Typed.Program)) fun q _ => q.symbols = t ∧
      List.Forall₂ (Duty.Done t) ((p.items.flatMap (Duty.ofItem t)).filter Duty.hasBody) q.routines ∧
      Lexical t (.stmts [] p.script q.script) ∧
        ∃ n n' returns, Derivable (.stmts ((outer t strict).function n .void) n q.script returns n') := by
  have hitems : ∀ i ∈ p.items, AllGood P i.spans := allGood_flatMap.1 (allGood_cons.1 h).2
  have hscript : AllGood P (stmtSpans p.script) := by
    rw [stmtSpans_eq]
    refine allGood_flatMap.2 fun s hs => ?_
    obtain ⟨i, hi, hstmt⟩ := List.mem_filterMap.1 hs
    split at hstmt
    next s' => cases hstmt; exact hitems _ hi
    next => cases hstmt
  refine (gives_routines merge hitems).bind fun rs first hrs => yields_bind (yields_get ?_)
  exact (gives_stmts merge p.script hscript (shows_outer t strict first .void)).bind fun us n' hus =>
    ⟨rfl, hrs, hus.1, first, n', us.2, hus.2⟩

end

end Check

/-- **A type error is at a place of the program, or covers two.** -/
theorem check_good {P : Span → Prop} (merge : ∀ {a b : Span}, P a → P b → P (a.merge b))
    {strictMatch : Bool} (h : AllGood P p.spans) : Placed P (check p strictMatch) := by
  have hitems : ∀ i ∈ p.items, AllGood P i.spans := allGood_flatMap.1 (allGood_cons.1 h).2
  refine (SymbolTable.placed_ofItems hitems).bind fun symbols => Placed.bind ?_ fun _ => .ok
  exact (Check.gives_program merge h).placed

/-! ## Programs -/

namespace Duty

variable {names t : SymbolTable} {items : List Item} {i : Item} {j : Duty}

/-- The signature of a duty is that of its declaration, and the table has it. -/
theorem declared (ht : names.Declares items t) (hnd : (t.structs.map (·.name)).Nodup) (hi : i ∈ items)
    (hj : j ∈ ofItem t i) : j.sig.params.length = j.decl.params.length ∧
      ∀ r : Typed.Routine, r.owner = j.owner → r.sig = j.sig → r.Declared t := by
  cases i with
  | function d =>
    obtain ⟨sig, hfind, hsig⟩ := ht.function?_eq hi
    obtain ⟨hname, hlen, hkind⟩ := SymbolTable.signature_spec hsig
    rw [ofItem, hfind] at hj
    split at hj
    · cases hj
    next hext =>
      obtain rfl := List.mem_singleton.1 hj
      refine ⟨hlen, fun r howner hr => ?_⟩
      rw [Typed.Routine.Declared, howner, hr]
      exact ⟨hname ▸ hfind, by simpa [hext] using hkind⟩
  | struct d =>
    obtain ⟨shape, hfind, hdesc⟩ := ht.struct?_eq hnd hi
    rw [ofItem, hfind] at hj
    obtain ⟨k, f, m, hf, hm, rfl⟩ := mem_ofMethods.1 hj
    refine ⟨(SymbolTable.signature_spec (hdesc.signature k m f hm hf)).2.1, fun r howner hr => ?_⟩
    rw [Typed.Routine.Declared, howner]
    exact ⟨shape, m, hfind, by simpa using hm, hr.symm⟩
  | enum | stmt => cases hj

/-- The declarations of the duties of an item are those that have bodies. -/
theorem map_decl_ofItem (ht : names.Declares items t) (hnd : (t.structs.map (·.name)).Nodup) (hi : i ∈ items) :
    ((ofItem t i).filter hasBody).map decl = i.bodies := by
  have hfilter (js : List Duty) : (js.filter hasBody).map decl = (js.map decl).flatMap FunctionDecl.bodies := by
    induction js with
    | nil => rfl
    | cons j js ih =>
      rw [List.filter_cons, List.map_cons, List.flatMap_cons, FunctionDecl.bodies, ← ih]
      unfold hasBody
      split <;> rfl
  rw [hfilter]
  cases i with
  | function d =>
    obtain ⟨sig, hfind, -⟩ := ht.function?_eq hi
    rw [ofItem, hfind, Item.bodies]
    split <;> simp
  | struct d =>
    obtain ⟨shape, hfind, hdesc⟩ := ht.struct?_eq hnd hi
    rw [ofItem, hfind, Option.map_some, Option.getD_some, map_decl_ofMethods hdesc.methods, Item.bodies]
  | enum | stmt => rfl

end Duty

section

variable {p : Program} {strict : Bool} {typed : Typed.Program}

/-- What checking a program gives. -/
theorem check_spec (h : check p strict = .ok typed) : ∃ names : SymbolTable, names.Declares p.items typed.symbols ∧
    (typed.symbols.structs.map (·.name)).Nodup ∧ List.Forall₂ (Duty.Done typed.symbols)
      ((p.items.flatMap (Duty.ofItem typed.symbols)).filter Duty.hasBody) typed.routines ∧
    Lexical typed.symbols (.stmts [] p.script typed.script) ∧ ∃ n n' returns,
      Derivable (.stmts ((Check.outer typed.symbols strict).function n .void) n typed.script returns n') := by
  simp only [check, except_bind_eq_ok, except_pure_eq_ok] at h
  obtain ⟨symbols, hsymbols, ⟨whole, n⟩, hrun, rfl⟩ := h
  obtain ⟨names, hdeclares, hstructs⟩ := SymbolTable.declares_of_ofItems hsymbols
  obtain ⟨rfl, hrest⟩ := (Check.gives_program (P := fun _ => True) (fun _ _ => trivial) fun _ _ => trivial).of_ok hrun
  exact ⟨names, hdeclares, hstructs, hrest⟩

/-- **Names of a checked program stand for what lexical scope says.** -/
theorem check_lexical (h : check p strict = .ok typed) :
    List.Forall₂ (Typed.Routine.Scopes typed.symbols) (p.items.flatMap Item.bodies) typed.routines ∧
      Lexical typed.symbols (.stmts [] p.script typed.script) := by
  obtain ⟨names, hd, hnd, hroutines, hscript, -⟩ := check_spec h
  refine ⟨?_, hscript⟩
  have hbodies : p.items.flatMap Item.bodies =
      ((p.items.flatMap (Duty.ofItem typed.symbols)).filter Duty.hasBody).map Duty.decl := by
    rw [List.filter_flatMap, List.map_flatMap]
    exact List.flatMap_congr fun i hi => (Duty.map_decl_ofItem hd hnd hi).symm
  rw [hbodies, List.forall₂_map_left_iff]
  refine ((List.forall₂_and_left _ _).2 ⟨fun j hj => ?_, hroutines⟩).imp fun j r hdone => (hdone.2.good hdone.1).1
  obtain ⟨i, hi, hj⟩ := List.mem_flatMap.1 (List.mem_filter.1 hj).1
  exact (Duty.declared hd hnd hi hj).1

theorem wellTyped_of_check (hbodies : ∀ i ∈ p.items, i.HasBodies) (h : check p strict = .ok typed) :
    typed.WellTyped := by
  obtain ⟨names, hd, hnd, hroutines, -, n, n', returns, hscript⟩ := check_spec h
  obtain ⟨hfrom, hto⟩ := exists_of_forall₂ hroutines
  exact {
    functionNames := hd.functionNames
    routines := fun r hr => by
      obtain ⟨j, hj, hdone⟩ := hfrom r hr
      obtain ⟨i, hi, hj⟩ := List.mem_flatMap.1 (List.mem_filter.1 hj).1
      obtain ⟨hlen, hdeclared⟩ := Duty.declared hd hnd hi hj
      exact ⟨(hdone.good hlen).2, hdeclared r hdone.owner hdone.sig⟩
    functionBody := fun {name sig} hfind hkind => by
      obtain ⟨hmem, rfl⟩ := SymbolTable.function?_mem hfind
      rcases hd.ofFunction sig hmem with ⟨b, rfl⟩ | ⟨d, hitem, hsig⟩
      · cases hkind
      · obtain ⟨hname, -, hk⟩ := SymbolTable.signature_spec hsig
        have hext : d.isExternal = false := by
          rw [hkind] at hk
          cases hext : d.isExternal with
          | true => simp [hext] at hk
          | false => rfl
        have hj : (⟨d, none, sig⟩ : Duty) ∈ Duty.ofItem typed.symbols (.function d) := by
          simp [Duty.ofItem, hext, ← hname, hfind]
        obtain ⟨r, hr, hdone⟩ := hto _ (List.mem_filter.2 ⟨List.mem_flatMap.2 ⟨_, hitem, hj⟩, hbodies _ hitem hext⟩)
        exact ⟨r, hr, hdone.owner, hdone.sig⟩
    methodBody := fun {struct shape slot m} hfind hm => by
      obtain ⟨hmem, rfl⟩ := SymbolTable.struct?_mem hfind
      obtain ⟨d, hitem, hdesc⟩ := hd.ofStruct shape hmem
      have hlt : slot < d.methods.length := hdesc.methods ▸ (List.getElem?_eq_some_iff.1 hm).1
      obtain ⟨f, hf⟩ : ∃ f, d.methods[slot]? = some f := ⟨_, List.getElem?_eq_getElem hlt⟩
      have hj : (⟨f, some (shape.name, slot), m.sig⟩ : Duty) ∈ Duty.ofItem typed.symbols (.struct d) := by
        rw [Duty.ofItem, ← hdesc.name, hfind]
        exact Duty.mem_ofMethods.2 ⟨slot, f, m, hf, hm, by rw [Nat.zero_add]⟩
      have hbody := hbodies _ hitem f (List.mem_of_getElem? hf)
      obtain ⟨r, hr, hdone⟩ := hto _ (List.mem_filter.2 ⟨List.mem_flatMap.2 ⟨_, hitem, hj⟩, hbody⟩)
      exact ⟨r, hr, hdone.owner, hdone.sig⟩
    script := ⟨strict, n, n', returns, hscript⟩ }

end

theorem checkSource_eq_ok : checkSource source strict = .ok typed ↔ ∃ tokens p, tokenize source = .ok tokens ∧
      parse tokens = .ok p ∧ check p strict = .ok typed := by
  simp only [checkSource, except_bind_eq_ok, except_mapError_eq_ok, exists_and_left]

/-- **A source text that passes the checker gives a well-typed program.** -/
theorem wellTyped_of_checkSource (h : checkSource source strict = .ok typed) : typed.WellTyped := by
  obtain ⟨tokens, p, -, hparse, hcheck⟩ := checkSource_eq_ok.1 h
  exact wellTyped_of_check (parse_hasBodies hparse) hcheck

end StackScript
