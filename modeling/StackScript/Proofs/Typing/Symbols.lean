import Mathlib.Data.List.Nodup
import StackScript.Proofs.Steps
import StackScript.Typing.Declarations

/-!
# What a symbol table declares

The table of a program holds what its items declare, and nothing else under the same names.
-/

namespace StackScript

namespace SymbolTable

/-- The name of a struct that an item declares. -/
def structName? : Item → Option String
  | .struct d => some d.name
  | _ => none

/-- The name of a function that an item declares. -/
def functionName? : Item → Option String
  | .function d => some d.name
  | _ => none

/-- The struct has the name and the methods of the declaration; `names` knows all type names. -/
structure Describes (names : SymbolTable) (d : StructDecl) (shape : StructShape) : Prop where
  name : shape.name = d.name
  methods : shape.methods.length = d.methods.length
  signature : ∀ (i : Nat) (m : MethodSig) (f : FunctionDecl), shape.methods[i]? = some m →
    d.methods[i]? = some f → names.signature f = .ok m.sig
  methodNames : (shape.methods.map (·.sig.name)).Nodup

/-- The table holds what the items declare; `names` knows all type names. -/
structure Declares (names : SymbolTable) (items : List Item) (t : SymbolTable) : Prop where
  functionOf : ∀ d, .function d ∈ items → ∃ sig ∈ t.functions, names.signature d = .ok sig
  ofFunction : ∀ sig ∈ t.functions, (∃ b, sig = .ofBuiltin b) ∨
    ∃ d, .function d ∈ items ∧ names.signature d = .ok sig
  functionNames : (t.functions.map (·.name)).Nodup
  functionItems : t.functions.map (·.name) =
    initial.functions.map (·.name) ++ items.filterMap functionName?
  structOf : ∀ d, .struct d ∈ items → ∃ shape ∈ t.structs, names.Describes d shape
  ofStruct : ∀ shape ∈ t.structs, ∃ d, .struct d ∈ items ∧ names.Describes d shape
  structNames : t.structs.map (·.name) = items.filterMap structName?

/-! ## Signatures -/

variable {t names t' : SymbolTable} {sig : FunctionSig} {name : String} {items : List Item} {item : Item}

theorem resolveAll_length : ∀ {es : List TypeExpr} {tys : List Ty}, t.resolveAll es = .ok tys → tys.length = es.length
  | [], _, h => by
    cases h
    rfl
  | _ :: _, tys, h => by
    simp only [resolveAll, except_bind_eq_ok, except_pure_eq_ok] at h
    obtain ⟨ty, -, tys, h, rfl⟩ := h
    simp [resolveAll_length h]

theorem signature_spec {d : FunctionDecl} (h : t.signature d = .ok sig) :
    sig.name = d.name ∧ sig.params.length = d.params.length ∧
      sig.kind = if d.isExternal then .external else .user := by
  simp only [signature, except_bind_eq_ok, except_pure_eq_ok] at h
  obtain ⟨params, hp, ret, -, rfl⟩ := h
  refine ⟨rfl, ?_, rfl⟩
  rw [resolveAll_length hp, List.length_map]

theorem addMethods_spec {fields : List (String × Ty)} : ∀ {ds : List FunctionDecl} {before after : List MethodSig},
      t.addMethods fields before ds = .ok after → ∃ ms, after = before ++ ms ∧ ms.length = ds.length ∧
          (∀ (i : Nat) (m : MethodSig) (f : FunctionDecl), ms[i]? = some m → ds[i]? = some f →
            t.signature f = .ok m.sig) ∧ ((before.map (·.sig.name)).Nodup → (after.map (·.sig.name)).Nodup)
  | [], _, _, h => by
    cases h
    exact ⟨[], by simp, rfl, fun i m f hm => by simp at hm, id⟩
  | d :: _, before, _, h => by
    rw [addMethods] at h
    split at h
    · cases h
    next hnew =>
      simp only [except_bind_eq_ok] at h
      obtain ⟨sig, hsig, h⟩ := h
      obtain ⟨ms, rfl, hlen, hms, hnodup⟩ := addMethods_spec h
      refine ⟨⟨d.hasSelf, sig⟩ :: ms, by simp, by simp [hlen], ?_, fun hbefore => hnodup ?_⟩
      · intro i m f hm hf
        cases i with
        | zero =>
          cases hm
          cases hf
          exact hsig
        | succ i => exact hms i m f hm hf
      · have hfresh : ∀ m ∈ before, m.sig.name ≠ sig.name := by
          rw [Bool.or_eq_true, not_or] at hnew
          simpa [(signature_spec hsig).1] using hnew.2
        rw [List.map_append, List.nodup_append]
        refine ⟨hbefore, by simp, ?_⟩
        intro a ha b hb
        obtain ⟨m, hm, rfl⟩ := List.mem_map.mp ha
        obtain rfl := List.mem_singleton.mp hb
        exact hfresh m hm

/-! ## Adding items -/

theorem find?_name_of_mem {α : Type} {name : α → String} {a : α} :
    ∀ {as : List α}, (as.map name).Nodup → a ∈ as → as.find? (name · = name a) = some a
  | b :: _, hnd, ha => by
    rw [List.map_cons, List.nodup_cons] at hnd
    rw [List.find?_cons]
    obtain rfl | ha := List.mem_cons.mp ha
    · simp
    · have hne : name b ≠ name a := fun h => hnd.1 (h ▸ List.mem_map_of_mem ha)
      simp only [hne, decide_false]
      exact find?_name_of_mem hnd.2 ha

theorem Declares.initial (names : SymbolTable) : names.Declares [] initial where
  functionOf := nofun
  ofFunction := fun sig hsig => by
    obtain ⟨b, -, rfl⟩ := List.mem_map.mp hsig
    exact .inl ⟨b, rfl⟩
  functionNames := by decide
  functionItems := (List.append_nil _).symm
  structOf := nofun
  ofStruct := nofun
  structNames := rfl

/-- An item that declares neither a function nor a struct. -/
theorem Declares.skip (ht : names.Declares items t) (hf : ∀ d, item ≠ .function d) (hs : ∀ d, item ≠ .struct d)
    (functions : t'.functions = t.functions) (structs : t'.structs = t.structs) :
    names.Declares (items ++ [item]) t' where
  functionOf := fun d hd => by
    rw [functions]
    refine ht.functionOf d ?_
    simpa [(hf d).symm] using hd
  ofFunction := fun sig hsig => by
    rw [functions] at hsig
    exact (ht.ofFunction sig hsig).imp_right fun ⟨d, hd, h⟩ => ⟨d, by simp [hd], h⟩
  functionNames := by
    rw [functions]
    exact ht.functionNames
  functionItems := by
    rw [functions, ht.functionItems]
    cases item with
    | function d => exact (hf d rfl).elim
    | struct | enum | stmt => simp [functionName?]
  structOf := fun d hd => by
    rw [structs]
    refine ht.structOf d ?_
    simpa [(hs d).symm] using hd
  ofStruct := fun shape hshape => by
    rw [structs] at hshape
    obtain ⟨d, hd, h⟩ := ht.ofStruct shape hshape
    exact ⟨d, by simp [hd], h⟩
  structNames := by
    rw [structs, ht.structNames]
    cases item with
    | struct d => exact (hs d rfl).elim
    | function | enum | stmt => simp [structName?]

/-- One more item. -/
theorem Declares.afterItem
    (ht : names.Declares items t) (h : names.addItem t item = .ok t') : names.Declares (items ++ [item]) t' := by
  cases item with
  | struct d =>
    simp only [addItem, except_bind_eq_ok, except_pure_eq_ok] at h
    obtain ⟨fields, -, methods, hm, rfl⟩ := h
    obtain ⟨ms, hmethods, hlen, hms, hnodup⟩ := addMethods_spec hm
    obtain rfl : methods = ms := hmethods
    have hd : names.Describes d ⟨d.name, fields, methods⟩ := ⟨rfl, hlen, hms, hnodup List.nodup_nil⟩
    exact {
      functionOf := fun f hf => ht.functionOf f (by simpa using hf)
      ofFunction := fun sig hsig => (ht.ofFunction sig hsig).imp_right fun ⟨f, hf, hs⟩ =>
        ⟨f, by simp [hf], hs⟩
      functionNames := ht.functionNames
      functionItems := by simp [ht.functionItems, functionName?]
      structOf := fun f hf => by
        rcases List.mem_append.mp hf with hf | hf
        · obtain ⟨shape, hs, hd⟩ := ht.structOf f hf
          exact ⟨shape, by simp [hs], hd⟩
        · obtain rfl : f = d := by simpa using hf
          exact ⟨_, by simp, hd⟩
      ofStruct := fun shape hs => by
        rcases List.mem_append.mp hs with hs | hs
        · obtain ⟨f, hf, hd⟩ := ht.ofStruct shape hs
          exact ⟨f, by simp [hf], hd⟩
        · obtain rfl := List.mem_singleton.mp hs
          exact ⟨d, by simp, hd⟩
      structNames := by simp [ht.structNames, structName?] }
  | enum d =>
    simp only [addItem, except_bind_eq_ok, except_pure_eq_ok] at h
    obtain ⟨variants, -, rfl⟩ := h
    exact ht.skip nofun nofun rfl rfl
  | function d =>
    rw [addItem] at h
    split at h
    · cases h
    · next hnew =>
      simp only [except_bind_eq_ok] at h
      obtain ⟨sig, hsig, h⟩ := h
      split at h
      · cases h
      · cases h
        have hname : sig.name = d.name := (signature_spec hsig).1
        have hfresh : ∀ f ∈ t.functions, f.name ≠ sig.name := by
          simpa [function?, hname] using hnew
        exact {
          functionOf := fun f hf => by
            rcases List.mem_append.mp hf with hf | hf
            · obtain ⟨s, hs, hd⟩ := ht.functionOf f hf
              exact ⟨s, by simp [hs], hd⟩
            · obtain rfl : f = d := by simpa using hf
              exact ⟨sig, by simp, hsig⟩
          ofFunction := fun s hs => by
            rcases List.mem_append.mp hs with hs | hs
            · exact (ht.ofFunction s hs).imp_right fun ⟨f, hf, hs⟩ => ⟨f, by simp [hf], hs⟩
            · obtain rfl := List.mem_singleton.mp hs
              exact .inr ⟨d, by simp, hsig⟩
          functionNames := by
            simp only [List.map_append, List.map_cons, List.map_nil, List.nodup_append]
            refine ⟨ht.functionNames, by simp, ?_⟩
            intro a ha b hb
            obtain ⟨f, hf, rfl⟩ := List.mem_map.mp ha
            obtain rfl := List.mem_singleton.mp hb
            exact hfresh f hf
          functionItems := by simp [ht.functionItems, functionName?, hname]
          structOf := fun f hf => ht.structOf f (by simpa using hf)
          ofStruct := fun shape hs => by
            obtain ⟨f, hf, h⟩ := ht.ofStruct shape hs
            exact ⟨f, by simp [hf], h⟩
          structNames := by simp [ht.structNames, structName?] }
  | stmt s =>
    cases h
    exact ht.skip nofun nofun rfl rfl

theorem Declares.afterItems : ∀ {items : List Item} {before : List Item}
    {t t' : SymbolTable}, names.Declares before t → items.foldlM (addItem names) t = .ok t' →
      names.Declares (before ++ items) t'
  | [], _, _, _, ht, h => by
    cases h
    simpa using ht
  | _ :: _, _, _, _, ht, h => by
    rw [List.foldlM_cons, except_bind_eq_ok] at h
    obtain ⟨t₁, h₁, h⟩ := h
    simpa using (ht.afterItem h₁).afterItems h

/-! ## Names of structs -/

theorem structNames_addTypeName (h : t.addTypeName item = .ok t') :
    t'.structs.map (·.name) = t.structs.map (·.name) ++ (structName? item).toList ∧
      ((t.structs.map (·.name)).Nodup → (t'.structs.map (·.name)).Nodup) := by
  unfold addTypeName at h
  split at h
  · next d =>
    split at h
    · cases h
    · next hnew =>
      cases h
      have hfresh : ∀ s ∈ t.structs, s.name ≠ d.name := by
        simp only [isTypeName, Bool.or_eq_true, not_or] at hnew
        simpa [struct?] using hnew.1.1
      refine ⟨by simp [structName?], fun hnd => ?_⟩
      simp only [List.map_append, List.map_cons, List.map_nil, List.nodup_append]
      refine ⟨hnd, by simp, ?_⟩
      intro a ha b hb
      obtain ⟨s, hs, rfl⟩ := List.mem_map.mp ha
      obtain rfl := List.mem_singleton.mp hb
      exact hfresh s hs
  · split at h
    · cases h
    · cases h
      exact ⟨by simp [structName?], id⟩
  · next hs he =>
    cases h
    cases item with
    | struct d => exact (hs d rfl).elim
    | enum d => exact (he d rfl).elim
    | function | stmt => exact ⟨by simp [structName?], id⟩

theorem structNames_foldlM : ∀ {items : List Item} {t t' : SymbolTable}, items.foldlM addTypeName t = .ok t' →
      t'.structs.map (·.name) = t.structs.map (·.name) ++ items.filterMap structName? ∧
        ((t.structs.map (·.name)).Nodup → (t'.structs.map (·.name)).Nodup)
  | [], _, _, h => by
    cases h
    exact ⟨by simp, id⟩
  | item :: _, _, _, h => by
    rw [List.foldlM_cons, except_bind_eq_ok] at h
    obtain ⟨t₁, h₁, h⟩ := h
    obtain ⟨hone, hnd⟩ := structNames_addTypeName h₁
    obtain ⟨hrest, hnd'⟩ := structNames_foldlM h
    refine ⟨?_, fun h => hnd' (hnd h)⟩
    rw [hrest, hone, List.append_assoc, List.filterMap_cons]
    cases structName? item <;> simp

/-- **The table of a program declares its items.** -/
theorem declares_of_ofItems (h : ofItems items = .ok t) :
    ∃ names : SymbolTable, names.Declares items t ∧ (t.structs.map (·.name)).Nodup := by
  simp only [ofItems, except_bind_eq_ok] at h
  obtain ⟨names, hnames, h⟩ := h
  have hd : names.Declares items t := by simpa using (Declares.initial names).afterItems h
  obtain ⟨heq, hnd⟩ := structNames_foldlM hnames
  refine ⟨names, hd, ?_⟩
  have hnodup := hnd List.nodup_nil
  rw [heq] at hnodup
  rw [hd.structNames]
  simpa [initial] using hnodup

/-! ## Looking up -/

theorem function?_mem (h : t.function? name = some sig) : sig ∈ t.functions ∧ sig.name = name :=
  ⟨List.mem_of_find?_eq_some h, by simpa using List.find?_some h⟩

theorem struct?_mem {shape : StructShape} (h : t.struct? name = some shape) : shape ∈ t.structs ∧ shape.name = name :=
  ⟨List.mem_of_find?_eq_some h, by simpa using List.find?_some h⟩

namespace Declares

variable {names t : SymbolTable} {items : List Item}

/-- Looking up a declared function finds its signature. -/
theorem function?_eq (ht : names.Declares items t) {d : FunctionDecl} (hd : .function d ∈ items) :
    ∃ sig, t.function? d.name = some sig ∧ names.signature d = .ok sig := by
  obtain ⟨sig, hmem, hsig⟩ := ht.functionOf d hd
  refine ⟨sig, ?_, hsig⟩
  rw [← (signature_spec hsig).1]
  exact find?_name_of_mem ht.functionNames hmem

/-- Looking up a declared struct finds its shape. -/
theorem struct?_eq (ht : names.Declares items t) (hnd : (t.structs.map (·.name)).Nodup)
    {d : StructDecl} (hd : .struct d ∈ items) : ∃ shape, t.struct? d.name = some shape ∧ names.Describes d shape := by
  obtain ⟨shape, hmem, hs⟩ := ht.structOf d hd
  refine ⟨shape, ?_, hs⟩
  rw [← hs.name]
  exact find?_name_of_mem hnd hmem

end Declares

end SymbolTable

end StackScript
