import StackScript.Proofs.Tree.Words
import StackScript.Proofs.Typing.Resolution

/-!
# Names of functions

## Design Notes

A method is named by its struct, a dot and a word.  A word has no dot, so the name of a method is neither
that of a function nor that of another method.
-/

namespace StackScript

open SymbolTable (functionName? structName?)

/-- The names of the functions and methods that a program declares, those of the host first. -/
def Typed.Program.declaredNames (p : Typed.Program) : List String :=
  (Plan.externalSigs p.symbols).map (·.name) ++ p.routines.map Typed.Routine.fullName

/-! ## Words -/

theorem IsWord.not_mem {name : String} (h : IsWord name) {c : Char} (hc : Identifier.isPart c = false) :
    c ∉ name.toList := by
  intro hmem
  rw [h c hmem] at hc
  cases hc

theorem IsWord.no_dot {name : String} (h : IsWord name) : '.' ∉ name.toList :=
  h.not_mem (by decide)

/-- Texts in front of a character that they do not have are the same if the whole texts are. -/
theorem append_cons_inj {α : Type} {c : α} : ∀ {as bs as' bs' : List α}, c ∉ as → c ∉ as' →
    as ++ c :: bs = as' ++ c :: bs' → as = as' ∧ bs = bs'
  | [], _, [], _, _, _, h => ⟨rfl, (List.cons.inj h).2⟩
  | [], _, _ :: _, _, _, h', h => absurd (List.cons.inj h).1 (List.ne_of_not_mem_cons h')
  | _ :: _, _, [], _, h', _, h => absurd (List.cons.inj h).1.symm (List.ne_of_not_mem_cons h')
  | _ :: _, _, _ :: _, _, hc, hc', h => by
    obtain ⟨rfl, htail⟩ := List.cons.inj h
    obtain ⟨rfl, rfl⟩ := append_cons_inj (List.not_mem_of_not_mem_cons hc) (List.not_mem_of_not_mem_cons hc') htail
    exact ⟨rfl, rfl⟩

theorem toList_methodName (struct name : String) :
    (struct ++ "." ++ name).toList = struct.toList ++ '.' :: name.toList := by
  simp [String.toList_append]

theorem methodName_inj {s n s' n' : String} (hs : IsWord s) (hs' : IsWord s')
    (h : s ++ "." ++ n = s' ++ "." ++ n') : s = s' ∧ n = n' := by
  have hlist := congrArg String.toList h
  rw [toList_methodName, toList_methodName] at hlist
  obtain ⟨hstruct, hname⟩ := append_cons_inj hs.no_dot hs'.no_dot hlist
  exact ⟨String.toList_injective hstruct, String.toList_injective hname⟩

theorem IsWord.ne_methodName {name s n : String} (h : IsWord name) : name ≠ s ++ "." ++ n := by
  rintro rfl
  exact h.no_dot (by simp)

/-! ## Routines of items -/

/-- The names of the routines of an item. -/
def Item.routineNames (t : SymbolTable) : Item → List String
  | .function d => if d.isExternal then [] else [d.name]
  | .struct d => (((t.struct? d.name).map (·.methods)).getD []).map fun m => d.name ++ "." ++ m.sig.name
  | _ => []

namespace Duty

/-- The name of the routine of a duty. -/
def fullName (j : Duty) : String :=
  match j.owner with
  | some (struct, _) => struct ++ "." ++ j.sig.name
  | none => j.sig.name

theorem fullName_ofMethods {struct : String} : ∀ {slot : Nat} {ds : List FunctionDecl} {ms : List MethodSig},
    List.Sublist ((ofMethods struct slot ds ms).map fullName) (ms.map fun m => struct ++ "." ++ m.sig.name)
  | _, [], _ => List.nil_sublist _
  | _, _ :: _, [] => List.nil_sublist _
  | _, _ :: _, _ :: _ => fullName_ofMethods.cons_cons _

theorem fullName_ofItem (t : SymbolTable) (i : Item) : List.Sublist ((ofItem t i).map fullName) (i.routineNames t) := by
  cases i with
  | function d =>
    rw [ofItem, Item.routineNames]
    split
    · exact List.nil_sublist _
    · cases hfind : t.function? d.name with
      | none => exact List.nil_sublist _
      | some sig => simp [fullName, (SymbolTable.function?_mem hfind).2]
  | struct d => exact fullName_ofMethods
  | enum | stmt => exact List.nil_sublist _

theorem Done.fullName_eq {t : SymbolTable} {j : Duty} {r : Typed.Routine} (h : j.Done t r) :
    r.fullName = j.fullName := by
  obtain ⟨owner, sig, params, body⟩ := r
  have howner : owner = j.owner := h.owner
  have hsig : sig = j.sig := h.sig
  subst howner hsig
  rfl

/-- Routines have the names of their duties. -/
theorem map_fullName {t : SymbolTable} {js : List Duty} {rs : List Typed.Routine}
    (h : List.Forall₂ (Done t) js rs) : rs.map Typed.Routine.fullName = js.map fullName := by
  induction h with
  | nil => rfl
  | cons hdone _ ih => rw [List.map_cons, List.map_cons, ih, hdone.fullName_eq]

end Duty

/-! ## Declared names -/

/-- The functions of a program, and its methods and their structs, are named by words. -/
structure Typed.Program.Worded (p : Typed.Program) : Prop where
  functions : ∀ sig ∈ p.symbols.functions, (∀ b, sig.kind ≠ .builtin b) → IsWord sig.name
  routines : ∀ r ∈ p.routines, IsWord r.sig.name
  owners : ∀ r ∈ p.routines, ∀ struct slot, r.owner = some (struct, slot) → IsWord struct

section

variable {names t : SymbolTable} {items : List Item}

/-- The name of a routine is the word of a function, or it has a struct in front. -/
theorem mem_routineNames {i : Item} {name : String} (h : name ∈ i.routineNames t) :
    (∃ d, i = .function d ∧ d.isExternal = false ∧ name = d.name) ∨
      ∃ d n, i = .struct d ∧ name = d.name ++ "." ++ n := by
  cases i with
  | function d =>
    rw [Item.routineNames] at h
    split at h
    · cases h
    next hext => exact .inl ⟨d, rfl, by simpa using hext, List.mem_singleton.1 h⟩
  | struct d =>
    obtain ⟨m, -, rfl⟩ := List.mem_map.1 h
    exact .inr ⟨d, m.sig.name, rfl, rfl⟩
  | enum | stmt => cases h

theorem nodup_routineNames_item (ht : names.Declares items t) (hstructs : (t.structs.map (·.name)).Nodup)
    {i : Item} (hi : i ∈ items) : (i.routineNames t).Nodup := by
  cases i with
  | function d =>
    rw [Item.routineNames]
    split
    · exact List.nodup_nil
    · exact List.nodup_singleton _
  | struct d =>
    obtain ⟨shape, hfind, hshape⟩ := ht.struct?_eq hstructs hi
    have hnodup := hshape.methodNames
    rw [Item.routineNames, hfind, Option.map_some, Option.getD_some]
    rw [List.Nodup, List.pairwise_map] at hnodup ⊢
    refine hnodup.imp fun hne heq => hne ?_
    have hlist := congrArg String.toList heq
    rw [toList_methodName, toList_methodName] at hlist
    exact String.toList_injective (List.cons.inj (List.append_cancel_left hlist)).2
  | enum | stmt => exact List.nodup_nil

/-- The routines of items have different names. -/
theorem nodup_routineNames (ht : names.Declares items t) (hstructs : (t.structs.map (·.name)).Nodup)
    (hwords : ∀ i ∈ items, i.Worded) : (items.flatMap (Item.routineNames t)).Nodup := by
  have hfunctions : (items.filterMap functionName?).Nodup := by
    have hnodup := ht.functionNames
    rw [ht.functionItems] at hnodup
    exact hnodup.of_append_right
  have hstructs' : (items.filterMap structName?).Nodup := ht.structNames ▸ hstructs
  refine List.nodup_flatMap.2 ⟨fun i => nodup_routineNames_item ht hstructs, ?_⟩
  have hapart := (List.pairwise_filterMap.1 hfunctions).and (List.pairwise_filterMap.1 hstructs')
  refine hapart.imp_of_mem fun {i j} hi hj ⟨hfunction, hstruct⟩ name hname hname' => ?_
  have hwi := hwords i hi
  have hwj := hwords j hj
  rcases mem_routineNames hname with ⟨d, rfl, -, rfl⟩ | ⟨d, n, rfl, rfl⟩ <;>
    rcases mem_routineNames hname' with ⟨d', rfl, -, heq⟩ | ⟨d', n', rfl, heq⟩
  · exact hfunction d.name rfl d'.name rfl heq
  · exact IsWord.ne_methodName hwi heq
  · exact IsWord.ne_methodName hwj heq.symm
  · exact hstruct d.name rfl d'.name rfl (methodName_inj hwi.1 hwj.1 heq).1

/-- A function of the host is named by no routine. -/
theorem external_not_mem_routineNames (ht : names.Declares items t) (hwords : ∀ i ∈ items, i.Worded)
    {sig : FunctionSig} (hsig : sig ∈ t.functions) (hkind : sig.kind = .external) :
    sig.name ∉ items.flatMap (Item.routineNames t) := by
  intro hmem
  obtain ⟨i, hi, hname⟩ := List.mem_flatMap.1 hmem
  rcases ht.ofFunction sig hsig with ⟨b, rfl⟩ | ⟨d, hd, hdsig⟩
  · cases hkind
  · obtain ⟨hdname, -, hdkind⟩ := SymbolTable.signature_spec hdsig
    have hword : IsWord sig.name := hdname ▸ hwords _ hd
    rcases mem_routineNames hname with ⟨d', rfl, hext, heq⟩ | ⟨d', n, rfl, heq⟩
    · obtain ⟨sig', hfind, hsig'⟩ := ht.function?_eq hi
      obtain ⟨hmem', hname'⟩ := SymbolTable.function?_mem hfind
      have hself := SymbolTable.find?_name_of_mem ht.functionNames hsig
      rw [heq, show t.functions.find? (·.name = d'.name) = some sig' from hfind] at hself
      obtain rfl := Option.some.inj hself
      rw [(SymbolTable.signature_spec hsig').2.2, hext] at hkind
      cases hkind
    · exact hword.ne_methodName heq

end

section

variable {source : String} {strictMatch : Bool} {p : Typed.Program}

/-- **The names of a source text are made of words.** -/
theorem worded_of_checkSource (h : checkSource source strictMatch = .ok p) : p.Worded := by
  have htyped := wellTyped_of_checkSource h
  obtain ⟨tokens, tree, htokens, hparse, hcheck⟩ := checkSource_eq_ok.1 h
  have hwords := worded_of_parse htokens hparse
  obtain ⟨names, hdeclares, -⟩ := check_spec hcheck
  have hfunctions : ∀ sig ∈ p.symbols.functions, (∀ b, sig.kind ≠ .builtin b) → IsWord sig.name := by
    intro sig hsig hkind
    rcases hdeclares.ofFunction sig hsig with ⟨b, rfl⟩ | ⟨d, hd, hdsig⟩
    · exact absurd rfl (hkind b)
    · exact (SymbolTable.signature_spec hdsig).1 ▸ hwords _ hd
  have howned : ∀ r ∈ p.routines, ∀ struct slot, r.owner = some (struct, slot) → IsWord struct ∧ IsWord r.sig.name := by
    intro r hr struct slot howner
    have hdeclared := (htyped.routines r hr).2
    rw [Typed.Routine.Declared, howner] at hdeclared
    obtain ⟨shape, m, hfind, hm, hsig⟩ := hdeclared
    obtain ⟨hmem, rfl⟩ := SymbolTable.struct?_mem hfind
    obtain ⟨d, hd, hshape⟩ := hdeclares.ofStruct shape hmem
    obtain ⟨hword, hmethods⟩ := hwords _ hd
    refine ⟨hshape.name ▸ hword, ?_⟩
    have hlt : slot < d.methods.length := hshape.methods ▸ (List.getElem?_eq_some_iff.1 hm).1
    have hsignature := hshape.signature slot m _ hm (List.getElem?_eq_getElem hlt)
    rw [← hsig, (SymbolTable.signature_spec hsignature).1]
    exact hmethods _ (List.getElem_mem hlt)
  refine ⟨hfunctions, fun r hr => ?_, fun r hr struct slot howner => (howned r hr struct slot howner).1⟩
  cases howner : r.owner with
  | none =>
    have hdeclared := (htyped.routines r hr).2
    rw [Typed.Routine.Declared, howner] at hdeclared
    refine hfunctions r.sig (SymbolTable.function?_mem hdeclared.1).1 fun b hb => ?_
    rw [hdeclared.2] at hb
    cases hb
  | some owner => exact (howned r hr owner.1 owner.2 howner).2

/-- **No two functions or methods of a source text have the same name.** -/
theorem nodup_declaredNames (h : checkSource source strictMatch = .ok p) : p.declaredNames.Nodup := by
  obtain ⟨tokens, tree, htokens, hparse, hcheck⟩ := checkSource_eq_ok.1 h
  have hwords := worded_of_parse htokens hparse
  obtain ⟨names, hdeclares, hstructs, hdone, -⟩ := check_spec hcheck
  have hroutines : List.Sublist (p.routines.map Typed.Routine.fullName)
      (tree.items.flatMap (Item.routineNames p.symbols)) := by
    rw [Duty.map_fullName hdone]
    refine (List.filter_sublist.map _).trans ?_
    induction tree.items with
    | nil => exact List.nil_sublist _
    | cons i items ih =>
      rw [List.flatMap_cons, List.flatMap_cons, List.map_append]
      exact (Duty.fullName_ofItem p.symbols i).append ih
  refine List.nodup_append.2 ⟨?_, (nodup_routineNames hdeclares hstructs hwords).sublist hroutines, ?_⟩
  · exact hdeclares.functionNames.sublist (List.filter_sublist.map _)
  · intro a ha b hb
    obtain ⟨sig, hsig, rfl⟩ := List.mem_map.1 ha
    obtain ⟨hsig, hkind⟩ := List.mem_filter.1 hsig
    rintro rfl
    exact external_not_mem_routineNames hdeclares hwords hsig (of_decide_eq_true hkind) (hroutines.subset hb)

end

end StackScript
