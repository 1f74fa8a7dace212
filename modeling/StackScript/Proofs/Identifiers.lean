import Mathlib.Data.List.Nodup
import Mathlib.Data.List.Perm.Basic
import StackScript.Machine.Text
import StackScript.Proofs.Structure
import StackScript.Proofs.Typing.Names

/-!
# Identifiers in the text form

The text form of a module declares an identifier for each import and each function, and calls and the table
refer to functions by them.

## Design Notes

A generated name has a dollar sign behind a declared name or behind `lambda`, and no other name has a
dollar sign.  So generated names collide neither with others nor among each other, and identifiers are
distinct as soon as those of the names from declarations and of the fixed names are.
-/

namespace StackScript

/-! ## Written names -/

/-- The characters of a name as it is written. -/
def nameKey (name : String) : List Char :=
  name.toList.map nameChar

@[simp] theorem nameKey_append (a b : String) : nameKey (a ++ b) = nameKey a ++ nameKey b := by
  simp [nameKey]

theorem nameText_eq (name : String) : nameText name = "$" ++ String.ofList (nameKey name) := rfl

theorem nameText_inj {a b : String} : nameText a = nameText b ↔ nameKey a = nameKey b := by
  constructor
  · intro h
    have hlist := congrArg String.toList h
    simpa [nameText_eq] using hlist
  · intro h
    rw [nameText_eq, nameText_eq, h]

/-- Identifiers are distinct exactly if their characters are. -/
theorem nodup_map_nameText {names : List String} : (names.map nameText).Nodup ↔ (names.map nameKey).Nodup := by
  rw [List.Nodup, List.pairwise_map, List.Nodup, List.pairwise_map]
  simp only [ne_eq, nameText_inj]

theorem nameChar_of_isAlphanum {c : Char} (h : c.isAlphanum = true) : nameChar c = c := by
  rw [nameChar, h, Bool.true_or, if_pos rfl]

theorem nameChar_eq_or (c : Char) : nameChar c = c ∨ nameChar c = '_' := by
  unfold nameChar
  split
  · exact .inl rfl
  · exact .inr rfl

/-- A text that is made of characters of identifiers and of dots. -/
def IsName (name : String) : Prop :=
  ∀ c ∈ name.toList, Identifier.isPart c = true ∨ c = '.'

theorem IsWord.isName {name : String} (h : IsWord name) : IsName name :=
  fun c hc => .inl (h c hc)

theorem IsName.no_dollar {name : String} (h : IsName name) : '$' ∉ nameKey name := by
  intro hmem
  obtain ⟨c, hc, heq⟩ := List.mem_map.1 hmem
  rcases nameChar_eq_or c with hself | hunder
  · obtain rfl : c = '$' := hself.symm.trans heq
    exact absurd (h '$' hc) (by decide)
  · rw [hunder] at heq
    cases heq

/-- A name of ASCII characters is written as it is. -/
theorem IsName.nameKey_eq {name : String} (h : IsName name) (hascii : ∀ c ∈ name.toList, c.toNat < 128) :
    nameKey name = name.toList := by
  refine (List.map_congr_left fun c hc => ?_).trans (List.map_id _)
  rcases h c hc with hpart | rfl
  · rw [Identifier.isPart, if_pos (hascii c hc), Bool.or_eq_true, beq_iff_eq] at hpart
    rcases hpart with hpart | rfl
    · exact nameChar_of_isAlphanum hpart
    · rfl
  · rfl

/-- The digits of a number are written as they are. -/
theorem nameKey_toString (n : Nat) : nameKey (toString n) = Nat.toDigits 10 n := by
  have hdigits : ∀ c ∈ Nat.toDigits 10 n, nameChar c = c := fun c hc => by
    have hdigit := Nat.isDigit_of_mem_toDigits (by decide) (by decide) hc
    exact nameChar_of_isAlphanum (by rw [Char.isAlphanum, hdigit, Bool.or_true])
  rw [nameKey, Nat.toString_eq_ofList_toDigits, String.toList_ofList]
  exact (List.map_congr_left hdigits).trans (List.map_id _)

/-! ## Names of functions -/

/-- The name of the function of a job. -/
def Job.name : Job → String
  | .lambda id _ _ _ _ => "lambda$" ++ toString id
  | .thunk sig => sig.name ++ "$thunk"

/-- The number of the function literal of a job. -/
def Job.literal? : Job → Option Nat
  | .lambda id _ _ _ _ => some id
  | .thunk _ => none

theorem Job.literals_eq (j : Job) : j.literals = j.literal?.toList ++ Typed.literalIds j.nodes := by
  cases j <;> rfl

/-- The names of the functions of a routine. -/
def Typed.Routine.functionNames (r : Typed.Routine) : List String :=
  if r.sig.isAsync then [r.fullName, r.fullName ++ "$entry"] else [r.fullName]

variable {fns : List Function}

namespace Emit

variable {plan : Plan} {config : CompileConfig} {st st' : State}

theorem name_function {name : String} {params : List ValType} {ret : Option ValType} {exported : Option String}
    {body : Emit (List Code)} {f : Function}
    (h : (function name params ret exported body).run st = .ok (f, st')) : f.name = name := by
  obtain ⟨code, -, rfl⟩ := run_function.1 h
  rfl

theorem name_job {j : Job} {f : Function} (h : (job plan j).run st = .ok (f, st')) : f.name = j.name := by
  cases j with
  | lambda id ty params captures body =>
    cases ty with
    | fn paramTys ret => exact name_function h
    | _ => cases h
  | thunk sig => exact name_function h

theorem names_routine {f : Plan.Placed} (h : (routine plan config f).run st = .ok (fns, st')) :
    fns.map (·.name) = f.routine.functionNames := by
  rw [Typed.Routine.functionNames]
  cases hasync : f.routine.sig.isAsync with
  | false =>
    rw [routine_plain plan config hasync] at h
    simp only [run_bind_eq_ok, run_pure_eq_ok] at h
    obtain ⟨g, _, hg, rfl, -⟩ := h
    simp [name_function hg]
  | true =>
    rw [routine_async plan config hasync] at h
    simp only [run_bind_eq_ok, run_pure_eq_ok] at h
    obtain ⟨g, _, hg, g', _, hg', rfl, -⟩ := h
    simp [name_function hg, name_function hg']

theorem names_routines : ∀ {fs : List Plan.Placed} {fns : List Function} {st st' : State},
    (routines plan config fs).run st = .ok (fns, st') → fns.map (·.name) = fs.flatMap (·.routine.functionNames)
  | [], _, _, _, h => by
    cases h
    rfl
  | _ :: _, _, _, _, h => by
    simp only [routines, run_bind_eq_ok, run_pure_eq_ok] at h
    obtain ⟨first, _, hfirst, rest, _, hrest, rfl, -⟩ := h
    rw [List.map_append, List.flatMap_cons, names_routine hfirst, names_routines hrest]

theorem names_script {ss : List Typed.Stmt} (h : (script plan ss).run st = .ok (fns, st')) :
    fns.map (·.name) = if ss.isEmpty then [] else ["_start"] := by
  unfold script at h
  split at h
  next hempty =>
    cases h
    rw [if_pos hempty]
    rfl
  next hne =>
    simp only [run_bind_eq_ok, run_pure_eq_ok] at h
    obtain ⟨g, _, hg, rfl, -⟩ := h
    rw [if_neg hne, List.map_singleton, name_function hg]

/-- The jobs that functions come of, from a state on: each function literal has one job, and so has each
named function that becomes a value. -/
structure Named (plan : Plan) (st : State) (fns : List Function) (st' : State) (ks : List Job) : Prop where
  names : fns.map (·.name) = ks.map Job.name
  typed : ∀ j ∈ ks, j.WellTyped plan.symbols
  literals : (ks.filterMap Job.literal?).Perm (st.jobs.flatMap Job.literals)
  thunks : ∃ new, ks.filterMap Job.named? = st.jobs.filterMap Job.named? ++ new ∧
    st'.thunks.map Prod.fst = new.reverse ++ st.thunks.map Prod.fst
  fresh : (st.thunks.map Prod.fst).Nodup → (st'.thunks.map Prod.fst).Nodup

/-- One job is done, and others may be left. -/
theorem Named.cons {j : Job} {rest js ks : List Job} {f : Function} {st₁ : State}
    (hjobs : st.jobs = j :: rest) (hj : j.WellTyped plan.symbols) (hname : f.name = j.name)
    (hleaves : Leaves plan j.nodes { st with jobs := rest } st₁ js) (h : Named plan st₁ fns st' ks) :
    Named plan st (f :: fns) st' (j :: ks) := by
  have hnew : st₁.jobs = rest ++ js := hleaves.jobs
  refine ⟨?_, List.forall_mem_cons.2 ⟨hj, h.typed⟩, ?_, ?_, fun hnodup => h.fresh (hleaves.fresh hnodup)⟩
  · rw [List.map_cons, List.map_cons, hname, h.names]
  · have hrest := h.literals
    rw [hnew, List.flatMap_append, hleaves.literals] at hrest
    rw [hjobs, List.flatMap_cons, j.literals_eq, ← List.singleton_append, List.filterMap_append, List.append_assoc]
    have hfirst : [j].filterMap Job.literal? = j.literal?.toList := by
      cases hid : j.literal? <;> simp [hid]
    rw [hfirst]
    exact (hrest.trans List.perm_append_comm).append_left _
  · obtain ⟨new, hks, hthunks⟩ := h.thunks
    refine ⟨js.filterMap Job.named? ++ new, ?_, ?_⟩
    · rw [hjobs, ← List.singleton_append, ← List.singleton_append (l := rest), List.filterMap_append,
        List.filterMap_append, hks, hnew, List.filterMap_append]
      simp only [List.append_assoc]
    · rw [hthunks, hleaves.thunks, List.reverse_append, List.append_assoc]

/-- **The functions found on the way have the names of their jobs.** -/
theorem named_drain (h : Drains plan st fns st') : ∃ ks, Named plan st fns st' ks := by
  induction h with
  | done hnone => exact ⟨[], rfl, List.forall_mem_nil _, by rw [hnone]; exact .nil, ⟨[], by rw [hnone]; rfl, rfl⟩, id⟩
  | step hcons hj hrun hleaves _ ih =>
    obtain ⟨ks, hks⟩ := ih
    exact ⟨_ :: ks, hks.cons hcons hj (name_job hrun) hleaves⟩

/-- **The names of the functions of a program**: those of its routines, of the functions of every module, of
the top-level statements and of jobs; no two jobs are for the same function literal or named function. -/
theorem named_of_run {p : Typed.Program} {final : State} (h : p.WellTyped)
    (hfits : Plan.fits p = true)
    (hrun : (Emit.functions (Plan.ofProgram p config) config p).run (Plan.initialState p config) = .ok (fns, final)) :
    ∃ ks : List Job, fns.map (·.name) = p.routines.flatMap Typed.Routine.functionNames ++
        Intrinsic.all.map (·.name) ++ (if p.script.isEmpty then [] else ["_start"]) ++ ks.map Job.name ∧
      (∀ j ∈ ks, j.WellTyped p.symbols) ∧ (ks.filterMap Job.literal?).Perm (Typed.literalIds p.nodes) ∧
      (ks.filterMap Job.named?).Nodup := by
  have hplan := Plan.complete_ofProgram h hfits config
  obtain ⟨strict, n, n', returns, hscript⟩ := h.script
  unfold Emit.functions at hrun
  simp only [run_bind_eq_ok, run_pure_eq_ok] at hrun
  obtain ⟨own, st₁, hown, top, st₂, htop, found, _, hfound, rfl, rfl⟩ := hrun
  obtain ⟨⟨js, hjs⟩, -⟩ := Yields.of_ok (makes_routines hplan config (routine_wellTyped h)) hown
  obtain ⟨⟨ks, hks⟩, -⟩ := Yields.of_ok (makes_script hplan hscript) htop
  have hleaves := hjs.trans hks
  have hjobs : st₂.jobs = js ++ ks := hleaves.jobs
  have hthunks : st₂.thunks.map Prod.fst = ((js ++ ks).filterMap Job.named?).reverse := by
    rw [hleaves.thunks]
    exact List.append_nil _
  obtain ⟨all, hall⟩ := named_drain (drains_of_run hplan (hjobs ▸ hleaves.typed) hfound)
  refine ⟨all, ?_, hall.typed, ?_, ?_⟩
  · simp only [List.map_append, names_routines hown, names_script htop, hall.names,
      flatMap_placed Typed.Routine.functionNames]
  · have hliterals := hall.literals
    rwa [hjobs, hleaves.literals, flatMap_placed (Typed.stmtNodes ·.body)] at hliterals
  · obtain ⟨new, hnamed, hfinal⟩ := hall.thunks
    have hnodup := hall.fresh (hleaves.fresh List.nodup_nil)
    rw [hfinal, hthunks, ← List.reverse_append, List.nodup_reverse, ← hjobs, ← hnamed] at hnodup
    exact hnodup

end Emit

/-! ## Names apart -/

/-- The names that do not come from declarations: those of the host, of the functions of every module, and
of the top-level statements if there are any. -/
def Typed.Program.fixedNames (p : Typed.Program) : List String :=
  HostImport.imports.map (·.name) ++ Intrinsic.all.map (·.name) ++ if p.script.isEmpty then [] else ["_start"]

/-- The names of tasks, of named functions as values and of function literals. -/
def generatedNames (rs : List Typed.Routine) (ks : List Job) : List String :=
  (rs.filter (·.sig.isAsync)).map (·.fullName ++ "$entry") ++ ((ks.filterMap Job.named?).map (· ++ "$thunk") ++
      (ks.filterMap Job.literal?).map fun id => "lambda$" ++ toString id)

section

variable {p : Typed.Program} {ks : List Job}

theorem perm_functionNames (rs : List Typed.Routine) : (rs.flatMap Typed.Routine.functionNames).Perm
    (rs.map Typed.Routine.fullName ++ (rs.filter (·.sig.isAsync)).map (·.fullName ++ "$entry")) := by
  induction rs with
  | nil => exact .nil
  | cons r rs ih =>
    rw [List.flatMap_cons, List.map_cons, Typed.Routine.functionNames, List.filter_cons]
    split
    · exact (ih.cons _).trans List.perm_middle.symm |>.cons _
    · exact ih.cons _

theorem perm_jobNames (ks : List Job) : (ks.map Job.name).Perm ((ks.filterMap Job.named?).map (· ++ "$thunk") ++
      (ks.filterMap Job.literal?).map fun id => "lambda$" ++ toString id) := by
  induction ks with
  | nil => exact .nil
  | cons j ks ih =>
    cases j with
    | lambda id ty params captures body => exact (ih.cons _).trans List.perm_middle.symm
    | thunk sig => exact ih.cons _

theorem Typed.Program.Worded.isName (h : p.Worded) : ∀ name ∈ p.declaredNames, IsName name := by
  intro name hname
  rcases List.mem_append.1 hname with hname | hname
  · obtain ⟨sig, hsig, rfl⟩ := List.mem_map.1 hname
    obtain ⟨hsig, hkind⟩ := List.mem_filter.1 hsig
    refine (h.functions sig hsig fun b hb => ?_).isName
    rw [hb] at hkind
    cases hkind
  · obtain ⟨r, hr, rfl⟩ := List.mem_map.1 hname
    have hsig := h.routines r hr
    cases howner : r.owner with
    | none =>
      rw [Typed.Routine.fullName, howner]
      exact hsig.isName
    | some owner =>
      obtain ⟨struct, slot⟩ := owner
      have hstruct := h.owners r hr struct slot howner
      rw [Typed.Routine.fullName, howner]
      intro c hc
      rw [toList_methodName] at hc
      rcases List.mem_append.1 hc with hc | hc
      · exact .inl (hstruct c hc)
      · rcases List.mem_cons.1 hc with rfl | hc
        · exact .inr rfl
        · exact .inl (hsig c hc)

theorem Typed.Program.no_dollar_fixedNames (p : Typed.Program) : ∀ name ∈ p.fixedNames, '$' ∉ nameKey name := by
  rw [Typed.Program.fixedNames]
  split <;> decide

theorem Typed.Program.nodup_fixedNames (p : Typed.Program) : (p.fixedNames.map nameKey).Nodup := by
  rw [Typed.Program.fixedNames]
  split <;> decide

/-- A named function that becomes a value is declared. -/
theorem named_mem_declaredNames (h : p.WellTyped) (hks : ∀ j ∈ ks, j.WellTyped p.symbols) :
    ∀ name ∈ ks.filterMap Job.named?, name ∈ p.declaredNames := by
  intro name hname
  obtain ⟨j, hj, hnamed⟩ := List.mem_filterMap.1 hname
  cases hks j hj with
  | lambda => cases hnamed
  | @thunk sig found kind =>
    obtain rfl : sig.name = name := Option.some.inj hnamed
    cases hkind : sig.kind with
    | user =>
      obtain ⟨r, hr, howner, rfl⟩ := h.functionBody found hkind
      refine List.mem_append_right _ (List.mem_map.2 ⟨r, hr, ?_⟩)
      rw [Typed.Routine.fullName, howner]
    | external =>
      refine List.mem_append_left _ (List.mem_map_of_mem (List.mem_filter.2 ⟨?_, decide_eq_true hkind⟩))
      exact (SymbolTable.function?_mem found).1
    | builtin b => exact absurd hkind (kind b)

/-- Words behind different declared names give different keys. -/
theorem nodup_map_append {α : Type} {f : α → List Char} {as : List α} (h : (as.map f).Nodup)
    (suffix : List Char) : (as.map fun a => f a ++ suffix).Nodup := by
  rw [List.Nodup, List.pairwise_map] at h ⊢
  exact h.imp fun hne heq => hne (List.append_cancel_right heq)

theorem toDigits_ne {n : Nat} {cs : List Char} {c : Char} (hc : c ∈ cs) (hdigit : c.isDigit = false) :
    Nat.toDigits 10 n ≠ cs := by
  rintro rfl
  rw [Nat.isDigit_of_mem_toDigits (by decide) (by decide) hc] at hdigit
  cases hdigit

/-- **Generated names are apart** from each other as soon as declared names are. -/
theorem nodup_generatedNames (h : p.WellTyped) (hwords : p.Worded) (hks : ∀ j ∈ ks, j.WellTyped p.symbols)
    (hliterals : (ks.filterMap Job.literal?).Nodup) (hnamed : (ks.filterMap Job.named?).Nodup)
    (hdeclared : (p.declaredNames.map nameKey).Nodup) : ((generatedNames p.routines ks).map nameKey).Nodup := by
  have hfull : ((p.routines.filter (·.sig.isAsync)).map fun r => nameKey r.fullName).Nodup := by
    rw [Typed.Program.declaredNames, List.map_append] at hdeclared
    have hroutines := hdeclared.of_append_right
    rw [List.map_map] at hroutines
    exact hroutines.sublist (List.filter_sublist.map _)
  have hthunks : ((ks.filterMap Job.named?).map nameKey).Nodup := by
    refine hnamed.map_on fun a ha b hb heq => ?_
    exact List.inj_on_of_nodup_map hdeclared (named_mem_declaredNames h hks a ha)
      (named_mem_declaredNames h hks b hb) heq
  have hdollar {r : Typed.Routine} (hr : r ∈ p.routines.filter (·.sig.isAsync)) : '$' ∉ nameKey r.fullName :=
    (hwords.isName _ (List.mem_append_right _ (List.mem_map_of_mem (List.mem_filter.1 hr).1))).no_dollar
  have hdollar' {name : String} (hname : name ∈ ks.filterMap Job.named?) : '$' ∉ nameKey name :=
    (hwords.isName _ (named_mem_declaredNames h hks name hname)).no_dollar
  have hentry : nameKey "$entry" = '$' :: "entry".toList := by decide
  have hthunk : nameKey "$thunk" = '$' :: "thunk".toList := by decide
  have hlambda : nameKey "lambda$" = "lambda".toList ++ ['$'] := by decide
  simp only [generatedNames, List.map_append, List.map_map, Function.comp_def, nameKey_append, hentry, hthunk,
    hlambda, nameKey_toString, List.append_assoc, List.singleton_append]
  refine List.nodup_append.2 ⟨nodup_map_append hfull _, List.nodup_append.2 ⟨nodup_map_append hthunks _, ?_, ?_⟩, ?_⟩
  · refine hliterals.map fun a b heq => ?_
    have hdigits := congrArg (Nat.ofDigitChars 10 · 0) (List.cons.inj (List.append_cancel_left heq)).2
    simpa only [Nat.ofDigitChars_ten_toDigits] using hdigits
  · intro a ha b hb heq
    obtain ⟨name, hname, rfl⟩ := List.mem_map.1 ha
    obtain ⟨n, -, rfl⟩ := List.mem_map.1 hb
    exact toDigits_ne (c := 't') (by decide) (by decide) (append_cons_inj (hdollar' hname) (by decide) heq).2.symm
  · intro a ha b hb heq
    obtain ⟨r, hr, rfl⟩ := List.mem_map.1 ha
    rcases List.mem_append.1 hb with hb | hb
    · obtain ⟨name, hname, rfl⟩ := List.mem_map.1 hb
      exact absurd (append_cons_inj (hdollar hr) (hdollar' hname) heq).2 (by decide)
    · obtain ⟨n, -, rfl⟩ := List.mem_map.1 hb
      exact toDigits_ne (c := 'e') (by decide) (by decide) (append_cons_inj (hdollar hr) (by decide) heq).2.symm

/-- A generated name has a dollar sign. -/
theorem dollar_mem_generatedNames {name : String} {rs : List Typed.Routine} (h : name ∈ generatedNames rs ks) :
    '$' ∈ nameKey name := by
  rcases List.mem_append.1 h with h | h
  · obtain ⟨r, -, rfl⟩ := List.mem_map.1 h
    rw [nameKey_append]
    exact List.mem_append_right _ (by decide)
  · rcases List.mem_append.1 h with h | h
    · obtain ⟨r, -, rfl⟩ := List.mem_map.1 h
      rw [nameKey_append]
      exact List.mem_append_right _ (by decide)
    · obtain ⟨r, -, rfl⟩ := List.mem_map.1 h
      rw [nameKey_append]
      exact List.mem_append_left _ (by decide)

end

/-! ## Modules -/

namespace Module

/-- The identifiers of all functions, in the order of their numbers. -/
def identifiers (m : Module) : List String :=
  m.imports.map (nameText ·.name) ++ m.functions.map (nameText ·.name)

/-- A call or the table mentions the number of a function. -/
def Mentions (m : Module) (i : UInt32) : Prop :=
  (∃ f ∈ m.functions, .op (.call i) ∈ f.body) ∨ i ∈ m.table

theorem getElem?_identifiers {m : Module} {i : UInt32} (h : i.toNat < m.imports.length + m.functions.length) :
    m.identifiers[i.toNat]? = some (m.functionText i) := by
  unfold identifiers functionText
  dsimp only
  split
  next hlt =>
    rw [List.getElem?_append_left (by simpa using hlt), List.getElem?_map, List.getElem?_eq_getElem hlt]
    rfl
  next hge =>
    have hlt : i.toNat - m.imports.length < m.functions.length := by omega
    rw [List.getElem?_append_right (by simpa using hge), List.length_map, List.getElem?_map,
      List.getElem?_eq_getElem hlt]
    rfl

theorem lt_of_mentions {m : Module} (h : m.Structured) {i : UInt32} (hi : m.Mentions i) :
    i.toNat < m.imports.length + m.functions.length := by
  rcases hi with ⟨f, hf, hmem⟩ | hi
  · obtain ⟨pc, hpc⟩ := List.getElem?_of_mem hmem
    obtain ⟨cs, -, hplaced⟩ := (h.functions f hf).placed pc _ hpc
    exact hplaced
  · exact (h.table i hi).2

end Module

/-- The names of a module are those from declarations, the fixed ones and generated ones. -/
theorem perm_names {p : Typed.Program} {config : CompileConfig} {m : Module} {st : Emit.State} (h : Compiled p config fns st m) : ∃ ks : List Job,
      (m.imports.map (·.name) ++ m.functions.map (·.name)).Perm
        (p.fixedNames ++ p.declaredNames ++ generatedNames p.routines ks) ∧
      (∀ j ∈ ks, j.WellTyped p.symbols) ∧ (ks.filterMap Job.literal?).Perm (Typed.literalIds p.nodes) ∧
      (ks.filterMap Job.named?).Nodup := by
  obtain ⟨ks, hnames, htyped, hliterals, hnamed⟩ := Emit.named_of_run h.typed h.fits h.run
  refine ⟨ks, ?_, htyped, hliterals, hnamed⟩
  have himports : m.imports.map (·.name) =
      HostImport.imports.map (·.name) ++ (Plan.externalSigs p.symbols).map (·.name) := by
    rw [h.imports, Plan.imports, List.map_append, List.map_map]
    rfl
  rw [himports, h.functions, hnames]
  refine List.perm_iff_count.2 fun name => ?_
  have hroutines := (perm_functionNames p.routines).count_eq name
  have hjobs := (perm_jobNames ks).count_eq name
  simp only [List.count_append, Typed.Program.fixedNames, Typed.Program.declaredNames, generatedNames]
    at hroutines hjobs ⊢
  omega

theorem Module.identifiers_eq (m : Module) :
    m.identifiers = (m.imports.map (·.name) ++ m.functions.map (·.name)).map nameText := by
  simp [identifiers, Function.comp_def]

/-- Names are written in different ways as soon as those from declarations are, and differ from fixed ones. -/
theorem nodup_names_iff {p : Typed.Program} {ks : List Job} (h : p.WellTyped) (hwords : p.Worded)
    (hks : ∀ j ∈ ks, j.WellTyped p.symbols) (hliterals : (ks.filterMap Job.literal?).Nodup)
    (hnamed : (ks.filterMap Job.named?).Nodup) :
    ((p.fixedNames ++ p.declaredNames ++ generatedNames p.routines ks).map nameKey).Nodup ↔
      (p.declaredNames.map nameKey).Nodup ∧ ∀ name ∈ p.declaredNames, nameKey name ∉ p.fixedNames.map nameKey := by
  rw [List.map_append, List.map_append, List.nodup_append, List.nodup_append]
  constructor
  · rintro ⟨⟨-, hdeclared, hapart⟩, -, -⟩
    exact ⟨hdeclared, fun name hname hfixed => hapart _ hfixed _ (List.mem_map_of_mem hname) rfl⟩
  · rintro ⟨hdeclared, hapart⟩
    refine ⟨⟨p.nodup_fixedNames, hdeclared, ?_⟩, nodup_generatedNames h hwords hks hliterals hnamed hdeclared, ?_⟩
    · rintro key hkey _ hkey' rfl
      obtain ⟨name, hname, rfl⟩ := List.mem_map.1 hkey'
      exact hapart name hname hkey
    · rintro key hkey _ hkey' rfl
      obtain ⟨name, hname, rfl⟩ := List.mem_map.1 hkey'
      rw [← List.map_append] at hkey
      obtain ⟨name', hname', heq⟩ := List.mem_map.1 hkey
      have hdollar : '$' ∉ nameKey name' := by
        rcases List.mem_append.1 hname' with hname' | hname'
        · exact p.no_dollar_fixedNames name' hname'
        · exact (hwords.isName name' hname').no_dollar
      exact hdollar (heq ▸ dollar_mem_generatedNames hname)

/-- **When identifiers are distinct, and what they refer to then.**  The names of functions and methods are
distinct in every program.  Their identifiers and all others are distinct exactly if no two of these names
are written alike, which they never are if all are of ASCII characters, and none is written as a fixed name.
In this case, a call or an entry of the table refers to exactly one function, which is the one with its
number. -/
theorem identifiers_of_compile {source : String} {config : CompileConfig} {p : Typed.Program} {m : Module}
    (hp : checkSource source config.strictMatch = .ok p) (hm : compile source config = .ok m) : p.declaredNames.Nodup ∧
    ((∀ name ∈ p.declaredNames, ∀ c ∈ name.toList, c.toNat < 128) → (p.declaredNames.map nameText).Nodup) ∧
    (m.identifiers.Nodup ↔ (p.declaredNames.map nameText).Nodup ∧
      ∀ name ∈ p.declaredNames, nameText name ∉ p.fixedNames.map nameText) ∧ (m.identifiers.Nodup → ∀ i, m.Mentions i →
      ∀ j, m.identifiers[j]? = some (m.functionText i) ↔ j = i.toNat) := by
  have hwords := worded_of_checkSource hp
  have hdistinct := nodup_declaredNames hp
  obtain ⟨p', fns, st, hp', hc⟩ := compiled_of_compile hm
  obtain rfl : p = p' := Except.ok.inj (hp.symm.trans hp')
  refine ⟨hdistinct, fun hascii => ?_, ?_, fun hnodup i hi j => ?_⟩
  · have hkeys : p.declaredNames.map nameKey = p.declaredNames.map String.toList :=
      List.map_congr_left fun name hname => (hwords.isName name hname).nameKey_eq (hascii name hname)
    rw [nodup_map_nameText, hkeys]
    exact hdistinct.map fun _ _ => String.toList_injective
  · obtain ⟨ks, hperm, hks, hliterals, hnamed⟩ := perm_names hc
    have hids : (ks.filterMap Job.literal?).Nodup :=
      hliterals.nodup_iff.2 ((nodup_ids_of_checkSource hp).sublist (List.filter_sublist.map _))
    have hfixed (name : String) : nameText name ∈ p.fixedNames.map nameText ↔
        nameKey name ∈ p.fixedNames.map nameKey := by
      simp only [List.mem_map, nameText_inj]
    rw [m.identifiers_eq, nodup_map_nameText, (hperm.map nameKey).nodup_iff,
      nodup_names_iff hc.typed hwords hks hids hnamed, nodup_map_nameText]
    simp only [hfixed]
  · have hself := Module.getElem?_identifiers (Module.lt_of_mentions hc.structured hi)
    refine ⟨fun hj => ?_, fun hj => hj ▸ hself⟩
    have hlt := (List.getElem?_eq_some_iff.1 hj).1
    exact (List.getElem?_inj hlt hnodup).1 (hj.trans hself.symm)

/-- A program with an async function that is used as a value, a function literal and statements at the top
level. -/
def namedSource : String :=
  "async fn job() \x7b \x7d let f = fn() \x7b let g = job; g(); \x7d; f();"

theorem identifiers_of_compile_named : ∃ p m, checkSource namedSource true = .ok p ∧
    compile namedSource {} = .ok m ∧ p.declaredNames = ["job"] ∧ m.identifiers.drop 14 = ["$job", "$job$entry",
      "$__str_concat", "$__str_eq", "$__array_grow", "$_start", "$lambda$4", "$job$thunk"] ∧
      m.identifiers.Nodup ∧ m.Mentions 15 ∧ ∀ j, m.identifiers[j]? = some (m.functionText 15) ↔ j = 15 := by
  obtain ⟨p, m, hp, hm, hfacts⟩ := @exists_compile namedSource {} (fun p m =>
    decide (p.declaredNames = ["job"] ∧ m.identifiers.drop 14 = ["$job", "$job$entry", "$__str_concat",
      "$__str_eq", "$__array_grow", "$_start", "$lambda$4", "$job$thunk"] ∧ p.script.isEmpty = false ∧
      15 ∈ m.table)) (by decide +kernel)
  obtain ⟨hnames, hlist, hscript, htable⟩ := of_decide_eq_true hfacts
  obtain ⟨-, hascii, hiff, hrefers⟩ := @identifiers_of_compile namedSource {} p m hp hm
  have hfixed : p.fixedNames = HostImport.imports.map (·.name) ++ Intrinsic.all.map (·.name) ++ ["_start"] := by
    rw [Typed.Program.fixedNames, hscript]
    rfl
  have hnodup : m.identifiers.Nodup := by
    refine hiff.2 ⟨hascii ?_, ?_⟩
    · simp [hnames]
    · rw [hnames, hfixed]
      decide
  exact ⟨p, m, hp, hm, hnames, hlist, hnodup, .inr htable, hrefers hnodup 15 (.inr htable)⟩

/-- A program with a function that has the name of a function of the host. -/
def hostNameSource : String :=
  "fn log() \x7b \x7d fn main() \x7b log(); \x7d"

/-- The function and the function of the host have the same identifier, which a call refers to. -/
theorem identifiers_hostName : ∃ m, compile hostNameSource {} = .ok m ∧ m.identifiers[0]? = some "$log" ∧
    m.identifiers[14]? = some "$log" ∧ m.Mentions 14 ∧ m.functionText 14 = "$log" ∧ ¬m.identifiers.Nodup := by
  obtain ⟨p, m, -, hm, hfacts⟩ := @exists_compile hostNameSource {} (fun p m =>
    decide (m.identifiers[0]? = some "$log" ∧ m.identifiers[14]? = some "$log" ∧
      (∃ f ∈ m.functions, .op (.call 14) ∈ f.body) ∧ m.functionText 14 = "$log")) (by decide +kernel)
  obtain ⟨hhost, hown, hcall, htext⟩ := of_decide_eq_true hfacts
  refine ⟨m, hm, hhost, hown, .inl hcall, htext, fun hnodup => ?_⟩
  have hlt := (List.getElem?_eq_some_iff.1 hhost).1
  cases (List.getElem?_inj hlt hnodup).1 (hhost.trans hown.symm)

end StackScript
