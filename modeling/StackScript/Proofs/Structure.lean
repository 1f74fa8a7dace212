import StackScript.Proofs.Emit.Roles
import StackScript.Proofs.Machine.Nesting

/-!
# Modules are structured

Every compiled module refers only to what it has: its bodies are nested and their targets can be found,
branches leave constructs that are there, and locals, functions and types exist.
-/

namespace StackScript

/-! ## References -/

/-- A number of a function that the module has itself. -/
def Module.Defines (m : Module) (index : UInt32) : Prop :=
  m.imports.length ≤ index.toNat ∧ index.toNat < m.imports.length + m.functions.length

/-- A function with targets for its jumps, all of whose instructions may stand where they are. -/
structure Function.Structured (m : Module) (f : Function) : Prop where
  jumps : ∃ j, Jumps.ofBody f.body = .ok j
  placed : ∀ pc i, f.body[pc]? = some i → ∃ cs, around f.body pc = some cs ∧
    i.Placed ⟨cs.length, f.ty.params.length + f.locals.length,
      m.imports.length + m.functions.length, m.types.length⟩ cs

/-- A module that refers only to what it has. -/
structure Module.Structured (m : Module) : Prop where
  functions : ∀ f ∈ m.functions, f.Structured m
  table : ∀ i ∈ m.table, m.Defines i
  start : ∀ i, m.start = some i → m.Defines i
  main : ∀ e, m.main = some e → m.Defines e.function

theorem Function.Valid.structured {m : Module} {f : Function}
    (h : f.Valid (m.imports.length + m.functions.length) m.types.length) : f.Structured m := by
  obtain ⟨code, hbody, hcode⟩ := h
  obtain ⟨j, hj, -⟩ := Jumps.ofBody_flatList code
  have hnests := @nests_flatList _ [] rfl _ hcode
  refine ⟨⟨j, hbody ▸ hj⟩, fun pc i hi => ?_⟩
  rw [hbody] at hi ⊢
  by_cases hlt : pc < (Code.flatList code).length
  · rw [List.getElem?_append_left hlt] at hi
    obtain ⟨cs, hcs, hplaced⟩ := hnests.placed pc i hi
    exact ⟨cs, by rwa [around, List.take_append_of_le_length (Nat.le_of_lt hlt)], hplaced⟩
  · -- the `end` of the function, outside of all constructs
    rw [List.getElem?_append_right (by omega)] at hi
    have hpc : pc - (Code.flatList code).length = 0 := by
      have hbound := (List.getElem?_eq_some_iff.mp hi).1
      simp only [List.length_singleton] at hbound
      omega
    obtain rfl : Instr.end_ = i := by simpa [hpc] using hi
    refine ⟨[], ?_, trivial⟩
    rw [around, List.take_left' (by omega)]
    exact hnests.after

/-- The functions of every module are valid when the host's functions are there. -/
theorem Intrinsic.valid_of_mem {f : Function} {functions types : Nat} (hf : f ∈ Intrinsic.all)
    (hhost : HostImport.all.length ≤ functions) : f.Valid functions types := by
  simp only [Intrinsic.all, List.mem_cons, List.not_mem_nil, or_false] at hf
  rcases hf with rfl | rfl | rfl
  · have hlocals : strConcat.ty.params.length + strConcat.locals.length = 5 := rfl
    refine ⟨_, rfl, ?_⟩
    simp [hlocals, hhost, bytesOf]
  · have hlocals : strEq.ty.params.length + strEq.locals.length = 4 := rfl
    have hbr (b : Bounds) : (Op.br 0).Valid b ↔ 0 < b.depth := Iff.rfl
    have hbrIf (b : Bounds) : (Op.brIf 1).Valid b ↔ 1 < b.depth := Iff.rfl
    have htee (b : Bounds) : (Op.localTee 2).Valid b ↔ 2 < b.locals := Iff.rfl
    refine ⟨_, rfl, ?_⟩
    simp [hlocals, hbr, hbrIf, htee]
  · have hlocals : arrayGrow.ty.params.length + arrayGrow.locals.length = 5 := rfl
    refine ⟨_, rfl, ?_⟩
    simp [hlocals, hhost]

namespace Compiled

variable {p : Typed.Program} {config : CompileConfig} {fns : List Function} {st : Emit.State} {m : Module}

/-- A number behind the imports and among those that were given away. -/
theorem defines (h : Compiled p config fns st m) {i : Nat} (hlo : (Plan.imports p.symbols).length ≤ i)
    (hhi : i < m.imports.length + m.functions.length) : m.Defines i.toUInt32 := by
  have hcount := h.count_le
  rw [Module.Defines, toNat_toUInt32 (by omega), h.imports]
  rw [h.imports] at hhi
  exact ⟨hlo, hhi⟩

/-- The functions of every module follow those of the program. -/
theorem afterRoutines_le (h : Compiled p config fns st m) : (Plan.imports p.symbols).length ≤ Plan.afterRoutines p ∧
      Plan.afterRoutines p + Intrinsic.all.length ≤ m.imports.length + m.functions.length := by
  have hinitial := h.initial_le
  simp only [Plan.initialState] at hinitial
  refine ⟨?_, by omega⟩
  simp only [Plan.afterRoutines]
  omega

/-- Every function is the flat form of valid code. -/
theorem valid_functions (h : Compiled p config fns st m) :
    ∀ f ∈ m.functions, f.Valid (m.imports.length + m.functions.length) m.types.length := by
  intro f hf
  have hafter := h.afterRoutines_le.2
  have hhost : HostImport.all.length ≤ m.imports.length + m.functions.length := by
    rw [h.imports]
    exact Nat.le_trans (Plan.le_imports _) (Nat.le_add_right _ _)
  obtain ⟨all, hall⟩ := Emit.unfolded_of_run h.typed h.fits h.run
  have hnumbers := h.numbers
  simp only [Typed.Program.numbersFit, Bool.and_eq_true, decide_eq_true_eq, List.all_eq_true] at hnumbers
  rw [h.functions] at hf
  rcases hall.valid f hf with hvalid | hvalid
  · exact Intrinsic.valid_of_mem hvalid hhost
  · rw [h.types]
    exact hvalid _ (fun i hi => Nat.lt_of_lt_of_le hi.spec.bound hafter) hhost (hnumbers.2 f hf).2

theorem structured_functions (h : Compiled p config fns st m) : ∀ f ∈ m.functions, f.Structured m :=
  fun f hf => (h.valid_functions f hf).structured

theorem defines_table (h : Compiled p config fns st m) : ∀ i ∈ m.table, m.Defines i := by
  intro i hi
  obtain ⟨himports, hafter⟩ := h.afterRoutines_le
  obtain ⟨k, hnext, htable⟩ := h.emitted.table
  have hcount := h.emitted.count
  rw [h.table] at hi
  obtain ⟨n, hn, rfl⟩ := List.mem_map.mp hi
  rw [htable] at hn
  rcases List.mem_append.mp hn with hn | hn
  · -- a task has the number after the function that starts it
    obtain ⟨f, hf, rfl⟩ := List.mem_map.mp hn
    obtain ⟨hf, hasync⟩ := List.mem_filter.mp hf
    obtain ⟨hlo, hhi⟩ := Plan.index_bounds hf
    rw [hasync] at hhi
    refine h.defines (by omega) ?_
    simp only [Plan.afterRoutines, Plan.placed] at hafter
    simp only [if_true] at hhi
    omega
  · obtain ⟨hlo, hhi⟩ := List.mem_range'_1.mp hn
    simp only [Plan.initialState] at hlo hhi hnext
    refine h.defines (by omega) ?_
    rw [h.imports, h.functions, hcount, hnext]
    exact hhi

theorem defines_start (h : Compiled p config fns st m) : ∀ i, m.start = some i → m.Defines i := by
  intro i hi
  have himports := h.afterRoutines_le.1
  have hinitial := h.initial_le
  rw [h.start] at hi
  obtain ⟨n, hn, rfl⟩ := Option.map_eq_some_iff.mp hi
  simp only [Plan.scriptIndex] at hn
  split at hn
  · cases hn
  · next hscript =>
    cases hn
    simp only [Plan.initialState, hscript, Bool.false_eq_true, if_false] at hinitial
    exact h.defines (by omega) (by omega)

theorem defines_main (h : Compiled p config fns st m) : ∀ e, m.main = some e → m.Defines e.function := by
  intro e he
  have hafter := h.afterRoutines_le.2
  rw [h.main] at he
  obtain ⟨sig, -, he⟩ := Option.bind_eq_some_iff.mp he
  split at he
  · obtain ⟨i, hi, he⟩ := Option.bind_eq_some_iff.mp he
    cases he
    obtain ⟨before, later, hdirect, -⟩ := List.lookup_eq_some_iff.mp hi
    obtain ⟨f, hf, hplaced⟩ := List.mem_filterMap.mp (hdirect ▸ List.mem_append_right before
      (List.mem_cons_self ..) : ("main", i) ∈ (Plan.ofProgram p config).direct)
    split at hplaced
    · obtain ⟨-, rfl⟩ := Prod.mk.inj (Option.some.inj hplaced)
      obtain ⟨hlo, hhi⟩ := Plan.placed_bounds hf
      exact h.defines hlo (by omega)
    · cases hplaced
  · cases he

theorem structured (h : Compiled p config fns st m) : m.Structured :=
  ⟨h.structured_functions, h.defines_table, h.defines_start, h.defines_main⟩

end Compiled

/-- **Every module is structured.**  Its bodies are nested and their targets can be found, an `else`
closes a then-part, branches stay inside, and locals, functions and types exist; the table, the start
and the main function refer to functions of the module itself. -/
theorem structured_of_compile {source : String} {config : CompileConfig} {m : Module}
    (h : compile source config = .ok m) : m.Structured := by
  obtain ⟨p, fns, st, -, hc⟩ := compiled_of_compile h
  exact ⟨hc.structured_functions, hc.defines_table, hc.defines_start, hc.defines_main⟩

/-- A program with top-level statements, a function that is used as a value, and a loop with both
branches of a condition and a jump. -/
def loopingSource : String :=
  "fn twice(n: i32) -> i32 \x7b return n + n; \x7d " ++
  "let f = twice; let i = 0; while i < 9 \x7b if i > 4 \x7b break; \x7d else \x7b i = f(i); \x7d \x7d"

theorem structured_of_compile_looping : ∃ m, compile loopingSource {} = .ok m ∧ m.Structured := by
  obtain ⟨m, hm⟩ : ∃ m, compile loopingSource {} = .ok m := exists_of_isOk (by decide +kernel)
  exact ⟨m, hm, structured_of_compile hm⟩

end StackScript
