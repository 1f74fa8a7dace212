import StackScript.Compile
import StackScript.Proofs.Emit.Program

/-!
# Checked programs compile
-/

namespace StackScript

/-- The size of every array literal has 32 bits, and so have the numbers of all functions that are
known in advance. -/
def Typed.Program.Fits (p : Typed.Program) (config : CompileConfig) : Prop :=
  Plan.fits p = true ∧ ∀ e ∈ p.nodes, e.LiteralFits config.arrayCapacity.toNat

variable {config : CompileConfig} {p : Typed.Program}

variable {source : String} {m : Module}

/-- The module of a checked program, or the only defect there is. -/
theorem compile_eq_emit
    (h : checkSource source config.strictMatch = .ok p) : compile source config = (p.emit config).mapError .emit := by
  simp only [compile, h]
  rfl

/-- A program and its module, found by computing something of them. -/
theorem exists_compile {source : String} {config : CompileConfig} {P : Typed.Program → Module → Bool}
    (h : (checkSource source config.strictMatch).toOption.any (fun p => (p.emit config).toOption.any (P p)) = true) :
    ∃ p m, checkSource source config.strictMatch = .ok p ∧ compile source config = .ok m ∧ P p m = true := by
  cases hcheck : checkSource source config.strictMatch with
  | error d =>
    rw [hcheck] at h
    cases h
  | ok p =>
    rw [hcheck] at h
    cases hemit : p.emit config with
    | error d =>
      simp only [Except.toOption, Option.any_some, hemit] at h
      cases h
    | ok m =>
      simp only [Except.toOption, Option.any_some, hemit] at h
      refine ⟨p, m, rfl, ?_, h⟩
      rw [compile_eq_emit hcheck, hemit]
      rfl

/-- A program that fits is emitted, and its module is given unless the constant data or the numbers in
it are too large. -/
theorem emit_of_fits (h : p.WellTyped) (hfits : p.Fits config) :
    ∃ fns st, (Emit.functions (Plan.ofProgram p config) config p).run (Plan.initialState p config) =
        .ok (fns, st) ∧ (if st.data.stop < Layout.addressLimit ∧
          Typed.Program.numbersFit (Plan.imports p.symbols).length fns st.types = true
        then ∃ m, p.emit config = .ok m else p.emit config = .error .tooLarge) := by
  have hspec := Emit.functions_spec h hfits.1 config
  unfold Yields at hspec
  cases hrun : (Emit.functions (Plan.ofProgram p config) config p).run (Plan.initialState p config) with
  | error d =>
    rw [hrun] at hspec
    obtain ⟨-, e, he, hbig⟩ := hspec
    exact absurd (hfits.2 e he) hbig
  | ok r =>
    obtain ⟨fns, st⟩ := r
    refine ⟨fns, st, rfl, ?_⟩
    simp only [Typed.Program.emit, hfits.1, hrun, bind, Except.bind, Bool.and_eq_true, decide_eq_true_eq]
    split
    · exact ⟨_, rfl⟩
    · rfl

/-- A program that does not fit is not emitted. -/
theorem emit_of_not_fits (h : p.WellTyped) (hfits : ¬p.Fits config) : p.emit config = .error .tooLarge := by
  cases hplan : Plan.fits p with
  | false => simp [Typed.Program.emit, hplan, bind, Except.bind, throw, throwThe, MonadExceptOf.throw]
  | true =>
    have hspec := Emit.functions_spec h hplan config
    unfold Yields at hspec
    cases hrun : (Emit.functions (Plan.ofProgram p config) config p).run (Plan.initialState p config) with
    | error d =>
      rw [hrun] at hspec
      obtain ⟨rfl, -⟩ := hspec
      simp [Typed.Program.emit, hplan, hrun, bind, Except.bind]
    | ok r =>
      rw [hrun] at hspec
      exact absurd ⟨hplan, hspec.fits⟩ hfits

/-- A module with the checked program, the functions and the emitter's last state that it comes from. -/
structure Compiled (p : Typed.Program) (config : CompileConfig) (fns : List Function)
    (st : Emit.State) (m : Module) : Prop where
  typed : p.WellTyped
  fits : Plan.fits p = true
  run : (Emit.functions (Plan.ofProgram p config) config p).run (Plan.initialState p config) =
    .ok (fns, st)
  emitted : Emit.Emitted p config fns st
  numbers : Typed.Program.numbersFit (Plan.imports p.symbols).length fns st.types = true
  types : m.types = st.types
  imports : m.imports = Plan.imports p.symbols
  functions : m.functions = fns
  table : m.table = st.table.map (·.toUInt32)
  start : m.start = (Plan.scriptIndex p).map (·.toUInt32)
  main : m.main = p.mainEntry (Plan.ofProgram p config)

theorem compiled_of_emit (h : p.WellTyped) (hm : p.emit config = .ok m) : ∃ fns st, Compiled p config fns st m := by
  have hfits : p.Fits config := by
    by_contra hlarge
    rw [emit_of_not_fits h hlarge] at hm
    cases hm
  have hspec := Emit.functions_spec h hfits.1 config
  obtain ⟨fns, st, hrun, -⟩ := emit_of_fits h hfits
  rw [Yields, hrun] at hspec
  simp only [Typed.Program.emit, hfits.1, hrun, bind, Except.bind, Bool.not_true, Bool.false_eq_true,
    if_false, pure, Except.pure, Bool.and_eq_true, decide_eq_true_eq] at hm
  split at hm
  · next hsmall =>
    cases hm
    exact ⟨fns, st, h, hfits.1, hrun, hspec, hsmall.2, rfl, rfl, rfl, rfl, rfl, rfl⟩
  · cases hm

/-- A module comes from a checked program. -/
theorem compiled_of_compile (h : compile source config = .ok m) :
    ∃ p fns st, checkSource source config.strictMatch = .ok p ∧ Compiled p config fns st m := by
  cases hp : checkSource source config.strictMatch with
  | error e =>
    simp only [compile, hp] at h
    cases h
  | ok p =>
    rw [compile_eq_emit hp] at h
    cases hm : p.emit config with
    | error d => rw [hm] at h; cases h
    | ok m' =>
      rw [hm] at h
      cases h
      obtain ⟨fns, st, hc⟩ := compiled_of_emit (wellTyped_of_checkSource hp) hm
      exact ⟨p, fns, st, rfl, hc⟩

theorem toNat_toUInt32 {n : Nat} (h : n < Layout.addressLimit) : n.toUInt32.toNat = n :=
  Nat.mod_eq_of_lt h

namespace Compiled

variable {fns : List Function} {st : Emit.State} {m : Module}

theorem count_le (h : Compiled p config fns st m) : m.imports.length + m.functions.length ≤ Layout.addressLimit := by
  have hnumbers := h.numbers
  simp only [Typed.Program.numbersFit, Bool.and_eq_true, decide_eq_true_eq] at hnumbers
  rw [h.imports, h.functions]
  exact hnumbers.1.1

/-- The functions that are known in advance are among those of the module. -/
theorem initial_le (h : Compiled p config fns st m) :
    (Plan.initialState p config).nextFunction ≤ m.imports.length + m.functions.length := by
  obtain ⟨k, hnext, -⟩ := h.emitted.table
  rw [h.imports, h.functions, h.emitted.count, hnext]
  exact Nat.le_add_right _ _

end Compiled

end StackScript
