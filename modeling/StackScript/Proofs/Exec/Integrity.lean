import StackScript.Proofs.Exec.Moves
import StackScript.Proofs.Exec.Position
import StackScript.Proofs.Structure

/-!
# Runs stay inside the module

A module that refers only to what it has never leads a run outside: every frame stands somewhere in
the body of a function, with all the locals of that function, so the next instruction, the local, the
function, the type or the label that it asks for is there.
-/

namespace StackScript

open Code (flatList)

/-! ## Loaded modules -/

/-- A loaded function whose body is structured code with a property. -/
def LoadedFunction.Holds (fn : LoadedFunction) (P : Nat → List Code → Prop) : Prop :=
  ∃ code, fn.body = (flatList code ++ [Instr.end_]).toArray ∧ fn.jumps.LocatesAll 0 code ∧ P 0 code

namespace Image

/-- A number of a function that the module has itself. -/
def Defines (img : Image) (index : Nat) : Prop :=
  img.imports.size ≤ index ∧ index < img.imports.size + img.functions.size

/-- The bounds of code of a function inside a number of labels. -/
def bounds (img : Image) (fn : LoadedFunction) (depth : Nat) : Bounds :=
  ⟨depth, fn.ty.params.length + fn.locals.size, img.imports.size + img.functions.size, img.types.size⟩

/-- Code of a function that refers only to what exists. -/
def Fits (img : Image) (fn : LoadedFunction) (depth : Nat) (code : List Code) : Prop :=
  Code.AllValid (img.bounds fn depth) code

/-- A loaded module that refers only to what it has. -/
structure Structured (img : Image) : Prop where
  functions : ∀ fn ∈ img.functions, fn.Holds (img.Fits fn)
  table : ∀ i ∈ img.table, img.Defines i
  offers : ∀ i, img.source.Offers i → img.Defines i

theorem opens_fits (img : Image) (fn : LoadedFunction) : Code.Opens (img.Fits fn) (img.Fits fn) where
  nil _ := trivial
  block h := h
  loop h := h
  cond h := h
  condElse h := ⟨h.1.1, h.1.2, h.2⟩

variable {img : Image} {index : Nat} {fn : LoadedFunction} {m : Module}

theorem defined?_of_defines (h : img.Defines index) : ∃ fn, img.functions[index - img.imports.size]? = some fn ∧
      img.defined? index = some (index - img.imports.size, fn) := by
  obtain ⟨hlo, hhi⟩ := h
  have hlt : index - img.imports.size < img.functions.size := by omega
  refine ⟨img.functions[index - img.imports.size], Array.getElem?_eq_getElem hlt, ?_⟩
  rw [defined?, if_neg (by omega)]
  simp [Array.getElem?_eq_getElem hlt]

/-- A call of a function of the module fails only for want of arguments or of room. -/
theorem Defines.enter (h : img.Defines index) {t : Task} {e : Fault}
    (failed : t.enter img index = .error e) : ¬e.Structural := by
  obtain he | ⟨missing, -⟩ := Run.enter_eq_error failed
  · exact he.2
  · obtain ⟨fn, -, hfn⟩ := defined?_of_defines h
    rw [missing] at hfn
    cases hfn

/-! ### Loading -/

theorem load_eq_ok {f : Function} (h : load f = .ok fn) : ∃ j, Jumps.ofBody f.body = .ok j ∧
      fn = ⟨f.name, f.ty, (f.locals.map Value.zero).toArray, f.body.toArray, j⟩ := by
  unfold load at h
  split at h
  · cases h
  · next j hj =>
    cases h
    exact ⟨j, hj, rfl⟩

theorem mapM_load_eq_ok {fs : List Function} {fns : List LoadedFunction} :
    fs.mapM load = .ok fns ↔ List.Forall₂ (fun f fn => load f = .ok fn) fs fns := by
  induction fs generalizing fns with
  | nil => cases fns <;> simp [pure, Except.pure]
  | cons f fs ih =>
    rw [List.mapM_cons]
    constructor
    · intro h
      obtain ⟨fn, hfn, h⟩ := except_bind_eq_ok.1 h
      obtain ⟨rest, hrest, h⟩ := except_bind_eq_ok.1 h
      obtain rfl := except_pure_eq_ok.1 h
      exact .cons hfn (ih.1 hrest)
    · intro h
      cases h with
      | cons hfn hrest => exact except_bind_eq_ok.2 ⟨_, hfn, except_bind_eq_ok.2 ⟨_, ih.2 hrest, rfl⟩⟩

/-- What a loaded module has, it has from the module. -/
theorem ofModule_eq_ok {config : RunConfig} (h : ofModule m config = .ok img) :
    img.source = m ∧ img.imports = m.imports.toArray ∧
      List.Forall₂ (fun f fn => load f = .ok fn) m.functions img.functions.toList ∧
      img.table = (m.table.map (·.toNat)).toArray ∧ img.types = m.types.toArray ∧ img.config = config := by
  obtain ⟨fns, hfns, h⟩ := except_bind_eq_ok.1 h
  obtain rfl := except_pure_eq_ok.1 h
  exact ⟨rfl, rfl, mapM_load_eq_ok.1 hfns, rfl, rfl, rfl⟩

/-- Every loaded function is one of the module. -/
theorem exists_load {config : RunConfig} (h : ofModule m config = .ok img)
    {place : Nat} (hfn : img.functions[place]? = some fn) : ∃ f, m.functions[place]? = some f ∧ load f = .ok fn := by
  obtain ⟨-, -, hfunctions, -⟩ := ofModule_eq_ok h
  obtain ⟨hlt, hget⟩ := List.getElem?_eq_some_iff.1 (Array.getElem?_toList ▸ hfn)
  have hlt' : place < m.functions.length := hfunctions.length_eq ▸ hlt
  have hload := hfunctions.get hlt' hlt
  rw [List.get_eq_getElem, List.get_eq_getElem, hget] at hload
  exact ⟨_, List.getElem?_eq_getElem hlt', hload⟩

/-- A function with structured code is loaded with its targets. -/
theorem holds_of_load {f : Function} {code : List Code}
    {P : Nat → List Code → Prop} (h : load f = .ok fn) (hbody : f.body = flatList code ++ [.end_])
    (hcode : P 0 code) : fn.Holds P := by
  obtain ⟨j, hj, rfl⟩ := load_eq_ok h
  obtain ⟨j', hj', hlocates⟩ := Jumps.ofBody_flatList code
  obtain rfl : j' = j := by
    rw [hbody, hj'] at hj
    cases hj
    rfl
  exact ⟨code, by rw [hbody], hlocates, hcode⟩

/-- A module with structured bodies can be loaded. -/
theorem exists_ofModule (h : ∀ f ∈ m.functions, ∃ j, Jumps.ofBody f.body = .ok j)
    (config : RunConfig) : ∃ img, ofModule m config = .ok img := by
  have hload : ∀ f ∈ m.functions, ∃ fn, load f = .ok fn := by
    intro f hf
    obtain ⟨j, hj⟩ := h f hf
    simp only [load, hj]
    exact ⟨_, rfl⟩
  obtain ⟨fns, hfns⟩ : ∃ fns, m.functions.mapM load = .ok fns := by
    simp only [mapM_load_eq_ok]
    generalize m.functions = fs at hload
    induction fs with
    | nil => exact ⟨[], .nil⟩
    | cons f fs ih =>
      obtain ⟨hf, hfs⟩ := List.forall_mem_cons.1 hload
      obtain ⟨fn, hfn⟩ := hf
      obtain ⟨fns, hfns⟩ := ih hfs
      exact ⟨fn :: fns, .cons hfn hfns⟩
  exact ⟨_, except_bind_eq_ok.2 ⟨fns, hfns, rfl⟩⟩

end Image

variable {m : Module} {img : Image}

theorem Module.Defines.image {i : UInt32} (h : m.Defines i) (himports : img.imports = m.imports.toArray)
    (hfunctions : m.functions.length = img.functions.size) : img.Defines i.toNat := by
  unfold Image.Defines
  rw [himports, List.size_toArray, ← hfunctions]
  exact h

/-- A call of a function with a body, with all the locals of that function. -/
structure Frame.In (img : Image) (fn : LoadedFunction) (B : List Instr) (f : Frame) : Prop where
  function : img.functions[f.function]? = some fn
  body : fn.body = B.toArray
  locals : f.locals.size = fn.ty.params.length + fn.locals.size

/-- A frame that stands somewhere in the body of a function. -/
def Frame.Sound (img : Image) (f : Frame) : Prop :=
  ∃ fn B rest, f.In img fn B ∧ Stands (img.Fits fn) B fn.jumps f.pc rest f.labels ∧ img.Fits fn f.labels.length rest

/-- A task whose calls all stand somewhere. -/
abbrev Task.Sound (img : Image) : Task → Prop :=
  Task.Runs (Frame.Sound img)

/-- A call of a function of the module starts at the start of its body, with all its locals. -/
theorem Task.Sound.enter (hs : img.Structured) {t t' : Task} {index : Nat}
    (h : t.enter img index = .ok t') (hframes : ∀ f ∈ t.frames, f.Sound img) : t'.Sound img := by
  obtain ⟨place, fn, args, rest, ⟨hfn, -⟩, -, hsplit, rfl⟩ := Run.enter_eq_ok h
  refine .cons ?_ hframes
  obtain ⟨code, hbody, hlocates, hfits⟩ := hs.functions fn (Array.mem_of_getElem? hfn)
  refine ⟨fn, _, code, ⟨hfn, hbody, ?_⟩, .top List.drop_zero hlocates, hfits⟩
  obtain ⟨hle, rfl, -⟩ := Stack.split?_eq_some hsplit
  simp [hle]

section Steps

variable {img : Image}

variable {e : Fault} {t : Task}

/-- An instruction of a sound task leaves a sound task. -/
theorem Task.Sound.step (hs : img.Structured) {p : Progress} (ht : t.Sound img)
    (h : Run.StepLeads img t p) : p.All (Task.Sound img) := by
  have hstep := h
  obtain ⟨f, outer, -, -, hframes, -⟩ := h
  obtain ⟨number, frames, s, awaiting⟩ := t
  obtain rfl : frames = f :: outer := hframes
  obtain ⟨⟨fn, B, rest, hin, hstands, hfits⟩, houter⟩ := List.forall_mem_cons.1 ht.frames
  have hsound {pc : Nat} {labels : List Label} {locals : Array Value} {rest : List Code}
      (hlocals : locals.size = f.locals.size) (hstands : Stands (img.Fits fn) B fn.jumps pc rest labels)
      (hfits : img.Fits fn labels.length rest) : ({ f with pc, labels, locals } : Frame).Sound img :=
    ⟨fn, B, rest, ⟨hin.function, hin.body, hlocals ▸ hin.locals⟩, hstands, hfits⟩
  obtain ⟨o, xs, rfl, -, hleads, hnext⟩ | ⟨-, hlabels, -, hend⟩ | ⟨-, pc', labels', s', rest', rfl, -, hstands', hfits'⟩ :=
    Run.step_leads (img.opens_fits fn) hin.function hin.body hstands hfits hstep
  · refine hleads.keeps (hsound rfl hnext hfits.2) houter (fun locals hsize => hsound hsize hnext hfits.2) ?_ (Task.Sound.enter hs)
    intro s depth f' s' jump
    obtain ⟨rest', hf', hstands', hfits'⟩ := hnext.branch_eq_ok jump
    rw [hf']
    exact hsound rfl hstands' hfits'
  · cases hend with
    | end_ labels => cases hlabels.symm.trans labels
    | leave _ left => exact Task.Runs.leave left houter
  · exact .cons (hsound rfl hstands' hfits') houter

end Steps

/-! ## Runs -/

namespace Scene.All

variable {img : Image} {s s' : Scene} {log : List Event}

end Scene.All

namespace Vm

variable {source : String} {config : CompileConfig} {m : Module} {runConfig : RunConfig}
  {files : Directory} {origin vm vm' : Vm}

variable {e : Fault}

end Vm

end StackScript
