import StackScript.Proofs.Emit.Ledger
import StackScript.Proofs.Emit.Roles
import StackScript.Proofs.Exec.Fragments
import StackScript.Proofs.Identifiers

/-!
# Jumps and their loops

A jump belongs to the innermost loop around it: one in whose body it stands, or a loop that tests its condition
and has the jump in the condition.  What a loop over elements goes through is evaluated outside of it.
-/

namespace StackScript

open Typed
open Code (size flatList)
open Emit (whileCode forCode whileLevel forLevel)

/-! ## Where branches lead -/

/-- From inside of labels, a branch some levels out of them leads to a position with labels of its own. -/
def Frame.Leads (ls : List Label) (level pc : Nat) (outer : List Label) : Prop :=
  ∀ (f : Frame) (inner : List Label) (s : Stack), f.labels = inner ++ ls →
    ∃ s', f.branch s (inner.length + level) = .ok ({ f with pc, labels := outer }, s')

namespace Frame

variable {ls outer : List Label} {level pc n : Nat}

theorem Leads.outside (h : Leads ls level pc outer) (l : Label) : Leads (l :: ls) (level + 1) pc outer := by
  intro f inner s hlabels
  obtain ⟨s', hjump⟩ := h f (inner ++ [l]) s (by simp [hlabels])
  rw [List.length_append, List.length_singleton, Nat.add_assoc, Nat.add_comm 1] at hjump
  exact ⟨s', hjump⟩

theorem leads_block : Leads (⟨.block, pc, n, 0⟩ :: ls) 0 (pc + 1) ls := by
  intro f inner s hlabels
  simp only [branch, hlabels, Nat.add_zero, List.drop_left]
  exact ⟨_, rfl⟩

theorem leads_loop : Leads (⟨.loop, pc, n, 0⟩ :: ls) 0 (pc + 1) (⟨.loop, pc, n, 0⟩ :: ls) := by
  intro f inner s hlabels
  simp only [branch, hlabels, Nat.add_zero, List.drop_left]
  exact ⟨_, rfl⟩

end Frame

namespace LoadedFunction

variable {fn : LoadedFunction} {pc : Nat} {body : List Code}

theorem HasAt.block {ty : Option ValType} (h : fn.HasAt pc [.block ty body]) :
    fn.jumps.endOf pc + 1 = pc + size [.block ty body] ∧ fn.HasAt (pc + 1) body := by
  obtain ⟨hcode, ⟨hend, hlocated⟩, -⟩ := h
  simp only [flatList, Code.flat, List.append_nil] at hcode
  refine ⟨?_, (List.prefix_append _ _).trans (prefix_of_append [_] hcode), hlocated⟩
  simp only [hend, size, flatList, Code.flat, List.append_nil, List.length_cons, List.length_append, List.length_nil]
  omega

theorem HasAt.loop (h : fn.HasAt pc [.loop body]) : fn.HasAt (pc + 1) body := by
  obtain ⟨hcode, ⟨-, hlocated⟩, -⟩ := h
  simp only [flatList, Code.flat, List.append_nil] at hcode
  exact ⟨(List.prefix_append _ _).trans (prefix_of_append [_] hcode), hlocated⟩

/-- The bodies of a construct stand somewhere. -/
theorem HasAt.bodies {x : Code} (h : fn.HasAt pc [x]) (hbody : body ∈ x.bodies) : ∃ pc', fn.HasAt pc' body := by
  cases x with
  | op o => cases hbody
  | block ty b =>
    obtain rfl := List.mem_singleton.1 hbody
    exact ⟨_, h.block.2⟩
  | loop b =>
    obtain rfl := List.mem_singleton.1 hbody
    exact ⟨_, h.loop⟩
  | cond ty b =>
    obtain rfl := List.mem_singleton.1 hbody
    obtain ⟨hcode, ⟨-, -, hlocated⟩, -⟩ := h
    simp only [flatList, Code.flat, List.append_nil] at hcode
    exact ⟨_, (List.prefix_append _ _).trans (prefix_of_append [_] hcode), hlocated⟩
  | condElse ty a b =>
    obtain ⟨hcode, ⟨-, -, ha, hb⟩, -⟩ := h
    simp only [flatList, Code.flat, List.append_nil] at hcode
    have hthen := prefix_of_append [_] hcode
    have helse := prefix_of_append [_] (prefix_of_append _ hthen)
    rcases List.mem_pair.1 hbody with rfl | rfl
    · exact ⟨_, (List.prefix_append _ _).trans hthen, ha⟩
    · exact ⟨_, (List.prefix_append _ _).trans helse, hb⟩

/-- Code in code stands somewhere. -/
theorem HasAt.within {s s' : Emit.Site} {code c : List Code} (hin : Emit.Within s code s' c) :
    ∀ {pc : Nat}, fn.HasAt pc code → ∃ pc', fn.HasAt pc' c := by
  induction hin with
  | refl => exact fun h => ⟨_, h⟩
  | left _ ih => exact fun h => ih h.append.1
  | right _ ih => exact fun h => ih h.append.2
  | inside part _ ih =>
    intro pc h
    obtain ⟨pc', hbody⟩ := h.bodies part
    exact ih hbody

/-! ## Loops -/

/-- From a position, a function goes on at another one with more labels. -/
def Opens (fn : LoadedFunction) (pc pc' : Nat) (labels : Nat → List Label) : Prop :=
  ∀ (img : Image) (g : Run.Level img) (a : g.Call) (outer : List Label) (x : Run.Data), g.fn = fn →
    Run.Steps img (a.at_ pc outer x) (a.at_ pc' (labels x.stack.length ++ outer) x)

/-- The label of a block at a position. -/
def blockLabels (fn : LoadedFunction) (pc n : Nat) : List Label :=
  [⟨.block, fn.jumps.endOf pc, n, 0⟩]

/-- The labels of a loop in a block at a position. -/
def loopLabels (fn : LoadedFunction) (pc n : Nat) : List Label :=
  ⟨.loop, pc + 1, n, 0⟩ :: fn.blockLabels pc n

theorem HasAt.opens_block (h : fn.HasAt pc [.block none body]) : fn.Opens pc (pc + 1) (fn.blockLabels pc) := by
  rintro img g a outer x rfl
  have hblock : g.fn.body[pc]? = some (.block none) := getElem?_of_prefix [] h.code
  exact .single (Run.next_of_exec a hblock nofun rfl)

theorem HasAt.opens_loop (h : fn.HasAt pc [.block none [.loop body]]) : fn.Opens pc (pc + 2) (fn.loopLabels pc) := by
  rintro img g a outer x rfl
  have hloop : g.fn.body[pc + 1]? = some (.loop none) := getElem?_of_prefix [] h.block.2.code
  exact .tail (h.opens_block img g a outer x rfl) (Run.next_of_exec a hloop nofun rfl)

/-- A branch leads behind a loop, or to its start. -/
theorem HasAt.leads_loop (h : fn.HasAt pc [.block none [.loop body]]) (n : Nat) (outer : List Label) :
    Frame.Leads (fn.loopLabels pc n ++ outer) 1 (pc + size [.block none [.loop body]]) outer ∧
      Frame.Leads (fn.loopLabels pc n ++ outer) 0 (pc + 2) (fn.loopLabels pc n ++ outer) :=
  ⟨(h.block.1 ▸ Frame.leads_block).outside _, Frame.leads_loop⟩

/-- The code of a loop that tests its condition stands in a function.  It starts with two labels, the jumps of
the condition and the body leave them by the levels for this loop, and these lead behind it or to its start. -/
def KeepsWhile (fn : LoadedFunction) (c : Typed.Expr) (b : List Typed.Stmt) : Prop :=
  ∃ s st st' cc bb pc, (Emit.stmt s (.while_ c b)).run st = .ok (whileCode cc bb, st') ∧
    fn.HasAt pc (whileCode cc bb) ∧ fn.Opens pc (pc + 2) (fn.loopLabels pc) ∧
    Code.escapes cc = (Flow.jumps c.flow).map whileLevel ∧
    Code.escapes bb = (Flow.jumps (stmtFlow b)).map whileLevel ∧
    ∀ n outer, Frame.Leads (fn.loopLabels pc n ++ outer) (whileLevel true) (pc + size (whileCode cc bb)) outer ∧
      Frame.Leads (fn.loopLabels pc n ++ outer) (whileLevel false) (pc + 2) (fn.loopLabels pc n ++ outer)

/-- The code of a loop over elements stands in a function.  It starts with two labels, and its body with a third
one; the jumps of the body leave them by the levels for this loop, and these lead behind it or to where it
counts on. -/
def KeepsFor (fn : LoadedFunction) (id : Nat) (v : Variable) (e : Typed.Expr) (b : List Typed.Stmt) : Prop :=
  ∃ s st st' ac bb elem array len i item pc start body,
    (Emit.stmt s (.for_ id v e b)).run st = .ok (forCode ac bb elem array len i item, st') ∧
    fn.HasAt pc (forCode ac bb elem array len i item) ∧ fn.Opens start (start + 2) (fn.loopLabels start) ∧
    fn.HasAt body [.block none bb] ∧ fn.Opens body (body + 1) (fn.blockLabels body) ∧
    fn.HasAt (body + size [.block none bb]) (Code.ops [.get i, .const 1, .add, .set i, .br 0]) ∧
    Code.escapes bb = (Flow.jumps (stmtFlow b)).map forLevel ∧
    ∀ n n' outer, Frame.Leads (fn.blockLabels body n' ++ (fn.loopLabels start n ++ outer)) (forLevel true)
        (pc + size (forCode ac bb elem array len i item)) outer ∧
      Frame.Leads (fn.blockLabels body n' ++ (fn.loopLabels start n ++ outer)) (forLevel false)
        (body + size [.block none bb]) (fn.loopLabels start n ++ outer)

end LoadedFunction

/-- The code of a function comes of a body in which every jump belongs to a loop, and nothing leaves it; all loops
of the body stand in it. -/
def Function.KeepsLoops (g : Function) (fl : List Flow) : Prop :=
  Flow.jumps fl = [] ∧ ∃ code fn, g.body = flatList code ++ [.end_] ∧ Code.escapes code = [] ∧ Image.load g = .ok fn ∧
    (∀ c b, .while_ c b ∈ Flow.stmts fl → fn.KeepsWhile c b) ∧
    ∀ id v e b, .for_ id v e b ∈ Flow.stmts fl → fn.KeepsFor id v e b

namespace Emit

variable {fn : LoadedFunction} {s : Site} {R : Nat → State → State → Prop} {code : List Code}

theorem Site.Holds.keepsWhile {c : Typed.Expr} {b : List Typed.Stmt} (h : s.Holds R code (.while_ c b))
    (hfits : s.Fits code) (hat : fn.HasAt 0 code) : fn.KeepsWhile c b := by
  obtain ⟨s', _, hin, ⟨cc, bb, rfl, hc, hb⟩, st, st', -, hrun⟩ := h
  obtain ⟨pc, hpc⟩ := hat.within hin
  obtain ⟨hfc, hfb⟩ := fits_while (hin.fits hfits)
  exact ⟨s', st, st', cc, bb, pc, hrun, hpc, hpc.opens_loop, hc.eq (depth?_while s') hfc, hb.eq (depth?_while s') hfb,
    hpc.leads_loop⟩

theorem Site.Holds.keepsFor {id : Nat} {v : Variable} {e : Typed.Expr} {b : List Typed.Stmt}
    (h : s.Holds R code (.for_ id v e b)) (hfits : s.Fits code) (hat : fn.HasAt 0 code) : fn.KeepsFor id v e b := by
  obtain ⟨s', _, hin, ⟨ac, bb, elem, array, len, i, item, rfl, hb⟩, st, st', -, hrun⟩ := h
  obtain ⟨pc, hpc⟩ := hat.within hin
  have hloop := hpc.append.2
  obtain ⟨hround, hnext⟩ := hloop.block.2.loop.append
  have hbody := hround.append.2
  rw [Code.size_append _ [_], ← Nat.add_assoc] at hnext
  refine ⟨s', st, st', ac, bb, elem, array, len, i, item, pc, _, _, hrun, hpc, hloop.opens_loop, hbody,
    hbody.opens_block, hnext, hb.eq (depth?_for s') (fits_for (hin.fits hfits)), fun n n' outer => ⟨?_, ?_⟩⟩
  · rw [forCode, Code.size_append _ [_], ← Nat.add_assoc]
    exact (hloop.leads_loop n outer).1.outside _
  · exact hbody.block.1 ▸ Frame.leads_block

end Emit

/-- The code of a function is made for a body: it follows its flow, and has room for its numbers. -/
structure Function.Renders (g : Function) (fl : List Flow) (s : Emit.Site) (code : List Code) : Prop where
  labels : s.labels = []
  body : g.body = flatList code ++ [.end_]
  follows : Emit.Follows s (Emit.HasRoom (g.ty.params.length + g.locals.length)) fl code
  length : g.body.length ≤ Layout.addressLimit
  locals : g.ty.params.length + g.locals.length ≤ Layout.addressLimit

namespace Function.Renders

variable {g : Function} {fl : List Flow} {s : Emit.Site} {code : List Code}

theorem fits (h : g.Renders fl s code) : s.Fits code := by
  have hlength := h.length
  rw [h.body, List.length_append] at hlength
  rw [Emit.Site.Fits, h.labels]
  exact Nat.le_trans (by simp) hlength

/-- The function is loaded with its code. -/
theorem load (h : g.Renders fl s code) : ∃ fn, Image.load g = .ok fn ∧ fn.HasAt 0 code := by
  obtain ⟨targets, htargets, hlocated⟩ := Jumps.ofBody_flatList code
  have hload : Image.load g = .ok ⟨g.name, g.ty, (g.locals.map Value.zero).toArray, g.body.toArray, targets⟩ := by
    rw [Image.load, h.body, htargets]
  exact ⟨_, hload, ⟨_, by rw [h.body]; rfl⟩, hlocated⟩

/-- A function with code that follows the flow of a body keeps all its loops. -/
theorem keepsLoops (h : g.Renders fl s code) : g.KeepsLoops fl := by
  have hnone (isBreak : Bool) : s.depth? isBreak = none := by
    simp [Emit.Site.depth?, Emit.labelDepth, h.labels]
  have hescapes := h.follows.escapes h.fits
  have hjumps : Flow.jumps fl = [] := by
    cases hfl : Flow.jumps fl with
    | nil => rfl
    | cons j js =>
      rw [hfl, List.map_cons, hnone] at hescapes
      obtain ⟨_, _, -, hsome, -⟩ := List.map_eq_cons_iff.1 hescapes
      cases hsome
  obtain ⟨fn, hload, hat⟩ := h.load
  refine ⟨hjumps, code, fn, h.body, ?_, hload, fun c b hloop => ?_, fun id v e b hloop => ?_⟩
  · rw [hjumps] at hescapes
    exact List.map_eq_nil_iff.1 hescapes
  · exact (h.follows.stmts _ hloop).keepsWhile h.fits hat
  · exact (h.follows.stmts _ hloop).keepsFor h.fits hat

end Function.Renders

namespace Unfolding

variable {p : Typed.Program} {config : CompileConfig} {m : Module} {st : Emit.State} {all : List Job}

/-- Every function has positions and locals with numbers of 32 bits. -/
theorem renders (h : Unfolding p config m st all) {g : Function} (hg : g ∈ m.functions) {s : Emit.Site} {c : Emit.Scope}
    {xs : List Typed.Expr} {vs : List Variable} {fl : List Flow} {before after : Emit.State} (hs : s.labels = [])
    (made : Emit.Made s c xs vs fl before g after) (hk : c.Knows) : ∃ code, g.Renders fl s code := by
  obtain ⟨code, hsound, hcode⟩ := made.sound
  refine ⟨code, hs, hcode, ?_, (h.small hg).2, (h.small hg).1⟩
  rw [made.params, made.locals]
  exact hsound.follows hk

variable {r : Typed.Routine} {id : Nat} {ty : Ty} {params captures : List Variable} {body : Typed.Body}

theorem routine_renders (h : Unfolding p config m st all) (hr : r ∈ p.routines) :
    ∃ g ∈ m.functions, g.name = (if r.sig.isAsync then r.fullName ++ "$entry" else r.fullName) ∧
      ∃ s code, g.Renders (stmtFlow r.body) s code := by
  obtain ⟨f, hf, rfl⟩ : ∃ f ∈ Plan.placed p, f.routine = r := Plan.exists_placed hr
  obtain ⟨before, after, out, hrun, -, -, hout⟩ := h.unfolded.routines f hf
  have hmem {g : Function} (hg : g ∈ out) : g ∈ m.functions := (List.drop_suffix _ _).subset (hout.subset hg)
  cases hasync : f.routine.sig.isAsync with
  | false =>
    rw [Emit.routine_plain _ config hasync] at hrun
    simp only [run_bind_eq_ok, run_pure_eq_ok] at hrun
    obtain ⟨g, _, hrun, rfl, rfl⟩ := hrun
    have hg := hmem (g := g) (.head _)
    have hparams := Emit.params_length (Emit.routine_wellTyped h.compiled.typed f hf)
    have made := Yields.of_ok (Emit.yields_plainFunction _ config hparams before) hrun
    exact ⟨g, hg, Emit.name_function hrun, _, h.renders hg rfl made (.inr trivial)⟩
  | true =>
    rw [Emit.routine_async _ config hasync] at hrun
    simp only [run_bind_eq_ok, run_pure_eq_ok] at hrun
    obtain ⟨w, _, -, g, _, hrun, rfl, rfl⟩ := hrun
    have hg := hmem (g := g) (by simp)
    have made := Yields.of_ok (Emit.yields_entryFunction _ f.routine _) hrun
    exact ⟨g, hg, Emit.name_function hrun, _, h.renders hg rfl made (.inr trivial)⟩

theorem script_renders (h : Unfolding p config m st all) (hscript : p.script ≠ []) :
    ∃ g ∈ m.functions, g.name = "_start" ∧ ∃ s code, g.Renders (stmtFlow p.script) s code := by
  obtain ⟨before, after, g, hg, hrun, -⟩ := h.unfolded.script hscript
  have made := Yields.of_ok (Emit.yields_scriptFunction _ p.script before) hrun
  exact ⟨g, hg, Emit.name_function hrun, _, h.renders hg rfl made (.inr trivial)⟩

theorem literal_renders (h : Unfolding p config m st all)
    (hnode : (⟨id, ty, .lambda params captures body⟩ : Typed.Expr) ∈ p.nodes) :
    ∃ slot g, m.HasInSlot slot g ∧ g.name = "lambda$" ++ toString id ∧ ∃ s code, g.Renders body.flow s code := by
  obtain ⟨g, hg, step, outer, after, hvisit⟩ := h.unfolded.visited h.compiled.typed _ hnode
  obtain ⟨env, value, slot, captured, -, -, -, hslot⟩ := hvisit.node
  obtain ⟨done, hwithin⟩ := hvisit.within
  obtain ⟨k, -, hjob, rfl⟩ := hwithin.scheduled hslot
  obtain ⟨before, after', f, hf, hrun, hmem⟩ := h.hasInSlot_job hjob
  obtain ⟨Γ, n, -, hliteral⟩ := Emit.exists_literalTyped h.compiled.typed hnode
  obtain ⟨ret, rfl⟩ := hliteral.ty
  obtain ⟨-, made⟩ := Yields.of_ok (Emit.yields_literalJob _ id ret (fun v hv => (hliteral.params.bounds hv).1)
    hliteral.decls before) hrun
  exact ⟨_, f, hf, Emit.name_job hrun, _, h.renders hmem rfl made (.inr trivial)⟩

theorem routine_loops (h : Unfolding p config m st all) (hr : r ∈ p.routines) :
    ∃ g ∈ m.functions, g.name = (if r.sig.isAsync then r.fullName ++ "$entry" else r.fullName) ∧
      g.KeepsLoops (stmtFlow r.body) := by
  obtain ⟨g, hg, hname, s, code, hrenders⟩ := h.routine_renders hr
  exact ⟨g, hg, hname, hrenders.keepsLoops⟩

theorem script_loops (h : Unfolding p config m st all) (hscript : p.script ≠ []) :
    ∃ g ∈ m.functions, g.name = "_start" ∧ g.KeepsLoops (stmtFlow p.script) := by
  obtain ⟨g, hg, hname, s, code, hrenders⟩ := h.script_renders hscript
  exact ⟨g, hg, hname, hrenders.keepsLoops⟩

theorem literal_loops (h : Unfolding p config m st all)
    (hnode : (⟨id, ty, .lambda params captures body⟩ : Typed.Expr) ∈ p.nodes) :
    ∃ slot g, m.HasInSlot slot g ∧ g.name = "lambda$" ++ toString id ∧ g.KeepsLoops body.flow := by
  obtain ⟨slot, g, hg, hname, s, code, hrenders⟩ := h.literal_renders hnode
  exact ⟨slot, g, hg, hname, hrenders.keepsLoops⟩

end Unfolding

/-- **Jumps reach their loops.**  In every function, method, function literal and the top level of a program, every
jump belongs to a loop: the innermost one with the jump in its body, or in its condition if it tests one.  In the
function of the module, what leaves the code of the body, and of the condition, is exactly one branch for each of
these jumps, in order; it leads behind the loop, or to its next round. -/
theorem loops_of_compile {source : String} {config : CompileConfig} {p : Typed.Program} {m : Module}
    (hp : checkSource source config.strictMatch = .ok p) (hm : compile source config = .ok m) :
    (∀ r ∈ p.routines, ∃ g ∈ m.functions,
      g.name = (if r.sig.isAsync then r.fullName ++ "$entry" else r.fullName) ∧ g.KeepsLoops (stmtFlow r.body)) ∧
    (p.script ≠ [] → ∃ g ∈ m.functions, g.name = "_start" ∧ g.KeepsLoops (stmtFlow p.script)) ∧
    ∀ id ty params captures body, (⟨id, ty, .lambda params captures body⟩ : Typed.Expr) ∈ p.nodes →
      ∃ slot g, m.HasInSlot slot g ∧ g.name = "lambda$" ++ toString id ∧ g.KeepsLoops body.flow := by
  obtain ⟨st, all, h⟩ := unfolding_of_compile hp hm
  exact ⟨fun _ => h.routine_loops, h.script_loops, fun _ _ _ _ _ => h.literal_loops⟩

/-- A program with a loop in whose condition a jump leaves it. -/
def conditionSource : String :=
  "fn main() -> i32 \x7b let n = 0; while true \x7b while match n \x7b 0 => true, _ => \x7b break; \x7d \x7d " ++
  "\x7b n = n + 1; \x7d n = n + 10; if n > 100 \x7b return n; \x7d \x7d return 0; \x7d"

/-- Whether a statement is a loop with one jump in its condition, which leaves it. -/
def Typed.Stmt.breaksCondition : Typed.Stmt → Bool
  | .while_ c _ => Flow.jumps c.flow = [true]
  | _ => false

theorem loops_of_compile_condition : ∃ p m, checkSource conditionSource true = .ok p ∧
    compile conditionSource {} = .ok m ∧ ∃ g ∈ m.functions, ∃ fn, Image.load g = .ok fn ∧
      ∃ c b, Flow.jumps c.flow = [true] ∧ fn.KeepsWhile c b := by
  obtain ⟨p, m, hp, hm, hfound⟩ := @exists_compile conditionSource {} (fun p _ =>
    p.routines.any fun r => (Flow.stmts (stmtFlow r.body)).any (·.breaksCondition)) (by decide +kernel)
  obtain ⟨r, hr, hany⟩ := List.any_eq_true.1 hfound
  obtain ⟨t, ht, hbreaks⟩ := List.any_eq_true.1 hany
  obtain ⟨g, hg, -, -, -, fn, -, -, hload, hwhile, -⟩ := (@loops_of_compile conditionSource {} p m hp hm).1 r hr
  cases t with
  | while_ c b => exact ⟨p, m, hp, hm, g, hg, fn, hload, c, b, of_decide_eq_true hbreaks, hwhile c b ht⟩
  | _ => cases hbreaks

end StackScript
