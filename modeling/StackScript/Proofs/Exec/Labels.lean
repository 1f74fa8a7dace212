import Mathlib.Data.List.Forall2
import StackScript.Proofs.Exec.Integrity

/-!
# Labels mirror nesting

A frame keeps a label for every construct that it has entered and not left.  In a body in which every `else` belongs to
an `if`, these are the constructs around its position, whatever jumps have led there.

A body whose last `end` closes a construct is accepted all the same, and a frame that leaves this construct runs past
the end of the body.
-/

namespace StackScript

/-- A label of the construct that starts at a position. -/
def Label.Mirrors (body : List Instr) (l : Label) (start : Nat) : Prop :=
  match body[start]? with
  | some (.block _) => l.kind = .block ∧ Closes body start l.target
  | some (.if_ _) => l.kind = .cond ∧ Closes body start l.target
  | some (.loop _) => l.kind = .loop ∧ l.target = start
  | _ => False

/-- Labels that are those of the constructs around a position. -/
structure Mirrors (body : List Instr) (pc : Nat) (ls : List Label) : Prop where
  labels : List.Forall₂ (Label.Mirrors body) ls (enclosing body pc)
  /-- The end of the body is passed only if its last instruction ends a construct. -/
  inside : pc < body.length ∨ pc = body.length ∧ enclosing body (pc - 1) ≠ []

/-- A body in which every `else` belongs to an `if`. -/
def ElsesPlaced (body : List Instr) : Prop :=
  ∀ pc, body[pc]? = some .else_ →
    ∃ start ty, (enclosing body pc).head? = some start ∧ body[start]? = some (.if_ ty)

/-! ## Positions -/

section Positions

variable {body : List Instr} {pc start stop : Nat} {j : Jumps} {i : Instr} {l : Label} {ls : List Label}

theorem enclosing_of_head (h : (enclosing body pc).head? = some start) :
    enclosing body pc = start :: enclosing body start := by
  obtain ⟨outer, hopen⟩ := List.head?_eq_some_iff.1 h
  rw [(enclosing_of_append (w := []) hopen).2.1, hopen]

/-- Only an `end` is the last instruction. -/
theorem Jumps.succ_lt_length (h : ofBody body = .ok j) (hat : body[pc]? = some i) (hi : i ≠ .end_) :
    pc + 1 < body.length := by
  obtain ⟨hlt, -⟩ := List.getElem?_eq_some_iff.1 hat
  refine Nat.lt_of_le_of_ne hlt fun heq => hi ?_
  have hlast := (ofBody_eq_ok h).2
  rw [← heq, Nat.succ_sub_one, hat] at hlast
  exact Option.some.inj hlast

theorem Label.Mirrors.cases (h : l.Mirrors body start) :
    (l.kind = .loop ∧ l.target = start ∧ ∃ ty, body[start]? = some (.loop ty)) ∨
      (l.kind ≠ .loop ∧ Closes body start l.target) := by
  unfold Label.Mirrors at h
  split at h
  · exact .inr ⟨by simp [h.1], h.2⟩
  · exact .inr ⟨by simp [h.1], h.2⟩
  · exact .inl ⟨h.1, h.2, _, ‹_›⟩
  · exact h.elim

namespace Mirrors

/-- After the end of a construct, those around its start are left. -/
theorem closed (h : Closes body start stop)
    (hls : List.Forall₂ (Label.Mirrors body) ls (enclosing body start)) : Mirrors body (stop + 1) ls := by
  refine ⟨by rwa [enclosing_end h.1, enclosing_of_head h.2, List.tail_cons], ?_⟩
  rw [Nat.add_sub_cancel, enclosing_of_head h.2]
  obtain hlt | heq := Nat.lt_or_eq_of_le (List.getElem?_eq_some_iff.1 h.1).1
  · exact .inl hlt
  · exact .inr ⟨heq, List.cons_ne_nil _ _⟩

/-- At the end of a construct, its own label is there too. -/
theorem ending (h : Closes body start stop) (hl : l.Mirrors body start)
    (hls : List.Forall₂ (Label.Mirrors body) ls (enclosing body start)) : Mirrors body stop (l :: ls) :=
  ⟨enclosing_of_head h.2 ▸ .cons hl hls, .inl (List.getElem?_eq_some_iff.1 h.1).1⟩

theorem opened (hj : Jumps.ofBody body = .ok j) (hat : body[start]? = some i) (hi : i.Opens) (hl : l.Mirrors body start)
    (hls : List.Forall₂ (Label.Mirrors body) ls (enclosing body start)) : Mirrors body (start + 1) (l :: ls) := by
  refine ⟨by rw [enclosing_opens hat hi]; exact .cons hl hls, .inl (Jumps.succ_lt_length hj hat ?_)⟩
  rintro rfl
  exact hi

/-- A branch leads to a position of the same body that the remaining labels mirror. -/
theorem branch (hj : Jumps.ofBody body = .ok j) {f f' : Frame} {s s' : Stack} {depth : Nat}
    (h : f.branch s depth = .ok (f', s')) : f'.function = f.function ∧
      (List.Forall₂ (Label.Mirrors body) f.labels (enclosing body pc) → Mirrors body f'.pc f'.labels) := by
  unfold Frame.branch at h
  split at h
  next => cases h
  next l outer heq =>
    have hcases (hls : List.Forall₂ (Label.Mirrors body) f.labels (enclosing body pc)) :
        (l.kind = .loop → Mirrors body (l.target + 1) (l :: outer)) ∧
          (l.kind ≠ .loop → Mirrors body (l.target + 1) outer) := by
      have hdrop := List.forall₂_drop depth hls
      rw [heq] at hdrop
      obtain ⟨start, starts, hl, houter, hopen⟩ := List.forall₂_cons_left_iff.1 hdrop
      have happend : enclosing body pc = (enclosing body pc).take depth ++ start :: starts := by
        rw [← hopen, List.take_append_drop]
      obtain ⟨-, rfl, -⟩ := enclosing_of_append happend
      obtain ⟨hkind, rfl, ty, hat⟩ | ⟨hkind, hcloses⟩ := hl.cases
      · exact ⟨fun _ => opened hj hat trivial hl houter, fun h => absurd hkind h⟩
      · exact ⟨fun h => absurd h hkind, fun _ => closed hcloses houter⟩
    split at h
    next hkind =>
      cases h
      exact ⟨rfl, fun hls => (hcases hls).1 hkind⟩
    all_goals
      next hkind =>
        split at h <;> cases h
        exact ⟨rfl, fun hls => (hcases hls).2 (by simp [hkind])⟩

end Mirrors

end Positions

/-! ## Instructions -/

/-- The labels of a frame mirror the body of its function. -/
def Frame.MirrorsIn (img : Image) (f : Frame) : Prop :=
  ∀ fn, img.functions[f.function]? = some fn → ElsesPlaced fn.body.toList → Mirrors fn.body.toList f.pc f.labels

/-- A loaded module with the jump targets of its bodies. -/
def Image.Located (img : Image) : Prop :=
  ∀ (place : Nat) (fn : LoadedFunction), img.functions[place]? = some fn →
    Jumps.ofBody fn.body.toList = .ok fn.jumps

theorem Image.located_of_ofModule {m : Module} {config : RunConfig} {img : Image} (h : ofModule m config = .ok img) :
    img.Located := by
  intro place fn hfn
  obtain ⟨f, -, hload⟩ := exists_load h hfn
  obtain ⟨j, hj, rfl⟩ := load_eq_ok hload
  exact hj

namespace Task

variable {img : Image}

/-- A call starts outside of all constructs. -/
theorem mirrors_enter (hl : img.Located) {t t' : Task} {index : Nat} (h : t.enter img index = .ok t')
    (hframes : ∀ f ∈ t.frames, f.MirrorsIn img) : t'.Runs (Frame.MirrorsIn img) := by
  obtain ⟨place, _, args, rest, -, -, -, rfl⟩ := Run.enter_eq_ok h
  refine .cons (fun fn hfn _ => ⟨.nil, .inl ?_⟩) hframes
  have hlast := (Jumps.ofBody_eq_ok (hl place fn hfn)).2
  exact Nat.zero_lt_of_lt (List.getElem?_eq_some_iff.1 hlast).1

/-- An instruction keeps labels those of the constructs around its frame. -/
theorem mirrors_step (hl : img.Located) {t : Task} {p : Progress} (ht : t.Runs (Frame.MirrorsIn img))
    (h : Run.StepLeads img t p) : p.All (Task.Runs (Frame.MirrorsIn img)) := by
  obtain ⟨f, outer, fn, i, hframes, hfn, hi, hleads⟩ := h
  obtain ⟨number, frames, s, awaiting⟩ := t
  obtain rfl : frames = f :: outer := hframes
  obtain ⟨hf, houter⟩ := List.forall_mem_cons.1 ht.frames
  have hj := hl f.function fn hfn
  rw [← Array.getElem?_toList] at hi
  have hin {f' : Frame} (hfunction : f'.function = f.function)
      (h : ElsesPlaced fn.body.toList → List.Forall₂ (Label.Mirrors fn.body.toList) f.labels
        (enclosing fn.body.toList f.pc) → Mirrors fn.body.toList f'.pc f'.labels) : f'.MirrorsIn img := by
    intro fn' hfn' placed
    rw [hfunction] at hfn'
    cases hfn.symm.trans hfn'
    exact h placed (hf fn hfn placed).labels
  cases hleads with
  | block | loop | if_ =>
    refine .cons (hin rfl fun _ hls => .opened hj hi trivial ?_ hls) houter
    simp [Label.Mirrors, hi, Jumps.closes_endOf hj hi trivial]
  | @ifNot ty s' top =>
    refine .cons (hin rfl fun _ hls => ?_) houter
    have hcloses := Jumps.closes_endOf hj hi trivial
    have hl : Label.Mirrors fn.body.toList ⟨.cond, fn.jumps.endOf f.pc, s'.length, Run.arityOf ty⟩ f.pc := by
      simp [Label.Mirrors, hi, hcloses]
    dsimp only [Frame.openLabel]
    cases helse : fn.jumps.elseOf f.pc with
    | none => exact .ending hcloses hl hls
    | some middle =>
      obtain ⟨hmiddle, hhead⟩ := Jumps.elseOf_ofBody hj helse
      refine ⟨?_, .inl (Jumps.succ_lt_length hj hmiddle nofun)⟩
      rw [Option.elim_some, enclosing_else hmiddle, enclosing_of_head hhead]
      exact .cons hl hls
  | @else_ l ls labels =>
    refine .cons (hin rfl fun placed hls => ?_) houter
    obtain ⟨start, ty, hhead, hat⟩ := placed f.pc hi
    rw [enclosing_of_head hhead, show f.labels = l :: ls from labels] at hls
    obtain ⟨hl, hls⟩ := List.forall₂_cons.1 hls
    dsimp only
    rw [show f.labels = l :: ls from labels]
    refine .ending ?_ hl hls
    simp only [Label.Mirrors, hat] at hl
    exact hl.2
  | @end_ l ls labels =>
    refine .cons (hin rfl fun _ hls => ?_) houter
    rw [show f.labels = l :: ls from labels] at hls
    obtain ⟨start, starts, hl, hls, hopen⟩ := List.forall₂_cons_left_iff.1 hls
    obtain ⟨-, rfl, -⟩ := enclosing_of_append (w := []) hopen
    exact .closed ⟨hi, by rw [hopen, List.head?_cons]⟩ hls
  | leave _ left => exact Task.Runs.leave left houter
  | op leads =>
    have hstay : List.Forall₂ (Label.Mirrors fn.body.toList) f.labels (enclosing fn.body.toList f.pc) →
        Mirrors fn.body.toList (f.pc + 1) f.labels := fun hls =>
      ⟨by rwa [enclosing_op hi], .inl (Jumps.succ_lt_length hj hi nofun)⟩
    refine leads.keeps (hin rfl fun _ => hstay) houter (fun _ _ => hin rfl fun _ => hstay) ?_ (mirrors_enter hl)
    intro s depth f' s' jump
    obtain ⟨hfunction, hmirrors⟩ := Mirrors.branch hj jump
    exact hin hfunction fun _ => hmirrors

theorem lasting_mirrors (hl : img.Located) : Task.Lasting img (Task.Runs (Frame.MirrorsIn img)) where
  enter h := mirrors_enter hl h (List.forall_mem_nil _)
  resume h := ⟨h.running, h.frames⟩
  step h := mirrors_step hl h

end Task

/-! ## Faults -/

/-- Only a task that lacks something is malformed. -/
theorem Run.lacks_of_malformed {img : Image} {t : Task} {m m' : Machine} {x : Malformation}
    (h : step img t m = .error (.malformed x) m') : t.Lacks img (.malformed x) := by
  obtain ⟨hfault | hlacks, -⟩ := (step_follows img t m).of_error h
  · cases hfault with
    | ordinary he => exact absurd trivial he.2
    | spawn call entry enter =>
      obtain he | ⟨-, he⟩ := enter_eq_error enter
      · exact absurd trivial he.2
      · cases he
  · exact hlacks

/-- The next instruction of a task is a branch that it takes. -/
def Task.Branches (fn : LoadedFunction) (f : Frame) (t : Task) (depth : UInt32) : Prop :=
  fn.body[f.pc]? = some (.op (.br depth)) ∨
    fn.body[f.pc]? = some (.op (.brIf depth)) ∧ ∃ c s, t.stack = .i32 c :: s ∧ c ≠ 0

namespace Mirrors

variable {img : Image} {fn : LoadedFunction} {f : Frame} {t : Task} {outer : List Frame}

/-- Where labels mirror nesting, no `else` is outside, and the end is passed only behind a construct. -/
theorem faults (h : Mirrors fn.body.toList f.pc f.labels) (placed : ElsesPlaced fn.body.toList)
    (found : img.functions[f.function]? = some fn) (frames : t.frames = f :: outer) {x : Malformation}
    (lacks : t.Lacks img (.malformed x)) :
    x ≠ .elseOutside ∧ ∀ name, x = .pastEnd name → enclosing fn.body.toList (fn.body.size - 1) ≠ [] := by
  cases lacks with
  | frame => cases frames
  | instr found' missing =>
    cases frames
    cases found.symm.trans found'
    refine ⟨nofun, fun _ _ => ?_⟩
    rw [Array.getElem?_eq_none_iff, ← Array.length_toList] at missing
    obtain hlt | ⟨heq, hne⟩ := h.inside
    · omega
    · rwa [heq, Array.length_toList] at hne
  | else_ found' next labels =>
    cases frames
    cases found.symm.trans found'
    obtain ⟨start, ty, hhead, -⟩ := placed f.pc (Array.getElem?_toList ▸ next)
    have hls := h.labels
    rw [labels, List.forall₂_nil_left_iff] at hls
    rw [hls] at hhead
    cases hhead
  | op _ _ lacks => cases lacks <;> exact ⟨nofun, nofun⟩

/-- Where labels mirror nesting, a branch is malformed exactly if it leads further out than there are constructs. -/
theorem malformed_iff (h : Mirrors fn.body.toList f.pc f.labels) (found : img.functions[f.function]? = some fn)
    (frames : t.frames = f :: outer) {depth : UInt32} (branches : t.Branches fn f depth) (m : Machine) :
    (∃ x m', Run.step img t m = .error (.malformed x) m') ↔ (enclosing fn.body.toList f.pc).length ≤ depth.toNat := by
  rw [← h.labels.length_eq]
  obtain ⟨id, _, s, awaiting⟩ := t
  obtain rfl : _ = f :: outer := frames
  constructor
  · rintro ⟨x, m', failed⟩
    cases Run.lacks_of_malformed failed with
    | instr found' missing | else_ found' missing =>
      cases found.symm.trans found'
      obtain next | ⟨next, -⟩ := branches <;> cases next.symm.trans missing
    | op found' next lacks =>
      cases found.symm.trans found'
      obtain next' | ⟨next', -⟩ := branches <;> cases next'.symm.trans next
      all_goals
        cases lacks
        assumption
  · intro deep
    have hbranch (s : Stack) : Frame.branch { f with pc := f.pc + 1 } s depth.toNat =
        .error (.malformed (.branchDepth depth.toNat)) := by
      simp only [Frame.branch, List.drop_eq_nil_of_le deep]
    obtain next | ⟨next, c, s', rfl, hc⟩ := branches
    · rw [Run.step_eq found next]
      simp only [Run.exec, Run.execOp, hbranch]
      exact ⟨_, _, rfl⟩
    · rw [Run.step_eq found next]
      simp only [Run.exec, Run.execOp, show Stack.popI32 (.i32 c :: s') = .ok (c, s') from rfl]
      refine ⟨.branchDepth depth.toNat, m, (congrFun (if_neg hc) m).trans ?_⟩
      simp only [hbranch]
      rfl

end Mirrors

/-! ## Runs -/

/-- **Labels mirror nesting.**  In every state of a run, the labels of a frame are those of the constructs around its
position, if every `else` of the body belongs to an `if`.  So no `else` is found outside of all constructs, the end of
the body is passed only behind a construct that its last `end` closes, and a branch is malformed exactly if it leads
further out than there are constructs. -/
theorem Vm.labels_mirror {module : Module} {config : RunConfig} {files : Directory} {origin vm : Vm}
    (loaded : ofModule module config files = .ok origin) (reached : origin.Reached vm) {log : List Event} {s : Scene}
    (moves : Moves vm.image ⟨vm.machine, none⟩ log s) {t : Task} (live : s.turn = some t ∨ t ∈ s.machine.tasks)
    {f : Frame} (mem : f ∈ t.frames) {fn : LoadedFunction} (found : vm.image.functions[f.function]? = some fn)
    (placed : ElsesPlaced fn.body.toList) : Mirrors fn.body.toList f.pc f.labels ∧ ∀ outer, t.frames = f :: outer → ∀ m,
      (∀ x m', Run.step vm.image t m = .error (.malformed x) m' → x ≠ .elseOutside ∧
        ∀ name, x = .pastEnd name → enclosing fn.body.toList (fn.body.size - 1) ≠ []) ∧
      ∀ depth, t.Branches fn f depth → ((∃ x m', Run.step vm.image t m = .error (.malformed x) m') ↔
        (enclosing fn.body.toList f.pc).length ≤ depth.toNat) := by
  obtain ⟨image, memory, himage, -, rfl⟩ := ofModule_eq_ok loaded
  obtain ⟨hsame, log', moves'⟩ := reached.moves
  rw [hsame] at moves found ⊢
  have hall {log : List Event} {s : Scene}
      (h : Moves image ⟨{ memory, work := { directory := files } }, none⟩ log s) :
      s.All (Task.Runs (Frame.MirrorsIn image)) := by
    induction h with
    | refl => exact ⟨List.forall_mem_nil _, fun _ h => by cases h⟩
    | tail _ last ih => exact ih.of_move (Task.lasting_mirrors (Image.located_of_ofModule himage)) last
  have hscene := hall (moves'.trans moves)
  have ht : t.Runs (Frame.MirrorsIn image) := live.elim (hscene.turn t) (hscene.tasks t)
  have hmirrors := ht.frames f mem fn found placed
  exact ⟨hmirrors, fun outer frames m => ⟨fun x m' failed =>
    hmirrors.faults placed found frames (Run.lacks_of_malformed failed), fun depth branches =>
      hmirrors.malformed_iff found frames branches m⟩⟩

/-- A function with a branch that leads further out than there are constructs. -/
def strayModule : Module :=
  { imports := [], types := [], table := [], data := [], minPages := 0, heapBase := 0, start := some 0, main := none
    functions := [⟨"stray", ⟨[], []⟩, [], [.block none, .op (.br 1), .end_, .end_], none⟩] }

theorem Vm.labels_mirror_stray : ∃ vm log m t, ofModule strayModule {} {} = .ok vm ∧
    Moves vm.image ⟨vm.machine, none⟩ log ⟨m, some t⟩ ∧ t.frames.map (·.pc) = [1] ∧
      ∃ x m', Run.step vm.image t m = .error (.malformed x) m' := by
  obtain ⟨vm, loaded, m, t, moves, f, hframes, hpc, hfound⟩ : ∃ vm, ofModule strayModule {} {} = .ok vm ∧ ∃ m t,
      Moves vm.image ⟨vm.machine, none⟩ [] ⟨m, some t⟩ ∧ ∃ f, t.frames = [f] ∧ f.pc = 1 ∧
        (vm.image.functions[f.function]?.map (·.body)) = some #[.block none, .op (.br 1), .end_, .end_] := by
    have offered : strayModule.Offers 0 := .start (i := 0) rfl
    refine ⟨_, rfl, _, _, .tail (.tail (.single (.spawn (show Run.spawn _ 0 [] _ = .ok _ _ from rfl) offered))
      (.begin rfl rfl)) (.next rfl rfl (.quiet ?_)), _, rfl, rfl, rfl⟩
    exact ⟨rfl, rfl, rfl, rfl, rfl⟩
  obtain ⟨fn, found, hbody⟩ := Option.map_eq_some_iff.1 hfound
  have placed : ElsesPlaced fn.body.toList := by
    rw [hbody]
    intro pc hpc
    match pc, hpc with
    | 0, hpc | 1, hpc | 2, hpc | 3, hpc => cases hpc
  refine ⟨vm, [], m, t, loaded, moves, by rw [hframes, List.map_singleton, hpc], ?_⟩
  have hmirrors := labels_mirror loaded .load moves (.inl rfl) (hframes ▸ List.mem_singleton_self f) found placed
  refine ((hmirrors.2 [] hframes m).2 1 (.inl ?_)).2 ?_
  · rw [hbody, hpc]
    rfl
  · rw [hbody, hpc]
    decide

end StackScript
