import StackScript.Proofs.Exec.Constants
import StackScript.Proofs.Exec.Wakeups

/-!
# A lone task

While a program starts no tasks of its own, no more than one task lives.  Then turns do not matter: whoever
queues up is next, and nothing happens in between.

## Design Notes

A run has a bound.  The bound that is enough depends on the fuel, since every turn takes a round of the
scheduler; so what turns come to is said for all bounds that are great enough.
-/

namespace StackScript

/-- The same image with another number of instructions for a turn. -/
def Image.withFuel (img : Image) (fuel : Option Nat) : Image :=
  { img with config := { img.config with fuel } }

/-- The next instruction of a task calls the function of the host that starts tasks. -/
def Task.Spawns (img : Image) (t : Task) : Prop :=
  (t.hostCall? img).map Prod.fst = some .taskSpawn

instance (img : Image) (t : Task) : Decidable (t.Spawns img) :=
  inferInstanceAs (Decidable (_ = _))

/-- The machine that an ended turn of a task leaves. -/
def Slice.left (id : Nat) (m : Machine) : Slice → Machine
  | .finished v => if m.root = some id then { m with rootResult := some v } else m
  | .blocked t => { m with tasks := t :: m.tasks }
  | .yielded t => { m with tasks := t :: m.tasks, ready := m.ready ++ [id] }

namespace Run

variable {α β : Type} {img : Image} {x : Run α} {f : α → Run β} {m m' : Machine}

theorem bind_of_ok (f : α → Run β) {a : α} (h : x m = .ok a m') : (x >>= f) m = f a m' := by
  simp only [bind, EStateM.bind, h]

theorem bind_of_error (f : α → Run β) {e : Fault} (h : x m = .error e m') : (x >>= f) m = .error e m' := by
  simp only [bind, EStateM.bind, h]

/-! ## The result that is asked for -/

def SameResult (m m' : Machine) : Prop :=
  m'.rootResult = m.rootResult

instance : Blind SameResult := ⟨fun _ h => h, fun h h' => Eq.trans h' h⟩

/-- A step that leaves alone the result of the root. -/
abbrev KeepsResult (x : Run α) : Prop :=
  Respects SameResult x

theorem keepsResult_onMemory {x : Memory.Action α} : KeepsResult (onMemory x) := by
  intro m
  unfold Ends onMemory
  dsimp only
  cases x m.memory <;> rfl

/-- Only the scheduler says what the root has returned. -/
theorem keepsResult_step (t : Task) : KeepsResult (step img t) :=
  respects_step (fun _ => keepsResult_onMemory) (fun _ => keepsResult_onMemory)
    (fun _ _ _ _ _ => keepsResult_onMemory) fun _ _ _ _ => keepsResult_onMemory

theorem keepsResult_complete (c : Completion) : KeepsResult (complete c) :=
  respects_complete (fun _ => keepsResult_onMemory) (fun _ _ => keepsResult_onMemory.bind fun _ =>
    keepsResult_onMemory.bind fun _ => keepsResult_onMemory.bind fun _ => respects_pure) c

theorem keepsResult_awaitHost : KeepsResult awaitHost := by
  intro m
  refine ends_bind (ends_get ?_)
  split
  · exact ends_bind (ends_set (keepsResult_complete _ _))
  · exact ends_throw rfl

/-- The goal of a call: the root has returned. -/
def returned (m : Machine) : Bool :=
  m.rootResult.isSome

end Run

/-! ## A lone task -/

namespace Scene

open Run

/-- No more than one task lives.  While it does, the goal is its result, which is not there yet. -/
structure Alone (goal : Machine → Bool) (s : Scene) : Prop where
  orderly : s.Orderly
  single : s.live.length ≤ 1
  busy : s.live = [] ∨ goal = returned ∧ s.machine.rootResult = none

namespace Alone

variable {img : Image} {goal : Machine → Bool} {m m' : Machine} {t t' : Task}

theorem tasks_eq (ha : Alone goal ⟨m, some t⟩) : m.tasks = [] := by
  have hsingle := ha.single
  simp only [live, Option.toList_some, List.singleton_append, List.length_cons] at hsingle
  exact List.eq_nil_of_length_eq_zero (by omega)

theorem goal_eq (ha : Alone goal ⟨m, some t⟩) : goal = returned ∧ m.rootResult = none :=
  ha.busy.resolve_left (List.cons_ne_nil _ _)

/-- A lone task that has its turn and goes on after an instruction is still alone. -/
theorem next (ha : Alone goal ⟨m, some t⟩) (free : t.awaiting = none) (lone : ¬t.Spawns img)
    (hstep : step img t m = .ok (.next t') m') : Alone goal ⟨m', some t'⟩ := by
  obtain ⟨-, -, log, effect⟩ := (step_follows img t m).of_ok hstep
  have htasks : m'.tasks = m.tasks := by
    cases effect with
    | quiet same => exact same.tasks
    | submits _ _ _ _ _ tasks => exact tasks
    | spawns call => exact absurd (by rw [Task.Spawns, call]; rfl) lone
    | abandons _ _ _ tasks => exact tasks
    | settles _ _ _ settles => exact settles.tasks
  refine ⟨ha.orderly.of_move (.next free hstep effect), ?_, .inr ⟨ha.goal_eq.1, ?_⟩⟩
  · simp [live, htasks, ha.tasks_eq]
  · rw [(keepsResult_step t m).of_ok hstep, ha.goal_eq.2]

theorem finish {v : Option Value} (ha : Alone goal ⟨m, some t⟩) (free : t.awaiting = none)
    (hstep : step img t m = .ok (.finished v) m') : Alone goal ⟨(Slice.finished v).left t.id m', none⟩ := by
  have same : m.SameSchedule m' := (step_follows img t m).of_ok hstep
  have hleft : m'.SameSchedule ((Slice.finished v).left t.id m') := by
    simp only [Slice.left]
    split
    · exact ⟨rfl, rfl, rfl, rfl, rfl⟩
    · exact .refl _
  have hlive : (⟨(Slice.finished v).left t.id m', none⟩ : Scene).live = [] := by
    simp [live, hleft.tasks, same.tasks, ha.tasks_eq]
  exact ⟨(ha.orderly.of_move (.finish free hstep)).of_same hleft, by simp [hlive], .inl hlive⟩

theorem block (ha : Alone goal ⟨m, some t⟩) (free : t.awaiting = none)
    (hstep : step img t m = .ok (.blocked t') m') : Alone goal ⟨(Slice.blocked t').left t.id m', none⟩ := by
  obtain ⟨h, -, -, waits⟩ := (step_follows img t m).of_ok hstep
  refine ⟨ha.orderly.of_move (.block free hstep), ?_, .inr ⟨ha.goal_eq.1, ?_⟩⟩
  · simp [live, Slice.left, waits.tasks, ha.tasks_eq]
  · exact ((keepsResult_step t m).of_ok hstep).trans ha.goal_eq.2

theorem yield (img : Image) (ha : Alone goal ⟨m, some t⟩) (free : t.awaiting = none) :
    Alone goal ⟨(Slice.yielded t).left t.id m, none⟩ := by
  have move : Move img ⟨m, some t⟩ _ ⟨(Slice.yielded t).left t.id m, none⟩ := .yield free
  refine ⟨ha.orderly.of_move move, ?_, .inr ha.goal_eq⟩
  simp [live, Slice.left, ha.tasks_eq]

theorem begin (img : Image) (ha : Alone goal ⟨m, none⟩) (hready : m.ready = [t.id]) (htasks : m.tasks = [t]) :
    Alone goal ⟨{ m with ready := [], tasks := [] }, some t⟩ := by
  have move : Move img ⟨m, none⟩ _ _ := .begin hready (t := t) (by simp [htasks])
  have ho := ha.orderly.of_move move
  rw [htasks, List.eraseP_cons_of_pos (by simp)] at ho
  exact ⟨ho, by simp [live], .inr (ha.busy.resolve_left (by simp [live, htasks]))⟩

theorem resume (img : Image) {h : PromiseHandle} {v : BitVec 64} (ha : Alone goal ⟨m, some t⟩)
    (awaits : t.awaiting = some h) (state : m.promises.state h = .ok (.resolved v)) :
    Alone goal ⟨m, some { t with awaiting := none, stack := .i64 v :: t.stack }⟩ := by
  have move : Move img ⟨m, some t⟩ _ _ := .resume awaits state
  exact ⟨ha.orderly.of_move move, ha.single, .inr ha.goal_eq⟩

theorem await (img : Image) (ha : Alone goal ⟨m, none⟩) (hhost : awaitHost m = .ok () m') : Alone goal ⟨m', none⟩ := by
  have hresult : m'.rootResult = m.rootResult := (keepsResult_awaitHost m).of_ok hhost
  cases hwait : m.work.wait with
  | none =>
    simp only [awaitHost, get_bind, hwait] at hhost
    cases hhost
  | some p =>
    obtain ⟨c, work⟩ := p
    have hcomplete : complete c { m with work } = .ok () m' := by
      simp only [awaitHost, get_bind, hwait] at hhost
      exact hhost
    have htasks : m'.tasks = m.tasks := ((complete_ends c _).of_ok hcomplete).tasks
    have move : Move img ⟨m, none⟩ _ ⟨m', none⟩ := .deliver hwait hcomplete
    refine ⟨ha.orderly.of_move move, ?_, ?_⟩
    · simpa only [live, htasks] using ha.single
    · simpa only [live, htasks, hresult] using ha.busy

end Alone

end Scene

namespace Run

/-! ## Runs of a lone task -/

/-- How a lone task runs until a goal is reached or something fails.  No turn of the task ends before it
has to wait. -/
inductive Solo (img : Image) (goal : Machine → Bool) : Scene → EStateM.Result Fault Machine (Option Unit) → Prop
  | reached {m} (met : goal m = true) : Solo img goal ⟨m, none⟩ (.ok (some ()) m)
  /-- Finished work of the host is taken. -/
  | await {m m' r} (unmet : goal m = false) (ready : m.ready = []) (host : awaitHost m = .ok () m')
      (rest : Solo img goal ⟨m', none⟩ r) : Solo img goal ⟨m, none⟩ r
  | awaitFails {m m' e} (unmet : goal m = false) (ready : m.ready = []) (host : awaitHost m = .error e m') :
      Solo img goal ⟨m, none⟩ (.error e m')
  /-- The task is the next one. -/
  | begin {m t r} (unmet : goal m = false) (ready : m.ready = [t.id]) (tasks : m.tasks = [t])
      (rest : Solo img goal ⟨{ m with ready := [], tasks := [] }, some t⟩ r) : Solo img goal ⟨m, none⟩ r
  /-- The task gets the value that it has waited for. -/
  | resume {m t h v r} (awaits : t.awaiting = some h) (state : m.promises.state h = .ok (.resolved v))
      (rest : Solo img goal ⟨m, some { t with awaiting := none, stack := .i64 v :: t.stack }⟩ r) :
      Solo img goal ⟨m, some t⟩ r
  | resumeFails {m t h v} (awaits : t.awaiting = some h) (state : m.promises.state h = .ok (.rejected v)) :
      Solo img goal ⟨m, some t⟩ (.error (.rejected h) m)
  | next {m t t' m' r} (free : t.awaiting = none) (lone : ¬t.Spawns img)
      (step : step img t m = .ok (.next t') m') (rest : Solo img goal ⟨m', some t'⟩ r) :
      Solo img goal ⟨m, some t⟩ r
  | finish {m t v m' r} (free : t.awaiting = none) (step : step img t m = .ok (.finished v) m')
      (rest : Solo img goal ⟨(Slice.finished v).left t.id m', none⟩ r) : Solo img goal ⟨m, some t⟩ r
  | block {m t t' m' r} (free : t.awaiting = none) (step : step img t m = .ok (.blocked t') m')
      (rest : Solo img goal ⟨(Slice.blocked t').left t.id m', none⟩ r) : Solo img goal ⟨m, some t⟩ r
  | fail {m t e m'} (free : t.awaiting = none) (step : step img t m = .error e m') :
      Solo img goal ⟨m, some t⟩ (.error e m')

variable {img : Image} {goal : Machine → Bool} {m : Machine} {t : Task} {r : EStateM.Result Fault Machine (Option Unit)}

/-- Runs of a lone task do not depend on the fuel. -/
theorem Solo.withFuel {s : Scene} (h : Solo img goal s r) (fuel : Option Nat) : Solo (img.withFuel fuel) goal s r := by
  induction h with
  | reached met => exact .reached met
  | await unmet ready host _ ih => exact .await unmet ready host ih
  | awaitFails unmet ready host => exact .awaitFails unmet ready host
  | begin unmet ready tasks _ ih => exact .begin unmet ready tasks ih
  | resume awaits state _ ih => exact .resume awaits state ih
  | resumeFails awaits state => exact .resumeFails awaits state
  | next free lone step _ ih => exact .next free lone step ih
  | finish free step _ ih => exact .finish free step ih
  | block free step _ ih => exact .block free step ih
  | fail free step => exact .fail free step

/-! ### Turns are runs -/

/-- No instruction of a trace starts a task. -/
def Trace.Lone (img : Image) (trace : Trace) (m : Machine) : Prop :=
  ∀ s ∈ trace m, ¬s.1.Spawns img

theorem Trace.bind_of_ok {α : Type} {x : Run α} {a : α} {m' : Machine} (first : Trace) (rest : α → Trace)
    (h : x m = .ok a m') : Trace.bind x first rest m = first m ++ rest a m' := by
  rw [Trace.bind, h]

/-- What is left of a turn: if it has ended, what comes after it completes the run. -/
def Leaves (img : Image) (goal : Machine → Bool) (s : Scene) (id : Nat) (ended : Option Slice) (m' : Machine) : Prop :=
  ∀ ending, ended = some ending → Scene.Alone goal ⟨ending.left id m', none⟩ ∧
    ∀ r, Solo img goal ⟨ending.left id m', none⟩ r → Solo img goal s r

/-- What is left of a round after the instructions of a turn, and the rounds after it. -/
def turn (img : Image) (goal : Machine → Bool) (sliceLimit limit id : Nat) (x : Run (Option Slice)) :
    Run (Option Unit) := do
  match ← x with
  | none => return none
  | some ending =>
    afterSlice id ending
    drive img sliceLimit goal limit

section

variable {sliceLimit limit : Nat}

variable {id : Nat} {x : Run (Option Slice)} {m' : Machine}

end

section

variable {n : Nat} {fuel : Option Nat} {m' : Machine}

end

end Run

end StackScript
