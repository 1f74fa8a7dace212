import StackScript.Proofs.Exec.Instructions

/-!
# Moves of the scheduler

A run is a sequence of small moves: a task is taken from those that are ready, runs instructions and
ends its turn, or finished work of the host is taken and its promise settled.  Everything that a module
can be asked to do consists of such moves, so what every move keeps holds in every state of every run.
-/

namespace StackScript

/-- A machine and the task whose turn it is. -/
structure Scene where
  machine : Machine
  turn : Option Task := none

/-- The functions that callers from outside can reach. -/
inductive Module.Offers (m : Module) : Nat → Prop
  | start {i} (start : m.start = some i) : Offers m i.toNat
  | main {e} (main : m.main = some e) : Offers m e.function.toNat
  | exported {name i} (exported : m.export? name = some i) : Offers m i

/-- A move of the scheduler. -/
inductive Move (img : Image) : Scene → List Event → Scene → Prop
  /-- Something is done that touches neither promises nor tasks nor work. -/
  | outside {m m' turn} (same : m.SameSchedule m') : Move img ⟨m, turn⟩ [] ⟨m', turn⟩
  /-- A task is started from outside. -/
  | spawn {m m' index args id} (spawned : Run.spawn img index args m = .ok id m')
      (offered : img.source.Offers index) : Move img ⟨m, none⟩ [] ⟨m', none⟩
  | spawnFails {m m' index args e} (failed : Run.spawn img index args m = .error e m')
      (offered : img.source.Offers index) : Move img ⟨m, none⟩ [.fails e] ⟨m', none⟩
  /-- The number of a task that is gone is dropped. -/
  | skip {m id rest} (ready : m.ready = id :: rest) (gone : m.tasks.find? (·.id = id) = none) :
      Move img ⟨m, none⟩ [] ⟨{ m with ready := rest }, none⟩
  /-- A turn begins. -/
  | begin {m id rest t} (ready : m.ready = id :: rest) (found : m.tasks.find? (·.id = id) = some t) :
      Move img ⟨m, none⟩ []
        ⟨{ m with ready := rest, tasks := m.tasks.eraseP (·.id = id) }, some t⟩
  /-- A task gets the value that it has waited for. -/
  | resume {m t h v} (awaits : t.awaiting = some h) (state : m.promises.state h = .ok (.resolved v)) :
      Move img ⟨m, some t⟩ []
        ⟨m, some { t with awaiting := none, stack := .i64 v :: t.stack }⟩
  /-- A task goes on waiting. -/
  | waitOn {m t h} (awaits : t.awaiting = some h) (state : m.promises.state h = .ok .pending) :
      Move img ⟨m, some t⟩ [] ⟨{ m with tasks := t :: m.tasks }, none⟩
  /-- A task fails because of the promise that it has waited for. -/
  | resumeFails {m t h e} (awaits : t.awaiting = some h)
      (failed : (∃ f, m.promises.state h = .error f ∧ e = .promise f) ∨
        ∃ v, m.promises.state h = .ok (.rejected v) ∧ e = .rejected h) :
      Move img ⟨m, some t⟩ [.fails e] ⟨m, none⟩
  /-- An instruction runs. -/
  | next {m t t' m' log} (free : t.awaiting = none) (step : Run.step img t m = .ok (.next t') m')
      (effect : m.Effect img t m' log) : Move img ⟨m, some t⟩ log ⟨m', some t'⟩
  /-- An instruction ends the task. -/
  | finish {m t v m'} (free : t.awaiting = none) (step : Run.step img t m = .ok (.finished v) m') :
      Move img ⟨m, some t⟩ [.finishes t.id] ⟨m', none⟩
  /-- After an instruction, the task has to wait. -/
  | block {m t t' m'} (free : t.awaiting = none) (step : Run.step img t m = .ok (.blocked t') m') :
      Move img ⟨m, some t⟩ [] ⟨{ m' with tasks := t' :: m'.tasks }, none⟩
  /-- An instruction fails, and the task is gone. -/
  | fail {m t e m' log} (free : t.awaiting = none) (step : Run.step img t m = .error e m')
      (effect : m.Effect img t m' log) : Move img ⟨m, some t⟩ (log ++ [.fails e]) ⟨m', none⟩
  /-- A turn ends because all its instructions are used up. -/
  | yield {m t} (free : t.awaiting = none) :
      Move img ⟨m, some t⟩ []
        ⟨{ m with tasks := t :: m.tasks, ready := m.ready ++ [t.id] }, none⟩
  /-- Finished work is taken and its promise settled. -/
  | deliver {m c work m'} (taken : m.work.wait = some (c, work))
      (complete : Run.complete c { m with work } = .ok () m') :
      Move img ⟨m, none⟩ [.delivers c.handle none] ⟨m', none⟩
  | deliverFails {m c work e m'} (taken : m.work.wait = some (c, work))
      (complete : Run.complete c { m with work } = .error e m') :
      Move img ⟨m, none⟩ [.delivers c.handle (some e)] ⟨m', none⟩

/-- A sequence of moves and all that they do. -/
inductive Moves (img : Image) (s : Scene) : List Event → Scene → Prop
  | refl : Moves img s [] s
  | tail {log log' s' s''} (init : Moves img s log s') (last : Move img s' log' s'') :
      Moves img s (log ++ log') s''

namespace Moves

variable {img : Image} {s s' s'' : Scene} {log log' : List Event}

theorem single (h : Move img s log s') : Moves img s log s' := .tail .refl h

theorem trans (h : Moves img s log s') (h' : Moves img s' log' s'') : Moves img s (log ++ log') s'' := by
  induction h' with
  | refl => simpa using h
  | tail _ last ih =>
    rw [← List.append_assoc]
    exact ih.tail last

end Moves

/-! ## What holds of all tasks -/

/-- A property that tasks have when they start, and that the end of a wait and instructions keep. -/
structure Task.Lasting (img : Image) (P : Task → Prop) : Prop where
  enter : ∀ {id args index t}, (Task.ofArgs id args).enter img index = .ok t → P t
  resume : ∀ {t v}, P t → P { t with awaiting := none, stack := v :: t.stack }
  step : ∀ {t p}, P t → Run.StepLeads img t p → p.All P

/-- A property of all tasks of a scene. -/
structure Scene.All (P : Task → Prop) (s : Scene) : Prop where
  tasks : ∀ t ∈ s.machine.tasks, P t
  turn : ∀ t, s.turn = some t → P t

namespace Scene.All

variable {img : Image} {P : Task → Prop} {s s' : Scene} {log : List Event}

theorem effect (hP : Task.Lasting img P) {t : Task} {m m' : Machine} (h : m.Effect img t m' log)
    (hm : ∀ t ∈ m.tasks, P t) : ∀ t ∈ m'.tasks, P t := by
  cases h with
  | quiet same => rwa [same.tasks]
  | submits call async r promises work tasks => rwa [tasks]
  | spawns call arguments entry enters promises work tasks =>
    rw [tasks]
    exact List.forall_mem_cons.2 ⟨hP.enter enters, hm⟩
  | abandons call promises work tasks => rwa [tasks]
  | settles call settling argument settles => rwa [settles.tasks]

/-- A move keeps a lasting property. -/
theorem of_move (hP : Task.Lasting img P) (h : s.All P) (move : Move img s log s') : s'.All P := by
  obtain ⟨htasks, hturn⟩ := h
  cases move with
  | outside same => exact ⟨same.tasks ▸ htasks, hturn⟩
  | spawn spawned =>
    obtain ⟨t, henter, rfl, rfl⟩ := (Run.spawn_ends _ _ _ _).of_ok spawned
    exact ⟨List.forall_mem_cons.2 ⟨hP.enter henter, htasks⟩, hturn⟩
  | spawnFails failed =>
    obtain ⟨-, rfl⟩ := (Run.spawn_ends _ _ _ _).of_error failed
    exact ⟨htasks, hturn⟩
  | skip => exact ⟨htasks, hturn⟩
  | begin ready found =>
    refine ⟨fun t ht => htasks t (List.mem_of_mem_eraseP ht), fun t ht => ?_⟩
    cases ht
    exact htasks _ (List.mem_of_find?_eq_some found)
  | resume =>
    refine ⟨htasks, fun t ht => ?_⟩
    cases ht
    exact hP.resume (hturn _ rfl)
  | waitOn | yield => exact ⟨List.forall_mem_cons.2 ⟨hturn _ rfl, htasks⟩, fun _ h => nomatch h⟩
  | resumeFails => exact ⟨htasks, fun _ h => nomatch h⟩
  | next free step eff =>
    refine ⟨effect hP eff htasks, fun t ht => ?_⟩
    cases ht
    exact hP.step (hturn _ rfl) ((Run.step_obeys img _ _).of_ok step).1
  | finish free step =>
    have same := (Run.step_follows img _ _).of_ok step
    exact ⟨same.tasks ▸ htasks, fun _ h => nomatch h⟩
  | block free step =>
    obtain ⟨hleads, h, -, -, waits⟩ := (Run.step_obeys img _ _).of_ok step
    exact ⟨List.forall_mem_cons.2 ⟨hP.step (hturn _ rfl) hleads, waits.tasks ▸ htasks⟩, fun _ h => nomatch h⟩
  | fail free step eff => exact ⟨effect hP eff htasks, fun _ h => nomatch h⟩
  | deliver taken complete =>
    have settles := (Run.complete_ends _ _).of_ok complete
    exact ⟨settles.tasks ▸ htasks, hturn⟩
  | deliverFails taken complete =>
    obtain ⟨-, same, -⟩ := (Run.complete_ends _ _).of_error complete
    exact ⟨same.tasks ▸ htasks, hturn⟩

end Scene.All

/-- The scene that an ended turn of a task leaves. -/
def Slice.scene (id : Nat) (m : Machine) : Slice → Scene
  | .finished _ => ⟨m, none⟩
  | .blocked t => ⟨{ m with tasks := t :: m.tasks }, none⟩
  | .yielded t => ⟨{ m with tasks := t :: m.tasks, ready := m.ready ++ [id] }, none⟩

/-- Faults that are reported without a move. -/
def Fault.FromOutside : Fault → Prop
  | .deadlock _ | .link _ | .unknownExport _ | .stackUnderflow | .typeMismatch _ _ | .rejected _
  | .promise (.unknownHandle _) => True
  | _ => False

namespace Run

variable {α : Type} {img : Image} {m m' m'' : Machine}

/-! ## Turns -/

/-- A failed turn: its moves, the last of which fails, and the fault is one of a task. -/
def TurnFails (img : Image) (s : Scene) (e : Fault) (m' : Machine) : Prop :=
  e.OfTask ∧ ∃ log, Moves img s log ⟨m', none⟩ ∧ .fails e ∈ log

/-- A turn that has ended: its moves. -/
def TurnEnds (img : Image) (s : Scene) (id : Nat) (r : Option Slice) (m' : Machine) : Prop :=
  ∀ ending, r = some ending → ∃ log, Moves img s log (ending.scene id m')

variable {log : List Event} {e : Fault}

theorem TurnFails.after {s s' : Scene} (h : TurnFails img s' e m')
    (first : Move img s log s') : TurnFails img s e m' := by
  obtain ⟨he, log', moves, report⟩ := h
  exact ⟨he, log ++ log', (Moves.single first).trans moves, List.mem_append_right _ report⟩

theorem TurnEnds.after {s s' : Scene} {id : Nat} {r : Option Slice}
    (h : TurnEnds img s' id r m') (first : Move img s log s') : TurnEnds img s id r m' := by
  intro ending hr
  obtain ⟨log', moves⟩ := h ending hr
  exact ⟨log ++ log', (Moves.single first).trans moves⟩

/-- The instructions of a turn are moves. -/
theorem instructions_ends (limit : Nat) (fuel : Option Nat) (t : Task) (free : t.awaiting = none) (m : Machine) :
    Ends (instructions img limit fuel t) m (TurnFails img ⟨m, some t⟩) (TurnEnds img ⟨m, some t⟩ t.id) := by
  induction limit generalizing fuel t m with
  | zero => exact ends_pure fun ending h => by cases h
  | succ limit ih =>
    simp only [instructions]
    split
    · refine ends_pure fun ending h => ?_
      cases h
      exact ⟨[], .single (.yield free)⟩
    · refine ends_bind ((step_follows img t m).withRun.mono ?_ ?_)
      · rintro e m' ⟨hstep, fails⟩
        obtain ⟨log, effect⟩ := fails.2
        exact ⟨fails.ofTask, _, .single (.fail free hstep effect), List.mem_append_right _ List.mem_cons_self⟩
      · rintro p m' ⟨hstep, follows⟩
        cases p with
        | next t' =>
          obtain ⟨hid, hfree, log, effect⟩ := follows
          have first := Move.next free hstep effect
          rw [← hid]
          exact (ih _ t' hfree m').mono (fun _ _ h => h.after first) fun _ _ h => h.after first
        | finished v =>
          refine ends_pure fun ending h => ?_
          cases h
          exact ⟨_, .single (.finish free hstep)⟩
        | blocked t' =>
          refine ends_pure fun ending h => ?_
          cases h
          exact ⟨_, .single (.block free hstep)⟩

/-- A turn is a sequence of moves. -/
theorem slice_ends (limit : Nat) (t : Task) (m : Machine) :
    Ends (slice img limit t) m (TurnFails img ⟨m, some t⟩) (TurnEnds img ⟨m, some t⟩ t.id) := by
  unfold slice
  split
  next free => exact instructions_ends limit _ t free m
  next h awaits =>
    refine ends_bind (ends_get ?_)
    split
    next e hstate =>
      exact ends_throw ⟨trivial, _, .single (.resumeFails awaits (.inl ⟨e, hstate, rfl⟩)), List.mem_cons_self⟩
    next v hstate =>
      have first : Move img ⟨m, some t⟩ [] _ := .resume awaits hstate
      exact (instructions_ends limit _ { t with awaiting := none, stack := .i64 v :: t.stack } rfl m).mono
        (fun _ _ h => h.after first) fun _ _ h => h.after first
    next v hstate =>
      exact ends_throw ⟨trivial, _, .single (.resumeFails awaits (.inr ⟨v, hstate, rfl⟩)), List.mem_cons_self⟩
    next hstate =>
      refine ends_pure fun ending h => ?_
      cases h
      exact ⟨[], .single (.waitOn awaits hstate)⟩

theorem afterSlice_ends (img : Image) (id : Nat) (ending : Slice) (m : Machine) :
    Ends (afterSlice id ending) m (fun _ _ => False) fun _ m' => Moves img (ending.scene id m) [] ⟨m', none⟩ := by
  cases ending with
  | finished v =>
    refine ends_modify (.single (.outside ?_))
    split
    · exact ⟨rfl, rfl, rfl, rfl, rfl⟩
    · exact .refl _
  | blocked t => exact ends_modify .refl
  | yielded t => exact ends_bind (ends_modify (ends_modify .refl))

/-! ## Rounds -/

/-- One round of the scheduler: a turn of a task, or finished work. -/
def round (img : Image) (sliceLimit : Nat) : Run (Option Unit) := do
  match ← nextReady with
  | none =>
    awaitHost
    return some ()
  | some id =>
    match ← take id with
    | none => return some ()
    | some t =>
      match ← slice img sliceLimit t with
      | none => return none
      | some ending =>
        afterSlice id ending
        return some ()

/-- Turns are rounds. -/
theorem drive_succ (img : Image) (sliceLimit : Nat) (goal : Machine → Bool) (limit : Nat) :
    drive img sliceLimit goal (limit + 1) = (do
      if goal (← get) then return some ()
      else
        match ← round img sliceLimit with
        | none => return none
        | some () => drive img sliceLimit goal limit) := by
  rw [drive]
  refine congrArg _ (funext fun m => ?_)
  split
  · rfl
  · simp only [round, bind_assoc]
    refine congrArg _ (funext fun r => ?_)
    cases r with
    | none => simp only [bind_assoc, pure_bind]
    | some id =>
      simp only [bind_assoc]
      refine congrArg _ (funext fun r => ?_)
      cases r with
      | none => simp only [pure_bind]
      | some t =>
        simp only [bind_assoc]
        refine congrArg _ (funext fun r => ?_)
        cases r with
        | none => simp only [pure_bind]
        | some ending => simp only [bind_assoc, pure_bind]

/-- A machine is reached from another one by moves, and no task has its turn. -/
def Reaches (img : Image) (m m' : Machine) : Prop :=
  ∃ log, Moves img ⟨m, none⟩ log ⟨m', none⟩

/-- A failed run: its moves; the fault is that of a move, or no move has failed.  A deadlock is
reported only if no task is ready and no work is left. -/
structure Halts (img : Image) (m : Machine) (e : Fault) (m' : Machine) : Prop where
  report : ∃ log, Moves img ⟨m, none⟩ log ⟨m', none⟩ ∧
    ((∃ event ∈ log, event.fault? = some e) ∨ e.FromOutside)
  deadlock : ∀ n, e = .deadlock n → m'.ready = [] ∧ m'.work.wait = none ∧ m'.tasks.length = n

theorem Reaches.refl (m : Machine) : Reaches img m m := ⟨[], .refl⟩

theorem Reaches.trans (h : Reaches img m m') (h' : Reaches img m' m'') : Reaches img m m'' := by
  obtain ⟨log, moves⟩ := h
  obtain ⟨log', moves'⟩ := h'
  exact ⟨log ++ log', moves.trans moves'⟩

theorem Reaches.of_same (h : m.SameSchedule m') : Reaches img m m' := ⟨[], .single (.outside h)⟩

theorem Halts.reaches (h : Halts img m e m') : Reaches img m m' := by
  obtain ⟨log, moves, -⟩ := h.report
  exact ⟨log, moves⟩

theorem Halts.after (h : Halts img m' e m'') (first : Reaches img m m') : Halts img m e m'' := by
  obtain ⟨log, moves⟩ := first
  obtain ⟨⟨log', moves', report⟩, deadlock⟩ := h
  refine ⟨⟨log ++ log', moves.trans moves', ?_⟩, deadlock⟩
  obtain ⟨event, mem, fault⟩ | report := report
  · exact .inl ⟨event, List.mem_append_right _ mem, fault⟩
  · exact .inr report

/-- A fault that comes from outside and is no deadlock. -/
theorem Halts.of_outside (hout : e.FromOutside) (he : e.OfTask) (h : Reaches img m m') : Halts img m e m' := by
  obtain ⟨log, moves⟩ := h
  exact ⟨⟨log, moves, .inr hout⟩, fun n hn => absurd hn (he.ne_deadlock n)⟩

/-- A fault of a move. -/
theorem Halts.of_fails (he : e.OfTask)
    (moves : Moves img ⟨m, none⟩ log ⟨m', none⟩) (report : .fails e ∈ log) : Halts img m e m' :=
  ⟨⟨log, moves, .inl ⟨_, report, rfl⟩⟩, fun n hn => absurd hn (he.ne_deadlock n)⟩

theorem awaitHost_ends (m : Machine) (idle : m.ready = []) :
    Ends awaitHost m (Halts img m) fun _ m' => Reaches img m m' := by
  refine ends_bind (ends_get ?_)
  split
  next c work taken =>
    refine ends_bind (ends_set ?_)
    refine (complete_ends c { m with work }).withRun.mono ?_ ?_
    · rintro e m' ⟨hrun, he, -⟩
      exact ⟨⟨_, .single (.deliverFails taken hrun), .inl ⟨_, List.mem_cons_self, rfl⟩⟩,
        fun n hn => absurd hn (he.ne_deadlock n)⟩
    · rintro ⟨⟩ m' ⟨hrun, -⟩
      exact ⟨_, .single (.deliver taken hrun)⟩
  next hnone =>
    refine ends_throw ⟨⟨[], .refl, .inr trivial⟩, ?_⟩
    rintro n ⟨⟩
    exact ⟨idle, hnone, rfl⟩

theorem round_ends (limit : Nat) (m : Machine) :
    Ends (round img limit) m (Halts img m) fun r m' => r = some () → Reaches img m m' := by
  refine ends_bind (ends_bind (ends_get ?_))
  split
  next idle =>
    refine ends_pure (ends_bind ((awaitHost_ends m idle).mono (fun _ _ h => h) ?_))
    exact fun _ m' h => ends_pure fun _ => h
  next id rest hready =>
    refine ends_bind (ends_set (ends_pure (ends_bind (ends_bind (ends_get ?_)))))
    dsimp only
    split
    next gone => exact ends_pure (ends_pure fun _ => ⟨_, .single (.skip hready gone)⟩)
    next t found =>
      have first : Move img ⟨m, none⟩ [] _ := .begin hready found
      have hid : t.id = id := by simpa using List.find?_some found
      refine ends_bind (ends_set (ends_pure (ends_bind ((slice_ends limit t _).mono ?_ ?_))))
      · rintro e m' ⟨he, log, moves, report⟩
        exact .of_fails he ((Moves.single first).trans moves) (List.mem_append_right _ report)
      · intro r m' hturn
        cases r with
        | none => exact ends_pure fun h => by cases h
        | some ending =>
          obtain ⟨log, moves⟩ := hturn ending rfl
          rw [hid] at moves
          refine ends_bind ((afterSlice_ends img id ending m').mono (fun _ _ h => h.elim) ?_)
          intro _ m'' last
          exact ends_pure fun _ => ⟨_, ((Moves.single first).trans moves).trans last⟩

/-- All rounds until a goal is reached. -/
theorem drive_ends (sliceLimit : Nat) (goal : Machine → Bool) (limit : Nat) (m : Machine) :
    Ends (drive img sliceLimit goal limit) m (Halts img m) fun r m' =>
      r = some () → Reaches img m m' ∧ goal m' = true := by
  induction limit generalizing m with
  | zero => exact ends_pure fun h => by cases h
  | succ limit ih =>
    rw [drive_succ]
    refine ends_bind (ends_get ?_)
    split
    next hgoal => exact ends_pure fun _ => ⟨.refl m, hgoal⟩
    next =>
      refine ends_bind ((round_ends sliceLimit m).mono (fun _ _ h => h) fun r m' hround => ?_)
      cases r with
      | none => exact ends_pure fun h => by cases h
      | some u =>
        have first := hround rfl
        exact (ih m').mono (fun _ _ h => h.after first) fun _ _ h hr =>
          ⟨first.trans (h hr).1, (h hr).2⟩

/-! ## Calls from outside -/

/-- A run that ended, not only its bound, did so by moves. -/
def Guided (img : Image) (x : Run (Option α)) : Prop :=
  ∀ m, Ends x m (Halts img m) fun r m' => r ≠ none → Reaches img m m'

theorem Halts.outside (h : Halts img m e m') (same : m'.SameSchedule m'') : Halts img m e m'' := by
  obtain ⟨⟨log, moves, report⟩, deadlock⟩ := h
  refine ⟨⟨log ++ [], moves.tail (.outside same), by simpa using report⟩, fun n hn => ?_⟩
  rw [same.ready, same.work, same.tasks]
  exact deadlock n hn

theorem withoutRoot_ends {x : Run α} {Q : α → Machine → Prop} (h : Ends x m (Halts img m) Q) :
    Ends (withoutRoot x) m (Halts img m) fun a m' => ∃ m₁, Q a m₁ ∧ m₁.SameSchedule m' := by
  unfold Ends withoutRoot at *
  dsimp only
  cases hx : x m with
  | ok a m₁ =>
    rw [hx] at h
    exact ⟨m₁, h, rfl, rfl, rfl, rfl, rfl⟩
  | error e m₁ =>
    rw [hx] at h
    exact h.outside ⟨rfl, rfl, rfl, rfl, rfl⟩

theorem Guided.withStatus {x : Run (Option α)} (h : Guided img x) : Guided img (withStatus x) := by
  intro m
  have hm := h m
  unfold Ends Run.withStatus at *
  dsimp only
  rcases hx : x m with ⟨_ | a, m₁⟩ | ⟨e, m₁⟩
  · exact fun h => absurd rfl h
  · rw [hx] at hm
    exact fun _ => (hm (by simp)).trans (.of_same ⟨rfl, rfl, rfl, rfl, rfl⟩)
  · rw [hx] at hm
    exact hm.outside ⟨rfl, rfl, rfl, rfl, rfl⟩

/-- Calling a function in a task of its own. -/
theorem guided_invoke (limit : Nat) {index : Nat} (args : List Value) (offered : img.source.Offers index) :
    Guided img (invoke img limit index args) := by
  intro m
  refine ends_bind ((spawn_ends img index args m).withRun.mono ?_ ?_)
  · rintro e m' ⟨hrun, henter, -⟩
    exact .of_fails (fails_enter _ _ _ e henter).ofTask (.single (.spawnFails hrun offered)) List.mem_cons_self
  rintro id m₁ ⟨hrun, -⟩
  have first : Reaches img m m₁ := ⟨_, .single (.spawn hrun offered)⟩
  refine ends_bind (ends_modify ?_)
  have second : Reaches img m { m₁ with root := some id, rootResult := none } :=
    first.trans (.of_same ⟨rfl, rfl, rfl, rfl, rfl⟩)
  refine ends_bind ((withoutRoot_ends (drive_ends limit _ limit _)).mono (fun _ _ h => h.after second) ?_)
  rintro r m₂ ⟨m₃, hdrive, same⟩
  cases r with
  | none => exact ends_pure fun h => absurd rfl h
  | some u =>
    refine ends_bind (ends_get (ends_bind (ends_set (ends_pure fun _ => ?_))))
    exact (second.trans (hdrive rfl).1).trans (.of_same (same.trans ⟨rfl, rfl, rfl, rfl, rfl⟩))

/-- Running until a promise is settled. -/
theorem guided_settled (limit : Nat) (h : PromiseHandle) : Guided img (settled img limit h) := by
  intro m
  refine ends_bind ((drive_ends limit _ limit m).mono (fun _ _ h => h) fun r m' hdrive => ?_)
  cases r with
  | none => exact ends_pure fun h => absurd rfl h
  | some u =>
    obtain ⟨first, hgoal⟩ := hdrive rfl
    refine ends_bind (ends_get ?_)
    split
    next f hf =>
      obtain rfl := PromiseRegistry.state_eq_error hf
      exact ends_throw (.of_outside trivial trivial first)
    · exact ends_pure fun _ => first
    · exact ends_throw (.of_outside trivial trivial first)
    next hpending =>
      -- The goal was that the promise is settled.
      rw [isSettled, hpending] at hgoal
      cases hgoal

theorem link_ends (img : Image) (m : Machine) : Ends (link img) m (Halts img m) fun _ m' => m = m' := by
  refine ends_bind (ends_get ?_)
  dsimp only
  split
  · exact ends_throw (.of_outside trivial trivial (.refl m))
  · exact ends_pure rfl

theorem toI32_fromOutside (v : Value) : Fails Fault.FromOutside v.toI32 := by
  cases v <;> simp [Fails, Value.toI32, Fault.FromOutside]

/-- Running the main function, and waiting for its promise. -/
theorem guided_mainValue (limit : Nat) {e : Entry} (main : img.source.main = some e) :
    Guided img (mainValue img limit e) := by
  intro m
  refine ends_bind ((guided_invoke limit [] (.main main) m).mono (fun _ _ h => h) fun r m₁ hinvoke => ?_)
  cases r with
  | none => exact ends_pure fun h => absurd rfl h
  | some value =>
    have first := hinvoke (by simp)
    dsimp only
    split
    · cases value with
      | none => exact ends_throw (.of_outside trivial trivial first)
      | some v =>
        refine ends_bind (ends_ofExcept (fun h _ => ?_) fun e he =>
          .of_outside (toI32_fromOutside v e he) (fails_toI32 v e he).ordinary.1.ofTask first)
        refine ends_bind ((guided_settled limit _ m₁).mono (fun _ _ h => h.after first) ?_)
        intro r m₂ hsettled
        cases r with
        | none => exact ends_pure fun h => absurd rfl h
        | some bits => exact ends_pure fun _ => first.trans (hsettled (by simp))
    · exact ends_pure fun _ => first

theorem entry_eq (img : Image) (limit : Nat) :
    entry img limit = (do
      link img
      modify fun st => { st with status := .running }
      let started ← img.source.start.elim (pure (some none)) fun index =>
        invoke img limit index.toNat []
      if started.isNone then return none
      else
        let value ← img.source.main.elim (pure (some none)) (mainValue img limit)
        match value with
        | none => return none
        | some value => return some ⟨value, ← takeOutput⟩) := by
  unfold entry
  cases img.source.start <;> cases img.source.main <;> rfl

theorem guided_elim {β : Type} (o : Option β) (a : α) {f : β → Run (Option α)}
    (hf : ∀ b, o = some b → Guided img (f b)) : Guided img (o.elim (pure (some a)) f) := by
  cases o with
  | none => exact fun m => ends_pure fun _ => .refl m
  | some b => exact hf b rfl

/-- Running a module. -/
theorem guided_entry (limit : Nat) : Guided img (entry img limit) := by
  intro m
  rw [entry_eq]
  refine ends_bind ((link_ends img m).mono (fun _ _ h => h) ?_)
  rintro _ _ rfl
  refine ends_bind (ends_modify (ends_bind ?_))
  have first : Reaches img m { m with status := .running } := .of_same ⟨rfl, rfl, rfl, rfl, rfl⟩
  refine (guided_elim _ _ (fun index start => guided_invoke limit [] (.start start)) _).mono (fun _ _ h => h.after first) ?_
  intro started m₂ hstarted
  cases started with
  | none => exact ends_pure fun h => absurd rfl h
  | some _ =>
    have second := first.trans (hstarted (by simp))
    refine ends_bind ((guided_elim _ _ (fun _ main => guided_mainValue limit main) m₂).mono (fun _ _ h => h.after second) ?_)
    intro value m₃ hvalue
    cases value with
    | none => exact ends_pure fun h => absurd rfl h
    | some value =>
      refine ends_bind (ends_bind (ends_get (ends_bind (ends_set (ends_pure (ends_pure fun _ => ?_))))))
      exact (second.trans (hvalue (by simp))).trans (.of_same ⟨rfl, rfl, rfl, rfl, rfl⟩)

end Run

/-! ## States of a loaded module -/

namespace Vm

theorem ofModule_eq_ok {m : Module} {config : RunConfig} {files : Directory} {vm : Vm}
    (loaded : ofModule m config files = .ok vm) : ∃ image memory, Image.ofModule m config = .ok image ∧
      Memory.ofModule m config.maxMemoryPages.toNat = .ok memory ∧
        vm = ⟨image, { memory, work := { directory := files } }⟩ := by
  obtain ⟨image, himage, loaded⟩ := except_bind_eq_ok.1 loaded
  obtain ⟨memory, hmemory, loaded⟩ := except_bind_eq_ok.1 loaded
  exact ⟨image, memory, himage, hmemory, (except_pure_eq_ok.1 loaded).symm⟩

/-- The states of a loaded module: after it is loaded, after everything that it is asked to do,
whether that succeeds or fails, and between the rounds of the scheduler on the way. -/
inductive Reached (origin : Vm) : Vm → Prop
  | load : Reached origin origin
  | register {vm} (before : Reached origin vm) (name : String) (f : HostFunction) :
      Reached origin (vm.register name f)
  | takeOutput {vm} (before : Reached origin vm) : Reached origin vm.takeOutput.2
  | run {vm limit r vm'} (before : Reached origin vm) (run : vm.run limit = (r, vm'))
      (ended : r ≠ .ok none) : Reached origin vm'
  | call {vm limit name args r vm'} (before : Reached origin vm)
      (call : vm.call limit name args = (r, vm')) (ended : r ≠ .ok none) : Reached origin vm'
  | settle {vm limit h r vm'} (before : Reached origin vm) (settle : vm.settle limit h = (r, vm'))
      (ended : r ≠ .ok none) : Reached origin vm'
  /-- A function is about to run, and its result is asked for. -/
  | invoked {vm index args id m} (before : Reached origin vm)
      (spawn : Run.spawn vm.image index args vm.machine = .ok id m)
      (offered : vm.image.source.Offers index) :
      Reached origin ⟨vm.image, { m with root := some id, rootResult := none }⟩
  /-- A round of the scheduler has ended, or has failed. -/
  | round {vm limit r vm'} (before : Reached origin vm)
      (round : vm.perform (Run.round vm.image limit) = (r, vm')) (ended : r ≠ .ok none) :
      Reached origin vm'

variable {α : Type} {vm vm' origin : Vm} {r : Except Fault (Option α)}

theorem perform_ends {x : Run α} {r : Except Fault α} {E : Fault → Machine → Prop}
    {Q : α → Machine → Prop} (h : Run.Ends x vm.machine E Q) (hp : vm.perform x = (r, vm')) :
    vm'.image = vm.image ∧ ((∃ e, r = .error e ∧ E e vm'.machine) ∨ ∃ a, r = .ok a ∧ Q a vm'.machine) := by
  unfold perform at hp
  unfold Run.Ends at h
  split at hp
  next a m hx =>
    rw [hx] at h
    cases hp
    exact ⟨rfl, .inr ⟨a, rfl, h⟩⟩
  next e m hx =>
    rw [hx] at h
    cases hp
    exact ⟨rfl, .inl ⟨e, rfl, h⟩⟩

/-- What something that a module is asked to do leaves is reached by moves. -/
theorem perform_reaches {x : Run (Option α)} (hx : Run.Guided vm.image x)
    (hp : vm.perform x = (r, vm')) (ended : r ≠ .ok none) :
    vm'.image = vm.image ∧ Run.Reaches vm.image vm.machine vm'.machine := by
  obtain ⟨himage, ⟨e, rfl, halts⟩ | ⟨a, rfl, reaches⟩⟩ := perform_ends (hx vm.machine) hp
  · exact ⟨himage, halts.reaches⟩
  · refine ⟨himage, reaches ?_⟩
    rintro rfl
    exact ended rfl

theorem guided_run (img : Image) (limit : Nat) : Run.Guided img (Run.withStatus (Run.entry img limit)) :=
  (Run.guided_entry limit).withStatus

theorem guided_call (img : Image) (limit : Nat) (name : String) (args : List Value) :
    Run.Guided img (do
      Run.link img
      match img.source.export? name with
      | none => throw (.unknownExport name)
      | some index => Run.invoke img limit index args) := by
  intro m
  refine Run.ends_bind ((Run.link_ends img m).mono (fun _ _ h => h) ?_)
  rintro _ _ rfl
  split
  · exact Run.ends_throw (.of_outside trivial trivial (.refl m))
  next exported => exact Run.guided_invoke limit args (.exported exported) m

theorem guided_round (img : Image) (limit : Nat) : Run.Guided img (Run.round img limit) := fun m =>
  (Run.round_ends limit m).mono (fun _ _ h => h) fun r _ h hr => by
    cases r with
    | none => exact absurd rfl hr
    | some u => exact h rfl

/-- Every state of a loaded module is reached by moves. -/
theorem Reached.moves (h : Reached origin vm) :
    vm.image = origin.image ∧ Run.Reaches origin.image origin.machine vm.machine := by
  have performed {α : Type} {vm vm' : Vm} {x : Run (Option α)} {r : Except Fault (Option α)}
      (ih : vm.image = origin.image ∧ Run.Reaches origin.image origin.machine vm.machine)
      (guided : Run.Guided vm.image x) (hp : vm.perform x = (r, vm')) (ended : r ≠ .ok none) :
      vm'.image = origin.image ∧ Run.Reaches origin.image origin.machine vm'.machine := by
    obtain ⟨himage, reaches⟩ := perform_reaches guided hp ended
    exact ⟨himage.trans ih.1, ih.2.trans (ih.1 ▸ reaches)⟩
  induction h with
  | load => exact ⟨rfl, .refl _⟩
  | register _ name f ih | takeOutput _ ih => exact ⟨ih.1, ih.2.trans (.of_same ⟨rfl, rfl, rfl, rfl, rfl⟩)⟩
  | run _ run ended ih => exact performed ih (guided_run _ _) run ended
  | call _ call ended ih => exact performed ih (guided_call _ _ _ _) call ended
  | settle _ settle ended ih => exact performed ih (Run.guided_settled _ _) settle ended
  | invoked _ spawn offered ih =>
    rw [ih.1] at spawn offered
    refine ⟨ih.1, (ih.2.trans ⟨_, .single (.spawn spawn offered)⟩).trans (.of_same ⟨rfl, rfl, rfl, rfl, rfl⟩)⟩
  | round _ round ended ih => exact performed ih (guided_round _ _) round ended

end Vm

end StackScript
