import StackScript.Proofs.Exec.Lone

/-!
# Preemption is invisible to a lone task

With fuel, a turn of a task ends after a number of instructions, and the task queues up again.  A program that
starts no tasks of its own does not notice: results, faults and machines are the same with any fuel.
-/

namespace StackScript

/-! ## Calls from outside -/

/-- No task lives. -/
structure Machine.Idle (m : Machine) : Prop where
  orderly : Scene.Orderly ⟨m, none⟩
  tasks : m.tasks = []

theorem Machine.Idle.of_same {m m' : Machine} (h : m.Idle) (same : m.SameSchedule m') : m'.Idle :=
  ⟨h.orderly.of_same same, same.tasks.trans h.tasks⟩

namespace Run

variable {α β : Type} {img : Image} {fuel : Option Nat} {m : Machine} {Q : α → Machine → Prop} {R : β → Machine → Prop}

/-- If a run ends, another one ends alike for all bounds that are great enough; values and machines have
`Q`. -/
def Matched (x : Run (Option α)) (y : Nat → Run (Option α)) (m : Machine) (Q : α → Machine → Prop) : Prop :=
  Ends x m (fun e m' => ∃ bound, ∀ n ≥ bound, y n m = .error e m') fun r m' =>
    ∀ a, r = some a → (∃ bound, ∀ n ≥ bound, y n m = .ok (some a) m') ∧ Q a m'

variable {x : Run (Option α)} {y : Nat → Run (Option α)} {args : List Value}

theorem Matched.bind {x : Run (Option α)} {y : Nat → Run (Option α)} {f : Option α → Run (Option β)}
    {g : Nat → Option α → Run (Option β)} (h : Matched x y m Q) (hnone : f none = pure none)
    (hsome : ∀ a m', Q a m' → x m = .ok (some a) m' → Matched (f (some a)) (fun n => g n (some a)) m' R) :
    Matched (x >>= f) (fun n => y n >>= g n) m R := by
  refine ends_bind (h.withRun.mono ?_ ?_)
  · rintro e m' ⟨-, bound, hbound⟩
    exact ⟨bound, fun n hn => bind_of_error _ (hbound n hn)⟩
  · rintro (- | a) m' ⟨hrun, h⟩
    · rw [hnone]
      exact ends_pure fun a h => by cases h
    · obtain ⟨⟨bound, hbound⟩, hQ⟩ := h a rfl
      refine (hsome a m' hQ hrun).mono ?_ ?_
      · rintro e m'' ⟨bound', hbound'⟩
        refine ⟨max bound bound', fun n hn => ?_⟩
        exact (bind_of_ok _ (hbound n (Nat.le_trans (Nat.le_max_left _ _) hn))).trans
          (hbound' n (Nat.le_trans (Nat.le_max_right _ _) hn))
      · intro r m'' h' b hb
        obtain ⟨⟨bound', hbound'⟩, hR⟩ := h' b hb
        refine ⟨⟨max bound bound', fun n hn => ?_⟩, hR⟩
        exact (bind_of_ok _ (hbound n (Nat.le_trans (Nat.le_max_left _ _) hn))).trans
          (hbound' n (Nat.le_trans (Nat.le_max_right _ _) hn))

/-- The same step comes first in both runs. -/
theorem Matched.after {x : Run α} {f : α → Run (Option β)} {g : Nat → α → Run (Option β)}
    (h : ∀ a m', x m = .ok a m' → Matched (f a) (fun n => g n a) m' R) :
    Matched (x >>= f) (fun n => x >>= g n) m R := by
  cases hx : x m with
  | error e m' =>
    unfold Matched Ends
    rw [bind_of_error _ hx]
    exact ⟨0, fun n _ => bind_of_error _ hx⟩
  | ok a m' =>
    unfold Matched Ends
    simp only [bind_of_ok _ hx]
    exact h a m' hx

theorem Matched.withoutRoot (h : Matched x y m Q) (hQ : ∀ a m', Q a m' → Q a { m' with root := none }) :
    Matched (withoutRoot x) (fun n => withoutRoot (y n)) m Q := by
  unfold Matched Ends Run.withoutRoot at *
  cases hx : x m with
  | error e m' =>
    rw [hx] at h
    obtain ⟨bound, hbound⟩ := h
    exact ⟨bound, fun n hn => by simp only [hbound n hn]⟩
  | ok r m' =>
    rw [hx] at h
    intro a ha
    obtain ⟨⟨bound, hbound⟩, hm'⟩ := h a ha
    exact ⟨⟨bound, fun n hn => by simp only [hbound n hn]⟩, hQ a m' hm'⟩

theorem Matched.withStatus (h : Matched x y m Q) :
    Matched (withStatus x) (fun n => withStatus (y n)) m fun _ _ => True := by
  unfold Matched Ends Run.withStatus at *
  rcases hx : x m with ⟨_ | a, m'⟩ | ⟨e, m'⟩ <;> rw [hx] at h
  · exact fun a ha => by cases ha
  · intro b hb
    obtain rfl := Option.some.inj hb
    obtain ⟨bound, hbound⟩ := (h a rfl).1
    exact ⟨⟨bound, fun n hn => by simp only [hbound n hn]⟩, trivial⟩
  · obtain ⟨bound, hbound⟩ := h
    exact ⟨bound, fun n hn => by simp only [hbound n hn]⟩

theorem Trace.Lone.bind {x : Run α} {first : Trace} {rest : α → Trace} (h : (Trace.bind x first rest).Lone img m) :
    first.Lone img m ∧ ∀ a m', x m = .ok a m' → (rest a).Lone img m' := by
  obtain ⟨hfirst, hrest⟩ := List.forall_mem_append.1 h
  refine ⟨hfirst, fun a m' hx => ?_⟩
  rw [hx] at hrest
  exact hrest

variable {limit : Nat}

/-- A call by a name for callers from outside. -/
def named (img : Image) (limit : Nat) (name : String) (args : List Value) : Run (Option (Option Value)) := do
  link img
  match img.source.export? name with
  | none => throw (.unknownExport name)
  | some index => invoke img limit index args

end Run

namespace Vm

/-- A module that has just been loaded, with the functions of the host that its program declares. -/
def fresh (module : Module) (config : RunConfig) (files : Directory) (hosts : List (String × HostFunction)) :
    Except Fault Vm := do
  let vm ← ofModule module config files
  return hosts.foldl (fun vm h => vm.register h.1 h.2) vm

/-- The same with another number of instructions for a turn. -/
def withFuel (vm : Vm) (fuel : Option Nat) : Vm :=
  { vm with image := vm.image.withFuel fuel }

variable {module : Module} {config : RunConfig} {files : Directory} {hosts : List (String × HostFunction)}

variable {vm : Vm}

end Vm

end StackScript
