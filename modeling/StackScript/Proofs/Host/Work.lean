import Mathlib.Data.List.Perm.Basic
import StackScript.Host.Work

/-!
# Work in flight

No work of the host is lost or done twice: starting requests and moving the clock only move them from
one list to another, and handing one out takes exactly it.
-/

namespace StackScript

namespace HostWork

variable {w w' : HostWork}

/-- The promises of all work that is not handed out. -/
def handles (w : HostWork) : List PromiseHandle :=
  w.queued.map Prod.fst ++ (w.timers.map Prod.snd ++ w.done.map Completion.handle)

theorem handles_submit (w : HostWork) (h : PromiseHandle) (r : Request) :
    (w.submit h r).handles.Perm (h :: w.handles) := by
  simp only [handles, submit, List.map_append, List.map_cons, List.map_nil, List.append_assoc, List.singleton_append]
  exact List.perm_middle

theorem addTimer_perm (deadline : Nat) (h : PromiseHandle) (timers : List (Nat × PromiseHandle)) :
    (addTimer deadline h timers).Perm ((deadline, h) :: timers) := by
  induction timers with
  | nil => exact .refl _
  | cons t ts ih =>
    unfold addTimer
    split
    · exact (ih.cons t).trans (.swap _ _ _)
    · exact .refl _

/-- Starting requests moves each of them to the timers or to what is done. -/
theorem handles_startAll (w : HostWork) (refused brought : List Completion)
    (requests : List (PromiseHandle × Request)) : (startAll w refused brought requests).handles.Perm
      (requests.map Prod.fst ++ (w.timers.map Prod.snd ++ (w.done ++ refused ++ brought).map Completion.handle)) := by
  induction requests generalizing w refused brought with
  | nil => exact .refl _
  | cons request rest ih =>
    obtain ⟨h, r⟩ := request
    cases r with
    | sleep deadline =>
      refine (ih _ refused brought).trans ?_
      have htimers := (addTimer_perm deadline h w.timers).map Prod.snd
      refine ((htimers.append_right _).append_left _).trans ?_
      exact List.perm_middle
    | httpGet | httpPost | readFile | writeFile =>
      refine (ih _ _ _).trans (List.perm_iff_count.2 fun a => ?_)
      simp only [List.map_append, List.map_cons, List.map_nil, List.count_append, List.count_cons, List.count_nil]
      omega

theorem handles_start (w : HostWork) : w.start.handles.Perm w.handles := by
  simpa [start, handles] using handles_startAll w [] [] w.queued

theorem handles_advance (w : HostWork) : w.advance.handles.Perm w.handles := by
  unfold advance
  split
  · exact .refl _
  next deadline h rest htimers =>
    dsimp only
    generalize max w.clock deadline = clock
    have hsplit := List.takeWhile_append_dropWhile (p := fun t : Nat × PromiseHandle => t.1 ≤ clock) (l := w.timers)
    refine List.perm_iff_count.2 fun a => ?_
    simp only [handles]
    conv => rhs; rw [← hsplit]
    simp only [List.map_append, List.map_map, List.count_append]
    have : (Completion.handle ∘ fun t : Nat × PromiseHandle => (⟨t.2, .unit⟩ : Completion)) = Prod.snd := rfl
    rw [this]
    omega

theorem handles_progress (w : HostWork) : w.progress.handles.Perm w.handles := by
  unfold progress
  split
  · exact .refl _
  · dsimp only
    split
    · exact handles_start w
    · exact (handles_advance _).trans (handles_start w)

/-- Work that is handed out is taken away, and nothing else. -/
theorem handles_of_wait {c : Completion} (h : w.wait = some (c, w')) : w.handles.Perm (c.handle :: w'.handles) := by
  unfold wait at h
  dsimp only at h
  split at h
  next c' rest hdone =>
    cases h
    refine (handles_progress w).symm.trans ?_
    simp only [handles, hdone, List.map_cons]
    exact List.perm_iff_count.2 fun a => by
      simp only [List.count_append, List.count_cons]
      omega
  next => cases h

end HostWork

end StackScript
