import Mathlib.Data.List.Nodup
import Mathlib.Logic.Basic
import StackScript.Proofs.Exec.Moves
import StackScript.Proofs.Host.Work

/-!
# No wakeup is lost

Between two rounds of the scheduler, every task that lives is either ready to run or waits for a pending
promise that knows of it.  Hence a deadlock is reported only where no task can ever go on.
-/

namespace StackScript

namespace Machine

/-- A task waits for a pending promise and is once among those who do. -/
def Parked (m : Machine) (t : Task) : Prop :=
  ∃ h p, t.awaiting = some h ∧ m.promises.get? h = some p ∧ p.state = .pending ∧ p.waiters.count t.id = 1

/-- Ready tasks, parked tasks and promises fit together. -/
structure Scheduled (m : Machine) : Prop where
  /-- No two tasks have the same number. -/
  distinct : (m.tasks.map Task.id).Nodup
  ready_nodup : m.ready.Nodup
  ready_live : ∀ id ∈ m.ready, ∃ t ∈ m.tasks, t.id = id
  /-- A task is ready or parked, and never both. -/
  live : ∀ t ∈ m.tasks, Xor (t.id ∈ m.ready) (m.Parked t)
  waiters_live : ∀ h p, m.promises.get? h = some p → ∀ id ∈ p.waiters,
    ∃ t ∈ m.tasks, t.id = id ∧ t.awaiting = some h
  settled_free : ∀ h p, m.promises.get? h = some p → p.state.isSettled = true → p.waiters = []

end Machine

namespace Scene

/-- The tasks of a scene. -/
def live (s : Scene) : List Task :=
  s.turn.toList ++ s.machine.tasks

/-- Ready tasks, parked tasks and promises fit together while a task has its turn. -/
structure Orderly (s : Scene) : Prop where
  distinct : (s.live.map Task.id).Nodup
  below : ∀ t ∈ s.live, t.id < s.machine.nextTask
  ready_nodup : s.machine.ready.Nodup
  ready_live : ∀ id ∈ s.machine.ready, ∃ t ∈ s.machine.tasks, t.id = id
  /-- What a task that can run has waited for is settled. -/
  woken : ∀ t ∈ s.live, (t ∈ s.machine.tasks → t.id ∈ s.machine.ready) → ∀ h, t.awaiting = some h →
    ∃ p, s.machine.promises.get? h = some p ∧ p.state.isSettled = true
  parked : ∀ t ∈ s.machine.tasks, t.id ∉ s.machine.ready → s.machine.Parked t
  waiting : ∀ h p, s.machine.promises.get? h = some p → ∀ id ∈ p.waiters,
    p.state = .pending ∧ id ∉ s.machine.ready ∧ ∃ t ∈ s.machine.tasks, t.id = id ∧ t.awaiting = some h

namespace Orderly

variable {img : Image} {m m' : Machine} {t t' : Task} {turn : Option Task} {s s' : Scene} {h : PromiseHandle}

theorem eq_of_id (ho : Orderly s) {t₁ t₂ : Task} (h₁ : t₁ ∈ s.live) (h₂ : t₂ ∈ s.live)
    (hid : t₁.id = t₂.id) : t₁ = t₂ :=
  List.inj_on_of_nodup_map ho.distinct h₁ h₂ hid

theorem mem_live (ht : t ∈ m.tasks) : t ∈ (⟨m, turn⟩ : Scene).live :=
  List.mem_append_right _ ht

theorem turn_mem_live : t ∈ (⟨m, some t⟩ : Scene).live :=
  List.mem_cons_self

theorem turn_not_task (ho : Orderly ⟨m, some t⟩) (ht : t' ∈ m.tasks) : t'.id ≠ t.id := fun hid =>
  (List.nodup_cons.1 ho.distinct).1 (List.mem_map.2 ⟨t', ht, hid⟩)

/-- The task whose turn it is is not ready. -/
theorem turn_not_ready (ho : Orderly ⟨m, some t⟩) : t.id ∉ m.ready := by
  intro hr
  obtain ⟨t', ht', hid⟩ := ho.ready_live _ hr
  exact ho.turn_not_task ht' hid

theorem waiters_nodup (ho : Orderly s) {p : Promise Nat} (hp : s.machine.promises.get? h = some p) :
    p.waiters.Nodup := by
  rw [List.nodup_iff_count_le_one]
  intro id
  by_cases hid : id ∈ p.waiters
  · obtain ⟨-, hready, t, ht, rfl, hawait⟩ := ho.waiting h p hp id hid
    obtain ⟨h', p', hawait', hp', -, hcount⟩ := ho.parked t ht hready
    obtain rfl : h' = h := by simpa [hawait'] using hawait
    obtain rfl : p' = p := by simpa [hp'] using hp
    omega
  · rw [List.count_eq_zero_of_not_mem hid]
    omega

/-! ### What single changes keep -/

theorem of_same (ho : Orderly ⟨m, turn⟩) (same : m.SameSchedule m') : Orderly ⟨m', turn⟩ := by
  obtain ⟨memory, promises, tasks, ready, nextTask, root, rootResult, work, host, status⟩ := m'
  obtain ⟨rfl, rfl, rfl, rfl, rfl⟩ := same
  exact ⟨ho.distinct, ho.below, ho.ready_nodup, ho.ready_live, ho.woken, ho.parked, ho.waiting⟩

/-- The work of the host has no part in it. -/
theorem withWork (ho : Orderly ⟨m, turn⟩) (work : HostWork) : Orderly ⟨{ m with work }, turn⟩ :=
  ⟨ho.distinct, ho.below, ho.ready_nodup, ho.ready_live, ho.woken, ho.parked, ho.waiting⟩

/-- The task whose turn it is can go away. -/
theorem retire (ho : Orderly ⟨m, some t⟩) : Orderly ⟨m, none⟩ where
  distinct := (List.nodup_cons.1 ho.distinct).2
  below u hu := ho.below u (List.mem_cons_of_mem _ hu)
  ready_nodup := ho.ready_nodup
  ready_live := ho.ready_live
  woken u hu := ho.woken u (List.mem_cons_of_mem _ hu)
  parked := ho.parked
  waiting := ho.waiting

/-- The task whose turn it is can go on, waiting for nothing. -/
theorem goOn (ho : Orderly ⟨m, some t⟩) (hid : t'.id = t.id) (free : t'.awaiting = none) : Orderly ⟨m, some t'⟩ where
  distinct := by simpa [live, hid] using ho.distinct
  below u hu := by
    obtain rfl | hu := List.mem_cons.1 hu
    · exact hid ▸ ho.below t turn_mem_live
    · exact ho.below u (List.mem_cons_of_mem _ hu)
  ready_nodup := ho.ready_nodup
  ready_live := ho.ready_live
  woken u hu hready h hawait := by
    obtain rfl | hu := List.mem_cons.1 hu
    · simp [free] at hawait
    · exact ho.woken u (List.mem_cons_of_mem _ hu) hready h hawait
  parked := ho.parked
  waiting := ho.waiting

/-- A new promise is pending, and nobody waits for it. -/
theorem create (ho : Orderly ⟨m, turn⟩) (promises : m'.promises = m.promises.create.2)
    (tasks : m'.tasks = m.tasks) (ready : m'.ready = m.ready) (nextTask : m.nextTask ≤ m'.nextTask) :
    Orderly ⟨m', turn⟩ := by
  have hkeep {h : PromiseHandle} {p : Promise Nat} (hp : m.promises.get? h = some p) : m'.promises.get? h = some p :=
    promises ▸ PromiseRegistry.get?_create_of_some hp
  refine ⟨?_, ?_, ?_, ?_, ?_, ?_, ?_⟩
  · simpa only [live, tasks] using ho.distinct
  · intro u hu
    exact Nat.lt_of_lt_of_le (ho.below u (by simpa only [live, tasks] using hu)) nextTask
  · simpa only [ready] using ho.ready_nodup
  · simpa only [ready, tasks] using ho.ready_live
  · intro u hu hready h hawait
    simp only [live, tasks, ready] at hu hready
    obtain ⟨p, hp, hsettled⟩ := ho.woken u hu hready h hawait
    exact ⟨p, hkeep hp, hsettled⟩
  · intro u hu hready
    simp only [tasks, ready] at hu hready
    obtain ⟨h, p, hawait, hp, hpending, hcount⟩ := ho.parked u hu hready
    exact ⟨h, p, hawait, hkeep hp, hpending, hcount⟩
  · intro h p hp id hid
    simp only [promises, PromiseRegistry.get?_create] at hp
    split at hp
    · cases hp
      simp at hid
    · simpa only [ready, tasks] using ho.waiting h p hp id hid

/-- A new task has a number of its own and is ready. -/
theorem start (ho : Orderly ⟨m, turn⟩) (hid : t.id = m.nextTask) (free : t.awaiting = none)
    (promises : m'.promises = m.promises) (tasks : m'.tasks = t :: m.tasks)
    (ready : m'.ready = m.ready ++ [m.nextTask]) (nextTask : m'.nextTask = m.nextTask + 1) : Orderly ⟨m', turn⟩ := by
  have hlive {u : Task} (hu : u ∈ (⟨m', turn⟩ : Scene).live) : u = t ∨ u ∈ (⟨m, turn⟩ : Scene).live := by
    simp only [live, tasks, List.mem_append, List.mem_cons] at hu ⊢
    tauto
  have hfresh {u : Task} (hu : u ∈ (⟨m, turn⟩ : Scene).live) : u.id ≠ m.nextTask :=
    Nat.ne_of_lt (ho.below u hu)
  have hnotready : m.nextTask ∉ m.ready := fun hr => by
    obtain ⟨u, hu, huid⟩ := ho.ready_live _ hr
    exact hfresh (mem_live hu) huid
  refine ⟨?_, ?_, ?_, ?_, ?_, ?_, ?_⟩
  · have hperm : ((⟨m', turn⟩ : Scene).live.map Task.id).Perm (t.id :: (⟨m, turn⟩ : Scene).live.map Task.id) := by
      simp only [live, tasks, List.map_append, List.map_cons]
      exact List.perm_middle
    rw [hperm.nodup_iff, List.nodup_cons]
    refine ⟨fun hmem => ?_, ho.distinct⟩
    obtain ⟨u, hu, huid⟩ := List.mem_map.1 hmem
    exact hfresh hu (huid.trans hid)
  · intro u hu
    rw [nextTask]
    obtain rfl | hu := hlive hu
    · omega
    · exact Nat.lt_succ_of_lt (ho.below u hu)
  · rw [ready, List.nodup_append]
    refine ⟨ho.ready_nodup, by simp, ?_⟩
    rintro a ha b hb rfl
    obtain rfl := List.mem_singleton.1 hb
    exact hnotready ha
  · intro id hmem
    rw [ready, List.mem_append, List.mem_singleton] at hmem
    rw [tasks]
    obtain hmem | rfl := hmem
    · obtain ⟨u, hu, huid⟩ := ho.ready_live id hmem
      exact ⟨u, List.mem_cons_of_mem _ hu, huid⟩
    · exact ⟨t, List.mem_cons_self, hid⟩
  · intro u hu hready h hawait
    rw [promises]
    obtain rfl | hu := hlive hu
    · simp [free] at hawait
    · refine ho.woken u hu (fun hmem => ?_) h hawait
      have := hready (by rw [tasks]; exact List.mem_cons_of_mem _ hmem)
      rw [ready, List.mem_append, List.mem_singleton] at this
      exact this.resolve_right (hfresh hu)
  · intro u hu hready
    rw [tasks] at hu
    rw [ready, List.mem_append, List.mem_singleton, not_or] at hready
    obtain rfl | hu := List.mem_cons.1 hu
    · exact absurd hid hready.2
    · simpa only [Machine.Parked, promises] using ho.parked u hu hready.1
  · intro h p hp id hmem
    rw [promises] at hp
    obtain ⟨hpending, hready, u, hu, huid, hawait⟩ := ho.waiting h p hp id hmem
    rw [ready, tasks, List.mem_append, List.mem_singleton, not_or]
    refine ⟨hpending, ⟨hready, ?_⟩, u, List.mem_cons_of_mem _ hu, huid, hawait⟩
    exact huid ▸ hfresh (mem_live hu)

/-- Those who waited for a promise that is settled become ready, each of them once. -/
theorem settle (ho : Orderly ⟨m, turn⟩) (hs : m.Settles h m') : Orderly ⟨m', turn⟩ := by
  obtain ⟨⟨s, waiters, hsettled, hsettle, ready⟩, -, tasks, nextTask⟩ := hs
  obtain ⟨p, hp, hpending, rfl, hput⟩ := PromiseRegistry.settle_eq_ok.1 hsettle
  have hget (h' : PromiseHandle) : m'.promises.get? h' = if h' = h then some ⟨s, []⟩ else m.promises.get? h' := by
    rw [← hput, PromiseRegistry.get?_put hp]
  have hwaiting := ho.waiting h p hp
  refine ⟨?_, ?_, ?_, ?_, ?_, ?_, ?_⟩
  · simpa only [live, tasks] using ho.distinct
  · simpa only [live, tasks, nextTask] using ho.below
  · rw [ready, List.nodup_append]
    refine ⟨ho.ready_nodup, ho.waiters_nodup hp, ?_⟩
    rintro a ha b hb rfl
    exact (hwaiting a hb).2.1 ha
  · intro id hmem
    rw [ready, List.mem_append] at hmem
    rw [tasks]
    obtain hmem | hmem := hmem
    · exact ho.ready_live id hmem
    · obtain ⟨-, -, t, ht, hid, -⟩ := hwaiting id hmem
      exact ⟨t, ht, hid⟩
  · intro t ht hready h' hawait
    simp only [live, tasks] at ht
    rw [hget]
    split
    · exact ⟨_, rfl, hsettled⟩
    next hne =>
      refine ho.woken t ht (fun hmem => ?_) h' hawait
      have := hready (by rw [tasks]; exact hmem)
      rw [ready, List.mem_append] at this
      refine this.resolve_right fun hwaits => hne ?_
      obtain ⟨-, -, t', ht', hid, hawait'⟩ := hwaiting _ hwaits
      obtain rfl : t' = t := ho.eq_of_id (mem_live ht') ht hid
      simpa [hawait] using hawait'
  · intro t ht hready
    rw [tasks] at ht
    rw [ready, List.mem_append, not_or] at hready
    obtain ⟨h', p', hawait, hp', hpending', hcount⟩ := ho.parked t ht hready.1
    refine ⟨h', p', hawait, ?_, hpending', hcount⟩
    rw [hget, if_neg, hp']
    rintro rfl
    obtain rfl : p' = p := by simpa [hp'] using hp
    exact hready.2 (List.count_pos_iff.1 (by omega))
  · intro h' p' hp' id hmem
    rw [hget] at hp'
    split at hp'
    · cases hp'
      simp at hmem
    next hne =>
      obtain ⟨hpending', hready, t, ht, rfl, hawait⟩ := ho.waiting h' p' hp' id hmem
      rw [ready, tasks, List.mem_append, not_or]
      refine ⟨hpending', ⟨hready, fun hwaits => hne ?_⟩, t, ht, rfl, hawait⟩
      obtain ⟨-, -, t', ht', hid, hawait'⟩ := hwaiting _ hwaits
      obtain rfl : t' = t := ho.eq_of_id (mem_live ht') (mem_live ht) hid
      simpa [hawait] using hawait'

/-- A task that has to wait is parked with its promise. -/
theorem park (ho : Orderly ⟨m, some t⟩) (hid : t'.id = t.id) (hawait : t'.awaiting = some h)
    (hw : m.Waits t.id h m') : Orderly ⟨{ m' with tasks := t' :: m'.tasks }, none⟩ := by
  obtain ⟨hwait, -, tasks, ready, nextTask⟩ := hw
  obtain ⟨p, hp, hpending, hput⟩ := PromiseRegistry.wait_eq_none.1 hwait
  have hget (h' : PromiseHandle) : m'.promises.get? h' =
      if h' = h then some { p with waiters := p.waiters ++ [t.id] } else m.promises.get? h' := by
    rw [← hput, PromiseRegistry.get?_put hp]
  have hnew : t.id ∉ p.waiters := fun hmem => by
    obtain ⟨-, -, u, hu, huid, -⟩ := ho.waiting h p hp _ hmem
    exact ho.turn_not_task hu huid
  have hlive {u : Task} (hu : u ∈ t' :: m'.tasks) : u = t' ∨ u ∈ m.tasks := by
    simpa only [tasks, List.mem_cons] using hu
  refine ⟨?_, ?_, ?_, ?_, ?_, ?_, ?_⟩
  · simpa [live, tasks, hid] using ho.distinct
  · intro u hu
    rw [show (⟨{ m' with tasks := t' :: m'.tasks }, none⟩ : Scene).machine.nextTask = m.nextTask from nextTask]
    obtain rfl | hu := hlive hu
    · exact hid ▸ ho.below t turn_mem_live
    · exact ho.below u (mem_live hu)
  · simpa only [ready] using ho.ready_nodup
  · intro id hmem
    obtain ⟨u, hu, huid⟩ := ho.ready_live id (by simpa only [ready] using hmem)
    exact ⟨u, List.mem_cons_of_mem _ (tasks ▸ hu), huid⟩
  · intro u hu hready h' hawait'
    obtain rfl | hu := hlive hu
    · have := hready List.mem_cons_self
      rw [hid] at this
      exact absurd (by simpa only [ready] using this) ho.turn_not_ready
    · have hur : u.id ∈ m.ready := by
        simpa only [ready] using hready (List.mem_cons_of_mem _ (tasks ▸ hu))
      obtain ⟨p', hp', hsettled⟩ := ho.woken u (mem_live hu) (fun _ => hur) h' hawait'
      refine ⟨p', ?_, hsettled⟩
      rw [hget, if_neg, hp']
      rintro rfl
      obtain rfl : p' = p := by simpa [hp'] using hp
      simp [hpending, PromiseState.isSettled] at hsettled
  · intro u hu hready
    obtain rfl | hu := hlive hu
    · refine ⟨h, { p with waiters := p.waiters ++ [t.id] }, hawait, by rw [hget, if_pos rfl], hpending, ?_⟩
      simp [hid, List.count_eq_zero_of_not_mem hnew]
    · obtain ⟨h', p', hawait', hp', hpending', hcount⟩ :=
        ho.parked u hu (by simpa only [ready] using hready)
      by_cases heq : h' = h
      · subst heq
        obtain rfl : p' = p := by simpa [hp'] using hp
        refine ⟨h', { p' with waiters := p'.waiters ++ [t.id] }, hawait', by rw [hget, if_pos rfl], hpending, ?_⟩
        have hne : ¬t.id = u.id := fun heq => ho.turn_not_task hu heq.symm
        simp [hcount, hne]
      · exact ⟨h', p', hawait', by rw [hget, if_neg heq, hp'], hpending', hcount⟩
  · intro h' p' hp' id hmem
    have hold {q : Promise Nat} (hq : m.promises.get? h' = some q) (hm : id ∈ q.waiters) :
        q.state = .pending ∧ id ∉ m'.ready ∧ ∃ u ∈ t' :: m'.tasks, u.id = id ∧ u.awaiting = some h' := by
      obtain ⟨hpending', hready, u, hu, huid, hawait'⟩ := ho.waiting h' q hq id hm
      exact ⟨hpending', ready ▸ hready, u, List.mem_cons_of_mem _ (tasks ▸ hu), huid, hawait'⟩
    rw [show (⟨{ m' with tasks := t' :: m'.tasks }, none⟩ : Scene).machine.promises = m'.promises from rfl, hget] at hp'
    split at hp'
    next heq =>
      subst heq
      cases hp'
      obtain hmem | hmem := List.mem_append.1 hmem
      · exact hold (q := p) hp hmem
      · obtain rfl := List.mem_singleton.1 hmem
        exact ⟨hpending, ready ▸ ho.turn_not_ready, t', List.mem_cons_self, hid, hawait⟩
    next => exact hold hp' hmem

theorem perm_of_find? {α : Type} {p : α → Bool} {a : α} {l : List α} (found : l.find? p = some a) :
    (a :: l.eraseP p).Perm l := by
  obtain ⟨hp, before, after, rfl, hbefore⟩ := List.find?_eq_some_iff_append.1 found
  rw [List.eraseP_append_right _ (by simpa using hbefore), List.eraseP_cons_of_pos hp]
  exact List.perm_middle.symm

/-- The first ready task gets its turn. -/
theorem begin {id : Nat} {rest : List Nat} (ho : Orderly ⟨m, none⟩) (ready : m.ready = id :: rest)
    (found : m.tasks.find? (·.id = id) = some t) :
    Orderly ⟨{ m with ready := rest, tasks := m.tasks.eraseP (·.id = id) }, some t⟩ := by
  have hmem : t ∈ m.tasks := List.mem_of_find?_eq_some found
  have hid : t.id = id := by simpa using List.find?_some found
  have hperm : (t :: m.tasks.eraseP (·.id = id)).Perm m.tasks := perm_of_find? found
  have hsub {u : Task} (hu : u ∈ t :: m.tasks.eraseP (·.id = id)) : u ∈ m.tasks := hperm.mem_iff.1 hu
  have hready := ho.ready_nodup
  rw [ready, List.nodup_cons] at hready
  have hne {u : Task} (hu : u ∈ m.tasks.eraseP (·.id = id)) : u.id ≠ id := by
    have hnodup := (hperm.map Task.id).nodup_iff.2 ho.distinct
    rw [List.map_cons, List.nodup_cons, hid] at hnodup
    exact fun heq => hnodup.1 (List.mem_map.2 ⟨u, hu, heq⟩)
  have hmem_rest {u : Task} (hu : u ∈ m.tasks.eraseP (·.id = id)) : u.id ∈ rest ↔ u.id ∈ m.ready := by
    rw [ready, List.mem_cons]
    exact (or_iff_right (hne hu)).symm
  refine ⟨?_, ?_, hready.2, ?_, ?_, ?_, ?_⟩
  · exact (hperm.map Task.id).nodup_iff.2 ho.distinct
  · exact fun u hu => ho.below u (hsub hu)
  · intro id' hmem'
    obtain ⟨u, hu, huid⟩ := ho.ready_live id' (by rw [ready]; exact List.mem_cons_of_mem _ hmem')
    refine ⟨u, ?_, huid⟩
    obtain rfl | hu := List.mem_cons.1 (hperm.mem_iff.2 hu)
    · exact absurd (hid.symm.trans huid ▸ hmem') hready.1
    · exact hu
  · intro u hu hur h hawait
    refine ho.woken u (hsub hu) (fun _ => ?_) h hawait
    obtain rfl | hu := List.mem_cons.1 hu
    · rw [hid, ready]
      exact List.mem_cons_self
    · exact (hmem_rest hu).1 (hur hu)
  · intro u hu hur
    exact ho.parked u (hsub (List.mem_cons_of_mem _ hu)) fun h => hur ((hmem_rest hu).2 h)
  · intro h p hp id' hmem'
    obtain ⟨hpending, hnot, u, hu, huid, hawait⟩ := ho.waiting h p hp id' hmem'
    rw [ready, List.mem_cons, not_or] at hnot
    refine ⟨hpending, hnot.2, u, ?_, huid, hawait⟩
    obtain rfl | hu := List.mem_cons.1 (hperm.mem_iff.2 hu)
    · exact absurd (huid.symm.trans hid) hnot.1
    · exact hu

/-- A task whose turn ends without its having to wait is ready again. -/
theorem yield (ho : Orderly ⟨m, some t⟩) (free : t.awaiting = none) :
    Orderly ⟨{ m with tasks := t :: m.tasks, ready := m.ready ++ [t.id] }, none⟩ := by
  refine ⟨ho.distinct, ho.below, ?_, ?_, ?_, ?_, ?_⟩
  · rw [List.nodup_append]
    refine ⟨ho.ready_nodup, by simp, ?_⟩
    rintro a ha b hb rfl
    obtain rfl := List.mem_singleton.1 hb
    exact ho.turn_not_ready ha
  · intro id hmem
    obtain hmem | hmem := List.mem_append.1 hmem
    · obtain ⟨u, hu, huid⟩ := ho.ready_live id hmem
      exact ⟨u, List.mem_cons_of_mem _ hu, huid⟩
    · exact ⟨t, List.mem_cons_self, (List.mem_singleton.1 hmem).symm⟩
  · intro u hu hready h hawait
    obtain rfl | hu' := List.mem_cons.1 hu
    · simp [free] at hawait
    · refine ho.woken u hu (fun _ => ?_) h hawait
      exact (List.mem_append.1 (hready hu)).resolve_right fun heq =>
        ho.turn_not_task hu' (List.mem_singleton.1 heq)
  · intro u hu hready
    rw [List.mem_append, List.mem_singleton, not_or] at hready
    obtain rfl | hu := List.mem_cons.1 hu
    · exact absurd rfl hready.2
    · exact ho.parked u hu hready.1
  · intro h p hp id hmem
    obtain ⟨hpending, hready, u, hu, huid, hawait⟩ := ho.waiting h p hp id hmem
    refine ⟨hpending, ?_, u, List.mem_cons_of_mem _ hu, huid, hawait⟩
    rw [List.mem_append, List.mem_singleton, not_or]
    exact ⟨hready, huid ▸ ho.turn_not_task hu⟩

/-! ### What moves keep -/

theorem effect {log : List Event} (ho : Orderly ⟨m, turn⟩) (he : m.Effect img t m' log) : Orderly ⟨m', turn⟩ := by
  cases he with
  | quiet same => exact ho.of_same same
  | submits call async r promises work tasks ready nextTask =>
    exact ho.create promises tasks ready (Nat.le_of_eq nextTask.symm)
  | spawns call arguments entry enters promises work tasks ready nextTask =>
    obtain ⟨place, fn, args, rest, -, -, -, rfl⟩ := Run.enter_eq_ok enters
    have hcreate : Orderly ⟨{ m with promises := m.promises.create.2 }, turn⟩ :=
      ho.create rfl rfl rfl (Nat.le_refl _)
    exact hcreate.start rfl rfl promises tasks ready nextTask
  | abandons call promises work tasks ready nextTask => exact ho.create promises tasks ready nextTask
  | settles call settling argument settles => exact ho.settle settles

/-- A move keeps a scene orderly. -/
theorem of_move {log : List Event} (ho : Orderly s) (h : Move img s log s') : Orderly s' := by
  cases h with
  | outside same => exact ho.of_same same
  | spawn spawned =>
    obtain ⟨t, henter, rfl, rfl⟩ := (Run.spawn_ends _ _ _ _).of_ok spawned
    obtain ⟨place, fn, args, rest, -, -, -, rfl⟩ := Run.enter_eq_ok henter
    exact ho.start rfl rfl rfl rfl rfl rfl
  | spawnFails failed =>
    obtain ⟨-, rfl⟩ := (Run.spawn_ends _ _ _ _).of_error failed
    exact ⟨ho.distinct, fun u hu => Nat.lt_succ_of_lt (ho.below u hu), ho.ready_nodup, ho.ready_live,
      ho.woken, ho.parked, ho.waiting⟩
  | skip ready gone =>
    -- A ready task is never gone.
    obtain ⟨t, ht, hid⟩ := ho.ready_live _ (by rw [ready]; exact List.mem_cons_self)
    exact absurd hid (by simpa using List.find?_eq_none.1 gone t ht)
  | begin ready found => exact ho.begin ready found
  | resume awaits state => exact ho.goOn rfl rfl
  | waitOn awaits state =>
    -- A task gets its turn only when its promise is settled.
    obtain ⟨p, hp, hsettled⟩ := ho.woken _ turn_mem_live (fun hmem => absurd rfl (ho.turn_not_task hmem)) _ awaits
    obtain ⟨p', hp', hpending⟩ := PromiseRegistry.state_eq_ok.1 state
    obtain rfl : p = p' := by simpa [hp] using hp'
    simp [hpending, PromiseState.isSettled] at hsettled
  | resumeFails awaits failed => exact ho.retire
  | next free step effect =>
    obtain ⟨hid, hfree, -⟩ := (Run.step_follows _ _ _).of_ok step
    exact (ho.effect effect).goOn hid hfree
  | finish free step => exact (ho.of_same ((Run.step_follows _ _ _).of_ok step)).retire
  | block free step =>
    obtain ⟨h, hid, hawait, waits⟩ := (Run.step_follows _ _ _).of_ok step
    exact ho.park hid hawait waits
  | fail free step effect => exact (ho.effect effect).retire
  | yield free => exact ho.yield free
  | deliver taken complete => exact (ho.withWork _).settle ((Run.complete_ends _ _).of_ok complete)
  | deliverFails taken complete => exact (ho.withWork _).of_same ((Run.complete_ends _ _).of_error complete).2.1

end Orderly

end Scene

namespace Scene

theorem Orderly.scheduled {m : Machine} (ho : Orderly ⟨m, none⟩) : m.Scheduled where
  distinct := ho.distinct
  ready_nodup := ho.ready_nodup
  ready_live := ho.ready_live
  live t ht := by
    by_cases hready : t.id ∈ m.ready
    · refine .inl ⟨hready, ?_⟩
      rintro ⟨h, p, hawait, hp, hpending, -⟩
      obtain ⟨p', hp', hsettled⟩ := ho.woken t ht (fun _ => hready) h hawait
      obtain rfl : p = p' := by simpa [hp] using hp'
      simp [hpending, PromiseState.isSettled] at hsettled
    · exact .inr ⟨ho.parked t ht hready, hready⟩
  waiters_live h p hp id hid := (ho.waiting h p hp id hid).2.2
  settled_free h p hp hsettled := by
    refine List.eq_nil_iff_forall_not_mem.2 fun id hid => ?_
    simp [(ho.waiting h p hp id hid).1, PromiseState.isSettled] at hsettled

end Scene

namespace Vm

variable {vm origin : Vm}

end Vm

end StackScript
