import StackScript.Proofs.Exec.Bytes
import StackScript.Proofs.Exec.Moves
import StackScript.Proofs.Host.Work

/-!
# Work of the host and its promises

Every promise for work of the host is pending while its one request is in flight, and settled when the
finished request is taken.  There are two exceptions: the memory may have no room for the payload, and
then the promise stays pending for ever; and a task may settle the promise itself.
-/

namespace StackScript

/-! ## Room for payloads -/

namespace Run

theorem numberOf_ofVal (v : Value) : ∃ n, Memory.numberOf v (.ofVal v.ty) = .ok n := by
  cases v <;> exact ⟨_, rfl⟩

/-- There is room for a result object, or there is no memory left. -/
theorem resultObject_ends (tag : Nat) (payload : Value) (m : Machine) :
    Ends (resultObject tag payload) m (fun e _ => ∃ pages, e = .outOfMemory pages) fun _ _ => True := by
  refine ends_bind ?_
  unfold Ends
  obtain h | ⟨memory, h, halloc⟩ := Memory.alloc_cases (2 * Layout.word) m.memory
  · rw [onMemory_of_error h]
    exact ⟨_, rfl⟩
  · have hptr : (BitVec.ofNat 32 m.memory.next).toNat = m.memory.next := by
      rw [BitVec.toNat_ofNat]
      exact Nat.mod_eq_of_lt (Nat.lt_of_le_of_lt (Nat.le_add_right _ _) halloc.below)
    have hinside := halloc.inside
    have hstore {m₁ : Machine} (hsize : m₁.memory.size = memory.size) {kind : MemKind} {offset n : Nat} {v : Value}
        (hroom : offset + kind.width ≤ 2 * Layout.word) (hv : Memory.numberOf v kind = .ok n) :
        ∃ m₂ : Machine, onMemory (Memory.store kind (BitVec.ofNat 32 m.memory.next) offset v) m₁ = .ok () m₂ ∧
          m₂.memory.size = memory.size :=
      ⟨_, onMemory_of_ok (Memory.store_of_inBounds (by omega) hv), (Memory.size_setBytes _ _ _).trans hsize⟩
    obtain ⟨n, hn⟩ := numberOf_ofVal payload
    have hwidth : Layout.payload + (MemKind.ofVal payload.ty).width ≤ 2 * Layout.word := by
      cases payload.ty <;> decide
    obtain ⟨m₁, h₁, hsize⟩ := @hstore { m with memory } rfl .i32 0 _ (ofNat tag) (by decide) rfl
    obtain ⟨m₂, h₂, -⟩ := hstore hsize hwidth hn
    rw [onMemory_of_ok h]
    simp only [bind, EStateM.bind, h₁, h₂]
    trivial

/-- The payload of finished work finds room, or there is no memory left. -/
theorem outcomePayload_ends (o : Outcome) (m : Machine) :
    Ends (outcomePayload o) m (fun e _ => ∃ pages, e = .outOfMemory pages) fun _ _ => True := by
  have hobject := resultObject_ends
  have hstr (bs : List UInt8) (m : Machine) : Ends (onMemory (Memory.allocStr bs)) m
      (fun e _ => ∃ pages, e = .outOfMemory pages) fun _ _ => True := by
    unfold Ends
    obtain h | ⟨m₁, m', -, -, h, -⟩ := Memory.allocStr_cases bs m.memory
    · rw [onMemory_of_error h]
      exact ⟨_, rfl⟩
    · rw [onMemory_of_ok h]
      trivial
  rcases o with _ | (message | bytes) | (message | n)
  · exact ends_pure trivial
  · exact ends_bind (ends_bind ((hstr _ m).mono (fun _ _ h => h) fun _ m₁ _ => ends_pure (hobject 1 _ m₁)))
  · exact ends_bind ((hstr bytes m).mono (fun _ _ h => h) fun _ m₁ _ => hobject 0 _ m₁)
  · exact ends_bind (ends_bind ((hstr _ m).mono (fun _ _ h => h) fun _ m₁ _ => ends_pure (hobject 1 _ m₁)))
  · exact hobject 0 _ m

end Run

/-! ## Promises of work -/

/-- How a promise for work of the host stands, given all that has happened. -/
inductive Machine.Accounts (log : List Event) (m : Machine) (h : PromiseHandle) : Prop
  /-- It is pending, and exactly one request is in flight. -/
  | inFlight {p} (promise : m.promises.get? h = some p) (pending : p.state = .pending)
      (once : m.work.handles.count h = 1)
  /-- It is settled, and the request is done. -/
  | settled {p} (promise : m.promises.get? h = some p) (settled : p.state.isSettled = true)
      (done : m.work.handles.count h = 0)
  /-- A task has settled it itself before the request is done. -/
  | overtaken {p task} (promise : m.promises.get? h = some p) (settled : p.state.isSettled = true)
      (once : m.work.handles.count h = 1) (task : .settles task h ∈ log)
  /-- The finished request was taken, but there was no memory for its payload. -/
  | lost {p pages} (promise : m.promises.get? h = some p) (pending : p.state = .pending)
      (done : m.work.handles.count h = 0) (failed : .delivers h (some (.outOfMemory pages)) ∈ log)

/-- All work in flight was asked for, and every promise for work is accounted for. -/
structure Machine.Accounted (log : List Event) (m : Machine) : Prop where
  asked : ∀ h ∈ m.work.handles, .submits h ∈ log
  accounts : ∀ h, .submits h ∈ log → m.Accounts log h

namespace Machine

variable {img : Image} {t : Task} {log log' : List Event} {m m' : Machine} {h : PromiseHandle}

theorem Accounts.promise_known (ha : m.Accounts log h) : ∃ p, m.promises.get? h = some p := by
  cases ha with
  | inFlight promise | settled promise | overtaken promise | lost promise => exact ⟨_, promise⟩

/-- An account stays if the state of the promise and the work stay. -/
theorem Accounts.keep (ha : m.Accounts log h)
    (promise : ∀ p, m.promises.get? h = some p → ∃ p', m'.promises.get? h = some p' ∧ p'.state = p.state)
    (work : m'.work.handles.count h = m.work.handles.count h) : m'.Accounts (log ++ log') h := by
  cases ha with
  | inFlight hp pending once =>
    obtain ⟨p', hp', hstate⟩ := promise _ hp
    exact .inFlight hp' (hstate.trans pending) (work.trans once)
  | settled hp settled done =>
    obtain ⟨p', hp', hstate⟩ := promise _ hp
    exact .settled hp' (hstate ▸ settled) (work.trans done)
  | overtaken hp settled once task =>
    obtain ⟨p', hp', hstate⟩ := promise _ hp
    exact .overtaken hp' (hstate ▸ settled) (work.trans once) (List.mem_append_left _ task)
  | lost hp pending done failed =>
    obtain ⟨p', hp', hstate⟩ := promise _ hp
    exact .lost hp' (hstate.trans pending) (work.trans done) (List.mem_append_left _ failed)

/-- Who waits for a promise does not change its state. -/
theorem Waits.get?_of_get? {id : Nat} (hw : m.Waits id h m') {h' : PromiseHandle} {q : Promise Nat}
    (hq : m.promises.get? h' = some q) : ∃ q', m'.promises.get? h' = some q' ∧ q'.state = q.state := by
  obtain ⟨p, hp, hpending, hput⟩ := PromiseRegistry.wait_eq_none.1 hw.wait
  rw [← hput, PromiseRegistry.get?_put hp]
  split
  next heq =>
    subst heq
    obtain rfl := Option.some.inj (hp.symm.trans hq)
    exact ⟨_, rfl, rfl⟩
  next => exact ⟨q, hq, rfl⟩

namespace Accounted

/-- All accounts stay if the states of promises and the work stay. -/
theorem keep (ha : m.Accounted log) (hlog : ∀ h, .submits h ∉ log') (promise : ∀ h p, m.promises.get? h = some p →
      ∃ p', m'.promises.get? h = some p' ∧ p'.state = p.state)
    (work : m'.work = m.work) : m'.Accounted (log ++ log') where
  asked h hh := List.mem_append_left _ (ha.asked h (work ▸ hh))
  accounts h hh := by
    obtain hh | hh := List.mem_append.1 hh
    · exact (ha.accounts h hh).keep (promise h) (by rw [work])
    · exact absurd hh (hlog h)

theorem of_same (ha : m.Accounted log) (hlog : ∀ h, .submits h ∉ log') (same : m.SameSchedule m') :
    m'.Accounted (log ++ log') :=
  ha.keep hlog (fun h p hp => ⟨p, by rw [same.promises, hp], rfl⟩) same.work

theorem create (ha : m.Accounted log) (hlog : ∀ h, .submits h ∉ log')
    (promises : m'.promises = m.promises.create.2) (work : m'.work = m.work) : m'.Accounted (log ++ log') :=
  ha.keep hlog (fun _ p hp => ⟨p, promises ▸ PromiseRegistry.get?_create_of_some hp, rfl⟩) work

/-- New work has a promise of its own. -/
theorem submit {r : Request} (ha : m.Accounted log) (promises : m'.promises = m.promises.create.2)
    (work : m'.work = m.work.submit m.promises.create.1 r) : m'.Accounted (log ++ [.submits m.promises.create.1]) := by
  have hperm : m'.work.handles.Perm (m.promises.create.1 :: m.work.handles) := by
    rw [work]
    exact HostWork.handles_submit _ _ _
  have hfresh : .submits m.promises.create.1 ∉ log := fun hmem => by
    obtain ⟨p, hp⟩ := (ha.accounts _ hmem).promise_known
    simp [PromiseRegistry.get?_create_fst] at hp
  refine ⟨fun h hh => ?_, fun h hh => ?_⟩
  · obtain rfl | hh := List.mem_cons.1 (hperm.mem_iff.1 hh)
    · exact List.mem_append_right _ List.mem_cons_self
    · exact List.mem_append_left _ (ha.asked h hh)
  · by_cases heq : h = m.promises.create.1
    · subst heq
      have hnone : m.promises.create.1 ∉ m.work.handles := fun hmem => hfresh (ha.asked _ hmem)
      refine .inFlight (p := {}) (by rw [promises, PromiseRegistry.get?_create, if_pos rfl]) rfl ?_
      rw [hperm.count_eq, List.count_cons_self, List.count_eq_zero_of_not_mem hnone]
    · have hold : .submits h ∈ log := by
        obtain hh | hh := List.mem_append.1 hh
        · exact hh
        · cases List.mem_singleton.1 hh
          exact absurd rfl heq
      refine (ha.accounts h hold).keep (fun p hp => ⟨p, ?_, rfl⟩) ?_
      · rw [promises, PromiseRegistry.get?_create, if_neg heq, hp]
      · rw [hperm.count_eq, List.count_cons_of_ne (Ne.symm heq)]

theorem get?_of_settles (hs : m.Settles h m') :
    ∃ p p', m.promises.get? h = some p ∧ p.state = .pending ∧ p'.state.isSettled = true ∧
      ∀ h', m'.promises.get? h' = if h' = h then some p' else m.promises.get? h' := by
  obtain ⟨⟨s, waiters, hsettled, hsettle, -⟩, -, -, -⟩ := hs
  obtain ⟨p, hp, hpending, -, hput⟩ := PromiseRegistry.settle_eq_ok.1 hsettle
  exact ⟨p, ⟨s, []⟩, hp, hpending, hsettled, fun h' => by rw [← hput, PromiseRegistry.get?_put hp]⟩

/-- A task settles a promise. -/
theorem settle {task : Nat} (ha : m.Accounted log) (hs : m.Settles h m') : m'.Accounted (log ++ [.settles task h]) := by
  obtain ⟨p, p', hp, hpending, hsettled, hget⟩ := get?_of_settles hs
  refine ⟨fun h' hh => List.mem_append_left _ (ha.asked h' (hs.work ▸ hh)), fun h' hh => ?_⟩
  have hold : .submits h' ∈ log := by simpa using hh
  have hmine : .settles task h ∈ log ++ [Event.settles task h] := by simp
  by_cases heq : h' = h
  · subst heq
    have hp' : m'.promises.get? h' = some p' := by rw [hget, if_pos rfl]
    cases ha.accounts h' hold with
    | inFlight _ _ once => exact .overtaken hp' hsettled (hs.work ▸ once) hmine
    | settled hq hq' =>
      obtain rfl := Option.some.inj (hp.symm.trans hq)
      simp [hpending, PromiseState.isSettled] at hq'
    | overtaken hq hq' =>
      obtain rfl := Option.some.inj (hp.symm.trans hq)
      simp [hpending, PromiseState.isSettled] at hq'
    | lost _ _ done => exact .settled hp' hsettled (hs.work ▸ done)
  · exact (ha.accounts h' hold).keep (fun q hq => ⟨q, by rw [hget, if_neg heq, hq], rfl⟩) (by rw [hs.work])

theorem effect (ha : m.Accounted log) (he : m.Effect img t m' log') : m'.Accounted (log ++ log') := by
  cases he with
  | quiet same => exact ha.of_same (by simp) same
  | submits call async r promises work => exact ha.submit promises work
  | spawns call arguments entry enters promises work => exact ha.create (by simp) promises work
  | abandons call promises work => exact ha.create (by simp) promises work
  | settles call settling argument settles => exact ha.settle settles

theorem wait {id : Nat} (ha : m.Accounted log) (hw : m.Waits id h m') : m'.Accounted log := by
  rw [← List.append_nil log]
  exact ha.keep (by simp) (fun _ _ => hw.get?_of_get?) hw.work

variable {c : Completion} {work : HostWork} {e : Fault}

/-- Finished work is taken: its promise is the only one whose account changes. -/
theorem taken (ha : m.Accounted log) (taken : m.work.wait = some (c, work)) :
    .submits c.handle ∈ log ∧ work.handles.count c.handle = 0 ∧ (∀ h ∈ work.handles, .submits h ∈ log) ∧
      ∀ h, h ≠ c.handle → work.handles.count h = m.work.handles.count h := by
  have hperm := HostWork.handles_of_wait taken
  have hasked := ha.asked c.handle (hperm.mem_iff.2 List.mem_cons_self)
  have hcount : m.work.handles.count c.handle = work.handles.count c.handle + 1 := by
    rw [hperm.count_eq, List.count_cons_self]
  refine ⟨hasked, ?_, fun h hh => ha.asked h (hperm.mem_iff.2 (List.mem_cons_of_mem _ hh)), ?_⟩
  · cases ha.accounts _ hasked with
    | inFlight | settled | overtaken | lost => omega
  · intro h hne
    rw [hperm.count_eq, List.count_cons_of_ne (Ne.symm hne)]

theorem deliver (ha : m.Accounted log) (taken : m.work.wait = some (c, work))
    (hs : Settles c.handle { m with work } m') : m'.Accounted (log ++ [.delivers c.handle none]) := by
  obtain ⟨-, hdone, hasked, hcount⟩ := ha.taken taken
  obtain ⟨p, p', hp, hpending, hsettled, hget⟩ := get?_of_settles hs
  have hwork : m'.work = work := hs.work
  refine ⟨fun h hh => List.mem_append_left _ (hasked h (hwork ▸ hh)), fun h hh => ?_⟩
  have hold : .submits h ∈ log := by simpa using hh
  by_cases heq : h = c.handle
  · subst heq
    exact .settled (by rw [hget, if_pos rfl]) hsettled (hwork ▸ hdone)
  · exact (ha.accounts h hold).keep (fun q hq => ⟨q, by rw [hget, if_neg heq]; exact hq, rfl⟩)
      (by rw [hwork, hcount h heq])

theorem deliverFails (ha : m.Accounted log) (taken : m.work.wait = some (c, work))
    (same : SameSchedule { m with work } m') (he : (∃ pages, e = .outOfMemory pages) ∨
      ∃ f s, e = .promise f ∧ m.promises.settle c.handle s = .error f) :
    m'.Accounted (log ++ [.delivers c.handle (some e)]) := by
  obtain ⟨hsubmitted, hdone, hasked, hcount⟩ := ha.taken taken
  have hwork : m'.work = work := same.work
  have hpromises : m'.promises = m.promises := same.promises
  refine ⟨fun h hh => List.mem_append_left _ (hasked h (hwork ▸ hh)), fun h hh => ?_⟩
  have hold : .submits h ∈ log := by simpa using hh
  by_cases heq : h = c.handle
  · subst heq
    have hnone : m'.work.handles.count c.handle = 0 := hwork ▸ hdone
    rw [← hpromises] at he
    cases ha.accounts _ hold with
    | inFlight hp hpending once =>
      rw [← hpromises] at hp
      obtain ⟨pages, rfl⟩ | ⟨f, s, rfl, hf⟩ := he
      · exact .lost hp hpending hnone (List.mem_append_right _ List.mem_cons_self)
      · rw [PromiseRegistry.settle_of_pending s hp hpending] at hf
        cases hf
    | settled hp hsettled _ | overtaken hp hsettled _ _ => exact .settled (hpromises ▸ hp) hsettled hnone
    | lost hp hpending _ hfailed =>
      exact .lost (hpromises ▸ hp) hpending hnone (List.mem_append_left _ hfailed)
  · exact (ha.accounts h hold).keep (fun q hq => ⟨q, by rw [hpromises, hq], rfl⟩) (by rw [hwork, hcount h heq])

/-- A move keeps the accounts. -/
theorem of_move {s s' : Scene} (ha : s.machine.Accounted log) (h : Move img s log' s') :
    s'.machine.Accounted (log ++ log') := by
  cases h with
  | outside same => exact ha.of_same (by simp) same
  | spawn spawned =>
    obtain ⟨t, -, rfl, rfl⟩ := (Run.spawn_ends _ _ _ _).of_ok spawned
    exact ha.keep (by simp) (fun h p hp => ⟨p, hp, rfl⟩) rfl
  | spawnFails failed =>
    obtain ⟨-, rfl⟩ := (Run.spawn_ends _ _ _ _).of_error failed
    exact ha.keep (by simp) (fun h p hp => ⟨p, hp, rfl⟩) rfl
  | skip | begin | resume | waitOn | resumeFails | yield => exact ha.keep (by simp) (fun h p hp => ⟨p, hp, rfl⟩) rfl
  | next free step effect => exact ha.effect effect
  | finish free step => exact ha.of_same (by simp) ((Run.step_follows _ _ _).of_ok step)
  | block free step =>
    obtain ⟨h, -, -, waits⟩ := (Run.step_follows _ _ _).of_ok step
    exact (ha.wait waits).keep (by simp) (fun h p hp => ⟨p, hp, rfl⟩) rfl
  | fail free step effect =>
    rw [← List.append_assoc]
    exact (ha.effect effect).keep (by simp) (fun h p hp => ⟨p, hp, rfl⟩) rfl
  | deliver taken complete => exact ha.deliver taken ((Run.complete_ends _ _).of_ok complete)
  | deliverFails taken complete =>
    obtain ⟨-, same, he⟩ := (Run.complete_ends _ _).of_error complete
    refine ha.deliverFails taken same (he.imp_left ?_)
    rintro ⟨m₁, hrun⟩
    exact (Run.outcomePayload_ends _ _).of_error hrun

end Accounted

end Machine

namespace Vm

variable {origin : Vm}

end Vm

end StackScript
