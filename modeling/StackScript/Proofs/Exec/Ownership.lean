import StackScript.Proofs.Exec.Delivery
import StackScript.Proofs.Exec.Settling
import StackScript.Proofs.Exec.Wakeups

/-!
# Every task settles its own promise

In a run of a compiled program, a task that an async function has started settles the promise that it
was started with, once, and then finishes.  Nothing else settles this promise, so no promise is ever
settled twice.  All of this rests on one condition: the function that a task runs is entered only when the task
is started, and never by a call through the table.
-/

namespace StackScript

/-! ## Logs -/

namespace Event

/-- The promises that a task settles, in order. -/
def settledBy (task : Nat) (log : List Event) : List PromiseHandle :=
  log.filterMap fun
    | .settles id h => if id = task then some h else none
    | _ => none

variable {task : Nat} {log log' : List Event} {h : PromiseHandle}

theorem settledBy_append : settledBy task (log ++ log') = settledBy task log ++ settledBy task log' :=
  List.filterMap_append

theorem settledBy_eq_nil (hlog : ∀ h, .settles task h ∉ log) : settledBy task log = [] := by
  refine List.filterMap_eq_nil_iff.2 fun event mem => ?_
  cases event with
  | settles id h =>
    refine if_neg ?_
    rintro rfl
    exact hlog h mem
  | submits | starts | finishes | delivers | fails => rfl

theorem settledBy_singleton_self : settledBy task [.settles task h] = [h] := by
  simp [settledBy]

theorem settledBy_singleton_of_ne {id : Nat} (hne : id ≠ task) : settledBy task [.settles id h] = [] := by
  simp [settledBy, hne]

/-- Events that neither start a task nor settle a promise; a task that ends has settled its own. -/
def Aside (log : List Event) (next : Nat) : Event → Prop
  | .submits _ | .delivers _ _ | .fails _ => True
  | .starts _ _ _ | .settles _ _ => False
  | .finishes id => id < next ∧ ∀ fn h, .starts id fn h ∈ log → settledBy id log = [h]

end Event

open Event (settledBy settledBy_append)

/-! ## Settling -/

namespace Run

variable {img : Image} {t : Task} {m m' : Machine} {p : Progress}

/-- A call that settles a promise and succeeds has settled it. -/
theorem step_settles {op : HostImport} {args : List Value} (call : t.hostCall? img = some (op, args))
    (settling : op = .promiseResolve ∨ op = .promiseReject) (hstep : step img t m = .ok p m') :
    ∃ w, args[0]? = some (.i32 w) ∧ m.Settles ⟨w.toNat⟩ m' := by
  unfold Task.hostCall? at call
  obtain ⟨f, hf, call⟩ := Option.bind_eq_some_iff.1 call
  obtain ⟨fn, hfn, call⟩ := Option.bind_eq_some_iff.1 call
  obtain ⟨instr, hinstr, call⟩ := Option.bind_eq_some_iff.1 call
  split at call
  next index =>
    obtain ⟨i, hi, call⟩ := Option.bind_eq_some_iff.1 call
    obtain ⟨op', hop, call⟩ := Option.bind_eq_some_iff.1 call
    obtain ⟨⟨args', rest⟩, hsplit, call⟩ := Option.bind_eq_some_iff.1 call
    cases call
    obtain ⟨outer, hframes⟩ : ∃ outer, t.frames = f :: outer := List.head?_eq_some_iff.1 hf
    have hhost : Ends (hostCall img t.id args op) m (fun _ _ => True) fun _ m' =>
        ∃ w, args[0]? = some (.i32 w) ∧ m.Settles ⟨w.toNat⟩ m' := by
      have hsettle (state : BitVec 64 → PromiseState) (hstate : ∀ v, (state v).isSettled = true) : Ends (finish do
            let h ← argPromise args 0
            settle h (state (← argI64 args 1))) m (fun _ _ => True) fun _ m' =>
              ∃ w, args[0]? = some (.i32 w) ∧ m.Settles ⟨w.toNat⟩ m' := by
        refine ends_bind (ends_bind (ends_bind ((argI32_ends args 0 m).mono (fun _ _ _ => True.intro) ?_)))
        rintro w _ ⟨rfl, hw⟩
        refine ends_pure (ends_bind ((quiet_argI64 args 1 _).mono (fun _ _ _ => True.intro) fun v m₁ same => ?_))
        refine (settle_ends _ (hstate v) m₁).mono (fun _ _ _ => True.intro) fun _ m₂ settled => ?_
        exact ends_pure ⟨w, hw, settled.after same⟩
      obtain rfl | rfl := settling
      · exact hsettle .resolved fun _ => rfl
      · exact hsettle .rejected fun _ => rfl
    have hrun : Ends (step img t) m (fun _ _ => True) fun _ m' =>
        ∃ w, args[0]? = some (.i32 w) ∧ m.Settles ⟨w.toNat⟩ m' := by
      obtain ⟨id, frames, stack, awaiting⟩ := t
      dsimp only at hframes hsplit hhost ⊢
      subst hframes
      simp only [step, hfn, hinstr, exec, execOp, Run.call, hi, callImport, hsplit, hop]
      refine ends_bind (hhost.mono (fun _ _ h => h) fun reply m₁ settled => ?_)
      cases reply with
      | value v => exact ends_ofExcept (fun _ _ => settled) fun _ _ => True.intro
      | suspend h => exact ends_pure settled
    exact hrun.of_ok hstep
  next => cases call

end Run

namespace Machine

variable {img : Image} {t : Task} {m m' : Machine} {log : List Event}

/-- A promise that is known keeps its state, unless a task settles it. -/
theorem Effect.get?_of_aside (he : m.Effect img t m' log) (hlog : ∀ h, .settles t.id h ∉ log)
    {h : PromiseHandle} {p : Promise Nat} (hp : m.promises.get? h = some p) : m'.promises.get? h = some p := by
  have hcreate := PromiseRegistry.get?_create_of_some hp
  cases he with
  | quiet same => rw [same.promises, hp]
  | submits call async r promises | spawns call arguments entry enters promises => rw [promises, hcreate]
  | abandons call promises => rw [promises, hcreate]
  | settles => exact absurd List.mem_cons_self (hlog _)

/-- A call that resolves a promise is a settling in the log. -/
theorem Effect.of_resolves (he : m.Effect img t m' log) (resolves : t.Resolves img) {p : Progress}
    (hstep : Run.step img t m = .ok p m') : ∃ h, .settles t.id h ∈ log := by
  obtain ⟨args, call⟩ := resolves
  obtain ⟨w, -, settled⟩ := Run.step_settles call (.inl rfl) hstep
  refine Classical.byContradiction fun hnone => ?_
  obtain ⟨q, q', hq, hpending, hsettled, hget⟩ := Accounted.get?_of_settles settled
  have hsame := he.get?_of_aside (fun h mem => hnone ⟨h, mem⟩) hq
  rw [hget, if_pos rfl] at hsame
  cases hsame
  simp [hpending, PromiseState.isSettled] at hsettled

end Machine

/-! ## Tasks and their promises -/

/-- How tasks and their promises stand, given all that has happened. -/
structure Scene.Owned (S : Staging) (log : List Event) (s : Scene) : Prop where
  below : ∀ {id fn h}, .starts id fn h ∈ log → id < s.machine.nextTask
  finished_below : ∀ {id}, .finishes id ∈ log → id < s.machine.nextTask
  /-- Only functions of tasks are started. -/
  task : ∀ {id fn h}, .starts id fn h ∈ log → S.role fn = .task
  /-- A task is started once, and with a promise that no other task has. -/
  distinct : ∀ {id fn h id' fn' h'}, .starts id fn h ∈ log → .starts id' fn' h' ∈ log →
    (id = id' ↔ h = h')
  /-- The promise of a task is not one for work of the host. -/
  apart : ∀ {id fn h}, .starts id fn h ∈ log → .submits h ∉ log
  /-- The promise of a task is pending until the task settles it. -/
  promise : ∀ {id fn h}, .starts id fn h ∈ log → ∃ p, s.machine.promises.get? h = some p ∧
    ((p.state = .pending ∧ settledBy id log = []) ∨ (p.state.isSettled = true ∧ settledBy id log = [h]))
  /-- A task settles only its own promise. -/
  own : ∀ {id h}, .settles id h ∈ log → ∃ fn, .starts id fn h ∈ log
  /-- A task has settled its promise when it finishes. -/
  finished : ∀ {before id after fn h}, log = before ++ .finishes id :: after → .starts id fn h ∈ log →
    settledBy id before = [h]
  tends : ∀ t ∈ s.live, ∃ own done, t.Tends S own done ∧
    (∀ h, own = some h ↔ ∃ fn, .starts t.id fn h ∈ log) ∧ (done ↔ settledBy t.id log ≠ [])

namespace Scene.Owned

variable {S : Staging} {log log' : List Event} {s s' : Scene} {m m' : Machine} {t t' : Task} {turn turn' : Option Task}

/-- An element of a log that is not among its last ones. -/
theorem exists_of_append {a b before after : List Event} {event : Event} (hb : event ∉ b)
    (h : a ++ b = before ++ event :: after) : ∃ rest, a = before ++ event :: rest := by
  obtain ⟨c, -, hc⟩ | ⟨c, ha, hc⟩ := List.append_eq_append_iff.1 h
  · exact absurd (by rw [hc]; simp) hb
  · obtain ⟨-, hc⟩ | ⟨rest, rfl, -⟩ := List.append_eq_cons_iff.1 hc.symm
    · exact absurd (by rw [hc]; exact List.mem_cons_self) hb
    · exact ⟨rest, ha⟩

/-- A task that was not started by a program settles nothing. -/
theorem settledBy_eq_nil (ho : Owned S log s) {id : Nat} (hid : ∀ fn h, .starts id fn h ∉ log) :
    settledBy id log = [] :=
  Event.settledBy_eq_nil fun h mem => by
    obtain ⟨fn, hstarts⟩ := ho.own mem
    exact hid fn h hstarts

/-- The tasks of a scene stay, or new ones come that are not started by a program. -/
def Stays (S : Staging) (s s' : Scene) : Prop :=
  ∀ t' ∈ s'.live, (∃ t ∈ s.live, t'.id = t.id ∧ ∀ own done, t.Tends S own done → t'.Tends S own done) ∨
    (s.machine.nextTask ≤ t'.id ∧ t'.Tends S none False)

/-- What keeps the promises of tasks and neither starts a task nor settles a promise. -/
theorem keep (ho : Owned S log s) (hlog : ∀ event ∈ log', event.Aside log s.machine.nextTask)
    (fresh : ∀ h, .submits h ∈ log' → s.machine.promises.get? h = none)
    (next : s.machine.nextTask ≤ s'.machine.nextTask)
    (promises : ∀ {id fn h p}, .starts id fn h ∈ log → s.machine.promises.get? h = some p →
      ∃ p', s'.machine.promises.get? h = some p' ∧ p'.state = p.state)
    (live : Stays S s s') : Owned S (log ++ log') s' := by
  have hstarts {id fn h} : .starts id fn h ∈ log ++ log' ↔ .starts id fn h ∈ log := by
    refine ⟨fun mem => ?_, List.mem_append_left _⟩
    exact (List.mem_append.1 mem).resolve_right (hlog (.starts id fn h))
  have hsettles {id h} : .settles id h ∉ log' := hlog (.settles id h)
  have hsettled (id : Nat) {front : List Event} (hfront : front ⊆ log') :
      settledBy id (log ++ front) = settledBy id log := by
    rw [settledBy_append, Event.settledBy_eq_nil fun h mem => hsettles (hfront mem), List.append_nil]
  refine {
    below := fun mem => Nat.lt_of_lt_of_le (ho.below (hstarts.1 mem)) next
    finished_below := fun mem => ?_
    task := fun mem => ho.task (hstarts.1 mem)
    distinct := fun mem mem' => ho.distinct (hstarts.1 mem) (hstarts.1 mem')
    apart := fun mem submits => ?_
    promise := fun mem => ?_
    own := fun mem => ?_
    finished := fun heq mem => ?_
    tends := fun t' ht' => ?_ }
  · refine Nat.lt_of_lt_of_le ?_ next
    exact (List.mem_append.1 mem).elim ho.finished_below fun mem => (hlog _ mem).1
  · obtain submits | submits := List.mem_append.1 submits
    · exact ho.apart (hstarts.1 mem) submits
    · obtain ⟨p, hp, -⟩ := ho.promise (hstarts.1 mem)
      rw [fresh _ submits] at hp
      cases hp
  · obtain ⟨p, hp, hstate⟩ := ho.promise (hstarts.1 mem)
    obtain ⟨p', hp', heq⟩ := promises (hstarts.1 mem) hp
    rw [hsettled _ (List.Subset.refl _)]
    exact ⟨p', hp', by rwa [heq]⟩
  · obtain ⟨fn, hstart⟩ := ho.own ((List.mem_append.1 mem).resolve_right hsettles)
    exact ⟨fn, hstarts.2 hstart⟩
  · -- A task has ended before, or it ends now and has settled its promise before.
    have mem := hstarts.1 mem
    obtain ⟨front, rfl, hlast⟩ | ⟨rest, hrest, hlast⟩ := List.append_eq_append_iff.1 heq
    · rw [hsettled _ (by simp [hlast])]
      exact (hlog (.finishes _) (by simp [hlast])).2 _ _ mem
    · obtain ⟨rfl, hnow⟩ | ⟨rest, rfl, -⟩ := List.append_eq_cons_iff.1 hlast.symm
      · rw [List.append_nil] at hrest
        exact hrest ▸ (hlog (.finishes _) (by simp [hnow])).2 _ _ mem
      · exact ho.finished hrest mem
  · rw [hsettled _ (List.Subset.refl _)]
    obtain ⟨t, ht, hid, htends⟩ | ⟨hid, htends⟩ := live t' ht'
    · obtain ⟨own, done, hown, hhandle, hdone⟩ := ho.tends t ht
      refine ⟨own, done, htends own done hown, fun h => ?_, by rwa [hid]⟩
      rw [hhandle, hid]
      exact exists_congr fun fn => hstarts.symm
    · have hnone (fn : Nat) (h : PromiseHandle) : .starts t'.id fn h ∉ log := fun mem =>
        absurd (ho.below mem) (Nat.not_lt_of_le hid)
      refine ⟨none, False, htends, fun h => ?_, by simp [ho.settledBy_eq_nil hnone]⟩
      simp [hstarts, hnone]

/-- A program starts a task, with a new promise. -/
theorem start (ho : Owned S log s) (below : ∀ u ∈ s.live, u.id < s.machine.nextTask)
    (fresh : .submits s.machine.promises.create.1 ∉ log) {index : Nat} (role : S.role index = .task)
    (hid : t.id = s.machine.nextTask) (htends : t.Tends S (some s.machine.promises.create.1) False)
    (promises : s'.machine.promises = s.machine.promises.create.2) (next : s'.machine.nextTask = s.machine.nextTask + 1)
    (live : ∀ t' ∈ s'.live, t' = t ∨
      ∃ u ∈ s.live, t'.id = u.id ∧ ∀ own done, u.Tends S own done → t'.Tends S own done) :
    Owned S (log ++ [.starts s.machine.nextTask index s.machine.promises.create.1]) s' := by
  have hstarts {id fn h} : .starts id fn h ∈ log ++ [.starts s.machine.nextTask index s.machine.promises.create.1] ↔
      .starts id fn h ∈ log ∨ id = s.machine.nextTask ∧ fn = index ∧ h = s.machine.promises.create.1 := by
    simp
  have hsettled (id : Nat) : settledBy id (log ++ [.starts s.machine.nextTask index s.machine.promises.create.1]) =
        settledBy id log :=
    settledBy_append.trans (List.append_nil _)
  have hnone : s.machine.promises.get? s.machine.promises.create.1 = none :=
    PromiseRegistry.get?_create_fst _
  have hnew (fn : Nat) (h : PromiseHandle) : .starts s.machine.nextTask fn h ∉ log := fun mem =>
    absurd (ho.below mem) (Nat.lt_irrefl _)
  have hother {id fn h} (mem : .starts id fn h ∈ log) : h ≠ s.machine.promises.create.1 := by
    rintro rfl
    obtain ⟨p, hp, -⟩ := ho.promise mem
    rw [hnone] at hp
    cases hp
  refine {
    below := fun mem => ?_
    finished_below := fun mem => ?_
    task := fun mem => ?_
    distinct := fun mem mem' => ?_
    apart := fun {id fn h} mem submits => ?_
    promise := fun mem => ?_
    own := fun mem => ?_
    finished := fun heq mem => ?_
    tends := fun t' ht' => ?_ }
  · rw [next]
    obtain mem | ⟨rfl, -, -⟩ := hstarts.1 mem
    · exact Nat.lt_succ_of_lt (ho.below mem)
    · exact Nat.lt_succ_self _
  · rw [next]
    exact Nat.lt_succ_of_lt (ho.finished_below (by simpa using mem))
  · obtain mem | ⟨-, rfl, -⟩ := hstarts.1 mem
    · exact ho.task mem
    · exact role
  · obtain mem | ⟨rfl, -, rfl⟩ := hstarts.1 mem <;> obtain mem' | ⟨rfl, -, rfl⟩ := hstarts.1 mem'
    · exact ho.distinct mem mem'
    · exact ⟨fun heq => absurd (ho.below mem) (by omega), fun heq => absurd heq (hother mem)⟩
    · exact ⟨fun heq => absurd (ho.below mem') (by omega), fun heq => absurd heq.symm (hother mem')⟩
    · exact ⟨fun _ => rfl, fun _ => rfl⟩
  · have submits : .submits h ∈ log := by simpa using submits
    obtain mem | ⟨-, -, rfl⟩ := hstarts.1 mem
    · exact ho.apart mem submits
    · exact fresh submits
  · rw [hsettled, promises]
    obtain mem | ⟨rfl, -, rfl⟩ := hstarts.1 mem
    · obtain ⟨p, hp, hstate⟩ := ho.promise mem
      exact ⟨p, by rw [PromiseRegistry.get?_create, if_neg (hother mem), hp], hstate⟩
    · refine ⟨{}, by rw [PromiseRegistry.get?_create, if_pos rfl], .inl ⟨rfl, ?_⟩⟩
      exact ho.settledBy_eq_nil hnew
  · obtain ⟨fn, hstart⟩ := ho.own (show .settles _ _ ∈ log by simpa using mem)
    exact ⟨fn, hstarts.2 (.inl hstart)⟩
  · obtain ⟨rest, hrest⟩ := exists_of_append (by simp) heq
    obtain mem | ⟨rfl, -, -⟩ := hstarts.1 mem
    · exact ho.finished hrest mem
    · -- A task that has finished was started before.
      refine absurd (ho.finished_below ?_) (Nat.lt_irrefl _)
      rw [hrest]
      simp
  · rw [hsettled]
    obtain rfl | ⟨u, hu, huid, hkeep⟩ := live t' ht'
    · rw [hid]
      refine ⟨_, False, htends, fun h => ?_, by simp [ho.settledBy_eq_nil hnew]⟩
      simp [hnew, eq_comm]
    · obtain ⟨own, done, hown, hhandle, hdone⟩ := ho.tends u hu
      refine ⟨own, done, hkeep own done hown, fun h => ?_, by rwa [huid]⟩
      have hold : t'.id ≠ s.machine.nextTask := huid ▸ Nat.ne_of_lt (below u hu)
      rw [hhandle, huid]
      refine exists_congr fun fn => (hstarts.trans (or_iff_left ?_)).symm
      rintro ⟨heq, -⟩
      exact hold (huid.trans heq)

/-- A task settles its own promise. -/
theorem settle {h : PromiseHandle} (ho : Owned S log s) {fn : Nat} (started : .starts t.id fn h ∈ log)
    (unsettled : settledBy t.id log = []) (settles : s.machine.Settles h s'.machine)
    (live : ∀ t' ∈ s'.live, (t'.id = t.id ∧ t'.Tends S (some h) True) ∨ (t'.id ≠ t.id ∧ t' ∈ s.live)) :
    Owned S (log ++ [.settles t.id h]) s' := by
  have hstarts {id fn h'} : .starts id fn h' ∈ log ++ [.settles t.id h] ↔ .starts id fn h' ∈ log := by
    simp
  have hself : settledBy t.id (log ++ [.settles t.id h]) = [h] := by
    rw [settledBy_append, unsettled, Event.settledBy_singleton_self, List.nil_append]
  have hother {id : Nat} (hne : id ≠ t.id) : settledBy id (log ++ [.settles t.id h]) = settledBy id log := by
    rw [settledBy_append, Event.settledBy_singleton_of_ne (Ne.symm hne), List.append_nil]
  obtain ⟨p, p', hp, hpending, hsettled, hget⟩ := Machine.Accounted.get?_of_settles settles
  refine {
    below := fun mem => settles.nextTask ▸ ho.below (hstarts.1 mem)
    finished_below := fun mem => settles.nextTask ▸ ho.finished_below (by simpa using mem)
    task := fun mem => ho.task (hstarts.1 mem)
    distinct := fun mem mem' => ho.distinct (hstarts.1 mem) (hstarts.1 mem')
    apart := fun mem submits => ho.apart (hstarts.1 mem) (by simpa using submits)
    promise := fun {id fn' h'} mem => ?_
    own := fun {id h'} mem => ?_
    finished := fun heq mem => ?_
    tends := fun t' ht' => ?_ }
  · have hiff := ho.distinct (hstarts.1 mem) started
    by_cases heq : id = t.id
    · obtain rfl := hiff.1 heq
      subst heq
      exact ⟨p', by rw [hget, if_pos rfl], .inr ⟨hsettled, hself⟩⟩
    · rw [hother heq, hget, if_neg fun h => heq (hiff.2 h)]
      exact ho.promise (hstarts.1 mem)
  · obtain mem | mem := List.mem_append.1 mem
    · obtain ⟨fn', hstart⟩ := ho.own mem
      exact ⟨fn', hstarts.2 hstart⟩
    · cases List.mem_singleton.1 mem
      exact ⟨fn, hstarts.2 started⟩
  · obtain ⟨rest, hrest⟩ := exists_of_append (by simp) heq
    exact ho.finished hrest (hstarts.1 mem)
  · obtain ⟨hid, htends⟩ | ⟨hid, ht'⟩ := live t' ht'
    · rw [hid, hself]
      refine ⟨some h, True, htends, fun h' => ?_, by simp⟩
      refine ⟨?_, ?_⟩
      · rintro ⟨⟩
        exact ⟨fn, hstarts.2 started⟩
      · rintro ⟨fn', mem⟩
        exact congrArg some ((ho.distinct started (hstarts.1 mem)).1 rfl)
    · rw [hother hid]
      obtain ⟨own, done, hown, hhandle, hdone⟩ := ho.tends t' ht'
      refine ⟨own, done, hown, fun h' => ?_, hdone⟩
      rw [hhandle]
      exact exists_congr fun fn => hstarts.symm

/-- A promise is named by a number of 32 bits. -/
theorem handle_ofNat {h : PromiseHandle} (few : h.number < Layout.addressLimit) :
    (⟨(BitVec.ofNat 32 h.number).toNat⟩ : PromiseHandle) = h := by
  have hnumber : (BitVec.ofNat 32 h.number).toNat = h.number := Nat.mod_eq_of_lt few
  rw [hnumber]

/-- The task whose turn it is does something and goes on, or is gone. -/
theorem effect (ho : Owned S log ⟨m, some t⟩) (orderly : Orderly ⟨m, some t⟩)
    (accounted : m.Accounted log) (few : ∀ {h p}, m.promises.get? h = some p → h.number < Layout.addressLimit)
    (he : m.Effect S.image t m' log') (hturn : ∀ t', turn' = some t' → t'.id = t.id ∧ ∀ own done, t.Tends S own done →
      ¬done ∧ t'.Tends S own (∃ h, .settles t.id h ∈ log')) : Owned S (log ++ log') ⟨m', turn'⟩ := by
  have hstays (hlog : ∀ h, .settles t.id h ∉ log') :
      ∀ t' ∈ turn'.toList ++ m.tasks, ∃ u ∈ (⟨m, some t⟩ : Scene).live, t'.id = u.id ∧
        ∀ own done, u.Tends S own done → t'.Tends S own done := by
    intro t' ht'
    obtain ht' | ht' := List.mem_append.1 ht'
    · obtain ⟨hid, hkeep⟩ := hturn t' (by simpa using ht')
      refine ⟨t, Orderly.turn_mem_live, hid, fun own done htends => ?_⟩
      obtain ⟨hnot, htends'⟩ := hkeep own done htends
      exact htends'.congr (by simp [hnot, hlog])
    · exact ⟨t', Orderly.mem_live ht', rfl, fun _ _ h => h⟩
  have hkeep (he : m.Effect S.image t m' log') (hlog : ∀ event ∈ log', event.Aside log m.nextTask)
      (fresh : ∀ h, .submits h ∈ log' → m.promises.get? h = none) (tasks : m'.tasks = m.tasks)
      (next : m.nextTask ≤ m'.nextTask) : Owned S (log ++ log') ⟨m', turn'⟩ := by
    have hnone (h : PromiseHandle) : .settles t.id h ∉ log' := hlog (.settles t.id h)
    refine ho.keep hlog fresh next (fun _ hp => ⟨_, he.get?_of_aside hnone hp, rfl⟩) fun t' ht' => ?_
    exact .inl (hstays hnone t' (tasks ▸ ht'))
  cases he with
  | quiet same => exact hkeep (.quiet same) (by simp) (by simp) same.tasks (Nat.le_of_eq same.nextTask.symm)
  | submits call async r promises work tasks ready nextTask =>
    refine hkeep (.submits call async r promises work tasks ready nextTask) ?_ ?_ tasks (Nat.le_of_eq nextTask.symm)
    · simp [Event.Aside]
    · intro h mem
      cases List.mem_singleton.1 mem
      exact PromiseRegistry.get?_create_fst _
  | abandons call promises work tasks ready nextTask =>
    exact hkeep (.abandons call promises work tasks ready nextTask) (by simp) (by simp) tasks nextTask
  | @spawns args slot index env task call arguments entry enters promises work tasks ready nextTask =>
    obtain ⟨own, done, htends, -, -⟩ := ho.tends t Orderly.turn_mem_live
    have hrole := htends.spawns call arguments.1 entry
    have hid : task.id = m.nextTask := by
      obtain ⟨place, fn, args, rest, -, -, -, rfl⟩ := Run.enter_eq_ok enters
      rfl
    have hfresh : .submits m.promises.create.1 ∉ log := fun mem => by
      obtain ⟨p, hp⟩ := (accounted.accounts _ mem).promise_known
      rw [PromiseRegistry.get?_create_fst] at hp
      cases hp
    refine ho.start orderly.below hfresh hrole hid (.start enters hrole) promises nextTask fun t' ht' => ?_
    rw [live, tasks] at ht'
    obtain ht' | ht' := List.mem_append.1 ht'
    · exact .inr (hstays (by simp) t' (List.mem_append_left _ ht'))
    · obtain rfl | ht' := List.mem_cons.1 ht'
      · exact .inl rfl
      · exact .inr (hstays (by simp) t' (List.mem_append_right _ ht'))
  | settles call settling argument settles =>
    obtain ⟨own, done, htends, hhandle, hdone⟩ := ho.tends t Orderly.turn_mem_live
    obtain ⟨hnot, -, h, rfl, hargument⟩ := htends.settles call settling
    obtain ⟨fn, started⟩ := (hhandle h).1 rfl
    obtain ⟨p, hp, -⟩ := ho.promise started
    rw [argument] at hargument
    cases hargument
    rw [handle_ofNat (few hp)] at settles hturn ⊢
    have hunsettled : settledBy t.id log = [] := Classical.not_not.1 fun hne => hnot (hdone.2 hne)
    refine ho.settle started hunsettled settles fun t' ht' => ?_
    obtain ht' | ht' := List.mem_append.1 ht'
    · obtain ⟨hid, hgo⟩ := hturn t' (by simpa using ht')
      exact .inl ⟨hid, (hgo _ _ htends).2.congr (by simp)⟩
    · have ht' : t' ∈ m.tasks := settles.tasks ▸ ht'
      exact .inr ⟨orderly.turn_not_task ht', Orderly.mem_live ht'⟩

/-- All that matters stays. -/
theorem of_sub (ho : Owned S log s) (hlog : ∀ event ∈ log', event.fault? ≠ none)
    (next : s.machine.nextTask ≤ s'.machine.nextTask)
    (promises : s'.machine.promises = s.machine.promises) (live : ∀ t' ∈ s'.live, t' ∈ s.live) :
    Owned S (log ++ log') s' := by
  have haside : ∀ event ∈ log', event.Aside log s.machine.nextTask ∧ ∀ h, event ≠ .submits h := by
    intro event mem
    have hfault := hlog event mem
    cases event with
    | delivers | fails => exact ⟨trivial, nofun⟩
    | submits | starts | settles | finishes => exact absurd rfl hfault
  refine ho.keep (fun event mem => (haside event mem).1) (fun h mem => ?_) next
    (fun _ hp => ⟨_, promises ▸ hp, rfl⟩) fun t' ht' => .inl ⟨t', live t' ht', rfl, fun _ _ h => h⟩
  exact absurd rfl ((haside _ mem).2 h)

/-- **A move keeps how tasks and their promises stand**, if it does not enter the function of a task
through the table. -/
theorem of_move (ho : Owned S log s) (orderly : Orderly s) (accounted : s.machine.Accounted log)
    (few : ∀ {h p}, s.machine.promises.get? h = some p → h.number < Layout.addressLimit)
    (direct : ∀ t i, s.turn = some t → t.indirectCall? S.image = some i → S.role i ≠ .task)
    (h : Move S.image s log' s') : Owned S (log ++ log') s' := by
  cases h with
  | outside same =>
    refine ho.of_sub (by simp) (Nat.le_of_eq same.nextTask.symm) same.promises fun t' ht' => ?_
    rwa [live, same.tasks] at ht'
  | spawn spawned offered =>
    obtain ⟨t, henter, rfl, rfl⟩ := (Run.spawn_ends _ _ _ _).of_ok spawned
    refine ho.keep (by simp) (by simp) (Nat.le_succ _) (fun _ hp => ⟨_, hp, rfl⟩) fun t' ht' => ?_
    obtain rfl | ht' := List.mem_cons.1 ht'
    · have htends : t'.Tends S none False := .enter henter (S.cast.offers offered) (fun _ => rfl) .nil
      obtain ⟨place, fn, args, rest, -, -, -, rfl⟩ := Run.enter_eq_ok henter
      exact .inr ⟨Nat.le_refl _, htends⟩
    · exact .inl ⟨t', ht', rfl, fun _ _ h => h⟩
  | spawnFails failed =>
    obtain ⟨-, rfl⟩ := (Run.spawn_ends _ _ _ _).of_error failed
    exact ho.of_sub (by simp [Event.fault?]) (Nat.le_succ _) rfl fun t' ht' => ht'
  | skip | waitOn | yield => exact ho.of_sub (by simp) (Nat.le_refl _) rfl fun t' ht' => ht'
  | begin ready found =>
    exact ho.of_sub (by simp) (Nat.le_refl _) rfl fun t' ht' => (Orderly.perm_of_find? found).mem_iff.1 ht'
  | resume awaits state =>
    refine ho.keep (by simp) (by simp) (Nat.le_refl _) (fun _ hp => ⟨_, hp, rfl⟩) fun t' ht' => ?_
    obtain rfl | ht' := List.mem_cons.1 ht'
    · exact .inl ⟨_, Orderly.turn_mem_live, rfl, fun own done h => h.resume (by simp [awaits]) _⟩
    · exact .inl ⟨t', Orderly.mem_live ht', rfl, fun _ _ h => h⟩
  | resumeFails awaits failed =>
    exact ho.of_sub (by simp [Event.fault?]) (Nat.le_refl _) rfl fun t' ht' => Orderly.mem_live ht'
  | @next m t t' m' log' free step effect =>
    refine ho.effect orderly accounted few effect ?_
    rintro _ ⟨⟩
    obtain ⟨hid, -⟩ := (Run.step_follows _ _ _).of_ok step
    refine ⟨hid, fun own done htends => ?_⟩
    obtain ⟨hfinished, hgo⟩ := htends.step free (fun i => direct t i rfl) step
    have hnot : ¬done := fun hd => by
      obtain ⟨v, hv⟩ := hfinished hd
      cases hv
    refine ⟨hnot, (hgo hnot).congr ⟨fun resolves => effect.of_resolves resolves step, ?_⟩⟩
    -- Only a call that resolves a promise is logged as a settling.
    rintro ⟨h, mem⟩
    cases effect with
    | settles call settling =>
      obtain ⟨-, rfl, -⟩ := htends.settles call settling
      exact ⟨_, call⟩
    | quiet | submits | spawns | abandons => simp at mem
  | @finish m t v m' free step =>
    have same := (Run.step_follows _ _ _).of_ok step
    refine ho.keep ?_ (by simp) (Nat.le_of_eq same.nextTask.symm) (fun _ hp => ⟨_, same.promises ▸ hp, rfl⟩)
      fun t' ht' => .inl ⟨t', Orderly.mem_live (same.tasks ▸ ht'), rfl, fun _ _ h => h⟩
    rintro _ (_ | ⟨_, ⟨⟩⟩)
    refine ⟨orderly.below t Orderly.turn_mem_live, fun fn h started => ?_⟩
    obtain ⟨own, done, htends, hhandle, hdone⟩ := ho.tends t Orderly.turn_mem_live
    obtain ⟨-, hgo⟩ := htends.step free (fun i => direct t i rfl) step
    have hown : own = some h := (hhandle h).2 ⟨fn, started⟩
    obtain ⟨p, -, ⟨-, hnone⟩ | ⟨-, hone⟩⟩ := ho.promise started
    · -- A task with a promise does not finish before it has settled it.
      have hnot : ¬done := fun hd => hdone.1 hd hnone
      have hnone : own = none := hgo hnot
      rw [hown] at hnone
      cases hnone
    · exact hone
  | @block m t t' m' free step =>
    obtain ⟨h, hid, -, waits⟩ := (Run.step_follows _ _ _).of_ok step
    refine ho.keep (by simp) (by simp) (Nat.le_of_eq waits.nextTask.symm) (fun _ hp => waits.get?_of_get? hp)
      fun u hu => ?_
    obtain rfl | hu := List.mem_cons.1 hu
    · refine .inl ⟨t, Orderly.turn_mem_live, hid, fun own done htends => ?_⟩
      obtain ⟨hfinished, hgo⟩ := htends.step free (fun i => direct t i rfl) step
      have hnot : ¬done := fun hd => by
        obtain ⟨v, hv⟩ := hfinished hd
        cases hv
      exact (hgo hnot).2.congr (by simp [hnot])
    · exact .inl ⟨u, Orderly.mem_live (waits.tasks ▸ hu), rfl, fun _ _ h => h⟩
  | @fail m t e m' log' free step effect =>
    rw [← List.append_assoc]
    have hgone : Owned S (log ++ log') ⟨m', none⟩ := ho.effect orderly accounted few effect fun _ h => by cases h
    exact hgone.of_sub (by simp [Event.fault?]) (Nat.le_refl _) rfl fun t' ht' => ht'
  | deliver taken complete =>
    have settles := (Run.complete_ends _ _).of_ok complete
    obtain ⟨p, p', -, -, -, hget⟩ := Machine.Accounted.get?_of_settles settles
    refine ho.keep (by simp [Event.Aside]) (by simp) (Nat.le_of_eq settles.nextTask.symm) ?_ fun t' ht' => ?_
    · intro id fn h q started hq
      have hne : h ≠ _ := fun heq => ho.apart started (heq ▸ (accounted.taken taken).1)
      exact ⟨q, by rw [hget, if_neg hne]; exact hq, rfl⟩
    · refine .inl ⟨t', ?_, rfl, fun _ _ h => h⟩
      rwa [live, settles.tasks] at ht'
  | deliverFails taken complete =>
    obtain ⟨-, same, -⟩ := (Run.complete_ends _ _).of_error complete
    refine ho.of_sub (by simp [Event.fault?]) (Nat.le_of_eq same.nextTask.symm) same.promises fun t' ht' => ?_
    rwa [live, same.tasks] at ht'

end Scene.Owned

/-! ## Runs -/

variable {img : Image} {s s' : Scene} {log : List Event}

/-- A known promise stays known. -/
theorem Move.get?_of_get? (h : Move img s log s')
    {handle : PromiseHandle} {p : Promise Nat} (hp : s.machine.promises.get? handle = some p) :
    ∃ p', s'.machine.promises.get? handle = some p' := by
  have heffect {m m' : Machine} {t : Task} {log : List Event} (he : m.Effect img t m' log)
      (hp : m.promises.get? handle = some p) : ∃ p', m'.promises.get? handle = some p' := by
    by_cases hlog : ∀ h, .settles t.id h ∉ log
    · exact ⟨p, he.get?_of_aside hlog hp⟩
    · cases he with
      | settles call settling argument settles =>
        obtain ⟨q, q', -, -, -, hget⟩ := Machine.Accounted.get?_of_settles settles
        rw [hget]
        split
        · exact ⟨q', rfl⟩
        · exact ⟨p, hp⟩
      | quiet | submits | spawns | abandons => simp at hlog
  cases h with
  | outside same => exact ⟨p, by rw [same.promises, hp]⟩
  | spawn spawned =>
    obtain ⟨t, -, rfl, rfl⟩ := (Run.spawn_ends _ _ _ _).of_ok spawned
    exact ⟨p, hp⟩
  | spawnFails failed =>
    obtain ⟨-, rfl⟩ := (Run.spawn_ends _ _ _ _).of_error failed
    exact ⟨p, hp⟩
  | skip | begin | resume | waitOn | resumeFails | yield => exact ⟨p, hp⟩
  | next free step effect => exact heffect effect hp
  | finish free step =>
    have same := (Run.step_follows _ _ _).of_ok step
    exact ⟨p, by rw [same.promises, hp]⟩
  | block free step =>
    obtain ⟨h, -, -, waits⟩ := (Run.step_follows _ _ _).of_ok step
    obtain ⟨p', hp', -⟩ := waits.get?_of_get? hp
    exact ⟨p', hp'⟩
  | fail free step effect => exact heffect effect hp
  | deliver taken complete =>
    obtain ⟨q, q', -, -, -, hget⟩ :=
      Machine.Accounted.get?_of_settles ((Run.complete_ends _ _).of_ok complete)
    rw [hget]
    split
    · exact ⟨q', rfl⟩
    · exact ⟨p, hp⟩
  | deliverFails taken complete =>
    obtain ⟨-, same, -⟩ := (Run.complete_ends _ _).of_error complete
    exact ⟨p, by rw [same.promises, hp]⟩

/-- A sequence of moves, each of which starts in a scene of some kind. -/
inductive MovesThrough (img : Image) (P : Scene → Prop) (s : Scene) : List Event → Scene → Prop
  | refl : MovesThrough img P s [] s
  | tail {log log' s' s''} (init : MovesThrough img P s log s') (passes : P s')
      (last : Move img s' log' s'') : MovesThrough img P s (log ++ log') s''

namespace Scene

/-- The task whose turn it is is not about to call one of some functions through the table. -/
def Direct (img : Image) (functions : List Nat) (s : Scene) : Prop :=
  ∀ t i, s.turn = some t → t.indirectCall? img = some i → i ∉ functions

/-- The promises of a scene have numbers of 32 bits. -/
def FewPromises (s : Scene) : Prop :=
  ∀ h p, s.machine.promises.get? h = some p → h.number < Layout.addressLimit

theorem FewPromises.before {img : Image} {s s' : Scene} {log : List Event} (h : s'.FewPromises)
    (move : Move img s log s') : s.FewPromises := fun handle _ hp => by
  obtain ⟨p', hp'⟩ := move.get?_of_get? hp
  exact h handle p' hp'

end Scene

/-- If a module calls no function with two numbers and without a result through the table, then it
enters no function of a task there. -/
theorem Compiled.direct {p : Typed.Program} {config : CompileConfig} {fns : List Function}
    {st : Emit.State} {m : Module} (h : Compiled p config fns st m) {runConfig : RunConfig}
    (himg : Image.ofModule m runConfig = .ok img) (htypes : FuncType.of [.i32, .i32] none ∉ m.types)
    (s : Scene) : s.Direct img (Plan.entries (Plan.placed p)) := by
  intro t i _ hcall hentry
  obtain ⟨-, himports, -, -, hall, -⟩ := Image.ofModule_eq_ok himg
  obtain ⟨ty, hty, hfunction⟩ := Task.funcType?_of_indirectCall? hcall
  have htask : Plan.role p i = .task := Plan.mem_entries.1 hentry
  obtain ⟨k, rfl, -⟩ := Plan.roles_of_role (htask ▸ nofun : Plan.role p i ≠ .ordinary)
  have hsize : img.imports.size = (Plan.imports p.symbols).length := by
    rw [himports, List.size_toArray, h.imports]
  rw [Image.funcType?, hsize, if_neg (by omega), Nat.add_sub_cancel_left] at hfunction
  obtain ⟨fn, hfn, rfl⟩ := Option.map_eq_some_iff.1 hfunction
  rw [← hsize] at htask
  rw [(h.cast himg).task hfn htask, hall, List.mem_toArray] at hty
  exact htypes hty

namespace Vm

variable {source : String} {config : CompileConfig} {m : Module} {runConfig : RunConfig}
  {files : Directory} {origin : Vm}

/-- A run that never enters the function of a task through the table. -/
abbrev Straight (origin : Vm) (p : Typed.Program) (log : List Event) (s : Scene) : Prop :=
  MovesThrough origin.image (Scene.Direct origin.image (Plan.entries (Plan.placed p))) ⟨origin.machine, none⟩ log s

/-- Whether a program can be loaded, in the settings that hold when nothing else is said, and its module
and the machine that it is loaded into have a property. -/
def loads (source : String) (P : Module → Vm → Bool) : Bool :=
  match compile source {} with
  | .error _ => false
  | .ok m =>
    match ofModule m {} {} with
    | .error _ => false
    | .ok vm => P m vm

end Vm

end StackScript
