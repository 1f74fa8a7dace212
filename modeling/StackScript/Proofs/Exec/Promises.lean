import StackScript.Exec.Promise
import StackScript.Proofs.Steps

/-!
# Registries of promises

A registry is known by the promise under each handle; these are the promises after every operation.  A history is a
sequence of calls with their answers: what it says of a promise is what the registry holds.
-/

namespace StackScript

namespace PromiseRegistry

variable {W : Type} {r r' : PromiseRegistry W} {h : PromiseHandle} {p : Promise W}

theorem get?_create (r : PromiseRegistry W) (h : PromiseHandle) :
    r.create.2.get? h = if h = r.create.1 then some {} else r.get? h := by
  rcases h with ⟨_ | i⟩
  · rfl
  · simp only [create, get?, Array.getElem?_push, PromiseHandle.mk.injEq, Nat.add_right_cancel_iff]

/-- A handle from `create` was nobody's before. -/
theorem get?_create_fst (r : PromiseRegistry W) : r.get? r.create.1 = none := by
  simp [create, get?]

theorem get?_create_of_some (hp : r.get? h = some p) : r.create.2.get? h = some p := by
  rw [get?_create, if_neg, hp]
  rintro rfl
  simp [get?_create_fst] at hp

theorem get?_put (hp : r.get? h = some p) (q : Promise W) (h' : PromiseHandle) :
    (r.put h q).get? h' = if h' = h then some q else r.get? h' := by
  rcases h with ⟨_ | i⟩
  · cases hp
  · rcases h' with ⟨_ | j⟩
    · rfl
    · have hi : i < r.promises.size := (Array.getElem?_eq_some_iff.1 hp).1
      simp only [put, get?, Array.getElem?_setIfInBounds, Nat.add_sub_cancel, hi,
        PromiseHandle.mk.injEq, Nat.add_right_cancel_iff, @eq_comm _ i j]
      rfl

theorem find_eq_ok : r.find h = .ok p ↔ r.get? h = some p := by
  unfold find
  cases r.get? h <;> simp

variable {s : PromiseState} {e : PromiseFault} {w : W}

theorem state_eq_ok : r.state h = .ok s ↔ ∃ p, r.get? h = some p ∧ p.state = s := by
  simp only [state, except_bind_eq_ok, except_pure_eq_ok, find_eq_ok]

theorem state_eq_error (he : r.state h = .error e) : e = .unknownHandle h := by
  unfold state find at he
  cases hg : r.get? h with
  | none =>
    rw [hg] at he
    cases he
    rfl
  | some p =>
    rw [hg] at he
    cases he

/-- Only a pending promise can be settled; its waiters are handed out. -/
theorem settle_eq_ok {ws : List W} : r.settle h s = .ok (ws, r') ↔
      ∃ p, r.get? h = some p ∧ p.state = .pending ∧ p.waiters = ws ∧ r.put h ⟨s, []⟩ = r' := by
  simp only [settle, except_bind_eq_ok, find_eq_ok]
  refine exists_congr fun p => and_congr_right fun _ => ?_
  cases hp : p.state <;> simp [PromiseState.isSettled, pure, Except.pure, throw, throwThe, MonadExceptOf.throw]

theorem settle_of_pending (s : PromiseState) (hp : r.get? h = some p) (hpending : p.state = .pending) :
    r.settle h s = .ok (p.waiters, r.put h ⟨s, []⟩) :=
  settle_eq_ok.2 ⟨p, hp, hpending, rfl, rfl⟩

theorem settle_eq_error (he : r.settle h s = .error e) : e = .unknownHandle h ∨
      ∃ p, r.get? h = some p ∧ p.state.isSettled = true ∧ e = .alreadySettled h := by
  unfold settle find at he
  cases hg : r.get? h with
  | none =>
    rw [hg] at he
    cases he
    exact .inl rfl
  | some p =>
    cases hp : p.state.isSettled with
    | false => simp [hg, hp, bind, Except.bind, pure, Except.pure] at he
    | true =>
      simp only [hg, bind, Except.bind, hp, if_true] at he
      cases he
      exact .inr ⟨p, rfl, hp, rfl⟩

theorem wait_eq_error (he : r.wait h w = .error e) : e = .unknownHandle h := by
  unfold wait find at he
  cases hg : r.get? h with
  | none =>
    rw [hg] at he
    cases he
    rfl
  | some p =>
    simp only [hg, bind, Except.bind] at he
    split at he <;> cases he

/-- Who has to wait is kept with a pending promise. -/
theorem wait_eq_none : r.wait h w = .ok (none, r') ↔ ∃ p, r.get? h = some p ∧ p.state = .pending ∧
        r.put h { p with waiters := p.waiters ++ [w] } = r' := by
  simp only [wait, except_bind_eq_ok, find_eq_ok]
  refine exists_congr fun p => and_congr_right fun _ => ?_
  cases hp : p.state <;> simp [PromiseState.isSettled, pure, Except.pure]

/-- The state of a settled promise is given at once. -/
theorem wait_eq_some : r.wait h w = .ok (some s, r') ↔
      ∃ p, r.get? h = some p ∧ p.state.isSettled = true ∧ p.state = s ∧ r = r' := by
  simp only [wait, except_bind_eq_ok, find_eq_ok]
  refine exists_congr fun p => and_congr_right fun _ => ?_
  cases hp : p.state <;> simp [PromiseState.isSettled, pure, Except.pure]

/-! ## Histories -/

/-- A call of an operation. -/
inductive Call (W : Type) where
  | create
  | state (h : PromiseHandle)
  | resolve (h : PromiseHandle) (value : BitVec 64)
  | reject (h : PromiseHandle) (value : BitVec 64)
  | wait (h : PromiseHandle) (w : W)

/-- What a call gives. -/
inductive Answer (W : Type) where
  | handle (h : PromiseHandle)
  | state (s : PromiseState)
  | woken (ws : List W)
  /-- The state of a settled promise; none for whoever has to wait. -/
  | waited (s : Option PromiseState)
  | failed (e : PromiseFault)

/-- The answer of an operation with the registry after it, which is the old one if it fails. -/
def answer {α : Type} (r : PromiseRegistry W) (f : α → Answer W) :
    Except PromiseFault (α × PromiseRegistry W) → Answer W × PromiseRegistry W
  | .ok (a, r') => (f a, r')
  | .error e => (.failed e, r)

/-- The answer to a call, and the registry after it. -/
def perform (r : PromiseRegistry W) : Call W → Answer W × PromiseRegistry W
  | .create => (.handle r.create.1, r.create.2)
  | .state h => answer r .state (do return (← r.state h, r))
  | .resolve h v => answer r .woken (r.resolve h v)
  | .reject h v => answer r .woken (r.reject h v)
  | .wait h w => answer r .waited (r.wait h w)

/-- The promise that a call is to settle, and how. -/
def Call.settles? : Call W → Option (PromiseHandle × PromiseState)
  | .resolve h v => some (h, .resolved v)
  | .reject h v => some (h, .rejected v)
  | _ => none

/-- The handles that were given out. -/
def issued (log : List (Call W × Answer W)) : List PromiseHandle :=
  log.filterMap fun
    | (_, .handle h) => some h
    | _ => none

/-- The calls that settled a promise: its new state, and those who were handed out. -/
def settlements (log : List (Call W × Answer W)) (h : PromiseHandle) : List (PromiseState × List W) :=
  log.filterMap fun
    | (c, .woken ws) => if c.settles?.map (·.1) = some h then c.settles?.map (·.2, ws) else none
    | _ => none

/-- Those who were told to wait for a promise. -/
def registrations (log : List (Call W × Answer W)) (h : PromiseHandle) : List W :=
  log.filterMap fun
    | (.wait h' w, .waited none) => if h' = h then some w else none
    | _ => none

section

variable (log log' : List (Call W × Answer W)) (h : PromiseHandle)

theorem issued_append : issued (log ++ log') = issued log ++ issued log' :=
  List.filterMap_append

theorem settlements_append : settlements (log ++ log') h = settlements log h ++ settlements log' h :=
  List.filterMap_append

theorem registrations_append : registrations (log ++ log') h = registrations log h ++ registrations log' h :=
  List.filterMap_append

end

theorem size_put (r : PromiseRegistry W) (h : PromiseHandle) (p : Promise W) : (r.put h p).size = r.size :=
  Array.size_setIfInBounds

/-- What a log says of a promise. -/
def Tells (log : List (Call W × Answer W)) (h : PromiseHandle) : Option (Promise W) → Prop
  | none => settlements log h = [] ∧ registrations log h = []
  | some ⟨.pending, ws⟩ => settlements log h = [] ∧ registrations log h = ws
  | some ⟨s, _⟩ => settlements log h = [(s, registrations log h)]

/-- A log that accounts for all promises of a registry. -/
structure Accounts (log : List (Call W × Answer W)) (r : PromiseRegistry W) : Prop where
  issued : issued log = (List.range r.size).map fun i => ⟨i + 1⟩
  tells : ∀ h, Tells log h (r.get? h)

namespace Accounts

variable {log : List (Call W × Answer W)} {c : Call W} {a : Answer W}

/-- A call that says nothing of a promise. -/
theorem tells_append (ht : Accounts log r) (hs : settlements [(c, a)] h = []) (hr : registrations [(c, a)] h = []) :
    Tells (log ++ [(c, a)]) h (r.get? h) := by
  have htells := ht.tells h
  unfold Tells at *
  simpa only [settlements_append, registrations_append, hs, hr, List.append_nil] using htells

/-- A call that creates nothing, with what it does to the promises. -/
theorem append (ht : Accounts log r) (hsize : r'.size = r.size) (hi : PromiseRegistry.issued [(c, a)] = [])
    (htells : ∀ h, Tells (log ++ [(c, a)]) h (r'.get? h)) : Accounts (log ++ [(c, a)]) r' :=
  ⟨by rw [issued_append, hi, List.append_nil, hsize, ht.issued], htells⟩

theorem create (ht : Accounts log r) : Accounts (log ++ [(.create, .handle r.create.1)]) r.create.2 where
  issued := by
    have hsize : r.create.2.size = r.size + 1 := Array.size_push _
    rw [issued_append, ht.issued, hsize, List.range_succ, List.map_append]
    rfl
  tells k := by
    have htells := ht.tells_append (c := .create) (a := .handle r.create.1) (h := k) rfl rfl
    rw [get?_create]
    split
    next hk =>
      rw [hk] at htells ⊢
      rwa [get?_create_fst] at htells
    next => exact htells

theorem settle {s : PromiseState} (ht : Accounts log r) (hc : c.settles? = some (h, s)) (hs : s.isSettled = true)
    (hperform : r.perform c = answer r .woken (r.settle h s)) :
    Accounts (log ++ [(c, (r.perform c).1)]) (r.perform c).2 := by
  rw [hperform]
  have hquiet {a : Answer W} (k : PromiseHandle) : registrations [(c, a)] k = [] := by
    cases c <;> first | rfl | cases hc
  cases hsettle : r.settle h s with
  | error e => exact ht.append rfl rfl fun k => ht.tells_append rfl (hquiet k)
  | ok w =>
    obtain ⟨⟨state, waiters⟩, hp, rfl, hw, hr'⟩ := settle_eq_ok.1 hsettle
    refine ht.append (hr' ▸ size_put ..) rfl fun k => ?_
    change Tells _ k (w.2.get? k)
    rw [← hr', get?_put hp]
    split
    next hk =>
      subst hk
      have htells := ht.tells k
      rw [hp] at htells
      have hsettled : settlements (log ++ [(c, .woken w.1)]) k = [(s, registrations log k)] := by
        rw [settlements_append, htells.1, htells.2]
        simp [settlements, hc, ← hw]
      cases s with
      | pending => cases hs
      | resolved v | rejected v => simpa [Tells, answer, registrations_append, hquiet] using hsettled
    next hk => exact ht.tells_append (by simp [settlements, answer, hc, Ne.symm hk]) (hquiet k)

theorem wait {w : W} (ht : Accounts log r) :
    Accounts (log ++ [(.wait h w, (r.perform (.wait h w)).1)]) (r.perform (.wait h w)).2 := by
  simp only [perform]
  rcases hwait : r.wait h w with e | ⟨_ | s, r'⟩
  · exact ht.append rfl rfl fun k => ht.tells_append rfl rfl
  · obtain ⟨⟨state, waiters⟩, hp, rfl, hr'⟩ := wait_eq_none.1 hwait
    refine ht.append (hr' ▸ size_put ..) rfl fun k => ?_
    change Tells _ k (r'.get? k)
    rw [← hr', get?_put hp]
    split
    next hk =>
      subst hk
      have htells := ht.tells k
      rw [hp] at htells
      refine ⟨?_, ?_⟩
      · rw [settlements_append, htells.1]
        rfl
      · rw [registrations_append, htells.2]
        simp [registrations, answer]
    next hk => exact ht.tells_append rfl (by simp [registrations, answer, Ne.symm hk])
  · obtain ⟨-, -, -, -, rfl⟩ := wait_eq_some.1 hwait
    exact ht.append rfl rfl fun k => ht.tells_append rfl rfl

/-- What a call keeps. -/
theorem step (ht : Accounts log r) (c : Call W) : Accounts (log ++ [(c, (r.perform c).1)]) (r.perform c).2 := by
  cases c with
  | create => exact ht.create
  | state h =>
    simp only [perform]
    cases r.state h <;> exact ht.append rfl rfl fun k => ht.tells_append rfl rfl
  | resolve | reject => exact ht.settle rfl rfl rfl
  | wait h w => exact ht.wait

end Accounts

theorem Accounts.settled {log : List (Call W × Answer W)} {ws : List W} (ht : Accounts log r)
    (hmem : (s, ws) ∈ settlements log h) :
    settlements log h = [(s, ws)] ∧ ws = registrations log h ∧ r.state h = .ok s ∧ s.isSettled = true := by
  have htells := ht.tells h
  rcases hp : r.get? h with _ | ⟨_ | v | v, waiters⟩ <;> rw [hp] at htells
  · simp [htells.1] at hmem
  · simp [htells.1] at hmem
  all_goals
    rw [show settlements log h = _ from htells] at hmem ⊢
    obtain ⟨rfl, rfl⟩ := Prod.mk.inj (List.mem_singleton.1 hmem)
    exact ⟨rfl, rfl, state_eq_ok.2 ⟨_, hp, rfl⟩, rfl⟩

end PromiseRegistry

end StackScript
