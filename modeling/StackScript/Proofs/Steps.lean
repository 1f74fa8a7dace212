/-!
# Steps that keep a state or fail

The parser, the checker and the emitter are written with steps `StateT σ (Except ε)`.  The lemmas here
take a successful run of such a step apart, and put one together.
-/

namespace StackScript

variable {σ ε α β : Type}

/-! ## Runs of a sequence -/

theorem run_bind_of_ok {x : StateT σ (Except ε) α} (f : α → StateT σ (Except ε) β) {s t : σ} {a : α}
    (h : x.run s = .ok (a, t)) : (x >>= f).run s = (f a).run t := by
  rw [StateT.run_bind, h]
  rfl

theorem run_bind_of_error {x : StateT σ (Except ε) α} (f : α → StateT σ (Except ε) β) {s : σ} {e : ε}
    (h : x.run s = .error e) : (x >>= f).run s = .error e := by
  rw [StateT.run_bind, h]
  rfl

/-- **A sequence succeeds exactly if its steps do.** -/
theorem run_bind_eq_ok {x : StateT σ (Except ε) α} {f : α → StateT σ (Except ε) β} {s : σ} {r : β × σ} :
    (x >>= f).run s = .ok r ↔ ∃ a t, x.run s = .ok (a, t) ∧ (f a).run t = .ok r := by
  constructor
  · intro h
    cases hx : x.run s with
    | error e => rw [run_bind_of_error f hx] at h; cases h
    | ok p => exact ⟨p.1, p.2, rfl, by rwa [run_bind_of_ok f hx] at h⟩
  · rintro ⟨a, t, hx, hf⟩
    rw [run_bind_of_ok f hx, hf]

theorem except_bind_eq_ok {x : Except ε α} {f : α → Except ε β} {b : β} :
    (x >>= f) = .ok b ↔ ∃ a, x = .ok a ∧ f a = .ok b := by
  cases x with
  | error e => exact ⟨fun h => (nomatch h), fun ⟨_, h, _⟩ => nomatch h⟩
  | ok a => exact ⟨fun h => ⟨a, rfl, h⟩, fun ⟨_, ha, h⟩ => by cases ha; exact h⟩

theorem except_map_eq_ok {x : Except ε α} {f : α → β} {b : β} : f <$> x = .ok b ↔ ∃ a, x = .ok a ∧ f a = b := by
  cases x with
  | error e => exact ⟨fun h => (nomatch h), fun ⟨_, h, _⟩ => nomatch h⟩
  | ok a => exact ⟨fun h => ⟨a, rfl, Except.ok.inj h⟩, fun ⟨_, ha, h⟩ => by cases ha; exact congrArg _ h⟩

theorem except_mapError_eq_ok {ε' : Type} {x : Except ε α} {f : ε → ε'} {a : α} : x.mapError f = .ok a ↔ x = .ok a := by
  cases x with
  | error e => exact ⟨fun h => (nomatch h), fun h => nomatch h⟩
  | ok b => exact ⟨fun h => congrArg _ (Except.ok.inj h), fun h => congrArg _ (Except.ok.inj h)⟩

theorem except_pure_eq_ok {a b : α} : (pure a : Except ε α) = .ok b ↔ a = b :=
  ⟨fun h => Except.ok.inj h, congrArg _⟩

theorem run_pure_eq_ok {a b : α} {s t : σ} : (pure a : StateT σ (Except ε) α).run s = .ok (b, t) ↔ a = b ∧ s = t :=
  ⟨fun h => Prod.mk.inj (Except.ok.inj h), fun ⟨ha, hs⟩ => by rw [ha, hs]; rfl⟩

theorem run_get_eq_ok {s t u : σ} : (get : StateT σ (Except ε) σ).run s = .ok (t, u) ↔ s = t ∧ s = u :=
  ⟨fun h => Prod.mk.inj (Except.ok.inj h), fun ⟨ht, hu⟩ => by rw [← ht, ← hu]; rfl⟩

theorem run_modify_eq_ok {f : σ → σ} {s u : σ} {a : PUnit} :
    (modify f : StateT σ (Except ε) PUnit).run s = .ok (a, u) ↔ f s = u :=
  ⟨fun h => (Prod.mk.inj (Except.ok.inj h)).2, fun h => by rw [← h]; rfl⟩

theorem exists_of_isOk {x : Except ε α} (h : x.isOk = true) : ∃ a, x = .ok a := by
  cases x with
  | error e => cases h
  | ok a => exact ⟨a, rfl⟩

/-! ## What a step yields -/

/-- From a state, a step succeeds with a result and a state that have `Q`, or fails with a reason that
has `E`. -/
def Yields (x : StateT σ (Except ε) α) (s : σ) (E : ε → Prop) (Q : α → σ → Prop) : Prop :=
  match x.run s with
  | .ok (a, t) => Q a t
  | .error e => E e

variable {x : StateT σ (Except ε) α} {f : α → StateT σ (Except ε) β} {s : σ} {E E' : ε → Prop}
  {Q Q' : α → σ → Prop} {R : β → σ → Prop}

/-- **A sequence yields what its last step yields.** -/
theorem yields_bind (h : Yields x s E fun a t => Yields (f a) t E R) : Yields (x >>= f) s E R := by
  unfold Yields at h ⊢
  cases hx : x.run s with
  | error e => rw [run_bind_of_error f hx]; rwa [hx] at h
  | ok p => rw [run_bind_of_ok f hx]; rwa [hx] at h

theorem Yields.mono (h : Yields x s E Q) (hE : ∀ e, E e → E' e) (hQ : ∀ a t, Q a t → Q' a t) : Yields x s E' Q' := by
  unfold Yields at h ⊢
  cases hx : x.run s with
  | error e => rw [hx] at h; exact hE e h
  | ok p => rw [hx] at h; exact hQ p.1 p.2 h

theorem Yields.of_ok (h : Yields x s E Q) {a : α} {t : σ} (hx : x.run s = .ok (a, t)) : Q a t := by
  unfold Yields at h
  rwa [hx] at h

/-- The results of a step are those of its run. -/
theorem Yields.withRun (h : Yields x s E Q) : Yields x s E fun a t => Q a t ∧ x.run s = .ok (a, t) := by
  unfold Yields at h ⊢
  cases hx : x.run s with
  | error e => rwa [hx] at h
  | ok p => rw [hx] at h; exact ⟨h, rfl⟩

theorem yields_pure {a : α} (h : Q a s) : Yields (pure a : StateT σ (Except ε) α) s E Q := h

theorem yields_get {Q : σ → σ → Prop} (h : Q s s) : Yields (get : StateT σ (Except ε) σ) s E Q := h

theorem yields_set {Q : PUnit → σ → Prop} {t : σ} (h : Q ⟨⟩ t) : Yields (set t : StateT σ (Except ε) PUnit) s E Q := h

theorem yields_modify {Q : PUnit → σ → Prop} {g : σ → σ} (h : Q ⟨⟩ (g s)) :
    Yields (modify g : StateT σ (Except ε) PUnit) s E Q := h

theorem yields_throw {e : ε} (h : E e) : Yields (throw e : StateT σ (Except ε) α) s E Q := h

end StackScript
