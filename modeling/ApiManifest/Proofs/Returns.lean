import ApiManifest.Run

/-!
# What a step comes to

Steps of a run and work on objects are both steps with a state that may fail. This file takes them
apart: a sequence of steps returns exactly when each of them does, and the basic steps of a run are
known by what they return and by the world that they leave.
-/

namespace ApiManifest

variable {σ s α β : Type}

/-- A sequence of results that may be errors has a result when each of them has one. -/
theorem result_bind_iff {ε : Type} {x : Except ε α} {f : α → Except ε β} {b : β} :
    x >>= f = .ok b ↔ ∃ a, x = .ok a ∧ f a = .ok b := by
  cases x with
  | error e => simp [bind, Except.bind]
  | ok a => simp [bind, Except.bind]

/-- A list of results has a result when each of them has one. -/
theorem exists_mapM_iff {f : α → Except Error β} {xs : List α} :
    (∃ ys, xs.mapM f = .ok ys) ↔ ∀ x ∈ xs, ∃ y, f x = .ok y := by
  induction xs with
  | nil => simp [pure, Except.pure]
  | cons x rest ih =>
      rw [List.mapM_cons, List.forall_mem_cons, ← ih]
      constructor
      · rintro ⟨ys, h⟩
        obtain ⟨y, hy, h⟩ := result_bind_iff.mp h
        obtain ⟨more, hmore, -⟩ := result_bind_iff.mp h
        exact ⟨⟨y, hy⟩, ⟨more, hmore⟩⟩
      · rintro ⟨⟨y, hy⟩, ⟨more, hmore⟩⟩
        exact ⟨y :: more, result_bind_iff.mpr ⟨y, hy, result_bind_iff.mpr ⟨more, hmore, rfl⟩⟩⟩

theorem mem_of_mapM {f : α → Except Error β} {xs : List α} {ys : List β}
    (h : xs.mapM f = .ok ys) {y : β} (hy : y ∈ ys) : ∃ x ∈ xs, f x = .ok y := by
  induction xs generalizing ys with
  | nil =>
      cases h
      cases hy
  | cons x rest ih =>
      rw [List.mapM_cons] at h
      obtain ⟨first, hfirst, h⟩ := result_bind_iff.mp h
      obtain ⟨more, hmore, h⟩ := result_bind_iff.mp h
      cases h
      rcases List.mem_cons.mp hy with rfl | hy
      · exact ⟨x, List.mem_cons_self, hfirst⟩
      · obtain ⟨x', hx', hy⟩ := ih hmore hy
        exact ⟨x', List.mem_cons_of_mem _ hx', hy⟩

theorem mapM_congr {f g : α → Except Error β} {xs : List α} (h : ∀ x ∈ xs, f x = g x) :
    xs.mapM f = xs.mapM g := by
  induction xs with
  | nil => rfl
  | cons x rest ih =>
      obtain ⟨hx, hrest⟩ := List.forall_mem_cons.mp h
      rw [List.mapM_cons, List.mapM_cons, hx, ih hrest]

theorem mapM_eq_map {f : α → Except Error β} {g : α → β} {xs : List α}
    (h : ∀ x ∈ xs, f x = .ok (g x)) : xs.mapM f = .ok (xs.map g) :=
  (mapM_congr h).trans List.mapM_pure

/-- What a step comes to from a state: its result, and the state that it leaves. -/
def outcome (step : ExceptT Error (StateM s) α) (w : s) : Except Error α × s := step.run w

/-- The step returns `a` when it is started in the state `w`, and leaves the state `w'`. -/
def Returns (step : ExceptT Error (StateM s) α) (w : s) (a : α) (w' : s) : Prop :=
  outcome step w = (.ok a, w')

@[simp] theorem outcome_pure (a : α) (w : s) :
    outcome (pure a : ExceptT Error (StateM s) α) w = (.ok a, w) := rfl

@[simp] theorem outcome_throw (e : Error) (w : s) :
    outcome (throw e : ExceptT Error (StateM s) α) w = (.error e, w) := rfl

@[simp] theorem outcome_get (w : s) :
    outcome (get : ExceptT Error (StateM s) s) w = (.ok w, w) := rfl

@[simp] theorem outcome_set (w w' : s) :
    outcome (set w' : ExceptT Error (StateM s) Unit) w = (.ok (), w') := rfl

/-- A sequence goes on from where its first step ends, unless that fails. -/
theorem outcome_bind (x : ExceptT Error (StateM s) α) (f : α → ExceptT Error (StateM s) β)
    (w : s) :
    outcome (x >>= f) w = match outcome x w with
      | (.ok a, w') => outcome (f a) w'
      | (.error e, w') => (.error e, w') := by
  show (ExceptT.bindCont f (x.run w).1).run (x.run w).2 = _
  unfold outcome
  rcases x.run w with ⟨e | a, w'⟩ <;> rfl

namespace Returns

@[simp] theorem pure_iff {a b : α} {w w' : s} :
    Returns (pure a : ExceptT Error (StateM s) α) w b w' ↔ a = b ∧ w = w' := by
  simp [Returns]

@[simp] theorem get_iff {a w w' : s} :
    Returns (get : ExceptT Error (StateM s) s) w a w' ↔ w = a ∧ w = w' := by
  simp [Returns]

/-- A sequence returns when its first step returns and the rest does from there. -/
theorem bind_iff {x : ExceptT Error (StateM s) α} {f : α → ExceptT Error (StateM s) β}
    {w w'' : s} {b : β} :
    Returns (x >>= f) w b w'' ↔ ∃ a w', Returns x w a w' ∧ Returns (f a) w' b w'' := by
  unfold Returns
  rw [outcome_bind]
  rcases outcome x w with ⟨e | a, w'⟩
  · simp
  · constructor
    · intro h
      exact ⟨a, w', rfl, h⟩
    · rintro ⟨_, _, h₁, h₂⟩
      cases h₁
      exact h₂

/-- A step returns at most one value and leaves at most one state. -/
theorem unique {step : ExceptT Error (StateM s) α} {w w₁ w₂ : s} {a₁ a₂ : α}
    (h₁ : Returns step w a₁ w₁) (h₂ : Returns step w a₂ w₂) : a₁ = a₂ ∧ w₁ = w₂ := by
  have h := h₁.symm.trans h₂
  simpa using h

/-- A step whose result passes a check returns something that does. -/
theorem of_check {step : ExceptT Error (StateM s) α} {w : s} {p : α → Bool}
    (h : (outcome step w).1.toOption.any p = true) :
    ∃ a w', Returns step w a w' ∧ p a = true := by
  unfold Returns
  revert h
  rcases outcome step w with ⟨e | a, w'⟩
  · intro h
    cases h
  · intro h
    exact ⟨a, w', rfl, h⟩

end Returns

/-- Whether a step returns, and both what it returns and what it leaves pass a check. -/
def passes (step : ExceptT Error (StateM s) α) (w : s) (p : α → s → Bool) : Bool :=
  match outcome step w with
  | (.ok a, w') => p a w'
  | (.error _, _) => false

theorem passes_iff {step : ExceptT Error (StateM s) α} {w : s} {p : α → s → Bool} :
    passes step w p = true ↔ ∃ a w', Returns step w a w' ∧ p a w' = true := by
  unfold passes Returns
  rcases outcome step w with ⟨e | a, w'⟩
  · simp
  · constructor
    · intro h
      exact ⟨a, w', rfl, h⟩
    · rintro ⟨_, _, heq, h⟩
      cases heq
      exact h

namespace Run

theorem outcome_reading (read : Store → Except Error α) (w : World σ) :
    outcome (reading read : Run σ α) w = (read w.store, w) := by
  unfold reading
  rw [outcome_bind, outcome_get]
  dsimp only
  cases read w.store <;> rfl

theorem outcome_onStore (work : Store.Work α) (w : World σ) :
    outcome (onStore work : Run σ α) w =
      ((outcome work w.store).1, { w with store := (outcome work w.store).2 }) := by
  unfold onStore
  rw [outcome_bind, outcome_get]
  dsimp only
  rw [show work.run w.store = outcome work w.store from rfl]
  rcases outcome work w.store with ⟨result, st⟩
  dsimp only
  rw [outcome_bind, outcome_set]
  dsimp only
  cases result <;> rfl

theorem outcome_ask (generator : Generator σ) (key : String) (w : World σ) :
    outcome (ask generator key) w = ((generator.ask w.store key w.examples).result,
      { w with
        examples := (generator.ask w.store key w.examples).state
        asked := w.asked.push key
        log := w.log ++ (generator.ask w.store key w.examples).log }) := by
  unfold ask
  rw [outcome_bind, outcome_get]
  dsimp only
  rw [outcome_bind, outcome_set]
  dsimp only
  cases (generator.ask w.store key w.examples).result <;> rfl

/-- A step that only reads gives what it reads and leaves the world as it was. -/
theorem reading_iff {read : Store → Except Error α} {w w' : World σ} {a : α} :
    Returns (reading read) w a w' ↔ read w.store = .ok a ∧ w = w' := by
  unfold Returns
  rw [outcome_reading, Prod.mk.injEq]

/-- A step on objects changes nothing but the store. -/
theorem onStore_iff {work : Store.Work α} {w w' : World σ} {a : α} :
    Returns (onStore work) w a w' ↔ ∃ st, Returns work w.store a st ∧
      { w with store := st } = w' := by
  unfold Returns
  rw [outcome_onStore, Prod.mk.injEq]
  constructor
  · rintro ⟨h, rfl⟩
    exact ⟨_, Prod.ext h rfl, rfl⟩
  · rintro ⟨st, h, rfl⟩
    rw [h]
    exact ⟨rfl, rfl⟩

/-- Telling something changes nothing but the log. -/
theorem tell_iff {records : List Log.Record} {w w' : World σ} {u : Unit} :
    Returns (tell records : Run σ Unit) w u w' ↔ { w with log := w.log ++ records } = w' := by
  show (Except.ok (), { w with log := w.log ++ records }) = (Except.ok u, w') ↔ _
  simp

/-- Asking a generator leaves the store as it was. -/
theorem ask_iff {generator : Generator σ} {key : String} {w w' : World σ} {v : Value} :
    Returns (ask generator key) w v w' ↔
      (generator.ask w.store key w.examples).result = .ok v ∧
        { w with
          examples := (generator.ask w.store key w.examples).state
          asked := w.asked.push key
          log := w.log ++ (generator.ask w.store key w.examples).log } = w' := by
  unfold Returns
  rw [outcome_ask, Prod.mk.injEq]

end Run
end ApiManifest
