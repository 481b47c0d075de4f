import ApiManifest.Error

/-!
# Steps that may fail

A step works on a state and gives something, or it fails. `Gives` says of one run what it gives, and
`Comes` that it gives something with a property, unless it may fail. `Upholds` speaks of all runs: a
property of the states goes along, and with it a property of what is given and one of the cause when
a step fails. There is a rule for each way of putting steps together, so a proof about a step
follows the text of its definition.
-/

namespace ApiManifest

variable {σ α β : Type}

/-! ## What a step gives -/

/-- The step gives `a` when it is started in the state `s`, and leaves the state `s'`. -/
def Gives (step : StateT σ (Except Error) α) (s : σ) (a : α) (s' : σ) : Prop :=
  step.run s = .ok (a, s')

theorem gives_pure (a : α) (s : σ) : Gives (pure a) s a s := rfl

theorem gives_get (s : σ) : Gives get s s s := rfl

theorem gives_modify (f : σ → σ) (s : σ) : Gives (modify f) s () (f s) := rfl

theorem gives_lift {x : Except Error α} {a : α} (h : x = .ok a) (s : σ) :
    Gives (liftM x) s a s := by
  subst h
  rfl

theorem Gives.bind {x : StateT σ (Except Error) α} {f : α → StateT σ (Except Error) β}
    {s s' s'' : σ} {a : α} {b : β} (hx : Gives x s a s') (hf : Gives (f a) s' b s'') :
    Gives (x >>= f) s b s'' := by
  unfold Gives at *
  rw [StateT.run_bind, hx]
  exact hf

theorem gives_bind_iff {x : StateT σ (Except Error) α} {f : α → StateT σ (Except Error) β}
    {s s'' : σ} {b : β} :
    Gives (x >>= f) s b s'' ↔ ∃ a s', Gives x s a s' ∧ Gives (f a) s' b s'' := by
  constructor
  · intro h
    unfold Gives at h
    rw [StateT.run_bind] at h
    cases hx : x.run s with
    | error e => rw [hx] at h; cases h
    | ok result =>
        rw [hx] at h
        exact ⟨result.1, result.2, hx, h⟩
  · rintro ⟨a, s', hx, hf⟩
    exact hx.bind hf

/-- A step gives one result. -/
theorem Gives.unique {x : StateT σ (Except Error) α} {s s' s'' : σ} {a a' : α}
    (h : Gives x s a s') (h' : Gives x s a' s'') : a = a' ∧ s' = s'' := by
  have heq : (a, s') = (a', s'') := Except.ok.inj (h.symm.trans h')
  exact ⟨congrArg Prod.fst heq, congrArg Prod.snd heq⟩

/-- Behind a step that gives something, nothing is given. -/
theorem Gives.not_bind {x : StateT σ (Except Error) α} {f : α → StateT σ (Except Error) β}
    {s s' : σ} {a : α} (h : Gives x s a s') (hf : ∀ b s'', ¬ Gives (f a) s' b s'') (b : β)
    (s'' : σ) : ¬ Gives (x >>= f) s b s'' := by
  intro hboth
  obtain ⟨a', t, hx, hb⟩ := gives_bind_iff.mp hboth
  obtain ⟨rfl, rfl⟩ := h.unique hx
  exact hf b s'' hb

/-! ## What comes of a step -/

/-- The step gives something with a property. If `fails`, it may give nothing instead. -/
def Comes (fails : Prop) (x : StateT σ (Except Error) α) (s : σ) (Q : α → σ → Prop) : Prop :=
  (∃ a s', Gives x s a s' ∧ Q a s') ∨ (fails ∧ ∀ a s', ¬ Gives x s a s')

section Comes

variable {fails : Prop} {x : StateT σ (Except Error) α}
  {f : α → StateT σ (Except Error) β} {s s' : σ} {a : α} {Q : α → σ → Prop} {R : β → σ → Prop}

theorem Gives.comes (h : Gives x s a s') (ha : Q a s') : Comes fails x s Q := .inl ⟨a, s', h, ha⟩

theorem Comes.bind (h : Comes fails x s Q) (hf : ∀ a s', Q a s' → Comes fails (f a) s' R) :
    Comes fails (x >>= f) s R := by
  rcases h with ⟨a, s', hx, ha⟩ | ⟨hfails, hnot⟩
  · rcases hf a s' ha with ⟨b, s'', hb, hR⟩ | ⟨hfails, hnot⟩
    · exact .inl ⟨b, s'', hx.bind hb, hR⟩
    · exact .inr ⟨hfails, hx.not_bind hnot⟩
  · refine .inr ⟨hfails, fun b s'' hboth => ?_⟩
    obtain ⟨a, s', hx, -⟩ := gives_bind_iff.mp hboth
    exact hnot a s' hx

/-- Behind a step that gives something. -/
theorem Gives.comes_bind (h : Gives x s a s') (hf : Comes fails (f a) s' R) :
    Comes fails (x >>= f) s R :=
  Comes.bind (h.comes (Q := fun b t => b = a ∧ t = s') ⟨rfl, rfl⟩) fun _ _ ⟨hb, ht⟩ =>
    hb ▸ ht ▸ hf

/-- What the step gives has the property. -/
theorem Comes.of_gives (h : Comes fails x s Q) (hx : Gives x s a s') : Q a s' := by
  rcases h with ⟨b, t, hgives, hb⟩ | ⟨-, hnot⟩
  · obtain ⟨rfl, rfl⟩ := hgives.unique hx
    exact hb
  · exact absurd hx (hnot a s')

/-- The step gives something if it does not fail. -/
theorem Comes.exists_gives (h : Comes False x s Q) : ∃ a s', Gives x s a s' ∧ Q a s' :=
  h.resolve_right fun hfails => hfails.1

end Comes

/-! ## What steps uphold -/

/-- Started in a state with the property `I`, the step leaves one with it and gives something with
the property `P`, or it fails by a cause of the kind `E`. -/
def Upholds (I : σ → Prop) (E : Error → Prop) (P : α → Prop)
    (x : StateT σ (Except Error) α) : Prop :=
  ∀ s, I s → (∀ a s', Gives x s a s' → I s' ∧ P a) ∧ ∀ e, x.run s = .error e → E e

/-- The property that everything has. -/
def anything (_ : α) : Prop := True

@[grind .] theorem anything_of (a : α) : anything a := trivial

namespace Upholds

variable {I : σ → Prop} {E : Error → Prop} {P : α → Prop} {Q : β → Prop}

/-- A result that does not depend on the state. -/
theorem liftM {x : Except Error α} (hok : ∀ a, x = .ok a → P a)
    (herror : ∀ e, x = .error e → E e) :
    Upholds I E P (liftM x : StateT σ (Except Error) α) := by
  intro s hs
  cases x with
  | error e =>
      refine ⟨nofun, fun e' h => ?_⟩
      cases h
      exact herror e rfl
  | ok a =>
      refine ⟨fun b s' h => ?_, nofun⟩
      cases h
      exact ⟨hs, hok a rfl⟩

theorem pure_of {a : α} (ha : P a) : Upholds I E P (Pure.pure a) := by
  refine fun s hs => ⟨fun b s' h => ?_, nofun⟩
  cases h
  exact ⟨hs, ha⟩

@[grind .] theorem pure (a : α) : Upholds I E anything (Pure.pure a) := pure_of trivial

@[grind .] theorem throw {e : Error} (he : E e) :
    Upholds I E P (MonadExcept.throw e : StateT σ (Except Error) α) := by
  refine fun s hs => ⟨nofun, fun e' h => ?_⟩
  cases h
  exact he

theorem mono {P' : α → Prop} {x : StateT σ (Except Error) α} (hx : Upholds I E P x)
    (h : ∀ a, P a → P' a) : Upholds I E P' x := by
  intro s hs
  obtain ⟨hgives, hfails⟩ := hx s hs
  refine ⟨fun a s' ha => ?_, hfails⟩
  obtain ⟨hs', hP⟩ := hgives a s' ha
  exact ⟨hs', h a hP⟩

theorem weaken {x : StateT σ (Except Error) α} (hx : Upholds I E P x) : Upholds I E anything x :=
  hx.mono fun _ _ => trivial

theorem bind_of {x : StateT σ (Except Error) α} {f : α → StateT σ (Except Error) β}
    (hx : Upholds I E P x) (hf : ∀ a, P a → Upholds I E Q (f a)) : Upholds I E Q (x >>= f) := by
  intro s hs
  obtain ⟨hgives, hfails⟩ := hx s hs
  constructor
  · intro b s'' h
    obtain ⟨a, s', ha, hb⟩ := gives_bind_iff.mp h
    obtain ⟨hs', hP⟩ := hgives a s' ha
    exact (hf a hP s' hs').1 b s'' hb
  · intro e h
    rw [StateT.run_bind] at h
    cases hrun : x.run s with
    | error e' =>
        rw [hrun] at h
        cases h
        exact hfails e hrun
    | ok result =>
        rw [hrun] at h
        obtain ⟨hs', hP⟩ := hgives result.1 result.2 hrun
        exact (hf result.1 hP result.2 hs').2 e h

@[grind .] theorem bind {x : StateT σ (Except Error) α} {f : α → StateT σ (Except Error) β}
    (hx : Upholds I E anything x) (hf : ∀ a, Upholds I E Q (f a)) : Upholds I E Q (x >>= f) :=
  hx.bind_of fun a _ => hf a

@[grind .] theorem get_bind {f : σ → StateT σ (Except Error) β}
    (hf : ∀ s, I s → Upholds I E Q (f s)) : Upholds I E Q (get >>= f) :=
  fun s hs => hf s hs s hs

@[grind .] theorem modifyGet {f : σ → α × σ} (hf : ∀ s, I s → I (f s).2) :
    Upholds I E anything (modifyGet f : StateT σ (Except Error) α) := by
  refine fun s hs => ⟨fun a s' h => ?_, nofun⟩
  have hpair : f s = (a, s') := Except.ok.inj h
  exact ⟨by simpa [hpair] using hf s hs, trivial⟩

@[grind .] theorem modify {f : σ → σ} (hf : ∀ s, I s → I (f s)) :
    Upholds I E anything (modify f : StateT σ (Except Error) PUnit) := modifyGet hf

@[grind .] theorem set {s : σ} (hs : I s) :
    Upholds I E anything (set s : StateT σ (Except Error) PUnit) := modifyGet fun _ _ => hs

@[grind .] theorem map {x : StateT σ (Except Error) α} (f : α → β) (hx : Upholds I E anything x) :
    Upholds I E anything (f <$> x) := by
  rw [map_eq_pure_bind]
  exact hx.bind fun _ => .pure _

theorem mapM_of {f : α → StateT σ (Except Error) β} {xs : List α} (hf : ∀ a, Upholds I E Q (f a)) :
    Upholds I E (fun bs => ∀ b ∈ bs, Q b) (xs.mapM f) := by
  induction xs with
  | nil => exact pure_of (by simp)
  | cons x xs ih =>
      rw [List.mapM_cons]
      exact (hf x).bind_of fun b hb => ih.bind_of fun bs hbs =>
        pure_of (List.forall_mem_cons.mpr ⟨hb, hbs⟩)

@[grind .] theorem mapM {f : α → StateT σ (Except Error) β} {xs : List α}
    (hf : ∀ a, Upholds I E anything (f a)) : Upholds I E anything (xs.mapM f) := (mapM_of hf).weaken

@[grind .] theorem forM {f : α → StateT σ (Except Error) PUnit} {xs : List α}
    (hf : ∀ a, Upholds I E anything (f a)) : Upholds I E anything (xs.forM f) := by
  induction xs with
  | nil => exact pure _
  | cons x xs ih => exact .bind (hf x) fun _ => ih

end Upholds

/-- What is given of every item of a list is in the list of what is given of all. -/
theorem forall_of_gives_mapM {f : α → StateT σ (Except Error) β} {P : β → Prop}
    (hf : ∀ a s b s', Gives (f a) s b s' → P b) {xs : List α} {s s' : σ} {bs : List β}
    (h : Gives (xs.mapM f) s bs s') : ∀ b ∈ bs, P b := by
  have hall : Upholds (anything : σ → Prop) anything (fun bs => ∀ b ∈ bs, P b) (xs.mapM f) :=
    .mapM_of fun a s _ => ⟨fun b s' hb => ⟨trivial, hf a s b s' hb⟩, fun _ _ => trivial⟩
  exact ((hall s trivial).1 bs s' h).2

end ApiManifest
