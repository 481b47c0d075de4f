import ApiManifest.Proofs.Likeness
import ApiManifest.Proofs.Untouched

/-!
# Definitions that mirror each other

The definitions of a resource are made from the store as it is, and leave it so. If the generator
does not remember what it was asked, they are the same in every world with this store; and resources
that cannot be told apart have definitions that cannot be told apart either. Both are one statement
about two runs, with equality for the relation in the first case.
-/

namespace ApiManifest

/-! ## Related parts of a document -/

namespace Node

mutual

/-- Parts of one form whose leaves are related. -/
def Like (R : Value → Value → Prop) : Node → Node → Prop
  | .leaf v, .leaf v' => R v v'
  | .list xs, .list ys => LikeItems R xs ys
  | .map fields, .map fields' => LikeFields R fields fields'
  | _, _ => False

/-- Items that are related one by one. -/
def LikeItems (R : Value → Value → Prop) : List Node → List Node → Prop
  | [], [] => True
  | x :: xs, y :: ys => Like R x y ∧ LikeItems R xs ys
  | _, _ => False

/-- Fields of the same names that are related one by one. -/
def LikeFields (R : Value → Value → Prop) : List (String × Node) → List (String × Node) → Prop
  | [], [] => True
  | (name, x) :: rest, (name', x') :: rest' =>
    name = name' ∧ Like R x x' ∧ LikeFields R rest rest'
  | _, _ => False

end

mutual

theorem Like.refl {R : Value → Value → Prop} (hR : ∀ v, R v v) : ∀ x : Node, Like R x x
  | .leaf v => hR v
  | .list xs => LikeItems.refl hR xs
  | .map fields => LikeFields.refl hR fields

theorem LikeItems.refl {R : Value → Value → Prop} (hR : ∀ v, R v v) :
    ∀ xs : List Node, LikeItems R xs xs
  | [] => trivial
  | x :: xs => ⟨Like.refl hR x, LikeItems.refl hR xs⟩

theorem LikeFields.refl {R : Value → Value → Prop} (hR : ∀ v, R v v) :
    ∀ fields : List (String × Node), LikeFields R fields fields
  | [] => trivial
  | (_, x) :: rest => ⟨rfl, Like.refl hR x, LikeFields.refl hR rest⟩

end

mutual

/-- Equal leaves make equal parts. -/
theorem Like.eq : ∀ {x y : Node}, Like Eq x y → x = y
  | .leaf _, .leaf _, h => congrArg leaf h
  | .list _, .list _, h => congrArg list (LikeItems.eq h)
  | .map _, .map _, h => congrArg map (LikeFields.eq h)

theorem LikeItems.eq : ∀ {xs ys : List Node}, LikeItems Eq xs ys → xs = ys
  | [], [], _ => rfl
  | _ :: _, _ :: _, h => by rw [Like.eq h.1, LikeItems.eq h.2]

theorem LikeFields.eq : ∀ {fields fields' : List (String × Node)},
    LikeFields Eq fields fields' → fields = fields'
  | [], [], _ => rfl
  | (_, _) :: _, (_, _) :: _, h => by rw [h.1, Like.eq h.2.1, LikeFields.eq h.2.2]

end

mutual

/-- Related parts have one tree. -/
theorem Like.tree {R : Value → Value → Prop} {st : Store} (hR : st.Likeness R) :
    ∀ {x y : Node}, Like R x y → x.tree st = y.tree st
  | .leaf _, .leaf _, h => hR.tree h
  | .list _, .list _, h => congrArg Tree.list (LikeItems.trees hR h)
  | .map _, .map _, h => congrArg Tree.map (LikeFields.entries hR h)

theorem LikeItems.trees {R : Value → Value → Prop} {st : Store} (hR : st.Likeness R) :
    ∀ {xs ys : List Node}, LikeItems R xs ys → trees st xs = trees st ys
  | [], [], _ => rfl
  | _ :: _, _ :: _, h => by
      rw [Node.trees, Node.trees, Like.tree hR h.1, LikeItems.trees hR h.2]

theorem LikeFields.entries {R : Value → Value → Prop} {st : Store} (hR : st.Likeness R) :
    ∀ {fields fields' : List (String × Node)},
      LikeFields R fields fields' → entries st fields = entries st fields'
  | [], [], _ => rfl
  | (_, _) :: _, (_, _) :: _, h => by
      rw [Node.entries, Node.entries, h.1, Like.tree hR h.2.1, LikeFields.entries hR h.2.2]

end

theorem LikeFields.append {R : Value → Value → Prop} {fields fields' more more' : Fields Node}
    (h : LikeFields R fields fields') (hmore : LikeFields R more more') :
    LikeFields R (fields ++ more) (fields' ++ more') := by
  match fields, fields', h with
  | [], [], _ => exact hmore
  | (_, _) :: _, (_, _) :: _, h => exact ⟨h.1, h.2.1, LikeFields.append h.2.2 hmore⟩

end Node

/-! ## Two runs -/

variable {σ α β γ δ : Type} {st : Store}

/-- From all worlds with this store both steps fail, or both return, and what they return is
related. They leave the store as it is. -/
def Mirrors (st : Store) (Q : α → β → Prop) (step : Run σ α) (step' : Run σ β) : Prop :=
  ∀ w w' : World σ, w.store = st → w'.store = st →
    (outcome step w).2.store = st ∧ (outcome step' w').2.store = st ∧
      ResultLike Q (outcome step w).1 (outcome step' w').1

theorem mirrors_pure {Q : α → β → Prop} {a : α} {b : β} (h : Q a b) :
    Mirrors st Q (pure a : Run σ α) (pure b : Run σ β) :=
  fun _ _ hw hw' => ⟨hw, hw', .ok h⟩

theorem mirrors_tell (records records' : List Log.Record) :
    Mirrors st (fun _ _ => True) (Run.tell records : Run σ Unit) (Run.tell records') :=
  fun _ _ hw hw' => ⟨hw, hw', .ok trivial⟩

theorem mirrors_get :
    Mirrors st (fun w w' : World σ => w.store = st ∧ w'.store = st) get get :=
  fun _ _ hw hw' => ⟨hw, hw', .ok ⟨hw, hw'⟩⟩

theorem mirrors_reading {Q : α → β → Prop} {read : Store → Except Error α}
    {read' : Store → Except Error β} (h : ResultLike Q (read st) (read' st)) :
    Mirrors st Q (Run.reading read : Run σ α) (Run.reading read') := by
  intro w w' hw hw'
  rw [Run.outcome_reading, Run.outcome_reading]
  refine ⟨hw, hw', ?_⟩
  rw [hw, hw']
  exact h

/-- What follows may rely on what the first steps return. -/
theorem Mirrors.bind {Q : α → β → Prop} {P : γ → δ → Prop} {x : Run σ α} {y : Run σ β}
    {f : α → Run σ γ} {g : β → Run σ δ} (h : Mirrors st Q x y)
    (hf : ∀ a b, Q a b → Mirrors st P (f a) (g b)) : Mirrors st P (x >>= f) (y >>= g) := by
  intro w w' hw hw'
  obtain ⟨hs, hs', hresult⟩ := h w w' hw hw'
  rw [outcome_bind, outcome_bind]
  rcases hx : outcome x w with ⟨a, v⟩
  rcases hy : outcome y w' with ⟨b, v'⟩
  rw [hx] at hs hresult
  rw [hy] at hs' hresult
  cases hresult with
  | ok hab => exact hf _ _ hab v v' hs hs'
  | error e e' => exact ⟨hs, hs', .error e e'⟩

/-- What a generator answers does not depend on what it was asked before. -/
def Generator.Forgetful (g : Generator σ) (st : Store) : Prop :=
  ∀ key s s', (g.ask st key s).result = (g.ask st key s').result

theorem mirrors_ask {g : Generator σ} (hg : g.Forgetful st) (key : String) :
    Mirrors st Eq (Run.ask g key) (Run.ask g key) := by
  intro w w' hw hw'
  have hresult : ∀ v : World σ, v.store = st →
      (outcome (Run.ask g key) v).1 = (g.ask st key w.examples).result := by
    intro v hv
    rw [hg key w.examples v.examples]
    unfold Run.ask
    rw [outcome_bind, outcome_get]
    dsimp only
    rw [outcome_bind, outcome_set]
    dsimp only
    rw [hv]
    cases (g.ask st key v.examples).result <;> rfl
  refine ⟨(untouched_ask g key (w := w)).trans hw, (untouched_ask g key (w := w')).trans hw', ?_⟩
  rw [hresult w hw, hresult w' hw']
  exact ResultLike.refl (fun _ => rfl) _

/-! ## Definitions -/

namespace Definition

variable {R : Value → Value → Prop} {generator : Option (Generator σ)} {options : Options}
  (hR : st.Likeness R) (hg : ∀ g, generator = some g → g.Forgetful st)

theorem likeFields_optional {name : String} {part part' : Option Node}
    (h : Option.Rel (Node.Like R) part part') :
    Node.LikeFields R (optional name part) (optional name part') := by
  cases h with
  | some hpart => exact ⟨rfl, hpart, trivial⟩
  | none => trivial

include hR

theorem descriptionOf_like {p p' : Property} (h : p.Like R p') (resource name : String) :
    Node.Like R (descriptionOf st resource name p) (descriptionOf st resource name p') := by
  unfold descriptionOf
  rw [hR.holds h.description]
  split
  · exact h.description
  · exact hR.refl _

theorem schemaWith_like {p p' : Property} (h : p.Like R p') {example? example?' : Option Node}
    (hexample : Option.Rel (Node.Like R) example? example?') (resource name : String) :
    Node.Like R (schemaWith st resource name p options example?)
      (schemaWith st resource name p' options example?') := by
  have hvalidator : Option.Rel (Node.Like R)
      ((if options.validators then p.validatorOr (DataType.ofName p.type).validator else none).map
        Node.text)
      ((if options.validators then p'.validatorOr (DataType.ofName p'.type).validator
        else none).map Node.text) := by
    rw [h.type, h.validatorOr hR]
    generalize (if options.validators then _ else none : Option String) = validator
    cases validator with
    | none => exact .none
    | some text => exact .some (hR.refl _)
  unfold schemaWith
  refine Node.LikeFields.append (Node.LikeFields.append ?_ (likeFields_optional hexample))
    (likeFields_optional hvalidator)
  rw [h.type]
  exact ⟨rfl, hR.refl _, rfl, descriptionOf_like hR h resource name, trivial⟩

include hg

theorem mirrors_exampleOf {p p' : Property} (h : p.Like R p') :
    Mirrors st (Option.Rel (Node.Like R)) (exampleOf generator p) (exampleOf generator p') := by
  have hshown : ∀ v v', R v v' → Mirrors (σ := σ) st (Option.Rel (Node.Like R))
      (pure (if v = .null then none else some (.leaf v)))
      (pure (if v' = .null then none else some (.leaf v'))) := by
    intro v v' hv
    have hnull := hR.eq_scalar_iff hv .null
    refine mirrors_pure ?_
    by_cases heq : v = .null
    · rw [if_pos heq, if_pos (hnull.mp heq)]
      exact .none
    · rw [if_neg heq, if_neg (mt hnull.mpr heq)]
      exact .some hv
  unfold exampleOf
  dsimp only
  rcases hR.scalar_or_object h.example? with ⟨s, hs, hs'⟩ | ⟨i, j, hi, hj, _⟩
  · rw [hs, hs', h.type]
    cases s with
    | null =>
        cases generator with
        | none => exact (mirrors_pure (hR.refl _)).bind hshown
        | some g =>
            exact (mirrors_ask (hg g rfl) _).bind fun v v' heq => hshown v v' (heq ▸ hR.refl v)
    | _ => exact (mirrors_pure (hR.refl _)).bind hshown
  · have hobjects : R (.ref i) (.ref j) := hi ▸ hj ▸ h.example?
    rw [hi, hj]
    exact (mirrors_pure hobjects).bind hshown

theorem mirrors_schema {p p' : Property} (h : p.Like R p') (resource name : String) :
    Mirrors st (Node.Like R) (schema resource name p options generator)
      (schema resource name p' options generator) := by
  unfold schema
  refine (mirrors_tell _ _).bind fun _ _ _ => ?_
  refine mirrors_get.bind fun w w' hstores => ?_
  have hexample : Mirrors st (Option.Rel (Node.Like R)) (shownExample p options generator)
      (shownExample p' options generator) := by
    unfold shownExample
    split
    · exact mirrors_exampleOf hR hg h
    · exact mirrors_pure .none
  refine hexample.bind fun example? example?' hlike => mirrors_pure ?_
  rw [hstores.1, hstores.2]
  exact schemaWith_like hR h hlike resource name

theorem mirrors_schemas (resource : String) {properties properties' : Fields Property}
    (h : PropertiesLike R properties properties') :
    Mirrors st (Node.LikeFields R) (schemas resource options generator properties)
      (schemas resource options generator properties') := by
  induction h with
  | nil => exact mirrors_pure trivial
  | @cons entry entry' rest rest' hentry _ ih =>
      rcases entry with ⟨name, p⟩
      rcases entry' with ⟨name', p'⟩
      obtain ⟨rfl, hp⟩ := hentry
      rw [schemas, schemas]
      exact (mirrors_schema hR hg hp resource name).bind fun part part' hpart =>
        ih.bind fun more more' hmore => mirrors_pure ⟨rfl, hpart, hmore⟩

omit hR hg in
theorem requiredNames_like {properties properties' : Fields Property}
    (h : PropertiesLike R properties properties') :
    requiredNames properties = requiredNames properties' := by
  unfold requiredNames Fields.names
  induction h with
  | nil => rfl
  | @cons entry entry' rest rest' hentry _ ih =>
      rcases entry with ⟨name, p⟩
      rcases entry' with ⟨name', p'⟩
      obtain ⟨rfl, hp⟩ := hentry
      have hrequired : p.required = p'.required := hp.required
      simp only [List.filter_cons, hrequired]
      split
      · exact congrArg (name :: ·) ih
      · exact ih

theorem mirrors_build (resource : String) {declared declared' : Value} (h : R declared declared') :
    Mirrors st (Node.Like R) (build resource declared options generator)
      (build resource declared' options generator) := by
  rw [build, build]
  refine (mirrors_reading (declaredProperties_like hR h)).bind
    fun properties properties' hlike => ?_
  refine (mirrors_schemas hR hg resource hlike).bind fun parts parts' hparts => mirrors_pure ?_
  rw [requiredNames_like hlike]
  exact ⟨rfl, hR.refl _, rfl, Node.LikeItems.refl hR.refl _, rfl, hparts, trivial⟩

end Definition

/-! ## Resources -/

namespace Resource.Like

variable {R : Value → Value → Prop} {r r' : Resource}

theorem operations (h : r.Like R r') : r.operations = r'.operations := by
  unfold Resource.operations
  rw [h.methods]

theorem isReadOnly (h : r.Like R r') : r.isReadOnly = r'.isReadOnly := by
  unfold Resource.isReadOnly
  rw [h.operations, h.markedReadOnly]

/-- The path items of a resource do not depend on its properties. -/
theorem items (h : r.Like R r') (options : Options) (backend : Option Backend) :
    PathItem.items r options backend = PathItem.items r' options backend := by
  obtain ⟨name, path, methods, marked, response, modify⟩ := r
  obtain ⟨_, _, _, _, response', modify'⟩ := r'
  obtain ⟨rfl, rfl, rfl, rfl, _, _⟩ := h
  have hoffer : ∀ ops paths, PathItem.offer ⟨name, path, methods, marked, response, modify⟩ options
      backend ops paths
        = PathItem.offer ⟨name, path, methods, marked, response', modify'⟩ options backend ops
          paths := by
    intro ops
    induction ops with
    | nil => exact fun _ => rfl
    | cons op rest ih =>
        intro paths
        rw [PathItem.offer, PathItem.offer]
        refine congrArg _ (funext fun part => ?_)
        exact ih _
  unfold PathItem.items
  rw [show PathItem.roots ⟨name, path, methods, marked, response, modify⟩
      = PathItem.roots ⟨name, path, methods, marked, response', modify'⟩ from rfl]
  simp only [hoffer]
  rfl

end Resource.Like

/-- **The definitions of related resources are related**, whenever they are made. -/
theorem Definition.mirrors_ofResource {R : Value → Value → Prop} {generator : Option (Generator σ)}
    {options : Options} (hR : st.Likeness R) (hg : ∀ g, generator = some g → g.Forgetful st)
    {r r' : Resource} (h : r.Like R r') :
    Mirrors st (Node.LikeFields R) (ofResource r options generator)
      (ofResource r' options generator) := by
  rw [ofResource, ofResource, h.name, h.isReadOnly]
  refine (mirrors_build hR hg r'.name h.response).bind fun response response' hresponse => ?_
  split
  · exact mirrors_pure ⟨rfl, hresponse, trivial⟩
  · exact (mirrors_build hR hg r'.name h.modify).bind fun modify modify' hmodify =>
      mirrors_pure ⟨rfl, hresponse, rfl, hmodify, trivial⟩

end ApiManifest
