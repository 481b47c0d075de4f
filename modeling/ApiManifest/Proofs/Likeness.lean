import ApiManifest.Proofs.Rereading

/-!
# Values that cannot be told apart

Two manifests may be equal without being one: each of them has objects of its own. What is read from
two such manifests is equal in turn, and refers to objects that cannot be told apart either. This
file says what that means for values and follows it through everything that is read from a manifest:
a relation between objects that leads from every pair to pairs of parts.
-/

namespace ApiManifest

variable {R : Value → Value → Prop} {st : Store}

/-! ## Related objects -/

/-- Entries whose keys and values are related one by one. -/
def EntriesLike (R : Value → Value → Prop) : List (Value × Value) → List (Value × Value) → Prop :=
  List.Forall₂ fun e e' => R e.1 e'.1 ∧ R e.2 e'.2

/-- Contents of one kind whose parts are related one by one. -/
inductive CellLike (R : Value → Value → Prop) : Cell → Cell → Prop where
  | date (d : Date) : CellLike R (.date d) (.date d)
  | dateTime (t : DateTime) : CellLike R (.dateTime t) (.dateTime t)
  | list {xs ys : List Value} : List.Forall₂ R xs ys → CellLike R (.list xs) (.list ys)
  | tuple {xs ys : List Value} : List.Forall₂ R xs ys → CellLike R (.tuple xs) (.tuple ys)
  | set {xs ys : List Value} : List.Forall₂ R xs ys → CellLike R (.set xs) (.set ys)
  | map {es es' : List (Value × Value)} : EntriesLike R es es' → CellLike R (.map es) (.map es')

/-- The relation holds between values that cannot be told apart: between every value and itself, and
else between objects with related contents only. -/
structure Store.Likeness (st : Store) (R : Value → Value → Prop) : Prop where
  refl : ∀ v, R v v
  cases : ∀ v v', R v v' → v = v' ∨
    ∃ i j, v = .ref i ∧ v' = .ref j ∧ Option.Rel (CellLike R) st.cells[i]? st.cells[j]?

/-- Nothing is less alike than what is equal. -/
theorem Store.likeness_eq (st : Store) : st.Likeness Eq where
  refl _ := rfl
  cases _ _ h := Or.inl h

theorem forall₂_refl {α : Type} {Q : α → α → Prop} (h : ∀ a, Q a a) (xs : List α) :
    List.Forall₂ Q xs xs := by
  induction xs with
  | nil => exact .nil
  | cons x rest ih => exact .cons (h x) ih

theorem map_eq_of_forall₂ {α β γ : Type} {Q : α → β → Prop} {f : α → γ} {g : β → γ} {xs : List α}
    {ys : List β} (h : List.Forall₂ Q xs ys) (hQ : ∀ x y, Q x y → f x = g y) :
    xs.map f = ys.map g := by
  induction h with
  | nil => rfl
  | cons hxy _ ih => rw [List.map_cons, List.map_cons, hQ _ _ hxy, ih]

namespace Store.Likeness

variable (hR : st.Likeness R)

include hR

theorem cell_refl (cell : Cell) : CellLike R cell cell := by
  cases cell with
  | date d => exact .date d
  | dateTime t => exact .dateTime t
  | list items => exact .list (forall₂_refl hR.refl items)
  | tuple items => exact .tuple (forall₂_refl hR.refl items)
  | set items => exact .set (forall₂_refl hR.refl items)
  | map entries => exact .map (forall₂_refl (fun e => ⟨hR.refl e.1, hR.refl e.2⟩) entries)

/-- Related values are one scalar, or two objects with related contents. -/
theorem scalar_or_object {v v' : Value} (h : R v v') : (∃ s, v = .scalar s ∧ v' = .scalar s) ∨
    ∃ i j, v = .ref i ∧ v' = .ref j ∧ Option.Rel (CellLike R) st.cells[i]? st.cells[j]? := by
  rcases hR.cases v v' h with rfl | hobjects
  · cases v with
    | scalar s => exact Or.inl ⟨s, rfl, rfl⟩
    | ref id =>
        refine Or.inr ⟨id, id, rfl, rfl, ?_⟩
        cases st.cells[id]? with
        | none => exact .none
        | some cell => exact .some (hR.cell_refl cell)
  · exact Or.inr hobjects

/-- **Related values have one tree**, at every depth. -/
theorem treeTo {v v' : Value} (h : R v v') (depth : Nat) :
    st.treeTo depth v = st.treeTo depth v' := by
  induction depth generalizing v v' with
  | zero =>
      rcases hR.scalar_or_object h with ⟨s, rfl, rfl⟩ | ⟨i, j, rfl, rfl, _⟩
      · rfl
      · rw [Store.treeTo, Store.treeTo]
  | succ depth ih =>
      rcases hR.scalar_or_object h with ⟨s, rfl, rfl⟩ | ⟨i, j, rfl, rfl, hcells⟩
      · rfl
      · rw [Store.treeTo, Store.treeTo]
        revert hcells
        generalize st.cells[i]? = cell
        generalize st.cells[j]? = cell'
        rintro (hcell | _)
        · cases hcell with
          | date d => rfl
          | dateTime t => rfl
          | list hitems => exact congrArg Tree.list (map_eq_of_forall₂ hitems fun _ _ => ih)
          | tuple hitems => exact congrArg Tree.tuple (map_eq_of_forall₂ hitems fun _ _ => ih)
          | set hitems => exact congrArg Tree.set (map_eq_of_forall₂ hitems fun _ _ => ih)
          | map hentries =>
              refine congrArg Tree.map (map_eq_of_forall₂ hentries fun e e' hentry => ?_)
              exact Prod.ext (ih hentry.1) (ih hentry.2)
        · rfl

theorem tree {v v' : Value} (h : R v v') : st.tree v = st.tree v' := hR.treeTo h _

theorem entries? {v v' : Value} (h : R v v') :
    Option.Rel (EntriesLike R) (st.entries? v) (st.entries? v') := by
  rcases hR.scalar_or_object h with ⟨s, rfl, rfl⟩ | ⟨i, j, rfl, rfl, hcells⟩
  · exact .none
  · unfold Store.entries? Store.cell?
    revert hcells
    dsimp only
    generalize st.cells[i]? = cell
    generalize st.cells[j]? = cell'
    rintro (hcell | _)
    · cases hcell with
      | map hentries => exact .some hentries
      | _ => exact .none
    · exact .none

theorem holds {v v' : Value} (h : R v v') : st.holds v = st.holds v' := by
  rcases hR.scalar_or_object h with ⟨s, rfl, rfl⟩ | ⟨i, j, rfl, rfl, hcells⟩
  · rfl
  · unfold Store.holds Store.cell?
    revert hcells
    dsimp only
    generalize st.cells[i]? = cell
    generalize st.cells[j]? = cell'
    rintro (hcell | _)
    · cases hcell with
      | date | dateTime => rfl
      | list hitems | tuple hitems | set hitems => cases hitems <;> rfl
      | map hentries => cases hentries <;> rfl
    · rfl

/-- Only a scalar is related to a scalar. -/
theorem eq_scalar_iff {v v' : Value} (h : R v v') (s : Scalar) :
    v = .scalar s ↔ v' = .scalar s := by
  rcases hR.scalar_or_object h with ⟨t, rfl, rfl⟩ | ⟨i, j, rfl, rfl, _⟩
  · rfl
  · simp

theorem find?_text {es es' : List (Value × Value)} (h : EntriesLike R es es') (name : String) :
    Option.Rel R (st.find? (.text name) es) (st.find? (.text name) es') := by
  induction h with
  | nil => exact .none
  | @cons entry entry' rest rest' hentry _ ih =>
      unfold Store.find?
      have hkey : st.sameKey (.text name) entry.1 = true ↔
          st.sameKey (.text name) entry'.1 = true := by
        rw [Store.sameKey_text, Store.sameKey_text]
        exact hR.eq_scalar_iff hentry.1 (.text name)
      by_cases hsame : st.sameKey (.text name) entry.1 = true
      · rw [if_pos hsame, if_pos (hkey.mp hsame)]
        exact .some hentry.2
      · rw [if_neg hsame, if_neg (mt hkey.mpr hsame)]
        exact ih

theorem field {es es' : List (Value × Value)} (h : EntriesLike R es es') (name : String) :
    R (st.field es name) (st.field es' name) := by
  have hfound := hR.find?_text h name
  unfold Store.field
  revert hfound
  generalize st.find? (.text name) es = v
  generalize st.find? (.text name) es' = v'
  rintro (hfound | _)
  · exact hfound
  · exact hR.refl .null

end Store.Likeness

/-! ## Related results -/

/-- Both fail, or both give something, and what they give is related. -/
inductive ResultLike {α β : Type} (Q : α → β → Prop) : Except Error α → Except Error β → Prop where
  | ok {a : α} {b : β} (h : Q a b) : ResultLike Q (.ok a) (.ok b)
  | error (e e' : Error) : ResultLike Q (.error e) (.error e')

namespace ResultLike

variable {α β γ δ : Type} {Q : α → β → Prop} {P : γ → δ → Prop}

theorem refl {Q : α → α → Prop} (h : ∀ a, Q a a) (x : Except Error α) : ResultLike Q x x := by
  cases x with
  | error e => exact .error e e
  | ok a => exact .ok (h a)

theorem bind {x : Except Error α} {y : Except Error β} {f : α → Except Error γ}
    {g : β → Except Error δ} (h : ResultLike Q x y)
    (hf : ∀ a b, Q a b → ResultLike P (f a) (g b)) : ResultLike P (x >>= f) (y >>= g) := by
  cases h with
  | ok hab => exact hf _ _ hab
  | error e e' => exact .error e e'

end ResultLike

/-! ## Related properties -/

/-- Properties whose values are related. -/
structure Property.Like (R : Value → Value → Prop) (p p' : Property) : Prop where
  type : p.type = p'.type
  required : p.required = p'.required
  description : R p.description p'.description
  example? : R p.example? p'.example?
  validator : R p.validator p'.validator

/-- Properties of the same names, related one by one. -/
def PropertiesLike (R : Value → Value → Prop) : Fields Property → Fields Property → Prop :=
  List.Forall₂ fun e e' => e.1 = e'.1 ∧ e.2.Like R e'.2

theorem PropertiesLike.put {fields fields' : Fields Property} (h : PropertiesLike R fields fields')
    (name : String) {p p' : Property} (hp : p.Like R p') :
    PropertiesLike R (fields.put name p) (fields'.put name p') := by
  induction h with
  | nil => exact .cons ⟨rfl, hp⟩ .nil
  | @cons entry entry' rest rest' hentry hrest ih =>
      rcases entry with ⟨n, q⟩
      rcases entry' with ⟨n', q'⟩
      obtain ⟨rfl, hq⟩ := hentry
      unfold Fields.put
      by_cases heq : n = name
      · rw [if_pos heq, if_pos heq]
        exact .cons ⟨rfl, hp⟩ hrest
      · rw [if_neg heq, if_neg heq]
        exact .cons ⟨rfl, hq⟩ ih

namespace Property.Like

theorem named {p p' : Property} (h : p.Like R p') (name : String) :
    (p.named name).1 = (p'.named name).1 ∧ (p.named name).2.Like R (p'.named name).2 := by
  unfold Property.named
  split
  · exact ⟨rfl, h.type, rfl, h.description, h.example?, h.validator⟩
  · exact ⟨rfl, h⟩

theorem validatorOr (hR : st.Likeness R) {p p' : Property} (h : p.Like R p')
    (default : Option String) : p.validatorOr default = p'.validatorOr default := by
  unfold Property.validatorOr
  rcases hR.scalar_or_object h.validator with ⟨s, hs, hs'⟩ | ⟨i, j, hi, hj, _⟩
  · rw [hs, hs']
  · rw [hi, hj]

end Property.Like

section

variable (hR : st.Likeness R)

include hR

theorem Property.ofValue_like {decl decl' : Value} (h : R decl decl') :
    ResultLike (Property.Like R) (Property.ofValue st decl) (Property.ofValue st decl') := by
  have hentries := hR.entries? h
  unfold Property.ofValue
  revert hentries
  generalize st.entries? decl = es
  generalize st.entries? decl' = es'
  -- both declarations are mappings with like entries, or both are short for a type
  rintro (@⟨es, es', hentries⟩ | _)
  · have htype := hR.field hentries "type"
    have hrequired : ((st.find? (.text "required") es).map st.holds).getD true
        = ((st.find? (.text "required") es').map st.holds).getD true := by
      have hfound := hR.find?_text hentries "required"
      revert hfound
      generalize st.find? (.text "required") es = v
      generalize st.find? (.text "required") es' = v'
      rintro (hfound | _)
      · exact hR.holds hfound
      · rfl
    have hrest : ∀ type : String, ResultLike (Property.Like R)
        (.ok { type, required := ((st.find? (.text "required") es).map st.holds).getD true,
               description := st.field es "description", example? := st.field es "example",
               validator := st.field es "validator" })
        (.ok { type, required := ((st.find? (.text "required") es').map st.holds).getD true,
               description := st.field es' "description", example? := st.field es' "example",
               validator := st.field es' "validator" }) := fun type =>
      .ok ⟨rfl, hrequired, hR.field hentries _, hR.field hentries _, hR.field hentries _⟩
    dsimp only
    rw [hR.holds htype, hR.tree htype]
    split
    · refine (ResultLike.refl (Q := Eq) (fun _ => rfl) _).bind ?_
      rintro type _ rfl
      exact hrest type
    · exact hrest "string"
  · dsimp only
    rw [hR.tree h]
    refine (ResultLike.refl (Q := Eq) (fun _ => rfl) _).bind ?_
    rintro type _ rfl
    exact .ok ⟨rfl, rfl, hR.refl _, hR.refl _, hR.refl _⟩

theorem declareAll_like {es es' : List (Value × Value)} (h : EntriesLike R es es')
    {properties properties' : Fields Property} (hp : PropertiesLike R properties properties') :
    ResultLike (PropertiesLike R) (declareAll st properties es) (declareAll st properties' es')
    := by
  induction h generalizing properties properties' with
  | nil => exact .ok hp
  | @cons entry entry' rest rest' hentry _ ih =>
      rcases entry with ⟨key, decl⟩
      rcases entry' with ⟨key', decl'⟩
      obtain ⟨hkey, hdecl⟩ := hentry
      unfold declareAll
      rw [hR.tree hkey]
      refine (ResultLike.refl (Q := Eq) (fun _ => rfl) _).bind ?_
      rintro name _ rfl
      refine (Property.ofValue_like hR hdecl).bind fun p p' hproperty => ?_
      obtain ⟨hname, hnamed⟩ := hproperty.named name
      dsimp only
      rw [← hname]
      exact ih (hp.put _ hnamed)

/-- Related values declare related properties. -/
theorem declaredProperties_like {declared declared' : Value} (h : R declared declared') :
    ResultLike (PropertiesLike R) (declaredProperties st declared)
      (declaredProperties st declared') := by
  have hentries := hR.entries? h
  unfold declaredProperties
  rw [hR.holds h]
  by_cases hholds : (!st.holds declared') = true
  · rw [if_pos hholds, if_pos hholds]
    exact .ok .nil
  · rw [if_neg hholds, if_neg hholds]
    revert hentries
    generalize st.entries? declared = es
    generalize st.entries? declared' = es'
    rintro (hentries | _)
    · exact declareAll_like hR hentries .nil
    · exact .error _ _

end

/-! ## Related resources -/

/-- Resources that differ in the objects of their properties only. -/
structure Resource.Like (R : Value → Value → Prop) (r r' : Resource) : Prop where
  name : r.name = r'.name
  path : r.path = r'.path
  methods : r.methods = r'.methods
  markedReadOnly : r.markedReadOnly = r'.markedReadOnly
  response : R r.response r'.response
  modify : R r.modify r'.modify

section

variable (hR : st.Likeness R)

include hR

theorem Resource.ofEntries_like {es es' : List (Value × Value)} (h : EntriesLike R es es')
    (name : String) :
    ResultLike (Resource.Like R) (ofEntries st name es) (ofEntries st name es') := by
  -- the path and the methods are read as trees, and the parts as like values
  have hpath : pathOf st es = pathOf st es' := by
    have hfound := hR.find?_text h "path"
    unfold pathOf
    revert hfound
    generalize st.find? (.text "path") es = v
    generalize st.find? (.text "path") es' = v'
    rintro (hfound | _)
    · exact congrArg Tree.display (hR.tree hfound)
    · rfl
  have hmethods : methodsOf st es = methodsOf st es' := by
    have hfield := hR.field h "methods"
    have htree := hR.tree hfield
    unfold methodsOf
    rcases hR.scalar_or_object hfield with ⟨s, hs, hs'⟩ | ⟨i, j, hi, hj, _⟩
    · rw [hs, hs']
    · rw [hi, hj] at htree ⊢
      exact congrArg itemsOf htree
  have hpart : ∀ part, R (partOf st es part) (partOf st es' part) := by
    intro part
    have hfield := hR.field h part
    unfold partOf
    rw [hR.holds hfield]
    split
    · exact hfield
    · exact hR.refl _
  unfold ofEntries
  rw [hpath, hmethods, hR.holds (hR.field h "readOnly")]
  refine (ResultLike.refl (Q := Eq) (fun _ => rfl) _).bind ?_
  rintro path _ rfl
  refine (ResultLike.refl (Q := Eq) (fun _ => rfl) _).bind ?_
  rintro methods _ rfl
  exact .ok ⟨rfl, rfl, rfl, rfl, hpart _, hpart _⟩

/-- Related declarations describe related resources. -/
theorem resourceOf_like {name name' decl decl' : Value} (hname : R name name')
    (hdecl : R decl decl') : ResultLike (Resource.Like R) (Document.resourceOf st name decl)
      (Document.resourceOf st name' decl') := by
  unfold Document.resourceOf
  rw [hR.tree hname]
  refine (ResultLike.refl (Q := Eq) (fun _ => rfl) _).bind ?_
  rintro text _ rfl
  have hentries := hR.entries? hdecl
  unfold Resource.ofModel Resource.ofValue
  rw [hR.holds hdecl]
  split
  · revert hentries
    generalize st.entries? decl = es
    generalize st.entries? decl' = es'
    rintro (hentries | _)
    · exact Resource.ofEntries_like hR hentries text
    · exact .error _ _
  · exact Resource.ofEntries_like hR .nil text

end

end ApiManifest
