import ApiManifest.Proofs.Silent

/-!
# Builds that write to no object

A document refers to the objects of its manifest, and merging two of its parts merges two such
objects in place: then a build writes to the manifest. This file says when it does not. Merging goes
down from the keys of the definitions, which are made of the names of the resources, and there is no
object anywhere under the paths. So where all names differ, no two objects ever meet, whichever
resources share a path and whichever objects stand in several places of the manifest.

Nothing here asks for the build to return: what fails half way has not written either.
-/

namespace ApiManifest

variable {σ α β : Type}

/-- Whatever it comes to from this world, the step leaves all objects as they are. -/
def Untouched (step : Run σ α) (w : World σ) : Prop := (outcome step w).2.store = w.store

section

variable {w : World σ}

theorem untouched_pure (a : α) : Untouched (pure a : Run σ α) w := rfl

theorem untouched_tell (records : List Log.Record) :
    Untouched (Run.tell records : Run σ Unit) w := rfl

theorem untouched_reading (read : Store → Except Error α) :
    Untouched (Run.reading read : Run σ α) w := by
  unfold Untouched
  rw [Run.outcome_reading]

theorem untouched_ask (generator : Generator σ) (key : String) :
    Untouched (Run.ask generator key) w := by
  unfold Untouched Run.ask
  rw [outcome_bind, outcome_get]
  dsimp only
  rw [outcome_bind, outcome_set]
  dsimp only
  cases (generator.ask w.store key w.examples).result <;> rfl

theorem Untouched.store {step : Run σ α} {a : α} {w' : World σ} (h : Untouched step w)
    (hr : Returns step w a w') : w'.store = w.store := by
  have hout : outcome step w = (.ok a, w') := hr
  unfold Untouched at h
  rw [hout] at h
  exact h

theorem untouched_of_returns {step : Run σ α} {a : α} {w' : World σ} (hr : Returns step w a w')
    (h : w'.store = w.store) : Untouched step w := by
  have hout : outcome step w = (.ok a, w') := hr
  unfold Untouched
  rw [hout]
  exact h

/-- The rest of a sequence matters only where its first step returns. -/
theorem Untouched.bind {x : Run σ α} {f : α → Run σ β} (hx : Untouched x w)
    (hf : ∀ a w', Returns x w a w' → Untouched (f a) w') : Untouched (x >>= f) w := by
  have hfirst := hx
  unfold Untouched at hx ⊢
  rw [outcome_bind]
  rcases hout : outcome x w with ⟨e | a, w'⟩
  · rw [hout] at hx
    exact hx
  · have hrest : (outcome (f a) w').2.store = w'.store := hf a w' hout
    exact hrest.trans (hfirst.store hout)

end

/-! ## Definitions -/

namespace Definition

variable {generator : Option (Generator σ)} {options : Options} {w : World σ}

theorem untouched_exampleOf (property : Property) :
    Untouched (exampleOf generator property) w := by
  unfold exampleOf
  dsimp only
  split
  · exact (untouched_ask _ _).bind fun _ _ _ => untouched_pure _
  · exact (untouched_pure _).bind fun _ _ _ => untouched_pure _

theorem untouched_schema (resource name : String) (property : Property) :
    Untouched (schema resource name property options generator) w := by
  rw [schema]
  refine (untouched_tell _).bind fun _ w₁ _ => ?_
  refine Untouched.bind (show Untouched get w₁ from rfl) fun _ w₂ _ => ?_
  refine Untouched.bind ?_ fun _ _ _ => untouched_pure _
  unfold shownExample
  split
  · exact untouched_exampleOf property
  · exact untouched_pure none

theorem untouched_schemas (resource : String) (properties : Fields Property) :
    Untouched (schemas resource options generator properties) w := by
  induction properties generalizing w with
  | nil => exact untouched_pure []
  | cons entry rest ih =>
      rcases entry with ⟨name, property⟩
      rw [schemas]
      exact (untouched_schema resource name property).bind fun _ _ _ =>
        ih.bind fun _ _ _ => untouched_pure _

theorem untouched_build (resource : String) (declared : Value) :
    Untouched (build resource declared options generator) w := by
  rw [build]
  exact (untouched_reading _).bind fun properties _ _ =>
    (untouched_schemas resource properties).bind fun _ _ _ => untouched_pure _

theorem untouched_ofResource (r : Resource) :
    Untouched (ofResource r options generator) w := by
  rw [ofResource]
  refine (untouched_build r.name r.response).bind fun response w₁ _ => ?_
  split
  · exact untouched_pure _
  · exact (untouched_build r.name r.modify).bind fun _ _ _ => untouched_pure _

end Definition

/-! ## Path items -/

namespace PathItem

theorem untouched_addOperations (r : Resource) (options : Options) (backend : Option Backend)
    (ops : List Operation) (paths : Fields Node) (w : World σ) :
    Untouched (addOperations r options backend ops paths) w := by
  induction ops generalizing paths w with
  | nil => exact untouched_pure paths
  | cons op rest ih =>
      rw [addOperations]
      exact (untouched_tell _).bind fun _ _ _ =>
        (untouched_reading _).bind fun _ w₂ _ => ih _ w₂

theorem untouched_ofResource (r : Resource) (options : Options) (backend : Option Backend)
    (w : World σ) : Untouched (ofResource r options backend) w := by
  rw [ofResource]
  exact (untouched_reading _).bind fun _ _ _ =>
    (untouched_tell _).bind fun _ w₂ _ => untouched_addOperations r options backend _ _ w₂

end PathItem

/-! ## Documents -/

namespace Document

/-- Where nothing meets, fields are merged without writing to objects. -/
theorem untouched_mergeFields {target : Fields Node} {source : List (String × Node)} {w : World σ}
    (h : Node.meetingsFields w.store.isMapping target source = []) :
    Untouched (Run.onStore (Node.mergeFields target source)) w := by
  have hmerge : Returns (Node.mergeFields target source) w.store
      (Node.overlayFields w.store.isMapping target source) w.store := by
    rw [Node.mergeFields_iff, h]
    exact ⟨rfl, rfl⟩
  exact untouched_of_returns (Run.onStore_iff.mpr ⟨w.store, hmerge, rfl⟩) rfl

/-- A resource is added without writing to objects if its definitions have new keys. -/
theorem untouched_addResource {d : Document} {r : Resource} {options : Options}
    {backend : Backend} {generator : Option (Generator σ)} {w : World σ}
    (hresponse : Definition.responseName r.name ∉ d.definitions.names)
    (hrequest : Definition.requestName r.name ∉ d.definitions.names) :
    Untouched (addResource d r options backend generator) w := by
  rw [addResource]
  refine (Definition.untouched_ofResource r).bind fun definitions w₁ hdefs => ?_
  have hnone := Definition.meetingsFields_ofResource hdefs hresponse hrequest w₁.store.isMapping
  refine (untouched_mergeFields hnone).bind fun merged w₂ _ => ?_
  refine (PathItem.untouched_ofResource r options (some backend) w₂).bind fun items w₃ hitems => ?_
  have hplain := PathItem.items_plain (PathItem.items_of_returns hitems).1
  refine (untouched_mergeFields (Node.meetingsFields_plain hplain)).bind fun _ _ _ => ?_
  exact untouched_pure _

/-- The names of declared resources in PascalCase. What cannot be shown as a text is no name. -/
def pascalNames (st : Store) (declared : List (Value × Value)) : List String :=
  declared.filterMap fun model => (st.tree model.1).display.toOption.map Naming.pascalCase

theorem pascalNames_cons {st : Store} {name decl : Value} {rest : List (Value × Value)}
    {text : String} (h : (st.tree name).display = .ok text) :
    pascalNames st ((name, decl) :: rest) = Naming.pascalCase text :: pascalNames st rest := by
  unfold pascalNames
  rw [List.filterMap_cons, h]
  rfl

/-- A resource has the name that it is declared under. -/
theorem display_of_resourceOf {st : Store} {name decl : Value} {r : Resource}
    (h : resourceOf st name decl = .ok r) : (st.tree name).display = .ok r.name := by
  have hentries : ∀ text es, Resource.ofEntries st text es = .ok r → r.name = text := by
    intro text es he
    unfold Resource.ofEntries at he
    cases hpath : Resource.pathOf st es with
    | error e => rw [hpath] at he; cases he
    | ok path =>
        cases hmethods : Resource.methodsOf st es with
        | error e => rw [hpath, hmethods] at he; cases he
        | ok methods =>
            rw [hpath, hmethods] at he
            cases he
            rfl
  unfold resourceOf at h
  cases htext : (st.tree name).display with
  | error e => rw [htext] at h; cases h
  | ok text =>
      rw [htext] at h
      have hmodel : Resource.ofModel st text decl = .ok r := h
      unfold Resource.ofModel Resource.ofValue at hmodel
      split at hmodel
      · split at hmodel
        · rw [hentries text _ hmodel]
        · cases hmodel
      · rw [hentries text _ hmodel]

/-- No definition has a key of one of the names. -/
def FreeOf (names : List String) (d : Document) : Prop :=
  ∀ name, Naming.pascalCase name ∈ names → Definition.responseName name ∉ d.definitions.names ∧
    Definition.requestName name ∉ d.definitions.names

theorem freeOf_start (names : List String) (baseline : Entries) :
    FreeOf names { baseline } := by
  intro name _
  simp [Fields.names]

/-- **Preserved by every resource** with a name of its own. -/
theorem freeOf_addResource {d d' : Document} {r : Resource} {options : Options}
    {backend : Backend} {generator : Option (Generator σ)} {w w' : World σ} {names : List String}
    (hfree : FreeOf (Naming.pascalCase r.name :: names) d)
    (hname : Naming.pascalCase r.name ∉ names)
    (h : Returns (addResource d r options backend generator) w d' w') : FreeOf names d' := by
  intro name hmem
  obtain ⟨hresponse, hrequest⟩ := hfree name (List.mem_cons_of_mem _ hmem)
  have hne : Naming.pascalCase r.name ≠ Naming.pascalCase name := by
    intro heq
    rw [heq] at hname
    exact hname hmem
  exact ⟨not_mem_names_addResource h (Or.inl rfl) hne hresponse,
    not_mem_names_addResource h (Or.inr rfl) hne hrequest⟩

/-- **The step.** A resource that has been added, with a name of its own, has changed no object, so
that the names of those behind it are what they were, and their keys are free. -/
theorem addResource_of_names {options : Options} {backend : Backend}
    {generator : Option (Generator σ)} {name decl : Value} {rest : List (Value × Value)}
    {d d₁ : Document} {r : Resource} {w v w₁ : World σ}
    (hnames : (pascalNames w.store ((name, decl) :: rest)).Nodup)
    (hfree : FreeOf (pascalNames w.store ((name, decl) :: rest)) d)
    (hread : resourceOf w.store name decl = .ok r)
    (hadd : Returns (addResource d r options backend generator) v d₁ w₁)
    (hstore : v.store = w.store) :
    w₁.store = w.store ∧ (pascalNames w₁.store rest).Nodup ∧
      FreeOf (pascalNames w₁.store rest) d₁ := by
  rw [pascalNames_cons (display_of_resourceOf hread)] at hnames hfree
  obtain ⟨hname, hrest⟩ := List.nodup_cons.mp hnames
  obtain ⟨hresponse, hrequest⟩ := hfree r.name List.mem_cons_self
  have hsame : w₁.store = w.store :=
    ((untouched_addResource hresponse hrequest).store hadd).trans hstore
  rw [hsame]
  exact ⟨rfl, hrest, freeOf_addResource hfree hname hadd⟩

/-- **The run.** Resources with names of their own are added without writing to objects. -/
theorem untouched_addModels {options : Options} {backend : Backend}
    {generator : Option (Generator σ)} {declared : List (Value × Value)} {d : Document}
    {w : World σ} (hnames : (pascalNames w.store declared).Nodup)
    (hfree : FreeOf (pascalNames w.store declared) d) :
    Untouched (addModels options backend generator declared d) w := by
  induction declared generalizing d w with
  | nil => exact untouched_pure d
  | cons model rest ih =>
      rcases model with ⟨name, decl⟩
      rw [addModels]
      refine Untouched.bind (show Untouched get w from rfl) fun w₁ _ hget => ?_
      obtain ⟨rfl, rfl⟩ := Returns.get_iff.mp hget
      refine (untouched_tell _).bind fun _ w₁ htell => ?_
      have hstore : w₁.store = w.store := (Run.onlyLogs_of_tell htell).store
      refine (untouched_reading _).bind fun r w₂ hread => ?_
      obtain ⟨hr, rfl⟩ := Run.reading_iff.mp hread
      have hresource : resourceOf w.store name decl = .ok r := by
        rw [← hstore]
        exact hr
      have hkeys := hfree r.name (by
        rw [pascalNames_cons (display_of_resourceOf hresource)]
        exact List.mem_cons_self)
      refine (untouched_addResource hkeys.1 hkeys.2).bind fun d₁ w₂ hd₁ => ?_
      obtain ⟨-, hrest, hfree'⟩ := addResource_of_names hnames hfree hresource hd₁ hstore
      exact ih hrest hfree'

/-- The resources that a manifest declares, as the store is. -/
def declaredResources (st : Store) (manifest : Value) : Except Error (List Resource) := do
  (← declarations st manifest).mapM fun model => resourceOf st model.1 model.2

/-- What is not written to is read as it was declared. -/
theorem resources_of_assembles {options : Options} {backend : Backend}
    {generator : Option (Generator σ)} {declared : List (Value × Value)} {d d' : Document}
    {w w' : World σ} {rs : List Resource} (hnames : (pascalNames w.store declared).Nodup)
    (hfree : FreeOf (pascalNames w.store declared) d)
    (h : Assembles options backend generator declared d w rs d' w') :
    declared.mapM (fun model => resourceOf w.store model.1 model.2) = .ok rs := by
  induction h with
  | done => rfl
  | next hread hadd _ ih =>
      obtain ⟨hsame, hrest, hfree'⟩ := addResource_of_names hnames hfree hread hadd rfl
      have hrs := ih hrest hfree'
      rw [hsame] at hrs
      rw [List.mapM_cons, hread, hrs]
      rfl

/-- A build reads the resources as they are declared, if their names differ in PascalCase. -/
theorem resources_of_builds {manifest : Value} {options : Options}
    {generator : Option (Generator σ)} {w w' : World σ} {rs : List Resource} {d : Document}
    (hnames : ∀ declared, declarations w.store manifest = .ok declared →
      (pascalNames w.store declared).Nodup)
    (h : Builds manifest options generator w rs d w') :
    declaredResources w.store manifest = .ok rs := by
  obtain ⟨baseline, backend, declared, _, _, _, hdeclared, hassembles, _⟩ := h
  unfold declaredResources
  rw [hdeclared]
  exact resources_of_assembles (hnames declared hdeclared) (freeOf_start _ _) hassembles

/-- What holds of the resources that are declared holds of those that a build reads, if their names
differ. Both can be computed. -/
theorem check_of_builds (check : List Resource → Bool) {manifest : Value} {options : Options}
    {generator : Option (Generator σ)} {w w' : World σ} {rs : List Resource} {d : Document}
    (hnames : (declarations w.store manifest).toOption.all
      (fun declared => decide (pascalNames w.store declared).Nodup) = true)
    (hcheck : (declaredResources w.store manifest).toOption.all check = true)
    (h : Builds manifest options generator w rs d w') : check rs = true := by
  have hread : declaredResources w.store manifest = .ok rs := by
    refine resources_of_builds (fun declared hdeclared => ?_) h
    rw [hdeclared] at hnames
    exact of_decide_eq_true hnames
  rw [hread] at hcheck
  exact hcheck

/--
**A build writes to no object** if the names of the declared resources differ in PascalCase.

Whether it returns or fails, the store is the same afterwards: all objects of the manifest and all
values that a generator hands out have the contents that they had, in the same order.
-/
theorem build_leaves_objects {manifest : Value} {options : Options}
    {generator : Option (Generator σ)} {w : World σ}
    (hnames : ∀ declared, declarations w.store manifest = .ok declared →
      (pascalNames w.store declared).Nodup) :
    (outcome (build manifest options generator) w).2.store = w.store := by
  have hbuild : Untouched (build manifest options generator) w := by
    rw [build]
    refine (untouched_reading _).bind fun baseline w₁ hbaseline => ?_
    obtain ⟨_, rfl⟩ := Run.reading_iff.mp hbaseline
    refine (untouched_reading _).bind fun backend w₁ hbackend => ?_
    obtain ⟨_, rfl⟩ := Run.reading_iff.mp hbackend
    refine (untouched_reading _).bind fun declared w₁ hread => ?_
    obtain ⟨hdeclared, rfl⟩ := Run.reading_iff.mp hread
    refine (untouched_addModels (hnames declared hdeclared) (freeOf_start _ _)).bind fun _ _ _ => ?_
    exact (untouched_tell _).bind fun _ _ _ => untouched_pure _
  exact hbuild

/-- A manifest with two resources of one path, whose answers and requests have one property in
common: its example is also its description, and what the fixed generator at 7 hands out. -/
def entwinedStore : Store where
  cells := #[
    .map [(.text "a", .scalar (.int 1))],
    .map [(.text "example", .ref 0), (.text "description", .ref 0)],
    .map [(.text "p", .ref 1), (.text "q", .text "uuid")],
    .map [(.text "path", .text "/x/\x7bid\x7d"), (.text "response", .ref 2),
      (.text "modify", .ref 2)],
    .map [(.text "path", .text "x/\x7bid:uuid\x7d"), (.text "response", .ref 2),
      (.text "modify", .ref 2)],
    .map [(.text "x-y", .ref 3), (.text "xy", .ref 4)],
    .map [(.text "models", .ref 5)],
    .map [(.text "uuid4", .ref 0)]]

/-- The objects of a manifest that shares them in many places. -/
theorem build_leaves_objects_entwined :
    (declarations entwinedStore (.ref 6)).toOption.map (pascalNames entwinedStore)
        = some ["XY", "Xy"] ∧
      (outcome (build (.ref 6) {} (some (.fixed (.ref 7) : Generator Unit)))
        { store := entwinedStore, examples := () }).1.toOption.isSome = true ∧
      (outcome (build (.ref 6) {} (some (.fixed (.ref 7) : Generator Unit)))
        { store := entwinedStore, examples := () }).2.store = entwinedStore := by
  have hnames : (declarations entwinedStore (.ref 6)).toOption.map (pascalNames entwinedStore)
      = some ["XY", "Xy"] := by decide +kernel
  refine ⟨hnames, ?_, build_leaves_objects fun declared hdeclared => ?_⟩
  · rw [outcome_build_of_silent (by decide +kernel)]
    decide +kernel
  rw [hdeclared] at hnames
  have heq : pascalNames entwinedStore declared = ["XY", "Xy"] := Option.some.inj hnames
  show (pascalNames entwinedStore declared).Nodup
  rw [heq]
  decide

end Document
end ApiManifest
