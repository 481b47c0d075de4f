import ApiManifest.Proofs.Independence
import ApiManifest.Proofs.Recognised
import ApiManifest.Proofs.Untouched

/-!
# Builds of trimmed manifests

Null means absent. A build is run on a manifest and on the trimmed one, and every step comes to the
same: the store of the second run is the trimmed store of the first one at any time. For what is
merged in place is in a region that nothing has been trimmed in, and all that is read elsewhere
stays as it was.

Two fields are exceptions. A path of null is a text, and a property that is required to be null is
not required, while without these keys the path is empty and the property required.
-/

namespace ApiManifest

variable {σ α β : Type} {W own : Nat → Prop} {places : Nat → String → Bool}

/-! ## Steps in a trimmed world -/

/-- The world whose store is trimmed. -/
def World.trimmed (places : Nat → String → Bool) (w : World σ) : World σ :=
  { w with store := w.store.trimmed places }

/-- Whether the world is trimmed makes no difference to the step: it returns the same, if it
returns, and leaves the world that it leaves otherwise, but trimmed. -/
def Indifferent (places : Nat → String → Bool) (step : Run σ α) (w : World σ) : Prop :=
  ∀ a v', Returns step (w.trimmed places) a v' ↔ ∃ v, Returns step w a v ∧ v' = v.trimmed places

section

variable {w : World σ}

theorem indifferent_pure (a : α) : Indifferent places (pure a : Run σ α) w := by
  intro b v'
  rw [Returns.pure_iff]
  constructor
  · rintro ⟨rfl, rfl⟩
    exact ⟨w, rfl, rfl⟩
  · rintro ⟨v, hv, rfl⟩
    obtain ⟨rfl, rfl⟩ := Returns.pure_iff.mp hv
    exact ⟨rfl, rfl⟩

theorem indifferent_tell (records : List Log.Record) :
    Indifferent places (Run.tell records : Run σ Unit) w := by
  intro _ v'
  rw [Run.tell_iff]
  constructor
  · rintro rfl
    exact ⟨_, Run.tell_iff.mpr rfl, rfl⟩
  · rintro ⟨v, hv, rfl⟩
    rw [← Run.tell_iff.mp hv]
    rfl

theorem indifferent_reading {read : Store → Except Error α}
    (h : read (w.store.trimmed places) = read w.store) :
    Indifferent places (Run.reading read : Run σ α) w := by
  intro a v'
  rw [Run.reading_iff, World.trimmed, h]
  constructor
  · rintro ⟨hread, rfl⟩
    exact ⟨w, Run.reading_iff.mpr ⟨hread, rfl⟩, rfl⟩
  · rintro ⟨v, hv, rfl⟩
    obtain ⟨hread, rfl⟩ := Run.reading_iff.mp hv
    exact ⟨hread, rfl⟩

theorem indifferent_ask {g : Generator σ}
    (h : ∀ key s, g.ask (w.store.trimmed places) key s = g.ask w.store key s) (key : String) :
    Indifferent places (Run.ask g key) w := by
  intro a v'
  rw [Run.ask_iff]
  unfold World.trimmed
  dsimp only
  rw [h]
  constructor
  · rintro ⟨hresult, rfl⟩
    exact ⟨_, Run.ask_iff.mpr ⟨hresult, rfl⟩, rfl⟩
  · rintro ⟨v, hv, rfl⟩
    obtain ⟨hresult, rfl⟩ := Run.ask_iff.mp hv
    exact ⟨hresult, rfl⟩

/-- The rest of a sequence matters only where its first step returns. -/
theorem Indifferent.bind {x : Run σ α} {f : α → Run σ β} (hx : Indifferent places x w)
    (hf : ∀ a v, Returns x w a v → Indifferent places (f a) v) :
    Indifferent places (x >>= f) w := by
  intro b u'
  rw [Returns.bind_iff]
  constructor
  · rintro ⟨a, v', hfirst, hrest⟩
    obtain ⟨v, hv, rfl⟩ := (hx a v').mp hfirst
    obtain ⟨u, hu, rfl⟩ := (hf a v hv b u').mp hrest
    exact ⟨u, Returns.bind_iff.mpr ⟨a, v, hv, hu⟩, rfl⟩
  · rintro ⟨u, hu, rfl⟩
    obtain ⟨a, v, hv, hrest⟩ := Returns.bind_iff.mp hu
    exact ⟨a, _, (hx a _).mpr ⟨v, hv, rfl⟩, (hf a v hv b _).mpr ⟨u, hrest, rfl⟩⟩

/-- A step that looks at the world comes to the same if it goes on in the same way. -/
theorem indifferent_get {f : World σ → Run σ α} (hsame : f (w.trimmed places) = f w)
    (hf : Indifferent places (f w) w) : Indifferent places (get >>= f) w := by
  have hget : ∀ u : World σ, outcome (get >>= f) u = outcome (f u) u := by
    intro u
    rw [outcome_bind, outcome_get]
  intro a v'
  unfold Returns
  rw [hget, hget, hsame]
  exact hf a v'

end

/-! ## Generators -/

/-- A generator with objects of its own: what it answers stands in them, and depends on nothing
else. -/
structure Generator.Confined (g : Generator σ) (own : Nat → Prop) : Prop where
  answers : g.AnswersFrom own
  looks : ∀ S st st', (∀ root, own root → S root) → st.Closed S → Store.Agree S st st' →
    ∀ key s, g.ask st' key s = g.ask st key s

/-- The generator that answers with the values of a mapping looks at that mapping only. -/
theorem Generator.confined_fixed (examples : Value) :
    (Generator.fixed examples : Generator σ).Confined (examples = .ref ·) where
  answers := answersFrom_fixed examples
  looks S st st' hown _ hagree key s := by
    have hin : examples.In S := by
      cases examples with
      | scalar s => trivial
      | ref id => exact hown id rfl
    unfold Generator.fixed lookup
    dsimp only
    rw [hagree.entries? hin, Store.find?_text st st']

/-- Providers look at no objects. -/
theorem Providers.confined_generator (ps : Providers) : ps.generator.Confined fun _ => False where
  answers := answersFrom_generator ps
  looks _ _ _ _ _ _ _ _ := rfl

/-! ## Definitions -/

namespace Definition

variable {generator : Option (Generator σ)} {options : Options} {w w' : World σ}

/-- The generator answers the same whether or not the store is trimmed. -/
def AnswersAlike (places : Nat → String → Bool) (generator : Option (Generator σ)) (st : Store) :
    Prop :=
  ∀ g, generator = some g → ∀ key s, g.ask (st.trimmed places) key s = g.ask st key s

theorem indifferent_shownExample (hanswers : AnswersAlike places generator w.store)
    (property : Property) :
    Indifferent places (shownExample property options generator) w := by
  unfold shownExample
  split
  · unfold exampleOf
    dsimp only
    split
    · exact (indifferent_ask (hanswers _ rfl) _).bind fun _ _ _ => indifferent_pure _
    · exact (indifferent_pure _).bind fun _ _ _ => indifferent_pure _
  · exact indifferent_pure none

theorem indifferent_schema (hoff : ∀ id, W id → Untrimmed places id)
    (hanswers : AnswersAlike places generator w.store) {property : Property}
    (hdescription : property.description.In W) (resource name : String) :
    Indifferent places (schema resource name property options generator) w := by
  rw [schema]
  refine (indifferent_tell _).bind fun _ v htell => ?_
  have hstore : v.store = w.store := (Run.onlyLogs_of_tell htell).store
  have hdescribed : descriptionOf (v.store.trimmed places) resource name property
      = descriptionOf v.store resource name property := by
    unfold descriptionOf
    rw [(Store.agree_trimmed hoff).holds hdescription]
  refine indifferent_get ?_ ?_
  · unfold World.trimmed schemaWith
    simp only [hdescribed]
  · rw [← hstore] at hanswers
    exact (indifferent_shownExample hanswers property).bind fun _ _ _ => indifferent_pure _

theorem indifferent_schemas (hoff : ∀ id, W id → Untrimmed places id)
    (hanswers : AnswersAlike places generator w.store) {properties : Fields Property}
    (hproperties : ∀ entry ∈ properties, entry.2.description.In W) (resource : String) :
    Indifferent places (schemas resource options generator properties) w := by
  induction properties generalizing w with
  | nil => exact indifferent_pure []
  | cons entry rest ih =>
      rcases entry with ⟨name, property⟩
      rw [schemas]
      have hfirst := hproperties _ List.mem_cons_self
      refine (indifferent_schema hoff hanswers hfirst resource name).bind fun part v hpart => ?_
      have hstore := (untouched_schema resource name property).store hpart
      rw [← hstore] at hanswers
      exact (ih hanswers fun e he => hproperties e (List.mem_cons_of_mem _ he)).bind
        fun _ _ _ => indifferent_pure _

section

variable (hoff : ∀ id, W id → Untrimmed places id) (hkept : ∀ id, places id "required" = false)

include hoff hkept

theorem indifferent_build (hc : w.store.Closed W) (hanswers : AnswersAlike places generator w.store)
    {declared : Value} (h : Property.Sealed W places w.store declared) (resource : String) :
    Indifferent places (build resource declared options generator) w := by
  rw [build]
  refine (indifferent_reading (Property.declared_trimmed hc hoff hkept h)).bind
    fun properties v hread => ?_
  obtain ⟨hproperties, rfl⟩ := Run.reading_iff.mp hread
  exact (indifferent_schemas hoff hanswers (fun e he => (h.in hproperties e he).1) resource).bind
    fun _ _ _ => indifferent_pure _

/-- **The definitions of a resource are the same.** -/
theorem indifferent_ofResource (hc : w.store.Closed W)
    (hanswers : AnswersAlike places generator w.store) {r : Resource}
    (hresponse : Property.Sealed W places w.store r.response)
    (hmodify : Property.Sealed W places w.store r.modify) :
    Indifferent places (ofResource r options generator) w := by
  rw [ofResource]
  refine (indifferent_build hoff hkept hc hanswers hresponse r.name).bind fun response v hr => ?_
  split
  · exact indifferent_pure _
  · have hstore := build_store hr
    rw [← hstore] at hc hanswers hmodify
    exact (indifferent_build hoff hkept hc hanswers hmodify r.name).bind
      fun _ _ _ => indifferent_pure _

end

/-- The objects of the definitions of a resource are in the region. -/
theorem in_of_sealed {r : Resource} {definitions : Fields Node}
    (hresponse : Property.Sealed W places w.store r.response)
    (hmodify : Property.Sealed W places w.store r.modify)
    (hanswers : AnswersIn true W W generator w.store)
    (h : Returns (ofResource r options generator) w definitions w') :
    Node.In W (.map definitions) := by
  have hfits : (erasure (toggled true)).Fits W W (.map definitions) :=
    ofResource_fits ⟨rfl, fun _ hp => hresponse.in hp⟩ ⟨rfl, fun _ hp => hmodify.in hp⟩ hanswers h
  exact hfits.in_of_same

end Definition

/-! ## Path items -/

namespace PathItem

theorem indifferent_addOperations (r : Resource) (options : Options) (backend : Option Backend)
    (ops : List Operation) (paths : Fields Node) (w : World σ) :
    Indifferent places (addOperations r options backend ops paths) w := by
  induction ops generalizing paths w with
  | nil => exact indifferent_pure paths
  | cons op rest ih =>
      rw [addOperations]
      exact (indifferent_tell _).bind fun _ _ _ =>
        (indifferent_reading rfl).bind fun _ v _ => ih _ v

/-- **The path items of a resource are the same**, which no object is looked at for. -/
theorem indifferent_ofResource (r : Resource) (options : Options) (backend : Option Backend)
    (w : World σ) : Indifferent places (ofResource r options backend) w := by
  rw [ofResource]
  exact (indifferent_reading rfl).bind fun _ _ _ =>
    (indifferent_tell _).bind fun _ v _ => indifferent_addOperations r options backend _ _ v

end PathItem

/-! ## Merges -/

namespace Store

variable {st st' : Store}

/-- **Merges in the region leave the trimmed store that they leave otherwise.** -/
theorem outcome_mergeAll_trimmed (hc : st.Closed W) (hoff : ∀ id, W id → Untrimmed places id)
    {pairs : List (Nat × Nat)}
    (hp : ∀ pair ∈ pairs, W pair.1 ∧ W pair.2 ∧ st.isMapping pair.1 = true) :
    outcome (mergeAll pairs) (st.trimmed places)
      = ((outcome (mergeAll pairs) st).1, (outcome (mergeAll pairs) st).2.trimmed places) := by
  have hagree : Agree W st (st.trimmed places) := agree_trimmed hoff
  have hforth := mergeAll_within hc hagree hp
  have hback : Alike W (mergeAll pairs) (st.trimmed places) st := by
    refine mergeAll_within (hc.of_agree hagree) hagree.symm fun pair hpair => ?_
    rw [isMapping_trimmed]
    exact hp pair hpair
  refine Prod.ext hforth.result
    (Agree.eq (S := fun _ => True) ⟨?_, fun id _ => ?_⟩ fun _ => trivial)
  · rw [hforth.agree.size, size_trimmed]
  · by_cases hid : W id
    · rw [hforth.agree.cells id hid, (agree_trimmed hoff).cells id hid]
    · rw [hback.writes.frame id hid, cells_trimmed, cells_trimmed, hforth.writes.frame id hid]

theorem returns_mergeAll_trimmed (hc : st.Closed W) (hoff : ∀ id, W id → Untrimmed places id)
    {pairs : List (Nat × Nat)}
    (hp : ∀ pair ∈ pairs, W pair.1 ∧ W pair.2 ∧ st.isMapping pair.1 = true) :
    Returns (mergeAll pairs) (st.trimmed places) () st' ↔
      ∃ st₁, Returns (mergeAll pairs) st () st₁ ∧ st' = st₁.trimmed places := by
  unfold Returns
  rw [outcome_mergeAll_trimmed hc hoff hp]
  rcases outcome (mergeAll pairs) st with ⟨e | u, st₁⟩
  · simp
  · simp [eq_comm]

theorem writes_of_mergeAll (hc : st.Closed W) {pairs : List (Nat × Nat)}
    (hp : ∀ pair ∈ pairs, W pair.1 ∧ W pair.2 ∧ st.isMapping pair.1 = true)
    (h : Returns (mergeAll pairs) st () st') : Writes W st st' := by
  have hwrites := (mergeAll_within hc (.refl W st) hp).writes
  rwa [h] at hwrites

end Store

namespace Node

variable {target source : Fields Node} {w w' : World σ}

/-- Where parts with objects of a region meet, mappings of that region are merged. -/
theorem pairs_of_in {st : Store} (ht : Node.In W (.map target)) (hs : Node.In W (.map source)) :
    ∀ pair ∈ meetingsFields st.isMapping target source,
      W pair.1 ∧ W pair.2 ∧ st.isMapping pair.1 = true := by
  intro pair hpair
  obtain ⟨h₁, h₂⟩ := In.meetingsFields ht hs pair hpair
  exact ⟨h₁, h₂, (isMapping_of_meetingsFields _ _ pair hpair).1⟩

theorem indifferent_mergeFields (hc : w.store.Closed W) (hoff : ∀ id, W id → Untrimmed places id)
    (ht : Node.In W (.map target)) (hs : Node.In W (.map source)) :
    Indifferent places (Run.onStore (mergeFields target source)) w := by
  intro fields v'
  rw [Run.onStore_iff]
  unfold World.trimmed
  simp only [mergeFields_iff, Store.isMapping_trimmed,
    Store.returns_mergeAll_trimmed hc hoff (pairs_of_in ht hs)]
  constructor
  · rintro ⟨_, ⟨hfields, st, hmerge, rfl⟩, rfl⟩
    exact ⟨_, Run.onStore_iff.mpr ⟨st, mergeFields_iff _ _ |>.mpr ⟨hfields, hmerge⟩, rfl⟩, rfl⟩
  · rintro ⟨v, hv, rfl⟩
    obtain ⟨st, hmerge, rfl⟩ := Run.onStore_iff.mp hv
    obtain ⟨hfields, hmerge⟩ := (mergeFields_iff _ _).mp hmerge
    exact ⟨_, ⟨hfields, st, hmerge, rfl⟩, rfl⟩

theorem writes_of_mergeFields {fields : Fields Node} (hc : w.store.Closed W)
    (ht : Node.In W (.map target)) (hs : Node.In W (.map source))
    (h : Returns (Run.onStore (mergeFields target source)) w fields w') :
    Store.Writes W w.store w'.store := by
  obtain ⟨st, hmerge, rfl⟩ := Run.onStore_iff.mp h
  exact Store.writes_of_mergeAll hc (pairs_of_in ht hs) ((mergeFields_iff _ _).mp hmerge).2

end Node

/-! ## Documents -/

namespace Document

open Definition (AnswersAlike AnswersIn)

variable {options : Options} {backend : Backend} {generator : Option (Generator σ)}
  {st : Store} {d d' : Document} {w w' : World σ}

/-- What is needed of a generator in every store that merging in the region may leave: its answers
are in the region, and they do not depend on what is trimmed. -/
theorem answers_of_confined (hoff : ∀ id, W id → Untrimmed places id)
    (hown : ∀ root, own root → W root) (hconfined : ∀ g, generator = some g → g.Confined own)
    (hc : st.Closed W) : AnswersAlike places generator st ∧ AnswersIn true W W generator st := by
  refine ⟨fun g hg => (hconfined g hg).looks W _ _ hown hc (Store.agree_trimmed hoff), ?_⟩
  intro g hg key s v hv
  refine ((hconfined g hg).answers st key s v hv).mono ?_
  rintro id ⟨root, hroot, hr⟩
  exact hc.of_reaches (v := .ref root) (hown root hroot) hr

/-- A resource whose properties are sealed writes to objects of the region only. -/
theorem written_addResource (hc : w.store.Closed W)
    (hanswers : AnswersIn true W W generator w.store)
    {r : Resource} (hresponse : Property.Sealed W places w.store r.response)
    (hmodify : Property.Sealed W places w.store r.modify) (hd : Node.In W (.map d.definitions))
    (h : Returns (addResource d r options backend generator) w d' w') :
    Node.In W (.map d'.definitions) ∧ Store.Writes W w.store w'.store := by
  obtain ⟨definitions, items, v, hdefinitions, _, rfl, hmerge, _⟩ := addResource_cases h
  have hin := Definition.in_of_sealed hresponse hmodify hanswers hdefinitions
  exact ⟨Node.allFields_overlay (fun _ _ _ _ _ => trivial) hd hin,
    Store.writes_of_mergeAll hc (Node.pairs_of_in hd hin) hmerge⟩

section

variable (hoff : ∀ id, W id → Untrimmed places id)
  (hkept : ∀ id, places id "path" = false ∧ places id "required" = false)

include hoff hkept

/-- **One resource** is added in the same way. -/
theorem indifferent_addResource (hc : w.store.Closed W)
    (hanswers : AnswersAlike places generator w.store ∧ AnswersIn true W W generator w.store)
    {r : Resource} (hresponse : Property.Sealed W places w.store r.response)
    (hmodify : Property.Sealed W places w.store r.modify) (hd : Node.In W (.map d.definitions))
    (hpaths : Node.PlainFields d.paths) :
    Indifferent places (addResource d r options backend generator) w := by
  rw [addResource]
  refine (Definition.indifferent_ofResource hoff (fun id => (hkept id).2) hc hanswers.1 hresponse
    hmodify).bind fun definitions v hdefinitions => ?_
  have hin := Definition.in_of_sealed hresponse hmodify hanswers.2 hdefinitions
  rw [← Definition.ofResource_store hdefinitions] at hc
  refine (Node.indifferent_mergeFields hc hoff hd hin).bind fun _ v' hmerge => ?_
  have hc' := (Node.writes_of_mergeFields hc hd hin hmerge).closed
  refine (PathItem.indifferent_ofResource r options _ v').bind fun items u hitems => ?_
  obtain ⟨hitems, hlogs⟩ := PathItem.items_of_returns hitems
  rw [← hlogs.store] at hc'
  refine (Node.indifferent_mergeFields hc' hoff ?_ ?_).bind fun _ _ _ => indifferent_pure _
  · have hplain : Node.Plain (.map d.paths) := hpaths
    exact hplain.in W
  · have hplain : Node.Plain (.map items) := PathItem.items_plain hitems
    exact hplain.in W

/-- A model is read as if it had not been trimmed. -/
theorem resourceOf_trimmed (hc : st.Closed W) {name decl : Value} (hname : name.In W)
    (h : Resource.Sealed W places st decl) :
    resourceOf (st.trimmed places) name decl = resourceOf st name decl := by
  unfold resourceOf
  rw [(Store.agree_trimmed hoff).tree hc hname]
  exact bind_congr fun text => Resource.ofModel_trimmed hc hoff (fun id => (hkept id).1) h text

end

/-- The properties of a resource are sealed if its declaration is. -/
theorem sealed_of_resourceOf {name decl : Value} {r : Resource}
    (h : Resource.Sealed W places st decl) (hr : resourceOf st name decl = .ok r) :
    Property.Sealed W places st r.response ∧ Property.Sealed W places st r.modify := by
  obtain ⟨_, _, hr⟩ := result_bind_iff.mp hr
  exact h.parts hr

/-- The names of some declared resources are in the region, and their declarations are sealed. -/
def ModelsSealed (W : Nat → Prop) (places : Nat → String → Bool) (st : Store)
    (models : List (Value × Value)) : Prop :=
  ∀ model ∈ models, model.1.In W ∧ Resource.Sealed W places st model.2

theorem ModelsSealed.rest {model : Value × Value} {rest : List (Value × Value)} {st' : Store}
    (hoff : ∀ id, W id → Untrimmed places id) (h : ModelsSealed W places st (model :: rest))
    (hw : Store.Writes W st st') : ModelsSealed W places st' rest := by
  intro other hother
  obtain ⟨hname, hsealed⟩ := h other (List.mem_cons_of_mem _ hother)
  exact ⟨hname, hsealed.later hoff hw⟩

section

variable (hoff : ∀ id, W id → Untrimmed places id)
  (hanswers : ∀ s : Store, s.Closed W →
    AnswersAlike places generator s ∧ AnswersIn true W W generator s)

include hoff hanswers

/-- All that resources write to, and all that their document refers to, is in the region. -/
theorem written_of_assembles {models : List (Value × Value)} {rs : List Resource}
    (hmodels : ModelsSealed W places w.store models) (hc : w.store.Closed W)
    (hd : Node.In W (.map d.definitions))
    (h : Assembles options backend generator models d w rs d' w') :
    Node.In W (.map d'.definitions) ∧ w'.store.Closed W := by
  induction h with
  | done => exact ⟨hd, hc⟩
  | @next name _ _ _ _ _ w _ _ _ _ hread hadd _ ih =>
      obtain ⟨hresponse, hmodify⟩ :=
        sealed_of_resourceOf (hmodels _ List.mem_cons_self).2 hread
      obtain ⟨hd₁, hw⟩ :=
        written_addResource (w := { w with log := w.log ++ generating w.store name }) hc
          (hanswers _ hc).2 hresponse hmodify hd hadd
      exact ih (hmodels.rest hoff hw) hw.closed hd₁

/-- **All resources** are added in the same way, one after the other. -/
theorem indifferent_addModels
    (hkept : ∀ id, places id "path" = false ∧ places id "required" = false)
    {models : List (Value × Value)} (hmodels : ModelsSealed W places w.store models)
    (hc : w.store.Closed W) (hd : Node.In W (.map d.definitions))
    (hpaths : Node.PlainFields d.paths) :
    Indifferent places (addModels options backend generator models d) w := by
  induction models generalizing d w with
  | nil => exact indifferent_pure d
  | cons model rest ih =>
      rcases model with ⟨name, decl⟩
      obtain ⟨hname, hsealed⟩ := hmodels _ List.mem_cons_self
      have hgenerating : generating (w.store.trimmed places) name = generating w.store name := by
        unfold generating
        rw [(Store.agree_trimmed hoff).tree hc hname]
      rw [addModels]
      refine indifferent_get (by simp only [World.trimmed, hgenerating]) ?_
      refine (indifferent_tell _).bind fun _ v htell => ?_
      have hstore := (Run.onlyLogs_of_tell htell).store
      rw [← hstore] at hmodels hc hsealed
      refine (indifferent_reading (resourceOf_trimmed hoff hkept hc hname hsealed)).bind
        fun r u hreads => ?_
      obtain ⟨hread, rfl⟩ := Run.reading_iff.mp hreads
      obtain ⟨hresponse, hmodify⟩ := sealed_of_resourceOf hsealed hread
      -- what the first resource merges stays in the region, so the rest is sealed as before
      refine (indifferent_addResource hoff hkept hc (hanswers _ hc) hresponse hmodify hd
        hpaths).bind fun d₁ u hadd => ?_
      obtain ⟨hd₁, hw⟩ := written_addResource hc (hanswers _ hc).2 hresponse hmodify hd hadd
      refine ih (hmodels.rest hoff hw) hw.closed hd₁ ?_
      obtain ⟨_, _, _, _, hitems, rfl, _⟩ := addResource_cases hadd
      exact Node.allFields_overlay (fun _ _ _ _ _ => trivial) hpaths (PathItem.items_plain hitems)

/-- **A build comes to the same** whether or not its manifest is trimmed. -/
theorem indifferent_build
    (hkept : ∀ id, places id "path" = false ∧ places id "required" = false) {manifest : Value}
    (hmanifest : Sealed W places w.store manifest) (hc : w.store.Closed W) :
    Indifferent places (build manifest options generator) w := by
  rw [build]
  refine (indifferent_reading (baseline_trimmed hc hoff hmanifest)).bind fun baseline v hread => ?_
  obtain ⟨_, rfl⟩ := Run.reading_iff.mp hread
  refine (indifferent_reading rfl).bind fun backend v hread => ?_
  obtain ⟨_, rfl⟩ := Run.reading_iff.mp hread
  refine (indifferent_reading (declarations_trimmed hmanifest)).bind fun declared v hread => ?_
  obtain ⟨hdeclared, rfl⟩ := Run.reading_iff.mp hread
  have hnone : Node.In W (.map []) := trivial
  have hplain : Node.PlainFields [] := trivial
  refine (indifferent_addModels hoff hanswers hkept (hmanifest.models hdeclared) hc hnone
    hplain).bind fun d v _ => ?_
  exact (indifferent_tell _).bind fun _ _ _ => indifferent_pure _

/-- The document of a sealed manifest shows the same when the store is trimmed. -/
theorem tree_trimmed {manifest : Value} (hmanifest : Sealed W places w.store manifest)
    (hc : w.store.Closed W) (h : Returns (build manifest options generator) w d w') :
    d.tree (w'.store.trimmed places) = d.tree w'.store := by
  obtain ⟨rs, baseline, backend, declared, w₁, _, _, hdeclared, hassembles, rfl⟩ := build_iff.mp h
  have hplain : Node.Plain (.map d.paths) :=
    plain_of_assembles (d := { baseline }) trivial hassembles
  have hnone : Node.In W (.map []) := trivial
  obtain ⟨hd, hc'⟩ := written_of_assembles hoff hanswers (hmanifest.models hdeclared) hc hnone
    hassembles
  have hagree : Store.Agree W w₁.store (w₁.store.trimmed places) := Store.agree_trimmed hoff
  unfold tree
  dsimp only
  rw [Node.In.entries hagree hc' hd, Node.In.entries hagree hc' (hplain.in W)]

end

/-! ## Null means absent -/

/-- The objects that a build takes as they are: those that a manifest is read from, and those of a
generator. -/
def takenRegion (st : Store) (manifest : Value) (own : Nat → Prop) (id : Nat) : Prop :=
  (∃ v ∈ wholes st manifest, st.Reaches v id) ∨ ∃ root, own root ∧ st.Reaches (.ref root) id

theorem closed_takenRegion (st : Store) (manifest : Value) (own : Nat → Prop) :
    st.Closed (takenRegion st manifest own) := by
  rintro id cell (⟨v, hv, hr⟩ | hr) hcell part hpart
  · exact (Store.closed_reaches st v id cell hr hcell part hpart).mono fun _ h => Or.inl ⟨v, hv, h⟩
  · exact (Store.closed_owned st own id cell hr hcell part hpart).mono fun _ h => Or.inr h

theorem sealed_takenRegion {manifest : Value}
    (hlistings : ∀ v ∈ listings st manifest, v.In (Untrimmed places)) :
    Sealed (takenRegion st manifest own) places st manifest where
  untrimmed := hlistings
  wholes v hv := by
    cases v with
    | scalar s => trivial
    | ref id => exact Or.inl ⟨_, hv, [], rfl⟩

/--
**Null means absent**, but for paths and for the mark that a property is required.

Leave out of a manifest, at any places, keys at which there is only null. The document is the same
as long as the places are no keys of a mapping that lists declarations under their names, or of an
object that is taken as it is, such as an example, or the objects of a generator. And a build
returns if and only if it does so without the nulls.
-/
theorem build_trimmed {manifest : Value} {options : Options} {generator : Option (Generator σ)}
    {w : World σ} (hkept : ∀ id, places id "path" = false ∧ places id "required" = false)
    (hlistings : ∀ v ∈ listings w.store manifest, v.In (Untrimmed places))
    (hwholes : ∀ v ∈ wholes w.store manifest, ∀ id, w.store.Reaches v id → Untrimmed places id)
    (hown : ∀ root id, own root → w.store.Reaches (.ref root) id → Untrimmed places id)
    (hconfined : ∀ g, generator = some g → g.Confined own) (d : Document) (t : Tree) :
    (∃ w', Returns (build manifest options generator) w d w' ∧ d.tree w'.store = t) ↔
      ∃ w', Returns (build manifest options generator) (w.trimmed places) d w' ∧
        d.tree w'.store = t := by
  have hoff : ∀ id, takenRegion w.store manifest own id → Untrimmed places id := by
    rintro id (⟨v, hv, hr⟩ | ⟨root, hroot, hr⟩)
    · exact hwholes v hv id hr
    · exact hown root id hroot hr
  have hc := closed_takenRegion w.store manifest own
  have hsealed : Sealed (takenRegion w.store manifest own) places w.store manifest :=
    sealed_takenRegion hlistings
  have hanswers := fun (s : Store) (hs : s.Closed (takenRegion w.store manifest own)) =>
    answers_of_confined hoff (fun root hroot => Or.inr ⟨root, hroot, [], rfl⟩) hconfined hs
  -- no step of the build sees the difference, and what it leaves differs by the same places
  have hsame : Indifferent places (build manifest options generator) w :=
    indifferent_build hoff hanswers hkept hsealed hc
  constructor
  · rintro ⟨w', hw', rfl⟩
    exact ⟨_, (hsame d _).mpr ⟨w', hw', rfl⟩, tree_trimmed hoff hanswers hsealed hc hw'⟩
  · rintro ⟨_, hreturns, rfl⟩
    obtain ⟨w', hw', rfl⟩ := (hsame d _).mp hreturns
    exact ⟨w', hw', (tree_trimmed hoff hanswers hsealed hc hw').symm⟩

/-- A manifest with nulls at all recognised keys but three, and with another null in an example. -/
def nullsManifest : Tree := .map [
  (.text "title", .null), (.text "description", .null), (.text "version", .null),
  (.text "baseUri", .null), (.text "schemes", .null), (.text "formats", .null),
  (.text "models", .map [
    (.text "x-y", .map [(.text "path", .text "/x/\x7bid\x7d"), (.text "methods", .null),
      (.text "readOnly", .null), (.text "modify", .null),
      (.text "response", .map [
        (.text "p", .map [(.text "type", .null), (.text "description", .null),
        (.text "example", .map [(.text "type", .null)]), (.text "validator", .null)])])])])]

/-- The manifest without the nulls, but for that of the example. -/
def nullsLeftOut : Tree := .map [
  (.text "models", .map [
    (.text "x-y", .map [(.text "path", .text "/x/\x7bid\x7d"),
      (.text "response", .map [(.text "p", .map [
        (.text "example", .map [(.text "type", .null)])])])])])]

/-- All recognised keys but the two exceptions. -/
def optionalPlaces (st : Store) (manifest : Value) (id : Nat) (name : String) : Bool :=
  isRecognised st manifest id name && name != "path" && name != "required"

/-- All nulls at once are left out. -/
theorem build_trimmed_nulls : ∃ (d : Document) (w₁ w₂ : World Unit),
    (Store.empty.insert nullsManifest).1.trimmed
        (optionalPlaces (Store.empty.insert nullsManifest).1 (Store.empty.insert nullsManifest).2)
      = (Store.empty.insert nullsLeftOut).1 ∧
    (Store.empty.insert nullsManifest).2 = (Store.empty.insert nullsLeftOut).2 ∧
    Returns (build (Store.empty.insert nullsManifest).2 {} none)
      { store := (Store.empty.insert nullsManifest).1, examples := () } d w₁ ∧
    Returns (build (Store.empty.insert nullsLeftOut).2 {} none)
      { store := (Store.empty.insert nullsLeftOut).1, examples := () } d w₂ ∧
    d.tree w₂.store = d.tree w₁.store := by
  have hreturns : (outcome (build (Store.empty.insert nullsManifest).2 {}
      (none : Option (Generator Unit)))
        { store := (Store.empty.insert nullsManifest).1, examples := () }).1.toOption.any
          (fun _ => true) = true := by
    rw [outcome_build_of_silent (by decide +kernel)]
    decide +kernel
  have hstore : (Store.empty.insert nullsManifest).1.trimmed
      (optionalPlaces (Store.empty.insert nullsManifest).1 (Store.empty.insert nullsManifest).2)
        = (Store.empty.insert nullsLeftOut).1 := by
    decide +kernel
  have hroot : (Store.empty.insert nullsManifest).2 = (Store.empty.insert nullsLeftOut).2 := by
    decide +kernel
  have hunshared := (Store.fresh_insert nullsManifest .empty).2.unshared
  -- every place that is trimmed has a recognised key, so that listings and whole values stay
  have hplaces : ∀ id name, optionalPlaces (Store.empty.insert nullsManifest).1
      (Store.empty.insert nullsManifest).2 id name = true →
        isRecognised (Store.empty.insert nullsManifest).1
          (Store.empty.insert nullsManifest).2 id name = true := by
    intro id name hplace
    exact (Bool.and_eq_true_iff.mp (Bool.and_eq_true_iff.mp hplace).1).1
  have hconfined : ∀ g, (none : Option (Generator Unit)) = some g → g.Confined fun _ => False := by
    rintro g ⟨⟩
  obtain ⟨d, w₁, h₁, _⟩ := Returns.of_check hreturns
  obtain ⟨w₂, h₂, htree⟩ := (build_trimmed (w := { store := _, examples := () })
    (by simp [optionalPlaces]) (listings_untrimmed hunshared hplaces)
    (wholes_untrimmed hunshared hplaces) (fun _ _ h => h.elim) hconfined d _).mp ⟨w₁, h₁, rfl⟩
  rw [World.trimmed, hstore, hroot] at h₂
  exact ⟨d, w₁, w₂, hstore, hroot, h₁, h₂, htree⟩

/-- A resource whose path is null, with a property that is required to be null. -/
def exceptionsManifest : Tree := .map [(.text "models", .map [(.text "a", .map [
  (.text "path", .null),
  (.text "response", .map [(.text "p", .map [(.text "required", .null)])])])])]

/-- The places of one recognised key. -/
def placesOfKey (st : Store) (manifest : Value) (key : String) (id : Nat) (name : String) : Bool :=
  isRecognised st manifest id name && name == key

/-- Leaving out one recognised key, wherever there is only null at it, changes no document of a
manifest that shares nothing. -/
def NullIsAbsentAt (key : String) : Prop :=
  ∀ (manifest : Value) (options : Options) (generator : Option (Generator Unit))
    (w w₁ : World Unit) (d : Document), w.store.Unshared manifest →
    Returns (build manifest options generator) w d w₁ →
    ∃ d' w₂, Returns (build manifest options generator)
        (w.trimmed (placesOfKey w.store manifest key)) d' w₂ ∧
      d'.tree w₂.store = d.tree w₁.store

/-- Whether the text of null is a path of the document, and none of its responses' properties is
required. -/
def readsExceptions (t : Tree) : Bool :=
  let required := ((t.at? "definitions").bind (Tree.at? "AResponse")).bind (Tree.at? "required")
  ((t.at? "paths").bind (Tree.at? "/None")).isSome && required matches some (.list [])

theorem not_nullIsAbsentAt {key : String} (hkey : key ∈ ["path", "required"]) :
    ¬ NullIsAbsentAt key := by
  intro hall
  have hunshared : (Store.empty.insert exceptionsManifest).1.Unshared (.ref 4) :=
    (Store.fresh_insert exceptionsManifest .empty).2.unshared
  -- as it is, the manifest comes to a document with both exceptions
  have hreads : passes (build (.ref 4) {} (none : Option (Generator Unit)))
      { store := (Store.empty.insert exceptionsManifest).1, examples := () }
      (fun d w => readsExceptions (d.tree w.store)) = true := by
    rw [passes_build_of_silent (by decide +kernel)]
    decide +kernel
  obtain ⟨d, w₁, h₁, hd⟩ := passes_iff.mp hreads
  obtain ⟨d', w₂, h₂, htree⟩ := hall _ _ _ _ _ _ hunshared h₁
  -- with one of the keys left out, it lacks one of them
  have hlacks : ∀ name ∈ ["path", "required"],
      (((Store.empty.insert exceptionsManifest).1.trimmed (placesOfKey
        (Store.empty.insert exceptionsManifest).1 (.ref 4) name)).tree (.ref 4)).isSilent = true ∧
      passes (buildSilent (.ref 4) {} (none : Option (Generator Unit)))
        (World.trimmed (placesOfKey (Store.empty.insert exceptionsManifest).1 (.ref 4) name)
          { store := (Store.empty.insert exceptionsManifest).1, examples := () })
        (fun d w => readsExceptions (d.tree w.store)) = false := by
    decide +kernel
  obtain ⟨hsilent, hfails⟩ := hlacks key hkey
  have hpasses : passes _ _ (fun (d : Document) (w : World Unit) =>
      readsExceptions (d.tree w.store)) = true :=
    passes_iff.mpr ⟨d', w₂, h₂, (congrArg readsExceptions htree).trans hd⟩
  rw [passes_build_of_silent hsilent, hfails] at hpasses
  cases hpasses

/-- The exceptions are exceptions: leave out one of these keys, and the document changes. -/
theorem not_build_trimmed : ¬ NullIsAbsentAt "path" ∧ ¬ NullIsAbsentAt "required" :=
  ⟨not_nullIsAbsentAt (by decide), not_nullIsAbsentAt (by decide)⟩

end Document
end ApiManifest
