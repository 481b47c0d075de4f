import ApiManifest.Proofs.Declaring
import ApiManifest.Proofs.Independence

/-!
# What a generator is asked

A generator may have a state, so that its answers depend on what it was asked before. This file
shows what it is asked, and in which order: a build goes through the resources, for each of them
through the properties of its answers and then those of its requests, and asks for an example where
the author gives none. Nothing but the declarations decides that. They are those that a resource has
when its turn comes, since examples are merged in place; a manifest that shares nothing is not
changed by that.
-/

namespace ApiManifest

variable {σ : Type}

/-! ## Keys -/

/-- The key that an example of a property is asked for by, if its author gives none. -/
def Property.askedKey? (property : Property) : Option String :=
  if property.example? = .null then some (DataType.ofName property.type).exampleKey else none

/-- The keys for the properties that a value declares: one for each name, in the order in which the
names first came, if the last declaration of the name gives no example. -/
def exampleKeys (st : Store) (declared : Value) : List String :=
  let es := (st.entries? declared).getD []
  (es.filterMap (nameOf? st)).eraseDups.filterMap fun name =>
    (lastNamed st es name).bind fun last =>
      (Property.ofValue st last.2).toOption.bind Property.askedKey?

/-- The keys for a resource: those for its answers, and those for its requests unless it cannot be
changed. -/
def Resource.exampleKeys (st : Store) (r : Resource) : List String :=
  ApiManifest.exampleKeys st r.response
    ++ if r.isReadOnly then [] else ApiManifest.exampleKeys st r.modify

theorem DataType.exampleKey_of_unknown {type : String} (h : isKnown type = false) :
    (ofName type).exampleKey = type := by
  have hnone : KnownType.ofName? type = none := by simpa [isKnown] using h
  rw [ofName, hnone]

/-- What is declared decides what is asked. -/
theorem exampleKeys_eq {st : Store} {declared : Value} {properties : Fields Property}
    (h : declaredProperties st declared = .ok properties) :
    exampleKeys st declared = properties.filterMap fun entry => entry.2.askedKey? := by
  cases hes : st.entries? declared with
  | none =>
      rw [exampleKeys, hes, eq_nil_of_declaredProperties hes h]
      rfl
  | some es =>
      obtain ⟨-, hnames, hlast⟩ := declaredProperties_cases hes h
      rw [exampleKeys, hes, Option.getD_some, ← hnames, Fields.names, List.filterMap_map]
      refine List.filterMap_congr ?_
      rintro ⟨name, property⟩ hmem
      obtain ⟨last, hlast, hread⟩ := hlast name property hmem
      obtain ⟨-, said, hsaid, rfl⟩ := of_readProperty hread
      rw [Function.comp_apply, hlast, Option.bind_some, hsaid]
      rfl

/-! ## Asking -/

theorem World.OnlyLogs.asked {w w' : World σ} (h : w.OnlyLogs w') : w'.asked = w.asked := by
  obtain ⟨log, rfl⟩ := h
  rfl

namespace Definition

variable {resource : String} {options : Options} {g : Generator σ} {w w' : World σ}

/-- The keys that are asked for, if examples are shown. -/
def keysIf (options : Options) (keys : List String) : Array String :=
  if options.examples then keys.toArray else #[]

theorem keysIf_append (options : Options) (keys more : List String) :
    keysIf options (keys ++ more) = keysIf options keys ++ keysIf options more := by
  unfold keysIf
  split <;> simp

theorem asked_exampleOf {property : Property} {example? : Option Node}
    (h : Returns (exampleOf (some g) property) w example? w') :
    w'.asked = w.asked ++ property.askedKey?.toList.toArray := by
  unfold exampleOf at h
  unfold Property.askedKey?
  dsimp only at h
  split at h
  · rename_i g' hnull heq
    cases heq
    obtain ⟨v, w₁, hask, h⟩ := Returns.bind_iff.mp h
    obtain ⟨-, rfl⟩ := Returns.pure_iff.mp h
    obtain ⟨-, rfl⟩ := Run.ask_iff.mp hask
    rw [if_pos hnull]
    simp
  · rename_i hneither
    obtain ⟨v, w₁, hv, h⟩ := Returns.bind_iff.mp h
    obtain ⟨-, rfl⟩ := Returns.pure_iff.mp hv
    obtain ⟨-, rfl⟩ := Returns.pure_iff.mp h
    rw [if_neg fun hnull => hneither g hnull rfl]
    simp

theorem asked_schema {name : String} {property : Property} {part : Node}
    (h : Returns (schema resource name property options (some g)) w part w') :
    w'.asked = w.asked ++ keysIf options property.askedKey?.toList := by
  obtain ⟨w₁, example?, hlogs, hshown, -⟩ := schema_cases h
  rw [← hlogs.asked]
  unfold shownExample at hshown
  split at hshown
  · rename_i hon
    rw [keysIf, if_pos hon]
    exact asked_exampleOf hshown
  · rename_i hoff
    obtain ⟨-, rfl⟩ := Returns.pure_iff.mp hshown
    rw [keysIf, if_neg hoff]
    simp

/-- **Properties are asked for in their order.** -/
theorem asked_schemas {properties : Fields Property} {parts : Fields Node}
    (h : Returns (schemas resource options (some g) properties) w parts w') :
    w'.asked = w.asked ++ keysIf options (properties.filterMap fun entry => entry.2.askedKey?) := by
  induction properties generalizing parts w with
  | nil =>
      obtain ⟨-, rfl⟩ := Returns.pure_iff.mp h
      simp [keysIf]
  | cons entry rest ih =>
      rcases entry with ⟨name, property⟩
      rw [schemas] at h
      obtain ⟨part, v, hpart, h⟩ := Returns.bind_iff.mp h
      obtain ⟨more, w₂, hrest, h⟩ := Returns.bind_iff.mp h
      obtain ⟨-, rfl⟩ := Returns.pure_iff.mp h
      have hfirst : (((name, property) :: rest).filterMap fun entry => entry.2.askedKey?)
          = property.askedKey?.toList ++ rest.filterMap fun entry => entry.2.askedKey? := by
        rw [List.filterMap_cons]
        cases property.askedKey? <;> rfl
      rw [hfirst, keysIf_append, ← Array.append_assoc, ← asked_schema hpart]
      exact ih hrest

theorem asked_build {declared : Value} {part : Node}
    (h : Returns (build resource declared options (some g)) w part w') :
    w'.asked = w.asked ++ keysIf options (exampleKeys w.store declared) := by
  obtain ⟨properties, parts, hdeclared, hparts, -⟩ := build_cases h
  rw [exampleKeys_eq hdeclared]
  exact asked_schemas hparts

theorem asked_ofResource {r : Resource} {definitions : Fields Node}
    (h : Returns (ofResource r options (some g)) w definitions w') :
    w'.asked = w.asked ++ keysIf options (r.exampleKeys w.store) := by
  obtain ⟨response, w₁, hresponse, hrest⟩ := ofResource_cases h
  rw [Resource.exampleKeys, keysIf_append, ← Array.append_assoc, ← asked_build hresponse]
  rcases hrest with ⟨hro, -, rfl⟩ | ⟨modify, hro, hmodify, -⟩
  · rw [if_pos hro]
    simp [keysIf]
  · rw [if_neg (by simp [hro]), ← build_store hresponse]
    exact asked_build hmodify

end Definition

namespace Document

open Definition (keysIf keysIf_append)

/-- The keys for a resource as it is when its turn comes. -/
def Turn.exampleKeys (turn : Turn) : List String := turn.resource.exampleKeys turn.store

section

variable {options : Options} {backend : Backend} {g : Generator σ} {d d' : Document}
  {w w' : World σ}

/-- **One resource.** Only its definitions ask for examples. -/
theorem asked_addResource {r : Resource}
    (h : Returns (addResource d r options backend (some g)) w d' w') :
    w'.asked = w.asked ++ keysIf options (r.exampleKeys w.store) := by
  rw [addResource] at h
  obtain ⟨definitions, w₁, hdefinitions, h⟩ := Returns.bind_iff.mp h
  obtain ⟨merged, w₂, hmerge, h⟩ := Returns.bind_iff.mp h
  obtain ⟨items, w₃, hitems, h⟩ := Returns.bind_iff.mp h
  obtain ⟨paths, w₄, hpaths, h⟩ := Returns.bind_iff.mp h
  obtain ⟨-, rfl⟩ := Returns.pure_iff.mp h
  obtain ⟨st, -, rfl⟩ := Run.onStore_iff.mp hmerge
  obtain ⟨st', -, rfl⟩ := Run.onStore_iff.mp hpaths
  rw [← Definition.asked_ofResource hdefinitions]
  exact (PathItem.items_of_returns hitems).2.asked

/-- **All resources**, one after the other. -/
theorem asked_of_takes {models : List (Value × Value)} {turns : List Turn}
    (h : Takes options backend (some g) models d w turns d' w') :
    w'.asked = w.asked ++ keysIf options (turns.flatMap Turn.exampleKeys) := by
  induction h with
  | done => simp [keysIf]
  | @next name decl rest d d₁ d' w w₁ w' r turns hread hadd hrest ih =>
      rw [ih, asked_addResource hadd, List.flatMap_cons, keysIf_append, Array.append_assoc]
      rfl

end

/-! ## What does not matter -/

section

variable {options₁ options₂ : Options} {backend : Backend} {generator : Option (Generator σ)}
  {examples : Bool} {E D : Nat → Prop} {st : Store}
  (hdisjoint : ∀ id, D id → ¬ E id) (hempty : examples = true → ∀ id, ¬ E id)
  (hoptions : examples = true → options₁.examples = options₂.examples)
  (hanswers : ∀ st', Store.Parted E D st st' → Definition.AnswersIn examples E D generator st')

include hdisjoint hempty hoptions hanswers

/-- **Two builds side by side** come to the same resources, and each of them has changed nothing but
what is merged by then. -/
theorem turns_of_twins {models : List (Value × Value)} {d₁ d₁' d₂ d₂' : Document}
    {w₁ w₁' w₂ w₂' : World σ} {turns₁ turns₂ : List Turn}
    (hread : ∀ model ∈ models, ReadAlike examples E D st model)
    (ht : Twins examples E D st d₁ w₁ d₂ w₂)
    (h₁ : Takes options₁ backend generator models d₁ w₁ turns₁ d₁' w₁')
    (h₂ : Takes options₂ backend generator models d₂ w₂ turns₂ d₂' w₂') :
    List.Forall₂ (fun t₁ t₂ => t₁.resource = t₂.resource ∧ Store.Parted E D st t₁.store ∧
      Store.Agree (fun id => ¬ E id) t₁.store t₂.store) turns₁ turns₂ := by
  induction h₁ generalizing d₂ w₂ turns₂ with
  | done =>
      cases h₂
      exact .nil
  | next hr₁ hadd₁ _ ih =>
      cases h₂ with
      | next hr₂ hadd₂ hrest₂ =>
          obtain ⟨rfl, ht'⟩ := twins_next hdisjoint hempty hoptions hanswers
            (hread _ List.mem_cons_self) ht hr₁ hr₂ hadd₁ hadd₂
          exact .cons ⟨rfl, ht.parted₁, ht.agree⟩
            (ih (fun model hm => hread model (List.mem_cons_of_mem _ hm)) ht' hrest₂)

end

/-- Two builds with the same examples come to the same turns. -/
theorem turns_of_examples {options₁ options₂ : Options} {manifest : Value} {g : Generator σ}
    {w w₁ w₂ : World σ} {d₁ d₂ : Document} {turns₁ turns₂ : List Turn}
    (hexamples : options₁.examples = options₂.examples)
    (h₁ : TakesTurns manifest options₁ (some g) w turns₁ d₁ w₁)
    (h₂ : TakesTurns manifest options₂ (some g) w turns₂ d₂ w₂) : turns₁ = turns₂ := by
  obtain ⟨baseline, backend, declared, v₁, hb, hk, hd, ht₁, -⟩ := h₁
  obtain ⟨baseline', backend', declared', v₂, hb', hk', hd', ht₂, -⟩ := h₂
  cases hb.symm.trans hb'
  cases hk.symm.trans hk'
  cases hd.symm.trans hd'
  have hturns := turns_of_twins (fun _ _ h => h) (fun _ _ h => h) (fun _ => hexamples)
    (fun _ _ _ _ _ _ _ _ => in_everything _) (fun _ _ => readAlike_of_examples _ _)
    twins_everything ht₁ ht₂
  refine List.forall₂_eq_eq_eq ▸ hturns.imp ?_
  rintro ⟨st₁, r₁⟩ ⟨st₂, r₂⟩ ⟨rfl, -, hagree⟩
  cases hagree.eq fun _ h => h
  rfl

/-- The properties that a resource declares can be read. -/
def Readable (turn : Turn) : Prop :=
  (∃ properties, declaredProperties turn.store turn.resource.response = .ok properties) ∧
    (turn.resource.isReadOnly = false →
      ∃ properties, declaredProperties turn.store turn.resource.modify = .ok properties)

/-- At every turn a resource is read, and so are the properties that it declares. -/
theorem reads_of_takes {options : Options} {backend : Backend} {generator : Option (Generator σ)}
    {models : List (Value × Value)} {d d' : Document} {w w' : World σ} {turns : List Turn}
    (h : Takes options backend generator models d w turns d' w') :
    List.Forall₂ (fun model turn =>
      resourceOf turn.store model.1 model.2 = .ok turn.resource ∧ Readable turn) models turns := by
  induction h with
  | done => exact .nil
  | next hread hadd _ ih =>
      refine .cons ⟨hread, ?_⟩ ih
      obtain ⟨definitions, _, _, hdefinitions, -⟩ := addResource_cases hadd
      obtain ⟨response, w₁, hresponse, hrest⟩ := Definition.ofResource_cases hdefinitions
      obtain ⟨properties, _, hproperties, -⟩ := Definition.build_cases hresponse
      refine ⟨⟨properties, hproperties⟩, fun hro => ?_⟩
      rcases hrest with ⟨hro', -⟩ | ⟨modify, -, hmodify, -⟩
      · rw [hro] at hro'
        cases hro'
      · obtain ⟨properties', _, hproperties', -⟩ := Definition.build_cases hmodify
        rw [Definition.build_store hresponse] at hproperties'
        exact ⟨properties', hproperties'⟩

/-- A resource whose properties are read as in another store has the keys that it has there. -/
theorem exampleKeys_congr {turn : Turn} {st : Store} (h : Readable turn)
    (hresponse : declaredProperties turn.store turn.resource.response
      = declaredProperties st turn.resource.response)
    (hmodify : declaredProperties turn.store turn.resource.modify
      = declaredProperties st turn.resource.modify) :
    turn.exampleKeys = turn.resource.exampleKeys st := by
  obtain ⟨⟨properties, hproperties⟩, hmodified⟩ := h
  rw [Turn.exampleKeys, Resource.exampleKeys, Resource.exampleKeys, exampleKeys_eq hproperties,
    exampleKeys_eq (hresponse.symm.trans hproperties)]
  cases hro : turn.resource.isReadOnly with
  | true => rfl
  | false =>
      obtain ⟨modified, hmodified⟩ := hmodified hro
      rw [exampleKeys_eq hmodified, exampleKeys_eq (hmodify.symm.trans hmodified)]

/-- Turns at which everything is read as it is in one store have the keys of that store. -/
theorem exampleKeys_of_reads {st : Store} {models : List (Value × Value)} {turns : List Turn}
    (h : List.Forall₂ (fun model turn =>
      resourceOf turn.store model.1 model.2 = .ok turn.resource ∧ Readable turn) models turns)
    (hkept : ∀ turn ∈ turns, ∀ model ∈ models,
      resourceOf turn.store model.1 model.2 = resourceOf st model.1 model.2 ∧
        ∀ r, resourceOf st model.1 model.2 = .ok r →
          declaredProperties turn.store r.response = declaredProperties st r.response ∧
            declaredProperties turn.store r.modify = declaredProperties st r.modify) :
    models.mapM (fun model => resourceOf st model.1 model.2) = .ok (turns.map Turn.resource) ∧
      turns.flatMap Turn.exampleKeys
        = (turns.map Turn.resource).flatMap (Resource.exampleKeys st) := by
  induction h with
  | nil => exact ⟨rfl, rfl⟩
  | @cons model turn models turns hturn _ ih =>
      obtain ⟨hresource, hproperties⟩ := hkept turn List.mem_cons_self model List.mem_cons_self
      have hr : resourceOf st model.1 model.2 = .ok turn.resource := hresource.symm.trans hturn.1
      obtain ⟨hresponse, hmodify⟩ := hproperties turn.resource hr
      obtain ⟨hrs, hkeys⟩ := ih fun turn hturn model hmodel =>
        hkept turn (List.mem_cons_of_mem _ hturn) model (List.mem_cons_of_mem _ hmodel)
      constructor
      · rw [List.mapM_cons, hr, hrs]
        rfl
      · rw [List.flatMap_cons, List.map_cons, List.flatMap_cons, hkeys,
          exampleKeys_congr hturn.2 hresponse hmodify]

/-- **Where nothing is shared, a build reads the resources as the manifest declares them**, provided
that its generator has objects of its own; and the keys are those for these resources. -/
theorem reads_of_unshared {manifest : Value} {options : Options} {generator : Option (Generator σ)}
    {own : Nat → Prop} {w w' : World σ} {d : Document} {turns : List Turn}
    (h : TakesTurns manifest options generator w turns d w') (hunshared : w.store.Unshared manifest)
    (hanswers : ∀ g, generator = some g → g.AnswersFrom own)
    (hown : ∀ root id, own root → w.store.Reaches (.ref root) id → ¬ w.store.Reaches manifest id) :
    declaredResources w.store manifest = .ok (turns.map Turn.resource) ∧
      turns.flatMap Turn.exampleKeys
        = (turns.map Turn.resource).flatMap (Resource.exampleKeys w.store) := by
  obtain ⟨baseline, backend, declared, v, -, -, hdeclared, htakes, -⟩ := h
  obtain ⟨E, D, hdisjoint, hE, hD, hin, hread, hkept⟩ :=
    regions_of_unshared hdeclared hunshared hanswers hown
  -- the run beside itself: whatever has been merged by a turn, it was in the two regions
  have htwins := turns_of_twins hdisjoint (by simp) (by simp) hin hread (.refl hE hD) htakes htakes
  have hparted : ∀ turn ∈ turns, Store.Parted E D w.store turn.store :=
    fun turn hturn => (List.forall₂_same.mp htwins turn hturn).2.1
  rw [declaredResources, hdeclared]
  exact exampleKeys_of_reads (reads_of_takes htakes)
    fun turn hturn => hkept turn.store (hparted turn hturn)

/-- The same for the resources that a build reads. -/
theorem resources_of_unshared {manifest : Value} {options : Options}
    {generator : Option (Generator σ)} {own : Nat → Prop} {w w' : World σ} {rs : List Resource}
    {d : Document} (h : Builds manifest options generator w rs d w')
    (hunshared : w.store.Unshared manifest)
    (hanswers : ∀ g, generator = some g → g.AnswersFrom own)
    (hown : ∀ root id, own root → w.store.Reaches (.ref root) id → ¬ w.store.Reaches manifest id) :
    declaredResources w.store manifest = .ok rs := by
  obtain ⟨baseline, backend, declared, w₁, hbaseline, hbackend, hdeclared, hassembles, hw⟩ := h
  obtain ⟨turns, rfl, hturns⟩ := assembles_iff_takes.mp hassembles
  exact (reads_of_unshared ⟨baseline, backend, declared, w₁, hbaseline, hbackend, hdeclared, hturns,
    hw⟩ hunshared hanswers hown).1

/-- Where all names differ, every turn finds the objects as they were at first. -/
theorem stores_of_takes {options : Options} {backend : Backend} {generator : Option (Generator σ)}
    {models : List (Value × Value)} {d d' : Document} {w w' : World σ} {turns : List Turn}
    (hnames : (pascalNames w.store models).Nodup) (hfree : FreeOf (pascalNames w.store models) d)
    (h : Takes options backend generator models d w turns d' w') :
    ∀ turn ∈ turns, turn.store = w.store := by
  induction h with
  | done => exact fun turn hturn => nomatch hturn
  | next hread hadd _ ih =>
      obtain ⟨hsame, hrest, hfree'⟩ := addResource_of_names hnames hfree hread hadd rfl
      rintro turn (_ | ⟨_, hturn⟩)
      · rfl
      · exact (ih hrest hfree' turn hturn).trans hsame

/-- **Where the names of the resources differ in PascalCase, a build reads them as the manifest
declares them**, whatever the manifest shares and the generator hands out. -/
theorem reads_of_names {manifest : Value} {options : Options} {generator : Option (Generator σ)}
    {w w' : World σ} {d : Document} {turns : List Turn}
    (h : TakesTurns manifest options generator w turns d w')
    (hnames : ∀ declared, declarations w.store manifest = .ok declared →
      (pascalNames w.store declared).Nodup) :
    declaredResources w.store manifest = .ok (turns.map Turn.resource) ∧
      turns.flatMap Turn.exampleKeys
        = (turns.map Turn.resource).flatMap (Resource.exampleKeys w.store) := by
  obtain ⟨baseline, backend, declared, v, -, -, hdeclared, htakes, -⟩ := h
  have hstores := stores_of_takes (hnames declared hdeclared) (freeOf_start _ _) htakes
  rw [declaredResources, hdeclared]
  refine exampleKeys_of_reads (reads_of_takes htakes) fun turn hturn model _ => ?_
  rw [hstores turn hturn]
  exact ⟨rfl, fun _ _ => ⟨rfl, rfl⟩⟩

/--
**What a generator is asked.**

Whenever a build with a generator returns, the generator has been asked nothing if examples are off.
If they are on, it has been asked for the keys of the resources, one after the other, as they are
when their turn comes: those for the answers and then those for the requests, unless the resource
cannot be changed, one key for each property without an example of its own. Builds that differ in
validators or integrations ask the same. If the manifest shares nothing, and the generator has
objects of its own, the keys are those for the resources as the manifest declares them. A type that
is not known is asked for by its name.
-/
theorem asked_of_build {manifest : Value} {options : Options} {g : Generator σ} {w w' : World σ}
    {d : Document} (h : Returns (build manifest options (some g)) w d w') :
    ∃ turns, TakesTurns manifest options (some g) w turns d w' ∧
      (options.examples = false → w'.asked = w.asked) ∧
      (options.examples = true →
        w'.asked = w.asked ++ (turns.flatMap Turn.exampleKeys).toArray) ∧
      (∀ options' d' v, options'.examples = options.examples →
        Returns (build manifest options' (some g)) w d' v → v.asked = w'.asked) ∧
      (∀ own : Nat → Prop, w.store.Unshared manifest → g.AnswersFrom own →
        (∀ root id, own root → w.store.Reaches (.ref root) id → ¬ w.store.Reaches manifest id) →
        ∃ rs, declaredResources w.store manifest = .ok rs ∧
          turns.flatMap Turn.exampleKeys = rs.flatMap (Resource.exampleKeys w.store)) ∧
      ∀ type, DataType.isKnown type = false → (DataType.ofName type).exampleKey = type := by
  have hasked : ∀ options' d' v turns, TakesTurns manifest options' (some g) w turns d' v →
      v.asked = w.asked ++ keysIf options' (turns.flatMap Turn.exampleKeys) := by
    rintro options' d' _ turns ⟨_, _, _, v, -, -, -, htakes, rfl⟩
    have hv := asked_of_takes htakes
    exact hv
  -- the turns of this build, and by them what it asked
  obtain ⟨turns, hturns⟩ := returns_iff_takesTurns.mp h
  have hkeys := hasked _ _ _ _ hturns
  refine ⟨turns, hturns, fun hoff => ?_, fun hon => ?_, fun options' d' v hsame h' => ?_,
    fun own hunshared hanswers hown => ?_, fun _ => DataType.exampleKey_of_unknown⟩
  · rw [hkeys, keysIf, if_neg (by simp [hoff])]
    simp
  · rw [hkeys, keysIf, if_pos hon]
  · obtain ⟨turns', hturns'⟩ := returns_iff_takesTurns.mp h'
    rw [hasked _ _ _ _ hturns', hkeys, turns_of_examples hsame hturns' hturns, keysIf, keysIf,
      hsame]
  · have hsome : ∀ g', some g = some g' → g'.AnswersFrom own := by
      rintro _ ⟨rfl⟩
      exact hanswers
    exact ⟨_, reads_of_unshared hturns hunshared hsome hown⟩

/-- Two resources with one definition key, of which the second one cannot be changed. Names come
twice, one example is empty and one is false, and one type is not known. -/
def unevenManifest : Tree := .map [(.text "models", .map [
  (.text "x-y", .map [(.text "path", .text "/x"), (.text "methods", .list [.text "update"]),
    (.text "modify", .map [(.text "a", .text "email")]),
    (.text "response", .map [(.text "id?", .text "date"), (.text "n", .text "odd"),
      (.text "id", .text "uuid"), (.text "e", .map [(.text "example", .text "")])])]),
  (.text "x_y", .map [(.text "path", .text "/x"), (.text "readOnly", .bool true),
    (.text "modify", .map [(.text "b", .text "url")]),
    (.text "response", .map [(.text "f", .map [(.text "example", .bool false)]),
      (.text "c", .map [])])])])]

/-- The manifest as an object. -/
def unevenStore : Store × Value := Store.empty.insert unevenManifest

theorem asked_of_build_uneven : ∃ (rs : List Resource) (d : Document) (w' : World Int),
    Returns (build unevenStore.2 {} (some counting))
      { store := unevenStore.1, examples := 0 } d w' ∧
    declaredResources unevenStore.1 unevenStore.2 = .ok rs ∧
    rs.flatMap (Resource.exampleKeys unevenStore.1) = ["uuid4", "odd", "email", "word"] ∧
    w'.asked = #["uuid4", "odd", "email", "word"] := by
  have hreturns : (outcome (build unevenStore.2 {} (some counting))
      { store := unevenStore.1, examples := 0 }).1.toOption.any (fun _ => true) = true := by
    rw [outcome_build_of_silent (by decide +kernel)]
    decide +kernel
  obtain ⟨d, w', h, -⟩ := Returns.of_check hreturns
  obtain ⟨turns, -, -, hasked, -, hdeclared, -⟩ := asked_of_build h
  obtain ⟨_, hfresh⟩ := Store.fresh_insert unevenManifest .empty
  have hanswers : (counting).AnswersScalars := fun _ _ s => ⟨.int s, rfl⟩
  obtain ⟨rs, hrs, hkeys⟩ := hdeclared (fun _ => False) hfresh.unshared hanswers.answersFrom
    (fun _ _ hfalse => hfalse.elim)
  have hshown : (declaredResources unevenStore.1 unevenStore.2).toOption.any (fun rs =>
      rs.flatMap (Resource.exampleKeys unevenStore.1)
        = ["uuid4", "odd", "email", "word"]) = true := by
    decide +kernel
  rw [hrs] at hshown
  have hshown := of_decide_eq_true hshown
  refine ⟨rs, d, w', h, hrs, hshown, ?_⟩
  rw [hasked rfl, hkeys, hshown]
  rfl

/-- A manifest in which the last resource is also the example of a property of the first one. The
second one has an example for the same property, which gives a property of the last one another
type. -/
def redatedStore : Store where
  cells := (((aliasedStore.cells.setIfInBounds 1 (.map [(.text "path", .text "/z"),
    (.text "methods", .ref 0), (.text "response", .ref 13)])).setIfInBounds 6
    (.map [(.text "response", .ref 14)])).push (.map [(.text "q", .text "uuid")])).push
    (.map [(.text "q", .text "date")])

/-- It is not asked for the keys of the resources as the manifest declares them: an example that is
merged into a resource can change a type before its turn comes. -/
theorem not_asked_of_declared :
    ¬ ∀ (manifest : Value) (options : Options) (g : Generator Unit) (w w' : World Unit)
      (rs : List Resource) (d : Document), options.examples = true →
      declaredResources w.store manifest = .ok rs →
      Returns (build manifest options (some g)) w d w' →
      w'.asked = w.asked ++ (rs.flatMap (Resource.exampleKeys w.store)).toArray := by
  intro hall
  have hreturns : (outcome (build (.ref 12) {} (some (.fixed .null : Generator Unit)))
      { store := redatedStore, examples := () }).1.toOption.any (fun _ => true) = true := by
    rw [outcome_build_of_silent (by decide +kernel)]
    decide +kernel
  have hasked : (outcome (build (.ref 12) {} (some (.fixed .null : Generator Unit)))
      { store := redatedStore, examples := () }).2.asked = #["date"] := by
    rw [outcome_build_of_silent (by decide +kernel)]
    decide +kernel
  have hdeclared : (declaredResources redatedStore (.ref 12)).toOption.any (fun rs =>
      rs.flatMap (Resource.exampleKeys redatedStore) = ["uuid4"]) = true := by
    decide +kernel
  obtain ⟨d, w', h, -⟩ := Returns.of_check hreturns
  rw [h] at hasked
  cases hrs : declaredResources redatedStore (.ref 12) with
  | error e => rw [hrs] at hdeclared; cases hdeclared
  | ok rs =>
      rw [hrs] at hdeclared
      have hkeys := hall _ {} _ _ _ rs d rfl hrs h
      rw [hasked, of_decide_eq_true hdeclared] at hkeys
      exact absurd hkeys (by decide)

end Document

end ApiManifest
