import ApiManifest.Proofs.Silent
import ApiManifest.Proofs.TurnedOff

/-!
# The regions of examples and descriptions

In a manifest that shares nothing, the examples that its author gives, with the values of a
generator that has objects of its own, are one closed region of the store, and the descriptions are
another one. What a build reads is in neither of them. With these regions two builds can be
compared: their documents agree apart from what the toggles are about.
-/

namespace ApiManifest

variable {σ : Type}

/-! ## Generators -/

/-- A generator answers with scalars, or with what stands in its own objects as they are. -/
def Generator.AnswersFrom (g : Generator σ) (own : Nat → Prop) : Prop :=
  ∀ st key s v, (g.ask st key s).result = .ok v →
    v.In fun id => ∃ root, own root ∧ st.Reaches (.ref root) id

/-- The values of a mapping stand in that mapping. -/
theorem Generator.answersFrom_fixed (examples : Value) :
    (Generator.fixed examples : Generator σ).AnswersFrom (examples = .ref ·) := by
  intro st key s v h
  have hv : lookup st examples (.text key) = v := Except.ok.inj h
  cases v with
  | scalar s => trivial
  | ref id =>
      obtain ⟨n, hat⟩ := at?_of_lookup hv
      cases examples with
      | scalar s => cases hat
      | ref root => exact ⟨root, rfl, [.value n], hat⟩

/-- Providers answer with scalars. -/
theorem Providers.answersFrom_generator (ps : Providers) :
    ps.generator.AnswersFrom fun _ => False := by
  intro st key calls v h
  have hscalar : ∃ s, v = .scalar s := by
    replace h : (ps.ask key calls).result = .ok v := h
    unfold Providers.ask at h
    dsimp only at h
    repeat' split at h
    all_goals first
      | exact ⟨_, (Except.ok.inj h).symm⟩
      | cases h
  obtain ⟨s, rfl⟩ := hscalar
  trivial

/-! ## Regions -/

/-- The objects of the examples that are declared, and of a generator with these objects. -/
def exampleRegion (st : Store) (models : Value) (own : Nat → Prop) (id : Nat) : Prop :=
  st.Under models (PropertySlot st models "example") id ∨
    ∃ root, own root ∧ st.Reaches (.ref root) id

/-- The objects of the descriptions that are declared. -/
def descriptionRegion (st : Store) (models : Value) : Nat → Prop :=
  st.Under models (PropertySlot st models "description")

section

variable {st : Store} {models : Value} {own : Nat → Prop} (hu : st.Unshared models)
  (hown : ∀ root id, own root → st.Reaches (.ref root) id → ¬ st.Reaches models id)

theorem closed_exampleRegion : st.Closed (exampleRegion st models own) :=
  (Store.closed_under st models _).or (Store.closed_owned st own)

include hown

/-- Merging in the regions changes nothing that is read. -/
theorem keeps_of_parted {st' : Store}
    (h : Store.Parted (exampleRegion st models own) (descriptionRegion st models) st st') :
    Store.Keeps models (MergedSlot st models) st st' := by
  refine ⟨h.size, fun id hreach hunder => h.frame id ?_ ?_⟩
  · rintro (⟨p, q, hslot, hat⟩ | ⟨root, hroot, hr⟩)
    · exact hunder ⟨p, q, Or.inl hslot, hat⟩
    · exact hown root id hroot hr hreach
  · rintro ⟨p, q, hslot, hat⟩
    exact hunder ⟨p, q, Or.inr hslot, hat⟩

include hu

theorem regions_disjoint (id : Nat) (h : descriptionRegion st models id) :
    ¬ exampleRegion st models own id := by
  rintro (he | ⟨root, hroot, hreach⟩)
  · refine hu.disjoint (fun _ hp => hp.length) (fun _ hp => hp.length) ?_ h he
    -- one field has one name
    rintro p ⟨i, j, k, l, _, rfl, _, _, hl⟩ ⟨i', j', k', l', _, heq, _, _, hl'⟩
    cases heq
    rw [hl] at hl'
    exact absurd hl' (by decide)
  · exact hown root id hroot hreach (Store.reaches_of_under h)

/-- **Two builds read the same**, whatever they have merged. -/
theorem readAlike {i : Nat} {model : Value × Value} (hname : st.at? models [.key i] = some model.1)
    (hdecl : st.at? models [.value i] = some model.2) :
    Document.ReadAlike false (exampleRegion st models own) (descriptionRegion st models) st
      model := by
  intro st₁ st₂ h₁ h₂ _
  have hk₁ := keeps_of_parted hown h₁
  have hk₂ := keeps_of_parted hown h₂
  have hread₁ := resourceOf_kept hu hk₁ hname hdecl
  have hread₂ := resourceOf_kept hu hk₂ hname hdecl
  refine ⟨hread₁.trans hread₂.symm, fun r hr => ?_⟩
  rw [hread₁] at hr
  obtain ⟨hresponse, hmodify⟩ := parts_of_resource hdecl hr
  have hpart : ∀ part v, part = "response" ∨ part = "modify" → PartAt st models i part v →
      Definition.PartAlike false (exampleRegion st models own) (descriptionRegion st models)
        st₁ st₂ v := by
    intro part v hpart hv
    obtain ⟨hp₁, hstands⟩ := hv.properties hu hk₁ hpart
    obtain ⟨hp₂, _⟩ := hv.properties hu hk₂ hpart
    refine ⟨hp₁.trans hp₂.symm, fun properties hproperties entry hentry => ?_⟩
    rw [hp₁] at hproperties
    have h := hstands properties hproperties entry hentry
    exact ⟨h.description.in, h.example?.in.mono fun _ he => Or.inl he⟩
  exact ⟨hpart "response" _ (Or.inl rfl) hresponse, hpart "modify" _ (Or.inr rfl) hmodify⟩

end

/-! ## Two builds -/

namespace Document

open Definition (toggled validatorField)
open PathItem (gatewayField)

/-- Documents that differ in the toggled fields only are equal without them, as trees in stores that
agree on what is left. -/
theorem Twins.tree {examples : Bool} {E D : Nat → Prop} {st : Store} {d₁ d₂ : Document}
    {w₁ w₂ : World σ} (h : Twins examples E D st d₁ w₁ d₂ w₂) (hdisjoint : ∀ id, D id → ¬ E id)
    (hplain : Node.PlainFields d₁.paths) :
    d₁.without (toggled examples) [gatewayField] = d₂.without (toggled examples) [gatewayField] ∧
      (d₁.without (toggled examples) [gatewayField]).tree w₁.store
        = (d₂.without (toggled examples) [gatewayField]).tree w₂.store := by
  have hsame : d₁.without (toggled examples) [gatewayField]
      = d₂.without (toggled examples) [gatewayField] := by
    unfold Document.without
    rw [h.baseline, h.definitions, h.paths]
  refine ⟨hsame, ?_⟩
  have hagree : Store.Agree D w₁.store w₂.store := h.agree.mono hdisjoint
  have hdefinitions := h.fits₁.in
  have hfits : (PathItem.erasure [gatewayField]).Fits E D (.map d₁.paths) :=
    Erasure.Fits.of_plain hplain
  have hpaths := hfits.in
  rw [Erasure.of_map] at hdefinitions hpaths
  rw [← hsame]
  unfold Document.tree Document.without
  dsimp only
  rw [Node.In.entries hagree h.parted₁.closedD hdefinitions,
    Node.In.entries hagree h.parted₁.closedD hpaths]

/-- Two builds that are compared have read the same baseline and the same declarations. -/
theorem assembles_of_builds {manifest : Value} {options₁ options₂ : Options}
    {generator : Option (Generator σ)} {w w₁ w₂ : World σ} {d₁ d₂ : Document}
    (h₁ : Returns (build manifest options₁ generator) w d₁ w₁)
    (h₂ : Returns (build manifest options₂ generator) w d₂ w₂) :
    ∃ baseline backend declared v₁ v₂ rs₁ rs₂, declarations w.store manifest = .ok declared ∧
      Assembles options₁ backend generator declared { baseline } w rs₁ d₁ v₁ ∧
      Assembles options₂ backend generator declared { baseline } w rs₂ d₂ v₂ ∧
      w₁.store = v₁.store ∧ w₂.store = v₂.store := by
  obtain ⟨rs₁, baseline, backend, declared, v₁, hb, hk, hd, ha₁, rfl⟩ := build_iff.mp h₁
  obtain ⟨rs₂, baseline', backend', declared', v₂, hb', hk', hd', ha₂, rfl⟩ := build_iff.mp h₂
  rw [hb] at hb'
  cases hb'
  rw [hk] at hk'
  cases hk'
  rw [hd] at hd'
  cases hd'
  exact ⟨baseline, backend, declared, v₁, v₂, rs₁, rs₂, hd, ha₁, ha₂, rfl, rfl⟩

/-- In a manifest that shares nothing, examples and descriptions are two regions: what is read is in
neither of them, and a generator with objects of its own answers from the first one. -/
theorem regions_of_unshared {manifest : Value} {generator : Option (Generator σ)} {own : Nat → Prop}
    {declared : List (Value × Value)} {st : Store}
    (hdeclared : declarations st manifest = .ok declared) (hunshared : st.Unshared manifest)
    (hanswers : ∀ g, generator = some g → g.AnswersFrom own)
    (hown : ∀ root id, own root → st.Reaches (.ref root) id → ¬ st.Reaches manifest id) :
    ∃ E D, (∀ id, D id → ¬ E id) ∧ st.Closed E ∧ st.Closed D ∧
      (∀ st', Store.Parted E D st st' → Definition.AnswersIn false E D generator st') ∧
      (∀ model ∈ declared, ReadAlike false E D st model) ∧
      ∀ st', Store.Parted E D st st' → ∀ model ∈ declared,
        resourceOf st' model.1 model.2 = resourceOf st model.1 model.2 ∧
          ∀ r, resourceOf st model.1 model.2 = .ok r →
            declaredProperties st' r.response = declaredProperties st r.response ∧
              declaredProperties st' r.modify = declaredProperties st r.modify := by
  obtain ⟨models, hmodels, hat, _⟩ := declared_at hdeclared
  have hown' : ∀ root id, own root → st.Reaches (.ref root) id → ¬ st.Reaches models id :=
    fun root id hroot hr hm => hown root id hroot hr (hmodels.reaches hm)
  have hu := hmodels.unshared hunshared
  refine ⟨exampleRegion st models own, descriptionRegion st models, regions_disjoint hu hown',
    closed_exampleRegion, Store.closed_under _ _ _, ?_, ?_, ?_⟩
  · intro st' hparted g hg key s v hv
    refine (hanswers g hg st' key s v hv).mono ?_
    -- the region is closed, so what the generator's objects have come to hold is in it as well
    rintro id ⟨root, hroot, hr⟩
    exact hparted.closedE.of_reaches (v := .ref root) (Or.inr ⟨root, hroot, [], rfl⟩) hr
  · intro model hmodel
    obtain ⟨i, hname, hdecl⟩ := hat model hmodel
    exact readAlike hu hown' hname hdecl
  · intro st' hparted model hmodel
    obtain ⟨i, hname, hdecl⟩ := hat model hmodel
    have hkeeps := keeps_of_parted hown' hparted
    refine ⟨resourceOf_kept hu hkeeps hname hdecl, fun r hr => ?_⟩
    obtain ⟨hresponse, hmodify⟩ := parts_of_resource hdecl hr
    exact ⟨(hresponse.properties hu hkeeps (Or.inl rfl)).1,
      (hmodify.properties hu hkeeps (Or.inr rfl)).1⟩

/-- Two builds of a manifest that shares nothing: they differ in examples, validators and
integrations only. -/
theorem twins_of_unshared {manifest : Value} {options₁ options₂ : Options} {backend : Backend}
    {generator : Option (Generator σ)} {own : Nat → Prop} {baseline : Entries}
    {declared : List (Value × Value)} {w v₁ v₂ : World σ} {d₁ d₂ : Document}
    {rs₁ rs₂ : List Resource} (hdeclared : declarations w.store manifest = .ok declared)
    (hunshared : w.store.Unshared manifest)
    (hanswers : ∀ g, generator = some g → g.AnswersFrom own)
    (hown : ∀ root id, own root → w.store.Reaches (.ref root) id → ¬ w.store.Reaches manifest id)
    (h₁ : Assembles options₁ backend generator declared { baseline } w rs₁ d₁ v₁)
    (h₂ : Assembles options₂ backend generator declared { baseline } w rs₂ d₂ v₂) :
    ∃ E D, (∀ id, D id → ¬ E id) ∧ Twins false E D w.store d₁ v₁ d₂ v₂ := by
  obtain ⟨E, D, hdisjoint, hE, hD, hin, hread, _⟩ :=
    regions_of_unshared hdeclared hunshared hanswers hown
  exact ⟨E, D, hdisjoint, twins_of_assembles hdisjoint (by simp) (by simp) hin hread (.refl hE hD)
    h₁ h₂⟩

/-- Every value is in the region of all objects. -/
theorem in_everything (v : Value) :
    v.In (if true = true then fun _ => True else fun _ => False) := by
  cases v <;> trivial

/-- Two builds with the same examples read alike, since nothing tells their stores apart. -/
theorem readAlike_of_examples (st : Store) (model : Value × Value) :
    ReadAlike true (fun _ => False) (fun _ => True) st model := by
  intro st₁ st₂ _ _ hagree
  have hsame := hagree.eq fun _ h => h
  subst hsame
  have hpart : ∀ v, Definition.PartAlike true (fun _ => False) (fun _ => True) st₂ st₂ v :=
    fun v => ⟨rfl, fun _ _ _ _ => ⟨in_everything _, in_everything _⟩⟩
  exact ⟨rfl, fun r _ => ⟨hpart _, hpart _⟩⟩

/-- Two builds start from the same state. -/
theorem twins_everything {w : World σ} {baseline : Entries} :
    Twins true (fun _ => False) (fun _ => True) w.store { baseline } w { baseline } w :=
  .refl (fun _ _ h => h.elim) (fun _ _ _ _ _ _ => in_everything _)

/-- Two builds with the same examples: they differ in validators and integrations only. Nothing
tells their stores apart, so that all objects may be in one region. -/
theorem twins_of_examples {options₁ options₂ : Options} {backend : Backend}
    {generator : Option (Generator σ)} {baseline : Entries} {declared : List (Value × Value)}
    {w v₁ v₂ : World σ} {d₁ d₂ : Document} {rs₁ rs₂ : List Resource}
    (hexamples : options₁.examples = options₂.examples)
    (h₁ : Assembles options₁ backend generator declared { baseline } w rs₁ d₁ v₁)
    (h₂ : Assembles options₂ backend generator declared { baseline } w rs₂ d₂ v₂) :
    Twins true (fun _ => False) (fun _ => True) w.store d₁ v₁ d₂ v₂ :=
  twins_of_assembles (fun _ _ h => h) (fun _ _ h => h) (fun _ => hexamples)
    (fun _ _ _ _ _ _ _ _ => in_everything _) (fun _ _ => readAlike_of_examples _ _)
    twins_everything h₁ h₂

/--
**Toggles are independent.**

Take a manifest that shares nothing, and a generator whose objects are not the manifest's. Two
builds, with any options each, make documents that are equal without examples, validators and
gateway integrations. What the options of a build turn off is nowhere in its document. And if both
show examples, they show the same ones.
-/
theorem toggles_independent {manifest : Value} {options₁ options₂ : Options}
    {generator : Option (Generator σ)} {own : Nat → Prop} {w w₁ w₂ : World σ} {d₁ d₂ : Document}
    (hunshared : w.store.Unshared manifest)
    (hanswers : ∀ g, generator = some g → g.AnswersFrom own)
    (hown : ∀ root id, own root → w.store.Reaches (.ref root) id → ¬ w.store.Reaches manifest id)
    (h₁ : Returns (build manifest options₁ generator) w d₁ w₁)
    (h₂ : Returns (build manifest options₂ generator) w d₂ w₂) :
    (d₁.without ["example", validatorField] [gatewayField]).tree w₁.store
        = (d₂.without ["example", validatorField] [gatewayField]).tree w₂.store ∧
      (options₁.examples = false → ∀ key property schema,
        d₁.schema? key property = some schema → schema.get? "example" = none) ∧
      (options₁.validators = false → ∀ key property schema,
        d₁.schema? key property = some schema → schema.get? validatorField = none) ∧
      (options₁.apiGateway = false → ∀ path verb operation,
        d₁.operation? path verb = some operation → operation.get? gatewayField = none) ∧
      (options₁.examples = true → options₂.examples = true → ∀ key property,
        d₁.example? w₁.store key property = d₂.example? w₂.store key property) := by
  obtain ⟨baseline, backend, declared, v₁, v₂, rs₁, rs₂, hdeclared, ha₁, ha₂, hs₁, hs₂⟩ :=
    assembles_of_builds h₁ h₂
  have hplain : Node.PlainFields d₁.paths :=
    plain_of_assembles (d := { baseline }) trivial ha₁
  rw [hs₁, hs₂]
  -- without the three fields; each of them switched off; and the same examples
  refine ⟨?_, ?_, ?_, ?_, ?_⟩
  · obtain ⟨E, D, hdisjoint, htwins⟩ :=
      twins_of_unshared hdeclared hunshared hanswers hown ha₁ ha₂
    exact (htwins.tree hdisjoint hplain).2
  · intro hoff key property schema hschema
    exact schema_lacks (definitions_lack (Definition.lacks_example hoff) rfl ha₁)
      (List.mem_singleton_self _) hschema
  · intro hoff key property schema hschema
    exact schema_lacks (definitions_lack (Definition.lacks_validator hoff) rfl ha₁)
      (List.mem_singleton_self _) hschema
  · intro hoff path verb operation hoperation
    exact operation_lacks (paths_lack hoff rfl ha₁) (List.mem_singleton_self _) hoperation
  · intro hon₁ hon₂ key property
    have htwins := twins_of_examples (hon₁.trans hon₂.symm) ha₁ ha₂
    have hsame := (htwins.tree (fun _ _ h => h) hplain).1
    have hstores : v₂.store = v₁.store := htwins.agree.eq fun _ h => h
    unfold Document.example?
    have hkept : ∀ d : Document,
        ((d.without (toggled true) [gatewayField]).schema? key property).bind (Node.get? "example")
          = (d.schema? key property).bind (Node.get? "example") :=
      fun d => get?_schema?_without (by decide) d key property
    rw [← hkept d₁, ← hkept d₂, hsame, hstores]

/-- Two resources with one definition key. One has an example that is merged into the other's, and
a property without an example of its own. -/
def sharingExamples : Tree := .map [(.text "models", .map [
  (.text "x-y", .map [(.text "path", .text "/x/\x7bid\x7d"),
    (.text "methods", .list [.text "read"]),
    (.text "response", .map [(.text "p", .map [(.text "example", .map [(.text "a", .int 1)])])])]),
  (.text "x_y", .map [(.text "path", .text "/x"), (.text "methods", .list [.text "list"]),
    (.text "response", .map [(.text "p", .map [(.text "example", .map [(.text "b", .int 2)])]),
      (.text "q", .text "uuid")])])])]

/-- The values of a generator, and a manifest. -/
def sharingStore : Store × Value :=
  (Store.empty.insert (.map [(.text "uuid4", .map [(.text "u", .int 7)])])).1.insert sharingExamples

/-- All toggles off and on, with an example that is merged in place and one that is generated. -/
theorem toggles_independent_sharing : ∃ (d₁ d₂ : Document) (w₁ w₂ : World Unit),
    Returns (build sharingStore.2 { examples := false, validators := false }
        (some (.fixed (.ref 1)))) { store := sharingStore.1, examples := () } d₁ w₁ ∧
    Returns (build sharingStore.2 { apiGateway := true } (some (.fixed (.ref 1))))
      { store := sharingStore.1, examples := () } d₂ w₂ ∧
    ((d₂.schema? "XYResponse" "q").bind (Node.get? "example")).isSome = true ∧
    (d₁.without ["example", validatorField] [gatewayField]).tree w₁.store
      = (d₂.without ["example", validatorField] [gatewayField]).tree w₂.store ∧
    ∀ key property schema, d₁.schema? key property = some schema →
      schema.get? "example" = none ∧ schema.get? validatorField = none := by
  have hreturns₁ : (outcome (build sharingStore.2 { examples := false, validators := false }
      (some (.fixed (.ref 1)) : Option (Generator Unit)))
      { store := sharingStore.1, examples := () }).1.toOption.any (fun _ => true) = true := by
    rw [outcome_build_of_silent (by decide +kernel)]
    decide +kernel
  have hreturns₂ : (outcome (build sharingStore.2 { apiGateway := true }
      (some (.fixed (.ref 1)) : Option (Generator Unit)))
      { store := sharingStore.1, examples := () }).1.toOption.any (fun d =>
        ((d.schema? "XYResponse" "q").bind (Node.get? "example")).isSome) = true := by
    rw [outcome_build_of_silent (by decide +kernel)]
    decide +kernel
  obtain ⟨d₁, w₁, h₁, _⟩ := Returns.of_check hreturns₁
  obtain ⟨d₂, w₂, h₂, hexample⟩ := Returns.of_check hreturns₂
  obtain ⟨hunshared, _, hapart⟩ := Store.apart_insert
    (.map [(.text "uuid4", .map [(.text "u", .int 7)])]) sharingExamples .empty
  have hanswers : ∀ g, some (.fixed (.ref 1) : Generator Unit) = some g →
      g.AnswersFrom (Value.ref 1 = .ref ·) := by
    rintro g ⟨rfl⟩
    exact Generator.answersFrom_fixed _
  have hown : ∀ root id, Value.ref 1 = .ref root → sharingStore.1.Reaches (.ref root) id →
      ¬ sharingStore.1.Reaches sharingStore.2 id := by
    intro root id hroot
    rw [← hroot]
    exact hapart id
  obtain ⟨htree, hexamples, hvalidators, _⟩ := toggles_independent hunshared hanswers hown h₁ h₂
  exact ⟨d₁, d₂, w₁, w₂, h₁, h₂, hexample, htree, fun key property schema hschema =>
    ⟨hexamples rfl key property schema hschema, hvalidators rfl key property schema hschema⟩⟩

end Document
end ApiManifest
