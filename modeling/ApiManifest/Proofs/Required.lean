import ApiManifest.Proofs.Index

/-!
# What a document requires

A definition lists the names of the properties that have to be there. For the definition of one
resource they are those of the properties that are declared as required. Where resources with one
name in PascalCase share a definition its two halves go different ways: the properties are merged,
while the list of names is replaced by that of the last resource. So what an earlier resource
requires and no later one declares again is no longer required, though its property is still there.
-/

namespace ApiManifest

variable {σ : Type}

/-! ## Required names -/

namespace Definition

theorem mem_requiredNames {properties : Fields Property} (hd : properties.names.Nodup)
    {name : String} : name ∈ requiredNames properties ↔
      (Fields.get? name properties).any Property.required = true := by
  unfold requiredNames
  rw [Fields.names, List.mem_map]
  constructor
  · rintro ⟨⟨_, property⟩, hmem, rfl⟩
    obtain ⟨hmem, hrequired⟩ := List.mem_filter.mp hmem
    rw [Fields.get?_of_mem hd hmem]
    exact hrequired
  · intro h
    obtain ⟨property, hget, hrequired⟩ := (Option.any_eq_true _ _).mp h
    exact ⟨(name, property), List.mem_filter.mpr ⟨Fields.mem_of_get? hget, hrequired⟩, rfl⟩

theorem nodup_requiredNames {properties : Fields Property} (hd : properties.names.Nodup) :
    (requiredNames properties).Nodup :=
  hd.sublist (List.filter_sublist.map Prod.fst)

theorem requiredNames_subset (properties : Fields Property) :
    requiredNames properties ⊆ properties.names :=
  List.map_subset Prod.fst (List.filter_subset_self _)

/-- The properties that a resource declares for the definition of a key, if it has one of that
key. -/
def declaredFor (st : Store) (r : Resource) (key : String) : Option (Fields Property) :=
  if key = responseName r.name then (declaredProperties st r.response).toOption
  else if key = requestName r.name ∧ r.isReadOnly = false then
    (declaredProperties st r.modify).toOption
  else none

theorem nodup_declaredFor {st : Store} {r : Resource} {key : String} {properties : Fields Property}
    (h : declaredFor st r key = some properties) : properties.names.Nodup := by
  have hread : ∀ declared, (declaredProperties st declared).toOption = some properties →
      properties.names.Nodup := by
    intro declared hdeclared
    cases hresult : declaredProperties st declared with
    | error e => rw [hresult] at hdeclared; cases hdeclared
    | ok found =>
        rw [hresult] at hdeclared
        cases hdeclared
        exact nodup_declaredProperties hresult
  unfold declaredFor at h
  split at h
  · exact hread _ h
  · split at h
    · exact hread _ h
    · cases h

section

variable {r : Resource} {options : Options} {generator : Option (Generator σ)}
  {definitions : Fields Node} {w w' : World σ}
  (h : Returns (ofResource r options generator) w definitions w')

include h

/-- The definitions of a resource are made of what it declares for their keys. -/
theorem madeFor_of_get? {key : String} {part : Node}
    (hget : Fields.get? key definitions = some part) :
    ∃ properties parts, declaredFor w.store r key = some properties ∧
      part = withSchemas properties parts ∧ parts.names = properties.names := by
  obtain ⟨response, w₁, hresponse, hrest⟩ := ofResource_cases h
  have hentry : (key = responseName r.name ∧ part = response) ∨
      ∃ modify, r.isReadOnly = false ∧
        Returns (build r.name r.modify options generator) w₁ modify w' ∧
        key = requestName r.name ∧ part = modify := by
    have hmem := Fields.mem_of_get? hget
    rcases hrest with ⟨_, rfl, _⟩ | ⟨modify, hro, hmodify, rfl⟩
    · exact Or.inl (by simpa using hmem)
    · rcases List.mem_cons.mp hmem with heq | hmem
      · exact Or.inl (by simpa using heq)
      · exact Or.inr ⟨modify, hro, hmodify, by simpa using hmem⟩
  rcases hentry with ⟨rfl, rfl⟩ | ⟨modify, hro, hmodify, rfl, rfl⟩
  · obtain ⟨properties, parts, hdeclared, hparts, rfl⟩ := build_cases hresponse
    refine ⟨properties, parts, ?_, rfl, (schemas_cases hparts).2⟩
    rw [declaredFor, if_pos rfl, hdeclared]
    rfl
  · obtain ⟨properties, parts, hdeclared, hparts, rfl⟩ := build_cases hmodify
    rw [build_store hresponse] at hdeclared
    refine ⟨properties, parts, ?_, rfl, (schemas_cases hparts).2⟩
    rw [declaredFor, if_neg (responseName_ne_requestName r.name r.name).symm, if_pos ⟨rfl, hro⟩,
      hdeclared]
    rfl

/-- A resource declares nothing for other keys. -/
theorem declaredFor_eq_none {key : String} (hkey : key ∉ definitions.names) :
    declaredFor w.store r key = none := by
  rw [names_ofResource h] at hkey
  have hresponse : key ≠ responseName r.name := fun heq => hkey (heq ▸ List.mem_cons_self)
  have hrequest : ¬ (key = requestName r.name ∧ r.isReadOnly = false) := by
    rintro ⟨rfl, hro⟩
    simp [hro] at hkey
  rw [declaredFor, if_neg hresponse, if_neg hrequest]

end

/-! ## Definitions that several resources share -/

/-- The definition that some maps of properties make, each merged into those before it: all their
properties are there, and what the last one requires is required. -/
def MadeOf (feeds : List (Fields Property)) (part : Node) : Prop :=
  ∃ last parts, feeds.getLast? = some last ∧ part = withSchemas last parts ∧
    parts.names = (feeds.flatMap Fields.names).eraseDups

theorem madeOf_singleton {properties : Fields Property} {parts : Fields Node}
    (hd : properties.names.Nodup) (h : parts.names = properties.names) :
    MadeOf [properties] (withSchemas properties parts) := by
  refine ⟨properties, parts, rfl, rfl, ?_⟩
  rw [h, List.flatMap_singleton, eraseDups_of_nodup hd]

/-- Of two definitions the properties are merged, and the list of names is the new one. -/
theorem overlay_withSchemas (maps : Nat → Bool) (old new : Fields Property)
    (parts more : Fields Node) :
    Node.overlay maps (withSchemas old parts) (withSchemas new more)
      = withSchemas new (Node.overlayFields maps parts more) := by
  simp [withSchemas, Node.overlay, Node.overlayFields, Fields.get?, Fields.put]

theorem MadeOf.overlay {maps : Nat → Bool} {feeds : List (Fields Property)} {old : Node}
    {properties : Fields Property} {more : Fields Node} (h : MadeOf feeds old)
    (hmore : more.names = properties.names) :
    MadeOf (feeds ++ [properties]) (Node.overlay maps old (withSchemas properties more)) := by
  obtain ⟨last, parts, _, rfl, hparts⟩ := h
  have hnodup : parts.names.Nodup := hparts ▸ PathTemplate.nodup_eraseDups _
  refine ⟨properties, Node.overlayFields maps parts more, List.getLast?_concat,
    overlay_withSchemas maps last properties parts more, ?_⟩
  rw [Node.names_overlayFields hnodup, hparts, hmore, eraseDups_eraseDups_append,
    List.flatMap_append, List.flatMap_singleton]

/-- The last declaration of a property in some maps, one after the other. -/
def lastDeclared (feeds : List (Fields Property)) (name : String) : Option Property :=
  (feeds.filterMap (Fields.get? name)).getLast?

theorem lastDeclared_concat (feeds : List (Fields Property)) (last : Fields Property)
    (name : String) : lastDeclared (feeds ++ [last]) name
      = (Fields.get? name last).or (lastDeclared feeds name) := by
  unfold lastDeclared
  rw [List.filterMap_append, List.getLast?_append]
  cases hget : Fields.get? name last <;> simp [hget]

/-- What the last map requires is what the last declarations require, but for the properties that
an earlier map requires and the last one does not declare. -/
theorem mem_requiredNames_iff {feeds : List (Fields Property)} {last : Fields Property}
    (hlast : feeds.getLast? = some last) (hd : last.names.Nodup) (name : String) :
    (name ∈ requiredNames last ↔ (lastDeclared feeds name).any Property.required = true) ↔
      (name ∈ last.names ∨ (lastDeclared feeds name).any Property.required = false) := by
  obtain ⟨before, rfl⟩ := List.getLast?_eq_some_iff.mp hlast
  rw [mem_requiredNames hd, lastDeclared_concat, ← Fields.get?_isSome_iff]
  cases Fields.get? name last <;> simp

end Definition

/-! ## Resources and their turns -/

namespace Document

open Definition (declaredFor lastDeclared MadeOf requiredNames)

/-- A resource, and the objects as they are when its turn comes. -/
structure Turn where
  store : Store
  resource : Resource

/-- Merging what declared resources contribute into a document, with the objects that each of them
is read from. -/
inductive Takes (options : Options) (backend : Backend) (generator : Option (Generator σ)) :
    List (Value × Value) → Document → World σ → List Turn → Document → World σ → Prop where
  | done {d : Document} {w : World σ} : Takes options backend generator [] d w [] d w
  | next {name decl : Value} {rest : List (Value × Value)} {d d₁ d' : Document}
      {w w₁ w' : World σ} {r : Resource} {turns : List Turn} :
      resourceOf w.store name decl = .ok r →
      Returns (addResource d r options backend generator)
        { w with log := w.log ++ generating w.store name } d₁ w₁ →
      Takes options backend generator rest d₁ w₁ turns d' w' →
      Takes options backend generator ((name, decl) :: rest) d w (⟨w.store, r⟩ :: turns) d' w'

/-- Resources are assembled turn by turn. -/
theorem assembles_iff_takes {options : Options} {backend : Backend}
    {generator : Option (Generator σ)} {models : List (Value × Value)} {d d' : Document}
    {w w' : World σ} {rs : List Resource} :
    Assembles options backend generator models d w rs d' w' ↔
      ∃ turns, turns.map Turn.resource = rs ∧
        Takes options backend generator models d w turns d' w' := by
  constructor
  · intro h
    induction h with
    | done => exact ⟨[], rfl, .done⟩
    | next hread hadd _ ih =>
        obtain ⟨turns, rfl, hturns⟩ := ih
        exact ⟨_, rfl, .next hread hadd hturns⟩
  · rintro ⟨turns, rfl, h⟩
    induction h with
    | done => exact .done
    | next hread hadd _ ih => exact .next hread hadd ih

/-- The build of a document reads these resources, each when its turn comes, and returns `d`. -/
def TakesTurns (manifest : Value) (options : Options) (generator : Option (Generator σ))
    (w : World σ) (turns : List Turn) (d : Document) (w' : World σ) : Prop :=
  ∃ baseline backend declared w₁,
    Baseline.ofManifest (w.store.tree manifest) = .ok (.map baseline) ∧
      Backend.ofDocument (.map baseline) = .ok backend ∧
      declarations w.store manifest = .ok declared ∧
      Takes options backend generator declared { baseline } w turns d w₁ ∧
      { w₁ with log := w₁.log ++ [assembled d] } = w'

/-- **A build returns exactly when every resource takes its turn.** -/
theorem returns_iff_takesTurns {manifest : Value} {options : Options}
    {generator : Option (Generator σ)} {w w' : World σ} {d : Document} :
    Returns (build manifest options generator) w d w' ↔
      ∃ turns, TakesTurns manifest options generator w turns d w' := by
  rw [build_iff]
  constructor
  · rintro ⟨rs, baseline, backend, declared, w₁, hbaseline, hbackend, hdeclared, hrs, hw⟩
    obtain ⟨turns, _, hturns⟩ := assembles_iff_takes.mp hrs
    exact ⟨turns, baseline, backend, declared, w₁, hbaseline, hbackend, hdeclared, hturns, hw⟩
  · rintro ⟨turns, baseline, backend, declared, w₁, hbaseline, hbackend, hdeclared, hturns, hw⟩
    exact ⟨_, baseline, backend, declared, w₁, hbaseline, hbackend, hdeclared,
      assembles_iff_takes.mpr ⟨turns, rfl, hturns⟩, hw⟩

/-- The maps of properties that some resources declare for the definition of a key. -/
def feeds (key : String) (turns : List Turn) : List (Fields Property) :=
  turns.filterMap fun turn => declaredFor turn.store turn.resource key

theorem feeds_concat (key : String) (turns : List Turn) (turn : Turn) :
    feeds key (turns ++ [turn])
      = feeds key turns ++ (declaredFor turn.store turn.resource key).toList := by
  unfold feeds
  rw [List.filterMap_append]
  cases h : declaredFor turn.store turn.resource key <;> simp [h]

theorem nodup_of_mem_feeds {key : String} {turns : List Turn} {properties : Fields Property}
    (h : properties ∈ feeds key turns) : properties.names.Nodup := by
  obtain ⟨turn, _, hturn⟩ := List.mem_filterMap.mp h
  exact Definition.nodup_declaredFor hturn

/-- Every definition is made of what the resources declare for its key. -/
def FedBy (turns : List Turn) (d : Document) : Prop :=
  ∀ key, match Fields.get? key d.definitions with
    | some part => MadeOf (feeds key turns) part
    | none => feeds key turns = []

section

variable {options : Options} {backend : Backend} {generator : Option (Generator σ)}
  {d d' : Document} {w w' : World σ} {turns : List Turn}

/-- **Preserved by every resource.** -/
theorem FedBy.addResource {r : Resource} (h : FedBy turns d)
    (hadd : Returns (addResource d r options backend generator) w d' w') :
    FedBy (turns ++ [⟨w.store, r⟩]) d' := by
  obtain ⟨definitions, _, _, hdefinitions, _, rfl, _⟩ := addResource_cases hadd
  intro key
  have hold := h key
  rw [feeds_concat]
  -- a key that the resource lacks keeps its definition; one that it has is fed by it last
  cases hsource : Fields.get? key definitions with
  | none =>
      have habsent := Fields.get?_eq_none_iff.mp hsource
      rw [Node.get?_overlayFields_of_absent habsent,
        Definition.declaredFor_eq_none hdefinitions habsent, Option.toList_none, List.append_nil]
      exact hold
  | some part =>
      obtain ⟨properties, parts, hdeclared, rfl, hparts⟩ :=
        Definition.madeFor_of_get? hdefinitions hsource
      rw [Node.get?_overlayFields (Definition.nodup_names_ofResource hdefinitions) hsource,
        hdeclared, Option.toList_some]
      cases htarget : Fields.get? key d.definitions with
      | none =>
          rw [htarget] at hold
          rw [hold]
          exact Definition.madeOf_singleton (Definition.nodup_declaredFor hdeclared) hparts
      | some existing =>
          rw [htarget] at hold
          exact hold.overlay hparts

/-- **The run.** -/
theorem fedBy_of_takes {models : List (Value × Value)} (before : List Turn)
    (hbefore : FedBy before d) (h : Takes options backend generator models d w turns d' w') :
    FedBy (before ++ turns) d' := by
  induction h generalizing before with
  | done => exact (List.append_nil before).symm ▸ hbefore
  | next _ hadd _ ih =>
      have hrest := ih _ (hbefore.addResource hadd)
      rwa [List.append_assoc] at hrest

end

/--
**When the required names agree with the declarations.**

Whenever the build of a document returns, every definition lists names of its properties, each of
them at most once. A property is among them exactly if the last resource that declares it for this
definition requires it, under one condition: the last one of all resources with this definition
declares the property too, or the property is not required.
-/
theorem required_agrees_iff {manifest : Value} {options : Options}
    {generator : Option (Generator σ)} {w w' : World σ} {turns : List Turn} {d : Document}
    (h : TakesTurns manifest options generator w turns d w') {key : String} {definition : Node}
    (hget : Fields.get? key d.definitions = some definition) :
    ∃ (required : List String) (properties : Fields Node) (last : Fields Property),
      definition.get? "required" = some (.list (required.map .text)) ∧
      definition.get? "properties" = some (.map properties) ∧
      (feeds key turns).getLast? = some last ∧
      required.Nodup ∧ (∀ name ∈ required, name ∈ properties.names) ∧
      ∀ name ∈ properties.names,
        ((name ∈ required ↔
            (lastDeclared (feeds key turns) name).any Property.required = true) ↔
          (name ∈ last.names ∨
            (lastDeclared (feeds key turns) name).any Property.required = false)) := by
  obtain ⟨baseline, _, _, _, _, _, _, htakes, _⟩ := h
  have hfed := fedBy_of_takes [] (d := { baseline }) (fun _ => rfl) htakes key
  rw [hget] at hfed
  -- the last one that fed the definition decides on the list, and all of them on the properties
  obtain ⟨last, properties, hlast, rfl, hnames⟩ := hfed
  have hmem : last ∈ feeds key turns := List.mem_of_getLast? hlast
  have hnodup := nodup_of_mem_feeds hmem
  refine ⟨requiredNames last, properties, last, rfl, rfl, hlast,
    Definition.nodup_requiredNames hnodup, fun name hname => ?_,
    fun name _ => Definition.mem_requiredNames_iff hlast hnodup name⟩
  rw [hnames, List.mem_eraseDups, List.mem_flatMap]
  exact ⟨last, hmem, Definition.requiredNames_subset last hname⟩

/-- Where there are two resources, both are read as they are declared: the first one meets
nothing. -/
theorem feeds_of_pair {manifest : Value} {options : Options} {generator : Option (Generator σ)}
    {w w' : World σ} {turns : List Turn} {d : Document} (first second : Value × Value)
    {key : String} {old new : Fields Property}
    (hmodels : declarations w.store manifest = .ok [first, second])
    (hold : (resourceOf w.store first.1 first.2).toOption.all
      (fun r => declaredFor w.store r key = some old) = true)
    (hnew : (resourceOf w.store second.1 second.2).toOption.all
      (fun r => declaredFor w.store r key = some new) = true)
    (h : TakesTurns manifest options generator w turns d w') : feeds key turns = [old, new] := by
  obtain ⟨baseline, _, declared, _, _, _, hdeclared, htakes, _⟩ := h
  rw [hmodels] at hdeclared
  cases hdeclared
  cases htakes with
  | @next _ _ _ _ _ _ _ w₁ _ r _ hread hadd hrest =>
      cases hrest with
      | @next _ _ _ _ _ _ _ _ _ r' _ hread' _ hnone =>
          cases hnone
          have hfree := freeOf_start [Naming.pascalCase r.name] baseline r.name List.mem_cons_self
          have hstore := (untouched_addResource hfree.1 hfree.2).store hadd
          dsimp only at hstore
          rw [hstore] at hread' ⊢
          rw [hread] at hold
          rw [hread'] at hnew
          have hold : declaredFor w.store r key = some old := of_decide_eq_true hold
          have hnew : declaredFor w.store r' key = some new := of_decide_eq_true hnew
          simp only [feeds, List.filterMap_cons, List.filterMap_nil, hold, hnew]

/-- Two resources with one name in PascalCase. The second one declares again only one of the two
properties of the first one. -/
def redeclaringManifest : Tree := .map [(.text "models", .map [
  (.text "x-y", .map [(.text "path", .text "/x"), (.text "methods", .list []),
    (.text "response", .map [(.text "p", .text "string"), (.text "q?", .text "string")])]),
  (.text "x_y", .map [(.text "path", .text "/x"), (.text "methods", .list []),
    (.text "response", .map [(.text "q", .text "string")])])])]

/-- What the two resources declare for the definition that they share. -/
theorem feeds_redeclaring {turns : List Turn} {d : Document} {w' : World Unit}
    (h : TakesTurns (Store.empty.insert redeclaringManifest).2 {} (none : Option (Generator Unit))
      { store := (Store.empty.insert redeclaringManifest).1, examples := () } turns d w') :
    feeds "XYResponse" turns = [
      [("p", { type := "string" }), ("q", { type := "string", required := false })],
      [("q", { type := "string" })]] :=
  feeds_of_pair (.text "x-y", .ref 2) (.text "x_y", .ref 5)
    (by decide +kernel) (by decide +kernel) (by decide +kernel) h

/-- The build of the shared definition. -/
theorem takesTurns_redeclaring : ∃ (turns : List Turn) (d : Document) (w' : World Unit)
    (definition : Node),
    TakesTurns (Store.empty.insert redeclaringManifest).2 {} (none : Option (Generator Unit))
      { store := (Store.empty.insert redeclaringManifest).1, examples := () } turns d w' ∧
    Fields.get? "XYResponse" d.definitions = some definition := by
  have hreturns : (outcome (build (Store.empty.insert redeclaringManifest).2 {}
      (none : Option (Generator Unit)))
      { store := (Store.empty.insert redeclaringManifest).1, examples := () }).1.toOption.any
      (fun d => (Fields.get? "XYResponse" d.definitions).isSome) = true := by
    rw [outcome_build_of_silent (by decide +kernel)]
    decide +kernel
  obtain ⟨d, w', h, hcheck⟩ := Returns.of_check hreturns
  obtain ⟨definition, hget⟩ := Option.isSome_iff_exists.mp hcheck
  obtain ⟨turns, hturns⟩ := returns_iff_takesTurns.mp h
  exact ⟨turns, d, w', definition, hturns, hget⟩

/-- The required names of the shared definition. -/
theorem required_agrees_iff_redeclaring : ∃ (turns : List Turn) (d : Document) (w' : World Unit)
    (definition : Node) (required : List String) (properties : Fields Node)
    (last : Fields Property),
    TakesTurns (Store.empty.insert redeclaringManifest).2 {} (none : Option (Generator Unit))
      { store := (Store.empty.insert redeclaringManifest).1, examples := () } turns d w' ∧
    Fields.get? "XYResponse" d.definitions = some definition ∧
    definition.get? "required" = some (.list (required.map .text)) ∧
    definition.get? "properties" = some (.map properties) ∧
    (feeds "XYResponse" turns).getLast? = some last ∧
    required.Nodup ∧ (∀ name ∈ required, name ∈ properties.names) ∧
    ∀ name ∈ properties.names,
      ((name ∈ required ↔
          (lastDeclared (feeds "XYResponse" turns) name).any Property.required = true) ↔
        (name ∈ last.names ∨
          (lastDeclared (feeds "XYResponse" turns) name).any Property.required = false)) := by
  obtain ⟨turns, d, w', definition, h, hget⟩ := takesTurns_redeclaring
  obtain ⟨required, properties, last, hall⟩ := required_agrees_iff h hget
  exact ⟨turns, d, w', definition, required, properties, last, h, hget, hall⟩

/-- What an earlier resource requires is lost where a later one shares its definition. -/
theorem not_required_agrees :
    ¬ ∀ (manifest : Value) (options : Options) (generator : Option (Generator Unit))
      (w w' : World Unit) (turns : List Turn) (d : Document),
      TakesTurns manifest options generator w turns d w' →
      ∀ (key : String) (definition : Node) (required : List String) (properties : Fields Node),
        Fields.get? key d.definitions = some definition →
        definition.get? "required" = some (.list (required.map .text)) →
        definition.get? "properties" = some (.map properties) →
        ∀ name ∈ properties.names, (name ∈ required ↔
          (lastDeclared (feeds key turns) name).any Property.required = true) := by
  intro hall
  obtain ⟨turns, d, w', definition, h, hget⟩ := takesTurns_redeclaring
  obtain ⟨baseline, _, _, _, _, _, _, htakes, _⟩ := id h
  have hfed := fedBy_of_takes [] (d := { baseline }) (fun _ => rfl) htakes "XYResponse"
  rw [hget] at hfed
  obtain ⟨last, properties, hlast, rfl, hnames⟩ := hfed
  have hagrees :=
    hall _ _ _ _ _ _ _ h "XYResponse" _ (requiredNames last) properties hget rfl rfl "p"
  rw [List.nil_append] at hlast hnames
  rw [hnames, feeds_redeclaring h] at hagrees
  rw [feeds_redeclaring h] at hlast
  cases hlast
  exact absurd (hagrees (by decide)) (by decide)

end Document
end ApiManifest
