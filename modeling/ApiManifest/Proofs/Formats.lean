import ApiManifest.Manifest
import ApiManifest.Proofs.JsonBaseline
import ApiManifest.Proofs.JsonForms
import ApiManifest.Proofs.Required

/-!
# Documents in both formats

A document is made of what the template says, of words, of what a generator answers, and of the
descriptions and examples that resources declare. All but the last have a form in JSON. So a
document that was written in YAML is written in JSON too, exactly if the declared descriptions and
examples in it have a form.
-/

namespace ApiManifest

/-! ## Trees -/

namespace Store

variable {st st' : Store}

/-- Values of trees each have a form, if the trees do. -/
theorem hasJson_insertAll {items : List Tree}
    (hitems : ∀ x ∈ items, ∀ {st st' : Store}, (st.insert x).1.Extends st' →
      st'.HasJson (st.insert x).2)
    (hext : (st.insertAll items).1.Extends st') : ∀ v ∈ (st.insertAll items).2, st'.HasJson v := by
  induction items generalizing st with
  | nil => simp [insertAll]
  | cons x rest ih =>
      obtain ⟨hx, hrest⟩ := List.forall_mem_cons.mp hitems
      have hlater := (allFresh_insertAll rest (st.insert x).1).1
      exact List.forall_mem_cons.mpr ⟨hx (hlater.trans hext), ih hrest hext⟩

theorem hasJson_insertEntries {es : List (Tree × Tree)}
    (hkeys : ∀ e ∈ es, ∃ s : Scalar, e.1 = .scalar s ∧ s.HasJson)
    (hvalues : ∀ e ∈ es, ∀ {st st' : Store}, (st.insert e.2).1.Extends st' →
      st'.HasJson (st.insert e.2).2)
    (hext : (st.insertEntries es).1.Extends st') :
    ∀ e ∈ (st.insertEntries es).2, e.1.IsJsonKey ∧ st'.HasJson e.2 := by
  induction es generalizing st with
  | nil => simp [insertEntries]
  | cons e rest ih =>
      rcases e with ⟨k, x⟩
      obtain ⟨⟨s, rfl, hs⟩, hkeys'⟩ := List.forall_mem_cons.mp hkeys
      obtain ⟨hx, hrest⟩ := List.forall_mem_cons.mp hvalues
      have hlater := (allFresh_insertEntries rest (st.insert x).1).1
      exact List.forall_mem_cons.mpr ⟨⟨hs, hx (hlater.trans hext)⟩, ih hkeys' hrest hext⟩

theorem HasJson.alloc {cell : Cell} {parts : List Value} (hext : (st.alloc cell).1.Extends st')
    (hkind : cell.JsonParts parts) (hparts : ∀ v ∈ parts, st'.HasJson v) :
    st'.HasJson (st.alloc cell).2 := by
  have hcell : (st.alloc cell).1.cells[st.cells.size]? = some cell := by simp [Store.alloc]
  have hsize : st.cells.size < (st.alloc cell).1.cells.size := by simp [Store.alloc]
  exact .object ((hext.cells _ hsize).trans hcell) hkind hparts

/-- The value of a tree has a form, if the tree does. -/
theorem hasJson_insert {t : Tree} (h : t.HasJson) : ∀ {st st' : Store},
    (st.insert t).1.Extends st' → st'.HasJson (st.insert t).2 := by
  induction h with
  | scalar hs => exact fun _ => .scalar hs
  | list _ ih =>
      intro st st' hext
      exact .alloc hext (.list _) (hasJson_insertAll ih ((extends_alloc _ _).trans hext))
  | tuple _ ih =>
      intro st st' hext
      exact .alloc hext (.tuple _) (hasJson_insertAll ih ((extends_alloc _ _).trans hext))
  | map hkeys _ ih =>
      intro st st' hext
      have hentries := hasJson_insertEntries hkeys ih ((extends_alloc _ _).trans hext)
      refine .alloc hext (.map _ fun e he => (hentries e he).1) fun v hv => ?_
      obtain ⟨e, he, rfl⟩ := List.mem_map.mp hv
      exact (hentries e he).2

end Store

/-! ## Parts -/

namespace Node

variable {st st' : Store}

/-- The leaves of a part each have a form. -/
abbrev HasJson (st : Store) (part : Node) : Prop := All st.HasJson (fun _ _ => True) part

mutual

/-- A part that is made an object has a form, just if its leaves do. -/
theorem hasJson_insert : ∀ (part : Node) {st : Store}, (insert st part).1.Extends st' →
    (st'.HasJson (insert st part).2 ↔ part.HasJson st')
  | .leaf v, _, _ => Iff.rfl
  | .list items, st, hext => by
      have hcell : st'.cells[(insertAll st items).1.cells.size]? =
          some (.list (insertAll st items).2) := by
        refine (hext.cells _ ?_).trans ?_ <;> simp [insert, Store.alloc]
      have hitems := hasJson_insertAll items ((Store.extends_alloc _ _).trans hext)
      refine ((Store.hasJson_ref_iff hcell).trans ⟨?_, fun h => ⟨_, .list _, h⟩⟩).trans hitems
      rintro ⟨parts, hkind, h⟩
      cases hkind
      exact h
  | .map fields, st, hext => by
      have hcell : st'.cells[(insertFields st fields).1.cells.size]? =
          some (.map (insertFields st fields).2) := by
        refine (hext.cells _ ?_).trans ?_ <;> simp [insert, Store.alloc]
      obtain ⟨hkeys, hvalues⟩ := hasJson_insertFields fields ((Store.extends_alloc _ _).trans hext)
      refine ((Store.hasJson_ref_iff hcell).trans
        ⟨?_, fun h => ⟨_, .map _ hkeys, ?_⟩⟩).trans hvalues
      · rintro ⟨parts, hkind, h⟩ e he
        cases hkind
        exact h e.2 (List.mem_map_of_mem he)
      · intro v hv
        obtain ⟨e, he, rfl⟩ := List.mem_map.mp hv
        exact h e he

theorem hasJson_insertAll : ∀ (items : List Node) {st : Store}, (insertAll st items).1.Extends st' →
    ((∀ v ∈ (insertAll st items).2, st'.HasJson v) ↔
      AllItems st'.HasJson (fun _ _ => True) items)
  | [], _, _ => by simp [insertAll, AllItems]
  | x :: rest, st, hext => by
      have hfirst := hasJson_insert x ((extends_insertAll rest _).trans hext)
      have hrest := hasJson_insertAll rest hext
      exact List.forall_mem_cons.trans (and_congr hfirst hrest)

theorem hasJson_insertFields : ∀ (fields : List (String × Node)) {st : Store},
    (insertFields st fields).1.Extends st' →
    (∀ e ∈ (insertFields st fields).2, e.1.IsJsonKey) ∧
      ((∀ e ∈ (insertFields st fields).2, st'.HasJson e.2) ↔
        AllFields st'.HasJson (fun _ _ => True) fields)
  | [], _, _ => by simp [insertFields, AllFields]
  | (name, x) :: rest, st, hext => by
      have hfirst := hasJson_insert x ((extends_insertFields rest _).trans hext)
      obtain ⟨hkeys, hrest⟩ := hasJson_insertFields rest hext
      refine ⟨List.forall_mem_cons.mpr ⟨trivial, hkeys⟩, ?_⟩
      refine List.forall_mem_cons.trans (and_congr ?_ hrest)
      exact hfirst.trans (true_and _).symm.to_iff

end

end Node

/-! ## Documents -/

namespace Document

variable {st : Store} {d : Document}

/-- A document that was written in YAML is written in JSON just if it has a form there. -/
theorem exists_json_iff {text : String} (h : Output.renderDocument st d .yaml = .ok text) :
    (∃ json, Output.renderDocument st d .json = .ok json) ↔
      (d.object st).1.HasJson (d.object st).2 := by
  obtain ⟨outline, houtline, -⟩ := outline_of_renderDocument h
  obtain ⟨S, hS, hentries⟩ := Yaml.Outline.exists_outlined houtline
  have hparts : ∀ v ∈ (Cell.map (d.insert st).2).parts, v.Outlined S := by
    intro v hv
    obtain ⟨e, he, hv⟩ := List.mem_flatMap.mp hv
    rcases List.mem_cons.mp hv with rfl | hv
    · exact (hentries e he).1
    · exact List.mem_singleton.mp hv ▸ (hentries e he).2
  have hjson : (∃ json, Output.renderDocument st d .json = .ok json) ↔
      ∃ text, Json.pretty (d.object st).1 ((d.object st).1.cells.size + 1) 0 (d.object st).2
        = .ok text := by
    constructor
    · rintro ⟨json, hjson⟩
      obtain ⟨text, htext, -⟩ := result_bind_iff.mp hjson
      exact ⟨text, htext⟩
    · rintro ⟨text, htext⟩
      exact ⟨_, result_bind_iff.mpr ⟨text, htext, rfl⟩⟩
  refine hjson.trans ((Json.exists_pretty_ref_iff (cells_object st d) hparts).trans ?_)
  refine Iff.trans ?_ (Store.hasJson_ref_iff (cells_object st d)).symm
  refine exists_congr fun parts => and_congr_right fun hkind => forall₂_congr fun v hv => ?_
  exact (Json.exists_pretty_iff hS (hparts v (hkind.mem_parts hv))).trans Store.hasJson_iff.symm

/-- A document has a form in JSON just if its definitions do, given that all else does. -/
theorem hasJson_object_iff (hbaseline : (Tree.map d.baseline).HasJson)
    (hpaths : (Node.map d.paths).HasJson (d.object st).1) :
    (d.object st).1.HasJson (d.object st).2 ↔
      (Node.map d.definitions).HasJson (d.object st).1 := by
  -- the store grows from the baseline over the paths and the definitions to the document
  have hlast : (Node.insert (Node.insert (st.insertEntries d.baseline).1 (.map d.paths)).1
      (.map d.definitions)).1.Extends (d.object st).1 := Store.extends_alloc _ _
  have hmiddle := (Node.extends_insert (.map d.definitions) _).trans hlast
  have hfirst := (Node.extends_insert (.map d.paths) (st.insertEntries d.baseline).1).trans hmiddle
  have hentries : ∀ e ∈ (st.insertEntries d.baseline).2,
      e.1.IsJsonKey ∧ (d.object st).1.HasJson e.2 := by
    cases hbaseline with
    | map hkeys hvalues =>
        exact Store.hasJson_insertEntries hkeys
          (fun e he _ _ => Store.hasJson_insert (hvalues e he)) hfirst
  have hfilled := ((Node.insert (st.insertEntries d.baseline).1 (.map d.paths)).1.forall_put_iff
    (.text "paths") _ hentries trivial).mpr
      ((Node.hasJson_insert (.map d.paths) hmiddle).mpr hpaths)
  have hiff := (d.insert st).1.forall_put_iff (.text "definitions")
    (Node.insert (Node.insert (st.insertEntries d.baseline).1 (.map d.paths)).1
      (.map d.definitions)).2 hfilled trivial
  rw [← Node.hasJson_insert (.map d.definitions) hlast]
  refine Iff.trans ?_ hiff
  refine (Store.hasJson_ref_iff (cells_object st d)).trans ⟨?_, fun h => ?_⟩
  · rintro ⟨parts, hkind, h⟩ e he
    cases hkind with
    | map _ hkeys => exact ⟨hkeys e he, h e.2 (List.mem_map_of_mem he)⟩
  · refine ⟨_, .map _ fun e he => (h e he).1, fun v hv => ?_⟩
    obtain ⟨e, he, rfl⟩ := List.mem_map.mp hv
    exact (h e he).2

end Document

/-! ## Where the values in definitions come from -/

variable {σ : Type}

/-- A generator answers with scalars that have a form in JSON. -/
def Generator.AnswersJson (g : Generator σ) : Prop :=
  ∀ st key s v, (g.ask st key s).result = .ok v → v.IsJsonKey

theorem Provided.hasJson_toScalar {provided : Provided} {s : Scalar}
    (h : provided.toScalar = .ok s) : s.HasJson := by
  cases provided with
  | value t =>
      cases t with
      | scalar t => cases t <;> cases h <;> trivial
      | _ => cases h; trivial
  | time text => cases h; trivial
  | decimal text =>
      obtain ⟨x, -, h⟩ := result_bind_iff.mp h
      cases h
      trivial

/-- Bytes are no answer of a provider, and neither are objects. -/
theorem Providers.answersJson_generator (ps : Providers) : ps.generator.AnswersJson := by
  intro st key calls v h
  replace h : (ps.ask key calls).result = .ok v := h
  unfold Providers.ask at h
  dsimp only at h
  repeat' split at h
  all_goals cases h
  all_goals first
    | trivial
    | exact Provided.hasJson_toScalar ‹_›

/-- The value has a form in JSON, or is one of those that are given. -/
abbrev Value.JsonOr (given : Value → Prop) (v : Value) : Prop := v.IsJsonKey ∨ given v

/-- The leaves of the fields have a form in JSON, but for those that are given. -/
abbrev Node.JsonOr (given : Value → Prop) (fields : Fields Node) : Prop :=
  Node.AllFields (·.JsonOr given) (fun _ _ => True) fields

theorem Node.isJsonKey_of_isWord {v : Value} (h : Node.isWord v) : v.IsJsonKey := by
  cases v with
  | scalar s => cases s <;> trivial
  | ref id => exact h.elim

namespace Definition

/-- The value is the description or the example of one of the properties. -/
def Authored (properties : Fields Property) (v : Value) : Prop :=
  ∃ entry ∈ properties, v = entry.2.description ∨ v = entry.2.example?

section

variable {generator : Option (Generator σ)} (hanswers : ∀ g, generator = some g → g.AnswersJson)
  {options : Options} {w w' : World σ} {given : Value → Prop}

include hanswers

/-- The example of a property is an answer of the generator, or its author's. -/
theorem jsonOr_shownExample {property : Property} {part : Node}
    (h : Returns (shownExample property options generator) w (some part) w')
    (hgiven : given property.example?) :
    Node.All (·.JsonOr given) (fun _ _ => True) part := by
  unfold shownExample at h
  split at h
  · obtain ⟨v, hpart, -, hcases⟩ := exampleOf_cases h
    have hv : v.JsonOr given := by
      rcases hcases with ⟨g, -, hg, hask, -⟩ | ⟨-, rfl, -⟩
      · exact .inl (hanswers g hg _ _ _ _ hask)
      · exact .inr hgiven
    split at hpart
    · cases hpart
    · cases hpart
      exact hv
  · obtain ⟨heq, -⟩ := Returns.pure_iff.mp h
    cases heq

theorem jsonOr_schemas {resource : String} {properties : Fields Property} {parts : Fields Node}
    (h : Returns (schemas resource options generator properties) w parts w')
    (hgiven : ∀ v, Authored properties v → given v) : Node.JsonOr given parts := by
  induction properties generalizing parts w with
  | nil =>
      obtain ⟨rfl, -⟩ := Returns.pure_iff.mp h
      trivial
  | cons entry rest ih =>
      rcases entry with ⟨name, property⟩
      have hhead (v : Value) (hv : v = property.description ∨ v = property.example?) : given v :=
        hgiven v ⟨(name, property), List.mem_cons_self, hv⟩
      obtain ⟨example?, more, u, v, -, hexample, -, hmore, rfl⟩ := schemas_cons h
      obtain ⟨fields, hschema, hfields⟩ :=
        schemaWith_fields w.store resource name property options example?
      refine ⟨⟨trivial, ?_⟩, ih hmore fun v ⟨entry, hentry, hv⟩ =>
        hgiven v ⟨entry, List.mem_cons_of_mem _ hentry, hv⟩⟩
      rw [hschema]
      refine Node.allFields_iff.mpr fun entry hentry => ⟨trivial, ?_⟩
      rcases hfields entry hentry with rfl | rfl | ⟨part, rfl, rfl⟩ | ⟨text, rfl⟩
      · exact .inl trivial
      · unfold descriptionOf
        split
        · exact .inr (hhead _ (.inl rfl))
        · exact .inl trivial
      · exact jsonOr_shownExample hanswers hexample (hhead _ (.inr rfl))
      · exact .inl trivial

theorem jsonOr_build {resource : String} {declared : Value} {part : Node}
    (h : Returns (build resource declared options generator) w part w')
    (hgiven : ∀ properties, declaredProperties w.store declared = .ok properties →
      ∀ v, Authored properties v → given v) :
    Node.All (·.JsonOr given) (fun _ _ => True) part := by
  obtain ⟨properties, parts, hdeclared, hparts, rfl⟩ := build_cases h
  have hnames : Node.AllItems (·.JsonOr given) (fun _ _ => True)
      ((requiredNames properties).map .text) := by
    refine Node.allItems_iff.mpr fun x hx => ?_
    obtain ⟨name, -, rfl⟩ := List.mem_map.mp hx
    exact .inl trivial
  exact ⟨⟨trivial, .inl trivial⟩, ⟨trivial, hnames⟩,
    ⟨trivial, jsonOr_schemas hanswers hparts (hgiven properties hdeclared)⟩, trivial⟩

/-- Of the definitions of a resource, only what it declares may have no form in JSON. -/
theorem jsonOr_ofResource {r : Resource} {definitions : Fields Node}
    (h : Returns (ofResource r options generator) w definitions w') :
    Node.JsonOr (fun v => ∃ key properties, declaredFor w.store r key = some properties ∧
      Authored properties v) definitions := by
  obtain ⟨response, w₁, hresponse, hrest⟩ := ofResource_cases h
  have hfirst := jsonOr_build hanswers hresponse fun properties hdeclared v hv =>
    (⟨responseName r.name, properties, by rw [declaredFor, if_pos rfl, hdeclared]; rfl, hv⟩ :
      ∃ key properties, declaredFor w.store r key = some properties ∧ Authored properties v)
  rcases hrest with ⟨-, rfl, -⟩ | ⟨modify, hro, hmodify, rfl⟩
  · exact ⟨⟨trivial, hfirst⟩, trivial⟩
  · refine ⟨⟨trivial, hfirst⟩, ⟨trivial, jsonOr_build hanswers hmodify ?_⟩, trivial⟩
    intro properties hdeclared v hv
    rw [build_store hresponse] at hdeclared
    refine ⟨requestName r.name, properties, ?_, hv⟩
    rw [declaredFor, if_neg (responseName_ne_requestName r.name r.name).symm, if_pos ⟨rfl, hro⟩,
      hdeclared]
    rfl

end

end Definition

namespace Document

/-- The value is the description or the example that some resource declares for a property. -/
def Authored (turns : List Turn) (v : Value) : Prop :=
  ∃ key, ∃ properties ∈ feeds key turns, Definition.Authored properties v

variable {options : Options} {backend : Backend} {generator : Option (Generator σ)}
  {d d' : Document} {w w' : World σ} {turns : List Turn}

/-- **Preserved by every resource.** -/
theorem jsonOr_addResource {r : Resource} (hanswers : ∀ g, generator = some g → g.AnswersJson)
    (h : Node.JsonOr (Authored turns) d.definitions)
    (hadd : Returns (addResource d r options backend generator) w d' w') :
    Node.JsonOr (Authored (turns ++ [⟨w.store, r⟩])) d'.definitions := by
  obtain ⟨definitions, _, _, hdefinitions, _, rfl, _⟩ := addResource_cases hadd
  refine Node.allFields_overlay (fun _ _ _ _ _ => trivial)
    (h.mono (fun v => Or.imp_right ?_) fun _ _ h => h)
    ((Definition.jsonOr_ofResource hanswers hdefinitions).mono (fun v => Or.imp_right ?_)
      fun _ _ h => h)
  · rintro ⟨key, properties, hmem, hv⟩
    refine ⟨key, properties, ?_, hv⟩
    rw [feeds_concat]
    exact List.mem_append_left _ hmem
  · rintro ⟨key, properties, hdeclared, hv⟩
    refine ⟨key, properties, ?_, hv⟩
    rw [feeds_concat]
    exact List.mem_append_right _ (Option.mem_toList.mpr hdeclared)

/-- **The run.** -/
theorem jsonOr_of_takes {models : List (Value × Value)} (before : List Turn)
    (hanswers : ∀ g, generator = some g → g.AnswersJson)
    (hbefore : Node.JsonOr (Authored before) d.definitions)
    (h : Takes options backend generator models d w turns d' w') :
    Node.JsonOr (Authored (before ++ turns)) d'.definitions := by
  induction h generalizing before with
  | done => exact (List.append_nil before).symm ▸ hbefore
  | next _ hadd _ ih =>
      have hrest := ih _ (jsonOr_addResource hanswers hbefore hadd)
      rwa [List.append_assoc] at hrest

/-- What the manifest says about the interface as a whole stays. -/
theorem baseline_of_takes {models : List (Value × Value)}
    (h : Takes options backend generator models d w turns d' w') : d'.baseline = d.baseline := by
  induction h with
  | done => rfl
  | next _ hadd _ ih =>
      obtain ⟨_, _, _, _, _, rfl, _⟩ := addResource_cases hadd
      exact ih

/-- **A document that was written in YAML is written in JSON just if the descriptions and examples
in it that resources declare have a form there.** -/
theorem json_of_yaml_iff {manifest : Value}
    (hanswers : ∀ g, generator = some g → g.AnswersJson)
    (h : TakesTurns manifest options generator w turns d w') {text : String}
    (hyaml : Output.renderDocument w'.store d .yaml = .ok text) :
    (∃ json, Output.renderDocument w'.store d .json = .ok json) ↔
      Node.AllFields (fun v => Authored turns v → (d.object w'.store).1.HasJson v)
        (fun _ _ => True) d.definitions := by
  obtain ⟨baseline, _, _, _, hbaseline, _, _, htakes, _⟩ := h
  have hkeyed {v : Value} (hv : v.IsJsonKey) : (d.object w'.store).1.HasJson v := by
    cases v with
    | scalar s => exact .scalar hv
    | ref id => exact hv.elim
  have hempty (leaf : Value → Prop) : Node.AllFields leaf (fun _ _ => True) [] := trivial
  have hleaves : Node.JsonOr (Authored turns) d.definitions :=
    jsonOr_of_takes [] hanswers (hempty _) htakes
  have hpaths : (Node.map d.paths).HasJson (d.object w'.store).1 :=
    leaves_of_assembles (fun _ hv => hkeyed (Node.isJsonKey_of_isWord hv)) (hempty _)
      (assembles_iff_takes.mpr ⟨turns, rfl, htakes⟩)
  have hbase : (Tree.map d.baseline).HasJson :=
    baseline_of_takes htakes ▸ Baseline.hasJson_ofManifest hbaseline
  rw [exists_json_iff hyaml, hasJson_object_iff hbase hpaths]
  constructor
  · intro hdefinitions
    refine Node.AllFields.mono (fun v hv => ?_) (fun _ _ => id) hdefinitions
    exact fun _ => hv
  · intro hauthored
    exact (hleaves.and hauthored).mono (fun v hv => hv.1.elim hkeyed hv.2) fun _ _ _ => trivial

/-- A manifest whose one resource gives this example of a date. -/
def dateManifest (date : String) : List Char :=
  s!"models:\n  a:\n    response:\n      d: \x7btype: date, example: {date}\x7d\n".toList

/-- No providers. -/
def noProviders : Providers := ⟨[], 0, "en_US"⟩

/-- A text that is read as a silent manifest, and whose document meets a check. -/
theorem exists_of_text (text : List Char) (check : Document → Store → Bool)
    (h : (Manifest.ofText .empty "api.yml" text).toOption.any (fun loaded =>
      (loaded.1.tree loaded.2).isSilent && passes (buildSilent loaded.2 {}
        (some noProviders.generator)) { store := loaded.1, examples := [] } fun d w =>
          check d w.store) = true) : ∃ (st : Store) (manifest : Value) (d : Document)
      (w' : World Providers.Calls), Manifest.ofText .empty "api.yml" text = .ok (st, manifest) ∧
        Returns (build manifest {} (some noProviders.generator)) { store := st, examples := [] }
          d w' ∧ check d w'.store = true := by
  cases hload : Manifest.ofText .empty "api.yml" text with
  | error e => rw [hload] at h; cases h
  | ok loaded =>
      rw [hload] at h
      obtain ⟨hsilent, hpasses⟩ := Bool.and_eq_true_iff.mp h
      rw [← passes_build_of_silent hsilent] at hpasses
      obtain ⟨d, w', hreturns, hcheck⟩ := passes_iff.mp hpasses
      exact ⟨loaded.1, loaded.2, d, w', rfl, hreturns, hcheck⟩

/-- Whether a document can be written in a format. -/
def isWritten (format : Format) (d : Document) (st : Store) : Bool :=
  (Output.renderDocument st d format).toOption.isSome

theorem isWritten_iff {format : Format} {st : Store} : isWritten format d st = true ↔
    ∃ text, Output.renderDocument st d format = .ok text := by
  unfold isWritten
  cases Output.renderDocument st d format <;> simp [Except.toOption]

/-- A date between quotes is a text. -/
theorem json_of_yaml_iff_quoted : ∃ (st : Store) (manifest : Value) (turns : List Turn)
    (d : Document) (w' : World Providers.Calls) (yaml json : String),
    Manifest.ofText .empty "api.yml" (dateManifest "'2020-01-01'") = .ok (st, manifest) ∧
    TakesTurns manifest {} (some noProviders.generator) { store := st, examples := [] } turns
      d w' ∧
    Output.renderDocument w'.store d .yaml = .ok yaml ∧
    Output.renderDocument w'.store d .json = .ok json ∧
    Node.AllFields (fun v => Authored turns v → (d.object w'.store).1.HasJson v)
      (fun _ _ => True) d.definitions := by
  obtain ⟨st, manifest, d, w', hload, hreturns, hwritten⟩ :=
    exists_of_text (dateManifest "'2020-01-01'")
      (fun d st => isWritten .yaml d st && isWritten .json d st) (by decide +kernel)
  obtain ⟨hyaml, hjson⟩ := Bool.and_eq_true_iff.mp hwritten
  obtain ⟨yaml, hyaml⟩ := isWritten_iff.mp hyaml
  obtain ⟨json, hjson⟩ := isWritten_iff.mp hjson
  obtain ⟨turns, hturns⟩ := returns_iff_takesTurns.mp hreturns
  have hall := (json_of_yaml_iff
    (fun g hg => Option.some.inj hg ▸ Providers.answersJson_generator _) hturns hyaml).mp
      ⟨json, hjson⟩
  exact ⟨st, manifest, turns, d, w', yaml, json, hload, hturns, hyaml, hjson, hall⟩

/-- A date without quotes is written in YAML, but has no form in JSON. -/
theorem not_json_of_yaml : ¬ ∀ (text : List Char) (st : Store) (manifest : Value)
    (options : Options) (ps : Providers) (d : Document) (w' : World Providers.Calls),
    Manifest.ofText .empty "api.yml" text = .ok (st, manifest) →
    Returns (build manifest options (some ps.generator)) { store := st, examples := [] } d w' →
    (∃ yaml, Output.renderDocument w'.store d .yaml = .ok yaml) →
      ∃ json, Output.renderDocument w'.store d .json = .ok json := by
  intro hall
  obtain ⟨st, manifest, d, w', hload, hreturns, hwritten⟩ :=
    exists_of_text (dateManifest "2020-01-01")
      (fun d st => isWritten .yaml d st && !isWritten .json d st) (by decide +kernel)
  obtain ⟨hyaml, hjson⟩ := Bool.and_eq_true_iff.mp hwritten
  have hwritten := isWritten_iff.mpr
    (hall _ st manifest {} noProviders d w' hload hreturns (isWritten_iff.mp hyaml))
  rw [hwritten] at hjson
  cases hjson

end Document
end ApiManifest
