import ApiManifest.Proofs.Rereading
import ApiManifest.Proofs.Silent

/-!
# Building twice

A build places objects of the manifest in its document as they are, and merges them there in place.
So a second build of the same manifest starts from what the first one has left. It reads the same,
its generator answers the same, and it makes the same document of the same objects; but it merges
these objects once more. So its document is equal to the first one exactly if merging once more
changes nothing that the document shows.
-/

namespace ApiManifest

variable {σ α β : Type} {S : Nat → Prop} {st : Store}

/-! ## Steps that are repeated -/

/-- In every world that merging may leave, the step returns `a` and leaves the store as it is. -/
def Repeats (S : Nat → Prop) (st : Store) (step : Run σ α) (a : α) : Prop :=
  ∀ w : World σ, st.Writes S w.store → ∃ w', Returns step w a w' ∧ w'.store = w.store

/-- In every store that merging may leave, a key yields the same object, which is in the region. -/
def Generator.Steady (S : Nat → Prop) (st : Store) (g : Generator σ) : Prop :=
  ∃ answer : String → Except Error Value, (∀ key v, answer key = .ok v → v.In S) ∧
    ∀ st' key s, st.Writes S st' → (g.ask st' key s).result = answer key

/-- A key always yields the same object, whatever becomes of the manifest and of the objects that
were yielded. -/
def Generator.Stateless (g : Generator σ) (st : Store) (manifest : Value)
    (answer : String → Except Error Value) : Prop :=
  ∀ st' key s, (∀ id, st'.cells[id]? ≠ st.cells[id]? → st.Reaches manifest id ∨
    ∃ key root, answer key = .ok (.ref root) ∧ st.Reaches (.ref root) id) →
      (g.ask st' key s).result = answer key

theorem repeats_pure (a : α) : Repeats S st (pure a : Run σ α) a :=
  fun w _ => ⟨w, rfl, rfl⟩

theorem Repeats.bind {x : Run σ α} {f : α → Run σ β} {a : α} {b : β} (hx : Repeats S st x a)
    (hf : Repeats S st (f a) b) : Repeats S st (x >>= f) b := by
  intro w hw
  obtain ⟨w₁, h₁, hs₁⟩ := hx w hw
  obtain ⟨w₂, h₂, hs₂⟩ := hf w₁ (by rw [hs₁]; exact hw)
  exact ⟨w₂, Returns.bind_iff.mpr ⟨a, w₁, h₁, h₂⟩, hs₂.trans hs₁⟩

theorem repeats_tell (records : List Log.Record) :
    Repeats S st (Run.tell records : Run σ Unit) () :=
  fun _ _ => ⟨_, Run.tell_iff.mpr rfl, rfl⟩

theorem repeats_reading {read : Store → Except Error α} {a : α}
    (h : ∀ st', st.Writes S st' → read st' = .ok a) : Repeats S st (Run.reading read : Run σ α) a :=
  fun w hw => ⟨w, Run.reading_iff.mpr ⟨h w.store hw, rfl⟩, rfl⟩

namespace Definition

variable {generator : Option (Generator σ)} {options : Options} {w w' : World σ}

theorem exampleOf_repeats {property : Property} {value : Option Node}
    (hproperty : property.Steady S st) (hanswers : ∀ g, generator = some g → g.Steady S st)
    (hw : st.Writes S w.store) (h : Returns (exampleOf generator property) w value w') :
    Repeats S st (exampleOf generator property) value ∧
      ∀ part, value = some part → part.In S := by
  obtain ⟨v, rfl, _, hcase⟩ := exampleOf_cases h
  rcases hcase with ⟨g, hnull, rfl, hask, _⟩ | ⟨hneither, rfl, _⟩
  · obtain ⟨answer, hregion, hsame⟩ := hanswers g rfl
    rw [hsame _ _ _ hw] at hask
    refine ⟨fun w₁ hw₁ => ?_, fun part hpart => in_of_shown hpart (hregion _ _ hask)⟩
    unfold exampleOf
    rw [hnull]
    exact ⟨_, Returns.bind_iff.mpr ⟨v, _, Run.ask_iff.mpr ⟨(hsame _ _ _ hw₁).trans hask, rfl⟩,
      Returns.pure_iff.mpr ⟨rfl, rfl⟩⟩, rfl⟩
  · refine ⟨fun w₁ _ => ⟨w₁, ?_, rfl⟩, fun part hpart => in_of_shown hpart hproperty.example?⟩
    unfold exampleOf
    dsimp only
    split
    · rename_i g hnull
      exact absurd ⟨hnull, rfl⟩ hneither
    · exact Returns.bind_iff.mpr ⟨_, w₁, rfl, rfl⟩

theorem shownExample_repeats {property : Property} {value : Option Node}
    (hproperty : property.Steady S st) (hanswers : ∀ g, generator = some g → g.Steady S st)
    (hw : st.Writes S w.store) (h : Returns (shownExample property options generator) w value w') :
    Repeats S st (shownExample property options generator) value ∧
      ∀ part, value = some part → part.In S := by
  unfold shownExample at h ⊢
  cases hon : options.examples with
  | true =>
      rw [hon, if_pos rfl] at h
      exact exampleOf_repeats hproperty hanswers hw h
  | false =>
      rw [hon] at h
      obtain ⟨rfl, _⟩ := Returns.pure_iff.mp h
      exact ⟨repeats_pure none, fun part hpart => by cases hpart⟩

/-- The schema of a property is the same in every store that merging may leave. -/
theorem schemaWith_steady {st' : Store} {resource name : String} {property : Property}
    (hproperty : property.Steady S st) (hw : st.Writes S st') (example? : Option Node) :
    schemaWith st' resource name property options example?
      = schemaWith st resource name property options example? := by
  unfold schemaWith descriptionOf
  rw [hproperty.holds st' hw]

theorem schemaWith_in {resource name : String} {property : Property} {example? : Option Node}
    (hproperty : property.Steady S st) (hexample : ∀ part, example? = some part → part.In S) :
    (schemaWith st resource name property options example?).In S := by
  obtain ⟨fields, heq, hfields⟩ := schemaWith_fields st resource name property options example?
  rw [heq, Node.In, Node.All, Node.allFields_iff]
  intro entry hentry
  refine ⟨trivial, ?_⟩
  rcases hfields entry hentry with rfl | rfl | ⟨part, hshown, rfl⟩ | ⟨text, rfl⟩
  · trivial
  · exact descriptionOf_in hproperty.description resource name
  · exact hexample part hshown
  · trivial

theorem schema_repeats {resource name : String} {property : Property} {part : Node}
    (hproperty : property.Steady S st) (hanswers : ∀ g, generator = some g → g.Steady S st)
    (hw : st.Writes S w.store)
    (h : Returns (schema resource name property options generator) w part w') :
    Repeats S st (schema resource name property options generator) part ∧ part.In S := by
  obtain ⟨w₁, example?, hl, hex, rfl⟩ := schema_cases h
  obtain ⟨hrepeats, hin⟩ :=
    shownExample_repeats hproperty hanswers (by rw [hl.store]; exact hw) hex
  rw [schemaWith_steady hproperty hw]
  refine ⟨fun w₂ hw₂ => ?_, schemaWith_in hproperty hin⟩
  obtain ⟨w₃, h₃, hs₃⟩ := repeats_tell (passingThrough resource name property) w₂ hw₂
  have hw₃ : st.Writes S w₃.store := by
    rw [hs₃]
    exact hw₂
  obtain ⟨w₄, h₄, hs₄⟩ := hrepeats w₃ hw₃
  refine ⟨w₄, ?_, hs₄.trans hs₃⟩
  rw [schema]
  refine Returns.bind_iff.mpr ⟨(), w₃, h₃, Returns.bind_iff.mpr ⟨w₃, w₃, rfl,
    Returns.bind_iff.mpr ⟨example?, w₄, h₄, Returns.pure_iff.mpr ⟨?_, rfl⟩⟩⟩⟩
  exact schemaWith_steady hproperty hw₃ example?

theorem schemas_repeat {resource : String} {properties : Fields Property} {parts : Fields Node}
    (hproperties : ∀ entry ∈ properties, entry.2.Steady S st)
    (hanswers : ∀ g, generator = some g → g.Steady S st) (hw : st.Writes S w.store)
    (h : Returns (schemas resource options generator properties) w parts w') :
    Repeats S st (schemas resource options generator properties) parts ∧
      ∀ entry ∈ parts, entry.2.In S := by
  induction properties generalizing parts w w' with
  | nil =>
      obtain ⟨rfl, _⟩ := Returns.pure_iff.mp h
      exact ⟨repeats_pure [], by simp⟩
  | cons entry rest ih =>
      rcases entry with ⟨name, property⟩
      rw [schemas] at h ⊢
      obtain ⟨part, w₁, hpart, h⟩ := Returns.bind_iff.mp h
      obtain ⟨more, w₂, hrest, h⟩ := Returns.bind_iff.mp h
      obtain ⟨rfl, _⟩ := Returns.pure_iff.mp h
      obtain ⟨hr, hin⟩ := schema_repeats (hproperties _ List.mem_cons_self) hanswers hw hpart
      obtain ⟨w₃, _, hl, hex, _⟩ := schema_cases hpart
      have hw₁ : st.Writes S w₁.store := by
        rw [shownExample_store hex, hl.store]
        exact hw
      -- showing an example writes nothing, so the rest is shown in a store like the first one
      obtain ⟨hr', hin'⟩ := ih (fun e he => hproperties e (List.mem_cons_of_mem _ he)) hw₁ hrest
      refine ⟨hr.bind (hr'.bind (repeats_pure _)), ?_⟩
      intro e he
      rcases List.mem_cons.mp he with rfl | he
      · exact hin
      · exact hin' e he

theorem withSchemas_in {properties : Fields Property} {parts : Fields Node}
    (h : ∀ entry ∈ parts, entry.2.In S) : (withSchemas properties parts).In S := by
  have hproperties : Node.In S (.map parts) := by
    rw [Node.In, Node.All, Node.allFields_iff]
    exact fun entry hentry => ⟨trivial, h entry hentry⟩
  exact ⟨⟨trivial, trivial⟩, ⟨trivial, requiredNames_in properties⟩,
    ⟨trivial, hproperties⟩, trivial⟩

theorem build_repeats {resource : String} {declared : Value} {part : Node}
    (hdeclared : SteadyPart S st declared) (hanswers : ∀ g, generator = some g → g.Steady S st)
    (hw : st.Writes S w.store)
    (h : Returns (build resource declared options generator) w part w') :
    Repeats S st (build resource declared options generator) part ∧ part.In S := by
  obtain ⟨properties, parts, hread, hschemas, rfl⟩ := build_cases h
  obtain ⟨hsame, hsteady⟩ := hdeclared w.store hw
  rw [hsame] at hread
  obtain ⟨hrepeats, hin⟩ := schemas_repeat (hsteady properties hread) hanswers hw hschemas
  refine ⟨?_, withSchemas_in hin⟩
  rw [build]
  refine (repeats_reading (a := properties) fun st' hst' => ?_).bind
    (hrepeats.bind (repeats_pure _))
  exact (hdeclared st' hst').1.trans hread

/-- **The definitions of a resource are the same in every build.** -/
theorem ofResource_repeats {r : Resource} {definitions : Fields Node}
    (hresponse : SteadyPart S st r.response) (hmodify : SteadyPart S st r.modify)
    (hanswers : ∀ g, generator = some g → g.Steady S st) (hw : st.Writes S w.store)
    (h : Returns (ofResource r options generator) w definitions w') :
    Repeats S st (ofResource r options generator) definitions ∧ Node.In S (.map definitions) := by
  obtain ⟨response, w₁, hr, hcase⟩ := ofResource_cases h
  obtain ⟨hrepeats, hin⟩ := build_repeats hresponse hanswers hw hr
  rw [ofResource]
  rcases hcase with ⟨hro, rfl, _⟩ | ⟨modify, hro, hm, rfl⟩
  · rw [hro]
    exact ⟨hrepeats.bind (repeats_pure _), ⟨trivial, hin⟩, trivial⟩
  · have hw₁ : st.Writes S w₁.store := by
      rw [build_store hr]
      exact hw
    obtain ⟨hrepeats', hin'⟩ := build_repeats hmodify hanswers hw₁ hm
    rw [hro]
    exact ⟨hrepeats.bind (hrepeats'.bind (repeats_pure _)), ⟨trivial, hin⟩,
      ⟨trivial, hin'⟩, trivial⟩

end Definition

/-! ## Documents -/

namespace Document

/-- The objects that are merged, in this order, when the resources of some declarations are added
to a document: those that stand at one place in definitions of one key. -/
inductive Merges (options : Options) (backend : Backend) (generator : Option (Generator σ)) :
    List (Value × Value) → Document → World σ → List (Nat × Nat) → Prop where
  | done {d : Document} {w : World σ} : Merges options backend generator [] d w []
  | next {name decl : Value} {rest : List (Value × Value)} {d d₁ : Document}
      {w w₁ v : World σ} {r : Resource} {definitions : Fields Node} {pairs : List (Nat × Nat)} :
      resourceOf w.store name decl = .ok r →
      Returns (Definition.ofResource r options generator)
        { w with log := w.log ++ generating w.store name } definitions v →
      Returns (addResource d r options backend generator)
        { w with log := w.log ++ generating w.store name } d₁ w₁ →
      Merges options backend generator rest d₁ w₁ pairs →
      Merges options backend generator ((name, decl) :: rest) d w
        (Node.meetingsFields w.store.isMapping d.definitions definitions ++ pairs)

/-- A resource is added again if its definitions can be merged again. -/
theorem addResource_of_merge {d : Document} {r : Resource} {options : Options} {backend : Backend}
    {generator : Option (Generator σ)} {w v : World σ} {definitions items : Fields Node}
    {st' : Store} (hdefs : Returns (Definition.ofResource r options generator) w definitions v)
    (hitems : PathItem.items r options (some backend) = .ok items)
    (hmerge : Returns (Store.mergeAll
      (Node.meetingsFields w.store.isMapping d.definitions definitions)) w.store () st') :
    ∃ w', Returns (addResource d r options backend generator) w { d with
        definitions := Node.overlayFields w.store.isMapping d.definitions definitions
        paths := Node.overlayFields w.store.isMapping d.paths items } w' ∧ w'.store = st' := by
  have hstore := Definition.ofResource_store hdefs
  rw [← hstore] at hmerge ⊢
  have hmaps : st'.isMapping = v.store.isMapping :=
    Node.isMapping_of_mergeAll (Node.isMapping_of_meetingsFields _ _) hmerge
  obtain ⟨w₂, hw₂⟩ := PathItem.returns_of_items { v with store := st' } hitems
  have hs₂ : w₂.store = st' := (PathItem.items_of_returns hw₂).2.store
  -- path items hold no objects of the store, so that nothing meets in them
  have hpaths : Returns (Node.mergeFields d.paths items) st'
      (Node.overlayFields v.store.isMapping d.paths items) st' := by
    rw [Node.mergeFields_iff, hmaps, Node.meetingsFields_plain (PathItem.items_plain hitems)]
    exact ⟨rfl, rfl⟩
  refine ⟨w₂, ?_, hs₂⟩
  rw [addResource]
  refine Returns.bind_iff.mpr ⟨_, v, hdefs, Returns.bind_iff.mpr ⟨_, { v with store := st' },
    Run.onStore_iff.mpr ⟨st', (Node.mergeFields_iff _ _).mpr ⟨rfl, hmerge⟩, rfl⟩,
    Returns.bind_iff.mpr ⟨items, w₂, hw₂, Returns.bind_iff.mpr ⟨_, w₂,
      Run.onStore_iff.mpr ⟨st', ?_, ?_⟩, rfl⟩⟩⟩⟩
  · rw [hs₂]
    exact hpaths
  · rw [← hs₂]

section

variable {options : Options} {backend : Backend} {generator : Option (Generator σ)}
  (hanswers : ∀ g, generator = some g → g.Steady S st)

include hanswers

/-- **One resource again.** Adding a resource comes to a merge of objects, and in every world that
merging may leave, adding it to the same document comes to that merge. -/
theorem addResource_again {model : Value × Value} {d d₁ : Document} {r : Resource}
    {w w₁ : World σ} (hread : SteadyModel S st model) (hd : Node.In S (.map d.definitions))
    (hw : st.Writes S w.store) (hr : resourceOf w.store model.1 model.2 = .ok r)
    (h : Returns (addResource d r options backend generator) w d₁ w₁) :
    ∃ definitions v pairs, Returns (Definition.ofResource r options generator) w definitions v ∧
      pairs = Node.meetingsFields w.store.isMapping d.definitions definitions ∧
      Returns (Store.mergeAll pairs) w.store () w₁.store ∧
      Node.In S (.map d₁.definitions) ∧
      (∀ st', st.Writes S st' → ∀ st'', Returns (Store.mergeAll pairs) st' () st'' →
        st.Writes S st'') ∧
      ∀ w', st.Writes S w'.store → ∀ d' st',
        (∃ w'', Returns (addResource d r options backend generator) w' d' w'' ∧ w''.store = st') ↔
          d' = d₁ ∧ Returns (Store.mergeAll pairs) w'.store () st' := by
  obtain ⟨definitions, items, v, hdefs, hitems, rfl, hmerge, _⟩ := addResource_cases h
  obtain ⟨hsame, hparts⟩ := hread w.store hw
  rw [hsame] at hr
  obtain ⟨hresponse, hmodify⟩ := hparts r hr
  obtain ⟨hrepeats, hin⟩ := Definition.ofResource_repeats hresponse hmodify hanswers hw hdefs
  refine ⟨definitions, v, _, hdefs, rfl, hmerge, ?_, ?_, ?_⟩
  -- the definitions and the path items do not depend on the world, only the merge of objects does
  · exact Node.allFields_overlay (fun _ _ _ _ _ => trivial) hd hin
  · intro st' hst' st'' hst''
    rw [hw.isMapping] at hst''
    have hwithin : Store.Alike S (Store.mergeAll
        (Node.meetingsFields st.isMapping d.definitions definitions)) st' st' := by
      refine Store.mergeAll_within hst'.closed (.refl _ _) fun pair hpair => ?_
      obtain ⟨ht, hs⟩ := Node.In.meetingsFields hd hin pair hpair
      refine ⟨ht, hs, ?_⟩
      rw [hst'.isMapping]
      exact (Node.isMapping_of_meetingsFields _ _ pair hpair).1
    have hwrites := hwithin.writes
    rw [show outcome _ st' = (.ok (), st'') from hst''] at hwrites
    exact hst'.trans hwrites
  · intro w' hw' d' st'
    have hmaps : w'.store.isMapping = w.store.isMapping := by
      rw [hw'.isMapping, hw.isMapping]
    obtain ⟨v', hdefs', _⟩ := hrepeats w' hw'
    constructor
    · rintro ⟨w'', h', rfl⟩
      obtain ⟨definitions', items', v'', hdefs'', hitems', rfl, hmerge', _⟩ :=
        addResource_cases h'
      obtain ⟨rfl, _⟩ := hdefs'.unique hdefs''
      rw [hitems] at hitems'
      cases hitems'
      rw [hmaps] at hmerge' ⊢
      exact ⟨rfl, hmerge'⟩
    · rintro ⟨rfl, hmerge'⟩
      rw [← hmaps] at hmerge' ⊢
      exact addResource_of_merge hdefs' hitems hmerge'

/-- **All resources again**, one after the other. -/
theorem assembles_again {declared : List (Value × Value)} {d d₁ : Document} {w w₁ : World σ}
    {rs : List Resource} (hread : ∀ model ∈ declared, SteadyModel S st model)
    (hd : Node.In S (.map d.definitions)) (hw : st.Writes S w.store)
    (h : Assembles options backend generator declared d w rs d₁ w₁) :
    ∃ pairs, Merges options backend generator declared d w pairs ∧
      Returns (Store.mergeAll pairs) w.store () w₁.store ∧ st.Writes S w₁.store ∧
      ∀ w', st.Writes S w'.store → ∀ d' st',
        (∃ rs' w'', Assembles options backend generator declared d w' rs' d' w'' ∧
          w''.store = st') ↔ d' = d₁ ∧ Returns (Store.mergeAll pairs) w'.store () st' := by
  induction h with
  | @done d w =>
      refine ⟨[], .done, rfl, hw, fun w' _ d' st' => ?_⟩
      constructor
      · rintro ⟨rs', w'', h', rfl⟩
        cases h'
        exact ⟨rfl, rfl⟩
      · rintro ⟨rfl, hmerge⟩
        obtain ⟨_, rfl⟩ := Returns.pure_iff.mp hmerge
        exact ⟨[], w', .done, rfl⟩
  | @next name decl rest d d₁ d₂ w w₁ w₂ r rs hr hadd hrest ih =>
      obtain ⟨definitions, v, pairs, hdefs, hpairs, hmerge, hd₁, hwrites, hagain⟩ :=
        addResource_again (w := { w with log := w.log ++ generating w.store name }) hanswers
          (hread _ List.mem_cons_self) hd hw hr hadd
      have hw₁ := hwrites _ hw _ hmerge
      obtain ⟨pairs', hmerges, hmerge', hw₂, hagain'⟩ :=
        ih (fun model hm => hread model (List.mem_cons_of_mem _ hm)) hd₁ hw₁
      refine ⟨pairs ++ pairs', ?_, Store.mergeAll_append_iff.mpr ⟨_, hmerge, hmerge'⟩, hw₂, ?_⟩
      · rw [hpairs]
        exact .next hr hdefs hadd hmerges
      · intro w' hw' d' st'
        -- whatever was merged by now, the next resource is read as it was the first time
        have hr' : resourceOf w'.store name decl = .ok r := by
          rw [(hread _ List.mem_cons_self w'.store hw').1,
            ← (hread _ List.mem_cons_self w.store hw).1]
          exact hr
        constructor
        · rintro ⟨rs', w'', h', rfl⟩
          cases h' with
          | next hread' hadd' hrest' =>
              rw [hr'] at hread'
              cases hread'
              obtain ⟨rfl, hm⟩ := (hagain { w' with log := w'.log ++ generating w'.store name }
                hw' _ _).mp ⟨_, hadd', rfl⟩
              obtain ⟨rfl, hm'⟩ := (hagain' _ (hwrites _ hw' _ hm) _ _).mp ⟨_, _, hrest', rfl⟩
              exact ⟨rfl, Store.mergeAll_append_iff.mpr ⟨_, hm, hm'⟩⟩
        · rintro ⟨rfl, hm⟩
          obtain ⟨st₁, hm, hm'⟩ := Store.mergeAll_append_iff.mp hm
          obtain ⟨v₁, hadd', rfl⟩ :=
            (hagain { w' with log := w'.log ++ generating w'.store name } hw' _ _).mpr ⟨rfl, hm⟩
          obtain ⟨rs', v₂, hrest', rfl⟩ :=
            (hagain' v₁ (hwrites _ hw' _ hm) _ _).mpr ⟨rfl, hm'⟩
          exact ⟨r :: rs', v₂, .next hr' hadd' hrest', rfl⟩

end

/-! ## Different names -/

/-- Resources whose definitions have keys of their own merge nothing. -/
theorem merges_nothing {options : Options} {backend : Backend} {generator : Option (Generator σ)}
    {declared : List (Value × Value)} {d d' : Document} {w w' : World σ} {rs : List Resource}
    {pairs : List (Nat × Nat)} (h : Merges options backend generator declared d w pairs)
    (ha : Assembles options backend generator declared d w rs d' w')
    (hnames : (rs.map fun r => Naming.pascalCase r.name).Nodup)
    (hd : ∀ r ∈ rs, Definition.responseName r.name ∉ d.definitions.names ∧
      Definition.requestName r.name ∉ d.definitions.names) : pairs = [] := by
  induction h generalizing rs with
  | done => rfl
  | next hr hdefs hadd _ ih =>
      rename_i r definitions _ _
      cases ha with
      | next hr' hadd' hrest =>
          rw [hr] at hr'
          cases hr'
          obtain ⟨rfl, rfl⟩ := hadd.unique hadd'
          obtain ⟨hfirst, hothers⟩ := List.nodup_cons.mp hnames
          obtain ⟨hresponse, hrequest⟩ := hd r List.mem_cons_self
          -- the definitions of this resource are new to the document, so that nothing meets in them
          rw [Definition.meetingsFields_ofResource hdefs hresponse hrequest, List.nil_append]
          refine ih hrest hothers fun other hother => ?_
          have hne : Naming.pascalCase r.name ≠ Naming.pascalCase other.name :=
            fun heq => hfirst (List.mem_map.mpr ⟨other, hother, heq.symm⟩)
          obtain ⟨hresponse', hrequest'⟩ := hd other (List.mem_cons_of_mem _ hother)
          exact ⟨not_mem_names_addResource hadd (Or.inl rfl) hne hresponse',
            not_mem_names_addResource hadd (Or.inr rfl) hne hrequest'⟩

/-! ## Builds -/

/-- The objects that the build of a document merges, in this order. -/
def MergesInPlace (manifest : Value) (options : Options) (generator : Option (Generator σ))
    (w : World σ) (pairs : List (Nat × Nat)) : Prop :=
  ∃ baseline backend declared,
    Baseline.ofManifest (w.store.tree manifest) = .ok (.map baseline) ∧
      Backend.ofDocument (.map baseline) = .ok backend ∧
      declarations w.store manifest = .ok declared ∧
      Merges options backend generator declared { baseline } w pairs

/-- Merging these objects once more returns, and changes nothing that the document shows. -/
def Settled (d : Document) (st : Store) (pairs : List (Nat × Nat)) : Prop :=
  ∃ st', Returns (Store.mergeAll pairs) st () st' ∧ d.tree st' = d.tree st

section

variable {manifest : Value} {options : Options} {generator : Option (Generator σ)}
  {answer : String → Except Error Value} {w w₁ : World σ} {rs : List Resource} {d : Document}
  (hunshared : w.store.Unshared manifest)
  (hstateless : ∀ g, generator = some g → g.Stateless w.store manifest answer)
  (hown : ∀ key root id, answer key = .ok (.ref root) → w.store.Reaches (.ref root) id →
    ¬ w.store.Reaches manifest id)

include hunshared hstateless hown

/-- **A second build** makes the same document of the same objects, and merges the same ones. -/
theorem builds_again (h : Builds manifest options generator w rs d w₁) :
    ∃ pairs, MergesInPlace manifest options generator w pairs ∧
      Returns (Store.mergeAll pairs) w.store () w₁.store ∧
      ∀ d' st', (∃ w', Returns (build manifest options generator) w₁ d' w' ∧ w'.store = st') ↔
        d' = d ∧ Returns (Store.mergeAll pairs) w₁.store () st' := by
  obtain ⟨baseline, backend, declared, v, hbaseline, hbackend, hdeclared, hassembles, hv⟩ := h
  have hstore : w₁.store = v.store := by rw [← hv]
  obtain ⟨S, hclosed, hregion, howned, hread, hsame⟩ :=
    @reads_again _ _ (fun root => ∃ key, answer key = .ok (.ref root)) _ hdeclared hunshared
      fun root id ⟨key, hkey⟩ hr => hown key root id hkey hr
  have hanswers : ∀ g, generator = some g → g.Steady S w.store := by
    intro g hg
    refine ⟨answer, fun key value hvalue => ?_, fun st' key s hw => ?_⟩
    · cases value with
      | scalar s => trivial
      | ref root => exact howned root ⟨key, hvalue⟩
    · -- an object that has changed is in the region, and so the manifest's or the generator's
      refine hstateless g hg st' key s fun id hid => ?_
      have hin : S id := by
        by_contra hout
        exact hid (hw.frame id hout)
      rcases hregion id hin with hr | ⟨root, ⟨key', hkey'⟩, hr⟩
      · exact Or.inl hr
      · exact Or.inr ⟨key', root, hkey', hr⟩
  obtain ⟨pairs, hmerges, hmerge, hw₁, hagain⟩ :=
    assembles_again (d := { baseline }) hanswers hread trivial (.refl hclosed) hassembles
  rw [← hstore] at hmerge hw₁
  refine ⟨pairs, ⟨baseline, backend, declared, hbaseline, hbackend, hdeclared, hmerges⟩, hmerge, ?_⟩
  obtain ⟨hdeclared', hbaseline'⟩ := hsame w₁.store hw₁
  rw [hbaseline] at hbaseline'
  intro d' st'
  constructor
  · rintro ⟨w', h', rfl⟩
    obtain ⟨rs', baseline', backend', declared', v', hb, hk, hd, ha, rfl⟩ := build_iff.mp h'
    rw [hbaseline'] at hb
    cases hb
    rw [hbackend] at hk
    cases hk
    rw [hdeclared'] at hd
    cases hd
    exact (hagain w₁ hw₁ _ _).mp ⟨rs', v', ha, rfl⟩
  · intro h'
    obtain ⟨rs', v', ha, rfl⟩ := (hagain w₁ hw₁ d' st').mpr h'
    exact ⟨_, build_iff.mpr ⟨rs', baseline, backend, declared, v', hbaseline', hbackend,
      hdeclared', ha, rfl⟩, rfl⟩

/--
**When a document is built twice.**

Take a manifest that shares nothing, and a generator without state whose objects are not the
manifest's. A second build returns the document of the first one exactly if the merges of the first
one are settled by then.
-/
theorem build_again_iff (h : Returns (build manifest options generator) w d w₁) :
    ∃ pairs, MergesInPlace manifest options generator w pairs ∧
      Returns (Store.mergeAll pairs) w.store () w₁.store ∧
      ((∃ d' w', Returns (build manifest options generator) w₁ d' w' ∧
        d'.tree w'.store = d.tree w₁.store) ↔ d.Settled w₁.store pairs) := by
  obtain ⟨rs, hbuilds⟩ := build_iff.mp h
  obtain ⟨pairs, hmerges, hmerge, hagain⟩ := builds_again hunshared hstateless hown hbuilds
  refine ⟨pairs, hmerges, hmerge, ?_⟩
  constructor
  · rintro ⟨d', w', h', htree⟩
    obtain ⟨rfl, hm⟩ := (hagain d' w'.store).mp ⟨w', h', rfl⟩
    exact ⟨w'.store, hm, htree⟩
  · rintro ⟨st', hm, htree⟩
    obtain ⟨w', h', rfl⟩ := (hagain d st').mpr ⟨rfl, hm⟩
    exact ⟨d, w', h', htree⟩

/-- **Resources with definitions of their own** make the same document in every build. -/
theorem build_again_of_names (h : Builds manifest options generator w rs d w₁)
    (hnames : (rs.map fun r => Naming.pascalCase r.name).Nodup) :
    ∃ w', Returns (build manifest options generator) w₁ d w' ∧
      d.tree w'.store = d.tree w₁.store := by
  obtain ⟨pairs, hmerges, _, hagain⟩ := builds_again hunshared hstateless hown h
  obtain ⟨_, _, _, _, hb, hk, hd, ha, _⟩ := h
  obtain ⟨_, _, _, hb', hk', hd', hm⟩ := hmerges
  rw [hb] at hb'
  cases hb'
  rw [hk] at hk'
  cases hk'
  rw [hd] at hd'
  cases hd'
  have hnone : pairs = [] := merges_nothing hm ha hnames (by simp [Fields.names])
  subst hnone
  obtain ⟨w', h', hstore⟩ := (hagain d w₁.store).mpr ⟨rfl, rfl⟩
  exact ⟨w', h', by rw [hstore]⟩

end

/-- Four resources with one definition key, each with an example for the property `p`. What they
hold at `k` is a mapping, another one, no mapping, and a mapping again. -/
def blendingManifest : Tree :=
  let property (example? : Tree) (others : Entries) : Tree := .map [(.text "path", .text "/x"),
    (.text "methods", .list []), (.text "response", .map ((.text "p", .map [
      (.text "example", .map [(.text "k", example?)])]) :: others))]
  .map [(.text "models", .map [
    (.text "x-y", property (.map [(.text "a", .int 1)]) [(.text "q", .text "uuid")]),
    (.text "x_y", property (.map [(.text "b", .int 1)]) []),
    (.text "x--y", property (.int 5) []),
    (.text "x y", property (.map [(.text "d", .int 1)]) [])])]

/-- The values of a generator, and a manifest. -/
def blendingStore : Store × Value :=
  (Store.empty.insert (.map [(.text "uuid4", .map [(.text "u", .int 7)])])).1.insert
    blendingManifest

/-- Whether the example of `p` has a `b` at `k`. -/
def isBlended (t : Tree) : Bool :=
  (["definitions", "XYResponse", "properties", "p", "example", "k", "b"].foldlM
    (fun part name => Tree.at? name part) t).isSome

/-- The second build merges the second example into the last one, which is in its place by then. -/
theorem blended_twice : ∃ (d₁ d₂ : Document) (w₁ w₂ : World Unit),
    Returns (build blendingStore.2 {} (some (.fixed (.ref 1))))
      { store := blendingStore.1, examples := () } d₁ w₁ ∧
    Returns (build blendingStore.2 {} (some (.fixed (.ref 1)))) w₁ d₂ w₂ ∧
    d₂.tree w₂.store ≠ d₁.tree w₁.store := by
  have hpasses : passes (build blendingStore.2 {} (some (.fixed (.ref 1))))
      ({ store := blendingStore.1, examples := () } : World Unit) (fun d₁ w₁ =>
        !isBlended (d₁.tree w₁.store) && (w₁.store.tree blendingStore.2).isSilent &&
          passes (buildSilent blendingStore.2 {} (some (.fixed (.ref 1)))) w₁ fun d₂ w₂ =>
            isBlended (d₂.tree w₂.store)) = true := by
    rw [passes_build_of_silent (by decide +kernel)]
    decide +kernel
  obtain ⟨d₁, w₁, h₁, hcheck⟩ := passes_iff.mp hpasses
  obtain ⟨hboth, hagain⟩ := Bool.and_eq_true_iff.mp hcheck
  obtain ⟨hfirst, hsilent⟩ := Bool.and_eq_true_iff.mp hboth
  rw [← passes_build_of_silent hsilent] at hagain
  obtain ⟨d₂, w₂, h₂, hsecond⟩ := passes_iff.mp hagain
  refine ⟨d₁, d₂, w₁, w₂, h₁, h₂, fun hsame => ?_⟩
  rw [hsame] at hsecond
  simp [hsecond] at hfirst

/-- A generator of fixed values has no state if its mapping is not in the manifest and not in any of
its values. -/
theorem stateless_fixed {st : Store} {manifest : Value} {root : Nat}
    (hroot : st.Unshared (.ref root)) (hmanifest : ¬ st.Reaches manifest root) :
    (Generator.fixed (.ref root) : Generator σ).Stateless st manifest
      fun key => .ok (Generator.lookup st (.ref root) (.text key)) := by
  intro st' key s hframe
  -- the mapping itself is not one of its values, so it cannot have changed
  have hcell : st'.cells[root]? = st.cells[root]? := by
    by_contra hchanged
    rcases hframe root hchanged with hr | ⟨key', id, hanswer, p, hat⟩
    · exact hmanifest hr
    · obtain ⟨n, hn⟩ := Generator.at?_of_lookup (Except.ok.inj hanswer)
      have heq := hroot [] ([.value n] ++ p) root rfl ((Store.at?_append_of hn p).trans hat)
      cases heq
  show Except.ok (Generator.lookup st' (.ref root) (.text key)) = _
  unfold Generator.lookup Store.entries?
  rw [Store.cell?_ref, Store.cell?_ref, hcell, Store.find?_text st st']

/-- The values of the generator and the manifest have no objects in common. -/
theorem blendingStore_apart :
    blendingStore.1.Unshared blendingStore.2 ∧
      (∀ g, some (Generator.fixed (.ref 1) : Generator Unit) = some g →
        g.Stateless blendingStore.1 blendingStore.2
          fun key => .ok (Generator.lookup blendingStore.1 (.ref 1) (.text key))) ∧
      ∀ key root id,
        (Except.ok (Generator.lookup blendingStore.1 (.ref 1) (.text key)) : Except Error Value)
          = .ok (.ref root) →
        blendingStore.1.Reaches (.ref root) id → ¬ blendingStore.1.Reaches blendingStore.2 id := by
  obtain ⟨hunshared, hexamples, hapart⟩ := Store.apart_insert
    (.map [(.text "uuid4", .map [(.text "u", .int 7)])]) blendingManifest .empty
  refine ⟨hunshared, ?_, ?_⟩
  · rintro g ⟨rfl⟩
    exact stateless_fixed hexamples (hapart 1 ⟨[], rfl⟩)
  · intro key root id hkey hr
    obtain ⟨n, hn⟩ := Generator.at?_of_lookup (Except.ok.inj hkey)
    exact hapart id (.of_at? hn hr)

/-- Documents are not built twice the same in general. -/
theorem not_build_again :
    ¬ ∀ (manifest : Value) (options : Options) (generator : Option (Generator Unit))
      (answer : String → Except Error Value) (w w₁ w₂ : World Unit) (d₁ d₂ : Document),
      w.store.Unshared manifest →
      (∀ g, generator = some g → g.Stateless w.store manifest answer) →
      (∀ key root id, answer key = .ok (.ref root) → w.store.Reaches (.ref root) id →
        ¬ w.store.Reaches manifest id) →
      Returns (build manifest options generator) w d₁ w₁ →
      Returns (build manifest options generator) w₁ d₂ w₂ →
      d₂.tree w₂.store = d₁.tree w₁.store := by
  intro hall
  obtain ⟨d₁, d₂, w₁, w₂, h₁, h₂, hne⟩ := blended_twice
  obtain ⟨hunshared, hstateless, hown⟩ := blendingStore_apart
  exact hne (hall _ _ _ _ _ _ _ _ _ hunshared hstateless hown h₁ h₂)

/-- The merges of four examples are not settled after the first build. -/
theorem build_again_iff_blending : ∃ (d : Document) (w₁ : World Unit) (pairs : List (Nat × Nat)),
    Returns (build blendingStore.2 {} (some (.fixed (.ref 1))))
      { store := blendingStore.1, examples := () } d w₁ ∧
    MergesInPlace blendingStore.2 {} (some (.fixed (.ref 1)))
      { store := blendingStore.1, examples := () } pairs ∧
    ¬ d.Settled w₁.store pairs := by
  obtain ⟨d₁, d₂, w₁, w₂, h₁, h₂, hne⟩ := blended_twice
  obtain ⟨hunshared, hstateless, hown⟩ := blendingStore_apart
  obtain ⟨pairs, hmerges, _, hiff⟩ := build_again_iff hunshared hstateless hown h₁
  refine ⟨d₁, w₁, pairs, h₁, hmerges, fun hsettled => ?_⟩
  obtain ⟨d', w', h', htree⟩ := hiff.mpr hsettled
  obtain ⟨rfl, rfl⟩ := h'.unique h₂
  exact hne htree

end Document
end ApiManifest
