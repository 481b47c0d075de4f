import ApiManifest.Proofs.Ownership
import ApiManifest.Proofs.Repetition
import ApiManifest.Proofs.Scaffold
import Mathlib.Algebra.Group.Int.Defs

/-!
# Well-shaped manifests have documents

Nothing fails when a document is built of a manifest that is well-shaped and shares nothing. What is
declared can be read when its turn comes, since no merge has changed it by then; the examples come
from the author or from a generator that has an answer; and all that is merged in place stands
apart, so that every merge comes to its end. Types, methods and paths may be whatever they are, and
definitions and paths may collide. Only the name of a resource has to have a text, which an integer
of too many digits has not.
-/

namespace ApiManifest

variable {σ : Type}

/-! ## Manifests -/

/-- The generator has an answer whenever it is asked. -/
def Generator.Answers (g : Generator σ) : Prop := ∀ st key s, ∃ v, (g.ask st key s).result = .ok v

/-- The generator answers with a scalar whenever it is asked. -/
def Generator.AnswersScalars (g : Generator σ) : Prop :=
  ∀ st key s, ∃ x, (g.ask st key s).result = .ok (.scalar x)

theorem Generator.AnswersScalars.answers {g : Generator σ} (h : g.AnswersScalars) : g.Answers := by
  intro st key s
  obtain ⟨x, hx⟩ := h st key s
  exact ⟨_, hx⟩

theorem Generator.AnswersScalars.answersFrom {g : Generator σ} (h : g.AnswersScalars) :
    g.AnswersFrom fun _ => False := by
  intro st key s v hv
  obtain ⟨x, hx⟩ := h st key s
  rw [hx] at hv
  cases hv
  trivial

/-- The value is a mapping with entries `es` that describes an interface and, by entries `declared`,
its resources, if it has any. -/
structure Store.IsManifest (st : Store) (v : Value)
    (es declared : List (Value × Value)) : Prop where
  entries : st.entries? v = some es
  interface : st.DescribesInterface es
  models : (st.field es "models" = .null ∧ declared = []) ∨
    st.entries? (st.field es "models") = some declared
  resources : ∀ entry ∈ declared, st.DeclaresResource entry.2

theorem Store.IsManifest.declarations {st : Store} {v : Value} {es declared : List (Value × Value)}
    (h : st.IsManifest v es declared) : Document.declarations st v = .ok declared := by
  rcases h.models with ⟨hnull, hempty⟩ | hmodels
  · exact declarations_iff.mpr ⟨es, h.entries, Or.inl ⟨by rw [hnull]; rfl, hempty⟩⟩
  · exact Document.declarations_of_models h.entries hmodels

/-! ## Definitions -/

namespace Definition

variable {generator : Option (Generator σ)} (options : Options)
  (hanswers : ∀ g, generator = some g → g.Answers)

include hanswers

theorem exists_shownExample (property : Property) (w : World σ) :
    ∃ example? w', Returns (shownExample property options generator) w example? w' := by
  unfold shownExample
  split
  · unfold exampleOf
    dsimp only
    split
    · rename_i g _
      obtain ⟨x, hx⟩ := hanswers g rfl w.store (DataType.ofName property.type).exampleKey w.examples
      exact ⟨_, _, Returns.bind_iff.mpr ⟨_, _, Run.ask_iff.mpr ⟨hx, rfl⟩, rfl⟩⟩
    · exact ⟨_, _, Returns.bind_iff.mpr ⟨_, _, rfl, rfl⟩⟩
  · exact ⟨none, w, rfl⟩

theorem exists_schemas (resource : String) (properties : Fields Property) (w : World σ) :
    ∃ parts w', Returns (schemas resource options generator properties) w parts w' := by
  induction properties generalizing w with
  | nil => exact ⟨[], w, rfl⟩
  | cons entry rest ih =>
      rcases entry with ⟨name, property⟩
      obtain ⟨example?, w₁, hshown⟩ := exists_shownExample options hanswers property
        { w with log := w.log ++ passingThrough resource name property }
      obtain ⟨parts, w₂, hrest⟩ := ih w₁
      have hschema : Returns (schema resource name property options generator) w
          (schemaWith w.store resource name property options example?) w₁ :=
        Returns.bind_iff.mpr ⟨(), _, Run.tell_iff.mpr rfl, Returns.bind_iff.mpr ⟨_, _,
          Returns.get_iff.mpr ⟨rfl, rfl⟩, Returns.bind_iff.mpr ⟨example?, w₁, hshown, rfl⟩⟩⟩
      exact ⟨_, w₂, Returns.bind_iff.mpr ⟨_, w₁, hschema,
        Returns.bind_iff.mpr ⟨parts, w₂, hrest, rfl⟩⟩⟩

theorem exists_build (resource : String) {declared : Value} {w : World σ}
    (h : w.store.DeclaresProperties declared) :
    ∃ part w', Returns (build resource declared options generator) w part w' := by
  obtain ⟨properties, hproperties⟩ := exists_declaredProperties h
  obtain ⟨parts, w', hparts⟩ := exists_schemas options hanswers resource properties w
  exact ⟨_, w', Returns.bind_iff.mpr ⟨properties, w, Run.reading_iff.mpr ⟨hproperties, rfl⟩,
    Returns.bind_iff.mpr ⟨parts, w', hparts, rfl⟩⟩⟩

/-- **The definitions of a resource are made.** -/
theorem exists_ofResource {r : Resource} {w : World σ} (h : r.IsReadable w.store) :
    ∃ definitions w', Returns (ofResource r options generator) w definitions w' := by
  obtain ⟨response, w₁, hresponse⟩ := exists_build options hanswers r.name h.response
  have hmodify : w₁.store.DeclaresProperties r.modify := by
    rw [build_store hresponse]
    exact h.modify
  unfold ofResource
  cases hreadOnly : r.isReadOnly with
  | true => exact ⟨_, w₁, Returns.bind_iff.mpr ⟨response, w₁, hresponse, rfl⟩⟩
  | false =>
      obtain ⟨modify, w₂, hmodify⟩ := exists_build options hanswers r.name hmodify
      exact ⟨_, w₂, Returns.bind_iff.mpr ⟨response, w₁, hresponse,
        Returns.bind_iff.mpr ⟨modify, w₂, hmodify, rfl⟩⟩⟩

end Definition

/-! ## Path items -/

namespace PathItem

variable {r : Resource} (options : Options) {backend : Backend}

theorem exists_operation (hbackend : backend.Reachable) (op : Operation) :
    ∃ part, operation r op options (some backend) = .ok part := by
  have hintegration : ∃ part, integration r op backend = .ok part := by
    obtain ⟨uri, huri⟩ := hbackend (PathTemplate.parse r.path op.onCollection).display
    unfold integration
    dsimp only
    rw [huri]
    exact ⟨_, rfl⟩
  have hgateway : ∃ gateway, integration? r op options (some backend) = .ok gateway := by
    obtain ⟨part, hpart⟩ := hintegration
    unfold integration?
    dsimp only
    rw [hpart]
    split <;> exact ⟨_, rfl⟩
  obtain ⟨gateway, hgateway⟩ := hgateway
  exact ⟨_, by rw [operation, hgateway]; rfl⟩

theorem exists_offer (hbackend : backend.Reachable) (ops : List Operation) (paths : Fields Node) :
    ∃ paths', offer r options (some backend) ops paths = .ok paths' := by
  induction ops generalizing paths with
  | nil => exact ⟨paths, rfl⟩
  | cons op rest ih =>
      obtain ⟨part, hpart⟩ := exists_operation (r := r) options hbackend op
      rw [offer, hpart]
      exact ih _

/-- **The path items of a resource are made**, whatever its path and its methods are. -/
theorem exists_items (hbackend : backend.Reachable) (hmethods : Tree.areKeys r.methods = true) :
    ∃ paths, items r options (some backend) = .ok paths := by
  rw [items, Resource.unknownMethods, if_pos hmethods]
  exact exists_offer options hbackend r.operations (roots r)

end PathItem

/-! ## Documents -/

namespace Document

variable {generator : Option (Generator σ)} {options : Options} {backend : Backend}

/-- **A resource that can be read is added** to a document whose objects stand apart. -/
theorem exists_addResource {r : Resource} {d : Document} {w : World σ} {ids : List Nat}
    (hanswers : ∀ g, generator = some g → g.AnswersScalars) (hbackend : backend.Reachable)
    (hr : r.IsReadable w.store)
    (hsep : w.store.Separate (r.response.objects ++ (r.modify.objects ++
      (Node.fieldObjects d.definitions ++ ids)))) :
    ∃ d' w', Returns (addResource d r options backend generator) w d' w' := by
  obtain ⟨definitions, w₁, hdefinitions⟩ :=
    Definition.exists_ofResource options (fun g hg => (hanswers g hg).answers) hr
  obtain ⟨items, hitems⟩ := PathItem.exists_items options hbackend hr.methods
  have htaken := Definition.separate_ofResource (fun g hg => (hanswers g hg).answersFrom) hsep
    hdefinitions
  obtain ⟨st', hmerge, _⟩ := Node.mergeFields_returns
    (htaken.perm (List.perm_append_comm_assoc _ _ _))
  obtain ⟨w', hadd, _⟩ := addResource_of_merge hdefinitions hitems
    ((Node.mergeFields_iff _ _).mp hmerge).2
  exact ⟨_, w', hadd⟩

/-- **All resources are added, one after the other.** What is still to be read stands apart from
what is merged, and so it keeps its shape. -/
theorem exists_assembles {models : List (Value × Value)} {d : Document} {w : World σ}
    (hanswers : ∀ g, generator = some g → g.AnswersScalars) (hbackend : backend.Reachable)
    (hsep : w.store.Separate (Node.fieldObjects d.definitions ++ (Cell.map models).objects))
    (hmodels : ∀ entry ∈ models, w.store.DeclaresResource entry.2)
    (hnames : ∀ entry ∈ models, (w.store.tree entry.1).Short) :
    ∃ rs d' w', Assembles options backend generator models d w rs d' w' := by
  induction models generalizing d w with
  | nil => exact ⟨[], d, w, .done⟩
  | cons entry rest ih =>
      rcases entry with ⟨name, decl⟩
      obtain ⟨hdecl, hrest⟩ := List.forall_mem_cons.mp hmodels
      obtain ⟨hname, hothers⟩ := List.forall_mem_cons.mp hnames
      obtain ⟨text, htext⟩ := Tree.exists_display hname
      obtain ⟨r, hread, hr⟩ := Resource.exists_ofModel text hdecl
      have hresource : resourceOf w.store name decl = .ok r := by
        rw [resourceOf, htext]
        exact hread
      have hgiven : w.store.Separate (decl.objects ++
          (Node.fieldObjects d.definitions ++ (Cell.map rest).objects)) := by
        refine hsep.subperm (List.subperm_iff_count.mpr fun id => ?_)
        simp only [Cell.objects_map_cons, List.count_append]
        omega
      have hparts := separate_resourceOf hgiven hresource
      -- only the record that the resource's turn has come is added before
      obtain ⟨d₁, w₁, hadd⟩ := @exists_addResource _ generator options backend r d
        { w with log := w.log ++ generating w.store name } _ hanswers hbackend hr hparts
      obtain ⟨hsep₁, hagree⟩ := @separate_addResource _ _ generator options backend
        { w with log := w.log ++ generating w.store name } w₁ d d₁ r
        (fun g hg => (hanswers g hg).answersFrom) hparts hadd
      have hc := Store.closed_reached w.store (Cell.map rest).objects
      have hin : ∀ entry ∈ rest, entry.1.In (w.store.Reached (Cell.map rest).objects) ∧
          entry.2.In (w.store.Reached (Cell.map rest).objects) := by
        intro entry hentry
        have hparts : ∀ v ∈ [entry.1, entry.2], v.objects ⊆ (Cell.map rest).objects :=
          fun v hv id hid => List.mem_flatMap.mpr ⟨v, List.mem_flatMap.mpr ⟨entry, hentry, hv⟩, hid⟩
        exact ⟨Store.in_reached (hparts _ (by simp)), Store.in_reached (hparts _ (by simp))⟩
      obtain ⟨rs, d', w', hassembles⟩ := @ih d₁ w₁ hsep₁
        (fun entry hentry => (hrest entry hentry).of_agree hagree hc (hin entry hentry).2)
        (fun entry hentry => by
          rw [hagree.tree hc (hin entry hentry).1]
          exact hothers entry hentry)
      exact ⟨r :: rs, d', w', .next hresource hadd hassembles⟩

/--
**A well-shaped manifest has a document.**

It has to share nothing, and a generator to answer with scalars. No type, no method and no path is
refused, nor is a name, unless it has an integer of too many digits in it.
-/
theorem build_returns {manifest : Value} {es declared : List (Value × Value)} {w : World σ}
    (hpresent : ∀ id, w.store.Reaches manifest id → id < w.store.cells.size)
    (hunshared : w.store.Unshared manifest) (hmanifest : w.store.IsManifest manifest es declared)
    (hnames : ∀ entry ∈ declared, (w.store.tree entry.1).Short)
    (hanswers : ∀ g, generator = some g → g.AnswersScalars) :
    ∃ d w', Returns (build manifest options generator) w d w' := by
  obtain ⟨t, hbaseline⟩ := Baseline.exists_texts hmanifest.entries hmanifest.interface
  obtain ⟨backend, hbackend, hreachable⟩ := Backend.exists_ofDocument t
  have hsep := separate_declarations hpresent hunshared hmanifest.declarations
  obtain ⟨rs, d, w', hassembles⟩ := @exists_assembles _ generator options backend declared
    { baseline := _ } w hanswers hreachable hsep hmanifest.resources hnames
  exact ⟨d, _, build_iff.mpr ⟨rs, _, backend, declared, w', hbaseline, hbackend,
    hmanifest.declarations, hassembles, rfl⟩⟩

/-- Two resources with one path and one definition key, whose type, path and second method are none,
and a resource with an integer for its name. Their examples are merged. -/
def oddManifest (name : Int) : Tree :=
  let property (part : Tree) : Tree := .map [(.text "type", .text "no such type"),
    (.text "example", .map [(.text "k", .map [(part, .null)])])]
  let model (part : Tree) : Tree := .map [
    (.text "path", .text "//x/\x7ba\x7bb:\x7d/\x7b"),
    (.text "methods", .list [.text "list", .text "zap"]),
    (.text "response", .map [(.text "p", property part), (.text "?", .text "")])]
  .map [
    (.text "schemes", .list [.text "https"]), (.text "formats", .list []),
    (.text "baseUri", .text "#?/%"), (.text "title", .text "a: [b"),
    (.text "models", .map [(.text "x-y", model (.int 1)), (.text "x_y", model (.int 2)),
      (.int name, .null)])]

/-- The manifest as an object. -/
def oddStore (name : Int) : Store × Value := Store.empty.insert (oddManifest name)

theorem isManifest_odd (name : Int) : ∃ es declared,
    (oddStore name).1.IsManifest (oddStore name).2 es declared ∧
      declared.map Prod.fst = [.text "x-y", .text "x_y", .scalar (.int name)] := by
  have hproperty : ∀ id example?, (oddStore name).1.entries? (.ref id) =
      some [(.text "type", .text "no such type"), (.text "example", example?)] →
      (oddStore name).1.DeclaresProperty (.ref id) := fun id example? hes =>
    Or.inr ⟨_, hes, Or.inr ⟨"no such type", rfl, trivial⟩⟩
  have hmodel : ∀ id methods response p,
      (oddStore name).1.entries? (.ref id) = some [
        (.text "path", .text "//x/\x7ba\x7bb:\x7d/\x7b"), (.text "methods", .ref methods),
        (.text "response", .ref response)] →
      (oddStore name).1.cell? (.ref methods) = some (.list (["list", "zap"].map .text)) →
      (oddStore name).1.entries? (.ref response) =
        some [(.text "p", .ref p), (.text "?", .text "")] →
      (oddStore name).1.DeclaresProperty (.ref p) →
      (oddStore name).1.DeclaresResource (.ref id) := by
    intro id methods response p hes hmethods hresponse hp
    refine Or.inr ⟨_, hes, Or.inr ⟨_, rfl, trivial⟩, Or.inr ⟨_, hmethods, fun _ _ => trivial⟩,
      Or.inr ⟨_, hresponse, ?_⟩, Or.inl rfl⟩
    simp only [List.forall_mem_cons]
    exact ⟨⟨⟨_, rfl⟩, hp⟩, ⟨⟨_, rfl⟩, Or.inl ⟨_, rfl⟩⟩, by simp⟩
  refine ⟨_, _, ⟨rfl, ⟨Or.inr ⟨_, rfl, by decide⟩, Or.inl rfl, Or.inl rfl,
    ⟨["https"], rfl, by decide⟩, ⟨[], rfl, by decide⟩, Or.inr ⟨_, rfl, by decide⟩⟩,
    Or.inr rfl, ?_⟩, rfl⟩
  simp only [List.forall_mem_cons]
  exact ⟨hmodel 7 2 6 5 rfl rfl rfl (hproperty 5 _ rfl),
    hmodel 13 8 12 11 rfl rfl rfl (hproperty 11 _ rfl), Or.inl rfl, by simp⟩

/-- Every name that a resource was read by has a text. -/
theorem exists_display_of_assembles {models : List (Value × Value)} {d d' : Document}
    {w w' : World σ} {rs : List Resource}
    (h : Assembles options backend generator models d w rs d' w') :
    ∀ entry ∈ models, ∃ (st : Store) (text : String), (st.tree entry.1).display = .ok text := by
  induction h with
  | done => exact fun _ hentry => absurd hentry List.not_mem_nil
  | @next name decl rest d d₁ d' w w₁ w' r rs hread _ _ ih =>
      obtain ⟨text, htext, _⟩ := result_bind_iff.mp hread
      exact List.forall_mem_cons.mpr ⟨⟨w.store, text, htext⟩, ih⟩

/-- The manifest has a document only if the third name does not have too many digits. -/
theorem lt_of_build_odd {name : Int} {w w' : World σ} {d : Document}
    (hstore : w.store = (oddStore name).1)
    (h : Returns (build (oddStore name).2 options generator) w d w') :
    name.natAbs < 10 ^ Numeral.maxDigits := by
  obtain ⟨es, declared, hmanifest, hnames⟩ := isManifest_odd name
  obtain ⟨rs, baseline, backend, declared', w₁, _, _, hdeclared, hassembles, _⟩ := build_iff.mp h
  rw [hstore, hmanifest.declarations] at hdeclared
  cases hdeclared
  have hmem : Value.scalar (.int name) ∈ declared.map Prod.fst := by
    rw [hnames]
    simp
  obtain ⟨entry, hentry, heq⟩ := List.mem_map.mp hmem
  obtain ⟨st, text, htext⟩ := exists_display_of_assembles hassembles entry hentry
  rw [heq] at htext
  exact exists_decimalText_iff.mp ⟨text, htext⟩

/-- An integer of 4335 digits. -/
def longName : Int := (16 ^ 36) ^ 100

theorem le_longName : 10 ^ Numeral.maxDigits ≤ longName.natAbs := by
  have hpow : ∀ k, k = 43 * 100 → 10 ^ k = (10 ^ 43) ^ 100 := by
    rintro k rfl
    exact pow_mul 10 43 100
  rw [longName, Int.natAbs_pow, hpow Numeral.maxDigits rfl]
  exact Nat.pow_le_pow_left (by decide) 100

/-- Not every key can name a resource. -/
theorem not_build_returns : ¬ ∀ (manifest : Value) (es declared : List (Value × Value))
      (options : Options) (generator : Option (Generator Unit)) (w : World Unit),
      (∀ id, w.store.Reaches manifest id → id < w.store.cells.size) → w.store.Unshared manifest →
      w.store.IsManifest manifest es declared → (∀ g, generator = some g → g.AnswersScalars) →
      ∃ d w', Returns (build manifest options generator) w d w' := by
  intro hall
  obtain ⟨es, declared, hmanifest, _⟩ := isManifest_odd longName
  obtain ⟨_, hfresh⟩ := Store.fresh_insert (oddManifest longName) .empty
  obtain ⟨d, w', h⟩ := hall (oddStore longName).2 es declared {} none
    { store := (oddStore longName).1, examples := () } (fun id hr => (hfresh.made id hr).2)
    hfresh.unshared hmanifest (fun g hg => nomatch hg)
  exact absurd (lt_of_build_odd rfl h) (Nat.not_lt.mpr le_longName)

/-- The generator that counts its answers. -/
def counting : Generator Int where
  ask _ _ count := { result := .ok (.scalar (.int count)), state := count + 1 }

/-- A manifest of oddities has a document. -/
theorem build_returns_odd :
    (∃ es declared, (oddStore 7).1.IsManifest (oddStore 7).2 es declared ∧
      declared.map Prod.fst = [.text "x-y", .text "x_y", .scalar (.int 7)]) ∧
    ∃ d w', Returns (build (oddStore 7).2 { apiGateway := true } (some counting))
      { store := (oddStore 7).1, examples := 0 } d w' := by
  obtain ⟨es, declared, hmanifest, hnames⟩ := isManifest_odd 7
  refine ⟨⟨es, declared, hmanifest, hnames⟩, ?_⟩
  obtain ⟨_, hfresh⟩ := Store.fresh_insert (oddManifest 7) .empty
  refine build_returns (fun id hr => (hfresh.made id hr).2) hfresh.unshared hmanifest
    (fun entry hentry => ?_) (fun g hg => Option.some.inj hg ▸ fun _ _ s => ⟨.int s, rfl⟩)
  have hdigits : 7 < 10 ^ Numeral.maxDigits :=
    Nat.lt_of_lt_of_le (by decide : 7 < 10 ^ 1) (Nat.pow_le_pow_right (by decide) (by decide))
  have hshort : ∀ name ∈ [Value.text "x-y", .text "x_y", .scalar (.int 7)],
      ((oddStore 7).1.tree name).Short := by
    simp only [List.forall_mem_cons]
    refine ⟨fun _ hn => absurd hn List.not_mem_nil, fun _ hn => absurd hn List.not_mem_nil,
      fun n hn => ?_, by simp⟩
    cases List.mem_singleton.mp hn
    exact hdigits
  exact hshort _ (hnames ▸ List.mem_map_of_mem hentry)

end Document
end ApiManifest
