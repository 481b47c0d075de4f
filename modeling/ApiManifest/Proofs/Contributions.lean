import ApiManifest.Proofs.Index
import ApiManifest.Proofs.Mirrors
import ApiManifest.Proofs.Repetition

/-!
# What a resource contributes

Resources with names of their own and paths of their own do not meet: what one of them contributes
is what it would contribute alone, and merging it into a document puts it behind what is there. So a
document of such resources is made of their contributions, one after the other, and its build
returns exactly when every one of them can be made.
-/

namespace ApiManifest

variable {σ : Type}

/-! ## Merging what does not meet -/

theorem Fields.put_of_absent {α : Type} {name : String} {fields : Fields α}
    (h : name ∉ fields.names) (value : α) : fields.put name value = fields ++ [(name, value)] := by
  induction fields with
  | nil => rfl
  | cons entry rest ih =>
      rcases entry with ⟨n, v⟩
      have hne : n ≠ name := fun heq => h (heq ▸ List.mem_cons_self)
      rw [put, if_neg hne, ih fun hmem => h (List.mem_cons_of_mem _ hmem), List.cons_append]

/-- Fields with new names come behind those that are there. -/
theorem Node.overlayFields_of_disjoint {maps : Nat → Bool} {target source : Fields Node}
    (hd : source.names.Nodup) (h : ∀ name ∈ source.names, name ∉ target.names) :
    overlayFields maps target source = target ++ source := by
  induction source generalizing target with
  | nil => rw [overlayFields, List.append_nil]
  | cons entry rest ih =>
      rcases entry with ⟨name, part⟩
      have habsent : name ∉ Fields.names target := h name List.mem_cons_self
      obtain ⟨hname, hrest⟩ : name ∉ Fields.names rest ∧ (Fields.names rest).Nodup :=
        List.nodup_cons.mp hd
      rw [overlayFields, Fields.get?_eq_none_iff.mpr habsent]
      dsimp only
      rw [Fields.put_of_absent habsent, ih hrest, List.append_assoc, List.singleton_append]
      intro other hother hmem
      rw [Fields.names, List.map_append, List.mem_append] at hmem
      rcases hmem with hmem | hmem
      · exact h other (List.mem_cons_of_mem _ hother) hmem
      · have heq : other = name := List.mem_singleton.mp hmem
        exact hname (heq ▸ hother)

namespace PathItem

/-- What the path items of a resource come to does not depend on the world. -/
theorem outcome_ofResource {r : Resource} {options : Options} {backend : Option Backend}
    {paths : Fields Node} (w : World σ) :
    (outcome (ofResource r options backend) w).1 = .ok paths ↔
      items r options backend = .ok paths := by
  constructor
  · intro h
    exact (items_of_returns (Prod.ext h rfl : Returns _ w paths _)).1
  · intro h
    obtain ⟨w', hw'⟩ := returns_of_items w h
    exact congrArg Prod.fst hw'

end PathItem

namespace Document

open PathItem (pathsOf)

/-! ## Contributions -/

/-- What a declared resource contributes on its own: its definitions and its path items. -/
def contribution (w : World σ) (options : Options) (backend : Backend)
    (generator : Option (Generator σ)) (model : Value × Value) :
    Except Error (Fields Node × Fields Node) := do
  let r ← resourceOf w.store model.1 model.2
  let definitions ← (outcome (Definition.ofResource r options generator) w).1
  let paths ← (outcome (PathItem.ofResource r options (some backend)) w).1
  return (definitions, paths)

/-- A document with some contributions behind what it has. -/
def extended (d : Document) (owns : List (Fields Node × Fields Node)) : Document :=
  { d with
    definitions := d.definitions ++ owns.flatMap Prod.fst
    paths := d.paths ++ owns.flatMap Prod.snd }

theorem extended_nil (d : Document) : d.extended [] = d := by
  simp [extended]

theorem extended_cons (d : Document) (own : Fields Node × Fields Node)
    (owns : List (Fields Node × Fields Node)) :
    d.extended (own :: owns) = (d.extended [own]).extended owns := by
  simp [extended]

/-- No path of one resource is a path of the other one. -/
def PathsApart (st : Store) (model model' : Value × Value) : Prop :=
  ∀ r r', resourceOf st model.1 model.2 = .ok r → resourceOf st model'.1 model'.2 = .ok r' →
    ∀ path ∈ pathsOf r, path ∉ pathsOf r'

theorem pathsApart_iff {st : Store} {model model' : Value × Value} :
    PathsApart st model model' ↔ (resourceOf st model.1 model.2).toOption.all (fun r =>
      (resourceOf st model'.1 model'.2).toOption.all fun r' =>
        decide (∀ path ∈ pathsOf r, path ∉ pathsOf r')) = true := by
  unfold PathsApart
  cases resourceOf st model.1 model.2 <;> cases resourceOf st model'.1 model'.2 <;>
    simp [Except.toOption]

instance (st : Store) (model model' : Value × Value) : Decidable (PathsApart st model model') :=
  decidable_of_iff _ pathsApart_iff.symm

/-- Resources with names of their own, in PascalCase, and with paths of their own. -/
structure Apart (st : Store) (declared : List (Value × Value)) : Prop where
  names : (pascalNames st declared).Nodup
  paths : declared.Pairwise (PathsApart st)

/-- The resources that follow have names and paths of their own as well. -/
theorem Apart.next {st : Store} {model : Value × Value} {rest : List (Value × Value)}
    {r : Resource} (h : Apart st (model :: rest))
    (hread : resourceOf st model.1 model.2 = .ok r) : Apart st rest where
  names := by
    have hnames := h.names
    rw [pascalNames_cons (display_of_resourceOf hread)] at hnames
    exact (List.nodup_cons.mp hnames).2
  paths := (List.pairwise_cons.mp h.paths).2

/-- Nothing in the document has a key or a path of the resources. -/
structure NewTo (st : Store) (declared : List (Value × Value)) (d : Document) : Prop where
  names : FreeOf (pascalNames st declared) d
  paths : ∀ model ∈ declared, ∀ r, resourceOf st model.1 model.2 = .ok r →
    ∀ path ∈ pathsOf r, path ∉ d.paths.names

/-- The document has neither of the two definitions that the first resource has. -/
theorem NewTo.first {st : Store} {model : Value × Value} {rest : List (Value × Value)}
    {d : Document} {r : Resource} (h : NewTo st (model :: rest) d)
    (hread : resourceOf st model.1 model.2 = .ok r) :
    Definition.responseName r.name ∉ d.definitions.names ∧
      Definition.requestName r.name ∉ d.definitions.names := by
  refine h.names r.name ?_
  rw [pascalNames_cons (display_of_resourceOf hread)]
  exact List.mem_cons_self

theorem newTo_start (st : Store) (declared : List (Value × Value)) (baseline : Entries) :
    NewTo st declared { baseline } where
  names := freeOf_start _ baseline
  paths := by
    intro _ _ _ _ path _ hmem
    cases hmem

section

variable {options : Options} {backend : Backend} {generator : Option (Generator σ)} {w : World σ}

theorem contribution_iff {model : Value × Value} {own : Fields Node × Fields Node} :
    contribution w options backend generator model = .ok own ↔
      ∃ r, resourceOf w.store model.1 model.2 = .ok r ∧
        (outcome (Definition.ofResource r options generator) w).1 = .ok own.1 ∧
        PathItem.items r options (some backend) = .ok own.2 := by
  unfold contribution
  rw [result_bind_iff]
  refine exists_congr fun r => and_congr_right fun _ => ?_
  rw [result_bind_iff]
  constructor
  · rintro ⟨definitions, hdefinitions, h⟩
    obtain ⟨paths, hpaths, h⟩ := result_bind_iff.mp h
    cases h
    exact ⟨hdefinitions, (PathItem.outcome_ofResource w).mp hpaths⟩
  · rintro ⟨hdefinitions, hitems⟩
    exact ⟨own.1, hdefinitions,
      result_bind_iff.mpr ⟨own.2, (PathItem.outcome_ofResource w).mpr hitems, rfl⟩⟩

section

variable {r : Resource} {definitions items : Fields Node}

/-- The paths of a resource are those of its path items. -/
theorem mem_names_items (hitems : PathItem.items r options (some backend) = .ok items)
    {path : String} : path ∈ items.names ↔ path ∈ pathsOf r := by
  rw [(PathItem.itemsOf_items hitems).names, PathItem.mem_pathsOf]

theorem overlay_paths {d : Document} {maps : Nat → Bool}
    (hitems : PathItem.items r options (some backend) = .ok items)
    (hnew : ∀ path ∈ pathsOf r, path ∉ d.paths.names) :
    Node.overlayFields maps d.paths items = d.paths ++ items := by
  exact Node.overlayFields_of_disjoint (PathItem.itemsOf_items hitems).nodup fun path hpath =>
    hnew path ((mem_names_items hitems).mp hpath)

end

/-- If the generator does not remember anything, the definitions of a resource are the same in
every world with this store. -/
theorem outcome_ofResource_congr (hg : ∀ g, generator = some g → g.Forgetful w.store)
    {w' : World σ} (hstore : w'.store = w.store) {r : Resource} {definitions : Fields Node}
    (h : (outcome (Definition.ofResource r options generator) w').1 = .ok definitions) :
    (outcome (Definition.ofResource r options generator) w).1 = .ok definitions := by
  have hlike : r.Like Eq r := ⟨rfl, rfl, rfl, rfl, rfl, rfl⟩
  have hmirrors : Mirrors w.store (Node.LikeFields Eq) (Definition.ofResource r options generator)
      (Definition.ofResource r options generator) :=
    Definition.mirrors_ofResource w.store.likeness_eq hg hlike
  obtain ⟨_, _, hresult⟩ := hmirrors w' w hstore rfl
  rw [h] at hresult
  generalize (outcome (Definition.ofResource r options generator) w).1 = result at hresult
  cases hresult with
  | ok hsame => rw [hsame.eq]

variable (hg : ∀ g, generator = some g → g.Forgetful w.store)

include hg

/-- **A resource adds what it contributes on its own.** -/
theorem extended_of_addResource {d d' : Document} {w₁ w' : World σ} (model : Value × Value)
    {r : Resource} (hstore : w₁.store = w.store)
    (hread : resourceOf w.store model.1 model.2 = .ok r)
    (hresponse : Definition.responseName r.name ∉ d.definitions.names)
    (hrequest : Definition.requestName r.name ∉ d.definitions.names)
    (hpaths : ∀ path ∈ pathsOf r, path ∉ d.paths.names)
    (h : Returns (addResource d r options backend generator) w₁ d' w') :
    ∃ own, contribution w options backend generator model = .ok own ∧ d' = d.extended [own] ∧
      w'.store = w.store := by
  obtain ⟨definitions, items, w₂, hdefinitions, hitems, rfl, _⟩ := addResource_cases h
  have hresult : (outcome (Definition.ofResource r options generator) w₁).1 = .ok definitions :=
    congrArg Prod.fst hdefinitions
  have hown := outcome_ofResource_congr hg hstore hresult
  refine ⟨(definitions, items), contribution_iff.mpr ⟨r, hread, hown, hitems⟩, ?_,
    ((untouched_addResource hresponse hrequest).store h).trans hstore⟩
  rw [overlay_paths hitems hpaths, Node.overlayFields_of_disjoint
    (Definition.nodup_names_ofResource hdefinitions)]
  · simp [extended]
  · intro key hkey
    rcases Definition.mem_names_ofResource hdefinitions hkey with rfl | rfl
    · exact hresponse
    · exact hrequest

/-- A resource is added if it contributes something on its own. -/
theorem addResource_of_contribution {d : Document} {w₁ : World σ} {model : Value × Value}
    {own : Fields Node × Fields Node} {r : Resource} (hstore : w₁.store = w.store)
    (hread : resourceOf w.store model.1 model.2 = .ok r)
    (hresponse : Definition.responseName r.name ∉ d.definitions.names)
    (hrequest : Definition.requestName r.name ∉ d.definitions.names)
    (h : contribution w options backend generator model = .ok own) :
    ∃ d' w', Returns (addResource d r options backend generator) w₁ d' w' := by
  obtain ⟨r', hread', hdefinitions, hitems⟩ := contribution_iff.mp h
  rw [hread] at hread'
  cases hread'
  have hg₁ : ∀ g, generator = some g → g.Forgetful w₁.store := by
    rw [hstore]
    exact hg
  have hresult := outcome_ofResource_congr hg₁ hstore.symm hdefinitions
  have hreturns : Returns (Definition.ofResource r options generator) w₁ own.1 _ :=
    Prod.ext hresult rfl
  have hmerge : Returns (Store.mergeAll
      (Node.meetingsFields w₁.store.isMapping d.definitions own.1)) w₁.store () w₁.store := by
    rw [Definition.meetingsFields_ofResource hreturns hresponse hrequest]
    rfl
  obtain ⟨w', hw', _⟩ := addResource_of_merge hreturns hitems hmerge
  exact ⟨_, w', hw'⟩

omit hg in
/-- The resources that follow are still new to the document. -/
theorem NewTo.next {d : Document} {model : Value × Value} {rest : List (Value × Value)}
    {r : Resource} {own : Fields Node × Fields Node} (h : NewTo w.store (model :: rest) d)
    (hread : resourceOf w.store model.1 model.2 = .ok r) (hapart : Apart w.store (model :: rest))
    (hown : contribution w options backend generator model = .ok own) :
    NewTo w.store rest (d.extended [own]) := by
  obtain ⟨r', hread', hdefinitions, hitems⟩ := contribution_iff.mp hown
  rw [hread] at hread'
  cases hread'
  have hreturns : Returns (Definition.ofResource r options generator) w own.1 _ :=
    Prod.ext hdefinitions rfl
  have hcons : pascalNames w.store (model :: rest)
      = Naming.pascalCase r.name :: pascalNames w.store rest :=
    pascalNames_cons (display_of_resourceOf hread)
  have hnames := hapart.names
  have hfree := h.names
  rw [hcons] at hnames hfree
  -- a later resource has another name in PascalCase, so this one does not bring its keys along
  have hkeys : ∀ other key : String, Naming.pascalCase other ∈ pascalNames w.store rest →
      (key = Definition.responseName other ∨ key = Definition.requestName other) →
      key ∉ d.definitions.names → key ∉ (d.extended [own]).definitions.names := by
    intro other key hother hkey hold hmem
    have hsplit : key ∈ d.definitions.names ∨ key ∈ own.1.names := by
      simpa [extended, Fields.names] using hmem
    rcases hsplit with hmem | hmem
    · exact hold hmem
    · have hsame := Definition.pascalCase_eq_of_key
        (Definition.mem_names_ofResource hreturns hmem) hkey
      rw [← hsame] at hother
      exact (List.nodup_cons.mp hnames).1 hother
  constructor
  · intro other hother
    obtain ⟨hresponse, hrequest⟩ := hfree other (List.mem_cons_of_mem _ hother)
    constructor
    · exact hkeys other (Definition.responseName other) hother (Or.inl rfl) hresponse
    · exact hkeys other (Definition.requestName other) hother (Or.inr rfl) hrequest
  · intro model' hmodel' r' hread' path hpath hmem
    have hsplit : path ∈ d.paths.names ∨ path ∈ own.2.names := by
      simpa [extended, Fields.names] using hmem
    rcases hsplit with hmem | hmem
    · exact h.paths model' (List.mem_cons_of_mem _ hmodel') r' hread' path hpath hmem
    · have hpair := (List.pairwise_cons.mp hapart.paths).1 model' hmodel'
      exact hpair r r' hread hread' path ((mem_names_items hitems).mp hmem) hpath

/-- **The run.** Resources that do not meet add what each of them contributes on its own. -/
theorem extended_of_assembles {declared : List (Value × Value)} {d d' : Document}
    {w₁ w' : World σ} {rs : List Resource} (hstore : w₁.store = w.store)
    (hapart : Apart w.store declared) (hnew : NewTo w.store declared d)
    (h : Assembles options backend generator declared d w₁ rs d' w') :
    ∃ owns, declared.mapM (contribution w options backend generator) = .ok owns ∧
      d' = d.extended owns ∧ w'.store = w.store := by
  induction h with
  | done => exact ⟨[], rfl, (extended_nil _).symm, hstore⟩
  | @next name decl rest d d₁ _ w₁ w₂ _ r rs hread hadd _ ih =>
      rw [hstore] at hread
      have hstore₁ : ({ w₁ with log := w₁.log ++ generating w₁.store name } : World σ).store
          = w.store := hstore
      obtain ⟨hresponse, hrequest⟩ := hnew.first hread
      obtain ⟨own, hown, rfl, hstore₂⟩ := extended_of_addResource hg (name, decl) hstore₁ hread
        hresponse hrequest (hnew.paths _ List.mem_cons_self r hread) hadd
      obtain ⟨owns, howns, rfl, hstore'⟩ :=
        ih hstore₂ (hapart.next hread) (hnew.next hread hapart hown)
      refine ⟨own :: owns, ?_, (extended_cons d own owns).symm, hstore'⟩
      rw [List.mapM_cons, hown, howns]
      rfl

/-- They are assembled if each of them contributes something on its own. -/
theorem assembles_of_contributions {declared : List (Value × Value)} {d : Document}
    {w₁ : World σ} {owns : List (Fields Node × Fields Node)} (hstore : w₁.store = w.store)
    (hapart : Apart w.store declared) (hnew : NewTo w.store declared d)
    (h : declared.mapM (contribution w options backend generator) = .ok owns) :
    ∃ rs d' w', Assembles options backend generator declared d w₁ rs d' w' := by
  induction declared generalizing d w₁ owns with
  | nil => exact ⟨[], d, w₁, .done⟩
  | cons model rest ih =>
      rw [List.mapM_cons] at h
      obtain ⟨own, hown, h⟩ := result_bind_iff.mp h
      obtain ⟨others, hothers, _⟩ := result_bind_iff.mp h
      obtain ⟨r, hread, _, _⟩ := contribution_iff.mp hown
      obtain ⟨hresponse, hrequest⟩ := hnew.first hread
      have hstore₁ : ({ w₁ with log := w₁.log ++ generating w₁.store model.1 } : World σ).store
          = w.store := hstore
      obtain ⟨d₁, w₂, hadd⟩ :=
        addResource_of_contribution hg hstore₁ hread hresponse hrequest hown
      obtain ⟨own', hown', rfl, hstore₂⟩ := extended_of_addResource hg model hstore₁ hread
        hresponse hrequest (hnew.paths _ List.mem_cons_self r hread) hadd
      rw [hown] at hown'
      cases hown'
      obtain ⟨rs, d', w', hassembles⟩ :=
        ih hstore₂ (hapart.next hread) (hnew.next hread hapart hown) hothers
      exact ⟨r :: rs, d', w', .next (by rw [hstore]; exact hread) hadd hassembles⟩

end

/-! ## Builds -/

/-- What the declared resources contribute, each of them on its own. -/
def contributions (w : World σ) (manifest : Value) (options : Options) (backend : Backend)
    (generator : Option (Generator σ)) : Except Error (List (Fields Node × Fields Node)) := do
  (← declarations w.store manifest).mapM (contribution w options backend generator)

/-- The document consists of the baseline of its manifest, and of what every declared resource
contributes on its own. -/
def ConsistsOfOwn (w : World σ) (manifest : Value) (options : Options)
    (generator : Option (Generator σ)) (d : Document) : Prop :=
  ∃ baseline backend owns,
    Baseline.ofManifest (w.store.tree manifest) = .ok (.map baseline) ∧
      Backend.ofDocument (.map baseline) = .ok backend ∧
      contributions w manifest options backend generator = .ok owns ∧
      d = { baseline, definitions := owns.flatMap Prod.fst, paths := owns.flatMap Prod.snd }

section

variable {manifest : Value} {options : Options} {generator : Option (Generator σ)} {w : World σ}
  (hg : ∀ g, generator = some g → g.Forgetful w.store)
  (hapart : ∀ declared, declarations w.store manifest = .ok declared → Apart w.store declared)

include hg hapart

/-- **A document of resources that do not meet** is made of what each of them contributes. -/
theorem consistsOfOwn_of_returns {d : Document} {w' : World σ}
    (h : Returns (build manifest options generator) w d w') :
    ConsistsOfOwn w manifest options generator d ∧ w'.store = w.store := by
  obtain ⟨rs, baseline, backend, declared, w₁, hbaseline, hbackend, hdeclared, hassembles, rfl⟩ :=
    build_iff.mp h
  obtain ⟨owns, howns, rfl, hstore⟩ := extended_of_assembles hg rfl (hapart declared hdeclared)
    (newTo_start w.store declared baseline) hassembles
  exact ⟨⟨baseline, backend, owns, hbaseline, hbackend,
    result_bind_iff.mpr ⟨declared, hdeclared, howns⟩, rfl⟩, hstore⟩

/-- Its build returns if every resource contributes something on its own. -/
theorem returns_of_contributions {baseline : Entries} {backend : Backend}
    {owns : List (Fields Node × Fields Node)}
    (hbaseline : Baseline.ofManifest (w.store.tree manifest) = .ok (.map baseline))
    (hbackend : Backend.ofDocument (.map baseline) = .ok backend)
    (howns : contributions w manifest options backend generator = .ok owns) :
    ∃ d w', Returns (build manifest options generator) w d w' := by
  obtain ⟨declared, hdeclared, howns⟩ := result_bind_iff.mp howns
  obtain ⟨rs, d, w₁, hassembles⟩ := assembles_of_contributions hg rfl (hapart declared hdeclared)
    (newTo_start w.store declared baseline) howns
  exact ⟨d, _, build_iff.mpr
    ⟨rs, baseline, backend, declared, w₁, hbaseline, hbackend, hdeclared, hassembles, rfl⟩⟩

end

end Document
end ApiManifest
