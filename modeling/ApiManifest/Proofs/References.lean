import ApiManifest.Proofs.Silent

/-!
# References lead somewhere

Operations refer to definitions by key, and the two are generated apart from each other. Still no
reference dangles: what an operation of a resource refers to is among the definitions of the same
resource, definitions only ever get more, and merging path items brings no other references about.
-/

namespace ApiManifest.Document

open PathItem (referenceField)

variable {σ : Type}

/-- A field that refers to something refers to a definition with one of the keys. -/
def RefersTo (keys : List String) (name : String) (part : Node) : Prop :=
  name = referenceField → ∃ key ∈ keys, part = .text (Definition.address key)

/-- Every reference in the path items is to a definition that is there. -/
def Resolved (d : Document) : Prop :=
  Node.AllFields Node.isScalar (RefersTo d.definitions.names) d.paths

theorem RefersTo.mono {keys keys' : List String} (h : ∀ key ∈ keys, key ∈ keys') {name : String}
    {part : Node} (hr : RefersTo keys name part) : RefersTo keys' name part := by
  intro hname
  obtain ⟨key, hkey, hpart⟩ := hr hname
  exact ⟨key, h key hkey, hpart⟩

theorem RefersTo.overlay {keys : List String} {maps : Nat → Bool} (name : String)
    (target source : Node) (_ : RefersTo keys name target) (hs : RefersTo keys name source) :
    RefersTo keys name (Node.overlay maps target source) := by
  intro hname
  obtain ⟨key, hkey, rfl⟩ := hs hname
  exact ⟨key, hkey, by simp [Node.overlay]⟩

/-- **Preserved by every resource.** -/
theorem resolved_addResource {d d' : Document} {r : Resource} {options : Options}
    {backend : Backend} {generator : Option (Generator σ)} {w w' : World σ} (hd : d.Resolved)
    (h : Returns (addResource d r options backend generator) w d' w') : d'.Resolved := by
  obtain ⟨definitions, items, w₁, hdefs, hitems, rfl, _⟩ := addResource_cases h
  have hnames := Definition.names_ofResource hdefs
  have hmem : ∀ key, key ∈ d.definitions.names ∨ key ∈ definitions.names →
      key ∈ (Node.overlayFields w.store.isMapping d.definitions definitions).names :=
    fun key hkey => Node.mem_names_overlayFields.mpr hkey
  have hold : Node.AllFields Node.isScalar
      (RefersTo (Node.overlayFields w.store.isMapping d.definitions definitions).names) d.paths :=
    Node.AllFields.mono (fun _ hv => hv)
      (fun _ _ hr => hr.mono fun key hkey => hmem key (Or.inl hkey)) hd
  -- a request definition is referred to only where the resource has one
  have hnew : Node.AllFields Node.isScalar
      (RefersTo (Node.overlayFields w.store.isMapping d.definitions definitions).names) items := by
    refine (PathItem.items_all (fun name part hname heq => absurd heq hname) ?_ ?_ hitems).mono
      (fun _ => Node.isScalar_of_isWord) (fun _ _ h => h)
    · intro _
      exact ⟨_, hmem _ (Or.inr (by rw [hnames]; exact List.mem_cons_self)), rfl⟩
    · intro hro _
      refine ⟨_, hmem _ (Or.inr ?_), rfl⟩
      rw [hnames, hro]
      exact List.mem_cons_of_mem _ List.mem_cons_self
  exact Node.allFields_overlay RefersTo.overlay hold hnew

theorem resolved_of_assembles {options : Options} {backend : Backend}
    {generator : Option (Generator σ)} {models : List (Value × Value)} {d d' : Document}
    {w w' : World σ} {rs : List Resource} (hd : d.Resolved)
    (h : Assembles options backend generator models d w rs d' w') : d'.Resolved := by
  induction h with
  | done => exact hd
  | next _ hadd _ ih => exact ih (resolved_addResource hd hadd)

/-- The keys of the definitions in the tree of a document. -/
theorem mem_definitions_tree {st : Store} {fields : Fields Node} {key : String} :
    (∃ part, (Tree.text key, part) ∈ Node.entries st fields) ↔ key ∈ fields.names := by
  rw [Node.entries_eq_map]
  constructor
  · rintro ⟨part, hpart⟩
    obtain ⟨⟨name, x⟩, hmem, heq⟩ := List.mem_map.mp hpart
    cases heq
    exact List.mem_map_of_mem hmem
  · intro hkey
    obtain ⟨⟨name, x⟩, hmem, rfl⟩ := List.mem_map.mp hkey
    exact ⟨_, List.mem_map_of_mem hmem⟩

/--
**No reference dangles.**

Whenever the build of a document returns, each value at a key `$ref` anywhere in its paths is the
address of a key that its definitions have.
-/
theorem references_resolve {manifest : Value} {options : Options}
    {generator : Option (Generator σ)} {w w' : World σ} {d : Document}
    (h : Returns (build manifest options generator) w d w') :
    ∃ paths definitions, (d.tree w'.store).at? "paths" = some paths ∧
      (d.tree w'.store).at? "definitions" = some (.map definitions) ∧
      ∀ es v, Tree.Occurs (.map es) paths → (.text "$ref", v) ∈ es →
        ∃ key part, v = .text ("#/definitions/" ++ key) ∧ (.text key, part) ∈ definitions := by
  refine ⟨_, _, tree_paths _ d, tree_definitions _ d, ?_⟩
  obtain ⟨rs, baseline, backend, declared, w₁, _, _, _, hassembles, _⟩ := build_iff.mp h
  have hd : d.Resolved := resolved_of_assembles (d := { baseline }) trivial hassembles
  intro es v hoccurs hmem
  -- what holds of all fields of the paths shows in every mapping of their tree
  have hwhole : Node.tree w'.store (.map d.paths) = .map (Node.entries w'.store d.paths) := by
    rw [Node.tree]
  obtain ⟨name, x, heq, hfield⟩ := Node.field_of_occurs hoccurs hwhole hd _ hmem
  cases heq
  obtain ⟨key, hkey, rfl⟩ := hfield rfl
  obtain ⟨part, hpart⟩ := mem_definitions_tree.mpr hkey
  exact ⟨key, part, Node.tree_scalar _ _, hpart⟩

/-- Two resources with one definition key and one path; the second one only lists, and asks for an
operation that there is not. -/
def sharingManifest : Tree := .map [(.text "models", .map [
  (.text "x-y", .map [(.text "path", .text "/x/\x7bid:uuid\x7d")]),
  (.text "x_y", .map [(.text "path", .text "x/\x7bid\x7d/"),
    (.text "methods", .list [.text "zap", .text "list"])])])]

/-- The references of two resources that share their definitions and their paths. -/
theorem references_resolve_sharing : ∃ (d : Document) (w' : World Unit),
    Returns (build (Store.empty.insert sharingManifest).2 { apiGateway := true } none)
      { store := (Store.empty.insert sharingManifest).1, examples := () } d w' ∧
    (d.definitions.names == ["XYResponse", "XYModify"]
      && d.paths.names == ["/x", "/x/\x7bid\x7d"]) = true ∧
    ∃ paths definitions, (d.tree w'.store).at? "paths" = some paths ∧
      (d.tree w'.store).at? "definitions" = some (.map definitions) ∧
      ∀ es v, Tree.Occurs (.map es) paths → (.text "$ref", v) ∈ es →
        ∃ key part, v = .text ("#/definitions/" ++ key) ∧ (.text key, part) ∈ definitions := by
  have hreturns : (outcome (build (Store.empty.insert sharingManifest).2 { apiGateway := true }
      (none : Option (Generator Unit)))
      { store := (Store.empty.insert sharingManifest).1, examples := () }).1.toOption.any
      (fun d => d.definitions.names == ["XYResponse", "XYModify"]
        && d.paths.names == ["/x", "/x/\x7bid\x7d"]) = true := by
    rw [outcome_build_of_silent (by decide +kernel)]
    decide +kernel
  obtain ⟨d, w', h, hcheck⟩ := Returns.of_check hreturns
  exact ⟨d, w', h, hcheck, references_resolve h⟩

end ApiManifest.Document
