import ApiManifest.Proofs.Assembly

/-!
# What kind of part stands where

The definitions and the path items of a document have one form throughout: it is settled by the
names that lead to a place whether a leaf, a list or a mapping stands there. All resources keep to
it, and so does what is merged from them. So a mapping that is generated meets another such mapping
or nothing at all, and never an object of the manifest that stands as a leaf.
-/

namespace ApiManifest

/-! ## Patterns -/

/-- Which kind of part stands where: a leaf, a list, or a mapping with such a pattern at every
name that it may have. -/
inductive Pattern where
  | leaf
  | list
  | map (field : String → Pattern)

/-- A mapping whose fields are leaves. -/
def Pattern.leaves : Pattern := .map fun _ => .leaf

namespace Node

mutual

/-- At every place of the part stands what the pattern has there. -/
def Follows : Node → Pattern → Prop
  | .leaf _, .leaf => True
  | .list _, .list => True
  | .map fields, .map field => FollowsFields fields field
  | _, _ => False

/-- Every field follows the pattern that there is for its name. -/
def FollowsFields : List (String × Node) → (String → Pattern) → Prop
  | [], _ => True
  | (name, part) :: rest, field => Follows part (field name) ∧ FollowsFields rest field

end

variable {field : String → Pattern}

theorem followsFields_iff {fields : List (String × Node)} :
    FollowsFields fields field ↔ ∀ entry ∈ fields, Follows entry.2 (field entry.1) := by
  induction fields with
  | nil => simp [FollowsFields]
  | cons entry rest ih => simp [FollowsFields, ih]

theorem follows_map_iff {fields : List (String × Node)} {pattern : Pattern} :
    Follows (.map fields) pattern ↔ ∃ field, pattern = .map field ∧ FollowsFields fields field := by
  cases pattern <;> simp [Follows]

theorem follows_get? {name : String} {part : Node} {fields : Fields Node}
    (h : FollowsFields fields field) (hget : Fields.get? name fields = some part) :
    Follows part (field name) :=
  followsFields_iff.mp h _ (Fields.mem_of_get? hget)

theorem followsFields_put {name : String} {part : Node} {fields : Fields Node}
    (h : FollowsFields fields field) (hp : Follows part (field name)) :
    FollowsFields (Fields.put name part fields) field := by
  rw [followsFields_iff] at h ⊢
  intro entry hentry
  rcases Fields.mem_put hentry with rfl | hold
  · exact hp
  · exact h entry hold

theorem followsFields_map {α : Type} {l : List α} {f : α → String × Node}
    (h : ∀ a ∈ l, Follows (f a).2 (field (f a).1)) : FollowsFields (l.map f) field := by
  rw [followsFields_iff]
  intro entry hentry
  obtain ⟨a, ha, rfl⟩ := List.mem_map.mp hentry
  exact h a ha

theorem followsFields_append {fields more : List (String × Node)}
    (h : FollowsFields fields field) (hmore : FollowsFields more field) :
    FollowsFields (fields ++ more) field := by
  rw [followsFields_iff] at h hmore ⊢
  intro entry hentry
  rcases List.mem_append.mp hentry with hentry | hentry
  · exact h entry hentry
  · exact hmore entry hentry

theorem followsFields_optional {name : String} {part : Option Node}
    (h : ∀ x, part = some x → Follows x (field name)) :
    FollowsFields (Definition.optional name part) field := by
  cases part with
  | none => trivial
  | some x => exact ⟨h x rfl, trivial⟩

/-! ## Merging -/

mutual

/-- What is merged from two parts of one pattern follows it too. -/
theorem follows_overlay {maps : Nat → Bool} : ∀ {pattern : Pattern} {target source : Node},
    Follows target pattern → Follows source pattern →
      Follows (overlay maps target source) pattern
  | .map field, .map fields, .map source, ht, hs => followsFields_overlay ht hs
  | .leaf, target, source, ht, hs => match target, source, pairing target source with
    | _, _, .mappings _ _ => False.elim hs
    | _, _, .objects old new => by
        rw [overlay]
        split
        · exact ht
        · exact hs
    | _, _, .replaced hneither => by
        rw [overlay_of_not_blends hneither]
        exact hs
  | .list, .list items, .list more, _, _ => by
      rw [overlay_of_not_blends (not_blends_list (.list items) more)]
      trivial

theorem followsFields_overlay {maps : Nat → Bool} :
    ∀ {field : String → Pattern} {target : Fields Node} {source : List (String × Node)},
      FollowsFields target field → FollowsFields source field →
        FollowsFields (overlayFields maps target source) field
  | field, target, [], ht, _ => by
      rw [overlayFields]
      exact ht
  | field, target, (name, part) :: rest, ht, hs => by
      rw [overlayFields]
      cases hget : Fields.get? name target with
      | none => exact followsFields_overlay (followsFields_put ht hs.1) hs.2
      | some existing =>
          exact followsFields_overlay
            (followsFields_put ht (follows_overlay (follows_get? ht hget) hs.1)) hs.2

end

mutual

/-- Wherever the two parts have a place in common, two leaves meet there, or two lists, or two
mappings that were generated. -/
def Matches (target : Node) : (source : Node) → Prop
  | .leaf _ => ∃ v, target = .leaf v
  | .list _ => ∃ items, target = .list items
  | .map source => ∃ fields, target = .map fields ∧ MatchesFields fields source

/-- The fields that have a name in common match. -/
def MatchesFields (target : Fields Node) : (source : List (String × Node)) → Prop
  | [] => True
  | (name, part) :: rest =>
    (∀ existing, Fields.get? name target = some existing → Matches existing part) ∧
      MatchesFields target rest

end

mutual

/-- Parts of one pattern match. -/
theorem matches_of_follows : ∀ {pattern : Pattern} {target source : Node},
    Follows target pattern → Follows source pattern → Matches target source
  | .leaf, .leaf v, .leaf _, _, _ => ⟨v, rfl⟩
  | .list, .list items, .list _, _, _ => ⟨items, rfl⟩
  | .map _, .map fields, .map _, ht, hs => ⟨fields, rfl, matchesFields_of_follows ht hs⟩

theorem matchesFields_of_follows :
    ∀ {field : String → Pattern} {target : Fields Node} {source : List (String × Node)},
      FollowsFields target field → FollowsFields source field → MatchesFields target source
  | _, _, [], _, _ => trivial
  | _, _, (_, _) :: _, ht, hs =>
      ⟨fun _ hget => matches_of_follows (follows_get? ht hget) hs.1,
        matchesFields_of_follows ht hs.2⟩

end

end Node

/-! ## Definitions -/

variable {σ : Type}

namespace Definition

/-- The pattern of the definition of a resource's answers, or of its requests. -/
def pattern : Pattern := .map fun name =>
  if name = "properties" then .map fun _ => .leaves
  else if name = "required" then .list
  else .leaf

theorem follows_schemaWith (st : Store) (resource name : String) (property : Property)
    (options : Options) {example? : Option Node} (h : ∀ part, example? = some part →
      part.Follows .leaf) :
    (schemaWith st resource name property options example?).Follows .leaves := by
  obtain ⟨fields, heq, hfields⟩ := schemaWith_fields st resource name property options example?
  rw [heq]
  refine Node.followsFields_iff.mpr fun entry hentry => ?_
  rcases hfields entry hentry with rfl | rfl | ⟨part, hpart, rfl⟩ | ⟨_, rfl⟩
  · trivial
  · unfold descriptionOf
    split
    · trivial
    · trivial
  · exact h part hpart
  · trivial

theorem follows_shownExample {property : Property} {options : Options}
    {generator : Option (Generator σ)} {example? : Option Node} {w w' : World σ}
    (h : Returns (shownExample property options generator) w example? w') :
    ∀ part, example? = some part → part.Follows .leaf := by
  intro part hpart
  unfold shownExample at h
  split at h
  · obtain ⟨v, rfl, _⟩ := exampleOf_cases h
    split at hpart
    · cases hpart
    · cases hpart
      trivial
  · obtain ⟨rfl, _⟩ := Returns.pure_iff.mp h
    cases hpart

theorem follows_schemas {resource : String} {options : Options}
    {generator : Option (Generator σ)} {properties : Fields Property} {parts : Fields Node}
    {w w' : World σ} (h : Returns (schemas resource options generator properties) w parts w') :
    Node.FollowsFields parts fun _ => .leaves := by
  induction properties generalizing parts w with
  | nil =>
      obtain ⟨rfl, _⟩ := Returns.pure_iff.mp h
      trivial
  | cons entry rest ih =>
      rcases entry with ⟨name, property⟩
      obtain ⟨_, _, _, _, _, hexample, _, hrest, rfl⟩ := schemas_cons h
      exact ⟨follows_schemaWith _ _ _ _ _ (follows_shownExample hexample), ih hrest⟩

theorem follows_build {resource : String} {declared : Value} {options : Options}
    {generator : Option (Generator σ)} {part : Node} {w w' : World σ}
    (h : Returns (build resource declared options generator) w part w') :
    part.Follows pattern := by
  obtain ⟨properties, parts, _, hparts, rfl⟩ := build_cases h
  exact ⟨trivial, trivial, follows_schemas hparts, trivial⟩

theorem follows_ofResource {r : Resource} {options : Options} {generator : Option (Generator σ)}
    {definitions : Fields Node} {w w' : World σ}
    (h : Returns (ofResource r options generator) w definitions w') :
    Node.FollowsFields definitions fun _ => pattern := by
  obtain ⟨response, _, hresponse, ⟨_, rfl, _⟩ | ⟨modify, _, hmodify, rfl⟩⟩ := ofResource_cases h
  · exact ⟨follows_build hresponse, trivial⟩
  · exact ⟨follows_build hresponse, follows_build hmodify, trivial⟩

end Definition

/-! ## Path items -/

namespace PathItem

/-- The pattern of what is answered under a status. -/
def answerPattern : Pattern := .map fun name =>
  if name = "schema" then .map fun name => if name = "items" then .leaves else .leaf
  else .leaf

/-- The pattern of a gateway integration. -/
def integrationPattern : Pattern := .map fun name =>
  if name = "requestParameters" ∨ name = "requestTemplates" then .leaves
  else if name = "responses" then .map fun _ => .leaves
  else .leaf

/-- The pattern of an operation. -/
def operationPattern : Pattern := .map fun name =>
  if name = "parameters" then .list
  else if name = "responses" then .map fun _ => answerPattern
  else if name = gatewayField then integrationPattern
  else .leaf

/-- The pattern of what stands at a path. -/
def pattern : Pattern := .map fun name =>
  if name = tagField then .leaf else operationPattern

theorem follows_integration {r : Resource} {op : Operation} {backend : Backend} {part : Node}
    (h : integration r op backend = .ok part) : part.Follows integrationPattern := by
  obtain ⟨uri, rfl⟩ := integration_eq h
  simp only [Node.Follows, Node.FollowsFields, integrationPattern, Pattern.leaves,
    String.reduceEq, or_self, or_false, or_true, ↓reduceIte, and_self, and_true, true_and]
  -- what is left are the parameters, one for each name in the path
  exact Node.followsFields_map fun _ _ => trivial

theorem follows_answerSchema (r : Resource) (op : Operation) :
    (answerSchema r op).Follows (.map fun name => if name = "items" then .leaves else .leaf) := by
  unfold answerSchema
  dsimp only
  split
  · exact ⟨trivial, ⟨trivial, trivial⟩, trivial⟩
  · exact ⟨trivial, trivial⟩

theorem follows_operation {r : Resource} {op : Operation} {options : Options}
    {backend : Option Backend} {part : Node} (h : operation r op options backend = .ok part) :
    part.Follows operationPattern := by
  obtain ⟨gateway, hgateway, rfl⟩ := operation_eq h
  have hschema := follows_answerSchema r op
  refine Node.follows_map_iff.mpr ⟨_, rfl, Node.followsFields_append ?_
    (Node.followsFields_optional fun part hpart => ?_)⟩
  · simp [Node.FollowsFields, Node.Follows, gatewayField, answerPattern, hschema]
  · rcases integration?_cases hgateway with ⟨_, rfl⟩ | ⟨_, _, _, _, hpart', rfl⟩
    · cases hpart
    · cases hpart
      simpa [gatewayField] using follows_integration hpart'

theorem follows_putOperation {path : String} {verb : Verb} {part : Node} {paths : Fields Node}
    (hpart : part.Follows operationPattern) (hpaths : Node.FollowsFields paths fun _ => pattern) :
    Node.FollowsFields (putOperation path verb part paths) fun _ => pattern := by
  unfold putOperation
  split
  · rename_i fields hget
    have hitem : Node.FollowsFields fields fun name =>
        if name = tagField then .leaf else operationPattern := Node.follows_get? hpaths hget
    -- no verb is the name of the tag
    have hverb : verb.key ≠ tagField := by cases verb <;> decide
    refine Node.followsFields_put hpaths (Node.followsFields_put hitem ?_)
    rw [if_neg hverb]
    exact hpart
  · exact hpaths

theorem follows_items {r : Resource} {options : Options} {backend : Option Backend}
    {paths : Fields Node} (h : items r options backend = .ok paths) :
    Node.FollowsFields paths fun _ => pattern := by
  refine items_induction (P := fun paths => Node.FollowsFields paths fun _ => pattern) ?_ ?_ h
  · rw [Node.followsFields_iff]
    intro entry hentry
    rw [(mem_roots hentry).2]
    exact ⟨trivial, trivial⟩
  · intro op _ part paths hpart hpaths
    exact follows_putOperation (follows_operation hpart) hpaths

end PathItem

/-! ## Documents -/

namespace Document

/-- The definitions and the path items of the document follow their patterns. -/
structure Follows (d : Document) : Prop where
  definitions : Node.FollowsFields d.definitions fun _ => Definition.pattern
  paths : Node.FollowsFields d.paths fun _ => PathItem.pattern

theorem Follows.addResource {d d' : Document} {r : Resource} {options : Options}
    {backend : Backend} {generator : Option (Generator σ)} {w w' : World σ} (hd : d.Follows)
    (h : Returns (addResource d r options backend generator) w d' w') : d'.Follows := by
  obtain ⟨_, _, _, hdefinitions, hitems, rfl, _⟩ := addResource_cases h
  exact ⟨Node.followsFields_overlay hd.definitions (Definition.follows_ofResource hdefinitions),
    Node.followsFields_overlay hd.paths (PathItem.follows_items hitems)⟩

/-- When a build goes through the declarations and comes to one of them, the fields `source` that
it contributes meet the fields `target` that the document has then, and are merged into them. The
build may fail after that. -/
inductive Meets (options : Options) (backend : Backend) (generator : Option (Generator σ)) :
    List (Value × Value) → Document → World σ → (target source : Fields Node) → Prop where
  | definitions {name decl : Value} {rest : List (Value × Value)} {d : Document} {w w' : World σ}
      {r : Resource} {definitions : Fields Node} :
      resourceOf w.store name decl = .ok r →
      Returns (Definition.ofResource r options generator)
        { w with log := w.log ++ generating w.store name } definitions w' →
      Meets options backend generator ((name, decl) :: rest) d w d.definitions definitions
  | paths {name decl : Value} {rest : List (Value × Value)} {d : Document} {w : World σ}
      {r : Resource} {items : Fields Node} :
      resourceOf w.store name decl = .ok r →
      PathItem.items r options (some backend) = .ok items →
      Meets options backend generator ((name, decl) :: rest) d w d.paths items
  | later {name decl : Value} {rest : List (Value × Value)} {d d' : Document} {w w' : World σ}
      {r : Resource} {target source : Fields Node} :
      resourceOf w.store name decl = .ok r →
      Returns (addResource d r options backend generator)
        { w with log := w.log ++ generating w.store name } d' w' →
      Meets options backend generator rest d' w' target source →
      Meets options backend generator ((name, decl) :: rest) d w target source

/-- What a build merges follows one pattern on both sides. -/
theorem Follows.of_meets {options : Options} {backend : Backend}
    {generator : Option (Generator σ)} {models : List (Value × Value)} {d : Document}
    {w : World σ} {target source : Fields Node} (hd : d.Follows)
    (h : Meets options backend generator models d w target source) :
    ∃ field, Node.FollowsFields target field ∧ Node.FollowsFields source field := by
  induction h with
  | definitions _ hdefinitions =>
      exact ⟨_, hd.definitions, Definition.follows_ofResource hdefinitions⟩
  | paths _ hitems => exact ⟨_, hd.paths, PathItem.follows_items hitems⟩
  | later _ hadd _ ih => exact ih (hd.addResource hadd)

/-- In the build of a document the fields `source` are merged into the fields `target`. -/
def MeetsInBuild (manifest : Value) (options : Options) (generator : Option (Generator σ))
    (w : World σ) (target source : Fields Node) : Prop :=
  ∃ baseline backend declared, Baseline.ofManifest (w.store.tree manifest) = .ok (.map baseline) ∧
    Backend.ofDocument (.map baseline) = .ok backend ∧
    declarations w.store manifest = .ok declared ∧
    Meets options backend generator declared { baseline } w target source

theorem follows_of_meetsInBuild {manifest : Value} {options : Options}
    {generator : Option (Generator σ)} {w : World σ} {target source : Fields Node}
    (h : MeetsInBuild manifest options generator w target source) :
    ∃ field, Node.FollowsFields target field ∧ Node.FollowsFields source field := by
  obtain ⟨baseline, _, _, _, _, _, h⟩ := h
  have hnew : Follows { baseline } := ⟨trivial, trivial⟩
  exact hnew.of_meets h

/-- **No generated mapping ever meets an object.** Whatever a build merges, leaves meet leaves,
lists meet lists, and the mappings of definitions and path items meet such mappings. -/
theorem matches_of_meetsInBuild {manifest : Value} {options : Options}
    {generator : Option (Generator σ)} {w : World σ} {target source : Fields Node}
    (h : MeetsInBuild manifest options generator w target source) :
    Node.MatchesFields target source := by
  obtain ⟨field, ht, hs⟩ := follows_of_meetsInBuild h
  exact Node.matchesFields_of_follows ht hs

end Document
end ApiManifest
