import ApiManifest.Proofs.Offers
import ApiManifest.Proofs.Untouched

/-!
# The last declared resource

Operations of several resources that come to one path and one verb are merged entry by entry and at
every depth. All the same nothing of the earlier ones is left: two operations at one path have the
same names at every level, so the later one hides the other. The names of what a gateway forwards
are the placeholders of the path, and the schemas of the answers have the same form unless one
operation lists and the other one reads. What stands in the document is then what the last resource
offers there, to the letter.
-/

namespace ApiManifest

open PathTemplate (Named placeholderNames nodup_placeholderNames)

variable {σ : Type}

theorem Node.distinctFields_iff {fields : List (String × Node)} :
    DistinctFields fields ↔ ∀ entry ∈ fields, Distinct entry.2 := by
  induction fields with
  | nil => simp [DistinctFields]
  | cons entry rest ih =>
      rcases entry with ⟨name, part⟩
      rw [DistinctFields, ih, List.forall_mem_cons]

namespace PathItem

/-! ## The shape of an operation -/

section

variable {r r' : Resource} {op op' : Operation} {options : Options} {part part' : Node}

theorem shape_answerSchema (hlisting : op.isListing = op'.isListing) :
    Node.shape (answerSchema r op) = Node.shape (answerSchema r' op') := by
  unfold answerSchema
  rw [hlisting]
  split <;> simp only [Definition.reference, Node.shape, Node.shapeFields]

theorem distinct_answerSchema : (answerSchema r op).Distinct := by
  unfold answerSchema
  split <;> simp [Definition.reference, Node.Distinct, Node.DistinctFields, Fields.names]

/-- Gateway integrations at one path have one shape, as they forward the placeholders of the
path. -/
theorem shape_integration {backend : Backend} (h : Named r.path) (h' : Named r'.path)
    (hpath : pathOf r op = pathOf r' op') (hpart : integration r op backend = .ok part)
    (hpart' : integration r' op' backend = .ok part') : part.shape = part'.shape := by
  obtain ⟨uri, rfl⟩ := integration_eq hpart
  obtain ⟨uri', rfl⟩ := integration_eq hpart'
  rw [forwarded_params h, forwarded_params h', hpath]
  simp only [Node.shape, Node.shapeFields]

theorem distinct_forwarded {names : List String} (h : names.Nodup) :
    Node.Distinct (.map (forwarded names)) := by
  rw [Node.Distinct, Node.distinctFields_iff]
  refine ⟨nodup_names_forwarded h, fun entry hentry => ?_⟩
  obtain ⟨name, _, rfl⟩ := List.mem_map.mp hentry
  simp [Node.Distinct]

theorem distinct_integration {backend : Backend} (h : Named r.path)
    (hpart : integration r op backend = .ok part) : part.Distinct := by
  obtain ⟨uri, rfl⟩ := integration_eq hpart
  rw [forwarded_params h]
  have hforwarded := distinct_forwarded (nodup_placeholderNames (pathOf r op))
  simp [Node.Distinct, Node.DistinctFields, Fields.names] at hforwarded ⊢
  exact hforwarded

/-- **Operations at one path have one shape**, unless one of them lists and the other one does
not. -/
theorem shape_operation {backend : Option Backend} (h : Named r.path) (h' : Named r'.path)
    (hpath : pathOf r op = pathOf r' op') (hlisting : op.isListing = op'.isListing)
    (hpart : operation r op options backend = .ok part)
    (hpart' : operation r' op' options backend = .ok part') : part.shape = part'.shape := by
  obtain ⟨gateway, hgateway, rfl⟩ := operation_eq hpart
  obtain ⟨gateway', hgateway', rfl⟩ := operation_eq hpart'
  have hanswer := @shape_answerSchema r r' op op' hlisting
  -- either both operations have a gateway integration or neither has
  rcases integration?_cases hgateway with ⟨hoff, rfl⟩ | ⟨b, block, hon, hb, hblock, rfl⟩
  · rcases integration?_cases hgateway' with ⟨_, rfl⟩ | ⟨_, _, hon, _⟩
    · simp [Node.shape, Node.shapeFields, Definition.optional, hanswer]
    · rw [hoff] at hon
      cases hon
  · rcases integration?_cases hgateway' with ⟨hoff, _⟩ | ⟨b', block', _, hb', hblock', rfl⟩
    · rw [hon] at hoff
      cases hoff
    · obtain rfl : b = b' := Option.some.inj (hb.symm.trans hb')
      have hintegration := shape_integration h h' hpath hblock hblock'
      simp [Node.shape, Node.shapeFields, Definition.optional, hanswer, hintegration]

theorem distinct_operation {backend : Option Backend} (h : Named r.path)
    (hpart : operation r op options backend = .ok part) : part.Distinct := by
  obtain ⟨gateway, hgateway, rfl⟩ := operation_eq hpart
  have hanswer := @distinct_answerSchema r op
  rcases integration?_cases hgateway with ⟨_, rfl⟩ | ⟨b, block, _, _, hblock, rfl⟩
  · simp [Node.Distinct, Node.DistinctFields, Fields.names, Definition.optional, hanswer]
  · have hintegration := distinct_integration h hblock
    simp [Node.Distinct, Node.DistinctFields, Fields.names, Definition.optional, hanswer,
      hintegration, gatewayField]

end

/-! ## Operations of several resources -/

/-- No path is got both as the list of one resource and as an item of another one. -/
def OneKindOfGet (rs : List Resource) : Prop :=
  ∀ r ∈ rs, ∀ r' ∈ rs, .list ∈ r.operations → .read ∈ r'.operations →
    pathOf r .list ≠ pathOf r' .read

instance (rs : List Resource) : Decidable (OneKindOfGet rs) :=
  inferInstanceAs (Decidable (∀ r ∈ rs, ∀ r' ∈ rs, .list ∈ r.operations → .read ∈ r'.operations →
    pathOf r .list ≠ pathOf r' .read))

/-- Then operations at one path under one verb answer in the same form. -/
theorem OneKindOfGet.isListing_eq {rs : List Resource} (h : OneKindOfGet rs) {r r' : Resource}
    (hr : r ∈ rs) (hr' : r' ∈ rs) {op op' : Operation} (hop : op ∈ r.operations)
    (hop' : op' ∈ r'.operations) (hpath : pathOf r op = pathOf r' op')
    (hverb : op.verb = op'.verb) : op.isListing = op'.isListing := by
  cases op with
  | list =>
      cases op' with
      | list => rfl
      | read => exact absurd hpath (h r hr r' hr' hop hop')
      | create | update | delete => cases hverb
  | read =>
      cases op' with
      | list => exact absurd hpath.symm (h r' hr' r hr hop' hop)
      | read => rfl
      | create | update | delete => cases hverb
  | create | update | delete => cases op' <;> first | rfl | cases hverb

/-- The last one of some resources to offer an operation at a path under a verb, and that
operation. -/
def LastOffers (rs : List Resource) (path : String) (verb : Verb) (r : Resource)
    (op : Operation) : Prop :=
  ∃ before after, rs = before ++ r :: after ∧
    (op ∈ r.operations ∧ pathOf r op = path ∧ op.verb = verb) ∧
    ∀ r' ∈ after, ∀ op' ∈ r'.operations, ¬ (pathOf r' op' = path ∧ op'.verb = verb)

theorem LastOffers.mem {rs : List Resource} {path : String} {verb : Verb} {r : Resource}
    {op : Operation} (h : LastOffers rs path verb r op) : r ∈ rs ∧ op ∈ r.operations := by
  obtain ⟨before, after, rfl, ⟨hop, _⟩, _⟩ := h
  exact ⟨by simp, hop⟩

section

variable {r : Resource} {options : Options} {backend : Backend} {paths : Fields Node}
  (h : items r options (some backend) = .ok paths) {path : String} {verb : Verb}

include h

/-- What a resource shows at a path under a verb. -/
theorem shownAt_verb {part : Node} : shownAt options backend [path, verb.key] r = some part ↔
    ∃ op, operationAt r path verb = some op ∧ operation r op options (some backend) = .ok part := by
  rw [shownAt_eq h, at?_items_verb h, Option.bind_eq_some_iff]
  refine exists_congr fun op => and_congr_right fun _ => ?_
  cases operation r op options (some backend) <;> simp [Except.toOption]

/-- A resource that shows nothing there offers nothing there. -/
theorem not_offered_of_shownAt (hnone : shownAt options backend [path, verb.key] r = none) :
    ∀ op ∈ r.operations, ¬ (pathOf r op = path ∧ op.verb = verb) := by
  refine operationAt_eq_none_iff.mp ?_
  cases hop : operationAt r path verb with
  | none => rfl
  | some op =>
      obtain ⟨part, hpart⟩ := operation_of_items h (operationAt_cases hop).1
      have hseen := (shownAt_verb h).mpr ⟨op, hop, hpart⟩
      rw [hnone] at hseen
      cases hseen

end

/-- **What a resource shows hides what an earlier one does**, at a path under a verb. -/
theorem cover_shownAt {rs : List Resource} {options : Options} {backend : Backend}
    (hnamed : ∀ r ∈ rs, Named r.path) (hkinds : OneKindOfGet rs)
    (hitems : ∀ r ∈ rs, ∃ paths, items r options (some backend) = .ok paths) {path : String}
    {verb : Verb} {r r' : Resource} (hr : r ∈ rs) (hr' : r' ∈ rs) {lower upper : Node}
    (hlower : shownAt options backend [path, verb.key] r = some lower)
    (hupper : shownAt options backend [path, verb.key] r' = some upper) :
    Node.cover lower upper = upper := by
  obtain ⟨paths, hok⟩ := hitems r hr
  obtain ⟨paths', hok'⟩ := hitems r' hr'
  obtain ⟨op, hop, hlower⟩ := (shownAt_verb hok).mp hlower
  obtain ⟨op', hop', hupper⟩ := (shownAt_verb hok').mp hupper
  obtain ⟨hmem, hat, hverb⟩ := operationAt_cases hop
  obtain ⟨hmem', hat', hverb'⟩ := operationAt_cases hop'
  have hpath : pathOf r op = pathOf r' op' := hat.trans hat'.symm
  have hlisting := hkinds.isListing_eq hr hr' hmem hmem' hpath (hverb.trans hverb'.symm)
  have hshape := shape_operation (hnamed r hr) (hnamed r' hr') hpath hlisting hlower hupper
  exact Node.cover_of_shape hshape (distinct_operation (hnamed r' hr') hupper)

end PathItem

namespace Document

open PathItem (OneKindOfGet LastOffers operation operationAt)

/-- **What stands under a verb** is what the last resource offers there. -/
theorem operation_of_assembles {options : Options} {backend : Backend}
    {generator : Option (Generator σ)} {models : List (Value × Value)} {baseline : Entries}
    {d' : Document} {w w' : World σ} {rs : List Resource}
    (h : Assembles options backend generator models { baseline } w rs d' w')
    (hnamed : ∀ r ∈ rs, Named r.path) (hkinds : OneKindOfGet rs) {path : String} {verb : Verb}
    {item part : Node} (hitem : Fields.get? path d'.paths = some item)
    (hpart : item.get? verb.key = some part) :
    ∃ r op, LastOffers rs path verb r op ∧ operation r op options (some backend) = .ok part := by
  have hitems := items_of_assembles h
  have hrecords : ∀ r ∈ rs, RecordsAt options backend [path, verb.key] r :=
    fun r _ items hok => PathItem.recordsAlong_items hok path verb.key
  have hplace : Node.at? [path, verb.key] (.map d'.paths) = some part := by
    rw [Node.at?_pair, hitem, Option.bind_some, hpart]
  obtain ⟨before, r, after, rfl, hshown, hlast⟩ := last_shown hrecords h
    (fun _ hr _ hr' _ _ => PathItem.cover_shownAt hnamed hkinds hitems hr hr') hplace
  obtain ⟨items, hok⟩ := hitems r (by simp)
  obtain ⟨op, hop, hoperation⟩ := (PathItem.shownAt_verb hok).mp hshown
  refine ⟨r, op, ⟨before, after, rfl, PathItem.operationAt_cases hop, fun r' hr' => ?_⟩,
    hoperation⟩
  obtain ⟨items', hok'⟩ := hitems r' (by simp [hr'])
  exact PathItem.not_offered_of_shownAt hok' (hlast r' hr')

/--
**The last declared resource wins.**

Whenever the build of a document returns, the placeholders of the templates that it has read have
names and no path is got both as a list and as an item, what stands under a verb in a path item is
the operation of the last resource that offers one there, with the backend of the baseline, and
nothing of an earlier one.
-/
theorem operation_of_last_resource {manifest : Value} {options : Options}
    {generator : Option (Generator σ)} {w w' : World σ} {rs : List Resource} {d : Document}
    (h : Builds manifest options generator w rs d w') (hnamed : ∀ r ∈ rs, Named r.path)
    (hkinds : OneKindOfGet rs) {path : String} {verb : Verb} {item part : Node}
    (hitem : Fields.get? path d.paths = some item) (hpart : item.get? verb.key = some part) :
    ∃ baseline backend r op, Baseline.ofManifest (w.store.tree manifest) = .ok baseline ∧
      Backend.ofDocument baseline = .ok backend ∧ LastOffers rs path verb r op ∧
      operation r op options (some backend) = .ok part := by
  obtain ⟨baseline, backend, _, _, hbaseline, hbackend, _, hassembles, _⟩ := h
  obtain ⟨r, op, hlast, hoperation⟩ :=
    operation_of_assembles hassembles hnamed hkinds hitem hpart
  exact ⟨.map baseline, backend, r, op, hbaseline, hbackend, hlast, hoperation⟩

/-- Devices, and gadgets at the path of the devices with another type for the placeholder. -/
def devicesAndGadgets : Tree := .map [(.text "models", .map [
  (.text "device", .map [(.text "path", .text "/devices/\x7bid:uuid\x7d"),
    (.text "methods", .list [.text "list", .text "update"])]),
  (.text "gadget", .map [(.text "path", .text "/devices/\x7bid\x7d/"),
    (.text "methods", .list [.text "read", .text "update"])])])]

/-- The operation that replaces a gadget at the path of the devices. -/
theorem operation_of_last_resource_gadgets : ∃ (rs : List Resource) (d : Document)
    (w' : World Unit) (item part : Node),
    Builds (Store.empty.insert devicesAndGadgets).2 { apiGateway := true }
      (none : Option (Generator Unit))
      { store := (Store.empty.insert devicesAndGadgets).1, examples := () } rs d w' ∧
    (∀ r ∈ rs, Named r.path) ∧ OneKindOfGet rs ∧
    Fields.get? "/devices/\x7bid\x7d" d.paths = some item ∧
    item.get? (Verb.key .put) = some part ∧
    ∃ baseline backend r op,
      Baseline.ofManifest ((Store.empty.insert devicesAndGadgets).1.tree
        (Store.empty.insert devicesAndGadgets).2) = .ok baseline ∧
      Backend.ofDocument baseline = .ok backend ∧
      LastOffers rs "/devices/\x7bid\x7d" .put r op ∧
      operation r op { apiGateway := true } (some backend) = .ok part := by
  have hreturns : (outcome (build (Store.empty.insert devicesAndGadgets).2 { apiGateway := true }
      (none : Option (Generator Unit)))
      { store := (Store.empty.insert devicesAndGadgets).1, examples := () }).1.toOption.any
      (fun d => ((Fields.get? "/devices/\x7bid\x7d" d.paths).bind
        (Node.get? (Verb.key .put))).isSome) = true := by
    rw [outcome_build_of_silent (by decide +kernel)]
    decide +kernel
  obtain ⟨d, w', h, hcheck⟩ := Returns.of_check hreturns
  obtain ⟨rs, hbuilds⟩ := build_iff.mp h
  obtain ⟨part, hpart⟩ := Option.isSome_iff_exists.mp hcheck
  obtain ⟨item, hitem, hpart⟩ := Option.bind_eq_some_iff.mp hpart
  have hread := check_of_builds
    (fun rs => decide ((∀ r ∈ rs, Named r.path) ∧ OneKindOfGet rs))
    (by decide +kernel) (by decide +kernel) hbuilds
  obtain ⟨hnamed, hkinds⟩ := of_decide_eq_true hread
  exact ⟨rs, d, w', item, part, hbuilds, hnamed, hkinds, hitem, hpart,
    operation_of_last_resource hbuilds hnamed hkinds hitem hpart⟩

/-- A manifest in which the last resource is also the example of a property of the first one. The
second one has an example for the same property, which gives its placeholder another type. -/
def retypedStore : Store where
  cells := (aliasedStore.cells.setIfInBounds 1
    (.map [(.text "path", .text "/z/\x7bq:string\x7d"), (.text "methods", .ref 0)])).setIfInBounds 6
    (.map [(.text "path", .text "/z/\x7bq:integer\x7d")])

/-- The first one of some parameters has this type. -/
def firstHasType (type : String) : Node → Bool
  | .list (x :: _) => (x.get? "type").any (Node.isText type)
  | _ => false

/-- It is not the last resource as the manifest declares it: an example that is merged into a
resource can change what it offers before its turn comes. -/
theorem not_operation_of_last_declared :
    ¬ ∀ (manifest : Value) (options : Options) (generator : Option (Generator Unit))
      (w w' : World Unit) (rs : List Resource) (d : Document),
      declaredResources w.store manifest = .ok rs →
      (∀ r ∈ rs, PathTemplate.segments r.path ≠ []) → (∀ r ∈ rs, Named r.path) →
      OneKindOfGet rs → Returns (build manifest options generator) w d w' →
      ∀ (path : String) (verb : Verb) (item part : Node),
        Fields.get? path d.paths = some item → item.get? verb.key = some part →
        ∃ baseline backend r op, Baseline.ofManifest (w.store.tree manifest) = .ok baseline ∧
          Backend.ofDocument baseline = .ok backend ∧ LastOffers rs path verb r op ∧
          operation r op options (some backend) = .ok part := by
  intro hall
  have hreturns : (outcome (build (.ref 12) {} (none : Option (Generator Unit)))
      { store := retypedStore, examples := () }).1.toOption.any
      (fun d => ((Fields.get? "/z/\x7bq\x7d" d.paths).bind (Node.get? (Verb.key .get))).any
        fun part => (part.get? "parameters").any (firstHasType "integer")) = true := by
    rw [outcome_build_of_silent (by decide +kernel)]
    decide +kernel
  have hdeclared : (declaredResources retypedStore (.ref 12)).toOption.any (fun rs =>
      decide ((∀ r ∈ rs, PathTemplate.segments r.path ≠ []) ∧ (∀ r ∈ rs, Named r.path) ∧
        OneKindOfGet rs ∧ ∀ r ∈ rs, ∀ op ∈ r.operations,
          firstHasType "integer" (.list (PathItem.parameters r op)) = false)) = true := by
    decide +kernel
  obtain ⟨d, w', h, hcheck⟩ := Returns.of_check hreturns
  obtain ⟨part, hget, hinteger⟩ := (Option.any_eq_true _ _).mp hcheck
  obtain ⟨item, hitem, hpart⟩ := Option.bind_eq_some_iff.mp hget
  cases hrs : declaredResources retypedStore (.ref 12) with
  | error e => rw [hrs] at hdeclared; cases hdeclared
  | ok rs =>
      rw [hrs] at hdeclared
      obtain ⟨hsegments, hnamed, hkinds, hstring⟩ := of_decide_eq_true hdeclared
      obtain ⟨_, backend, r, op, _, _, hlast, hoperation⟩ :=
        hall _ _ _ _ _ rs _ hrs hsegments hnamed hkinds h _ _ _ _ hitem hpart
      -- no operation that is declared has a parameter of the type that the document shows
      obtain ⟨_, _, rfl⟩ := PathItem.operation_eq hoperation
      have hnone := hstring r hlast.mem.1 op hlast.mem.2
      rw [show Node.get? "parameters" _ = some _ from rfl, Option.any_some, hnone] at hinteger
      cases hinteger

end Document
end ApiManifest
