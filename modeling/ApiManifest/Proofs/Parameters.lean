import ApiManifest.Proofs.Placeholders
import ApiManifest.Proofs.Silent
import Mathlib.Data.List.Nodup

/-!
# Parameters are the placeholders of the path

An operation stands under a path, and the path parameters that it declares, as well as those that a
gateway forwards, are the placeholders of that path. For a single resource this is what scanning the
displayed path says. When resources share a path and a verb, merging replaces the list of parameters
but unites the forwarded ones: what is merged fits together because both sides name the placeholders
of the one path that they stand under.
-/

namespace ApiManifest

open PathTemplate (placeholderNames nodup_placeholderNames Named)

variable {σ : Type}

namespace Node

/-- The part is this text. -/
def isText (text : String) : Node → Bool
  | .leaf v => v == .text text
  | _ => false

/-- A mapping with distinct names. -/
def IsRecord : Node → Prop
  | .map fields => (Fields.names fields).Nodup
  | _ => False

theorem isRecord_iff {part : Node} :
    part.IsRecord ↔ ∃ fields, part = .map fields ∧ (Fields.names fields).Nodup := by
  cases part <;> simp [IsRecord]

theorem IsRecord.overlay {maps : Nat → Bool} {target source : Node} (ht : target.IsRecord)
    (hs : source.IsRecord) : (overlay maps target source).IsRecord := by
  match target, source, ht, hs with
  | .map _, .map _, ht, _ =>
      rw [Node.overlay]
      exact nodup_names_overlayFields ht

theorem get?_overlay_of_absent {maps : Nat → Bool} {name : String} {target source : Node}
    (ht : target.IsRecord) (hs : source.IsRecord) (h : source.get? name = none) :
    (Node.overlay maps target source).get? name = target.get? name := by
  match target, source, ht, hs with
  | .map _, .map _, _, _ =>
      rw [Node.overlay]
      exact get?_overlayFields_of_absent (Fields.get?_eq_none_iff.mp h)

theorem get?_overlay {maps : Nat → Bool} {name : String} {target source old new : Node}
    (ht : target.IsRecord) (hs : source.IsRecord) (hold : target.get? name = some old)
    (hnew : source.get? name = some new) :
    (Node.overlay maps target source).get? name = some (Node.overlay maps old new) := by
  match target, source, ht, hs with
  | .map fields, .map _, _, hs =>
      have hget : Fields.get? name fields = some old := hold
      have h := @get?_overlayFields maps name new fields _ hs hnew
      rw [hget] at h
      rw [Node.overlay]
      exact h

end Node

namespace PathItem

/-! ## What fits a path -/

/-- The request parameters by which a gateway forwards the path parameters of these names. -/
def forwarded (names : List String) : Fields Node :=
  names.map fun name =>
    ("integration.request.path." ++ name, .text ("method.request.path." ++ name))

/-- The parameters in the path come first and are required, one for each name of a placeholder; at
most one more is in the body. -/
def ParametersMatch (path : String) (params : List Node) : Prop :=
  ∃ inPath inBody, params = inPath ++ inBody ∧
    inPath.map (Node.get? "name") = (placeholderNames path).map (fun name => some (.text name)) ∧
    (∀ x ∈ inPath, x.get? "in" = some (.text "path") ∧ x.get? "required" = some (.bool true)) ∧
    inBody.length ≤ 1 ∧ ∀ x ∈ inBody, x.get? "in" = some (.text "body")

/-- The parameters of an operation are the placeholders of the path that it stands under, and so
are those that a gateway forwards, if there is to be one. -/
structure OperationMatches (options : Options) (path : String) (op : Node) : Prop where
  parameters : ∃ params, op.get? "parameters" = some (.list params) ∧ ParametersMatch path params
  gateway : (op.get? gatewayField).isSome = options.apiGateway
  forwards : ∀ block, op.get? gatewayField = some block →
    block.get? "requestParameters" = some (.map (forwarded (placeholderNames path)))

/-- What fits a path and still does when more is merged in. -/
structure OperationFits (options : Options) (path : String) (op : Node) : Prop
    extends OperationMatches options path op where
  record : op.IsRecord
  /-- The gateway integration is a record. -/
  blocks : ∀ block, op.get? gatewayField = some block → block.IsRecord

/-- What stands in a path item besides the name of the collection fits the path. -/
structure ItemFits (options : Options) (path : String) (item : Node) : Prop where
  record : item.IsRecord
  operations : ∀ verb op, verb ≠ tagField → item.get? verb = some op →
    OperationFits options path op

/-- Every path item fits its path. -/
structure PathsFit (options : Options) (paths : Fields Node) : Prop where
  distinct : paths.names.Nodup
  items : ∀ path item, Fields.get? path paths = some item → ItemFits options path item

/-! ## Merging -/

theorem nodup_names_forwarded {names : List String} (h : names.Nodup) :
    (forwarded names).names.Nodup := by
  rw [Fields.names, forwarded, List.map_map]
  exact List.Nodup.map (fun a b hab => (String.append_right_inj _).mp hab) h

/-- Forwarding the same parameters twice forwards them once. -/
theorem overlay_forwarded {maps : Nat → Bool} {names : List String} (h : names.Nodup) :
    Node.overlayFields maps (forwarded names) (forwarded names) = forwarded names := by
  have hdistinct := nodup_names_forwarded h
  refine Node.overlayFields_eq_self fun entry hentry => ?_
  obtain ⟨name, _, heq⟩ := List.mem_map.mp hentry
  refine ⟨.text ("method.request.path." ++ name), ?_, Fields.get?_of_mem hdistinct hentry⟩
  rw [← heq]

section

variable {options : Options} {path : String} {maps : Nat → Bool} {old new : Node}

/-- Two operations under one path both have a gateway integration, or neither has. -/
theorem OperationFits.gateway_overlay (ho : OperationFits options path old)
    (hn : OperationFits options path new) :
    (options.apiGateway = false ∧ (Node.overlay maps old new).get? gatewayField = none) ∨
      ∃ b b', options.apiGateway = true ∧ old.get? gatewayField = some b ∧
        new.get? gatewayField = some b' ∧
        (Node.overlay maps old new).get? gatewayField = some (Node.overlay maps b b') := by
  have hold := ho.gateway
  have hnew := hn.gateway
  cases hg : options.apiGateway with
  | false =>
      rw [hg, Option.isSome_eq_false_iff, Option.isNone_iff_eq_none] at hold hnew
      left
      rw [Node.get?_overlay_of_absent ho.record hn.record hnew]
      exact ⟨rfl, hold⟩
  | true =>
      rw [hg, Option.isSome_iff_exists] at hold hnew
      obtain ⟨b, hb⟩ := hold
      obtain ⟨b', hb'⟩ := hnew
      exact Or.inr ⟨b, b', rfl, hb, hb', Node.get?_overlay ho.record hn.record hb hb'⟩

theorem OperationFits.overlay (ho : OperationFits options path old)
    (hn : OperationFits options path new) :
    OperationFits options path (Node.overlay maps old new) := by
  -- the new list of parameters takes the place of the old one, while the forwarded ones are merged
  -- by name: both have the names of the path
  obtain ⟨params, hparams, _⟩ := ho.parameters
  obtain ⟨params', hparams', hmatch⟩ := hn.parameters
  have hlist : (Node.overlay maps old new).get? "parameters" = some (.list params') := by
    rw [Node.get?_overlay ho.record hn.record hparams hparams', Node.overlay]
    all_goals simp
  rcases @gateway_overlay _ _ maps _ _ ho hn with ⟨hg, hnone⟩ | ⟨b, b', hg, hb, hb', hsome⟩
  · refine ⟨⟨⟨params', hlist, hmatch⟩, ?_, ?_⟩, ho.record.overlay hn.record, ?_⟩
    · rw [hnone, hg]
      rfl
    all_goals
      intro block hblock
      rw [hnone] at hblock
      cases hblock
  · refine ⟨⟨⟨params', hlist, hmatch⟩, ?_, ?_⟩, ho.record.overlay hn.record, ?_⟩
    · rw [hsome, hg]
      rfl
    all_goals
      intro block hblock
      rw [hsome] at hblock
      cases hblock
    · rw [Node.get?_overlay (ho.blocks b hb) (hn.blocks b' hb') (ho.forwards b hb)
        (hn.forwards b' hb'), Node.overlay, overlay_forwarded (nodup_placeholderNames path)]
    · exact (ho.blocks b hb).overlay (hn.blocks b' hb')

theorem ItemFits.overlay (ho : ItemFits options path old) (hn : ItemFits options path new) :
    ItemFits options path (Node.overlay maps old new) := by
  refine ⟨ho.record.overlay hn.record, ?_⟩
  match old, new, ho.record, hn.record with
  | .map fields, .map source, _, hdistinct =>
      intro verb op hverb hop
      rw [Node.overlay] at hop
      exact Node.overlayFields_induction
        (P := fun verb op => verb ≠ tagField → OperationFits options path op) hdistinct
        (fun verb op hget hne => ho.operations verb op hne hget)
        (fun verb op hget hne => hn.operations verb op hne hget)
        (fun _ _ _ h h' hne => (h hne).overlay (h' hne)) verb op hop hverb

theorem PathsFit.overlay {paths more : Fields Node} (ho : PathsFit options paths)
    (hn : PathsFit options more) :
    PathsFit options (Node.overlayFields maps paths more) where
  distinct := Node.nodup_names_overlayFields ho.distinct
  items := Node.overlayFields_induction hn.distinct ho.items hn.items
    fun _ _ _ h h' => h.overlay h'

end

/-! ## The path items of a resource -/

section

variable {r : Resource} {options : Options} {backend : Option Backend}

theorem parametersMatch_parameters (h : Named r.path) (op : Operation) :
    ParametersMatch (pathOf r op) (parameters r op) := by
  refine ⟨_, _, rfl, ?_, ?_, ?_, ?_⟩
  · rw [pathOf, ← PathTemplate.names_params h, Fields.names, List.map_map, List.map_map]
    exact List.map_congr_left fun _ _ => rfl
  · intro x hx
    obtain ⟨_, _, rfl⟩ := List.mem_map.mp hx
    exact ⟨rfl, rfl⟩
  · split
    · exact Nat.le_refl 1
    · exact Nat.zero_le 1
  · intro x hx
    split at hx
    · rw [List.mem_singleton.mp hx]
      rfl
    · cases hx

/-- The parameters that a gateway forwards are the placeholders of the path. -/
theorem forwarded_params (h : Named r.path) (op : Operation) :
    ((PathTemplate.parse r.path op.onCollection).params.map fun (name, _) =>
      ("integration.request.path." ++ name, Node.text ("method.request.path." ++ name)))
      = forwarded (placeholderNames (pathOf r op)) := by
  rw [pathOf, ← PathTemplate.names_params h, Fields.names, forwarded, List.map_map]
  rfl

/-- The gateway integration forwards the placeholders of the path. -/
theorem forwards_integration (h : Named r.path) {op : Operation} {b : Backend} {part : Node}
    (hpart : integration r op b = .ok part) :
    part.IsRecord ∧
      part.get? "requestParameters" = some (.map (forwarded (placeholderNames (pathOf r op)))) := by
  obtain ⟨uri, rfl⟩ := integration_eq hpart
  refine ⟨by simp [Node.IsRecord, Fields.names], ?_⟩
  rw [← forwarded_params h]
  rfl

/-- **An operation fits the path that it is requested at.** -/
theorem operationFits_operation (h : Named r.path) {op : Operation} {part : Node}
    (hpart : operation r op options backend = .ok part) :
    OperationFits options (pathOf r op) part := by
  obtain ⟨gateway, hgateway, rfl⟩ := operation_eq hpart
  have hparameters := parametersMatch_parameters h op
  -- without an integration, or with one that forwards the placeholders of the path
  rcases integration?_cases hgateway with ⟨hoff, rfl⟩ | ⟨b, block, hon, _, hblock, rfl⟩
  · refine ⟨⟨⟨_, rfl, hparameters⟩, ?_, ?_⟩, ?_, ?_⟩
    · rw [hoff]
      rfl
    · intro block hget
      cases hget
    · simp [Node.IsRecord, Fields.names, Definition.optional]
    · intro block hget
      cases hget
  · obtain ⟨hrecord, hforwards⟩ := forwards_integration h hblock
    refine ⟨⟨⟨_, rfl, hparameters⟩, ?_, ?_⟩, ?_, ?_⟩
    · rw [hon]
      rfl
    · intro block' hget
      cases hget
      exact hforwards
    · simp [Node.IsRecord, Fields.names, Definition.optional, gatewayField]
    · intro block' hget
      cases hget
      exact hrecord

theorem pathsFit_roots : PathsFit options (roots r) := by
  constructor
  · exact nodup_roots
  · intro path item hget
    obtain ⟨_, hitem⟩ := mem_roots (Fields.mem_of_get? hget)
    dsimp only at hitem
    rw [hitem]
    refine ⟨by simp [Node.IsRecord, Fields.names], ?_⟩
    intro verb op hverb hop
    rw [Node.get?, Fields.get?, if_neg (Ne.symm hverb)] at hop
    cases hop

theorem pathsFit_putOperation {paths : Fields Node} {path verb : String} {op : Node}
    {fields : Fields Node} (hget : Fields.get? path paths = some (.map fields))
    (hpaths : PathsFit options paths) (hop : OperationFits options path op) :
    PathsFit options (Fields.put path (.map (Fields.put verb op fields)) paths) := by
  obtain ⟨hdistinct, hitem⟩ := hpaths.items path _ hget
  refine ⟨Fields.nodup_names_put hpaths.distinct, ?_⟩
  intro path' item hitem'
  -- only the operation that is put has to be looked at
  by_cases heq : path' = path
  · subst heq
    rw [Fields.get?_put_self] at hitem'
    cases hitem'
    refine ⟨Fields.nodup_names_put hdistinct, ?_⟩
    intro verb' op' hverb' hop'
    by_cases hsame : verb' = verb
    · subst hsame
      rw [Node.get?, Fields.get?_put_self] at hop'
      cases hop'
      exact hop
    · rw [Node.get?, Fields.get?_put_of_ne hsame] at hop'
      exact hitem verb' op' hverb' hop'
  · rw [Fields.get?_put_of_ne heq] at hitem'
    exact hpaths.items path' item hitem'

theorem pathsFit_items (h : Named r.path) {paths : Fields Node}
    (hitems : items r options backend = .ok paths) : PathsFit options paths := by
  refine items_induction (P := PathsFit options) ?_ ?_ hitems
  · exact pathsFit_roots
  · intro op _ part paths hpart hpaths
    unfold putOperation
    split
    · rename_i fields hget
      exact pathsFit_putOperation hget hpaths (operationFits_operation h hpart)
    · exact hpaths

end

end PathItem

namespace Document

open PathItem (PathsFit OperationMatches tagField)

/-- **Preserved by every resource** whose placeholders have names. -/
theorem pathsFit_addResource {d d' : Document} {r : Resource} {options : Options}
    {backend : Backend} {generator : Option (Generator σ)} {w w' : World σ}
    (hd : PathsFit options d.paths) (hr : Named r.path)
    (h : Returns (addResource d r options backend generator) w d' w') :
    PathsFit options d'.paths := by
  obtain ⟨_, items, _, _, hitems, rfl, _⟩ := addResource_cases h
  exact hd.overlay (PathItem.pathsFit_items hr hitems)

theorem pathsFit_of_assembles {options : Options} {backend : Backend}
    {generator : Option (Generator σ)} {models : List (Value × Value)} {d d' : Document}
    {w w' : World σ} {rs : List Resource} (hd : PathsFit options d.paths)
    (hrs : ∀ r ∈ rs, Named r.path)
    (h : Assembles options backend generator models d w rs d' w') : PathsFit options d'.paths := by
  induction h with
  | done => exact hd
  | next _ hadd _ ih =>
      exact ih (pathsFit_addResource hd (hrs _ List.mem_cons_self) hadd)
        fun r hr => hrs r (List.mem_cons_of_mem _ hr)

/--
**Path parameters match the path.**

Whenever the build of a document returns, and every placeholder of the templates that it has read
has a name, what stands under a verb in a path item has a parameter in the path for each name among
the placeholders of that path, required and in their order, and then at most one in the body. It has
a gateway integration exactly if the options ask for one, and that forwards these names and no
others.
-/
theorem parameters_match_path {manifest : Value} {options : Options}
    {generator : Option (Generator σ)} {w w' : World σ} {d : Document}
    (h : Returns (build manifest options generator) w d w')
    (hnamed : ∀ r, Reads manifest options generator w r → Named r.path)
    {path verb : String} {item op : Node} (hitem : Fields.get? path d.paths = some item)
    (hverb : verb ≠ tagField) (hop : item.get? verb = some op) :
    OperationMatches options path op := by
  obtain ⟨rs, hbuilds⟩ := build_iff.mp h
  obtain ⟨baseline, backend, declared, w₁, _, _, _, hassembles, _⟩ := id hbuilds
  have hpaths : PathsFit options d.paths := pathsFit_of_assembles (d := { baseline })
    ⟨List.nodup_nil, fun _ _ hget => by cases hget⟩
    (fun r hr => hnamed r ⟨rs, d, w', hbuilds, hr⟩) hassembles
  exact ((hpaths.items path item hitem).operations verb op hverb hop).toOperationMatches

/-- A resource whose path has a brace within a brace, a name with two hints and braces that come to
nothing. -/
def nestedManifest : Tree := .map [(.text "models", .map [(.text "device", .map [
  (.text "path",
    .text "/a/\x7b\x7bid:uuid\x7d\x7d/\x7bid:a:b\x7d/\x7bno\x7b\x7d/\x7bend")])])]

/-- The parameters under a path with nested braces. -/
theorem parameters_match_path_nested : ∃ (d : Document) (w' : World Unit) (item op : Node),
    Returns (build (Store.empty.insert nestedManifest).2 { apiGateway := true } none)
      { store := (Store.empty.insert nestedManifest).1, examples := () } d w' ∧
    Fields.get? "/a/\x7b\x7bid\x7d\x7d/\x7bid\x7d/\x7bno\x7b\x7d/\x7bend" d.paths = some item ∧
    item.get? "put" = some op ∧
    OperationMatches { apiGateway := true }
      "/a/\x7b\x7bid\x7d\x7d/\x7bid\x7d/\x7bno\x7b\x7d/\x7bend" op := by
  have hreturns : (outcome (build (Store.empty.insert nestedManifest).2 { apiGateway := true }
      (none : Option (Generator Unit)))
      { store := (Store.empty.insert nestedManifest).1, examples := () }).1.toOption.any
      (fun d => ((Fields.get? "/a/\x7b\x7bid\x7d\x7d/\x7bid\x7d/\x7bno\x7b\x7d/\x7bend"
        d.paths).bind (Node.get? "put")).isSome) = true := by
    rw [outcome_build_of_silent (by decide +kernel)]
    decide +kernel
  obtain ⟨d, w', h, hcheck⟩ := Returns.of_check hreturns
  obtain ⟨op, hop⟩ := Option.isSome_iff_exists.mp hcheck
  obtain ⟨item, hitem, hop⟩ := Option.bind_eq_some_iff.mp hop
  have hone : declarations (Store.empty.insert nestedManifest).1
      (Store.empty.insert nestedManifest).2 = .ok [(.text "device", .ref 0)] := by decide +kernel
  have hnamed : (declarations (Store.empty.insert nestedManifest).1
      (Store.empty.insert nestedManifest).2).toOption.any (fun declared => declared.all fun model =>
        (resourceOf (Store.empty.insert nestedManifest).1 model.1 model.2).toOption.all
          fun r => decide (Named r.path)) = true := by decide +kernel
  exact ⟨d, w', item, op, h, hitem, hop, parameters_match_path h
    (fun r hr => of_decide_eq_true (forall_declares hnamed (declares_of_reads hone hr)))
    hitem (by decide) hop⟩

/-- A manifest in which the last resource is also the example of a property of the first one. The
second one has an example for the same property, which is merged into it. -/
def aliasedStore : Store where
  cells := #[
    .list [.text "read"],
    .map [(.text "path", .text "/z/1"), (.text "methods", .ref 0)],
    .map [(.text "example", .ref 1)],
    .map [(.text "p", .ref 2)],
    .list [],
    .map [(.text "path", .text "/x/\x7bid\x7d"), (.text "methods", .ref 4),
      (.text "response", .ref 3)],
    .map [(.text "path", .text "/z/\x7b:t\x7d")],
    .map [(.text "example", .ref 6)],
    .map [(.text "p", .ref 7)],
    .list [],
    .map [(.text "path", .text "/x/\x7bid\x7d"), (.text "methods", .ref 9),
      (.text "response", .ref 8)],
    .map [(.text "x-y", .ref 5), (.text "x_y", .ref 10), (.text "zed", .ref 1)],
    .map [(.text "models", .ref 11)]]

/-- Where the first parameter of an operation is. -/
def firstParameterIn (op : Node) : Option Node :=
  match op.get? "parameters" with
  | some (.list (x :: _)) => x.get? "in"
  | _ => none

theorem firstParameterIn_of_matches {options : Options} {path : String} {op : Node}
    (h : OperationMatches options path op) (hnone : placeholderNames path = []) :
    firstParameterIn op = none ∨ firstParameterIn op = some (.text "body") := by
  obtain ⟨params, hparams, inPath, inBody, rfl, hnames, _, _, hbody⟩ := h.parameters
  rw [hnone, List.map_nil, List.map_eq_nil_iff] at hnames
  subst hnames
  unfold firstParameterIn
  rw [hparams]
  cases inBody with
  | nil => exact Or.inl rfl
  | cons x rest => exact Or.inr (hbody x List.mem_cons_self)

/-- It is not enough that the placeholders have names where the manifest declares them: an example
that is merged into a resource can change its path before its turn comes. -/
theorem not_parameters_match_declared_path :
    ¬ ∀ (manifest : Value) (options : Options) (generator : Option (Generator Unit))
      (w w' : World Unit) (d : Document), Returns (build manifest options generator) w d w' →
      (∀ r, Declares w.store manifest r → Named r.path) →
      ∀ path verb item op, Fields.get? path d.paths = some item → verb ≠ tagField →
        item.get? verb = some op → OperationMatches options path op := by
  intro hall
  have hreturns : (outcome (build (.ref 12) {} (none : Option (Generator Unit)))
      { store := aliasedStore, examples := () }).1.toOption.any
      (fun d => ((Fields.get? "/z/\x7b\x7d" d.paths).bind (Node.get? "get")).any fun op =>
        (firstParameterIn op).any (Node.isText "path")) = true := by
    rw [outcome_build_of_silent (by decide +kernel)]
    decide +kernel
  have hnamed : (declarations aliasedStore (.ref 12)).toOption.any (fun declared =>
      declared.all fun model => (resourceOf aliasedStore model.1 model.2).toOption.all
        fun r => decide (Named r.path)) = true := by decide +kernel
  obtain ⟨d, w', h, hcheck⟩ := Returns.of_check hreturns
  obtain ⟨op, hget, hplace⟩ := (Option.any_eq_true _ _).mp hcheck
  obtain ⟨item, hitem, hop⟩ := Option.bind_eq_some_iff.mp hget
  have hmatch := hall _ _ _ _ _ _ h
    (fun r hr => of_decide_eq_true (forall_declares hnamed hr)) _ _ _ _ hitem (by decide) hop
  -- the path that is shown has no placeholder with a name, but its operation has a path parameter
  rcases firstParameterIn_of_matches hmatch (by decide +kernel) with hfirst | hfirst
  all_goals
    rw [hfirst] at hplace
    exact absurd hplace (by decide)

end Document
end ApiManifest
