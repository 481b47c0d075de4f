import ApiManifest.Proofs.Offers

/-!
# The schemas of answers

The schema of an answer is of one of two forms: a reference to the definition of what is answered,
or a list of what such a reference refers to. A resource uses one of them for each of its
operations, but a document merges what several resources show at one path under one verb, and two
schemas of different forms come to one that has the names of both. That happens where one resource
is listed at the path and another one is read there, and nowhere else.
-/

namespace ApiManifest

variable {σ : Type}

/-! ## The two forms -/

namespace PathItem

/-- The schema refers to a definition. -/
def IsReference (schema : Node) : Prop := ∃ key, schema = Definition.reference key

/-- The schema is that of a list, whose items refer to a definition. -/
def IsListing (schema : Node) : Prop :=
  ∃ key, schema = .map [("type", .text "array"), ("items", Definition.reference key)]

theorem IsReference.cover {lower upper : Node} (hl : IsReference lower) (hu : IsReference upper) :
    Node.cover lower upper = upper := by
  obtain ⟨key, rfl⟩ := hl
  obtain ⟨key', rfl⟩ := hu
  exact Node.cover_of_shape rfl (by simp [Definition.reference, Node.Distinct, Node.DistinctFields,
    Fields.names])

theorem IsListing.cover {lower upper : Node} (hl : IsListing lower) (hu : IsListing upper) :
    Node.cover lower upper = upper := by
  obtain ⟨key, rfl⟩ := hl
  obtain ⟨key', rfl⟩ := hu
  exact Node.cover_of_shape rfl (by simp [Definition.reference, Node.Distinct, Node.DistinctFields,
    Fields.names])

/-- The name that only a reference has at its top. -/
theorem IsReference.get? {schema : Node} (h : IsReference schema) :
    (schema.get? referenceField).isSome ∧ schema.get? "items" = none ∧ schema.IsRecord := by
  obtain ⟨key, rfl⟩ := h
  exact ⟨rfl, rfl, by simp [Definition.reference, Node.IsRecord, Fields.names]⟩

/-- The name that only a list has at its top. -/
theorem IsListing.get? {schema : Node} (h : IsListing schema) :
    (schema.get? "items").isSome ∧ schema.get? referenceField = none ∧ schema.IsRecord := by
  obtain ⟨key, rfl⟩ := h
  exact ⟨rfl, rfl, by simp [Node.IsRecord, Fields.names]⟩

/-- **Layers of schemas** come to one of the two forms exactly if they do not mix them. -/
theorem isReference_or_isListing_layers {parts : List Node} {schema : Node}
    (hforms : ∀ x ∈ parts, IsReference x ∨ IsListing x) (h : Node.layers parts = some schema) :
    IsReference schema ∨ IsListing schema ↔
      ¬ ((∃ x ∈ parts, IsListing x) ∧ ∃ x ∈ parts, IsReference x) := by
  constructor
  · intro hschema hmixed
    obtain ⟨⟨listing, hlisting, hl⟩, ⟨reference, hreference, hr⟩⟩ := hmixed
    have hrecords : ∀ x ∈ parts, x.IsRecord := fun x hx =>
      (hforms x hx).elim (fun hx => hx.get?.2.2) (fun hx => hx.get?.2.2)
    -- no name is lost, so a mixture has the names of both forms
    obtain ⟨_, hnames⟩ := Node.get?_layers hrecords h
    have hitems := (hnames "items").mpr ⟨listing, hlisting, hl.get?.1⟩
    have hrefers := (hnames referenceField).mpr ⟨reference, hreference, hr.get?.1⟩
    rcases hschema with hs | hs
    · rw [hs.get?.2.1] at hitems
      cases hitems
    · rw [hs.get?.2.1] at hrefers
      cases hrefers
  · intro hpure
    have hhides : ∀ lower ∈ parts, ∀ upper ∈ parts, Node.cover lower upper = upper := by
      intro lower hlower upper hupper
      rcases hforms lower hlower with hl | hl <;> rcases hforms upper hupper with hu | hu
      · exact hl.cover hu
      · exact absurd ⟨⟨upper, hupper, hu⟩, ⟨lower, hlower, hl⟩⟩ hpure
      · exact absurd ⟨⟨lower, hlower, hl⟩, ⟨upper, hupper, hu⟩⟩ hpure
      · exact hl.cover hu
    rw [Node.layers_eq_getLast? hhides] at h
    exact hforms schema (List.mem_of_getLast? h)

/-! ## The answer of an operation -/

/-- Only listing answers with a list. -/
theorem isListing_answerSchema_iff {r : Resource} {op : Operation} :
    IsListing (answerSchema r op) ↔ op = .list := by
  constructor
  · intro h
    obtain ⟨key, hschema⟩ := h
    cases op with
    | list => rfl
    | create | read | update | delete =>
        have hrefers : some _ = none := congrArg (Node.get? referenceField) hschema
        cases hrefers
  · intro hop
    rw [hop]
    exact ⟨_, rfl⟩

theorem isReference_answerSchema_iff {r : Resource} {op : Operation} :
    IsReference (answerSchema r op) ↔ op ≠ .list := by
  constructor
  · intro h hop
    obtain ⟨key, hschema⟩ := h
    rw [hop] at hschema
    have hrefers : none = some _ := congrArg (Node.get? referenceField) hschema
    cases hrefers
  · intro hop
    refine ⟨Definition.responseName r.name, ?_⟩
    cases op with
    | list => exact absurd rfl hop
    | create | read | update | delete => rfl

/-- Where an operation shows the schema of its answer. -/
def answerPlace : List String := ["responses", "200", "schema"]

theorem at?_answerPlace {r : Resource} {op : Operation} {options : Options}
    {backend : Option Backend} {part : Node} (h : operation r op options backend = .ok part) :
    Node.RecordsAlong answerPlace part ∧ Node.at? answerPlace part = some (answerSchema r op) := by
  obtain ⟨gateway, _, rfl⟩ := operation_eq h
  refine ⟨?_, rfl⟩
  cases gateway with
  | none => simp [answerPlace, Node.RecordsAlong, Node.IsRecord, Definition.optional, Fields.names,
      Node.get?, Fields.get?]
  | some block => simp [answerPlace, Node.RecordsAlong, Node.IsRecord, Definition.optional,
      Fields.names, Node.get?, Fields.get?, gatewayField]

section

variable {r : Resource} {options : Options} {backend : Backend} {paths : Fields Node}
  (h : items r options (some backend) = .ok paths)

include h

/-- What a resource shows as the schema of an answer is that of the operation there. -/
theorem shownAt_answer (path : String) (verb : Verb) :
    shownAt options backend ([path, verb.key] ++ answerPlace) r
      = (operationAt r path verb).map (answerSchema r) := by
  rw [shownAt_eq h, Node.at?_append, at?_items_verb h]
  cases hop : operationAt r path verb with
  | none => rfl
  | some op =>
      obtain ⟨part, hpart⟩ := operation_of_items h (operationAt_cases hop).1
      rw [Option.bind_some, hpart]
      exact (at?_answerPlace hpart).2

theorem recordsAlong_answer (path : String) (verb : Verb) :
    Node.RecordsAlong ([path, verb.key] ++ answerPlace) (.map paths) := by
  refine (recordsAlong_items h path verb.key).append fun part hpart => ?_
  rw [at?_items_verb h] at hpart
  obtain ⟨op, _, hshown⟩ := Option.bind_eq_some_iff.mp hpart
  cases hoperation : operation r op options (some backend) with
  | error e => rw [hoperation] at hshown; cases hshown
  | ok part' =>
      rw [hoperation] at hshown
      cases hshown
      exact (at?_answerPlace hoperation).1

end

end PathItem

/-! ## Answers in a document -/

namespace Document

open PathItem (IsReference IsListing answerPlace answerSchema operationAt referenceField)

/-- The schemas that resources show for the answer at a path under a verb. -/
def answers (options : Options) (backend : Backend) (path : String) (verb : Verb)
    (rs : List Resource) : List Node :=
  rs.filterMap (PathItem.shownAt options backend ([path, verb.key] ++ answerPlace))

section

variable {options : Options} {backend : Backend} {generator : Option (Generator σ)}
  {models : List (Value × Value)} {baseline : Entries} {d' : Document} {w w' : World σ}
  {rs : List Resource} {path : String} {verb : Verb} {item op : Node}
  (h : Assembles options backend generator models { baseline } w rs d' w')
  (hitem : Fields.get? path d'.paths = some item) (hop : item.get? verb.key = some op)

include h

/-- They are the schemas of the operations there. -/
theorem mem_answers {schema : Node} : schema ∈ answers options backend path verb rs ↔
    ∃ r ∈ rs, ∃ op, operationAt r path verb = some op ∧ answerSchema r op = schema := by
  unfold answers
  rw [List.mem_filterMap]
  refine exists_congr fun r => and_congr_right fun hr => ?_
  obtain ⟨items, hitems⟩ := items_of_assembles h r hr
  rw [PathItem.shownAt_answer hitems, Option.map_eq_some_iff]

theorem form_of_mem_answers {schema : Node}
    (hmem : schema ∈ answers options backend path verb rs) :
    IsReference schema ∨ IsListing schema := by
  obtain ⟨r, _, op, _, rfl⟩ := (mem_answers h).mp hmem
  by_cases hlist : op = .list
  · exact Or.inr (PathItem.isListing_answerSchema_iff.mpr hlist)
  · exact Or.inl (PathItem.isReference_answerSchema_iff.mpr hlist)

/-- Both forms meet where one resource is listed and one is read: besides listing only reading
gets. -/
theorem mixed_answers_iff :
    (∃ x ∈ answers options backend path verb rs, IsListing x) ∧
        (∃ x ∈ answers options backend path verb rs, IsReference x) ↔
      (∃ r ∈ rs, operationAt r path verb = some .list) ∧
        ∃ r ∈ rs, operationAt r path verb = some .read := by
  constructor
  · intro hmixed
    obtain ⟨⟨x, hx, hlisting⟩, ⟨y, hy, hreference⟩⟩ := hmixed
    obtain ⟨r, hr, listing, hlist, rfl⟩ := (mem_answers h).mp hx
    obtain ⟨r', hr', other, hother, rfl⟩ := (mem_answers h).mp hy
    obtain rfl := PathItem.isListing_answerSchema_iff.mp hlisting
    have hverb : other.verb = Operation.verb .list := (PathItem.operationAt_cases hother).2.2.trans
      (PathItem.operationAt_cases hlist).2.2.symm
    have hread : other = .read := by
      have hne := PathItem.isReference_answerSchema_iff.mp hreference
      cases other with
      | list => exact absurd rfl hne
      | read => rfl
      | create | update | delete => cases hverb
    rw [hread] at hother
    exact ⟨⟨r, hr, hlist⟩, ⟨r', hr', hother⟩⟩
  · intro hboth
    obtain ⟨⟨r, hr, hlist⟩, ⟨r', hr', hread⟩⟩ := hboth
    exact ⟨⟨_, (mem_answers h).mpr ⟨r, hr, _, hlist, rfl⟩,
        PathItem.isListing_answerSchema_iff.mpr rfl⟩,
      ⟨_, (mem_answers h).mpr ⟨r', hr', _, hread, rfl⟩,
        PathItem.isReference_answerSchema_iff.mpr (by decide)⟩⟩

include hitem hop

/-- **The schema of an answer** is what the schemas of the single resources come to. -/
theorem answer_of_assembles : ∃ schema, Node.at? answerPlace op = some schema ∧
    Node.layers (answers options backend path verb rs) = some schema := by
  have hitems := items_of_assembles h
  have hrecords : ∀ r ∈ rs, RecordsAt options backend [path, verb.key] r :=
    fun r _ items hok => PathItem.recordsAlong_items hok path verb.key
  have hrecords' : ∀ r ∈ rs, RecordsAt options backend ([path, verb.key] ++ answerPlace) r :=
    fun r _ items hok => PathItem.recordsAlong_answer hok path verb
  have hplace : Node.at? ([path, verb.key] ++ answerPlace) (.map d'.paths)
      = Node.at? answerPlace op := by
    rw [Node.at?_append, Node.at?_pair, hitem, Option.bind_some, hop, Option.bind_some]
  -- what stands under the verb comes of some resource, and that shows a schema there too
  have hop' : (Node.at? [path, verb.key] (.map d'.paths)).isSome := by
    rw [Node.at?_pair, hitem, Option.bind_some, hop]
    rfl
  obtain ⟨r, hr, hshown⟩ := (isSome_at?_paths hrecords h).mp hop'
  obtain ⟨items, hok⟩ := hitems r hr
  rw [PathItem.shownAt_eq hok, PathItem.at?_items_verb hok] at hshown
  have hsome : (Node.at? ([path, verb.key] ++ answerPlace) (.map d'.paths)).isSome := by
    refine (isSome_at?_paths hrecords' h).mpr ⟨r, hr, ?_⟩
    show (PathItem.shownAt options backend ([path, verb.key] ++ answerPlace) r).isSome
    rw [PathItem.shownAt_answer hok, Option.isSome_map]
    exact Option.isSome_of_isSome_bind hshown
  obtain ⟨schema, hschema⟩ := Option.isSome_iff_exists.mp hsome
  refine ⟨schema, hplace.symm.trans hschema, ?_⟩
  rw [← hschema]
  exact (at?_paths hrecords' h).symm

end

/--
**Which answers have one form.**

Whenever the build of a document returns, what stands under a verb in a path item has a schema for
its answer. It is a reference to a definition, or a list of what such a reference refers to, exactly
if the resources do not show both the operation that lists and the one that reads at this path.
-/
theorem answer_of_one_form_iff {manifest : Value} {options : Options}
    {generator : Option (Generator σ)} {w w' : World σ} {rs : List Resource} {d : Document}
    (h : Builds manifest options generator w rs d w') {path : String} {verb : Verb}
    {item op : Node} (hitem : Fields.get? path d.paths = some item)
    (hop : item.get? verb.key = some op) :
    ∃ schema, Node.at? answerPlace op = some schema ∧
      (IsReference schema ∨ IsListing schema ↔
        ¬ ((∃ r ∈ rs, operationAt r path verb = some .list) ∧
          ∃ r ∈ rs, operationAt r path verb = some .read)) := by
  obtain ⟨_, backend, _, _, _, _, _, hassembles, _⟩ := h
  obtain ⟨schema, hplace, hlayers⟩ := answer_of_assembles hassembles hitem hop
  refine ⟨schema, hplace, ?_⟩
  rw [PathItem.isReference_or_isListing_layers (fun _ => form_of_mem_answers hassembles) hlayers,
    mixed_answers_iff hassembles]

/-- A fleet whose devices are listed, and a hub that is read at the path of their list. -/
def fleetAndHub : Tree := .map [(.text "models", .map [
  (.text "fleet", .map [(.text "path", .text "/devices/\x7bid\x7d"),
    (.text "methods", .list [.text "list"])]),
  (.text "hub", .map [(.text "path", .text "/devices"),
    (.text "methods", .list [.text "read"])])])]

/-- The schema has the names of both forms. -/
def isMixed (schema : Node) : Bool :=
  (schema.get? referenceField).isSome && (schema.get? "items").isSome

/-- The build of the fleet and the hub, and what stands at the path that they share. -/
theorem build_fleetAndHub : ∃ (rs : List Resource) (d : Document) (w' : World Unit)
    (item op : Node),
    Builds (Store.empty.insert fleetAndHub).2 {} (none : Option (Generator Unit))
      { store := (Store.empty.insert fleetAndHub).1, examples := () } rs d w' ∧
    Fields.get? "/devices" d.paths = some item ∧ item.get? "get" = some op ∧
    (Node.at? answerPlace op).any isMixed = true := by
  have hreturns : (outcome (build (Store.empty.insert fleetAndHub).2 {}
      (none : Option (Generator Unit)))
      { store := (Store.empty.insert fleetAndHub).1, examples := () }).1.toOption.any
      (fun d => ((Fields.get? "/devices" d.paths).bind (Node.get? "get")).any fun op =>
        (Node.at? answerPlace op).any isMixed) = true := by
    rw [outcome_build_of_silent (by decide +kernel)]
    decide +kernel
  obtain ⟨d, w', h, hcheck⟩ := Returns.of_check hreturns
  obtain ⟨rs, hbuilds⟩ := build_iff.mp h
  obtain ⟨op, hget, hmixed⟩ := (Option.any_eq_true _ _).mp hcheck
  obtain ⟨item, hitem, hop⟩ := Option.bind_eq_some_iff.mp hget
  exact ⟨rs, d, w', item, op, hbuilds, hitem, hop, hmixed⟩

/-- The answer at the path of the fleet and the hub. -/
theorem answer_of_one_form_iff_fleetAndHub : ∃ (rs : List Resource) (d : Document)
    (w' : World Unit) (item op : Node),
    Builds (Store.empty.insert fleetAndHub).2 {} (none : Option (Generator Unit))
      { store := (Store.empty.insert fleetAndHub).1, examples := () } rs d w' ∧
    Fields.get? "/devices" d.paths = some item ∧ item.get? (Verb.key .get) = some op ∧
    ∃ schema, Node.at? answerPlace op = some schema ∧
      (IsReference schema ∨ IsListing schema ↔
        ¬ ((∃ r ∈ rs, operationAt r "/devices" .get = some .list) ∧
          ∃ r ∈ rs, operationAt r "/devices" .get = some .read)) := by
  obtain ⟨rs, d, w', item, op, h, hitem, hop, _⟩ := build_fleetAndHub
  exact ⟨rs, d, w', item, op, h, hitem, hop, answer_of_one_form_iff h hitem hop⟩

/-- An answer need not have one of the two forms. -/
theorem not_answer_of_one_form :
    ¬ ∀ (manifest : Value) (options : Options) (generator : Option (Generator Unit))
      (w w' : World Unit) (d : Document), Returns (build manifest options generator) w d w' →
      ∀ (path : String) (item : Node) (verb : Verb) (op : Node),
        Fields.get? path d.paths = some item → item.get? verb.key = some op →
        ∃ schema, Node.at? answerPlace op = some schema ∧
          (IsReference schema ∨ IsListing schema) := by
  intro hall
  obtain ⟨rs, d, w', item, op, h, hitem, hop, hmixed⟩ := build_fleetAndHub
  obtain ⟨schema, hschema, hform⟩ :=
    hall _ _ _ _ _ _ (build_iff.mpr ⟨rs, h⟩) _ _ .get op hitem hop
  rw [hschema] at hmixed
  obtain ⟨hrefers, hitems⟩ := Bool.and_eq_true_iff.mp hmixed
  rcases hform with hform | hform
  · rw [hform.get?.2.1] at hitems
    cases hitems
  · rw [hform.get?.2.1] at hrefers
    cases hrefers

end Document
end ApiManifest
