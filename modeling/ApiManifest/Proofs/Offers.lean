import ApiManifest.Proofs.Layers

/-!
# What a resource offers at a path

The path items of a resource are known by three things: the paths that they are at, the name of the
collection, which all of them carry, and the operation under each verb. Operations are put into the
items one after the other, so where two of them come to one path and one verb the last one stays:
that happens where a template has no segments, as its collection and its items then share a path.
-/

namespace ApiManifest.PathItem

variable {σ : Type}

/-! ## Paths -/

theorem mem_names_roots {r : Resource} {path : String} :
    path ∈ (roots r).names ↔
      ∃ collection, (PathTemplate.parse r.path collection).display = path := by
  unfold roots
  generalize hcollection : (PathTemplate.parse r.path true).display = root
  generalize hitem : (PathTemplate.parse r.path false).display = item
  rw [Bool.exists_bool, hcollection, hitem]
  by_cases heq : item = root
  · simp [heq, Fields.names, eq_comm]
  · rw [if_neg heq]
    simp only [Fields.names, List.map_cons, List.map_nil, List.mem_cons, List.not_mem_nil, or_false]
    rw [or_comm, eq_comm, @eq_comm _ path root]

/-- Every operation is requested at one of the paths of its resource. -/
theorem pathOf_mem_roots (r : Resource) (op : Operation) : pathOf r op ∈ (roots r).names :=
  mem_names_roots.mpr ⟨op.onCollection, rfl⟩

theorem tagField_ne_key (verb : Verb) : tagField ≠ verb.key := by
  cases verb <;> decide

theorem key_injective {verb verb' : Verb} (h : verb.key = verb'.key) : verb = verb' := by
  cases verb <;> cases verb' <;> first | rfl | exact absurd h (by decide)

/-! ## Putting operations into path items -/

theorem putOperation_eq {path : String} {verb : Verb} {part : Node} {paths fields : Fields Node}
    (h : Fields.get? path paths = some (.map fields)) :
    putOperation path verb part paths
      = Fields.put path (.map (Fields.put verb.key part fields)) paths := by
  unfold putOperation
  rw [h]

theorem at?_putOperation {path : String} {verb : Verb} {part : Node} {paths fields : Fields Node}
    (h : Fields.get? path paths = some (.map fields)) (path' key : String) :
    Node.at? [path', key] (.map (putOperation path verb part paths))
      = if path' = path ∧ key = verb.key then some part
        else Node.at? [path', key] (.map paths) := by
  rw [putOperation_eq h, Node.at?_pair, Node.at?_pair]
  by_cases hpath : path' = path
  · subst hpath
    rw [Fields.get?_put_self, h, Option.bind_some, Option.bind_some, Node.get?, Node.get?]
    by_cases hkey : key = verb.key
    · subst hkey
      rw [Fields.get?_put_self]
      simp
    · rw [Fields.get?_put_of_ne hkey]
      simp [hkey]
  · rw [Fields.get?_put_of_ne hpath]
    simp [hpath]

/-- What the path items of a resource are, whichever operations have been put into them by now:
one record for each of its paths, with the name of the collection. -/
structure ItemsOf (r : Resource) (paths : Fields Node) : Prop where
  names : paths.names = (roots r).names
  record : ∀ path item, Fields.get? path paths = some item → item.IsRecord
  tag : ∀ path item, Fields.get? path paths = some item →
    item.get? tagField = some (.text (Naming.pascalCase r.name))

theorem ItemsOf.nodup {r : Resource} {paths : Fields Node} (h : ItemsOf r paths) :
    paths.names.Nodup := by
  rw [h.names]
  exact nodup_roots

theorem itemsOf_roots (r : Resource) : ItemsOf r (roots r) where
  names := rfl
  record := by
    intro path item hget
    have hitem : item = .map [(tagField, .text (Naming.pascalCase r.name))] :=
      (mem_roots (Fields.mem_of_get? hget)).2
    rw [hitem]
    simp [Node.IsRecord, Fields.names]
  tag := by
    intro path item hget
    have hitem : item = .map [(tagField, .text (Naming.pascalCase r.name))] :=
      (mem_roots (Fields.mem_of_get? hget)).2
    rw [hitem, Node.get?, Fields.get?, if_pos rfl]

/-- There is a path item for every operation. -/
theorem ItemsOf.item {r : Resource} {paths : Fields Node} (h : ItemsOf r paths) (op : Operation) :
    ∃ fields, Fields.get? (pathOf r op) paths = some (.map fields) := by
  have hmem : pathOf r op ∈ paths.names := by
    rw [h.names]
    exact pathOf_mem_roots r op
  obtain ⟨item, hitem⟩ := Option.isSome_iff_exists.mp (Fields.get?_isSome_iff.mpr hmem)
  obtain ⟨fields, rfl, -⟩ := Node.isRecord_iff.mp (h.record _ _ hitem)
  exact ⟨fields, hitem⟩

/-- **Preserved by every operation.** -/
theorem ItemsOf.putOperation {r : Resource} {paths : Fields Node} (h : ItemsOf r paths)
    (op : Operation) (part : Node) :
    ItemsOf r (putOperation (pathOf r op) op.verb part paths) := by
  obtain ⟨fields, hget⟩ := h.item op
  have hfields : (Fields.names fields).Nodup := h.record _ _ hget
  have htag : Fields.get? tagField fields = some (.text (Naming.pascalCase r.name)) :=
    h.tag _ _ hget
  -- only the item of this path changes, and only at the key of the verb, which is not the tag
  rw [putOperation_eq hget]
  constructor
  · rw [Fields.names_put, if_pos (Fields.get?_isSome_iff.mp (by rw [hget]; rfl)), h.names]
  · intro path item hitem
    by_cases heq : path = pathOf r op
    · subst heq
      rw [Fields.get?_put_self, Option.some.injEq] at hitem
      subst hitem
      exact Fields.nodup_names_put hfields
    · rw [Fields.get?_put_of_ne heq] at hitem
      exact h.record path item hitem
  · intro path item hitem
    by_cases heq : path = pathOf r op
    · subst heq
      rw [Fields.get?_put_self, Option.some.injEq] at hitem
      subst hitem
      rw [Node.get?, Fields.get?_put_of_ne (tagField_ne_key op.verb)]
      exact htag
    · rw [Fields.get?_put_of_ne heq] at hitem
      exact h.tag path item hitem

/-! ## The operation at a path and a verb -/

/-- The last one of some operations that is requested at a path with a verb. -/
def lastAt (r : Resource) (path : String) (verb : Verb) (ops : List Operation) :
    Option Operation :=
  ops.reverse.find? fun op => pathOf r op = path ∧ op.verb = verb

/-- The operation that the path items of a resource show at a path under a verb. -/
def operationAt (r : Resource) (path : String) (verb : Verb) : Option Operation :=
  lastAt r path verb r.operations

theorem lastAt_cons (r : Resource) (path : String) (verb : Verb) (op : Operation)
    (rest : List Operation) :
    lastAt r path verb (op :: rest) = (lastAt r path verb rest).or
      (if pathOf r op = path ∧ op.verb = verb then some op else none) := by
  unfold lastAt
  rw [List.reverse_cons, List.find?_append, List.find?_singleton]
  simp only [decide_eq_true_eq]

theorem operationAt_cases {r : Resource} {path : String} {verb : Verb} {op : Operation}
    (h : operationAt r path verb = some op) :
    op ∈ r.operations ∧ pathOf r op = path ∧ op.verb = verb := by
  have hmem := List.mem_of_find?_eq_some h
  have hplace := List.find?_some h
  exact ⟨List.mem_reverse.mp hmem, of_decide_eq_true hplace⟩

theorem operationAt_eq_none_iff {r : Resource} {path : String} {verb : Verb} :
    operationAt r path verb = none ↔
      ∀ op ∈ r.operations, ¬ (pathOf r op = path ∧ op.verb = verb) := by
  unfold operationAt lastAt
  rw [List.find?_eq_none]
  simp

section

variable {r : Resource} {options : Options} {backend : Option Backend}

/-- What is put into path items one after the other: the last one at each place stays. -/
theorem at?_offer {ops : List Operation} {paths paths' : Fields Node} (hpaths : ItemsOf r paths)
    (h : offer r options backend ops paths = .ok paths') (path : String) (verb : Verb) :
    Node.at? [path, verb.key] (.map paths') = match lastAt r path verb ops with
      | some op => (operation r op options backend).toOption
      | none => Node.at? [path, verb.key] (.map paths) := by
  induction ops generalizing paths with
  | nil =>
      rw [offer, Except.ok.injEq] at h
      subst h
      rfl
  | cons op rest ih =>
      rw [offer] at h
      cases hpart : operation r op options backend with
      | error e => rw [hpart] at h; cases h
      | ok part =>
          rw [hpart] at h
          obtain ⟨fields, hget⟩ := hpaths.item op
          have hrest := ih (hpaths.putOperation op part) h
          rw [hrest, at?_putOperation hget, lastAt_cons]
          cases lastAt r path verb rest with
          | some later => rfl
          | none =>
              rw [Option.none_or]
              -- no later operation comes to this place, so this one counts, or none
              by_cases hplace : pathOf r op = path ∧ op.verb = verb
              · obtain ⟨rfl, rfl⟩ := hplace
                rw [if_pos ⟨rfl, rfl⟩, if_pos ⟨rfl, rfl⟩]
                dsimp only
                rw [hpart]
                rfl
              · have hother : ¬ (path = pathOf r op ∧ verb.key = op.verb.key) := by
                  intro hsame
                  exact hplace ⟨hsame.1.symm, (key_injective hsame.2).symm⟩
                rw [if_neg hplace, if_neg hother]

theorem itemsOf_offer {ops : List Operation} {paths paths' : Fields Node} (hpaths : ItemsOf r paths)
    (h : offer r options backend ops paths = .ok paths') :
    ItemsOf r paths' ∧ ∀ op ∈ ops, ∃ part, operation r op options backend = .ok part := by
  induction ops generalizing paths with
  | nil =>
      rw [offer, Except.ok.injEq] at h
      subst h
      exact ⟨hpaths, by simp⟩
  | cons op rest ih =>
      rw [offer] at h
      cases hpart : operation r op options backend with
      | error e => rw [hpart] at h; cases h
      | ok part =>
          rw [hpart] at h
          obtain ⟨hitems, hrest⟩ := ih (hpaths.putOperation op part) h
          refine ⟨hitems, fun other hother => ?_⟩
          rcases List.mem_cons.mp hother with heq | hother
          · rw [heq]
            exact ⟨part, hpart⟩
          · exact hrest other hother

/-- Without operations there is only the name of the collection. -/
theorem at?_roots (path : String) (verb : Verb) :
    Node.at? [path, verb.key] (.map (roots r)) = none := by
  rw [Node.at?_pair]
  cases hget : Fields.get? path (roots r) with
  | none => rfl
  | some item =>
      have hitem : item = .map [(tagField, .text (Naming.pascalCase r.name))] :=
        (mem_roots (Fields.mem_of_get? hget)).2
      rw [Option.bind_some, hitem, Node.get?, Fields.get?, if_neg (tagField_ne_key verb)]
      rfl

variable {paths : Fields Node} (h : items r options backend = .ok paths)

include h

theorem offer_of_items : offer r options backend r.operations (roots r) = .ok paths := by
  rw [items] at h
  cases hu : r.unknownMethods with
  | error e => rw [hu] at h; cases h
  | ok unknown =>
      rw [hu] at h
      exact h

theorem itemsOf_items : ItemsOf r paths := (itemsOf_offer (itemsOf_roots r) (offer_of_items h)).1

theorem operation_of_items {op : Operation} (hop : op ∈ r.operations) :
    ∃ part, operation r op options backend = .ok part :=
  (itemsOf_offer (itemsOf_roots r) (offer_of_items h)).2 op hop

/-- **What a resource shows under a verb** is what its operation there is. -/
theorem at?_items_verb (path : String) (verb : Verb) :
    Node.at? [path, verb.key] (.map paths) = (operationAt r path verb).bind fun op =>
      (operation r op options backend).toOption := by
  rw [at?_offer (itemsOf_roots r) (offer_of_items h), at?_roots]
  unfold operationAt
  cases lastAt r path verb r.operations <;> rfl

/-- What a resource shows as the name of the collection. -/
theorem at?_items_tag (path : String) :
    Node.at? [path, tagField] (.map paths) = if path ∈ (roots r).names then
      some (.text (Naming.pascalCase r.name)) else none := by
  have hitems := itemsOf_items h
  rw [Node.at?_pair]
  by_cases hmem : path ∈ (roots r).names
  · rw [if_pos hmem]
    rw [← hitems.names, ← Fields.get?_isSome_iff, Option.isSome_iff_exists] at hmem
    obtain ⟨item, hitem⟩ := hmem
    rw [hitem, Option.bind_some, hitems.tag path item hitem]
  · rw [if_neg hmem]
    rw [← hitems.names, ← Fields.get?_eq_none_iff] at hmem
    rw [hmem, Option.bind_none]

theorem recordsAlong_items (path key : String) : Node.RecordsAlong [path, key] (.map paths) := by
  have hitems := itemsOf_items h
  exact ⟨hitems.nodup, fun item hitem => ⟨hitems.record path item hitem, fun _ _ => trivial⟩⟩

end

end ApiManifest.PathItem
