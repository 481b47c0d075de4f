import ApiManifest.Proofs.LastDeclared

/-!
# The index of a document

Which keys a document has, and in which order: those of its definitions, those of its paths, and
those of each path item. The keys that a resource brings are known from its declaration alone.
Merging drops no key, moves none and adds none of its own. So the index of a document is that of its
resources, one after the other, with each key where it first comes.
-/

namespace ApiManifest

open PathItem (tagField pathOf roots)

variable {σ : Type}

/-! ## Names in the order in which they first come -/

theorem eraseDups_of_nodup {names : List String} (h : names.Nodup) : names.eraseDups = names := by
  induction names with
  | nil => rfl
  | cons name rest ih =>
      obtain ⟨hname, hrest⟩ := List.nodup_cons.mp h
      have hkept : rest.filter (fun other => !other == name) = rest := by
        refine List.filter_eq_self.mpr fun other hother => ?_
        have hne : other ≠ name := fun heq => hname (heq ▸ hother)
        simpa using hne
      rw [List.eraseDups_cons, hkept, ih hrest]

theorem eraseDups_filter (p : String → Bool) (names : List String) :
    (names.filter p).eraseDups = names.eraseDups.filter p := by
  -- by induction on the length, as the duplicates of the first name are dropped from the rest
  match names with
  | [] => rfl
  | name :: rest =>
      have hlength : (rest.filter fun other => !other == name).length < (name :: rest).length :=
        Nat.lt_succ_of_le (List.length_filter_le _ _)
      have hothers := eraseDups_filter p (rest.filter fun other => !other == name)
      rw [List.filter_filter] at hothers
      rw [List.eraseDups_cons, List.filter_cons, List.filter_cons]
      by_cases hp : p name = true
      · rw [if_pos hp, if_pos hp, List.eraseDups_cons, List.filter_filter, ← hothers]
        simp only [Bool.and_comm]
      · have hkept : rest.filter (fun other => p other && !other == name) = rest.filter p := by
          refine List.filter_congr fun other _ => ?_
          by_cases heq : other = name
          · simp [heq, hp]
          · simp [heq]
        rw [if_neg hp, if_neg hp, ← hothers, hkept]
termination_by names.length
decreasing_by exact hlength

/-- Leaving out at first what comes again changes nothing. -/
theorem eraseDups_append_eraseDups (names more : List String) :
    (names.eraseDups ++ more.eraseDups).eraseDups = (names ++ more).eraseDups := by
  have hnew : more.eraseDups.removeAll names.eraseDups = (more.removeAll names).eraseDups := by
    unfold List.removeAll
    rw [eraseDups_filter]
    refine List.filter_congr fun name _ => ?_
    simp [List.elem_eq_contains]
  rw [List.eraseDups_append, List.eraseDups_append, hnew,
    eraseDups_of_nodup (PathTemplate.nodup_eraseDups names),
    eraseDups_of_nodup (PathTemplate.nodup_eraseDups _)]

theorem eraseDups_eraseDups_append (names more : List String) :
    (names.eraseDups ++ more).eraseDups = (names ++ more).eraseDups := by
  rw [← eraseDups_append_eraseDups names.eraseDups more,
    eraseDups_of_nodup (PathTemplate.nodup_eraseDups names), eraseDups_append_eraseDups]

/-- A name that comes again can be left out. -/
theorem eraseDups_append_cons_of_mem {name : String} {names : List String} (h : name ∈ names)
    (more : List String) : (names ++ name :: more).eraseDups = (names ++ more).eraseDups := by
  rw [List.eraseDups_append, List.eraseDups_append]
  simp [List.removeAll, h]

theorem Fields.names_put_of_nodup {α : Type} {fields : Fields α} (h : fields.names.Nodup)
    (name : String) (value : α) :
    (fields.put name value).names = (fields.names ++ [name]).eraseDups := by
  rw [Fields.names_put]
  by_cases hmem : name ∈ fields.names
  · rw [if_pos hmem, eraseDups_append_cons_of_mem hmem, List.append_nil, eraseDups_of_nodup h]
  · have hnew : (fields.names ++ [name]).Nodup := by
      refine List.nodup_append.mpr ⟨h, List.nodup_singleton name, ?_⟩
      rintro old hold _ hname rfl
      rw [List.mem_singleton] at hname
      exact hmem (hname ▸ hold)
    rw [if_neg hmem, eraseDups_of_nodup hnew]

/-- **Merging fields keeps every name in its place**, and the new ones come last. -/
theorem Node.names_overlayFields {maps : Nat → Bool} {target : Fields Node}
    {source : List (String × Node)} (h : target.names.Nodup) :
    (overlayFields maps target source).names
      = (target.names ++ Fields.names source).eraseDups := by
  induction source generalizing target with
  | nil =>
      rw [overlayFields, show Fields.names ([] : Fields Node) = [] from rfl, List.append_nil,
        eraseDups_of_nodup h]
  | cons entry rest ih =>
      rcases entry with ⟨name, part⟩
      rw [overlayFields, ih (Fields.nodup_names_put h), Fields.names_put_of_nodup h,
        eraseDups_eraseDups_append, List.append_assoc]
      rfl

/-- A record with these names, in this order. -/
def Node.HasNames (names : List String) : Node → Prop
  | .map fields => Fields.names fields = names
  | _ => False

theorem Node.HasNames.overlay (maps : Nat → Bool) {old new : Node} {names more : List String}
    (hold : old.HasNames names.eraseDups) (hnew : new.HasNames more.eraseDups) :
    (Node.overlay maps old new).HasNames (names ++ more).eraseDups := by
  match old, new, hold, hnew with
  | .map fields, .map source, hold, hnew =>
      have hnodup : (Fields.names fields).Nodup := by
        rw [show Fields.names fields = names.eraseDups from hold]
        exact PathTemplate.nodup_eraseDups names
      rw [Node.overlay]
      show Fields.names (overlayFields maps fields source) = _
      rw [names_overlayFields hnodup, show Fields.names fields = _ from hold,
        show Fields.names source = _ from hnew, eraseDups_append_eraseDups]

/-! ## The index of a resource -/

/-- The resource offers exactly the operations that its methods name, in whatever order, however
often and beside whatever else. -/
theorem Resource.mem_operations_iff {r : Resource} {op : Operation} :
    op ∈ r.operations ↔ .text op.name ∈ r.methods := by
  have hall : op ∈ Operation.all := by cases op <;> decide
  unfold Resource.operations
  rw [List.mem_filter, List.any_eq_true]
  constructor
  · rintro ⟨_, method, hmethod, hsame⟩
    exact Tree.sameKey_text.mp hsame ▸ hmethod
  · intro h
    exact ⟨hall, _, h, Tree.sameKey_text.mpr rfl⟩

/-- The resource cannot be changed if its author says so, or if no operation of the catalogue that
its methods name changes it. -/
theorem Resource.isReadOnly_iff {r : Resource} :
    r.isReadOnly = true ↔ r.markedReadOnly = true ∨
      ∀ op : Operation, .text op.name ∈ r.methods → op.modifies = false := by
  unfold Resource.isReadOnly
  simp [← Resource.mem_operations_iff]

/-- The keys of the definitions of a resource. -/
def Definition.keysOf (r : Resource) : List String :=
  responseName r.name :: if r.isReadOnly then [] else [requestName r.name]

namespace PathItem

/-- The paths of a resource: that of its collection, and that of its items. -/
def pathsOf (r : Resource) : List String :=
  [(PathTemplate.parse r.path true).display, (PathTemplate.parse r.path false).display]

/-- The keys of the verbs of some operations that are requested at a path. -/
def keysAt (r : Resource) (path : String) (ops : List Operation) : List String :=
  (ops.filter fun op => pathOf r op = path).map fun op => op.verb.key

/-- The keys of the verbs that a resource offers at a path. -/
def verbsAt (path : String) (r : Resource) : List String := keysAt r path r.operations

theorem names_roots (r : Resource) : (roots r).names = (pathsOf r).eraseDups := by
  unfold roots pathsOf
  generalize (PathTemplate.parse r.path true).display = collection
  generalize (PathTemplate.parse r.path false).display = item
  by_cases heq : item = collection
  · simp [heq, Fields.names, List.eraseDups_cons]
  · simp [heq, Fields.names, List.eraseDups_cons]

theorem mem_pathsOf {r : Resource} {path : String} : path ∈ pathsOf r ↔ path ∈ (roots r).names := by
  rw [names_roots, List.mem_eraseDups]

/-- A resource offers nothing at the paths of others. -/
theorem verbsAt_eq_nil {r : Resource} {path : String} (h : path ∉ pathsOf r) :
    verbsAt path r = [] := by
  unfold verbsAt keysAt
  rw [List.map_eq_nil_iff, List.filter_eq_nil_iff]
  intro op _ hpath
  exact h (of_decide_eq_true hpath ▸ mem_pathsOf.mpr (pathOf_mem_roots r op))

theorem keysAt_cons (r : Resource) (path : String) (op : Operation) (rest : List Operation) :
    keysAt r path (op :: rest)
      = (if pathOf r op = path then [op.verb.key] else []) ++ keysAt r path rest := by
  unfold keysAt
  rw [List.filter_cons]
  by_cases h : pathOf r op = path <;> simp [h]

section

variable {r : Resource} {options : Options} {backend : Option Backend}

/-- **One operation** adds the key of its verb to the item at its path. -/
theorem hasNames_putOperation {names : String → List String} {paths : Fields Node} {op : Operation}
    {part : Node} (hitems : ItemsOf r paths)
    (h : ∀ path item, Fields.get? path paths = some item → item.HasNames (names path).eraseDups)
    {path : String} {item : Node}
    (hget : Fields.get? path (putOperation (pathOf r op) op.verb part paths) = some item) :
    item.HasNames (names path ++ keysAt r path [op]).eraseDups := by
  obtain ⟨fields, hfields⟩ := hitems.item op
  have hnames : Fields.names fields = (names (pathOf r op)).eraseDups := h _ _ hfields
  rw [putOperation_eq hfields] at hget
  rw [keysAt_cons]
  by_cases heq : path = pathOf r op
  · subst heq
    rw [Fields.get?_put_self, Option.some.injEq] at hget
    subst hget
    show Fields.names (Fields.put op.verb.key part fields) = _
    rw [Fields.names_put_of_nodup (hnames ▸ PathTemplate.nodup_eraseDups _), hnames, if_pos rfl,
      eraseDups_eraseDups_append]
    rfl
  · rw [Fields.get?_put_of_ne heq] at hget
    rw [if_neg (Ne.symm heq)]
    exact (List.append_nil (names path)).symm ▸ h path item hget

theorem hasNames_offer {ops : List Operation} (names : String → List String)
    {paths paths' : Fields Node} (hitems : ItemsOf r paths)
    (hnames : ∀ path item, Fields.get? path paths = some item →
      item.HasNames (names path).eraseDups)
    (h : offer r options backend ops paths = .ok paths') {path : String} {item : Node}
    (hget : Fields.get? path paths' = some item) :
    item.HasNames (names path ++ keysAt r path ops).eraseDups := by
  induction ops generalizing paths names with
  | nil =>
      cases h
      exact (List.append_nil (names path)).symm ▸ hnames path item hget
  | cons op rest ih =>
      rw [offer] at h
      cases hpart : operation r op options backend with
      | error e => rw [hpart] at h; cases h
      | ok part =>
          rw [hpart] at h
          have hrest := ih (fun path => names path ++ keysAt r path [op])
            (hitems.putOperation op part)
            (fun _ _ hstep => hasNames_putOperation hitems hnames hstep) h
          rw [List.append_assoc, keysAt_cons, keysAt, List.filter_nil, List.map_nil,
            List.append_nil, ← keysAt_cons] at hrest
          exact hrest

/-- **A path item of a resource** has the name of the collection and the verbs that it offers. -/
theorem hasNames_items {paths : Fields Node} (h : items r options backend = .ok paths)
    {path : String} {item : Node} (hget : Fields.get? path paths = some item) :
    item.HasNames (tagField :: verbsAt path r).eraseDups := by
  refine hasNames_offer (fun _ => [tagField]) (itemsOf_roots r) (fun path item hroot => ?_)
    (offer_of_items h) hget
  have hitem : item = .map [(tagField, .text (Naming.pascalCase r.name))] :=
    (mem_roots (Fields.mem_of_get? hroot)).2
  rw [hitem]
  rfl

end

end PathItem

/-! ## The index of several resources -/

namespace Document

open PathItem (pathsOf verbsAt)

/-- The keys of a document are those of some resources, one after the other. -/
structure IndexOf (rs : List Resource) (d : Document) : Prop where
  definitions : d.definitions.names = (rs.flatMap Definition.keysOf).eraseDups
  paths : d.paths.names = (rs.flatMap pathsOf).eraseDups
  items : ∀ path item, Fields.get? path d.paths = some item →
    item.HasNames (tagField :: rs.flatMap (verbsAt path)).eraseDups

theorem indexOf_nil (baseline : Entries) : IndexOf [] { baseline } where
  definitions := rfl
  paths := rfl
  items := by
    intro path item hget
    cases hget

section

variable {options : Options} {backend : Backend} {generator : Option (Generator σ)}
  {d d' : Document} {w w' : World σ} {rs : List Resource}

/-- **One resource** adds its keys, whatever is there already. -/
theorem IndexOf.addResource {r : Resource} (h : IndexOf rs d)
    (hadd : Returns (addResource d r options backend generator) w d' w') :
    IndexOf (rs ++ [r]) d' := by
  obtain ⟨definitions, items, _, hdefinitions, hitems, rfl, _⟩ := addResource_cases hadd
  have hkeys : definitions.names = Definition.keysOf r := Definition.names_ofResource hdefinitions
  have hpaths : items.names = (pathsOf r).eraseDups := by
    rw [(PathItem.itemsOf_items hitems).names, PathItem.names_roots]
  have hflat : ∀ keys : Resource → List String,
      (rs ++ [r]).flatMap keys = rs.flatMap keys ++ keys r := by
    intro keys
    simp
  constructor
  · have hnodup : d.definitions.names.Nodup := h.definitions ▸ PathTemplate.nodup_eraseDups _
    rw [Node.names_overlayFields hnodup, h.definitions, hkeys, eraseDups_eraseDups_append, hflat]
  · have hnodup : d.paths.names.Nodup := h.paths ▸ PathTemplate.nodup_eraseDups _
    rw [Node.names_overlayFields hnodup, h.paths, hpaths, eraseDups_append_eraseDups, hflat]
  · intro path item hget
    rw [hflat]
    cases hsource : Fields.get? path items with
    | none =>
        -- the resource has nothing at this path
        have habsent := Fields.get?_eq_none_iff.mp hsource
        rw [Node.get?_overlayFields_of_absent habsent] at hget
        rw [hpaths, List.mem_eraseDups] at habsent
        rw [PathItem.verbsAt_eq_nil habsent, List.append_nil]
        exact h.items path item hget
    | some new =>
        have hnew := PathItem.hasNames_items hitems hsource
        have hnames : items.names.Nodup := hpaths ▸ PathTemplate.nodup_eraseDups _
        rw [Node.get?_overlayFields hnames hsource, Option.some.injEq] at hget
        subst hget
        cases htarget : Fields.get? path d.paths with
        | none =>
            -- no earlier resource has anything at this path
            have habsent := Fields.get?_eq_none_iff.mp htarget
            rw [h.paths, List.mem_eraseDups] at habsent
            have hnone : rs.flatMap (verbsAt path) = [] := by
              refine List.flatMap_eq_nil_iff.mpr fun r' hr' => ?_
              refine PathItem.verbsAt_eq_nil fun hpath => habsent ?_
              exact List.mem_flatMap.mpr ⟨r', hr', hpath⟩
            rw [hnone]
            exact hnew
        | some old =>
            have hboth := (h.items path old htarget).overlay w.store.isMapping hnew
            rw [eraseDups_append_cons_of_mem List.mem_cons_self] at hboth
            exact hboth

theorem indexOf_of_assembles {models : List (Value × Value)} {before : List Resource}
    (hbefore : IndexOf before d)
    (h : Assembles options backend generator models d w rs d' w') : IndexOf (before ++ rs) d' := by
  induction h generalizing before with
  | done => exact (List.append_nil before).symm ▸ hbefore
  | next _ hadd _ ih =>
      have hrest := ih (hbefore.addResource hadd)
      rwa [List.append_assoc] at hrest

end

/--
**The index of a document.**

Whenever the build of a document returns, the keys of its definitions are, in the order in which
they first come and each of them once, the key of the answers of every resource and then that of its
requests, unless the resource cannot be changed. The keys of its paths are likewise the path of the
collection of every resource and then that of its items. And every path item has the name of a
collection and exactly the verbs of the operations that some resource offers at this path. What a
resource offers are the operations of the catalogue that its methods name, in whatever order and
however often, and whether it can be changed depends on nothing else but its mark.
-/
theorem index_of_resources {manifest : Value} {options : Options} {generator : Option (Generator σ)}
    {w w' : World σ} {rs : List Resource} {d : Document}
    (h : Builds manifest options generator w rs d w') :
    IndexOf rs d ∧ ∀ r ∈ rs,
      (∀ op : Operation, op ∈ r.operations ↔ .text op.name ∈ r.methods) ∧
      (r.isReadOnly = true ↔ r.markedReadOnly = true ∨
        ∀ op : Operation, .text op.name ∈ r.methods → op.modifies = false) := by
  obtain ⟨baseline, _, _, _, _, _, _, hassembles, _⟩ := h
  exact ⟨indexOf_of_assembles (indexOf_nil baseline) hassembles,
    fun _ _ => ⟨fun _ => Resource.mem_operations_iff, Resource.isReadOnly_iff⟩⟩

/-- Resources with one name in PascalCase and with paths within each other's, one of them marked as
read-only, one without a collection of its own, and methods that come twice or are unknown. -/
def crowdedManifest : Tree := .map [(.text "models", .map [
  (.text "x-y", .map [(.text "path", .text "/x/\x7bid\x7d"), (.text "readOnly", .bool true),
    (.text "methods", .list [.text "update", .text "fly", .text "list", .text "update"])]),
  (.text "x_y", .map [(.text "path", .text "/x/\x7bid\x7d/\x7bpart\x7d"),
    (.text "methods", .list [.text "create", .text "read"])]),
  (.text "root", .map [(.text "path", .text "/"),
    (.text "methods", .list [.text "read", .text "list"])])])]

/-- The index of the crowded document. -/
theorem index_of_resources_crowded : ∃ (rs : List Resource) (d : Document) (w' : World Unit),
    Builds (Store.empty.insert crowdedManifest).2 {} (none : Option (Generator Unit))
      { store := (Store.empty.insert crowdedManifest).1, examples := () } rs d w' ∧
    d.definitions.names = ["XYResponse", "XYModify", "RootResponse"] ∧
    d.paths.names = ["/x", "/x/\x7bid\x7d", "/x/\x7bid\x7d/\x7bpart\x7d", "/"] ∧
    IndexOf rs d ∧ ∀ r ∈ rs,
      (∀ op : Operation, op ∈ r.operations ↔ .text op.name ∈ r.methods) ∧
      (r.isReadOnly = true ↔ r.markedReadOnly = true ∨
        ∀ op : Operation, .text op.name ∈ r.methods → op.modifies = false) := by
  have hreturns : (outcome (build (Store.empty.insert crowdedManifest).2 {}
      (none : Option (Generator Unit)))
      { store := (Store.empty.insert crowdedManifest).1, examples := () }).1.toOption.any
      (fun d => d.definitions.names == ["XYResponse", "XYModify", "RootResponse"] &&
        d.paths.names == ["/x", "/x/\x7bid\x7d", "/x/\x7bid\x7d/\x7bpart\x7d", "/"]) = true := by
    rw [outcome_build_of_silent (by decide +kernel)]
    decide +kernel
  obtain ⟨d, w', h, hcheck⟩ := Returns.of_check hreturns
  obtain ⟨rs, hbuilds⟩ := build_iff.mp h
  obtain ⟨hdefinitions, hpaths⟩ := Bool.and_eq_true_iff.mp hcheck
  exact ⟨rs, d, w', hbuilds, eq_of_beq hdefinitions, eq_of_beq hpaths, index_of_resources hbuilds⟩

/-- A manifest in which the last resource, which can be changed, is also the example of a property
of the first one. The second one has an example for the same property, which marks it. -/
def markingStore : Store where
  cells := (aliasedStore.cells.setIfInBounds 0 (.list [.text "update"])).setIfInBounds 6
    (.map [(.text "readOnly", .scalar (.bool true))])

/-- It is not the index of the resources as the manifest declares them: an example that is merged
into a resource can make it read-only before its turn comes. -/
theorem not_index_of_declared :
    ¬ ∀ (manifest : Value) (options : Options) (generator : Option (Generator Unit))
      (w w' : World Unit) (rs : List Resource) (d : Document),
      declaredResources w.store manifest = .ok rs →
      Returns (build manifest options generator) w d w' → IndexOf rs d := by
  intro hall
  have hreturns : (outcome (build (.ref 12) {} (none : Option (Generator Unit)))
      { store := markingStore, examples := () }).1.toOption.any
      (fun d => d.definitions.names == ["XYResponse", "ZedResponse"]) = true := by
    rw [outcome_build_of_silent (by decide +kernel)]
    decide +kernel
  have hdeclared : (declaredResources markingStore (.ref 12)).toOption.any (fun rs =>
      (rs.flatMap Definition.keysOf).eraseDups == ["XYResponse", "ZedResponse", "ZedModify"])
        = true := by
    decide +kernel
  obtain ⟨d, w', h, hshown⟩ := Returns.of_check hreturns
  cases hrs : declaredResources markingStore (.ref 12) with
  | error e => rw [hrs] at hdeclared; cases hdeclared
  | ok rs =>
      rw [hrs] at hdeclared
      have hindex := (hall _ _ _ _ _ rs d hrs h).definitions
      rw [eq_of_beq hshown, eq_of_beq hdeclared] at hindex
      exact absurd hindex (by decide)

end Document
end ApiManifest
