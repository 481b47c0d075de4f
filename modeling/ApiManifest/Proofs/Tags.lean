import ApiManifest.Proofs.Offers
import ApiManifest.Proofs.Untouched

/-!
# Whose name a path item carries

A path item carries the name of a collection. Every resource puts its own name at both of its paths,
at the path of its collection and at that of its items, whether it offers anything there or not. So
where several resources come to one path it is the last of them that names it, even when all that is
offered there is another one's.
-/

namespace ApiManifest.Document

open PathItem (roots tagField pathOf)

variable {σ : Type}

section

variable {options : Options} {backend : Backend} {generator : Option (Generator σ)}
  {models : List (Value × Value)} {d d' : Document} {w w' : World σ} {rs : List Resource}

/-- A resource shows something at its own paths only. -/
theorem isSome_shownAt_path {r : Resource} {items : Fields Node}
    (h : PathItem.items r options (some backend) = .ok items) (path : String) :
    (PathItem.shownAt options backend [path] r).isSome ↔ path ∈ (roots r).names := by
  rw [PathItem.shownAt_eq h, ← (PathItem.itemsOf_items h).names, ← Fields.get?_isSome_iff, Node.at?,
    Node.get?]
  cases Fields.get? path items <;> rfl

/-- What a resource shows as the name of the collection at a path. -/
theorem shownAt_tag {r : Resource} {items : Fields Node}
    (h : PathItem.items r options (some backend) = .ok items) (path : String) :
    PathItem.shownAt options backend [path, tagField] r
      = if path ∈ (roots r).names then some (.text (Naming.pascalCase r.name)) else none := by
  rw [PathItem.shownAt_eq h, PathItem.at?_items_tag h]

/-- **The name at a path** is that of the last resource with this path. -/
theorem tag_of_assembles {baseline : Entries}
    (h : Assembles options backend generator models { baseline } w rs d' w') {path : String}
    {item : Node} (hitem : Fields.get? path d'.paths = some item) :
    ∃ before r after, rs = before ++ r :: after ∧ path ∈ (roots r).names ∧
      item.get? tagField = some (.text (Naming.pascalCase r.name)) ∧
      ∀ r' ∈ after, path ∉ (roots r').names := by
  have hitems := items_of_assembles h
  have hshows : ∀ r ∈ rs, PathItem.shownAt options backend [path, tagField] r
      = if path ∈ (roots r).names then some (.text (Naming.pascalCase r.name)) else none := by
    intro r hr
    obtain ⟨items, hok⟩ := hitems r hr
    exact shownAt_tag hok path
  have hrecords : ∀ r ∈ rs, RecordsAt options backend [path, tagField] r :=
    fun r _ items hok => PathItem.recordsAlong_items hok path tagField
  have hrecord : ∀ r ∈ rs, RecordsAt options backend [path] r :=
    fun r hr items hok => ⟨(hrecords r hr items hok).1, fun _ _ => trivial⟩
  -- the path is one of a resource, which shows its name there
  have hpath : (Node.at? [path] (.map d'.paths)).isSome := by
    rw [Node.at?, Node.get?, hitem]
    rfl
  obtain ⟨owner, howner, hroot⟩ := (isSome_at?_paths hrecord h).mp hpath
  obtain ⟨items, hok⟩ := hitems owner howner
  have hsome : (Node.at? [path, tagField] (.map d'.paths)).isSome := by
    refine (isSome_at?_paths hrecords h).mpr ⟨owner, howner, ?_⟩
    rw [hshows owner howner, if_pos ((isSome_shownAt_path hok path).mp hroot)]
    rfl
  obtain ⟨part, hpart⟩ := Option.isSome_iff_exists.mp hsome
  -- all that is shown there are texts, and a text hides another one
  have hhides : ∀ r ∈ rs, ∀ r' ∈ rs, ∀ lower upper,
      PathItem.shownAt options backend [path, tagField] r = some lower →
      PathItem.shownAt options backend [path, tagField] r' = some upper →
        Node.cover lower upper = upper := by
    intro _ _ r hr lower upper _ hupper
    rw [hshows r hr] at hupper
    split at hupper
    · cases hupper
      simp [Node.cover, Node.overlay]
    · cases hupper
  obtain ⟨before, r, after, rfl, hshown, hlast⟩ := last_shown hrecords h hhides hpart
  rw [hshows r (by simp)] at hshown
  split at hshown
  · rename_i hrootr
    refine ⟨before, r, after, rfl, hrootr, ?_, fun r' hr' hroot' => ?_⟩
    · rw [Node.at?_pair, hitem, Option.bind_some] at hpart
      rw [hpart, hshown]
    · have hnone := hlast r' hr'
      rw [hshows r' (by simp [hr']), if_pos hroot'] at hnone
      cases hnone
  · cases hshown

end

/--
**The last resource with a path names it.**

Whenever the build of a document returns, each of its path items carries the name, in PascalCase, of
the last declared resource whose collection or whose items are at that path, be it that it offers an
operation there or not.
-/
theorem tag_of_last_resource {manifest : Value} {options : Options}
    {generator : Option (Generator σ)} {w w' : World σ} {rs : List Resource} {d : Document}
    (h : Builds manifest options generator w rs d w') {path : String} {item : Node}
    (hitem : Fields.get? path d.paths = some item) :
    ∃ before r after, rs = before ++ r :: after ∧
      (∃ collection, (PathTemplate.parse r.path collection).display = path) ∧
      item.get? tagField = some (.text (Naming.pascalCase r.name)) ∧
      ∀ r' ∈ after, ∀ collection, (PathTemplate.parse r'.path collection).display ≠ path := by
  obtain ⟨_, _, _, _, _, _, _, hassembles, _⟩ := h
  obtain ⟨before, r, after, hsplit, hroot, htag, hlast⟩ := tag_of_assembles hassembles hitem
  refine ⟨before, r, after, hsplit, PathItem.mem_names_roots.mp hroot, htag, ?_⟩
  intro r' hr' collection hpath
  exact hlast r' hr' (PathItem.mem_names_roots.mpr ⟨collection, hpath⟩)

/-- Projects, and the settings of each project, which are no collection: without one, the path of
the settings' collection is that of a project. -/
def nestedResources : Tree := .map [(.text "models", .map [
  (.text "project", .map [(.text "path", .text "/projects/\x7bid\x7d"),
    (.text "methods", .list [.text "read"])]),
  (.text "settings", .map [(.text "path", .text "/projects/\x7bid\x7d/settings"),
    (.text "methods", .list [.text "read"])])])]

/-- The build of the projects and their settings, and what stands at the path of a project. -/
theorem build_nested : ∃ (rs : List Resource) (d : Document) (w' : World Unit) (item op : Node),
    Builds (Store.empty.insert nestedResources).2 {} (none : Option (Generator Unit))
      { store := (Store.empty.insert nestedResources).1, examples := () } rs d w' ∧
    Fields.get? "/projects/\x7bid\x7d" d.paths = some item ∧ item.get? "get" = some op ∧
    (item.get? tagField).any (Node.isText "Settings") = true := by
  have hreturns : (outcome (build (Store.empty.insert nestedResources).2 {}
      (none : Option (Generator Unit)))
      { store := (Store.empty.insert nestedResources).1, examples := () }).1.toOption.any
      (fun d => (Fields.get? "/projects/\x7bid\x7d" d.paths).any fun item =>
        (item.get? "get").isSome && (item.get? tagField).any (Node.isText "Settings")) = true := by
    rw [outcome_build_of_silent (by decide +kernel)]
    decide +kernel
  obtain ⟨d, w', h, hcheck⟩ := Returns.of_check hreturns
  obtain ⟨rs, hbuilds⟩ := build_iff.mp h
  obtain ⟨item, hitem, hboth⟩ := (Option.any_eq_true _ _).mp hcheck
  obtain ⟨hget, htag⟩ := Bool.and_eq_true_iff.mp hboth
  obtain ⟨op, hop⟩ := Option.isSome_iff_exists.mp hget
  exact ⟨rs, d, w', item, op, hbuilds, hitem, hop, htag⟩

/-- The path of a project carries the name of the settings. -/
theorem tag_of_last_resource_nested : ∃ (rs : List Resource) (d : Document) (w' : World Unit)
    (item : Node),
    Builds (Store.empty.insert nestedResources).2 {} (none : Option (Generator Unit))
      { store := (Store.empty.insert nestedResources).1, examples := () } rs d w' ∧
    Fields.get? "/projects/\x7bid\x7d" d.paths = some item ∧
    ∃ before r after, rs = before ++ r :: after ∧
      (∃ collection, (PathTemplate.parse r.path collection).display = "/projects/\x7bid\x7d") ∧
      item.get? tagField = some (.text (Naming.pascalCase r.name)) ∧
      ∀ r' ∈ after, ∀ collection,
        (PathTemplate.parse r'.path collection).display ≠ "/projects/\x7bid\x7d" := by
  obtain ⟨rs, d, w', item, op, h, hitem, _, _⟩ := build_nested
  exact ⟨rs, d, w', item, h, hitem, tag_of_last_resource h hitem⟩

/-- Who names a path need not offer anything there. -/
theorem not_tag_of_owner :
    ¬ ∀ (manifest : Value) (options : Options) (generator : Option (Generator Unit))
      (w w' : World Unit) (rs : List Resource) (d : Document),
      Builds manifest options generator w rs d w' →
      ∀ (path : String) (item : Node) (verb : Verb) (op : Node),
        Fields.get? path d.paths = some item → item.get? verb.key = some op →
        ∃ r ∈ rs, (∃ op ∈ r.operations, pathOf r op = path) ∧
          item.get? tagField = some (.text (Naming.pascalCase r.name)) := by
  intro hall
  obtain ⟨rs, d, w', item, op, h, hitem, hop, htag⟩ := build_nested
  obtain ⟨r, hr, ⟨offered, hoffered, hpath⟩, hname⟩ := hall _ _ _ _ _ _ _ h _ _ .get op hitem hop
  -- no resource of that name offers an operation at the path
  have hnone := check_of_builds (fun rs => rs.all fun r => Naming.pascalCase r.name != "Settings" ||
    r.operations.all fun op => pathOf r op != "/projects/\x7bid\x7d")
    (by decide +kernel) (by decide +kernel) h
  have hsettings : Naming.pascalCase r.name = "Settings" := by
    rw [hname] at htag
    simpa [Node.isText] using htag
  have hnowhere := List.all_eq_true.mp hnone r hr
  rw [hsettings, bne_self_eq_false, Bool.false_or] at hnowhere
  have hother := List.all_eq_true.mp hnowhere offered hoffered
  exact bne_iff_ne.mp hother hpath

end ApiManifest.Document
