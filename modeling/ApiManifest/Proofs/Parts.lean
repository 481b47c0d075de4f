import ApiManifest.Proofs.Overlay

/-!
# What holds throughout a part

A condition on the leaves and on the fields of a part holds throughout it when all leaves and all
fields at any depth meet it. Merging keeps such a condition: what stands in the overlay stood in one
of the two parts, or is the overlay of two fields of one name. And a condition that holds throughout
a part shows in its tree.

One such condition is that all objects are in a region of the store.
-/

namespace ApiManifest

/-- `part` is `whole`, or stands somewhere in it as a key, as a value or as an item. -/
inductive Tree.Occurs (part : Tree) : (whole : Tree) → Prop where
  | self : Occurs part part
  | item {x : Tree} {items : List Tree} : x ∈ items → Occurs part x → Occurs part (.list items)
  | tupleItem {x : Tree} {items : List Tree} :
      x ∈ items → Occurs part x → Occurs part (.tuple items)
  | setItem {x : Tree} {items : List Tree} : x ∈ items → Occurs part x → Occurs part (.set items)
  | key {k v : Tree} {es : Entries} : (k, v) ∈ es → Occurs part k → Occurs part (.map es)
  | value {k v : Tree} {es : Entries} : (k, v) ∈ es → Occurs part v → Occurs part (.map es)

namespace Node

mutual

/-- All leaves meet one condition, and all fields at any depth another one. -/
def All (leaf : Value → Prop) (field : String → Node → Prop) : Node → Prop
  | .leaf v => leaf v
  | .list items => AllItems leaf field items
  | .map fields => AllFields leaf field fields

/-- The items of a list meet the conditions. -/
def AllItems (leaf : Value → Prop) (field : String → Node → Prop) : List Node → Prop
  | [] => True
  | x :: rest => All leaf field x ∧ AllItems leaf field rest

/-- The fields of a mapping meet the conditions. -/
def AllFields (leaf : Value → Prop) (field : String → Node → Prop) : List (String × Node) → Prop
  | [] => True
  | (name, part) :: rest => (field name part ∧ All leaf field part) ∧ AllFields leaf field rest

end

variable {leaf : Value → Prop} {field : String → Node → Prop}

theorem allItems_iff {items : List Node} :
    AllItems leaf field items ↔ ∀ x ∈ items, All leaf field x := by
  induction items with
  | nil => simp [AllItems]
  | cons x rest ih => simp [AllItems, ih]

theorem allFields_iff {fields : List (String × Node)} :
    AllFields leaf field fields ↔
      ∀ entry ∈ fields, field entry.1 entry.2 ∧ All leaf field entry.2 := by
  induction fields with
  | nil => simp [AllFields]
  | cons entry rest ih =>
      rcases entry with ⟨name, part⟩
      simp [AllFields, ih]

theorem allFields_put {name : String} {part : Node} {fields : Fields Node}
    (h : AllFields leaf field fields) (hf : field name part) (hp : All leaf field part) :
    AllFields leaf field (Fields.put name part fields) := by
  rw [allFields_iff] at h ⊢
  intro entry hentry
  rcases Fields.mem_put hentry with rfl | hold
  · exact ⟨hf, hp⟩
  · exact h entry hold

mutual

theorem All.mono {leaf' : Value → Prop} {field' : String → Node → Prop}
    (hl : ∀ v, leaf v → leaf' v) (hf : ∀ name part, field name part → field' name part) :
    ∀ {part : Node}, All leaf field part → All leaf' field' part
  | .leaf v, h => hl v h
  | .list _, h => AllItems.mono hl hf h
  | .map _, h => AllFields.mono hl hf h

theorem AllItems.mono {leaf' : Value → Prop} {field' : String → Node → Prop}
    (hl : ∀ v, leaf v → leaf' v) (hf : ∀ name part, field name part → field' name part) :
    ∀ {items : List Node}, AllItems leaf field items → AllItems leaf' field' items
  | [], _ => trivial
  | _ :: _, h => ⟨All.mono hl hf h.1, AllItems.mono hl hf h.2⟩

theorem AllFields.mono {leaf' : Value → Prop} {field' : String → Node → Prop}
    (hl : ∀ v, leaf v → leaf' v) (hf : ∀ name part, field name part → field' name part) :
    ∀ {fields : List (String × Node)}, AllFields leaf field fields → AllFields leaf' field' fields
  | [], _ => trivial
  | (_, _) :: _, h => ⟨⟨hf _ _ h.1.1, All.mono hl hf h.1.2⟩, AllFields.mono hl hf h.2⟩

end

mutual

/-- Two conditions that hold throughout a part hold there together. -/
theorem All.and {leaf' : Value → Prop} {field' : String → Node → Prop} :
    ∀ {part : Node}, All leaf field part → All leaf' field' part →
      All (fun v => leaf v ∧ leaf' v) (fun name part => field name part ∧ field' name part) part
  | .leaf _, h, h' => ⟨h, h'⟩
  | .list _, h, h' => AllItems.and h h'
  | .map _, h, h' => AllFields.and h h'

theorem AllItems.and {leaf' : Value → Prop} {field' : String → Node → Prop} :
    ∀ {items : List Node}, AllItems leaf field items → AllItems leaf' field' items →
      AllItems (fun v => leaf v ∧ leaf' v) (fun name part => field name part ∧ field' name part)
        items
  | [], _, _ => trivial
  | _ :: _, h, h' => ⟨All.and h.1 h'.1, AllItems.and h.2 h'.2⟩

theorem AllFields.and {leaf' : Value → Prop} {field' : String → Node → Prop} :
    ∀ {fields : List (String × Node)}, AllFields leaf field fields →
      AllFields leaf' field' fields →
      AllFields (fun v => leaf v ∧ leaf' v)
        (fun name part => field name part ∧ field' name part) fields
  | [], _, _ => trivial
  | (_, _) :: _, h, h' =>
      ⟨⟨⟨h.1.1, h'.1.1⟩, All.and h.1.2 h'.1.2⟩, AllFields.and h.2 h'.2⟩

end

/-! ## Merging -/

mutual

/-- A condition that holds throughout two parts holds throughout their overlay, if fields of one
name keep it. -/
theorem all_overlay {maps : Nat → Bool}
    (hf : ∀ name target source, field name target → field name source →
      field name (overlay maps target source)) :
    ∀ {target source : Node}, All leaf field target → All leaf field source →
      All leaf field (overlay maps target source)
  | target, source, ht, hs => match target, source, pairing target source with
    | _, _, .mappings fields source => allFields_overlay hf ht hs
    | _, _, .objects old new => by
        rw [overlay]
        split
        · exact ht
        · exact hs
    | _, _, .replaced hneither => by
        rw [overlay_of_not_blends hneither]
        exact hs

theorem allFields_overlay {maps : Nat → Bool}
    (hf : ∀ name target source, field name target → field name source →
      field name (overlay maps target source)) :
    ∀ {target : Fields Node} {source : List (String × Node)}, AllFields leaf field target →
      AllFields leaf field source → AllFields leaf field (overlayFields maps target source)
  | target, [], ht, _ => by rw [overlayFields]; exact ht
  | target, (name, part) :: rest, ht, hs => by
      rw [overlayFields]
      obtain ⟨⟨hfield, hpart⟩, hrest⟩ := hs
      cases hget : Fields.get? name target with
      | none => exact allFields_overlay hf (allFields_put ht hfield hpart) hrest
      | some existing =>
          have hexisting := allFields_iff.mp ht _ (Fields.mem_of_get? hget)
          exact allFields_overlay hf (allFields_put ht (hf name _ _ hexisting.1 hfield)
            (all_overlay hf hexisting.2 hpart)) hrest

end

/-! ## Parts without objects -/

/-- The value is a scalar, and not an object of the store. -/
def isScalar : Value → Prop
  | .scalar _ => True
  | .ref _ => False

/-- The value is a text or a truth value. -/
def isWord : Value → Prop
  | .scalar (.text _) | .scalar (.bool _) => True
  | _ => False

theorem isScalar_of_isWord {v : Value} (h : isWord v) : isScalar v := by
  cases v with
  | scalar s => trivial
  | ref id => exact h.elim

/-- The part refers to no object: it is the same in every store. -/
abbrev Plain (part : Node) : Prop := All isScalar (fun _ _ => True) part

/-- The fields refer to no object. -/
abbrev PlainFields (fields : Fields Node) : Prop := AllFields isScalar (fun _ _ => True) fields

mutual

/-- Where a part without objects is merged in, no objects meet. -/
theorem meetings_plain {maps : Nat → Bool} :
    ∀ {target source : Node}, All isScalar field source → meetings maps target source = []
  | target, source, hs => match target, source, pairing target source with
    | _, _, .mappings fields source => by
        rw [meetings]
        exact meetingsFields_plain hs
    | _, _, .objects old new => False.elim hs
    | _, _, .replaced hneither => meetings_of_not_blends hneither _

theorem meetingsFields_plain {maps : Nat → Bool} :
    ∀ {target : Fields Node} {source : List (String × Node)},
      AllFields isScalar field source → meetingsFields maps target source = []
  | target, [], _ => by rw [meetingsFields]
  | target, (name, part) :: rest, hs => by
      rw [meetingsFields]
      cases Fields.get? name target with
      | none => exact meetingsFields_plain hs.2
      | some existing =>
          dsimp only
          rw [meetings_plain hs.1.2, meetingsFields_plain hs.2]
          rfl

end

/-! ## Trees -/

theorem tree_scalar (st : Store) (s : Scalar) : tree st (.leaf (.scalar s)) = .scalar s := by
  rw [tree, Store.tree, Store.treeTo]

theorem trees_eq_map (st : Store) (items : List Node) : trees st items = items.map (tree st) := by
  induction items with
  | nil => rw [trees, List.map_nil]
  | cons x rest ih => rw [trees, ih, List.map_cons]

theorem entries_eq_map (st : Store) (fields : List (String × Node)) :
    entries st fields = fields.map fun (name, part) => (.text name, tree st part) := by
  induction fields with
  | nil => rw [entries, List.map_nil]
  | cons entry rest ih =>
      rcases entry with ⟨name, part⟩
      rw [entries, ih, List.map_cons]

/-- The tree of a part without objects is a scalar, or has the items or the fields of the part. -/
theorem tree_cases (st : Store) {part : Node} (h : All isScalar field part) :
    (∃ s, tree st part = .scalar s) ∨
      (∃ items, tree st part = .list (items.map (tree st)) ∧ AllItems isScalar field items) ∨
      ∃ fields, tree st part = .map (entries st fields) ∧ AllFields isScalar field fields := by
  cases part with
  | leaf v =>
      cases v with
      | scalar s => exact Or.inl ⟨s, tree_scalar st s⟩
      | ref id => exact False.elim h
  | list items => exact Or.inr (Or.inl ⟨items, by rw [tree, trees_eq_map], h⟩)
  | map fields => exact Or.inr (Or.inr ⟨fields, by rw [tree], h⟩)

/-- The entries of a mapping in the tree of a part without objects are fields of that part. -/
theorem field_of_occurs {st : Store} {es : Entries} {whole : Tree}
    (ho : Tree.Occurs (.map es) whole) :
    ∀ {part : Node}, tree st part = whole → All isScalar field part →
      ∀ entry ∈ es, ∃ name x, entry = (.text name, tree st x) ∧ field name x := by
  have hmap : ∀ {part : Node} {es : Entries}, tree st part = .map es → All isScalar field part →
      ∃ fields, entries st fields = es ∧ AllFields isScalar field fields := by
    intro part es ht hall
    have hcases := tree_cases st hall
    rw [ht] at hcases
    rcases hcases with ⟨_, h⟩ | ⟨_, h, _⟩ | ⟨fields, h, hfields⟩
    · cases h
    · cases h
    · exact ⟨fields, (Tree.map.inj h).symm, hfields⟩
  induction ho with
  | self =>
      intro part ht hall entry hentry
      obtain ⟨fields, rfl, hfields⟩ := hmap ht hall
      rw [entries_eq_map] at hentry
      obtain ⟨⟨name, x⟩, hmem, rfl⟩ := List.mem_map.mp hentry
      exact ⟨name, x, rfl, (allFields_iff.mp hfields _ hmem).1⟩
  | item hx _ ih =>
      intro part ht hall
      have hcases := tree_cases st hall
      rw [ht] at hcases
      rcases hcases with ⟨_, h⟩ | ⟨nodes, h, hnodes⟩ | ⟨_, h, _⟩
      · cases h
      · rw [Tree.list.inj h] at hx
        obtain ⟨node, hnode, rfl⟩ := List.mem_map.mp hx
        exact ih rfl (allItems_iff.mp hnodes node hnode)
      · cases h
  | tupleItem hx _ ih =>
      -- a document is made of lists and mappings only
      intro part ht hall
      have hcases := tree_cases st hall
      rw [ht] at hcases
      rcases hcases with ⟨_, h⟩ | ⟨_, h, _⟩ | ⟨_, h, _⟩ <;> cases h
  | setItem hx _ ih =>
      intro part ht hall
      have hcases := tree_cases st hall
      rw [ht] at hcases
      rcases hcases with ⟨_, h⟩ | ⟨_, h, _⟩ | ⟨_, h, _⟩ <;> cases h
  | key hmem ho ih =>
      -- the keys are texts, in which nothing else stands
      intro part ht hall
      obtain ⟨fields, rfl, hfields⟩ := hmap ht hall
      rw [entries_eq_map] at hmem
      obtain ⟨⟨name, x⟩, _, heq⟩ := List.mem_map.mp hmem
      cases heq
      cases ho
  | value hmem _ ih =>
      intro part ht hall
      obtain ⟨fields, rfl, hfields⟩ := hmap ht hall
      rw [entries_eq_map] at hmem
      obtain ⟨⟨name, x⟩, hx, heq⟩ := List.mem_map.mp hmem
      cases heq
      exact ih rfl (allFields_iff.mp hfields _ hx).2

/-! ## Regions -/

/-- All objects that the part refers to are in the region. -/
abbrev In (S : Nat → Prop) (part : Node) : Prop := All (Value.In S) (fun _ _ => True) part

variable {S : Nat → Prop} {maps : Nat → Bool}

theorem In.overlay {target source : Node} (ht : target.In S) (hs : source.In S) :
    (Node.overlay maps target source).In S :=
  all_overlay (fun _ _ _ _ _ => trivial) ht hs

/-- A part without objects is in every region. -/
theorem Plain.in {part : Node} (h : part.Plain) (S : Nat → Prop) : part.In S :=
  All.mono (fun v hv => by cases v with
    | scalar s => trivial
    | ref id => exact False.elim hv) (fun _ _ _ => trivial) h

mutual

/-- Where parts with objects of a region are merged, objects of that region meet. -/
theorem In.meetings : ∀ {target source : Node}, target.In S → source.In S →
    ∀ pair ∈ Node.meetings maps target source, S pair.1 ∧ S pair.2
  | target, source, ht, hs => match target, source, pairing target source with
    | _, _, .mappings fields source => In.meetingsFields ht hs
    | _, _, .objects old new => by
        intro pair h
        rw [Node.meetings] at h
        split at h
        · rw [List.mem_singleton.mp h]
          exact ⟨ht, hs⟩
        · cases h
    | _, _, .replaced hneither => by
        intro pair h
        rw [meetings_of_not_blends hneither] at h
        cases h

theorem In.meetingsFields : ∀ {target : Fields Node} {source : List (String × Node)},
    AllFields (Value.In S) (fun _ _ => True) target →
      AllFields (Value.In S) (fun _ _ => True) source →
        ∀ pair ∈ Node.meetingsFields maps target source, S pair.1 ∧ S pair.2
  | target, [], _, _, pair, h => absurd h (by simp [Node.meetingsFields])
  | target, (name, part) :: rest, ht, hs, pair, h => by
      rw [Node.meetingsFields] at h
      cases hget : Fields.get? name target with
      | none =>
          rw [hget] at h
          exact In.meetingsFields (allFields_put ht trivial hs.1.2) hs.2 pair h
      | some existing =>
          have hexisting := (allFields_iff.mp ht _ (Fields.mem_of_get? hget)).2
          rw [hget] at h
          rcases List.mem_append.mp h with h | h
          · exact In.meetings hexisting hs.1.2 pair h
          · exact In.meetingsFields (allFields_put ht trivial (In.overlay hexisting hs.1.2))
              hs.2 pair h

end

mutual

/-- A part with objects of a closed region is the same in all stores that agree on it. -/
theorem In.tree {st st' : Store} (ha : Store.Agree S st st') (hc : st.Closed S) :
    ∀ {part : Node}, part.In S → Node.tree st' part = Node.tree st part
  | .leaf v, h => by rw [Node.tree, Node.tree, ha.tree hc h]
  | .list items, h => by rw [Node.tree, Node.tree, In.trees ha hc h]
  | .map fields, h => by rw [Node.tree, Node.tree, In.entries ha hc h]

theorem In.trees {st st' : Store} (ha : Store.Agree S st st') (hc : st.Closed S) :
    ∀ {items : List Node}, AllItems (Value.In S) (fun _ _ => True) items →
      Node.trees st' items = Node.trees st items
  | [], _ => rfl
  | x :: rest, h => by rw [Node.trees, Node.trees, In.tree ha hc h.1, In.trees ha hc h.2]

theorem In.entries {st st' : Store} (ha : Store.Agree S st st') (hc : st.Closed S) :
    ∀ {fields : List (String × Node)}, AllFields (Value.In S) (fun _ _ => True) fields →
      Node.entries st' fields = Node.entries st fields
  | [], _ => rfl
  | (name, part) :: rest, h => by
      rw [Node.entries, Node.entries, In.tree ha hc h.1.2, In.entries ha hc h.2]

end

end Node
end ApiManifest
