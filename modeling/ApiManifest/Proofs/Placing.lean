import ApiManifest.Proofs.Patterns
import ApiManifest.Proofs.Reading
import ApiManifest.Proofs.TreeShape

/-!
# Parts as objects

A part of a document is merged as a tree, which makes a new part. Here every list and every mapping
of it is an object of the store instead, and stands in one place of one part. Merging such objects
in place makes of them what merging the trees makes, and does the same to the objects that the
leaves refer to.

The leaves are in a closed region, and the lists and mappings of the parts are outside of it. As the
parts of a build follow one pattern, an object of the one kind never meets one of the other.
-/

namespace ApiManifest

/-! ## Placed parts -/

/-- A part of a document each of whose lists and mappings is an object. -/
inductive Placed where
  | leaf (v : Value)
  | list (id : Nat) (items : List Placed)
  | map (id : Nat) (fields : List (String × Placed))

namespace Placed

/-- What refers to the part. -/
def value : Placed → Value
  | leaf v => v
  | list id _ | map id _ => .ref id

/-- The entries of a mapping with these fields. -/
def entries : List (String × Placed) → List (Value × Value)
  | [] => []
  | (name, x) :: rest => (.text name, x.value) :: entries rest

mutual

/-- The tree that the objects make up. -/
def part : Placed → Node
  | leaf v => .leaf v
  | list _ items => .list (itemParts items)
  | map _ fields => .map (fieldParts fields)

/-- The trees of the items of a list. -/
def itemParts : List Placed → List Node
  | [] => []
  | x :: rest => part x :: itemParts rest

/-- The trees of the fields of a mapping. -/
def fieldParts : List (String × Placed) → List (String × Node)
  | [] => []
  | (name, x) :: rest => (name, part x) :: fieldParts rest

end

mutual

/-- The objects are in the store, as the part has them. -/
def Stands (st : Store) : Placed → Prop
  | leaf _ => True
  | list id items => st.cells[id]? = some (.list (items.map value)) ∧ ItemsStand st items
  | map id fields => st.cells[id]? = some (.map (entries fields)) ∧ FieldsStand st fields

/-- The objects of the items of a list are in the store. -/
def ItemsStand (st : Store) : List Placed → Prop
  | [] => True
  | x :: rest => Stands st x ∧ ItemsStand st rest

/-- The objects of the fields of a mapping are in the store. -/
def FieldsStand (st : Store) : List (String × Placed) → Prop
  | [] => True
  | (_, x) :: rest => Stands st x ∧ FieldsStand st rest

end

mutual

/-- In how many places of the part the object stands as a list or as a mapping. -/
def places (id : Nat) : Placed → Nat
  | leaf _ => 0
  | list own items => (if own = id then 1 else 0) + placesItems id items
  | map own fields => (if own = id then 1 else 0) + placesFields id fields

/-- In how many places of the items of a list the object stands. -/
def placesItems (id : Nat) : List Placed → Nat
  | [] => 0
  | x :: rest => places id x + placesItems id rest

/-- In how many places of the fields of a mapping the object stands. -/
def placesFields (id : Nat) : List (String × Placed) → Nat
  | [] => 0
  | (_, x) :: rest => places id x + placesFields id rest

end

/-! ### Fields -/

variable {st st' : Store} {name : String} {x y : Placed} {fields : Fields Placed}

theorem get?_fieldParts (name : String) (fields : Fields Placed) :
    Fields.get? name (fieldParts fields) = (Fields.get? name fields).map part := by
  induction fields with
  | nil => rfl
  | cons entry rest ih =>
      rw [fieldParts, Fields.get?, Fields.get?, ih]
      split <;> rfl

theorem get?_fieldParts_of_some (hget : Fields.get? name fields = some x) :
    Fields.get? name (fieldParts fields) = some x.part := by
  rw [get?_fieldParts, hget]
  rfl

theorem fieldParts_put (name : String) (x : Placed) (fields : Fields Placed) :
    fieldParts (Fields.put name x fields) = Fields.put name x.part (fieldParts fields) := by
  induction fields with
  | nil => rfl
  | cons entry rest ih =>
      rw [fieldParts, Fields.put, Fields.put]
      split
      · rfl
      · rw [fieldParts, ih]

theorem find?_entries (st : Store) (name : String) (fields : Fields Placed) :
    st.find? (.text name) (entries fields) = (Fields.get? name fields).map value := by
  induction fields with
  | nil => rfl
  | cons entry rest ih =>
      rcases entry with ⟨n, x⟩
      rw [entries, Store.find?, Fields.get?, ih]
      by_cases hn : n = name
      · rw [if_pos hn, if_pos (Store.sameKey_text.mpr (by rw [hn]))]
        rfl
      · rw [if_neg hn, if_neg fun h => hn (by simpa using Store.sameKey_text.mp h)]

theorem put_entries (st : Store) (name : String) (x : Placed) (fields : Fields Placed) :
    st.put (.text name) x.value (entries fields) = entries (Fields.put name x fields) := by
  induction fields with
  | nil => rfl
  | cons entry rest ih =>
      rcases entry with ⟨n, old⟩
      rw [entries, Store.put, Fields.put]
      by_cases hn : n = name
      · rw [if_pos hn, if_pos (Store.sameKey_text.mpr (by rw [hn])), entries]
      · rw [if_neg hn, if_neg fun h => hn (by simpa using Store.sameKey_text.mp h), ih, entries]

/-- The entries are the same when one object stands for the field before and after. -/
theorem entries_put_of_value (hget : Fields.get? name fields = some x) (y : Placed)
    (hv : y.value = x.value) : entries (Fields.put name y fields) = entries fields := by
  induction fields with
  | nil => cases hget
  | cons entry rest ih =>
      rcases entry with ⟨n, old⟩
      rw [Fields.get?] at hget
      rw [Fields.put]
      split at hget
      · rename_i hn
        cases hget
        rw [if_pos hn, entries, entries, hv]
      · rename_i hn
        rw [if_neg hn, entries, entries, ih hget]

theorem fieldsStand_iff :
    FieldsStand st fields ↔ ∀ entry ∈ fields, entry.2.Stands st := by
  induction fields with
  | nil => simp [FieldsStand]
  | cons entry rest ih => simp [FieldsStand, ih]

theorem stands_get? (h : FieldsStand st fields) (hget : Fields.get? name fields = some x) :
    x.Stands st :=
  fieldsStand_iff.mp h _ (Fields.mem_of_get? hget)

theorem fieldsStand_put (h : FieldsStand st fields) (hx : x.Stands st) :
    FieldsStand st (Fields.put name x fields) := by
  rw [fieldsStand_iff] at h ⊢
  intro entry hentry
  rcases Fields.mem_put hentry with rfl | hold
  · exact hx
  · exact h entry hold

theorem places_le_of_get? (id : Nat) (hget : Fields.get? name fields = some x) :
    x.places id ≤ placesFields id fields := by
  induction fields with
  | nil => cases hget
  | cons entry rest ih =>
      rw [Fields.get?] at hget
      rw [placesFields]
      split at hget
      · cases hget
        exact Nat.le_add_right _ _
      · exact Nat.le_add_left_of_le (ih hget)

theorem placesFields_put_le (id : Nat) (name : String) (x : Placed) (fields : Fields Placed) :
    placesFields id (Fields.put name x fields) ≤ placesFields id fields + x.places id := by
  induction fields with
  | nil => simp [Fields.put, placesFields]
  | cons entry rest ih =>
      rw [Fields.put]
      split
      · simp only [placesFields]
        omega
      · simp only [placesFields]
        omega

/-- What takes the place of another part comes with its own objects and leaves without those. -/
theorem placesFields_put (id : Nat) (hget : Fields.get? name fields = some x) (y : Placed) :
    placesFields id (Fields.put name y fields) + x.places id
      = placesFields id fields + y.places id := by
  induction fields with
  | nil => cases hget
  | cons entry rest ih =>
      rw [Fields.get?] at hget
      rw [Fields.put]
      split at hget
      · rename_i hn
        cases hget
        rw [if_pos hn]
        simp only [placesFields]
        omega
      · rename_i hn
        rw [if_neg hn]
        have hrest := ih hget
        simp only [placesFields]
        omega

/-! ### What stays -/

mutual

/-- A part stands as long as its own objects stay. -/
theorem Stands.frame : ∀ {x : Placed}, x.Stands st →
    (∀ id, 0 < x.places id → st'.cells[id]? = st.cells[id]?) → x.Stands st'
  | .leaf _, _, _ => trivial
  | .list id items, h, hf =>
      ⟨(hf id (by simp only [places, if_true]; omega)).trans h.1,
        ItemsStand.frame h.2 fun other hother => hf other (Nat.add_pos_right _ hother)⟩
  | .map id fields, h, hf =>
      ⟨(hf id (by simp only [places, if_true]; omega)).trans h.1,
        FieldsStand.frame h.2 fun other hother => hf other (Nat.add_pos_right _ hother)⟩

theorem ItemsStand.frame : ∀ {items : List Placed}, ItemsStand st items →
    (∀ id, 0 < placesItems id items → st'.cells[id]? = st.cells[id]?) → ItemsStand st' items
  | [], _, _ => trivial
  | _ :: _, h, hf =>
      ⟨Stands.frame h.1 fun id hid => hf id (Nat.add_pos_left hid _),
        ItemsStand.frame h.2 fun id hid => hf id (Nat.add_pos_right _ hid)⟩

theorem FieldsStand.frame : ∀ {fields : List (String × Placed)}, FieldsStand st fields →
    (∀ id, 0 < placesFields id fields → st'.cells[id]? = st.cells[id]?) → FieldsStand st' fields
  | [], _, _ => trivial
  | (_, _) :: _, h, hf =>
      ⟨Stands.frame h.1 fun id hid => hf id (Nat.add_pos_left hid _),
        FieldsStand.frame h.2 fun id hid => hf id (Nat.add_pos_right _ hid)⟩

end

/-- Where a part is changed in place, the other fields stand as long as their objects stay. -/
theorem FieldsStand.frame_put (h : FieldsStand st fields)
    (hget : Fields.get? name fields = some x) (hy : y.Stands st')
    (hf : ∀ id, x.places id < placesFields id fields → st'.cells[id]? = st.cells[id]?) :
    FieldsStand st' (Fields.put name y fields) := by
  induction fields with
  | nil => cases hget
  | cons entry rest ih =>
      rcases entry with ⟨n, z⟩
      rw [Fields.get?] at hget
      rw [Fields.put]
      simp only [placesFields] at hf
      split at hget
      · rename_i hn
        cases hget
        rw [if_pos hn]
        exact ⟨hy, h.2.frame fun id hid => hf id (by omega)⟩
      · rename_i hn
        rw [if_neg hn]
        -- the part stands in the rest, with all its objects
        have hle := fun id => places_le_of_get? id hget
        exact ⟨h.1.frame fun id hid => hf id (by have := hle id; omega),
          ih h.2 hget fun id hid => hf id (by omega)⟩

/-! ### Making objects -/

/-- The objects counted by `places` have been made between the two stores, one for each place. -/
structure New (st st' : Store) (places : Nat → Nat) : Prop where
  once : ∀ id, places id ≤ 1
  range : ∀ id, 0 < places id → st.cells.size ≤ id ∧ id < st'.cells.size

theorem New.none (st st' : Store) : New st st' fun _ => 0 :=
  ⟨fun _ => Nat.zero_le 1, fun _ h => absurd h (Nat.lt_irrefl 0)⟩

theorem New.add {st₁ st₂ : Store} {places places' : Nat → Nat} (h : New st st₁ places)
    (h' : New st₁ st₂ places') (hle : st.cells.size ≤ st₁.cells.size)
    (hle' : st₁.cells.size ≤ st₂.cells.size) :
    New st st₂ fun id => places id + places' id where
  once id := by
    have := h.once id
    have := h'.once id
    -- what was made first is below what was made after it
    have := h.range id
    have := h'.range id
    omega
  range id hid := by
    have := h.range id
    have := h'.range id
    omega

theorem New.alloc {places : Nat → Nat} (h : New st st' places)
    (hle : st.cells.size ≤ st'.cells.size) (cell : Cell) :
    New st (st'.alloc cell).1 fun id => (if st'.cells.size = id then 1 else 0) + places id where
  once id := by
    have := h.once id
    have := h.range id
    split <;> omega
  range id hid := by
    have := h.range id
    rw [Store.alloc, Array.size_push]
    split at hid <;> omega

theorem Stands.extends (h : x.Stands st) (hn : ∀ id, 0 < x.places id → id < st.cells.size)
    (he : st.Extends st') : x.Stands st' := h.frame fun id hid => he.cells id (hn id hid)

mutual

/-- The objects that are made of a part are new, and stand in one place each. -/
theorem exists_placed : ∀ (part : Node) (st : Store), ∃ x : Placed, x.part = part ∧
    x.value = (Node.insert st part).2 ∧ x.Stands (Node.insert st part).1 ∧
      New st (Node.insert st part).1 (fun id => x.places id)
  | .leaf v, st => ⟨.leaf v, rfl, rfl, trivial, .none st st⟩
  | .list items, st => by
      obtain ⟨xs, rfl, hvalues, hstand, hnew⟩ := exists_placedItems items st
      have hext := Node.extends_insertAll (itemParts xs) st
      refine ⟨.list (Node.insertAll st (itemParts xs)).1.cells.size xs, rfl, rfl, ⟨?_, ?_⟩,
        hnew.alloc hext.size _⟩
      · rw [hvalues]
        exact Store.cells_alloc _ _
      · exact hstand.frame fun id hid =>
          (Store.extends_alloc _ _).cells id (hnew.range id hid).2
  | .map fields, st => by
      obtain ⟨xs, rfl, hvalues, hstand, hnew⟩ := exists_placedFields fields st
      have hext := Node.extends_insertFields (fieldParts xs) st
      refine ⟨.map (Node.insertFields st (fieldParts xs)).1.cells.size xs, rfl, rfl, ⟨?_, ?_⟩,
        hnew.alloc hext.size _⟩
      · rw [hvalues]
        exact Store.cells_alloc _ _
      · exact hstand.frame fun id hid =>
          (Store.extends_alloc _ _).cells id (hnew.range id hid).2

theorem exists_placedItems : ∀ (items : List Node) (st : Store), ∃ xs : List Placed,
    itemParts xs = items ∧ xs.map value = (Node.insertAll st items).2 ∧
      ItemsStand (Node.insertAll st items).1 xs ∧
      New st (Node.insertAll st items).1 (fun id => placesItems id xs)
  | [], st => ⟨[], rfl, rfl, trivial, .none st st⟩
  | part :: rest, st => by
      obtain ⟨x, rfl, hvalue, hx, hnew⟩ := exists_placed part st
      obtain ⟨xs, rfl, hvalues, hxs, hnews⟩ := exists_placedItems rest (Node.insert st x.part).1
      have hext := Node.extends_insertAll (itemParts xs) (Node.insert st x.part).1
      exact ⟨x :: xs, rfl, by rw [List.map_cons, hvalue, hvalues]; rfl,
        ⟨hx.extends (fun id hid => (hnew.range id hid).2) hext, hxs⟩,
        hnew.add hnews (Node.extends_insert x.part st).size hext.size⟩

theorem exists_placedFields : ∀ (fields : List (String × Node)) (st : Store),
    ∃ xs : List (String × Placed), fieldParts xs = fields ∧
      entries xs = (Node.insertFields st fields).2 ∧
      FieldsStand (Node.insertFields st fields).1 xs ∧
      New st (Node.insertFields st fields).1 (fun id => placesFields id xs)
  | [], st => ⟨[], rfl, rfl, trivial, .none st st⟩
  | (name, part) :: rest, st => by
      obtain ⟨x, rfl, hvalue, hx, hnew⟩ := exists_placed part st
      obtain ⟨xs, rfl, hvalues, hxs, hnews⟩ := exists_placedFields rest (Node.insert st x.part).1
      have hext := Node.extends_insertFields (fieldParts xs) (Node.insert st x.part).1
      exact ⟨(name, x) :: xs, rfl, by rw [entries, hvalue, hvalues]; rfl,
        ⟨hx.extends (fun id hid => (hnew.range id hid).2) hext, hxs⟩,
        hnew.add hnews (Node.extends_insert x.part st).size hext.size⟩

end

/-- The mapping that fields are made, which is a new object like all lists and mappings in it. -/
theorem exists_placedMap {st st' : Store} {id : Nat} {fields : Fields Node}
    (h : Node.insert st (.map fields) = (st', .ref id)) :
    ∃ placed, fieldParts placed = fields ∧ (map id placed).Stands st' ∧
      New st st' (fun other => (map id placed).places other) ∧ st.Extends st' := by
  have hext := Node.extends_insert (.map fields) st
  obtain ⟨x, hpart, hvalue, hstands, hnew⟩ := exists_placed (.map fields) st
  rw [h] at hext hvalue hstands hnew
  cases x with
  | leaf _ => cases hpart
  | list _ _ => cases hpart
  | map own placed =>
      cases hpart
      cases hvalue
      exact ⟨placed, rfl, hstands, hnew, hext⟩

end Placed
end ApiManifest
