import ApiManifest.Proofs.Placing

/-!
# Merging placed parts in place

Merging the object of one part into the object of another, in place, against merging the two
parts. One entry of the source is taken at a time. What an entry leaves is again a target whose
objects stand in one place each, and the rest of the source is still as it was: this carries
the merge through all entries, and through the mappings below them.
-/

namespace ApiManifest

namespace Placed

variable {B : Nat → Prop} {m m' c c' : Store} {i j : Nat} {name : String} {y : Placed}
  {fields fields' source : Fields Placed} {field : String → Pattern}

/-- The mapping `i` with its fields, and the fields that come to be merged into it, in the store
`c`. The store `m` is the one in which the parts are merged as trees; both have the same objects
in the region `B`, where the leaves are. -/
structure Ready (B : Nat → Prop) (m c : Store) (i : Nat) (fields source : Fields Placed)
    (field : String → Pattern) : Prop where
  closed : m.Closed B
  agree : Store.Agree B m c
  stands : (map i fields).Stands c
  coming : FieldsStand c source
  /-- An object stands in one place of one of the two. -/
  once : ∀ id, (map i fields).places id + placesFields id source ≤ 1
  /-- No list and no mapping is in the region. -/
  outside : ∀ id, B id → (map i fields).places id + placesFields id source = 0
  target_in : Node.AllFields (Value.In B) (fun _ _ => True) (fieldParts fields)
  source_in : Node.AllFields (Value.In B) (fun _ _ => True) (fieldParts source)
  target_follows : Node.FollowsFields (fieldParts fields) field
  source_follows : Node.FollowsFields (fieldParts source) field

/-- What a merge in place leaves, when `more` counts the places of the objects that came with the
source, and `m'` is what merging as trees leaves: the mapping `i` has the fields `fields'` now. -/
structure Merged (B : Nat → Prop) (more : Nat → Nat) (m' c c' : Store) (i : Nat)
    (fields fields' : Fields Placed) : Prop where
  closed : m'.Closed B
  agree : Store.Agree B m' c'
  stands : (map i fields').Stands c'
  places : ∀ id, placesFields id fields' ≤ placesFields id fields + more id
  /-- Only the region and the objects of the two parts are changed. -/
  frame : ∀ id, ¬ B id → i ≠ id → placesFields id fields + more id = 0 →
    c'.cells[id]? = c.cells[id]?

theorem Merged.trans {more more' : Nat → Nat} {m₁ m₂ c₁ c₂ : Store}
    {fields₁ fields₂ : Fields Placed} (h : Merged B more m₁ c c₁ i fields fields₁)
    (h' : Merged B more' m₂ c₁ c₂ i fields₁ fields₂) :
    Merged B (fun id => more id + more' id) m₂ c c₂ i fields fields₂ where
  closed := h'.closed
  agree := h'.agree
  stands := h'.stands
  places id := by
    have := h.places id
    have := h'.places id
    omega
  frame id hB hi hzero := by
    have := h.places id
    rw [h'.frame id hB hi (by omega), h.frame id hB hi (by omega)]

/-! ## One entry -/

theorem Ready.not_in_region (h : Ready B m c i fields source field) {id : Nat}
    (hid : 0 < (map i fields).places id + placesFields id source) : ¬ B id := by
  intro hB
  have := h.outside id hB
  omega

theorem Ready.cell (h : Ready B m c i fields source field) :
    c.cells[i]? = some (.map (entries fields)) := h.stands.1

theorem Ready.entries? (h : Ready B m c i fields source field) :
    c.entries? (.ref i) = some (entries fields) := Store.entries?_ref.mpr h.cell

/-- Objects of the region are mappings in both stores or in neither. -/
theorem Ready.isMapping (h : Ready B m c i fields source field) {id : Nat} (hid : B id) :
    c.isMapping id = m.isMapping id := by
  unfold Store.isMapping
  rw [h.agree.entries? (v := .ref id) hid]

/-- The first entry alone is ready too. -/
theorem Ready.head {rest : Fields Placed} (h : Ready B m c i fields ((name, y) :: rest) field) :
    Ready B m c i fields [(name, y)] field where
  closed := h.closed
  agree := h.agree
  stands := h.stands
  coming := ⟨h.coming.1, trivial⟩
  once id := by
    have := h.once id
    simp only [placesFields] at this ⊢
    omega
  outside id hB := by
    have := h.outside id hB
    simp only [placesFields] at this ⊢
    omega
  target_in := h.target_in
  source_in := ⟨h.source_in.1, trivial⟩
  target_follows := h.target_follows
  source_follows := ⟨h.source_follows.1, trivial⟩

/-- When the first entry is merged, the others are ready to be merged. -/
theorem Ready.tail {rest : Fields Placed} {m₁ c₁ : Store} {part : Placed}
    (h : Ready B m c i fields ((name, y) :: rest) field)
    (hm : Merged B (fun id => y.places id) m₁ c c₁ i fields (Fields.put name part fields))
    (hin : part.part.In B) (hfollows : part.part.Follows (field name)) :
    Ready B m₁ c₁ i (Fields.put name part fields) rest field where
  closed := hm.closed
  agree := hm.agree
  stands := hm.stands
  coming := h.coming.2.frame fun id hid => by
    have honce := h.once id
    simp only [placesFields, places] at honce
    -- an object of the rest is none of the target and none of the first entry
    refine hm.frame id (h.not_in_region ?_) (fun heq => ?_) (by omega)
    · simp only [placesFields, places]
      omega
    · rw [if_pos heq] at honce
      omega
  once id := by
    have honce := h.once id
    have := hm.places id
    simp only [placesFields, places] at honce ⊢
    omega
  outside id hB := by
    have houtside := h.outside id hB
    have := hm.places id
    simp only [placesFields, places] at houtside ⊢
    omega
  target_in := by
    rw [fieldParts_put]
    exact Node.allFields_put h.target_in trivial hin
  source_in := h.source_in.2
  target_follows := by
    rw [fieldParts_put]
    exact Node.followsFields_put h.target_follows hfollows
  source_follows := h.source_follows.2

/-- The source's part is put into the mapping, where it is new or takes the place of another. -/
theorem Ready.merged_put (h : Ready B m c i fields [(name, y)] field) :
    Merged B (fun id => y.places id) m c
      (c.update i (.map (c.put (.text name) y.value (entries fields)))) i fields
      (Fields.put name y fields) := by
  have hlt : i < c.cells.size := (Array.getElem?_eq_some_iff.mp h.cell).1
  have hi : ¬ B i := h.not_in_region (by simp only [places, if_true]; omega)
  have hother : ∀ id, i ≠ id → (c.update i (.map (c.put (.text name) y.value
      (entries fields)))).cells[id]? = c.cells[id]? := fun id hne => by
    rw [Store.cells_update, if_neg hne]
  have honce : ∀ id, 0 < placesFields id fields + y.places id → i ≠ id := by
    intro id hid heq
    have := h.once id
    simp only [places, placesFields, if_pos heq] at this
    omega
  constructor
  · exact h.closed
  · refine ⟨(Array.size_setIfInBounds).trans h.agree.size, fun id hB => ?_⟩
    rw [hother id fun heq => hi (heq ▸ hB), h.agree.cells id hB]
  · refine ⟨?_, fieldsStand_put ?_ ?_⟩
    · rw [Store.cells_update, if_pos rfl, if_pos hlt, put_entries]
    · exact h.stands.2.frame fun id hid => hother id (honce id (by omega))
    · exact h.coming.1.frame fun id hid => hother id (honce id (by omega))
  · exact fun id => placesFields_put_le id name y fields
  · exact fun id _ hne _ => hother id hne

/-- Two objects of the region are merged in place, which changes neither of the two parts. -/
theorem Ready.merged_objects (h : Ready B m c i fields [(name, y)] field) {old new : Nat}
    (hold : B old) (hnew : B new) (hmaps : m.isMapping old = true)
    (hm : Returns (Store.merge old new) m () m') :
    ∃ c', (∀ depth, m.cells.size + 1 ≤ depth → Returns (Store.mergeTo depth old new) c () c') ∧
      Merged B (fun id => y.places id) m' c c' i fields fields := by
  unfold Returns at hm
  rw [Store.outcome_merge] at hm
  -- both stores are changed alike, and neither of them outside of the region
  have halike := Store.mergeTo_within B (m.cells.size + 1) old new m c hold hnew hmaps h.closed
    h.agree
  have hwrites := (Store.mergeTo_within B (m.cells.size + 1) old new c c hold hnew
    (by rw [h.isMapping hold]; exact hmaps) (h.closed.of_agree h.agree) (.refl B c)).writes
  rcases hout : outcome (Store.mergeTo (m.cells.size + 1) old new) c with ⟨r, c'⟩
  have hresult := halike.result
  have hagree := halike.agree
  have hclosed := halike.writes.closed
  rw [hm] at hresult hagree hclosed
  rw [hout] at hresult hagree hwrites
  dsimp only at hresult hagree hclosed hwrites
  subst hresult
  have hstays : ∀ id, 0 < (map i fields).places id → c'.cells[id]? = c.cells[id]? :=
    fun id hid => hwrites.frame id (h.not_in_region (by omega))
  exact ⟨c', fun depth hdepth => Store.mergeTo_mono hdepth hout,
    { closed := hclosed
      agree := hagree
      stands := h.stands.frame hstays
      places := fun id => Nat.le_add_right _ _
      frame := fun id hB _ _ => hwrites.frame id hB }⟩

/-- Where no two mappings meet, the part takes its place at every depth of merging. -/
theorem Ready.replaced (h : Ready B m c i fields [(name, y)] field)
    (hnot : ∀ x old new, Fields.get? name fields = some x → x.value = .ref old →
      y.value = .ref new → (c.isMapping old && c.isMapping new) = false) :
    ∃ c', Merged B (fun id => y.places id) m c c' i fields (Fields.put name y fields) ∧
      ∀ depth, Returns (Store.mergeEntry (Store.mergeTo depth) i (.text name) y.value) c () c' := by
  refine ⟨_, h.merged_put, fun depth => ?_⟩
  unfold Returns
  rw [Store.outcome_mergeEntry, h.entries?, Option.getD_some, find?_entries]
  split
  · rename_i old new hfind hvalue
    obtain ⟨x, hget, hx⟩ := Option.map_eq_some_iff.mp hfind
    rw [hnot x old new hget hx hvalue]
    rfl
  · rfl

/-- Where two mappings meet, merging the entry is merging them. -/
theorem Ready.returns_inner (h : Ready B m c i fields source field) {x : Placed} {k l : Nat}
    {inner : Nat → Nat → Store.Work Unit} (hget : Fields.get? name fields = some x)
    (hx : x.value = .ref k) (hy : y.value = .ref l)
    (hboth : (c.isMapping k && c.isMapping l) = true) (hrun : Returns (inner k l) c () c') :
    Returns (Store.mergeEntry inner i (.text name) y.value) c () c' := by
  unfold Returns
  rw [Store.outcome_mergeEntry, h.entries?, Option.getD_some, find?_entries, hget,
    Option.map_some, hx, hy]
  dsimp only
  rw [if_pos hboth]
  exact hrun

/-- The part that merging an entry as trees gives keeps to the region and to the pattern. -/
theorem Ready.merged_part (h : Ready B m c i fields [(name, y)] field) {x : Placed} {part : Node}
    (hget : Fields.get? name fields = some x)
    (hm : Returns (Node.merge x.part y.part) m part m') :
    part.In B ∧ part.Follows (field name) := by
  have hold := get?_fieldParts_of_some hget
  have hin := (Node.allFields_iff.mp h.target_in _ (Fields.mem_of_get? hold)).2
  obtain ⟨rfl, _⟩ := (Node.merge_iff _ _).mp hm
  exact ⟨Node.In.overlay hin h.source_in.1.2,
    Node.follows_overlay (Node.follows_get? h.target_follows hold) h.source_follows.1⟩

/-- At an entry leaves meet leaves, lists meet lists and mappings meet mappings. -/
theorem Ready.kinds (h : Ready B m c i fields [(name, y)] field) {x : Placed}
    (hget : Fields.get? name fields = some x) : Node.Matches x.part y.part :=
  Node.matches_of_follows (Node.follows_get? h.target_follows (get?_fieldParts_of_some hget))
    h.source_follows.1

/-- Below an entry at which two mappings meet, their fields are ready to be merged. -/
theorem Ready.below {k l : Nat} {inner more : Fields Placed}
    (h : Ready B m c i fields [(name, map l more)] field)
    (hget : Fields.get? name fields = some (map k inner)) :
    ∃ below, Ready B m c k inner more below := by
  have hold := get?_fieldParts_of_some hget
  have hle := fun id => places_le_of_get? id hget
  have hsource := h.source_follows.1
  obtain ⟨below, hfield, hinner⟩ :=
    Node.follows_map_iff.mp (Node.follows_get? h.target_follows hold)
  rw [hfield] at hsource
  exact ⟨below, {
    closed := h.closed
    agree := h.agree
    stands := stands_get? h.stands.2 hget
    coming := h.coming.1.2
    once := fun id => by
      have honce := h.once id
      have := hle id
      simp only [places, placesFields] at honce this ⊢
      omega
    outside := fun id hB => by
      have houtside := h.outside id hB
      have := hle id
      simp only [places, placesFields] at houtside this ⊢
      omega
    target_in := (Node.allFields_iff.mp h.target_in _ (Fields.mem_of_get? hold)).2
    source_in := h.source_in.1.2
    target_follows := hinner
    source_follows := hsource }⟩

/-- What a merge below an entry leaves, it leaves for the mapping as a whole. -/
theorem Ready.merged_below {k l : Nat} {inner inner' more : Fields Placed}
    (h : Ready B m c i fields [(name, map l more)] field)
    (hget : Fields.get? name fields = some (map k inner))
    (hm : Merged B (fun id => placesFields id more) m' c c' k inner inner') :
    Merged B (fun id => (map l more).places id) m' c c' i fields
      (Fields.put name (map k inner') fields) := by
  have hle := fun id => places_le_of_get? id hget
  have hplaces : ∀ id, (map k inner').places id
      ≤ (map k inner).places id + placesFields id more := by
    intro id
    have := hm.places id
    simp only [places]
    omega
  -- what is neither the mapping below nor part of the two stays
  have hframe : ∀ id, ¬ B id → (map k inner).places id + placesFields id more = 0 →
      c'.cells[id]? = c.cells[id]? := by
    intro id hB hzero
    simp only [places] at hzero
    refine hm.frame id hB (fun heq => ?_) (by omega)
    rw [if_pos heq] at hzero
    omega
  constructor
  · exact hm.closed
  · exact hm.agree
  · refine ⟨?_, h.stands.2.frame_put hget hm.stands fun id hid => hframe id ?_ ?_⟩
    · have honce := h.once i
      have hi := hle i
      simp only [places, placesFields, if_true] at honce hi
      rw [hframe i (h.not_in_region (by simp only [places, if_true]; omega))
        (by simp only [places]; omega), h.cell, entries_put_of_value hget (map k inner') rfl]
    · exact h.not_in_region (by simp only [places]; omega)
    · have honce := h.once id
      simp only [places, placesFields] at honce hid ⊢
      omega
  · intro id
    have hput := placesFields_put id hget (map k inner')
    have := hplaces id
    simp only [places] at hput this ⊢
    omega
  · intro id hB _ hzero
    have hi := hle id
    refine hframe id hB ?_
    simp only [places] at hi hzero ⊢
    omega

/-! ## All entries -/

/-- The fields that are left of the object `j`, behind the entries `done`; it has `count` entries in
all. The object is none of the target, nor of its own fields. -/
structure Left (B : Nat → Prop) (c : Store) (i j count : Nat) (done : List (Value × Value))
    (fields source : Fields Placed) : Prop where
  outside : ¬ B j
  apart : (map i fields).places j + placesFields j source = 0
  cell : c.cells[j]? = some (.map (done ++ entries source))
  count : (done ++ entries source).length = count

/-- When the first field has been merged, the others are left. -/
theorem Left.tail {count : Nat} {done : List (Value × Value)} {rest : Fields Placed}
    {m₁ c₁ : Store} (h : Left B c i j count done fields ((name, y) :: rest))
    (hm : Merged B (fun id => y.places id) m₁ c c₁ i fields fields') :
    Left B c₁ i j count (done ++ [(.text name, y.value)]) fields' rest where
  outside := h.outside
  apart := by
    have hapart := h.apart
    have := hm.places j
    simp only [places, placesFields] at hapart this ⊢
    omega
  cell := by
    have hapart := h.apart
    simp only [places, placesFields] at hapart
    have hi : i ≠ j := by
      intro heq
      rw [if_pos heq] at hapart
      omega
    rw [hm.frame j h.outside hi (by omega), h.cell, entries, List.append_cons]
  count := by
    rw [← h.count, entries, ← List.append_cons]

/-- Merging fields in place comes to what merging them as trees comes to. -/
def FieldsMerge (source : Fields Placed) : Prop :=
  ∀ ⦃B : Nat → Prop⦄ ⦃m m' c : Store⦄ ⦃i j count : Nat⦄ ⦃done : List (Value × Value)⦄
    ⦃fields : Fields Placed⦄ ⦃field : String → Pattern⦄ ⦃result : Fields Node⦄,
    Ready B m c i fields source field → Left B c i j count done fields source →
    Returns (Node.mergeFields (fieldParts fields) (fieldParts source)) m result m' →
    ∃ fields' c' depth, fieldParts fields' = result ∧
      Merged B (fun id => placesFields id source) m' c c' i fields fields' ∧
      ∀ d, depth ≤ d → Returns
        (Store.mergeEntries (Store.mergeTo d) i j count (entries source).length done.length) c () c'

/-- What comes to the same entry by entry comes to the same as a merge of two objects. -/
theorem FieldsMerge.mergeTo (hsource : FieldsMerge source) {result : Fields Node}
    (h : Ready B m c i fields source field)
    (hleft : Left B c i j (entries source).length [] fields source)
    (hm : Returns (Node.mergeFields (fieldParts fields) (fieldParts source)) m result m') :
    ∃ fields' c' depth, fieldParts fields' = result ∧
      Merged B (fun id => placesFields id source) m' c c' i fields fields' ∧
      ∀ d, depth ≤ d → Returns (Store.mergeTo d i j) c () c' := by
  obtain ⟨fields', c', depth, hresult, hmerged, hruns⟩ := hsource h hleft hm
  refine ⟨fields', c', depth + 1, hresult, hmerged, fun d hd => ?_⟩
  obtain ⟨d, rfl⟩ := Nat.exists_eq_add_of_le' hd
  unfold Returns
  rw [← Nat.add_assoc, Store.outcome_mergeTo_succ, Store.entries?_ref.mpr hleft.cell,
    Option.getD_some]
  exact hruns (d + depth) (Nat.le_add_left depth d)

/-- Merging one entry in place comes to what merging its part as a tree comes to. -/
def EntryMerges (y : Placed) : Prop :=
  ∀ ⦃B : Nat → Prop⦄ ⦃m m' c : Store⦄ ⦃i : Nat⦄ ⦃name : String⦄ ⦃x : Placed⦄
    ⦃fields : Fields Placed⦄ ⦃field : String → Pattern⦄ ⦃part : Node⦄,
    Ready B m c i fields [(name, y)] field → Fields.get? name fields = some x →
    Returns (Node.merge x.part y.part) m part m' →
    ∃ y' c' depth, y'.part = part ∧
      Merged B (fun id => y.places id) m' c c' i fields (Fields.put name y' fields) ∧
      ∀ d, depth ≤ d →
        Returns (Store.mergeEntry (Store.mergeTo d) i (.text name) y.value) c () c'

/-- A part that is not merged with what is there takes its place. -/
theorem Ready.entry_replaced (h : Ready B m c i fields [(name, y)] field) {x : Placed}
    {part : Node} (hget : Fields.get? name fields = some x)
    (hnot : ∀ old new, x.value = .ref old → y.value = .ref new →
      (c.isMapping old && c.isMapping new) = false)
    (hm : Returns (pure y.part) m part m') :
    ∃ y' c' depth, y'.part = part ∧
      Merged B (fun id => y.places id) m' c c' i fields (Fields.put name y' fields) ∧
      ∀ d, depth ≤ d →
        Returns (Store.mergeEntry (Store.mergeTo d) i (.text name) y.value) c () c' := by
  obtain ⟨rfl, rfl⟩ := Returns.pure_iff.mp hm
  obtain ⟨c', hmerged, hruns⟩ := h.replaced fun x' old new hget' hx hy => by
    rw [hget] at hget'
    cases hget'
    exact hnot old new hx hy
  exact ⟨y, c', 0, rfl, hmerged, fun d _ => hruns d⟩

theorem entryMerges_leaf (v : Value) : EntryMerges (.leaf v) := by
  intro B m m' c i name x fields field part h hget hm
  obtain ⟨w, hw⟩ := h.kinds hget
  have hin := (Node.allFields_iff.mp h.target_in _
    (Fields.mem_of_get? (get?_fieldParts_of_some hget))).2
  cases x with
  | list _ _ => cases hw
  | map _ _ => cases hw
  | leaf old =>
      rcases v with s | new
      · have hne : ¬ Node.Blends (Placed.leaf old).part (Placed.leaf (.scalar s)).part := by
          cases old <;> exact not_false
        rw [Node.merge_of_not_blends hne] at hm
        exact h.entry_replaced hget (fun _ _ _ hnew => by cases hnew) hm
      rcases old with s | old
      · have hne : ¬ Node.Blends (Placed.leaf (.scalar s)).part (Placed.leaf (.ref new)).part :=
          not_false
        rw [Node.merge_of_not_blends hne] at hm
        exact h.entry_replaced hget (fun _ _ hold => by cases hold) hm
      have hold : B old := hin
      have hnew : B new := h.source_in.1.2
      rw [Placed.part, Placed.part, Node.returns_merge_objects] at hm
      by_cases hboth : (m.isMapping old && m.isMapping new) = true
      · -- two objects of the region are merged, and the target stays
        rw [if_pos hboth] at hm
        obtain ⟨_, m₁, hmerge, hr⟩ := Returns.bind_iff.mp hm
        obtain ⟨rfl, rfl⟩ := Returns.pure_iff.mp hr
        obtain ⟨c', hruns, hmerged⟩ := h.merged_objects hold hnew
          (Bool.and_eq_true_iff.mp hboth).1 hmerge
        refine ⟨.leaf (.ref old), c', m.cells.size + 1, rfl, ?_, fun d hd => ?_⟩
        · rw [Fields.put_eq_self hget]
          exact hmerged
        · exact h.returns_inner hget rfl rfl
            (by rw [h.isMapping hold, h.isMapping hnew]; exact hboth) (hruns d hd)
      · rw [if_neg hboth] at hm
        refine h.entry_replaced hget (fun old' new' hx hy => ?_) hm
        cases hx
        cases hy
        rw [h.isMapping hold, h.isMapping hnew]
        exact Bool.eq_false_iff.mpr hboth

theorem entryMerges_list (id : Nat) (items : List Placed) : EntryMerges (.list id items) := by
  intro B m m' c i name x fields field part h hget hm
  have hne : ¬ Node.Blends x.part (Placed.list id items).part := Node.not_blends_list _ _
  rw [Node.merge_of_not_blends hne] at hm
  refine h.entry_replaced hget (fun old new _ hnew => ?_) hm
  -- the object that comes is a list
  cases hnew
  have hlist : c.isMapping id = false := by
    unfold Store.isMapping Store.entries?
    rw [Store.cell?_ref, h.coming.1.1]
    rfl
  rw [hlist, Bool.and_false]

theorem entryMerges_map {l : Nat} {more : Fields Placed} (hmore : FieldsMerge more) :
    EntryMerges (.map l more) := by
  intro B m m' c i name x fields field part h hget hm
  obtain ⟨_, hfields, _⟩ := h.kinds hget
  cases x with
  | leaf _ => cases hfields
  | list _ _ => cases hfields
  | map k inner =>
      rw [Placed.part, Placed.part, Node.merge] at hm
      obtain ⟨merged, m₁, hrun, hr⟩ := Returns.bind_iff.mp hm
      obtain ⟨rfl, rfl⟩ := Returns.pure_iff.mp hr
      obtain ⟨below, hbelow⟩ := h.below hget
      have hcell : c.cells[l]? = some (.map (entries more)) := h.coming.1.1
      have hleft : Left B c k l (entries more).length [] inner more := by
        have honce := h.once l
        have hle := places_le_of_get? l hget
        simp only [places, placesFields, if_true] at honce hle
        refine ⟨h.not_in_region ?_, ?_, hcell, rfl⟩
        · simp only [places, placesFields, if_true]
          omega
        · simp only [places]
          omega
      obtain ⟨inner', c', depth, rfl, hmerged, hruns⟩ := hmore.mergeTo hbelow hleft hrun
      refine ⟨.map k inner', c', depth, rfl, h.merged_below hget hmerged, fun d hd => ?_⟩
      have hboth : (c.isMapping k && c.isMapping l) = true := by
        rw [Store.isMapping_iff.mpr ⟨_, hbelow.cell⟩, Store.isMapping_iff.mpr ⟨_, hcell⟩]
        rfl
      exact h.returns_inner hget rfl rfl hboth (hruns d hd)

theorem fieldsMerge_nil : FieldsMerge [] := by
  intro B m m' c i j count done fields field result h hleft hm
  obtain ⟨rfl, rfl⟩ := Returns.pure_iff.mp hm
  refine ⟨fields, c, 0, rfl, ⟨h.closed, h.agree, h.stands, fun _ => Nat.le_refl _,
    fun _ _ _ _ => rfl⟩, fun d _ => ?_⟩
  unfold Returns
  rw [entries, List.length_nil, Store.outcome_mergeEntries_zero,
    Store.entries?_ref.mpr hleft.cell, Option.getD_some, if_pos hleft.count]

/-- When the first entry has been merged, the others are merged into what it left. -/
theorem FieldsMerge.cons {rest : Fields Placed} (hrest : FieldsMerge rest)
    {count depth : Nat} {done : List (Value × Value)} {m₁ c₁ : Store} {y' : Placed}
    {result : Fields Node} (h : Ready B m c i fields ((name, y) :: rest) field)
    (hleft : Left B c i j count done fields ((name, y) :: rest))
    (hmerged : Merged B (fun id => y.places id) m₁ c c₁ i fields (Fields.put name y' fields))
    (hin : y'.part.In B) (hfollows : y'.part.Follows (field name))
    (hruns : ∀ d, depth ≤ d →
      Returns (Store.mergeEntry (Store.mergeTo d) i (.text name) y.value) c () c₁)
    (hm : Returns (Node.mergeFields (Fields.put name y'.part (fieldParts fields))
      (fieldParts rest)) m₁ result m') :
    ∃ fields' c' depth, fieldParts fields' = result ∧
      Merged B (fun id => placesFields id ((name, y) :: rest)) m' c c' i fields fields' ∧
      ∀ d, depth ≤ d → Returns (Store.mergeEntries (Store.mergeTo d) i j count
        (entries ((name, y) :: rest)).length done.length) c () c' := by
  rw [← fieldParts_put] at hm
  obtain ⟨fields', c', more, hresult, hmerged', hruns'⟩ :=
    hrest (h.tail hmerged hin hfollows) (hleft.tail hmerged) hm
  refine ⟨fields', c', max depth more, hresult, hmerged.trans hmerged', fun d hd => ?_⟩
  have hnext : (done ++ entries ((name, y) :: rest))[done.length]?
      = some (.text name, y.value) := by
    rw [List.getElem?_append_right (Nat.le_refl _), Nat.sub_self]
    rfl
  unfold Returns
  rw [entries, List.length_cons, Store.outcome_mergeEntries_succ,
    Store.entries?_ref.mpr hleft.cell, Option.getD_some, if_pos hleft.count, hnext]
  rw [List.length_append, List.length_singleton] at hruns'
  obtain ⟨hd₁, hd₂⟩ := Nat.max_le.mp hd
  exact Returns.bind_iff.mpr ⟨(), c₁, hruns d hd₁, hruns' d hd₂⟩

theorem fieldsMerge_cons {rest : Fields Placed} (hy : EntryMerges y) (hrest : FieldsMerge rest) :
    FieldsMerge ((name, y) :: rest) := by
  intro B m m' c i j count done fields field result h hleft hm
  rw [fieldParts, Node.mergeFields] at hm
  cases hget : Fields.get? name fields with
  | none =>
      rw [get?_fieldParts, hget] at hm
      obtain ⟨_, _, hp, hm⟩ := Returns.bind_iff.mp hm
      obtain ⟨rfl, rfl⟩ := Returns.pure_iff.mp hp
      obtain ⟨c₁, hmerged, hruns⟩ := h.head.replaced fun x _ _ hget' => by
        rw [hget] at hget'
        cases hget'
      exact hrest.cons h hleft hmerged h.source_in.1.2 h.source_follows.1
        (fun d (_ : 0 ≤ d) => hruns d) hm
  | some x =>
      rw [get?_fieldParts, hget] at hm
      obtain ⟨_, m₁, hp, hm⟩ := Returns.bind_iff.mp hm
      obtain ⟨hin, hfollows⟩ := h.head.merged_part hget hp
      obtain ⟨y', c₁, depth, rfl, hmerged, hruns⟩ := hy h.head hget hp
      exact hrest.cons h hleft hmerged hin hfollows hruns hm

mutual

theorem entryMerges : ∀ y : Placed, EntryMerges y
  | .leaf v => entryMerges_leaf v
  | .list id items => entryMerges_list id items
  | .map _ fields => entryMerges_map (fieldsMerge fields)

theorem fieldsMerge : ∀ source : List (String × Placed), FieldsMerge source
  | [] => fieldsMerge_nil
  | (_, y) :: rest => fieldsMerge_cons (entryMerges y) (fieldsMerge rest)

end

/-- Fields of one pattern, made objects one after the other, are ready to be merged. -/
theorem exists_ready {st st₁ st₂ : Store} {i j : Nat} {target source : Fields Node}
    {field : String → Pattern} (hclosed : st.Closed fun id => id < st.cells.size)
    (hi : Node.insert st (.map target) = (st₁, .ref i))
    (hj : Node.insert st₁ (.map source) = (st₂, .ref j))
    (htarget : (Node.map target).In fun id => id < st.cells.size)
    (hsource : (Node.map source).In fun id => id < st.cells.size)
    (ht : Node.FollowsFields target field) (hs : Node.FollowsFields source field) :
    ∃ fields more, fieldParts fields = target ∧ fieldParts more = source ∧
      Ready (fun id => id < st.cells.size) st₂ st₂ i fields more field ∧
      Left (fun id => id < st.cells.size) st₂ i j (entries more).length [] fields more := by
  obtain ⟨fields, rfl, hfields, hnew, hext⟩ := exists_placedMap hi
  obtain ⟨more, rfl, hmore, hnew', hext'⟩ := exists_placedMap hj
  have hall := hnew.add hnew' hext.size hext'.size
  have hout : ∀ id, id < st.cells.size → (map i fields).places id + (map j more).places id = 0 := by
    intro id hid
    have := hall.range id
    omega
  have hagree : Store.Agree (fun id => id < st.cells.size) st₂ st₂ := .refl _ _
  refine ⟨fields, more, rfl, rfl, ?_, ?_⟩
  · exact {
      closed := fun id cell hid hcell => hclosed id cell hid
        ((hext.trans hext').cells id hid ▸ hcell)
      agree := hagree
      stands := hfields.extends (fun id hid => (hnew.range id hid).2) hext'
      coming := hmore.2
      once := fun id => by
        have := hall.once id
        simp only [places] at this ⊢
        omega
      outside := fun id hid => by
        have := hout id hid
        simp only [places] at this ⊢
        omega
      target_in := htarget
      source_in := hsource
      target_follows := ht
      source_follows := hs }
  · have honce := hall.once j
    refine ⟨fun hj => ?_, ?_, hmore.1, rfl⟩
    · have := hout j hj
      simp only [places, if_true] at this
      omega
    · simp only [places, if_true] at honce ⊢
      omega

end Placed

namespace Document

variable {σ : Type}

/-- **Merging as trees is merging in place.** Let what a build merges be made objects of a store,
one after the other. If merging the trees returns there, then merging the one object into the other
in place does so too, at every depth that is not too small. The fields that come of the first
stand in the object of the target then, each list and each mapping in one place, and all that was
in the store before is what the first has made of it. -/
theorem merges_in_place {manifest : Value} {options : Options} {generator : Option (Generator σ)}
    {w : World σ} {target source result : Fields Node} {st st₁ st₂ st' : Store} {i j : Nat}
    (h : MeetsInBuild manifest options generator w target source)
    (hclosed : st.Closed fun id => id < st.cells.size)
    (htarget : (Node.map target).In fun id => id < st.cells.size)
    (hsource : (Node.map source).In fun id => id < st.cells.size)
    (hi : Node.insert st (.map target) = (st₁, .ref i))
    (hj : Node.insert st₁ (.map source) = (st₂, .ref j))
    (hm : Returns (Node.mergeFields target source) st₂ result st') :
    ∃ fields st₃ depth, Placed.fieldParts fields = result ∧
      (∀ d, depth ≤ d → Returns (Store.mergeTo d i j) st₂ () st₃) ∧
      (Placed.map i fields).Stands st₃ ∧ (∀ id, (Placed.map i fields).places id ≤ 1) ∧
      Store.Agree (fun id => id < st.cells.size) st' st₃ := by
  obtain ⟨field, ht, hs⟩ := follows_of_meetsInBuild h
  obtain ⟨fields, more, rfl, rfl, hready, hleft⟩ :=
    Placed.exists_ready hclosed hi hj htarget hsource ht hs
  obtain ⟨fields', st₃, depth, hresult, hmerged, hruns⟩ :=
    (Placed.fieldsMerge more).mergeTo hready hleft hm
  refine ⟨fields', st₃, depth, hresult, hruns, hmerged.stands, fun id => ?_, hmerged.agree⟩
  have honce := hready.once id
  have := hmerged.places id
  simp only [Placed.places] at honce ⊢
  omega

end Document
end ApiManifest
