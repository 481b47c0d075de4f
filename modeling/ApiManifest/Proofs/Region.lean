import ApiManifest.Data.Store

/-!
# Regions of a store

A region is a set of objects. In a closed region no object has a part outside, so that a value of
the region has the same tree, and finds the same keys, in every store that agrees on the region.
-/

namespace ApiManifest

/-- The value is a scalar, or an object of the region. -/
def Value.In (S : Nat → Prop) : Value → Prop
  | .scalar _ => True
  | .ref id => S id

/-- All keys and values of the entries are in the region. -/
def EntriesIn (S : Nat → Prop) (es : List (Value × Value)) : Prop :=
  ∀ entry ∈ es, entry.1.In S ∧ entry.2.In S

theorem Value.In.mono {S T : Nat → Prop} (h : ∀ id, S id → T id) {v : Value} (hv : v.In S) :
    v.In T := by
  cases v with
  | scalar s => trivial
  | ref id => exact h id hv

namespace Store

/-- No object of the region has a part outside. -/
def Closed (st : Store) (S : Nat → Prop) : Prop :=
  ∀ id cell, S id → st.cells[id]? = some cell → ∀ v ∈ cell.parts, v.In S

/-- The stores have equally many objects, and those of the region have the same contents. -/
structure Agree (S : Nat → Prop) (st st' : Store) : Prop where
  size : st'.cells.size = st.cells.size
  cells : ∀ id, S id → st'.cells[id]? = st.cells[id]?

/-- Whether an object is a mapping. -/
def isMapping (st : Store) (id : Nat) : Bool := (st.entries? (.ref id)).isSome

theorem Agree.refl (S : Nat → Prop) (st : Store) : Agree S st st := ⟨rfl, fun _ _ => rfl⟩

theorem Agree.symm {S : Nat → Prop} {st st' : Store} (h : Agree S st st') : Agree S st' st :=
  ⟨h.size.symm, fun id hid => (h.cells id hid).symm⟩

theorem Agree.trans {S : Nat → Prop} {st st' st'' : Store} (h : Agree S st st')
    (h' : Agree S st' st'') : Agree S st st'' :=
  ⟨h'.size.trans h.size, fun id hid => (h'.cells id hid).trans (h.cells id hid)⟩

theorem Agree.mono {S T : Nat → Prop} (hT : ∀ id, T id → S id) {st st' : Store}
    (h : Agree S st st') : Agree T st st' :=
  ⟨h.size, fun id hid => h.cells id (hT id hid)⟩

/-- Stores that agree on all objects are equal. -/
theorem Agree.eq {S : Nat → Prop} {st st' : Store} (h : Agree S st st') (hS : ∀ id, S id) :
    st' = st := by
  have hcells : st'.cells = st.cells := Array.ext_getElem? fun id => h.cells id (hS id)
  rcases st with ⟨cells⟩
  rcases st' with ⟨cells'⟩
  exact congrArg Store.mk hcells

theorem Closed.of_agree {S : Nat → Prop} {st st' : Store} (hc : st.Closed S)
    (h : Agree S st st') : st'.Closed S := by
  intro id cell hid hcell
  rw [h.cells id hid] at hcell
  exact hc id cell hid hcell

/-- Two closed regions are one. -/
theorem Closed.or {S T : Nat → Prop} {st : Store} (hS : st.Closed S) (hT : st.Closed T) :
    st.Closed fun id => S id ∨ T id := by
  rintro id cell (hid | hid) hcell part hpart
  · exact (hS id cell hid hcell part hpart).mono fun _ h => Or.inl h
  · exact (hT id cell hid hcell part hpart).mono fun _ h => Or.inr h

@[simp] theorem cell?_ref (st : Store) (id : Nat) : st.cell? (.ref id) = st.cells[id]? := rfl

theorem entries?_ref {st : Store} {id : Nat} {es : List (Value × Value)} :
    st.entries? (.ref id) = some es ↔ st.cells[id]? = some (.map es) := by
  unfold entries?
  rw [cell?_ref]
  split
  · rename_i h
    rw [h]
    simp
  · rename_i h
    constructor
    · intro h'
      cases h'
    · intro h'
      exact absurd h' (h es)

/-- A mapping holds if it has entries. -/
theorem holds_of_entries? {st : Store} {v : Value} {es : List (Value × Value)}
    (h : st.entries? v = some es) : st.holds v = !es.isEmpty := by
  cases v with
  | scalar s => cases h
  | ref id =>
      unfold holds
      dsimp only
      rw [cell?_ref, entries?_ref.mp h]

/-- The keys and values of a mapping of a closed region are in the region. -/
theorem Closed.entries {S : Nat → Prop} {st : Store} (hc : st.Closed S) {id : Nat}
    {es : List (Value × Value)} (hid : S id) (h : st.entries? (.ref id) = some es) :
    EntriesIn S es := by
  intro entry hentry
  have hparts := hc id (.map es) hid (entries?_ref.mp h)
  constructor
  · exact hparts _ (List.mem_flatMap.mpr ⟨entry, hentry, List.mem_cons_self⟩)
  · exact hparts _ (List.mem_flatMap.mpr
      ⟨entry, hentry, List.mem_cons_of_mem _ List.mem_cons_self⟩)

theorem Closed.entries_in {S : Nat → Prop} {st : Store} (hc : st.Closed S) {v : Value}
    {es : List (Value × Value)} (hv : v.In S) (hes : st.entries? v = some es) :
    EntriesIn S es := by
  cases v with
  | scalar s => cases hes
  | ref id => exact hc.entries hv hes

theorem Agree.entries? {S : Nat → Prop} {st st' : Store} (h : Agree S st st') {v : Value}
    (hv : v.In S) : st'.entries? v = st.entries? v := by
  cases v with
  | scalar s => rfl
  | ref id =>
      unfold Store.entries?
      rw [cell?_ref, cell?_ref, h.cells id hv]

theorem Agree.holds {S : Nat → Prop} {st st' : Store} (h : Agree S st st') {v : Value}
    (hv : v.In S) : st'.holds v = st.holds v := by
  cases v with
  | scalar s => rfl
  | ref id =>
      unfold Store.holds
      dsimp only
      rw [cell?_ref, cell?_ref, h.cells id hv]

/-! ## Trees -/

theorem treeTo_scalar (st : Store) (depth : Nat) (s : Scalar) :
    st.treeTo depth (.scalar s) = .scalar s := by
  cases depth <;> rfl

/-- A value of a closed region has the same tree in stores that agree on the region. -/
theorem Agree.treeTo {S : Nat → Prop} {st st' : Store} (h : Agree S st st')
    (hc : st.Closed S) (depth : Nat) {v : Value} (hv : v.In S) :
    st'.treeTo depth v = st.treeTo depth v := by
  -- the depth bounds how far the tree is followed, and every step stays in the region
  induction depth generalizing v with
  | zero => cases v <;> rfl
  | succ depth ih =>
      cases v with
      | scalar s => rfl
      | ref id =>
          have hparts := fun cell => hc id cell hv
          unfold Store.treeTo
          rw [h.cells id hv]
          cases hcell : st.cells[id]? with
          | none => rfl
          | some cell =>
              have hin := hparts cell hcell
              have hitems : ∀ items : List Value, items = cell.parts →
                  items.map (st'.treeTo depth) = items.map (st.treeTo depth) := by
                rintro items rfl
                exact List.map_congr_left fun x hx => ih (hin x hx)
              cases cell with
              | date d => rfl
              | dateTime t => rfl
              | list items => exact congrArg Tree.list (hitems items rfl)
              | tuple items => exact congrArg Tree.tuple (hitems items rfl)
              | set items => exact congrArg Tree.set (hitems items rfl)
              | map es =>
                  have hes := hc.entries hv (entries?_ref.mpr hcell)
                  refine congrArg Tree.map (List.map_congr_left fun entry hentry => ?_)
                  dsimp only
                  rw [ih (hes entry hentry).1, ih (hes entry hentry).2]

theorem Agree.tree {S : Nat → Prop} {st st' : Store} (h : Agree S st st') (hc : st.Closed S)
    {v : Value} (hv : v.In S) : st'.tree v = st.tree v := by
  unfold Store.tree
  rw [h.size, h.treeTo hc _ hv]

/-! ## Keys -/

/-- A scalar is the same key as another value whatever objects there are. -/
theorem sameKey_scalar (st st' : Store) (s : Scalar) (v : Value) :
    st.sameKey (.scalar s) v = st'.sameKey (.scalar s) v := by
  unfold sameKey
  split
  · rfl
  · rfl
  · rename_i h
    cases h
  · rfl

theorem sameKey_ref (st : Store) (i j : Nat) :
    st.sameKey (.ref i) (.ref j) = (i == j || (st.tree (.ref i)).sameKey (st.tree (.ref j))) := rfl

theorem Agree.sameKey {S : Nat → Prop} {st st' : Store} (h : Agree S st st') (hc : st.Closed S)
    {a b : Value} (ha : a.In S) (hb : b.In S) : st'.sameKey a b = st.sameKey a b := by
  cases a with
  | scalar s => exact sameKey_scalar st' st s b
  | ref i =>
      cases b with
      | scalar t => rfl
      | ref j => rw [sameKey_ref, sameKey_ref, h.tree hc ha, h.tree hc hb]

theorem Agree.find? {S : Nat → Prop} {st st' : Store} (h : Agree S st st') (hc : st.Closed S)
    {key : Value} (hk : key.In S) {es : List (Value × Value)} (hes : EntriesIn S es) :
    st'.find? key es = st.find? key es := by
  induction es with
  | nil => rfl
  | cons entry rest ih =>
      unfold Store.find?
      rw [h.sameKey hc hk (hes entry List.mem_cons_self).1,
        ih fun e he => hes e (List.mem_cons_of_mem _ he)]

theorem Agree.put {S : Nat → Prop} {st st' : Store} (h : Agree S st st') (hc : st.Closed S)
    {key value : Value} (hk : key.In S) {es : List (Value × Value)} (hes : EntriesIn S es) :
    st'.put key value es = st.put key value es := by
  induction es with
  | nil => rfl
  | cons entry rest ih =>
      unfold Store.put
      rw [h.sameKey hc hk (hes entry List.mem_cons_self).1,
        ih fun e he => hes e (List.mem_cons_of_mem _ he)]

theorem find?_mem {st : Store} {key v : Value} {es : List (Value × Value)}
    (h : st.find? key es = some v) : ∃ k, (k, v) ∈ es ∧ st.sameKey key k = true := by
  induction es with
  | nil => cases h
  | cons entry rest ih =>
      rcases entry with ⟨k, x⟩
      unfold find? at h
      split at h
      · rename_i hk
        cases h
        exact ⟨k, List.mem_cons_self, hk⟩
      · obtain ⟨k', hmem, hk'⟩ := ih h
        exact ⟨k', List.mem_cons_of_mem _ hmem, hk'⟩

/-- The fields of a mapping of the region are in the region. -/
theorem field_in {S : Nat → Prop} {st : Store} {es : List (Value × Value)} (hes : EntriesIn S es)
    (name : String) : (st.field es name).In S := by
  unfold field
  cases h : st.find? (.text name) es with
  | none => trivial
  | some v =>
      obtain ⟨k, hmem, _⟩ := find?_mem h
      exact (hes _ hmem).2

theorem mem_put {st : Store} {key value : Value} {es : List (Value × Value)}
    {entry : Value × Value} (h : entry ∈ st.put key value es) :
    entry ∈ es ∨ (entry.2 = value ∧ (entry.1 = key ∨ ∃ v, (entry.1, v) ∈ es)) := by
  induction es with
  | nil =>
      have : entry = (key, value) := by simpa [put] using h
      subst this
      exact Or.inr ⟨rfl, Or.inl rfl⟩
  | cons first rest ih =>
      rcases first with ⟨k, x⟩
      unfold put at h
      split at h
      · rcases List.mem_cons.mp h with rfl | hrest
        · exact Or.inr ⟨rfl, Or.inr ⟨x, List.mem_cons_self⟩⟩
        · exact Or.inl (List.mem_cons_of_mem _ hrest)
      · rcases List.mem_cons.mp h with rfl | hrest
        · exact Or.inl List.mem_cons_self
        · rcases ih hrest with h' | ⟨hv, h' | ⟨v, hk⟩⟩
          · exact Or.inl (List.mem_cons_of_mem _ h')
          · exact Or.inr ⟨hv, Or.inl h'⟩
          · exact Or.inr ⟨hv, Or.inr ⟨v, List.mem_cons_of_mem _ hk⟩⟩

/-- Putting a value of the region at a key of the region stays in the region. -/
theorem entriesIn_put {S : Nat → Prop} {st : Store} {key value : Value}
    {es : List (Value × Value)} (hes : EntriesIn S es) (hk : key.In S) (hv : value.In S) :
    EntriesIn S (st.put key value es) := by
  intro entry hentry
  rcases mem_put hentry with h | ⟨hvalue, h | ⟨v, h⟩⟩
  · exact hes entry h
  · exact ⟨h ▸ hk, hvalue ▸ hv⟩
  · exact ⟨(hes _ h).1, hvalue ▸ hv⟩

/-- A key keeps its place and its spelling, a new one comes last. -/
theorem keys_put (st : Store) (key value : Value) (es : List (Value × Value)) :
    es.map Prod.fst <+: (st.put key value es).map Prod.fst := by
  induction es with
  | nil => exact List.nil_prefix
  | cons entry rest ih =>
      rcases entry with ⟨k, v⟩
      unfold put
      split
      · exact List.prefix_rfl
      · exact List.cons_prefix_cons.mpr ⟨rfl, ih⟩

end Store
end ApiManifest
