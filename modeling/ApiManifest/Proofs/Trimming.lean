import ApiManifest.Proofs.InPlace
import ApiManifest.Proofs.Reading

/-!
# Trimmed mappings

A key whose value is null says no more than a key that is not there, where a field is read that is
null by default. So a mapping that is read by its fields can be trimmed: it loses keys at which
there is only null, and its fields stay the same. This file trims the mappings of a store, at any
places, and says what stays the same of single objects. Objects keep their identities, since nothing
but entries of mappings is left out.
-/

namespace ApiManifest

variable {places : Nat → String → Bool} {chosen : String → Bool} {st st' : Store}

/-! ## Trimmed mappings -/

/-- Whether there is nothing but null at a text. -/
def nullAt (es : List (Value × Value)) (name : String) : Bool :=
  es.all fun (key, v) => key != .text name || v == .null

/-- Whether a key is left out: it is one of the chosen texts, and there is only null. -/
def leftOut (chosen : String → Bool) (es : List (Value × Value)) : Value → Bool
  | .scalar (.text name) => chosen name && nullAt es name
  | _ => false

/-- The entries without the chosen texts at which there is only null. -/
def trimmed (chosen : String → Bool) (es : List (Value × Value)) : List (Value × Value) :=
  es.filter fun (key, _) => !leftOut chosen es key

/-- A mapping without the chosen texts at which there is only null. -/
def Cell.trimmed (chosen : String → Bool) : Cell → Cell
  | .map es => .map (ApiManifest.trimmed chosen es)
  | cell => cell

/-- The store whose mappings are trimmed at some places: each place is a text of an object. -/
def Store.trimmed (places : Nat → String → Bool) (st : Store) : Store where
  cells := st.cells.mapIdx fun id cell => cell.trimmed (places id)

/-- The texts that are places of a value. -/
def placesOf (places : Nat → String → Bool) : Value → String → Bool
  | .ref id => places id
  | .scalar _ => fun _ => false

/-- The object has no places. -/
def Untrimmed (places : Nat → String → Bool) (id : Nat) : Prop := ∀ name, places id name = false

theorem trimmed_of_none (h : ∀ name, chosen name = false) (es : List (Value × Value)) :
    trimmed chosen es = es := by
  have hkept : ∀ key, leftOut chosen es key = false := by
    intro key
    unfold leftOut
    split
    · rw [h, Bool.false_and]
    · rfl
  refine List.filter_eq_self.mpr ?_
  rintro ⟨key, v⟩ _
  simp [hkept]

theorem Cell.trimmed_of_none (h : ∀ name, chosen name = false) (cell : Cell) :
    cell.trimmed chosen = cell := by
  cases cell with
  | map es => exact congrArg Cell.map (ApiManifest.trimmed_of_none h es)
  | _ => rfl

namespace Store

theorem field_of_nullAt {es : List (Value × Value)} {name : String} (h : nullAt es name = true) :
    st.field es name = .null := by
  unfold field
  cases hfind : st.find? (.text name) es with
  | none => rfl
  | some v =>
      obtain ⟨key, hmem, hkey⟩ := find?_mem hfind
      have hnull := List.all_eq_true.mp h _ hmem
      rw [sameKey_text.mp hkey] at hnull
      simpa using hnull

/-- A text is found among the entries of some keys if it is one of these. -/
theorem find?_filter (p : Value → Bool) (name : String) (es : List (Value × Value)) :
    st.find? (.text name) (es.filter fun (key, _) => p key)
      = if p (.text name) then st.find? (.text name) es else none := by
  induction es with
  | nil => simp [find?]
  | cons entry rest ih =>
      rcases entry with ⟨key, v⟩
      by_cases hkey : st.sameKey (.text name) key = true
      · rw [sameKey_text] at hkey
        subst hkey
        cases hp : p (.text name) with
        | true => simp [hp, find?, sameKey_text]
        | false => simpa [hp] using ih
      · cases hp : p key with
        | true => simp [hp, find?, hkey, ih]
        | false => simp [hp, find?, hkey, ih]

theorem find?_trimmed_eq (st st' : Store) (name : String) (es : List (Value × Value)) :
    st'.find? (.text name) (ApiManifest.trimmed chosen es)
      = if chosen name && nullAt es name then none else st.find? (.text name) es := by
  have hfilter : st.find? (.text name) (ApiManifest.trimmed chosen es)
      = if !leftOut chosen es (.text name) then st.find? (.text name) es else none :=
    find?_filter (!leftOut chosen es ·) name es
  rw [find?_text st st']
  refine hfilter.trans ?_
  by_cases hleft : (chosen name && nullAt es name) = true <;> simp [leftOut, hleft]

/-- A text that is not chosen is found as before. -/
theorem find?_trimmed {name : String} (h : chosen name = false) (st st' : Store)
    (es : List (Value × Value)) :
    st'.find? (.text name) (ApiManifest.trimmed chosen es) = st.find? (.text name) es := by
  rw [find?_trimmed_eq st st', h]
  rfl

/-- **A trimmed mapping has the same fields.** -/
theorem field_trimmed (st st' : Store) (es : List (Value × Value)) (name : String) :
    st'.field (ApiManifest.trimmed chosen es) name = st.field es name := by
  unfold field
  rw [find?_trimmed_eq st st']
  split
  · rename_i hnull
    exact (field_of_nullAt (Bool.and_eq_true_iff.mp hnull).2).symm
  · rfl

/-! ## Trimmed stores -/

theorem size_trimmed : (st.trimmed places).cells.size = st.cells.size := by
  simp [trimmed]

theorem cells_trimmed (id : Nat) :
    (st.trimmed places).cells[id]? = st.cells[id]?.map (Cell.trimmed (places id)) := by
  simp [trimmed]

/-- Objects without places are the same. -/
theorem agree_trimmed {S : Nat → Prop} (h : ∀ id, S id → Untrimmed places id) :
    Agree S st (st.trimmed places) := by
  refine ⟨size_trimmed, fun id hid => ?_⟩
  rw [cells_trimmed]
  cases st.cells[id]? with
  | none => rfl
  | some cell => exact congrArg some (cell.trimmed_of_none (h id hid))

theorem entries?_trimmed (v : Value) :
    (st.trimmed places).entries? v
      = (st.entries? v).map (ApiManifest.trimmed (placesOf places v)) := by
  cases v with
  | scalar s => rfl
  | ref id =>
      unfold entries?
      rw [cell?_ref, cell?_ref, cells_trimmed]
      cases st.cells[id]? with
      | none => rfl
      | some cell => cases cell <;> rfl

/-- What is no mapping is not trimmed. -/
theorem holds_trimmed {v : Value} (h : st.entries? v = none) :
    (st.trimmed places).holds v = st.holds v := by
  cases v with
  | scalar s => rfl
  | ref id =>
      unfold entries? at h
      unfold holds
      dsimp only
      rw [cell?_ref] at h ⊢
      rw [cell?_ref, cells_trimmed]
      cases hcell : st.cells[id]? with
      | none => rfl
      | some cell =>
          cases cell with
          | map es =>
              rw [hcell] at h
              cases h
          | _ => rfl

theorem isMapping_trimmed : (st.trimmed places).isMapping = st.isMapping := by
  funext id
  unfold isMapping
  rw [entries?_trimmed, Option.isSome_map]

end Store
end ApiManifest
