import ApiManifest.Proofs.Parsing
import ApiManifest.Proofs.TreeShape
import Mathlib.Data.Fintype.Card

/-!
# Values that have a form in JSON

Every value that ends has a form in YAML, but only some have one in JSON. That the writer of JSON
goes down no deeper than there are objects makes no difference: a value that has a form is no
higher than that, as the objects that it leads to have every height up to its own. So of what was
written in YAML, just the values that have a form are written in JSON.
-/

namespace ApiManifest

/-! ## Forms -/

/-- The scalar has a form in JSON, as a value and as a key. -/
def Scalar.HasJson : Scalar → Prop
  | .bytes _ => False
  | _ => True

/-- The value can be a key in JSON. -/
def Value.IsJsonKey : Value → Prop
  | .scalar s => s.HasJson
  | .ref _ => False

/-- The tree has a form in JSON. -/
inductive Tree.HasJson : Tree → Prop
  | scalar {s : Scalar} : s.HasJson → HasJson (.scalar s)
  | list {items : List Tree} : (∀ x ∈ items, HasJson x) → HasJson (.list items)
  | tuple {items : List Tree} : (∀ x ∈ items, HasJson x) → HasJson (.tuple items)
  | map {es : List (Tree × Tree)} : (∀ e ∈ es, ∃ s : Scalar, e.1 = .scalar s ∧ s.HasJson) →
      (∀ e ∈ es, HasJson e.2) → HasJson (.map es)

/-- An object of this kind has a form in JSON if these parts of it do. -/
inductive Cell.JsonParts : Cell → List Value → Prop
  | list (items : List Value) : JsonParts (.list items) items
  | tuple (items : List Value) : JsonParts (.tuple items) items
  | map (es : List (Value × Value)) (hkeys : ∀ e ∈ es, e.1.IsJsonKey) :
      JsonParts (.map es) (es.map Prod.snd)

theorem Cell.JsonParts.mem_parts {cell : Cell} {parts : List Value} (h : cell.JsonParts parts)
    {v : Value} (hv : v ∈ parts) : v ∈ cell.parts := by
  cases h with
  | list | tuple => exact hv
  | map es hkeys =>
      obtain ⟨e, he, rfl⟩ := List.mem_map.mp hv
      exact List.mem_flatMap.mpr ⟨e, he, by simp⟩

namespace Store

/-- The value has a form in JSON. One that contains itself has none, as that would not end. -/
inductive HasJson (st : Store) : Value → Prop
  | scalar {s : Scalar} : s.HasJson → HasJson st (.scalar s)
  | object {id : Nat} {cell : Cell} {parts : List Value} : st.cells[id]? = some cell →
      cell.JsonParts parts → (∀ v ∈ parts, HasJson st v) → HasJson st (.ref id)

variable {st : Store}

theorem hasJson_ref_iff {id : Nat} {cell : Cell} (hcell : st.cells[id]? = some cell) :
    st.HasJson (.ref id) ↔ ∃ parts, cell.JsonParts parts ∧ ∀ v ∈ parts, st.HasJson v := by
  constructor
  · intro h
    cases h with
    | object hcell' hparts h =>
        cases hcell.symm.trans hcell'
        exact ⟨_, hparts, h⟩
  · rintro ⟨parts, hparts, h⟩
    exact .object hcell hparts h

/-- What holds of all entries still does after one was set, just if it holds of the new one. -/
theorem forall_put_iff (st : Store) (key value : Value) {P Q : Value → Prop}
    {es : List (Value × Value)} (hes : ∀ e ∈ es, P e.1 ∧ Q e.2) (hkey : P key) :
    (∀ e ∈ st.put key value es, P e.1 ∧ Q e.2) ↔ Q value := by
  induction es with
  | nil => simp [put, hkey]
  | cons e rest ih =>
      obtain ⟨⟨hk, hv⟩, hrest⟩ := List.forall_mem_cons.mp hes
      rw [put]
      split
      · exact List.forall_mem_cons.trans
          ⟨fun h => h.1.2, fun hvalue => ⟨⟨hk, hvalue⟩, hrest⟩⟩
      · exact List.forall_mem_cons.trans
          ⟨fun h => (ih hrest).mp h.2, fun hvalue => ⟨⟨hk, hv⟩, (ih hrest).mpr hvalue⟩⟩

/-! ### Heights -/

/-- The value has a form in JSON that is not higher than this. -/
def HasJsonTo (st : Store) : (height : Nat) → Value → Prop
  | _, .scalar s => s.HasJson
  | 0, .ref _ => False
  | height + 1, .ref id => ∃ cell parts, st.cells[id]? = some cell ∧ cell.JsonParts parts ∧
      ∀ v ∈ parts, HasJsonTo st height v

theorem HasJsonTo.succ {height : Nat} {v : Value} (h : st.HasJsonTo height v) :
    st.HasJsonTo (height + 1) v := by
  induction height generalizing v with
  | zero =>
      cases v with
      | scalar s => exact h
      | ref id => exact h.elim
  | succ height ih =>
      cases v with
      | scalar s => exact h
      | ref id =>
          obtain ⟨cell, parts, hcell, hparts, h⟩ := h
          exact ⟨cell, parts, hcell, hparts, fun v hv => ih (h v hv)⟩

theorem HasJsonTo.mono {height height' : Nat} (hle : height ≤ height') {v : Value}
    (h : st.HasJsonTo height v) : st.HasJsonTo height' v := by
  induction hle with
  | refl => exact h
  | step _ ih => exact ih.succ

theorem HasJsonTo.hasJson {height : Nat} {v : Value} (h : st.HasJsonTo height v) :
    st.HasJson v := by
  induction height generalizing v with
  | zero =>
      cases v with
      | scalar s => exact .scalar h
      | ref id => exact h.elim
  | succ height ih =>
      cases v with
      | scalar s => exact .scalar h
      | ref id =>
          obtain ⟨cell, parts, hcell, hparts, h⟩ := h
          exact .object hcell hparts fun v hv => ih (h v hv)

/-- Values that have a form each have forms of one height. -/
theorem exists_height_of_all {vs : List Value} (h : ∀ v ∈ vs, ∃ height, st.HasJsonTo height v) :
    ∃ height, ∀ v ∈ vs, st.HasJsonTo height v := by
  induction vs with
  | nil => exact ⟨0, by simp⟩
  | cons v rest ih =>
      obtain ⟨hhead, htail⟩ := List.forall_mem_cons.mp h
      obtain ⟨n, hv⟩ := hhead
      obtain ⟨m, hrest⟩ := ih htail
      refine ⟨max n m, List.forall_mem_cons.mpr ⟨hv.mono (le_max_left n m), fun u hu => ?_⟩⟩
      exact (hrest u hu).mono (le_max_right n m)

theorem HasJson.exists_height {v : Value} (h : st.HasJson v) :
    ∃ height, st.HasJsonTo height v := by
  induction h with
  | scalar h => exact ⟨0, h⟩
  | object hcell hparts _ ih =>
      obtain ⟨height, hall⟩ := exists_height_of_all ih
      exact ⟨height + 1, _, _, hcell, hparts, hall⟩

/-- Behind a value stand objects of every height up to its own. -/
theorem HasJsonTo.exists_object {height : Nat} {v : Value} (h : st.HasJsonTo (height + 1) v)
    (hnot : ¬ st.HasJsonTo height v) : ∀ k < height + 1, ∃ id, id < st.cells.size ∧
      st.HasJsonTo (k + 1) (.ref id) ∧ ¬ st.HasJsonTo k (.ref id) := by
  induction height generalizing v with
  | zero =>
      intro k hk
      cases v with
      | scalar s => exact absurd h hnot
      | ref id =>
          obtain ⟨cell, parts, hcell, hparts, hall⟩ := h
          rw [Nat.lt_one_iff.mp hk]
          exact ⟨id, (Array.getElem?_eq_some_iff.mp hcell).1,
            ⟨cell, parts, hcell, hparts, hall⟩, hnot⟩
  | succ height ih =>
      intro k hk
      cases v with
      | scalar s => exact absurd h hnot
      | ref id =>
          obtain ⟨cell, parts, hcell, hparts, hall⟩ := h
          rcases Nat.lt_succ_iff_lt_or_eq.mp hk with hlt | rfl
          · -- some part is just one lower
            obtain ⟨u, hu, hunot⟩ : ∃ u ∈ parts, ¬ st.HasJsonTo height u := by
              by_contra hnone
              push Not at hnone
              exact hnot ⟨cell, parts, hcell, hparts, hnone⟩
            exact ih (hall u hu) hunot k hlt
          · exact ⟨id, (Array.getElem?_eq_some_iff.mp hcell).1, ⟨cell, parts, hcell, hparts, hall⟩,
              hnot⟩

/-- **A value that has a form in JSON is no higher than there are objects.** -/
theorem hasJson_iff {v : Value} : st.HasJson v ↔ st.HasJsonTo st.cells.size v := by
  refine ⟨fun h => ?_, HasJsonTo.hasJson⟩
  classical
  obtain ⟨least, hleast⟩ : ∃ n, n = Nat.find h.exists_height := ⟨_, rfl⟩
  have hat : st.HasJsonTo least v := hleast ▸ Nat.find_spec h.exists_height
  refine hat.mono ?_
  cases least with
  | zero => exact Nat.zero_le _
  | succ height =>
      have hnot : ¬ st.HasJsonTo height v := Nat.find_min h.exists_height (by omega)
      choose object hobject hheight hlower using hat.exists_object hnot
      let objects (k : Fin (height + 1)) : Fin st.cells.size := ⟨object k k.2, hobject k k.2⟩
      have hinjective : objects.Injective := by
        intro k l hkl
        have hid : object k k.2 = object l l.2 := congrArg Fin.val hkl
        have hkl' : ¬ k.1 + 1 ≤ l.1 := fun hle => hlower l l.2 (hid ▸ (hheight k k.2).mono hle)
        have hlk' : ¬ l.1 + 1 ≤ k.1 := fun hle => hlower k k.2 (hid ▸ (hheight l l.2).mono hle)
        exact Fin.ext (by omega)
      simpa using Fintype.card_le_of_injective objects hinjective

end Store

/-! ## What was written in YAML -/

open Yaml (Outline Marks)

/-- The value was written in YAML, given the objects that were. -/
def Value.Outlined (S : Nat → Prop) : Value → Prop
  | .scalar s => ∃ o, Outline.ofScalar s = .ok o
  | .ref id => S id

theorem Value.Outlined.mono {S T : Nat → Prop} (h : ∀ id, S id → T id) {v : Value}
    (hv : v.Outlined S) : v.Outlined T := by
  cases v with
  | scalar s => exact hv
  | ref id => exact h id hv

/-- The object is there, and all of its parts were written. -/
def Store.IsOutlined (st : Store) (S : Nat → Prop) (id : Nat) : Prop :=
  ∃ cell, st.cells[id]? = some cell ∧ ∀ v ∈ cell.parts, v.Outlined S

theorem Store.IsOutlined.mono {st : Store} {S T : Nat → Prop} (h : ∀ id, S id → T id) {id : Nat}
    (hid : st.IsOutlined S id) : st.IsOutlined T id := by
  obtain ⟨cell, hcell, hparts⟩ := hid
  exact ⟨cell, hcell, fun v hv => (hparts v hv).mono h⟩

namespace Yaml.Outline

variable {α : Type} {st : Store} {m : Marks} {depth : Nat}

/-- The object was begun to be written. -/
def Begun (written : Array Bool) (id : Nat) : Prop := written[id]? = some true

/-- Between two states, some values were written: whatever was begun in between was finished. -/
structure Writes (st : Store) (written written' : Array Bool) (vs : List Value) : Prop where
  size : written'.size = written.size
  kept : ∀ id, Begun written id → Begun written' id
  values : ∀ v ∈ vs, v.Outlined (Begun written')
  objects : ∀ id, Begun written' id → Begun written id ∨ st.IsOutlined (Begun written') id

theorem Writes.refl (written : Array Bool) : Writes st written written [] :=
  ⟨rfl, fun _ h => h, by simp, fun _ h => .inl h⟩

theorem Writes.trans {written written' written'' : Array Bool} {vs us : List Value}
    (h : Writes st written written' vs) (h' : Writes st written' written'' us) :
    Writes st written written'' (vs ++ us) where
  size := h'.size.trans h.size
  kept id hid := h'.kept id (h.kept id hid)
  values := List.forall_mem_append.mpr ⟨fun v hv => (h.values v hv).mono h'.kept, h'.values⟩
  objects id hid := by
    rcases h'.objects id hid with hid | hid
    · exact (h.objects id hid).imp_right (·.mono h'.kept)
    · exact .inr hid

/-- Steps that write a value each write them all. -/
theorem writes_mapM (parts : α → List Value) {β : Type} {f : α → Outlining β}
    (hf : ∀ a written b written', written.size = st.cells.size →
      Gives (f a) written b written' → Writes st written written' (parts a))
    {xs : List α} {written written' : Array Bool} {bs : List β}
    (hsize : written.size = st.cells.size) (h : Gives (xs.mapM f) written bs written') :
    Writes st written written' (xs.flatMap parts) := by
  induction xs generalizing written bs with
  | nil =>
      cases h
      exact .refl _
  | cons a rest ih =>
      rw [List.mapM_cons] at h
      obtain ⟨b, s₁, hb, h⟩ := gives_bind_iff.mp h
      obtain ⟨more, s₂, hmore, h⟩ := gives_bind_iff.mp h
      cases h
      have hfirst := hf a written b s₁ hsize hb
      exact hfirst.trans (ih (hfirst.size.trans hsize) hmore)

theorem writes_scalar {s : Scalar} {written written' : Array Bool} {o : Outline}
    (h : Gives (ofValue st m depth (.scalar s)) written o written') :
    Writes st written written' [.scalar s] := by
  have hscalar : ∃ o, ofScalar s = .ok o ∧ written' = written := by
    cases depth <;>
    · rw [ofValue] at h
      obtain ⟨o', hs, h⟩ := result_bind_iff.mp h
      cases h
      exact ⟨_, hs, rfl⟩
  obtain ⟨o', hs, rfl⟩ := hscalar
  refine ⟨rfl, fun _ h => h, fun v hv => ?_, fun _ h => .inl h⟩
  rw [List.mem_singleton.mp hv]
  exact ⟨o', hs⟩

/-- An object is finished when its parts are written. -/
theorem Writes.object {id : Nat} {cell : Cell} {written written' : Array Bool}
    (hsize : written.size = st.cells.size) (hcell : st.cells[id]? = some cell)
    (h : Writes st (written.setIfInBounds id true) written' cell.parts) :
    Writes st written written' [.ref id] := by
  have hid : id < written.size := hsize ▸ (Array.getElem?_eq_some_iff.mp hcell).1
  have hset (other : Nat) : Begun (written.setIfInBounds id true) other ↔
      other = id ∨ Begun written other := by
    unfold Begun
    rw [Array.getElem?_setIfInBounds]
    by_cases heq : id = other
    · simp [heq, heq ▸ hid]
    · simp [heq, Ne.symm heq]
  have hbegun : Begun written' id := h.kept id ((hset id).mpr (.inl rfl))
  refine ⟨h.size.trans (Array.size_setIfInBounds), fun other hother => ?_, ?_,
    fun other hother => ?_⟩
  · exact h.kept other ((hset other).mpr (.inr hother))
  · simpa [Value.Outlined] using hbegun
  · rcases h.objects other hother with hold | hfinished
    · rcases (hset other).mp hold with rfl | hold
      · exact .inr ⟨cell, hcell, h.values⟩
      · exact .inl hold
    · exact .inr hfinished

/-- Writing a value finishes all that it begins. -/
theorem writes_ofValue {v : Value} {written written' : Array Bool} {o : Outline}
    (hsize : written.size = st.cells.size)
    (h : Gives (ofValue st m depth v) written o written') : Writes st written written' [v] := by
  induction depth generalizing v written o written' with
  | zero =>
      cases v with
      | scalar s => exact writes_scalar h
      | ref id => cases h
  | succ depth ih =>
      have hvalue (v : Value) (written : Array Bool) (o : Outline) (written' : Array Bool)
          (hsize : written.size = st.cells.size)
          (h : Gives (ofValue st m depth v) written o written') :
          Writes st written written' [v] := ih hsize h
      cases v with
      | scalar s => exact writes_scalar h
      | ref id =>
          rw [ofValue] at h
          obtain ⟨_, s₁, hget, h⟩ := gives_bind_iff.mp h
          cases hget
          split at h
          · next hwritten =>
            -- an alias stands for an object that was begun
            cases h
            have hbegun : Begun written id := by
              unfold Begun
              cases hat : written[id]? with
              | none => simp [hat] at hwritten
              | some b => simpa [hat] using hwritten
            refine ⟨rfl, fun _ h => h, fun v hv => ?_, fun _ h => .inl h⟩
            rw [List.mem_singleton.mp hv]
            exact hbegun
          · obtain ⟨_, s₂, hset, h⟩ := gives_bind_iff.mp h
            cases hset
            have hsize' : (written.setIfInBounds id true).size = st.cells.size := by
              simpa using hsize
            cases hcell : st.cells[id]? with
            | none => rw [hcell] at h; cases h
            | some cell =>
                refine .object hsize hcell ?_
                rw [hcell] at h
                cases cell with
                | date d | dateTime t =>
                    cases h
                    exact .refl _
                | list items | tuple items | set items =>
                    obtain ⟨parts, s₃, hparts, h⟩ := gives_bind_iff.mp h
                    cases h
                    simpa [Cell.parts] using writes_mapM (fun v => [v]) hvalue hsize' hparts
                | map es =>
                    obtain ⟨parts, s₃, hparts, h⟩ := gives_bind_iff.mp h
                    cases h
                    refine writes_mapM (fun e => [e.1, e.2])
                      (fun e s part s' hs he => ?_) hsize' hparts
                    obtain ⟨key, s₁, hkey, he⟩ := gives_bind_iff.mp he
                    obtain ⟨value, s₂, hv, he⟩ := gives_bind_iff.mp he
                    cases he
                    have hfirst := hvalue e.1 s key s₁ hs hkey
                    exact hfirst.trans (hvalue e.2 s₁ value _ (hfirst.size.trans hs) hv)

/-- **When entries are written, all that they lead to is.** -/
theorem exists_outlined {es : List (Value × Value)} {o : Outline} (h : ofEntries st es = .ok o) :
    ∃ S : Nat → Prop, (∀ id, S id → st.IsOutlined S id) ∧
      ∀ e ∈ es, e.1.Outlined S ∧ e.2.Outlined S := by
  obtain ⟨⟨parts, written⟩, hparts, h⟩ := result_bind_iff.mp h
  have hwrites := writes_mapM (fun e : Value × Value => [e.1, e.2])
    (fun e s part s' hs he => ?_) (Array.size_replicate ..) hparts
  · refine ⟨Begun written, fun id hid => ?_, fun e he => ?_⟩
    · refine (hwrites.objects id hid).resolve_left fun hstart => ?_
      unfold Begun at hstart
      rw [Array.getElem?_replicate] at hstart
      split at hstart <;> simp at hstart
    · have hmem (v : Value) (hv : v ∈ [e.1, e.2]) : v.Outlined (Begun written) :=
        hwrites.values v (List.mem_flatMap.mpr ⟨e, he, hv⟩)
      exact ⟨hmem _ (by simp), hmem _ (by simp)⟩
  · obtain ⟨key, s₁, hkey, he⟩ := gives_bind_iff.mp he
    obtain ⟨value, s₂, hv, he⟩ := gives_bind_iff.mp he
    cases he
    have hfirst := writes_ofValue hs hkey
    exact hfirst.trans (writes_ofValue (hfirst.size.trans hs) hv)

end Yaml.Outline

/-! ## What is written in JSON -/

namespace Json

variable {st : Store} {S : Nat → Prop}

/-- What was written in YAML has no integer that is too long for JSON. -/
theorem exists_scalar_iff {s : Scalar} (h : ∃ o, Outline.ofScalar s = .ok o) :
    (∃ text, scalar s = .ok text) ↔ s.HasJson := by
  cases s with
  | int n =>
      obtain ⟨o, ho⟩ := h
      obtain ⟨text, htext, -⟩ := result_bind_iff.mp ho
      exact iff_of_true ⟨text, htext⟩ trivial
  | bytes b => exact iff_of_false nofun id
  | null | bool b | float x | text s => exact iff_of_true ⟨_, rfl⟩ trivial

theorem exists_objectKey_iff {k : Value} (h : k.Outlined S) :
    (∃ name, objectKey k = .ok name) ↔ k.IsJsonKey := by
  cases k with
  | ref id => exact iff_of_false nofun not_false
  | scalar s =>
      cases s with
      | int n =>
          obtain ⟨o, ho⟩ := h
          obtain ⟨text, htext, -⟩ := result_bind_iff.mp ho
          exact iff_of_true ⟨_, result_bind_iff.mpr ⟨text, htext, rfl⟩⟩ trivial
      | bytes b => exact iff_of_false nofun id
      | null | bool b | float x | text s => exact iff_of_true ⟨_, rfl⟩ trivial

/-- An object is written if its kind has a form and all of its parts are written. -/
theorem exists_pretty_ref_iff {depth level id : Nat} {cell : Cell}
    (hcell : st.cells[id]? = some cell) (hparts : ∀ v ∈ cell.parts, v.Outlined S) :
    (∃ text, pretty st (depth + 1) level (.ref id) = .ok text) ↔
      ∃ parts, cell.JsonParts parts ∧
        ∀ v ∈ parts, ∃ text, pretty st depth (level + 1) v = .ok text := by
  -- a list has a form exactly if all its items have one, and so has a tuple
  have hitems (items : List Value) :
      (∃ text, (do return enclosed "[" "]" level (← items.mapM (pretty st depth (level + 1)))) =
        (.ok text : Except Error String)) ↔
      ∀ v ∈ items, ∃ text, pretty st depth (level + 1) v = .ok text := by
    rw [← exists_mapM_iff]
    constructor
    · rintro ⟨text, h⟩
      obtain ⟨texts, htexts, -⟩ := result_bind_iff.mp h
      exact ⟨texts, htexts⟩
    · rintro ⟨texts, htexts⟩
      exact ⟨_, result_bind_iff.mpr ⟨texts, htexts, rfl⟩⟩
  rw [pretty, hcell]
  cases cell with
  | date d | dateTime t | set items =>
      refine iff_of_false nofun ?_
      rintro ⟨parts, hkind, -⟩
      cases hkind
  | list items =>
      refine (hitems items).trans ⟨fun h => ⟨items, .list items, h⟩, ?_⟩
      rintro ⟨parts, hkind, h⟩
      cases hkind
      exact h
  | tuple items =>
      refine (hitems items).trans ⟨fun h => ⟨items, .tuple items, h⟩, ?_⟩
      rintro ⟨parts, hkind, h⟩
      cases hkind
      exact h
  | map es =>
      have hkey (e : Value × Value) (he : e ∈ es) :
          (∃ name, objectKey e.1 = .ok name) ↔ e.1.IsJsonKey :=
        exists_objectKey_iff (hparts e.1 (List.mem_flatMap.mpr ⟨e, he, by simp⟩))
      constructor
      · rintro ⟨text, h⟩
        obtain ⟨texts, htexts, -⟩ := result_bind_iff.mp h
        have hall := exists_mapM_iff.mp ⟨texts, htexts⟩
        refine ⟨es.map Prod.snd, .map es fun e he => ?_, fun v hv => ?_⟩
        · obtain ⟨text, htext⟩ := hall e he
          obtain ⟨name, hname, -⟩ := result_bind_iff.mp htext
          exact (hkey e he).mp ⟨name, hname⟩
        · obtain ⟨e, he, rfl⟩ := List.mem_map.mp hv
          obtain ⟨text, htext⟩ := hall e he
          obtain ⟨name, -, htext⟩ := result_bind_iff.mp htext
          obtain ⟨value, hvalue, -⟩ := result_bind_iff.mp htext
          exact ⟨value, hvalue⟩
      · rintro ⟨parts, hkind, h⟩
        cases hkind with
        | map _ hkeys =>
            refine Exists.elim (exists_mapM_iff.mpr fun e he => ?_) fun texts htexts =>
              ⟨_, result_bind_iff.mpr ⟨texts, htexts, rfl⟩⟩
            obtain ⟨name, hname⟩ := (hkey e he).mpr (hkeys e he)
            obtain ⟨value, hvalue⟩ := h e.2 (List.mem_map_of_mem he)
            exact ⟨_, result_bind_iff.mpr ⟨name, hname, result_bind_iff.mpr ⟨value, hvalue, rfl⟩⟩⟩

/-- Of what was written in YAML, JSON can write what has a form in it. -/
theorem exists_pretty_iff (hS : ∀ id, S id → st.IsOutlined S id) {depth level : Nat} {v : Value}
    (hv : v.Outlined S) :
    (∃ text, pretty st depth level v = .ok text) ↔ st.HasJsonTo depth v := by
  induction depth generalizing level v with
  | zero =>
      cases v with
      | scalar s =>
          rw [pretty]
          exact exists_scalar_iff hv
      | ref id => exact iff_of_false nofun not_false
  | succ depth ih =>
      cases v with
      | scalar s =>
          rw [pretty]
          exact exists_scalar_iff hv
      | ref id =>
          obtain ⟨cell, hcell, hparts⟩ := hS id hv
          rw [exists_pretty_ref_iff hcell hparts]
          have hpart {parts : List Value} (hkind : cell.JsonParts parts) {u : Value}
              (hu : u ∈ parts) :
              (∃ text, pretty st depth (level + 1) u = .ok text) ↔ st.HasJsonTo depth u :=
            ih (hparts u (hkind.mem_parts hu))
          constructor
          · rintro ⟨parts, hkind, h⟩
            exact ⟨cell, parts, hcell, hkind, fun u hu => (hpart hkind hu).mp (h u hu)⟩
          · rintro ⟨cell', parts, hcell', hkind, h⟩
            cases hcell.symm.trans hcell'
            exact ⟨parts, hkind, fun u hu => (hpart hkind hu).mpr (h u hu)⟩

end Json
end ApiManifest
