import ApiManifest.Proofs.Admission
import ApiManifest.Proofs.JsonForms
import ApiManifest.Proofs.JsonTokens

/-!
# Nodes and values of JSON in YAML

Tokens of JSON give no tags, and show none but those that JSON has. So the nodes that are read from
them have such tags, merging and all, and the values that are made of the nodes have a form in JSON.
-/

namespace ApiManifest.Yaml

variable {β : Type}

/-! ## Nodes -/

/-- All nodes have tags of JSON. -/
abbrev Graph.IsJson (g : Graph) : Prop := g.Tagged Tag.IsJson

/-- Tokens and tags of JSON are admitted. -/
def Admission.json : Admission where
  token := Token.IsJson
  tag := Tag.IsJson
  cause := anything
  yaml := trivial
  null := trivial
  str := trivial
  seq := trivial
  map := trivial
  shown _ h := h rfl
  written _ h := h.elim

/-- **The nodes of tokens of JSON.** -/
theorem isJson_compose {text : List Char} {g : Graph} {root : Option Nat}
    (htokens : ∀ t ∈ (tokensOf text).1, t.IsJson) (h : compose text = .ok (g, root)) :
    g.IsJson :=
  (upholds_compose .json htokens trivial).1 g root h

theorem Graph.IsJson.flatten {g g' : Graph} {id : Nat} (hg : g.IsJson)
    (h : g.flatten id = .ok g') : g'.IsJson :=
  (Graph.upholds_flatten (E := anything) hg trivial trivial id).1 g' h

end Yaml

/-! ## Objects -/

/-- The value has a form in JSON, unless it is an object that has none. -/
def Value.IsJsonPart (v : Value) : Prop := ∀ s, v = .scalar s → s.HasJson

/-- The object has a form in JSON, if the objects that are parts of it do. -/
def Cell.IsJson (cell : Cell) : Prop := ∃ parts, cell.JsonParts parts ∧ ∀ v ∈ parts, v.IsJsonPart

/-- The value is a scalar that has a form in JSON, or an object that is there. -/
def Value.Stands (st : Store) : Value → Prop
  | .scalar s => s.HasJson
  | .ref id => id < st.cells.size

theorem Value.Stands.isJsonPart {st : Store} {v : Value} (h : v.Stands st) : v.IsJsonPart := by
  rintro s rfl
  exact h

theorem Value.Stands.mono {st st' : Store} (hsize : st.cells.size ≤ st'.cells.size) {v : Value}
    (h : v.Stands st) : v.Stands st' := by
  cases v with
  | scalar s => exact h
  | ref id => exact Nat.lt_of_lt_of_le h hsize

theorem Value.Stands.isJsonKey {st : Store} {v : Value} (h : v.Stands st)
    (hcell : st.cell? v = none) : v.IsJsonKey := by
  cases v with
  | scalar s => exact h
  | ref id => exact absurd (Array.getElem?_eq_none_iff.mp hcell) (Nat.not_le.mpr h)

theorem Store.hasJson_treeTo {st : Store}
    (hcells : ∀ (id : Nat) (cell : Cell), st.cells[id]? = some cell → cell.IsJson)
    (depth : Nat) {v : Value} (hv : v.IsJsonPart) : (st.treeTo depth v).HasJson := by
  induction depth generalizing v with
  | zero =>
      cases v with
      | scalar s => exact .scalar (hv s rfl)
      | ref id => exact .scalar trivial
  | succ depth ih =>
      cases v with
      | scalar s => exact .scalar (hv s rfl)
      | ref id =>
          rw [treeTo]
          cases hcell : st.cells[id]? with
          | none => exact .scalar trivial
          | some cell =>
              obtain ⟨parts, hkind, hparts⟩ := hcells id cell hcell
              -- by the kinds of objects that have a form; the keys of a mapping are scalars
              cases hkind with
              | list =>
                  refine .list fun x hx => ?_
                  obtain ⟨v, hv, rfl⟩ := List.mem_map.mp hx
                  exact ih (hparts v hv)
              | tuple =>
                  refine .tuple fun x hx => ?_
                  obtain ⟨v, hv, rfl⟩ := List.mem_map.mp hx
                  exact ih (hparts v hv)
              | map es hkeys =>
                  refine .map (fun x hx => ?_) fun x hx => ?_
                  all_goals obtain ⟨⟨k, v⟩, he, rfl⟩ := List.mem_map.mp hx
                  · have hk : k.IsJsonKey := hkeys _ he
                    cases k with
                    | scalar s => exact ⟨s, by cases depth <;> rfl, hk⟩
                    | ref id => exact hk.elim
                  · exact ih (hparts v (List.mem_map_of_mem he))

/-! ## Making values -/

namespace Yaml

/-- What has been made so far has a form in JSON, and so will what is left. -/
structure Construction.IsJson (c : Construction) : Prop where
  graph : c.graph.IsJson
  cells : ∀ (id : Nat) (cell : Cell), c.store.cells[id]? = some cell → cell.IsJson
  made : ∀ (node : Nat) (v : Value), c.made[node]? = some (some v) → v.Stands c.store

theorem Construction.IsJson.of_cell? {c : Construction} (hc : c.IsJson) {v : Value} {cell : Cell}
    (h : c.store.cell? v = some cell) : ∃ parts, cell.JsonParts parts := by
  cases v with
  | scalar s => cases h
  | ref id =>
      obtain ⟨parts, hparts, -⟩ := hc.cells id cell h
      exact ⟨parts, hparts⟩

namespace Construct

variable {c c' : Construction} {v : Value} {node : Nat}

theorem isJson_alloc {cell : Cell} (hcell : cell.IsJson) (hc : c.IsJson)
    (h : Gives (alloc cell) c v c') : c'.IsJson ∧ v.Stands c'.store := by
  cases h
  have hsize : c.store.cells.size < (c.store.cells.push cell).size := by simp
  refine ⟨⟨hc.graph, fun id other hother => ?_, fun node v hv => ?_⟩, hsize⟩
  · have hpush : (c.store.cells.push cell)[id]? = some other := hother
    rw [Array.getElem?_push] at hpush
    split at hpush
    · cases hpush
      exact hcell
    · exact hc.cells id other hpush
  · exact (hc.made node v hv).mono (Nat.le_of_lt hsize)

theorem isJson_later {empty : Cell} (hempty : empty.IsJson) (hc : c.IsJson)
    (h : Gives (later empty node) c v c') : c'.IsJson ∧ v.Stands c'.store := by
  obtain ⟨w, c₁, halloc, h⟩ := gives_bind_iff.mp h
  obtain ⟨hc₁, hw⟩ := isJson_alloc hempty hc halloc
  cases w <;> cases h
  · exact ⟨hc₁, hw⟩
  · exact ⟨⟨hc₁.graph, hc₁.cells, hc₁.made⟩, hw⟩

theorem state_textOf {text : String} (h : Gives (textOf node) c text c') : c' = c := by
  obtain ⟨c₁, c₂, hget, h⟩ := gives_bind_iff.mp h
  cases hget
  obtain ⟨text', htext, h⟩ : ∃ text', c.graph.text node = .ok text' ∧
    Gives (pure text') c text c' := by
    cases htext : c.graph.text node with
    | error e => rw [htext] at h; cases h
    | ok text' => rw [htext] at h; exact ⟨text', rfl, h⟩
  cases h
  rfl

/-- A scalar that is read from the text of a node. -/
theorem gives_read {read : String → Except Error β} {wrap : β → Value}
    (h : Gives (do return wrap (← read (← textOf node))) c v c') : c' = c ∧ ∃ b, v = wrap b := by
  obtain ⟨text, c₁, htext, h⟩ := gives_bind_iff.mp h
  obtain ⟨b, c₂, hread, h⟩ := gives_bind_iff.mp h
  have hread : c₂ = c₁ := by
    cases hb : read text with
    | error e => rw [hb] at hread; cases hread
    | ok b => rw [hb] at hread; cases hread; rfl
  cases h
  exact ⟨hread.trans (state_textOf htext), b, rfl⟩

theorem isJson_fresh (hc : c.IsJson) (h : Gives (fresh node) c v c') :
    c'.IsJson ∧ v.Stands c'.store := by
  have htag (tag : Tag) (heq : c.graph.tag node = tag) : tag.IsJson := heq ▸ hc.graph node
  obtain ⟨_, _, hget, h⟩ := gives_bind_iff.mp h
  cases hget
  split at h
  · obtain ⟨text, c₁, htext, h⟩ := gives_bind_iff.mp h
    cases state_textOf htext
    cases h
    exact ⟨hc, trivial⟩
  -- truth values, integers and floating-point numbers
  iterate 3
    · obtain ⟨rfl, b, rfl⟩ := gives_read h
      exact ⟨hc, trivial⟩
  · obtain ⟨text, c₁, htext, h⟩ := gives_bind_iff.mp h
    cases state_textOf htext
    cases h
    exact ⟨hc, trivial⟩
  -- there is no tag of bytes or dates
  · exact (htag .binary ‹_›).elim
  · exact (htag .timestamp ‹_›).elim
  · exact isJson_later ⟨_, .list [], by simp⟩ hc h
  · exact (htag .omap ‹_›).elim
  · exact (htag .pairs ‹_›).elim
  · exact (htag .set ‹_›).elim
  · exact isJson_later ⟨_, .map [] (by simp), by simp⟩ hc h
  all_goals cases h

theorem isJson_value (hc : c.IsJson) (h : Gives (value node) c v c') :
    c'.IsJson ∧ v.Stands c'.store := by
  obtain ⟨_, _, hget, h⟩ := gives_bind_iff.mp h
  cases hget
  split at h
  · next hmade =>
    cases h
    exact ⟨hc, hc.made node v (Option.join_eq_some_iff.mp hmade)⟩
  · obtain ⟨w, c₁, hfresh, h⟩ := gives_bind_iff.mp h
    obtain ⟨hc₁, hw⟩ := isJson_fresh hc hfresh
    cases h
    refine ⟨⟨hc₁.graph, hc₁.cells, fun other u hu => ?_⟩, hw⟩
    have hset : (c₁.made.setIfInBounds node (some v))[other]? = some (some u) := hu
    rw [Array.getElem?_setIfInBounds] at hset
    split at hset
    · split at hset
      · cases hset
        exact hw
      · cases hset
    · exact hc₁.made other u hset

/-- Started where all has a form in JSON, the step keeps to that, if it does not fail. -/
abbrev KeepsJson (P : β → Prop) (x : Construct β) : Prop := Upholds Construction.IsJson anything P x

theorem keepsJson_liftM {x : Except Error β} {P : β → Prop} (h : ∀ b, x = .ok b → P b) :
    KeepsJson P (liftM x : Construct β) := .liftM h fun _ _ => trivial

theorem keepsJson_value (node : Nat) : KeepsJson Value.IsJsonPart (value node) := by
  refine fun c hc => ⟨fun v c' h => ?_, fun _ _ => trivial⟩
  obtain ⟨hc', hv⟩ := isJson_value hc h
  exact ⟨hc', hv.isJsonPart⟩

/-- The entries have keys of JSON, and values that have a form if they are scalars. -/
abbrev AreJson (es : List (Value × Value)) : Prop := ∀ e ∈ es, e.1.IsJsonKey ∧ e.2.IsJsonPart

theorem areJson_put {st : Store} {key value : Value} {es : List (Value × Value)}
    (hkey : key.IsJsonKey) (hvalue : value.IsJsonPart) (hes : AreJson es) :
    AreJson (st.put key value es) :=
  (st.forall_put_iff key value hes hkey).mpr hvalue

theorem isJson_map {es : List (Value × Value)} (hes : AreJson es) : (Cell.map es).IsJson := by
  refine ⟨_, .map es fun e he => (hes e he).1, fun v hv => ?_⟩
  obtain ⟨e, he, rfl⟩ := List.mem_map.mp hv
  exact (hes e he).2

theorem keepsJson_entries {known : List (Value × Value)} (hknown : AreJson known)
    (ids : List (Nat × Nat)) : KeepsJson AreJson (entries known ids) := by
  induction ids generalizing known with
  | nil => exact .pure_of hknown
  | cons id rest ih =>
      refine fun c hc => ⟨fun es c' h => ?_, fun _ _ => trivial⟩
      unfold entries at h
      obtain ⟨key, c₁, hkey, h⟩ := gives_bind_iff.mp h
      obtain ⟨hc₁, hkey⟩ := isJson_value hc hkey
      obtain ⟨_, _, hget, h⟩ := gives_bind_iff.mp h
      cases hget
      have hrest (hkey : key.IsJsonKey) : KeepsJson AreJson (do
          let v ← value id.2
          entries ((← get).store.put key v known) rest) :=
        (keepsJson_value id.2).bind_of fun v hv => .get_bind fun c _ =>
          ih (areJson_put hkey hv hknown)
      split at h
      · exact (hrest (hkey.isJsonKey ‹_›) c₁ hc₁).1 es c' h
      -- no object is a date
      iterate 2
        · obtain ⟨parts, hparts⟩ := hc₁.of_cell? ‹_›
          cases hparts
      · cases h

theorem keepsJson_mapping (node : Nat) : KeepsJson AreJson (mapping node) := by
  refine .get_bind fun c hc => ?_
  have hflatten : KeepsJson Graph.IsJson
      (liftM (c.graph.flatten node) : Construct Graph) := keepsJson_liftM fun _ => hc.graph.flatten
  refine hflatten.bind_of fun g hg => ?_
  refine .bind (.modify fun c hc => ⟨hg, hc.cells, hc.made⟩) fun _ => ?_
  have hentries : KeepsJson anything
      (liftM (g.entries node) : Construct (List (Nat × Nat))) := keepsJson_liftM fun _ _ => trivial
  exact hentries.bind fun ids => keepsJson_entries (by simp) ids

theorem keepsJson_contents (node : Nat) : KeepsJson Cell.IsJson (contents node) := by
  refine .get_bind fun c hc => ?_
  have htag (tag : Tag) (heq : c.graph.tag node = tag) : tag.IsJson := heq ▸ hc.graph node
  dsimp only
  split
  · exact (Upholds.mapM_of keepsJson_value).bind_of fun vs hvs => .pure_of ⟨vs, .list vs, hvs⟩
  · exact (htag .omap ‹_›).elim
  · exact (htag .pairs ‹_›).elim
  · exact (keepsJson_mapping node).bind_of fun es hes => .pure_of (isJson_map hes)
  · exact (htag .set ‹_›).elim
  · exact .throw trivial

theorem keepsJson_update (id : Nat) {cell : Cell} (hcell : cell.IsJson) :
    KeepsJson anything
      (modify fun c => { c with store := c.store.update id cell } : Construct Unit) := by
  refine .modify fun c hc => ⟨hc.graph, fun other => ?_, fun node v hv => ?_⟩
  · intro cell' h
    simp only [Store.update, Array.getElem?_setIfInBounds] at h
    split at h
    · split at h
      · cases h
        exact hcell
      · cases h
    · exact hc.cells other cell' h
  · exact (hc.made node v hv).mono (by simp [Store.update])

theorem keepsJson_levels (fuel : Nat) : KeepsJson anything (levels fuel) := by
  induction fuel with
  | zero => exact .pure _
  | succ fuel ih =>
      unfold levels
      refine .get_bind fun c _ => ?_
      dsimp only
      split
      · exact .pure _
      · refine .bind (.modify fun c hc => ⟨hc.graph, hc.cells, hc.made⟩) fun _ =>
          .bind ?_ fun _ => ih
        exact .forM fun _ => (keepsJson_contents _).bind_of fun _ hcell => keepsJson_update _ hcell

end Construct

/-- **The value of a text whose tokens are those of JSON has a form there.** -/
theorem hasJson_load {text : List Char} {st : Store} {v : Value}
    (htokens : ∀ t ∈ (tokensOf text).1, t.IsJson) (h : load .empty text = .ok (st, v)) :
    (st.tree v).HasJson := by
  obtain ⟨⟨g, root⟩, hcompose, h⟩ := result_bind_iff.mp h
  cases root with
  | none =>
      cases h
      exact .scalar trivial
  | some root =>
      obtain ⟨⟨w, c⟩, hbuild, h⟩ := result_bind_iff.mp h
      cases h
      have hstart : Construction.IsJson
          { graph := g, store := .empty, made := Array.replicate g.size none } := by
        refine ⟨isJson_compose htokens hcompose, fun id cell h => ?_, fun node v h => ?_⟩
        · simp [Store.empty] at h
        · simp [Array.getElem?_replicate] at h
      have hkeeps := (Construct.keepsJson_value root).bind_of fun v hv =>
        (Construct.keepsJson_levels g.size).bind fun _ => .pure_of hv
      obtain ⟨hc, hv⟩ := (hkeeps _ hstart).1 _ _ hbuild
      exact Store.hasJson_treeTo hc.cells _ hv

end Yaml
end ApiManifest
