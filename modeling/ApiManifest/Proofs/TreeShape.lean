import ApiManifest.Output
import ApiManifest.Proofs.Ownership
import ApiManifest.Proofs.Parsing

/-!
# Documents are trees

If a manifest shares nothing, then its document shares nothing either: every list, mapping, date and
time stands at one position in it, however often definitions were merged. So nothing comes again
when the document is written in YAML, and the text has no anchors and no aliases.
-/

namespace ApiManifest

/-! ## Making objects -/

namespace Store

variable {st : Store} {more : List Nat}

/-- An object that is made of parts that stand apart stands apart from all that they did. -/
theorem separate_alloc {cell : Cell} (h : st.Separate (cell.objects ++ more)) :
    (st.alloc cell).1.Separate ((st.alloc cell).2.objects ++ more) := by
  have hcell : (st.alloc cell).1.cells[st.cells.size]? = some cell := by simp [alloc]
  obtain ⟨hsep, hreached⟩ := h.extends (extends_alloc st cell)
  refine (separate_cons_iff hcell).mpr ⟨hsep, fun hr => ?_⟩
  exact absurd (h.present _ ((hreached _).mp hr)) (Nat.lt_irrefl _)

/-- What is made of a tree stands apart from all that was there. -/
theorem separate_insert (t : Tree) (h : st.Separate more) :
    (st.insert t).1.Separate ((st.insert t).2.objects ++ more) := by
  obtain ⟨hext, hfresh⟩ := fresh_insert t st
  obtain ⟨hsep, hreached⟩ := h.extends hext
  cases hroot : (st.insert t).2 with
  | scalar s => exact hsep
  | ref id =>
      rw [hroot] at hfresh
      refine separate_append_iff.mpr ⟨separate_singleton.mpr
        ⟨hfresh.unshared, fun other hr => (hfresh.made other hr).2⟩, hsep, fun other hr hr' => ?_⟩
      have hnew := (hfresh.made other (reached_singleton_iff.mp hr)).1
      have hold := h.present other ((hreached other).mp hr')
      omega

theorem separate_insertEntries (es : List (Tree × Tree)) (h : st.Separate more) :
    (st.insertEntries es).1.Separate ((Cell.map (st.insertEntries es).2).objects ++ more) := by
  induction es generalizing st more with
  | nil => exact h
  | cons entry rest ih =>
      rcases entry with ⟨k, t⟩
      rw [insertEntries]
      refine (ih (separate_insert t (separate_insert k h))).perm ?_
      rw [List.perm_iff_count]
      intro id
      simp only [Cell.objects_map_cons, List.count_append]
      omega

end Store

namespace Node

mutual

/-- **What is made of a part stands apart if the objects do that it refers to.** -/
theorem separate_insert : ∀ (part : Node) {st : Store} {more : List Nat},
    st.Separate (part.objects ++ more) →
      (insert st part).1.Separate ((insert st part).2.objects ++ more)
  | .leaf _, _, _, h => h
  | .list items, _, _, h => Store.separate_alloc (separate_insertAll items h)
  | .map fields, _, _, h => Store.separate_alloc (separate_insertFields fields h)

theorem separate_insertAll : ∀ (items : List Node) {st : Store} {more : List Nat},
    st.Separate (itemObjects items ++ more) →
      (insertAll st items).1.Separate ((Cell.list (insertAll st items).2).objects ++ more)
  | [], _, _, h => h
  | part :: rest, st, more, h => by
      rw [itemObjects, List.append_assoc] at h
      have hfirst := (separate_insert part h).perm (List.perm_append_comm_assoc _ _ _)
      refine (separate_insertAll rest hfirst).perm ?_
      rw [List.perm_iff_count]
      intro id
      simp only [insertAll, Cell.objects, Cell.parts, List.flatMap_cons, List.count_append]
      omega

theorem separate_insertFields : ∀ (fields : List (String × Node)) {st : Store} {more : List Nat},
    st.Separate (fieldObjects fields ++ more) →
      (insertFields st fields).1.Separate
        ((Cell.map (insertFields st fields).2).objects ++ more)
  | [], _, _, h => h
  | (name, part) :: rest, st, more, h => by
      rw [fieldObjects, List.append_assoc] at h
      have hfirst := (separate_insert part h).perm (List.perm_append_comm_assoc _ _ _)
      refine (separate_insertFields rest hfirst).perm ?_
      rw [List.perm_iff_count]
      intro id
      simp only [insertFields, Cell.objects_map_cons, Value.objects_scalar, List.count_append,
        List.count_nil]
      omega

end

/-! A part is made an object without a change of others. -/

mutual

theorem extends_insert : ∀ (x : Node) (st : Store), st.Extends (insert st x).1
  | .leaf _, st => .refl st
  | .list items, st => (extends_insertAll items st).trans (Store.extends_alloc _ _)
  | .map fields, st => (extends_insertFields fields st).trans (Store.extends_alloc _ _)

theorem extends_insertAll : ∀ (items : List Node) (st : Store), st.Extends (insertAll st items).1
  | [], st => .refl st
  | x :: rest, st => (extends_insert x st).trans (extends_insertAll rest _)

theorem extends_insertFields : ∀ (fields : List (String × Node)) (st : Store),
    st.Extends (insertFields st fields).1
  | [], st => .refl st
  | field :: rest, st => (extends_insert field.2 st).trans (extends_insertFields rest _)

end

end Node

namespace Document

/-- The entries of a document stand apart if the objects do that its sections refer to. -/
theorem separate_insert {st : Store} {more : List Nat} (d : Document)
    (h : st.Separate (Node.fieldObjects d.paths ++ (Node.fieldObjects d.definitions ++ more))) :
    (d.insert st).1.Separate ((Cell.map (d.insert st).2).objects ++ more) := by
  have hput : ∀ {st : Store} {es : List (Value × Value)} {v : Value} {more : List Nat}
      (name : String),
      st.Separate (v.objects ++ ((Cell.map es).objects ++ more)) →
        st.Separate ((Cell.map (st.put (.text name) v es)).objects ++ more) := by
    intro st es v more name h
    refine h.subperm (List.subperm_iff_count.mpr fun id => ?_)
    have hcount := List.subperm_iff_count.mp (st.objects_put (.text name) v es) id
    simp only [List.count_append, Value.objects_scalar, List.count_nil] at hcount ⊢
    omega
  have hbaseline := Store.separate_insertEntries d.baseline h
  have hpaths := hput "paths" (Node.separate_insert (.map d.paths)
    (hbaseline.perm (List.perm_append_comm_assoc _ _ _)))
  exact hput "definitions" (Node.separate_insert (.map d.definitions)
    (hpaths.perm (List.perm_append_comm_assoc _ _ _)))

/-- The document as an object of the store. -/
def object (st : Store) (d : Document) : Store × Value :=
  (d.insert st).1.alloc (.map (d.insert st).2)

end Document

/-! ## Anchors and aliases -/

namespace Yaml

namespace Marks

/-- None of the objects that stand in some objects has come. -/
def Unseen (m : Marks) (st : Store) (ids : List Nat) : Prop :=
  ∀ id, st.Reached ids id → (m.seen[id]?).getD false = false

/-- When objects that stand apart come, none of them has come before, and no number is given. -/
def Passes (st : Store) (visit : Marks → Marks) (ids : List Nat) : Prop :=
  ∀ m more, st.Separate (ids ++ more) → m.Unseen st (ids ++ more) →
    (visit m).numbers = m.numbers ∧ (visit m).Unseen st more

variable {st : Store} {ids ids' : List Nat} {visit visit' : Marks → Marks}

theorem passes_nothing (st : Store) : Passes st (fun m => m) [] := fun _ _ _ h => ⟨rfl, h⟩

theorem Passes.andThen (h : Passes st visit ids) (h' : Passes st visit' ids') :
    Passes st (fun m => visit' (visit m)) (ids ++ ids') := by
  intro m more hsep hunseen
  rw [List.append_assoc] at hsep hunseen
  obtain ⟨hnumbers, hunseen'⟩ := h m (ids' ++ more) hsep hunseen
  obtain ⟨hnumbers', hmore⟩ := h' (visit m) more (Store.separate_append_iff.mp hsep).2.1 hunseen'
  exact ⟨hnumbers'.trans hnumbers, hmore⟩

theorem passes_all {f : Value → Marks → Marks} (hf : ∀ v, Passes st (f v) v.objects)
    (vs : List Value) : Passes st (fun m => vs.foldl (fun m v => f v m) m)
      (vs.flatMap Value.objects) := by
  induction vs with
  | nil => exact passes_nothing st
  | cons v rest ih => exact (hf v).andThen ih

/-- The keys and values of a mapping come one after the other. -/
theorem foldl_entries (f : Value → Marks → Marks) (es : List (Value × Value)) (m : Marks) :
    es.foldl (fun m (k, v) => f v (f k m)) m
      = (Cell.map es).parts.foldl (fun m v => f v m) m := by
  induction es generalizing m with
  | nil => rfl
  | cons entry rest ih => exact ih _

theorem passes_visitTo (st : Store) (depth : Nat) (v : Value) :
    Passes st (visitTo st depth v) v.objects := by
  induction depth generalizing v with
  | zero => exact fun m more hsep hunseen => ⟨rfl, fun id hr => hunseen id
      (Store.reached_append_iff.mpr (Or.inr hr))⟩
  | succ depth ih =>
      cases v with
      | scalar s => exact passes_nothing st
      | ref id =>
          intro m more hsep hunseen
          have hmore : m.Unseen st more := fun other hr =>
            hunseen other (Store.reached_append_iff.mpr (Or.inr hr))
          have hnew := hunseen id (Store.reached_of_mem List.mem_cons_self)
          rw [visitTo]
          split
          · exact ⟨rfl, hmore⟩
          · exact ⟨rfl, hmore⟩
          · rename_i cell _ hcell
            obtain ⟨hparts, hself⟩ := (Store.separate_cons_iff hcell).mp hsep
            -- what stands in the parts is not the object that has just come
            have hunseen' : Unseen { m with seen := m.seen.setIfInBounds id true } st
                (cell.objects ++ more) := by
              intro other hr
              have hne : id ≠ other := fun heq => hself (heq ▸ hr)
              dsimp only
              rw [Array.getElem?_setIfInBounds_ne hne]
              exact hunseen other ((Store.reached_cons_iff hcell).mpr (Or.inr hr))
            have hpassed := passes_all ih cell.parts _ more hparts hunseen'
            rw [visit, if_neg (by rw [hnew]; exact Bool.false_ne_true)]
            cases cell with
            | date d => exact hpassed
            | dateTime t => exact hpassed
            | list items => exact hpassed
            | tuple items => exact hpassed
            | set items => exact hpassed
            | map es =>
                dsimp only
                rw [foldl_entries]
                exact hpassed

/-- **No object has a number** if the entries stand apart. -/
theorem numbers_ofEntries {es : List (Value × Value)} (h : st.Separate (Cell.map es).objects)
    (id : Nat) : ((ofEntries st es).numbers[id]?).join = none := by
  have hpassed := passes_all (passes_visitTo st (st.cells.size + 1)) (Cell.map es).parts
    { seen := Array.replicate st.cells.size false
      numbers := Array.replicate st.cells.size none } []
  rw [List.append_nil] at hpassed
  obtain ⟨hnumbers, _⟩ := hpassed h fun id _ => by
    dsimp only
    rw [Array.getElem?_replicate]
    split <;> rfl
  rw [ofEntries, foldl_entries, hnumbers, Array.getElem?_replicate]
  split <;> rfl

end Marks

namespace Outline

mutual

/-- The numbers of the anchors and the aliases that are written, in order. -/
def numbers : Outline → List Nat
  | .alias number => [number]
  | .scalar anchor _ _ => anchor.toList
  | .sequence anchor items => anchor.toList ++ itemNumbers items
  | .mapping anchor _ parts => anchor.toList ++ partNumbers parts

/-- The numbers that are written in the items of a sequence. -/
def itemNumbers : List Outline → List Nat
  | [] => []
  | item :: rest => numbers item ++ itemNumbers rest

/-- The numbers that are written in the entries of a mapping. -/
def partNumbers : List (Outline × Outline) → List Nat
  | [] => []
  | (key, value) :: rest => numbers key ++ (numbers value ++ partNumbers rest)

end

theorem itemNumbers_eq_nil {items : List Outline} (h : ∀ item ∈ items, item.numbers = []) :
    itemNumbers items = [] := by
  induction items with
  | nil => rfl
  | cons item rest ih =>
      obtain ⟨hitem, hrest⟩ := List.forall_mem_cons.mp h
      rw [itemNumbers, hitem, ih hrest]
      rfl

theorem partNumbers_eq_nil {parts : List (Outline × Outline)}
    (h : ∀ part ∈ parts, part.1.numbers = [] ∧ part.2.numbers = []) : partNumbers parts = [] := by
  induction parts with
  | nil => rfl
  | cons part rest ih =>
      obtain ⟨⟨hkey, hvalue⟩, hrest⟩ := List.forall_mem_cons.mp h
      rw [partNumbers, hkey, hvalue, ih hrest]
      rfl

theorem numbers_ofScalar {s : Scalar} {o : Outline} (h : ofScalar s = .ok o) : o.numbers = [] := by
  cases s with
  | int n =>
      obtain ⟨text, _, h⟩ := result_bind_iff.mp h
      cases h
      rfl
  | null | bool b | float x | text s | bytes b =>
      cases h
      rfl

section Writing

variable {st : Store} {m : Marks} {depth : Nat}

theorem numbers_ofValue_scalar {s : Scalar} {written written' : Array Bool} {o : Outline}
    (h : Gives (ofValue st m depth (.scalar s)) written o written') : o.numbers = [] := by
  cases depth <;>
  · rw [ofValue] at h
    obtain ⟨_, hs, h⟩ := result_bind_iff.mp h
    cases h
    exact numbers_ofScalar hs

/-- The entries of a mapping are written without numbers if all values are. -/
theorem partNumbers_of_mapM
    (hvalue : ∀ v written o written',
      Gives (ofValue st m depth v) written o written' → o.numbers = [])
    {es : List (Value × Value)} {written written' : Array Bool} {parts : List (Outline × Outline)}
    (h : Gives (es.mapM fun (k, v) => do
      let key ← ofValue st m depth k
      return (key, ← ofValue st m depth v)) written parts written') : partNumbers parts = [] := by
  refine partNumbers_eq_nil (forall_of_gives_mapM (fun entry s part s' hpart => ?_) h)
  obtain ⟨key, s₁, hkey, hpart⟩ := gives_bind_iff.mp hpart
  obtain ⟨value, s₂, hv, hpart⟩ := gives_bind_iff.mp hpart
  cases hpart
  exact ⟨hvalue _ _ _ _ hkey, hvalue _ _ _ _ hv⟩

/-- An object without a number is written without an anchor wherever it comes. -/
theorem numbers_ofValue (hm : ∀ id : Nat, (m.numbers[id]?).join = none) {v : Value}
    {written written' : Array Bool} {o : Outline}
    (h : Gives (ofValue st m depth v) written o written') : o.numbers = [] := by
  induction depth generalizing v written o written' with
  | zero =>
      cases v with
      | scalar s => exact numbers_ofValue_scalar h
      | ref id => cases h
  | succ depth ih =>
      -- the induction is on the depth, since the parts of an object need not be smaller
      have hvalue : ∀ v written o written', Gives (ofValue st m depth v) written o written' →
          o.numbers = [] := fun _ _ _ _ h => ih h
      cases v with
      | scalar s => exact numbers_ofValue_scalar h
      | ref id =>
          rw [ofValue] at h
          obtain ⟨_, s₁, hget, h⟩ := gives_bind_iff.mp h
          rw [hm id] at h
          obtain ⟨_, s₂, _, h⟩ := gives_bind_iff.mp h
          cases hcell : st.cells[id]? with
          | none => rw [hcell] at h; cases h
          | some cell =>
              rw [hcell] at h
              cases cell with
              | date d => cases h; rfl
              | dateTime t => cases h; rfl
              | list items | tuple items =>
                  obtain ⟨parts, s₃, hparts, h⟩ := gives_bind_iff.mp h
                  cases h
                  exact itemNumbers_eq_nil (forall_of_gives_mapM hvalue hparts)
              | set items =>
                  obtain ⟨keys, s₃, hkeys, h⟩ := gives_bind_iff.mp h
                  cases h
                  refine partNumbers_eq_nil fun part hpart => ?_
                  obtain ⟨key, hkey, rfl⟩ := List.mem_map.mp hpart
                  exact ⟨forall_of_gives_mapM hvalue hkeys key hkey, rfl⟩
              | map es =>
                  obtain ⟨parts, s₃, hparts, h⟩ := gives_bind_iff.mp h
                  cases h
                  exact partNumbers_of_mapM hvalue hparts

/-- **Entries that stand apart are written without anchors and aliases.** -/
theorem numbers_ofEntries {es : List (Value × Value)} {o : Outline}
    (hsep : st.Separate (Cell.map es).objects) (h : ofEntries st es = .ok o) : o.numbers = [] := by
  obtain ⟨⟨parts, written⟩, hparts, h⟩ := result_bind_iff.mp h
  cases h
  exact partNumbers_of_mapM
    (fun _ _ _ _ => numbers_ofValue (Marks.numbers_ofEntries hsep)) hparts

end Writing

end Outline

end Yaml

/-! ## Documents of manifests -/

namespace Document

variable {σ : Type}

theorem cells_object (st : Store) (d : Document) :
    (d.object st).1.cells[(d.insert st).1.cells.size]? = some (.map (d.insert st).2) := by
  simp [object, Store.alloc]

/-- The text of a document in YAML is what is written of its entries. -/
theorem outline_of_renderDocument {st : Store} {d : Document} {text : String}
    (h : Output.renderDocument st d .yaml = .ok text) : ∃ outline,
      Yaml.Outline.ofEntries (d.object st).1 (d.insert st).2 = .ok outline ∧
        Yaml.render outline = text := by
  have hentries : Output.entriesOf (d.object st).1 (d.object st).2 = .ok (d.insert st).2 := by
    have hes : (d.object st).1.entries? (d.object st).2 = some (d.insert st).2 :=
      Store.entries?_ref.mpr (cells_object st d)
    rw [Output.entriesOf, hes]
  have hrender : Output.render (d.object st).1 (d.object st).2 .yaml = .ok text := h
  rw [Output.render, hentries] at hrender
  obtain ⟨es, hes, hrender⟩ := result_bind_iff.mp hrender
  cases hes
  obtain ⟨outline, houtline, htext⟩ := result_bind_iff.mp hrender
  exact ⟨outline, houtline, Except.ok.inj htext⟩

/--
**A document is a tree**: no object stands at two positions in it.

The manifest has to share nothing, and a generator to answer with scalars. The document refers to
objects of the manifest, which may have been merged into each other. All the same nothing comes
twice in it, so that its text in YAML has no anchors and no aliases.
-/
theorem build_unshared {manifest : Value} {options : Options} {generator : Option (Generator σ)}
    {w w' : World σ} {d : Document}
    (hpresent : ∀ id, w.store.Reaches manifest id → id < w.store.cells.size)
    (hunshared : w.store.Unshared manifest)
    (hscalar : ∀ g, generator = some g → g.AnswersFrom fun _ => False)
    (h : Returns (build manifest options generator) w d w') :
    (d.object w'.store).1.Unshared (d.object w'.store).2 ∧
      ∀ text, Output.renderDocument w'.store d .yaml = .ok text → ∃ outline,
        Yaml.Outline.ofEntries (d.object w'.store).1 (d.insert w'.store).2 = .ok outline ∧
          outline.numbers = [] ∧ Yaml.render outline = text := by
  obtain ⟨rs, baseline, backend, declared, w₁, _, _, hdeclared, hassembles, rfl⟩ := build_iff.mp h
  have hstart := separate_declarations hpresent hunshared hdeclared
  have hdefinitions := separate_of_assembles (d := { baseline }) hscalar hstart hassembles
  have hpaths := Node.PlainFields.fieldObjects_eq
    (plain_of_assembles (d := { baseline }) trivial hassembles)
  have hentries : (d.insert w₁.store).1.Separate
      ((Cell.map (d.insert w₁.store).2).objects ++ []) := by
    refine separate_insert d ?_
    rw [hpaths, List.append_nil]
    exact hdefinitions
  obtain ⟨hobject, _⟩ := Store.separate_append_iff.mp (Store.separate_alloc hentries)
  refine ⟨(Store.separate_singleton.mp hobject).1, fun text htext => ?_⟩
  obtain ⟨outline, houtline, hrender⟩ := outline_of_renderDocument htext
  obtain ⟨hparts, _⟩ := (Store.separate_cons_iff (cells_object w₁.store d)).mp hobject
  rw [List.append_nil] at hparts
  exact ⟨outline, houtline, Yaml.Outline.numbers_ofEntries hparts houtline, hrender⟩

/-- Three resources with one definition key. Of the examples for `p`, which are mappings, the second
one is merged into the first, and then the third one, which brings a list with a date along. -/
def graftingManifest : Tree :=
  let model (example? : Tree) : Tree := .map [(.text "path", .text "/x"),
    (.text "response", .map [(.text "p", .map [(.text "example", .map [(.text "k", example?)])]),
      (.text "q", .text "uuid")])]
  .map [(.text "models", .map [
    (.text "x-y", model (.map [(.text "a", .int 1)])),
    (.text "x_y", model (.map [(.text "b", .map [])])),
    (.text "x--y", model (.map [(.text "c", .list [.date ⟨2024, 1, 1⟩])]))])]

/-- The manifest as an object. -/
def graftingStore : Store × Value := Store.empty.insert graftingManifest

/-- Whether the example of `p` has the parts of all three. -/
def isGrafted (t : Tree) : Bool :=
  ["a", "b", "c"].all fun name =>
    (["definitions", "XYResponse", "properties", "p", "example", "k", name].foldlM
      (fun part name => Tree.at? name part) t).isSome

/-- Providers that have texts for identifiers. -/
def identifiers : Providers := ⟨[("uuid4", .seeded "u")], 0, "en_US"⟩

/-- A document with the parts of three examples in one. -/
theorem build_unshared_grafting : ∃ (d : Document) (w : World Providers.Calls) (text : String),
    Returns (build graftingStore.2 {} (some identifiers.generator))
      { store := graftingStore.1, examples := [] } d w ∧
    isGrafted (d.tree w.store) = true ∧
    Output.renderDocument w.store d .yaml = .ok text ∧
    (d.object w.store).1.Unshared (d.object w.store).2 ∧
    ∃ outline, Yaml.Outline.ofEntries (d.object w.store).1 (d.insert w.store).2 = .ok outline ∧
      outline.numbers = [] ∧ Yaml.render outline = text := by
  have hpasses : passes (build graftingStore.2 {} (some identifiers.generator))
      { store := graftingStore.1, examples := [] } (fun d w => isGrafted (d.tree w.store) &&
        (Output.renderDocument w.store d .yaml).toOption.isSome) = true := by
    rw [passes_build_of_silent (by decide +kernel)]
    decide +kernel
  obtain ⟨d, w', hbuild, hcheck⟩ := passes_iff.mp hpasses
  obtain ⟨hgrafted, htext⟩ := Bool.and_eq_true_iff.mp hcheck
  obtain ⟨_, hfresh⟩ := Store.fresh_insert graftingManifest .empty
  obtain ⟨hunshared, houtlines⟩ := build_unshared (fun id hr => (hfresh.made id hr).2)
    hfresh.unshared (fun g hg => Option.some.inj hg ▸ Providers.answersFrom_generator _) hbuild
  cases hrendered : Output.renderDocument w'.store d .yaml with
  | error e => rw [hrendered] at htext; cases htext
  | ok text =>
      exact ⟨d, w', text, hbuild, hgrafted, hrendered, hunshared, houtlines text hrendered⟩

end Document
end ApiManifest
