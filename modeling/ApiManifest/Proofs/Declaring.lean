import ApiManifest.Proofs.Existence
import ApiManifest.Proofs.Required

/-!
# From declarations to a definition

A property may be declared more than once: keys that differ, such as `id` and `id?` or `1` and the
text of it, come to one name. This file shows which declaration then counts, and for what. The name
keeps the place at which it first came, and everything else is said by the last declaration: the
schema, and whether the property is required. It shows too that the three forms of a declaration
mean the same, so that spelling one of them in another form changes nothing.
-/

namespace ApiManifest

variable {σ : Type}

/-! ## Keys and their names -/

/-- The text of a key ends in a question mark. -/
def isMarked (text : String) : Bool := text.toList.getLast? = some '?'

/-- A text without the question mark at its end, if there is one. -/
def bareName (text : String) : String :=
  if isMarked text then String.ofList text.toList.dropLast else text

theorem isMarked_iff {text : String} :
    isMarked text = true ↔ ∃ rest, text.toList = rest ++ ['?'] := by
  rw [isMarked, decide_eq_true_iff, List.getLast?_eq_some_iff]

/-- A mark at the end of the key is not part of the name, and makes the property optional. -/
theorem named_eq (text : String) (property : Property) : property.named text
    = (bareName text, { property with required := property.required && !isMarked text }) := by
  unfold Property.named
  split
  · rename_i rest hreverse
    have htext : text.toList = rest.reverse ++ ['?'] := by
      rw [← List.reverse_reverse text.toList, hreverse, List.reverse_cons]
    have hmarked : isMarked text = true := isMarked_iff.mpr ⟨_, htext⟩
    rw [bareName, hmarked, htext]
    simp
  · rename_i hno
    have hmarked : isMarked text = false := by
      rw [Bool.eq_false_iff, Ne, isMarked_iff]
      rintro ⟨rest, htext⟩
      exact hno rest.reverse (by rw [htext, List.reverse_append]; rfl)
    rw [bareName, hmarked]
    simp

/-- The name of the property that an entry declares, if its key has a text. -/
def nameOf? (st : Store) (entry : Value × Value) : Option String :=
  (st.tree entry.1).display.toOption.map bareName

/-- The last declaration of the property of a name. -/
def lastNamed (st : Store) (es : List (Value × Value)) (name : String) : Option (Value × Value) :=
  (es.filter (nameOf? st · = some name)).getLast?

/-- An entry declares a property that has to be there: its key has no mark, and its declaration does
not say otherwise. -/
def requires (st : Store) (entry : Value × Value) : Bool :=
  !(st.tree entry.1).display.toOption.any isMarked &&
    (((st.entries? entry.2).bind (st.find? (.text "required"))).map st.holds).getD true

/-! ## Reading declarations -/

/-- Whether a property is required depends on its own declaration and on nothing else. -/
theorem required_ofValue {st : Store} {decl : Value} {property : Property}
    (h : Property.ofValue st decl = .ok property) : property.required
      = (((st.entries? decl).bind (st.find? (.text "required"))).map st.holds).getD true := by
  unfold Property.ofValue at h
  split at h
  · rename_i fields hfields
    rw [hfields, Option.bind_some]
    dsimp only at h
    split at h
    · obtain ⟨type, -, h⟩ := result_bind_iff.mp h
      cases h
      rfl
    · cases h
      rfl
  · rename_i hnone
    obtain ⟨type, -, h⟩ := result_bind_iff.mp h
    cases h
    rw [hnone]
    rfl

theorem of_readProperty {st : Store} {entry : Value × Value} {name : String} {property : Property}
    (h : readProperty st entry = .ok (name, property)) : nameOf? st entry = some name ∧
      ∃ declared, Property.ofValue st entry.2 = .ok declared ∧
        property = { declared with required := requires st entry } := by
  obtain ⟨text, declared, htext, hdeclared, h⟩ := readProperty_iff.mp h
  obtain ⟨rfl, rfl⟩ := Prod.mk.inj ((named_eq text declared).symm.trans h)
  refine ⟨by rw [nameOf?, htext]; rfl, declared, hdeclared, ?_⟩
  rw [requires, htext, ← required_ofValue hdeclared, Bool.and_comm]
  rfl

/-- **Every name is declared once, in the place where it first came, and as it was declared
last.** -/
theorem declaredProperties_cases {st : Store} {declared : Value} {es : List (Value × Value)}
    {properties : Fields Property} (hes : st.entries? declared = some es)
    (h : declaredProperties st declared = .ok properties) :
    (∀ entry ∈ es, (nameOf? st entry).isSome = true) ∧
      properties.names = (es.filterMap (nameOf? st)).eraseDups ∧
      ∀ name property, (name, property) ∈ properties → ∃ last,
        lastNamed st es name = some last ∧ readProperty st last = .ok (name, property) := by
  have hnodup := nodup_declaredProperties h
  rw [declaredProperties_eq hes] at h
  obtain ⟨read, hread, h⟩ := result_bind_iff.mp h
  have : Nonempty (String × Property) := ⟨"", { type := "" }⟩
  -- all entries can be read, so that reading is a function on them
  choose! found hfound using exists_mapM_iff.mp ⟨read, hread⟩
  cases (mapM_eq_map hfound).symm.trans hread
  cases h
  have hname : ∀ entry ∈ es, nameOf? st entry = some (found entry).1 := fun entry hentry =>
    (of_readProperty (hfound entry hentry)).1
  refine ⟨fun entry hentry => by rw [hname entry hentry]; rfl, ?_, ?_⟩
  · rw [Fields.names_collect, List.filterMap_congr hname, List.map_map, ← List.filterMap_eq_map]
    rfl
  · intro name property hmem
    have hget := Fields.get?_of_mem hnodup hmem
    have hfilter : es.filter (fun entry => (found entry).1 = name)
        = es.filter (nameOf? st · = some name) :=
      List.filter_congr fun entry hentry => by simp [hname entry hentry]
    rw [Fields.get?_collect, List.filter_map, List.getLast?_map, Option.map_map,
      Option.map_eq_some_iff] at hget
    obtain ⟨last, hlast, rfl⟩ := hget
    have hlast : lastNamed st es name = some last := by
      rw [lastNamed, ← hfilter]
      exact hlast
    obtain ⟨hin, hsame⟩ := List.mem_filter.mp (List.mem_of_getLast? hlast)
    have hsame : (found last).1 = name :=
      Option.some.inj ((hname last hin).symm.trans (of_decide_eq_true hsame))
    refine ⟨last, hlast, ?_⟩
    rw [hfound last hin, ← hsame]
    rfl

/-! ## Forms of a declaration -/

/-- An entry that declares the same property in another form: a type as a declaration in full, or
the mark of a key as part of its declaration. -/
inductive Respells (st : Store) : Value × Value → Value × Value → Prop where
  | same (entry : Value × Value) : Respells st entry entry
  | full {key decl : Value} {type : String} : type ≠ "" →
      st.entries? decl = some [(.text "type", .text type)] →
      Respells st (key, .text type) (key, decl)
  | unmarked {key key' decl decl' : Value} {name : String} {fields : List (Value × Value)} :
      (st.tree key).display = .ok (name ++ "?") → (st.tree key').display = .ok name →
      isMarked name = false → st.entries? decl = some fields →
      st.entries? decl' = some (st.put (.text "required") (.scalar (.bool false)) fields) →
      Respells st (key, decl) (key', decl')

theorem ofValue_type {st : Store} {decl : Value} {type : String} (hne : type ≠ "")
    (h : st.entries? decl = some [(.text "type", .text type)]) :
    Property.ofValue st decl = .ok { type } := by
  have htype : st.field [(.text "type", .text type)] "type" = .text type := by
    simp [Store.field, Store.find?, Store.sameKey_text]
  have hother : ∀ name, name ≠ "type" →
      st.find? (.text name) [(.text "type", .text type)] = none := by
    intro name hname
    simp [Store.find?, Store.sameKey_text, Ne.symm hname]
  have hholds : st.holds (.text type) = true := by simp [Store.holds, Scalar.holds, hne]
  unfold Property.ofValue
  rw [h]
  dsimp only
  rw [htype, if_pos hholds]
  simp only [Store.field, hother "required" (by decide), hother "description" (by decide),
    hother "example" (by decide), hother "validator" (by decide)]
  rfl

theorem ofValue_put_required {st : Store} {decl decl' : Value} {fields : List (Value × Value)}
    (h : st.entries? decl = some fields)
    (h' : st.entries? decl' = some (st.put (.text "required") (.scalar (.bool false)) fields)) :
    Property.ofValue st decl' = do
      return { (← Property.ofValue st decl) with required := false } := by
  have hfield : ∀ name, name ≠ "required" →
      st.field (st.put (.text "required") (.scalar (.bool false)) fields) name
        = st.field fields name := by
    intro name hname
    rw [Store.field, Store.find?_put_of_ne st st hname, Store.field]
  unfold Property.ofValue
  rw [h, h']
  dsimp only
  rw [hfield "type" (by decide), hfield "description" (by decide), hfield "example" (by decide),
    hfield "validator" (by decide), Store.find?_put_self]
  split
  · cases (st.tree (st.field fields "type")).display <;> rfl
  · rfl

theorem isMarked_append (name : String) : isMarked (name ++ "?") = true :=
  isMarked_iff.mpr ⟨name.toList, String.toList_append⟩

theorem bareName_append (name : String) : bareName (name ++ "?") = name := by
  rw [bareName, isMarked_append, if_pos rfl, String.toList_append]
  simp

/-- **Every form of a declaration declares the same property.** -/
theorem readProperty_respells {st : Store} {entry entry' : Value × Value}
    (h : Respells st entry entry') : readProperty st entry' = readProperty st entry := by
  cases h with
  | same => rfl
  | full hne hdecl =>
      rw [readProperty, readProperty, ofValue_type hne hdecl]
      rfl
  | @unmarked key key' decl decl' name fields hkey hkey' hname hdecl hdecl' =>
      rw [readProperty, readProperty, hkey, hkey', ofValue_put_required hdecl hdecl']
      cases Property.ofValue st decl with
      | error e => rfl
      | ok property =>
          show Except.ok _ = Except.ok _
          rw [named_eq, named_eq, isMarked_append, bareName_append, bareName, hname]
          simp

theorem declaredProperties_respells {st : Store} {declared declared' : Value}
    {es es' : List (Value × Value)} (hes : st.entries? declared = some es)
    (hes' : st.entries? declared' = some es') (h : List.Forall₂ (Respells st) es es') :
    declaredProperties st declared' = declaredProperties st declared := by
  have hread : es'.mapM (readProperty st) = es.mapM (readProperty st) := by
    clear hes hes'
    induction h with
    | nil => rfl
    | cons hentry _ ih => rw [List.mapM_cons, List.mapM_cons, readProperty_respells hentry, ih]
  rw [declaredProperties_eq hes, declaredProperties_eq hes', hread]

/-! ## Definitions -/

namespace Definition

variable {resource : String} {options : Options} {generator : Option (Generator σ)}

/-- The schema of a property does not say whether it is required. -/
theorem schema_required (name : String) (property : Property) (required : Bool) :
    schema resource name { property with required } options generator
      = schema resource name property options generator := rfl

/-- Every schema is made for a property of its name, with the objects as they are. -/
theorem schema_of_mem {properties : Fields Property} {parts : Fields Node} {w w' : World σ}
    (h : Returns (schemas resource options generator properties) w parts w')
    {entry : String × Node} (hentry : entry ∈ parts) : ∃ property w₁ w₂,
      (entry.1, property) ∈ properties ∧ w₁.store = w.store ∧
        Returns (schema resource entry.1 property options generator) w₁ entry.2 w₂ := by
  induction properties generalizing parts w with
  | nil =>
      obtain ⟨rfl, -⟩ := Returns.pure_iff.mp h
      cases hentry
  | cons first rest ih =>
      rcases first with ⟨name, property⟩
      rw [schemas] at h
      obtain ⟨part, v, hpart, h⟩ := Returns.bind_iff.mp h
      obtain ⟨more, w₂, hrest, h⟩ := Returns.bind_iff.mp h
      obtain ⟨rfl, rfl⟩ := Returns.pure_iff.mp h
      rcases List.mem_cons.mp hentry with rfl | hentry
      · exact ⟨property, w, v, List.mem_cons_self, rfl, hpart⟩
      · obtain ⟨property', w₁, w₂, hmem, hstore, hschema⟩ := ih hrest hentry
        obtain ⟨u, example?, hlogs, hshown, -⟩ := schema_cases hpart
        exact ⟨property', w₁, w₂, List.mem_cons_of_mem _ hmem,
          hstore.trans ((shownExample_store hshown).trans hlogs.store), hschema⟩

/-- The names of the required properties are those whose last declaration requires them. -/
theorem requiredNames_eq {st : Store} {es : List (Value × Value)} {properties : Fields Property}
    (hlast : ∀ name property, (name, property) ∈ properties → ∃ last,
      lastNamed st es name = some last ∧ readProperty st last = .ok (name, property)) :
    requiredNames properties
      = properties.names.filter fun name => (lastNamed st es name).any (requires st) := by
  rw [requiredNames, Fields.names, Fields.names, List.filter_map]
  refine congrArg (List.map Prod.fst) (List.filter_congr ?_)
  rintro ⟨name, property⟩ hmem
  obtain ⟨last, hlast, hread⟩ := hlast name property hmem
  obtain ⟨-, declared, -, rfl⟩ := of_readProperty hread
  simp [hlast]

/-- Every declaration that can be read makes part of a definition, if there is a generator that
answers or none. -/
theorem exists_build_of_entries {w : World σ} {declared : Value} {es : List (Value × Value)}
    (hes : w.store.entries? declared = some es)
    (hread : ∀ entry ∈ es, (∃ text, (w.store.tree entry.1).display = .ok text) ∧
      ∃ property, Property.ofValue w.store entry.2 = .ok property)
    (hanswers : ∀ g, generator = some g → g.Answers) :
    ∃ part w', Returns (build resource declared options generator) w part w' := by
  obtain ⟨properties, hproperties⟩ := (exists_declaredProperties_iff hes).mpr fun entry hentry => by
    obtain ⟨⟨text, htext⟩, property, hproperty⟩ := hread entry hentry
    exact ⟨_, readProperty_iff.mpr ⟨text, property, htext, hproperty, rfl⟩⟩
  obtain ⟨parts, w', hparts⟩ := exists_schemas options hanswers resource properties w
  exact ⟨_, w', Returns.bind_iff.mpr ⟨_, w, Run.reading_iff.mpr ⟨hproperties, rfl⟩,
    Returns.bind_iff.mpr ⟨parts, w', hparts, rfl⟩⟩⟩

/--
**A definition is made of the last declaration of each name.**

Its properties are named after the keys, without the question mark at the end of a key. Each name is
there once, in the place where it first came. The schema of a name is that of its last declaration,
and the name is required if that declaration has no mark and does not say otherwise. There is such a
definition if all keys and types have texts and the generator answers. And it is the same, with all
that the generator is asked, in whatever form the properties are declared.
-/
theorem build_of_entries {w : World σ} {declared : Value} {es : List (Value × Value)}
    (hes : w.store.entries? declared = some es) (resource : String) (options : Options)
    (generator : Option (Generator σ)) :
    (∀ part w', Returns (build resource declared options generator) w part w' →
      ∃ (required : List String) (parts : Fields Node),
        part = .map [("type", .text "object"), ("required", .list (required.map .text)),
          ("properties", .map parts)] ∧
        (∀ entry ∈ es, (nameOf? w.store entry).isSome = true) ∧
        parts.names = (es.filterMap (nameOf? w.store)).eraseDups ∧
        required = parts.names.filter (fun name =>
          (lastNamed w.store es name).any (requires w.store)) ∧
        ∀ entry ∈ parts, ∃ last property w₁ w₂, lastNamed w.store es entry.1 = some last ∧
          Property.ofValue w.store last.2 = .ok property ∧ w₁.store = w.store ∧
          Returns (schema resource entry.1 property options generator) w₁ entry.2 w₂) ∧
    ((∀ entry ∈ es, (∃ text, (w.store.tree entry.1).display = .ok text) ∧
        ∃ property, Property.ofValue w.store entry.2 = .ok property) →
      (∀ g, generator = some g → g.Answers) →
      ∃ part w', Returns (build resource declared options generator) w part w') ∧
    ∀ declared' es', w.store.entries? declared' = some es' →
      List.Forall₂ (Respells w.store) es es' →
      outcome (build resource declared' options generator) w
        = outcome (build resource declared options generator) w := by
  refine ⟨fun part w' h => ?_, exists_build_of_entries hes, fun declared' es' hes' hrespells => ?_⟩
  · obtain ⟨properties, parts, hdeclared, hparts, rfl⟩ := build_cases h
    obtain ⟨hnamed, hnames, hlast⟩ := declaredProperties_cases hes hdeclared
    have hsame := (schemas_cases hparts).2
    refine ⟨requiredNames properties, parts, rfl, hnamed, hsame.trans hnames, ?_, ?_⟩
    · rw [hsame]
      exact requiredNames_eq hlast
    · intro entry hentry
      obtain ⟨property, w₁, w₂, hmem, hstore, hschema⟩ := schema_of_mem hparts hentry
      obtain ⟨last, hlast, hread⟩ := hlast _ _ hmem
      obtain ⟨-, said, hsaid, rfl⟩ := of_readProperty hread
      rw [schema_required] at hschema
      exact ⟨last, said, w₁, w₂, hlast, hsaid, hstore, hschema⟩
  -- respelled entries declare the same properties, and a build reads nothing else of them
  · unfold build
    rw [outcome_bind, outcome_bind, Run.outcome_reading, Run.outcome_reading,
      declaredProperties_respells hes hes' hrespells]

/-- A map that declares two names twice, and the same properties in other forms. -/
def spelledStore : Store := ⟨#[
  .map [(.text "type", .text "date"), (.text "required", .scalar (.bool true))],
  .map [(.text "required", .scalar (.int 0))],
  .map [(.text "id?", .text "uuid"), (.scalar (.int 1), .text "url"), (.text "n?", .ref 0),
    (.text "id", .text "email"), (.text "1", .ref 1)],
  .map [(.text "type", .text "uuid")],
  .map [(.text "type", .text "date"), (.text "required", .scalar (.bool false))],
  .map [(.text "id?", .ref 3), (.scalar (.int 1), .text "url"), (.text "n", .ref 4),
    (.text "id", .text "email"), (.text "1", .ref 1)]]⟩

theorem build_of_entries_spelled : ∃ (part : Node) (w' : World Int) (parts : Fields Node),
    Returns (build "r" (.ref 2) {} (some Document.counting))
      { store := spelledStore, examples := 0 } part w' ∧
    outcome (build "r" (.ref 5) {} (some Document.counting))
      { store := spelledStore, examples := 0 } = (.ok part, w') ∧
    parts.names = ["id", "1", "n"] ∧
    part = .map [("type", .text "object"), ("required", .list [.text "id"]),
      ("properties", .map parts)] := by
  obtain ⟨hmade, hexists, hsame⟩ := @build_of_entries Int { store := spelledStore, examples := 0 }
    (.ref 2) [(.text "id?", .text "uuid"), (.scalar (.int 1), .text "url"), (.text "n?", .ref 0),
      (.text "id", .text "email"), (.text "1", .ref 1)] rfl "r" {} (some Document.counting)
  obtain ⟨part, w', h⟩ := hexists
    (by
      simp only [List.forall_mem_cons]
      exact ⟨⟨⟨_, rfl⟩, _, rfl⟩, ⟨⟨_, rfl⟩, _, rfl⟩, ⟨⟨_, rfl⟩, _, rfl⟩, ⟨⟨_, rfl⟩, _, rfl⟩,
        ⟨⟨_, rfl⟩, _, rfl⟩, by simp⟩)
    (fun g hg => Option.some.inj hg ▸ fun _ _ s => ⟨_, rfl⟩)
  obtain ⟨required, parts, rfl, -, hnames, hrequired, -⟩ := hmade part w' h
  have hrespells := hsame (.ref 5) _ rfl (.cons (.full (by decide) rfl) (.cons (.same _)
    (.cons (@Respells.unmarked _ (.text "n?") (.text "n") _ _ "n" _ rfl rfl (by decide) rfl rfl)
      (.cons (.same _) (.cons (.same _) .nil)))))
  refine ⟨_, w', parts, h, hrespells.trans h, hnames, ?_⟩
  rw [hrequired, hnames]
  rfl

end Definition

end ApiManifest
