import ApiManifest.Proofs.Documents
import ApiManifest.Proofs.JsonLexing

/-!
# Shapes of JSON texts

The tokens of a text of JSON are those of a shape, unless the name of a member is too far from its
colon. Without the token that announces a key, the parser takes such a name for an entry of its own,
and does not expect a colon behind it.
-/

namespace ApiManifest

namespace JsonText

open Yaml

/-! ## Shapes -/

mutual

/-- The shape of a value. -/
def Text.shape : Text → Shape
  | .null => .scalar (String.ofList "null".toList) true
  | .bool b => .scalar (String.ofList (if b then "true".toList else "false".toList)) true
  | .number n => .scalar (String.ofList n.chars) true
  | .string s => .scalar (Yaml.textOf (heard .words [] s)) false
  | .emptyArray _ => .items []
  | .array items => .items items.shapes
  | .emptyObject _ => .braces []
  | .object members => .braces members.shapes

/-- The shapes of some items. -/
def Items.shapes : Items → List Shape
  | .last _ value _ => [value.shape]
  | .more _ value _ rest => value.shape :: rest.shapes

/-- The shapes of some members. -/
def Members.shapes : Members → List (String × Shape)
  | .last _ name _ _ value _ => [(Yaml.textOf (heard .words [] name), value.shape)]
  | .more _ name _ _ value _ rest =>
    (Yaml.textOf (heard .words [] name), value.shape) :: rest.shapes

end

/-- The name is near enough to its colon to be a key. -/
def Part.IsKeyed : Part → Prop
  | .name s colon => isNear s colon.laid = true
  | _ => True

theorem itemTokens_false {xs : List Shape} (h : xs ≠ []) :
    Shape.itemTokens false xs = .flowEntry :: Shape.itemTokens true xs := by
  cases xs with
  | nil => exact absurd rfl h
  | cons => rfl

theorem entryTokens_false {entries : List (String × Shape)} (h : entries ≠ []) :
    Shape.entryTokens false entries = .flowEntry :: Shape.entryTokens true entries := by
  cases entries with
  | nil => exact absurd rfl h
  | cons => rfl

theorem Items.shapes_ne_nil (items : Items) : items.shapes ≠ [] := by
  cases items <;> simp [shapes]

theorem Members.shapes_ne_nil (members : Members) : members.shapes ≠ [] := by
  cases members <;> simp [shapes]

mutual

/-- The tokens of a value are those of its shape if all names are keys. -/
theorem tokens_text : ∀ t : Text, (∀ part ∈ t.parts, part.IsKeyed) → t.shape.tokens = t.tokens
  | .null, _ | .bool _, _ | .number _, _ | .string _, _ => rfl
  | .emptyArray _, _ | .emptyObject _, _ => rfl
  | .array items, h => congrArg _ (tokens_items items h)
  | .object members, h => congrArg _ (tokens_members members h)

theorem tokens_items : ∀ items : Items, (∀ part ∈ items.parts, part.IsKeyed) →
    Shape.itemTokens true items.shapes = items.tokens ++ [.flowSequenceEnd]
  | .last before value behind, h => by
      obtain ⟨-, hvalue, -⟩ := Items.forall_parts_last.mp h
      simp [Items.shapes, Items.tokens, Shape.itemTokens, tokens_text value hvalue]
  | .more before value behind rest, h => by
      obtain ⟨-, hvalue, -, hrest⟩ := Items.forall_parts_more.mp h
      simp [Items.shapes, Items.tokens, Shape.itemTokens, itemTokens_false rest.shapes_ne_nil,
        tokens_text value hvalue, tokens_items rest hrest]

theorem tokens_members : ∀ members : Members, (∀ part ∈ members.parts, part.IsKeyed) →
    Shape.entryTokens true members.shapes = members.tokens ++ [.flowMappingEnd]
  | .last before name colon middle value behind, h => by
      obtain ⟨-, -, hnear, -, -, hvalue, -⟩ := Members.forall_parts_last.mp h
      rw [Part.IsKeyed] at hnear
      simp [Members.shapes, Members.tokens, Shape.entryTokens, nameTokens, hnear,
        tokens_text value hvalue]
  | .more before name colon middle value behind rest, h => by
      obtain ⟨-, -, hnear, -, -, hvalue, -, hrest⟩ := Members.forall_parts_more.mp h
      rw [Part.IsKeyed] at hnear
      simp [Members.shapes, Members.tokens, Shape.entryTokens, entryTokens_false rest.shapes_ne_nil,
        nameTokens, hnear, tokens_text value hvalue, tokens_members rest hrest]

end

/-! ## Names that are no keys -/

open Parse

theorem exists_cons_tokens (t : Text) : ∃ token ts, t.tokens = token :: ts ∧ beginsValue token := by
  cases t <;> exact ⟨_, _, rfl, rfl⟩

/-- A value whose names are all keys is read as a node. -/
theorem parses_text {t : Text} (h : ∀ part ∈ t.parts, part.IsKeyed) {fuel : Nat}
    (hfuel : 4 * t.tokens.length ≤ fuel) (context : Context) :
    Parses (node context fuel) t.tokens fun id g => t.shape.Built g id := by
  rw [← tokens_text t h] at hfuel ⊢
  exact parses_shape t.shape fuel hfuel context

section

variable {first : Bool} {fuel : Nat} {tokens : List Token} {token : Token} {ts : List Token}

/-- A comma parts an item from the one before. -/
def comma (first : Bool) : List Token := if first then [] else [.flowEntry]

theorem refuses_item (htokens : tokens = token :: ts) (htoken : beginsValue token)
    (h : Refuses (do let item ← node .flow fuel; return item :: (← flowItems false fuel)) tokens) :
    Refuses (flowItems first (fuel + 1)) (comma first ++ tokens) := by
  subst htokens
  rw [flowItems]
  cases first with
  | true =>
      refine .skip (ne_of_beginsValue htoken rfl) ?_
      simp only [Bool.false_eq_true, if_false, if_true]
      refine .skip (ne_of_beginsValue htoken rfl) ?_
      exact .skip (ne_of_beginsValue htoken rfl) h
  | false =>
      refine .skip (t := .flowEntry) (by simp) (.expect ?_)
      refine .skip (ne_of_beginsValue htoken rfl) ?_
      exact .skip (ne_of_beginsValue htoken rfl) h

theorem refuses_entry
    (h : Refuses (do
      let key ← nodeUnless [.value, .flowEntry, .flowMappingEnd] .flow fuel
      let value ← flowValue .flowMappingEnd fuel
      return (key, value) :: (← flowEntries false fuel)) tokens) :
    Refuses (flowEntries first (fuel + 1)) (comma first ++ .key :: tokens) := by
  rw [flowEntries]
  cases first with
  | true =>
      refine .skip (t := .key) (by simp) ?_
      simp only [Bool.false_eq_true, if_false, if_true]
      exact .take h
  | false => exact .skip (t := .flowEntry) (by simp) (.expect (.take h))

/-- The parser expects a comma or a brace behind what is no key. -/
theorem refuses_unkeyed (text : String) (tokens : List Token) :
    Refuses (flowEntries first (fuel + 2))
      (comma first ++ .scalar text false :: .value :: tokens) := by
  have hcolon : Refuses (flowEntries false (fuel + 1)) (.value :: tokens) := by
    rw [flowEntries]
    exact .skip (by simp) (.unexpected (by simp))
  have hempty : Parses addEmpty [] fun id g => g.nodes[id]? = some .empty :=
    fun p rest hp => ⟨_, _, gives_add .empty p, hp, Graph.Adds.add p.graph .empty⟩
  have hentry : Refuses (do
      let key ← node .flow (fuel + 1)
      let value ← addEmpty
      return (key, value) :: (← flowEntries false (fuel + 1)))
      ([.scalar text false] ++ .value :: tokens) :=
    .behind (parses_scalar text false .flow fuel) fun _ => .behind hempty fun _ => hcolon.bind _
  rw [flowEntries]
  cases first with
  | true =>
      refine .skip (t := .scalar text false) (by simp) ?_
      simp only [Bool.false_eq_true, if_false, if_true]
      refine .skip (t := .scalar text false) (by simp) ?_
      exact .skip (t := .scalar text false) (by simp) hentry
  | false =>
      refine .skip (t := .flowEntry) (by simp) (.expect ?_)
      refine .skip (t := .scalar text false) (by simp) ?_
      exact .skip (t := .scalar text false) (by simp) hentry

/-- A key is read, but not its value. -/
theorem refuses_value (htokens : tokens = token :: ts) (htoken : beginsValue token)
    (h : Refuses (node .flow fuel) tokens) :
    Refuses (flowValue .flowMappingEnd (fuel + 2)) (.value :: tokens) := by
  subst htokens
  rw [flowValue]
  refine .take ?_
  rw [nodeUnless]
  have hends : [Token.flowEntry, .flowMappingEnd].contains token = false :=
    contains_of_beginsValue htoken rfl
  exact fun p rest hp => (hends ▸ gives_isNext hp _).not_bind (h p rest hp)

end

/-- The key of a member and its value. -/
theorem parses_member (name : String) {t : Text} (h : ∀ part ∈ t.parts, part.IsKeyed) {fuel : Nat}
    (hfuel : 4 * t.tokens.length ≤ fuel) : Parses (do
      let key ← nodeUnless [.value, .flowEntry, .flowMappingEnd] .flow (fuel + 2)
      let value ← flowValue .flowMappingEnd (fuel + 2)
      return (key, value)) (.scalar name false :: .value :: t.tokens) fun entry g =>
        g.nodes[entry.1]? = some ⟨.str, .text name⟩ ∧ t.shape.Built g entry.2 := by
  obtain ⟨token, ts, htokens, htoken⟩ := exists_cons_tokens t
  have hvalue : Parses (flowValue .flowMappingEnd (fuel + 2)) (.value :: t.tokens) fun id g =>
      t.shape.Built g id := by
    rw [flowValue]
    exact .take (parses_nodeUnless htokens (contains_of_beginsValue htoken rfl)
      (parses_text h hfuel .flow))
  exact parses_entry rfl [.value, .flowEntry, .flowMappingEnd] rfl .flow fuel hvalue

theorem refuses_member {name : String} {tokens : List Token} {fuel : Nat}
    (htokens : ∃ token ts, tokens = token :: ts ∧ beginsValue token)
    (h : Refuses (node .flow fuel) tokens) : Refuses (do
      let key ← nodeUnless [.value, .flowEntry, .flowMappingEnd] .flow (fuel + 2)
      let value ← flowValue .flowMappingEnd (fuel + 2)
      return (key, value) :: (← flowEntries false (fuel + 2)))
      (.scalar name false :: .value :: tokens) := by
  obtain ⟨token, ts, hcons, htoken⟩ := htokens
  have hends : [Token.value, .flowEntry, .flowMappingEnd].contains (.scalar name false) = false :=
    contains_of_beginsValue rfl rfl
  have hkey := parses_nodeUnless rfl hends (parses_scalar name false .flow fuel)
  exact .behind hkey fun _ => (refuses_value hcons htoken h).bind _

/-- A member is read, but not what stands behind it. -/
theorem refuses_further {name : String} {t : Text} (h : ∀ part ∈ t.parts, part.IsKeyed)
    {tokens : List Token} {fuel : Nat} (hfuel : 4 * t.tokens.length ≤ fuel)
    (hrest : Refuses (flowEntries false (fuel + 2)) tokens) : Refuses (do
      let key ← nodeUnless [.value, .flowEntry, .flowMappingEnd] .flow (fuel + 2)
      let value ← flowValue .flowMappingEnd (fuel + 2)
      return (key, value) :: (← flowEntries false (fuel + 2)))
      (.scalar name false :: .value :: t.tokens ++ tokens) := by
  have hboth := Refuses.behind (parses_member name h hfuel) fun entry =>
    hrest.bind fun entries => pure (entry :: entries)
  simpa only [bind_assoc, pure_bind] using hboth

theorem length_nameTokens (s : List Piece) (gap : List Char) : 2 ≤ (nameTokens s gap).length := by
  simp [nameTokens]

theorem nameTokens_of_isNear {s : List Piece} {gap : List Char} (h : isNear s gap = true) :
    nameTokens s gap = [.key, .scalar (Yaml.textOf (heard .words [] s)) false, .value] := by
  simp [nameTokens, h]

theorem nameTokens_of_not_isNear {s : List Piece} {gap : List Char} (h : ¬ isNear s gap = true) :
    nameTokens s gap = [.scalar (Yaml.textOf (heard .words [] s)) false, .value] := by
  simp [nameTokens, h]

mutual

/-- **No node is read of a value with a name that is no key.** -/
theorem refuses_text : ∀ (t : Text), ¬ (∀ part ∈ t.parts, part.IsKeyed) → ∀ fuel : Nat,
    4 * t.tokens.length ≤ fuel → ∀ context : Context, Refuses (node context fuel) t.tokens
  | .null, h, _, _, _ | .bool _, h, _, _, _ => absurd (by simp [Text.parts]) h
  | .number _, h, _, _, _ | .string _, h, _, _, _ | .emptyArray _, h, _, _, _
  | .emptyObject _, h, _, _, _ => absurd (by simp [Text.parts, Part.IsKeyed]) h
  | .array items, h, fuel, hfuel, context => by
      simp only [Text.tokens, List.length_append, List.length_cons] at hfuel
      obtain ⟨fuel, rfl⟩ := Nat.exists_eq_add_one.mpr (show 0 < fuel by omega)
      exact refuses_node_items ((refuses_items items h true fuel (by omega)).append _) context
  | .object members, h, fuel, hfuel, context => by
      simp only [Text.tokens, List.length_append, List.length_cons] at hfuel
      obtain ⟨fuel, rfl⟩ := Nat.exists_eq_add_one.mpr (show 0 < fuel by omega)
      exact refuses_node_braces ((refuses_members members h true fuel (by omega)).append _) context

theorem refuses_items : ∀ (items : Items), ¬ (∀ part ∈ items.parts, part.IsKeyed) →
    ∀ (first : Bool) (fuel : Nat), 4 * items.tokens.length + 1 ≤ fuel →
    Refuses (flowItems first fuel) (comma first ++ items.tokens)
  | .last before value behind, h, first, fuel, hfuel => by
      obtain ⟨token, ts, htokens, htoken⟩ := exists_cons_tokens value
      simp only [Items.tokens] at hfuel
      obtain ⟨fuel, rfl⟩ := Nat.exists_eq_add_one.mpr (show 0 < fuel by omega)
      have hvalue : ¬ ∀ part ∈ value.parts, part.IsKeyed := fun hall =>
        h (Items.forall_parts_last.mpr ⟨trivial, hall, trivial⟩)
      exact refuses_item htokens htoken
        ((refuses_text value hvalue fuel (by omega) .flow).bind _)
  | .more before value behind rest, h, first, fuel, hfuel => by
      obtain ⟨token, ts, htokens, htoken⟩ := exists_cons_tokens value
      simp only [Items.tokens, List.length_append, List.length_cons] at hfuel
      obtain ⟨fuel, rfl⟩ := Nat.exists_eq_add_one.mpr (show 0 < fuel by omega)
      have hcons : value.tokens ++ .flowEntry :: rest.tokens
          = token :: (ts ++ .flowEntry :: rest.tokens) := by
        rw [htokens, List.cons_append]
      refine refuses_item hcons htoken ?_
      by_cases hvalue : ∀ part ∈ value.parts, part.IsKeyed
      · have hrest : ¬ ∀ part ∈ rest.parts, part.IsKeyed := fun hall =>
          h (Items.forall_parts_more.mpr ⟨trivial, hvalue, trivial, hall⟩)
        exact .behind (parses_text hvalue (by omega) .flow) fun _ =>
          (refuses_items rest hrest false fuel (by omega)).bind _
      · exact ((refuses_text value hvalue fuel (by omega) .flow).bind _).append _

theorem refuses_members : ∀ (members : Members), ¬ (∀ part ∈ members.parts, part.IsKeyed) →
    ∀ (first : Bool) (fuel : Nat), 4 * members.tokens.length + 1 ≤ fuel →
    Refuses (flowEntries first fuel) (comma first ++ members.tokens)
  | .last before name colon middle value behind, h, first, fuel, hfuel => by
      simp only [Members.tokens, List.length_append] at hfuel
      have hname := length_nameTokens name colon.laid
      obtain ⟨fuel, rfl⟩ : ∃ n, fuel = n + 3 := ⟨fuel - 3, by omega⟩
      by_cases hnear : isNear name colon.laid = true
      · have hvalue : ¬ ∀ part ∈ value.parts, part.IsKeyed := fun hall =>
          h (Members.forall_parts_last.mpr
            ⟨trivial, trivial, hnear, trivial, trivial, hall, trivial⟩)
        rw [Members.tokens, nameTokens_of_isNear hnear]
        exact refuses_entry (refuses_member (exists_cons_tokens value)
          (refuses_text value hvalue fuel (by omega) .flow))
      · rw [Members.tokens, nameTokens_of_not_isNear hnear]
        exact refuses_unkeyed _ _
  | .more before name colon middle value behind rest, h, first, fuel, hfuel => by
      simp only [Members.tokens, List.length_append, List.length_cons] at hfuel
      have hname := length_nameTokens name colon.laid
      obtain ⟨fuel, rfl⟩ : ∃ n, fuel = n + 3 := ⟨fuel - 3, by omega⟩
      by_cases hnear : isNear name colon.laid = true
      · rw [Members.tokens, nameTokens_of_isNear hnear]
        by_cases hvalue : ∀ part ∈ value.parts, part.IsKeyed
        · have hrest : ¬ ∀ part ∈ rest.parts, part.IsKeyed := fun hall =>
            h (Members.forall_parts_more.mpr
              ⟨trivial, trivial, hnear, trivial, trivial, hvalue, trivial, hall⟩)
          exact refuses_entry (refuses_further hvalue (by omega)
            (refuses_members rest hrest false (fuel + 2) (by omega)))
        · exact refuses_entry ((refuses_member (exists_cons_tokens value)
            (refuses_text value hvalue fuel (by omega) .flow)).append _)
      · rw [Members.tokens, nameTokens_of_not_isNear hnear]
        exact refuses_unkeyed _ _

end

end JsonText
end ApiManifest
