import ApiManifest.Proofs.Layout

/-!
# Shapes of flows

What the tokens of a flow show of it: texts, in quotes or not, and how they are nested. Parsing
takes a flow by its shape alone, whatever its texts stand for.
-/

namespace ApiManifest.Yaml

/-- Texts in brackets and braces. -/
inductive Shape where
  | scalar (text : String) (isPlain : Bool)
  | items (items : List Shape)
  | braces (entries : List (String × Shape))

namespace Shape

mutual

/-- The tokens of a shape. -/
def tokens : Shape → List Token
  | scalar text isPlain => [.scalar text isPlain]
  | items xs => .flowSequenceStart :: itemTokens true xs
  | braces entries => .flowMappingStart :: entryTokens true entries

/-- The tokens of items, up to the closing bracket. A comma parts an item from the one before. -/
def itemTokens (first : Bool) : List Shape → List Token
  | [] => [.flowSequenceEnd]
  | x :: rest => (if first then [] else [.flowEntry]) ++ x.tokens ++ itemTokens false rest

/-- The tokens of entries with quoted keys, up to the closing brace. -/
def entryTokens (first : Bool) : List (String × Shape) → List Token
  | [] => [.flowMappingEnd]
  | (key, x) :: rest =>
    (if first then [] else [.flowEntry]) ++ .key :: .scalar key false :: .value :: x.tokens
      ++ entryTokens false rest

end

mutual

/-- A node has been made of a shape. -/
def Built (g : Graph) (id : Nat) : Shape → Prop
  | scalar text isPlain =>
    g.nodes[id]? = some ⟨Parse.scalarTag none isPlain text, .text text⟩
  | items xs => ∃ ids, g.nodes[id]? = some ⟨.seq, .items ids⟩ ∧ BuiltAll g ids xs
  | braces entries =>
    ∃ ids, g.nodes[id]? = some ⟨.map, .entries ids⟩ ∧ BuiltEntries g ids entries

/-- Nodes have been made of items, one of each. -/
def BuiltAll (g : Graph) : List Nat → List Shape → Prop
  | [], [] => True
  | id :: ids, x :: xs => x.Built g id ∧ BuiltAll g ids xs
  | _, _ => False

/-- Pairs of nodes have been made of entries, one of each. -/
def BuiltEntries (g : Graph) : List (Nat × Nat) → List (String × Shape) → Prop
  | [], [] => True
  | (k, id) :: ids, (key, x) :: entries =>
    g.nodes[k]? = some ⟨.str, .text key⟩ ∧ x.Built g id ∧ BuiltEntries g ids entries
  | _, _ => False

end
end Shape

/-! ## Shapes of flows whose texts stand for something -/

namespace Flow

mutual

/-- The shape of a flow. -/
def shape : Flow → Shape
  | scalar literal => .scalar literal.text literal.isPlain
  | items xs => .items (shapes xs)
  | braces entries => .braces (entryShapes entries)

/-- The shapes of items. -/
def shapes : List Flow → List Shape
  | [] => []
  | x :: rest => x.shape :: shapes rest

/-- The shapes of entries. -/
def entryShapes : List (String × Flow) → List (String × Shape)
  | [] => []
  | (key, x) :: rest => (key, x.shape) :: entryShapes rest

end

mutual

@[simp] theorem tokens_shape : ∀ f : Flow, f.shape.tokens = f.tokens
  | .scalar _ => rfl
  | .items xs => congrArg _ (itemTokens_shapes true xs)
  | .braces entries => congrArg _ (entryTokens_shapes true entries)

theorem itemTokens_shapes (first : Bool) : ∀ xs : List Flow,
    Shape.itemTokens first (shapes xs) = itemTokens first xs
  | [] => rfl
  | x :: rest => by
      simp only [shapes, Shape.itemTokens, itemTokens, tokens_shape x, itemTokens_shapes false rest]

theorem entryTokens_shapes (first : Bool) : ∀ entries : List (String × Flow),
    Shape.entryTokens first (entryShapes entries) = entryTokens first entries
  | [] => rfl
  | (key, x) :: rest => by
      simp only [entryShapes, Shape.entryTokens, entryTokens, tokens_shape x,
        entryTokens_shapes false rest]

end
end Flow
end ApiManifest.Yaml
