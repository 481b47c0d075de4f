import ApiManifest.Proofs.Shapes
import ApiManifest.Proofs.Steps

/-!
# Nodes of layouts

Parsing the tokens of a layout gives a graph of nodes in which one node stands for the tree of the
layout. A collection gets its number before its parts are read and its contents after that. So it is
not enough that nodes are only added: what was read of the parts has to stay true when the node in
front of them is changed. It is therefore stated for every graph that has the nodes that were added
for the parts.
-/

namespace ApiManifest.Yaml

/-! ## What a graph stands for -/

namespace Graph

mutual

/-- A node stands for a tree. A mapping has texts for keys, none of them twice. -/
def Represents (g : Graph) (id : Nat) : Tree → Prop
  | .scalar s => ∃ tag text, g.nodes[id]? = some ⟨tag, .text text⟩ ∧ scalarOf tag text = .ok s
  | .list items => ∃ ids, g.nodes[id]? = some ⟨.seq, .items ids⟩ ∧ RepresentsAll g ids items
  | .map entries => ∃ ids, g.nodes[id]? = some ⟨.map, .entries ids⟩ ∧
      RepresentsEntries g ids entries ∧ (entries.map Prod.fst).Nodup
  | _ => False

/-- Nodes stand for trees, one for each. -/
def RepresentsAll (g : Graph) : List Nat → List Tree → Prop
  | [], [] => True
  | id :: ids, t :: ts => Represents g id t ∧ RepresentsAll g ids ts
  | _, _ => False

/-- Pairs of nodes stand for entries, one for each. -/
def RepresentsEntries (g : Graph) : List (Nat × Nat) → List (Tree × Tree) → Prop
  | [], [] => True
  | (key, id) :: ids, (k, t) :: rest =>
    (∃ name, k = .text name ∧ g.nodes[key]? = some ⟨.str, .text name⟩) ∧ Represents g id t ∧
      RepresentsEntries g ids rest
  | _, _ => False

end

/-- Nodes are added to a graph, and by them alone something holds of it. -/
structure Adds (g g' : Graph) (P : Graph → Prop) : Prop where
  le : g.size ≤ g'.size
  kept : ∀ id, id < g.size → g'.nodes[id]? = g.nodes[id]?
  holds : ∀ h : Graph, (∀ id, g.size ≤ id → id < g'.size → h.nodes[id]? = g'.nodes[id]?) → P h

namespace Adds

variable {g g' g'' : Graph} {P Q : Graph → Prop}

theorem self (g : Graph) (P : Graph → Prop) (h : ∀ g, P g) : Adds g g P :=
  ⟨Nat.le_refl _, fun _ _ => rfl, fun g _ => h g⟩

theorem mono (h : Adds g g' P) (hPQ : ∀ g, P g → Q g) : Adds g g' Q :=
  ⟨h.le, h.kept, fun g hg => hPQ g (h.holds g hg)⟩

theorem trans (h : Adds g g' P) (h' : Adds g' g'' Q) : Adds g g'' fun g => P g ∧ Q g where
  le := Nat.le_trans h.le h'.le
  kept id hid := (h'.kept id (Nat.lt_of_lt_of_le hid h.le)).trans (h.kept id hid)
  holds k hk := by
    constructor
    · refine h.holds k fun id hlow hhigh => ?_
      rw [hk id hlow (Nat.lt_of_lt_of_le hhigh h'.le), h'.kept id hhigh]
    · exact h'.holds k fun id hlow hhigh => hk id (Nat.le_trans h.le hlow) hhigh

theorem add (g : Graph) (node : Node) :
    Adds g (g.add node) fun h => h.nodes[g.size]? = some node where
  le := by simp [size, Graph.add]
  kept id hid := by
    have : id ≠ g.nodes.size := Nat.ne_of_lt hid
    simp [Graph.add, Array.getElem?_push, this]
  holds h hh := by
    rw [hh g.size (Nat.le_refl _) (by simp [size, Graph.add])]
    simp [Graph.add, size]

/-- A collection gets its contents, which are made of what is added behind it. -/
theorem collect {tag : Tag} {early : Contents} (h : Adds (g.add ⟨tag, early⟩) g' P)
    (contents : Contents) : Adds g (g'.setContents g.size contents) fun h =>
      h.nodes[g.size]? = some ⟨tag, contents⟩ ∧ P h := by
  have hsize : (g.add ⟨tag, early⟩).size = g.size + 1 := by simp [size, Graph.add]
  have hsize' : (g'.setContents g.size contents).size = g'.size := by simp [size, setContents]
  have hle := h.le
  rw [hsize] at hle
  have hnode : (g'.setContents g.size contents).nodes[g.size]? = some ⟨tag, contents⟩ := by
    rw [setContents, Array.getElem?_modify, if_pos rfl, h.kept g.size (by omega)]
    simp [Graph.add, size]
  have hset (id : Nat) (hid : id ≠ g.size) :
      (g'.setContents g.size contents).nodes[id]? = g'.nodes[id]? := by
    rw [setContents, Array.getElem?_modify, if_neg (Ne.symm hid)]
  refine ⟨by omega, fun id hid => ?_, fun k hk => ⟨?_, h.holds k fun id hlow hhigh => ?_⟩⟩
  · rw [hset id (by omega), h.kept id (by omega)]
    have : id ≠ g.nodes.size := Nat.ne_of_lt hid
    simp [Graph.add, Array.getElem?_push, this]
  · rw [hk g.size (Nat.le_refl _) (by omega), hnode]
  · rw [hk id (by omega) (by omega), hset id (by omega)]

end Adds
end Graph

/-! ## Parsing -/

namespace Parse

variable {α β : Type} {p : Parser} {t : Token} {ts : List Token}

/-! ### Steps -/

theorem gives_peek (h : p.tokens = t :: ts) : Gives peek p t p := by
  simp [Gives, peek, h]
  rfl

theorem gives_advance (h : p.tokens = t :: ts) : Gives advance p () { p with tokens := ts } := by
  simp [Gives, advance, h]
  rfl

theorem gives_take (h : p.tokens = t :: ts) : Gives (take t) p true { p with tokens := ts } := by
  refine (gives_peek h).bind ?_
  rw [if_pos rfl]
  exact (gives_advance h).bind (gives_pure true _)

theorem gives_take_of_ne (h : p.tokens = t :: ts) {token : Token} (hne : t ≠ token) :
    Gives (take token) p false p := by
  refine (gives_peek h).bind ?_
  rw [if_neg hne]
  exact gives_pure false p

/-- What a step comes to: it passes some tokens, and of the nodes that it adds something holds. -/
def Parses (step : Parse α) (tokens : List Token) (P : α → Graph → Prop) : Prop :=
  ∀ (p : Parser) (rest : List Token), p.tokens = tokens ++ rest →
    ∃ a p', Gives step p a p' ∧ p'.tokens = rest ∧ Graph.Adds p.graph p'.graph (P a)

namespace Parses

variable {tokens tokens' : List Token} {P : α → Graph → Prop}

theorem pure (a : α) (h : ∀ g, P a g) : Parses (pure a) [] P :=
  fun p _ hp => ⟨a, p, gives_pure a p, hp, .self p.graph _ h⟩

theorem mono {x : Parse α} (h : Parses x tokens P) {P' : α → Graph → Prop}
    (hP : ∀ a g, P a g → P' a g) : Parses x tokens P' := by
  intro p rest hp
  obtain ⟨a, p', hgives, hrest, hadds⟩ := h p rest hp
  exact ⟨a, p', hgives, hrest, hadds.mono (hP a)⟩

/-- One more part is put in front of others. -/
theorem cons {x : Parse α} {xs : Parse (List α)} {P : α → Graph → Prop}
    {Q R : List α → Graph → Prop} (hx : Parses x tokens P) (hxs : Parses xs tokens' Q)
    (hR : ∀ a as g, P a g → Q as g → R (a :: as) g) :
    Parses (do let a ← x; return a :: (← xs)) (tokens ++ tokens') R := by
  intro p rest hp
  rw [List.append_assoc] at hp
  obtain ⟨a, p₁, hgives₁, hrest₁, hadds₁⟩ := hx p _ hp
  obtain ⟨as, p₂, hgives₂, hrest₂, hadds₂⟩ := hxs p₁ rest hrest₁
  exact ⟨a :: as, p₂, hgives₁.bind (hgives₂.bind (gives_pure _ _)), hrest₂,
    (hadds₁.trans hadds₂).mono fun g hg => hR a as g hg.1 hg.2⟩

/-- Two parts make a pair. -/
theorem pair {x : Parse α} {y : Parse β} {P : α → Graph → Prop} {Q : β → Graph → Prop}
    (hx : Parses x tokens P) (hy : Parses y tokens' Q) :
    Parses (do let a ← x; let b ← y; return (a, b)) (tokens ++ tokens') fun ab g =>
      P ab.1 g ∧ Q ab.2 g := by
  intro p rest hp
  rw [List.append_assoc] at hp
  obtain ⟨a, p₁, hgives₁, hrest₁, hadds₁⟩ := hx p _ hp
  obtain ⟨b, p₂, hgives₂, hrest₂, hadds₂⟩ := hy p₁ rest hrest₁
  exact ⟨(a, b), p₂, hgives₁.bind (hgives₂.bind (gives_pure _ _)), hrest₂, hadds₁.trans hadds₂⟩

/-- A token is passed. -/
theorem take {f : Bool → Parse α} (h : Parses (f true) tokens P) :
    Parses (take t >>= f) (t :: tokens) P := by
  intro p rest hp
  obtain ⟨a, p', hgives, hrest, hadds⟩ := h { p with tokens := tokens ++ rest } rest rfl
  exact ⟨a, p', (gives_take hp).bind hgives, hrest, hadds⟩

/-- Another token is passed over. -/
theorem skip {f : Bool → Parse α} {token : Token} (htokens : tokens = t :: ts) (hne : t ≠ token)
    (h : Parses (f false) tokens P) : Parses (Parse.take token >>= f) tokens P := by
  intro p rest hp
  obtain ⟨a, p', hgives, hrest, hadds⟩ := h p rest hp
  have hp' : p.tokens = t :: (ts ++ rest) := by rw [hp, htokens, List.cons_append]
  exact ⟨a, p', (gives_take_of_ne hp' hne).bind hgives, hrest, hadds⟩

theorem expect {f : Unit → Parse α} (h : Parses (f ()) tokens P) :
    Parses (expect t >>= f) (t :: tokens) P := by
  intro p rest hp
  obtain ⟨a, p', hgives, hrest, hadds⟩ := h { p with tokens := tokens ++ rest } rest rfl
  exact ⟨a, p', ((gives_take hp).bind (gives_pure () _)).bind hgives, hrest, hadds⟩

end Parses

/-! ### Nodes -/

/-- A token with which a value begins. -/
def beginsValue : Token → Bool
  | .scalar .. | .flowSequenceStart | .flowMappingStart | .blockMappingStart => true
  | _ => false

/-- Nothing stands before such a token that would belong to the value. -/
theorem gives_properties (h : p.tokens = t :: ts) (ht : beginsValue t) :
    Gives properties p {} p := by
  cases t with
  | scalar | flowSequenceStart | flowMappingStart | blockMappingStart =>
      refine ((gives_peek h).bind (gives_pure none p)).bind ?_
      refine Gives.bind ((gives_peek h).bind (gives_pure none p)) ?_
      exact gives_pure _ p
  | _ => cases ht

theorem gives_add (node : Node) (p : Parser) :
    Gives (add node) p p.graph.size { p with graph := p.graph.add node } := rfl

theorem parses_scalar (text : String) (isPlain : Bool) (context : Context) (fuel : Nat) :
    Parses (node context (fuel + 1)) [.scalar text isPlain] fun id g =>
      g.nodes[id]? = some ⟨scalarTag none isPlain text, .text text⟩ := by
  intro p rest hp
  refine ⟨p.graph.size,
    { p with tokens := rest, graph := p.graph.add ⟨scalarTag none isPlain text, .text text⟩ }, ?_,
    rfl, Graph.Adds.add p.graph _⟩
  exact (gives_peek hp).bind ((gives_properties hp rfl).bind ((gives_pure none p).bind
    ((gives_peek hp).bind ((gives_advance hp).bind (gives_add _ _)))))

variable {tokens : List Token} {fuel : Nat}

/-- A collection has its node before its parts have theirs, and its contents after that. -/
theorem parses_collection {x : Parse Nat} {step : Parse α} {tag : Tag} {contents : α → Contents}
    {P : α → Graph → Prop} (h : Parses step tokens P)
    (hnode : ∀ (p p' : Parser) (rest : List Token) (a : α), p.tokens = t :: rest →
      Gives step { p with tokens := rest, graph := p.graph.add ⟨tag, .items []⟩ } a p' →
      Gives x p p.graph.size { p' with graph := p'.graph.setContents p.graph.size (contents a) }) :
    Parses x (t :: tokens) fun id g => ∃ a, g.nodes[id]? = some ⟨tag, contents a⟩ ∧ P a g := by
  intro p rest hp
  obtain ⟨a, p', hgives, hrest, hadds⟩ :=
    h { p with tokens := tokens ++ rest, graph := p.graph.add ⟨tag, .items []⟩ } rest rfl
  exact ⟨_, _, hnode p p' _ a hp hgives, hrest, (hadds.collect _).mono fun g hg => ⟨a, hg⟩⟩

/-- The node of a collection is added, its parts are read behind its first token, and then it gets
its contents. -/
theorem gives_collection {step : Parse α} {tag : Tag} {contents : α → Contents} {a : α}
    {p' : Parser} (hp : p.tokens = t :: ts)
    (h : Gives step { p with tokens := ts, graph := p.graph.add ⟨tag, .items []⟩ } a p') :
    Gives (do
        let id ← addNamed none ⟨tag, .items []⟩
        let found ← (do advance; return contents (← step) : Parse Contents)
        modify fun p => { p with graph := p.graph.setContents id found }
        return id)
      p p.graph.size { p' with graph := p'.graph.setContents p.graph.size (contents a) } := by
  have hp' : ({ p with graph := p.graph.add ⟨tag, .items []⟩ } : Parser).tokens = t :: ts := hp
  refine (gives_add _ p).bind ?_
  refine Gives.bind ((gives_advance hp').bind (h.bind (gives_pure (contents a) p'))) ?_
  exact (gives_modify _ p').bind (gives_pure _ _)

/-- A list in brackets. -/
theorem parses_node_items {P : List Nat → Graph → Prop} (h : Parses (flowItems true fuel) tokens P)
    (context : Context) :
    Parses (node context (fuel + 1)) (.flowSequenceStart :: tokens) fun id g =>
      ∃ ids, g.nodes[id]? = some ⟨.seq, .items ids⟩ ∧ P ids g := by
  refine parses_collection h fun p p' rest ids hp hgives => ?_
  exact (gives_peek hp).bind ((gives_properties hp rfl).bind ((gives_pure none p).bind
    ((gives_peek hp).bind (gives_collection hp hgives))))

/-- A mapping in braces. -/
theorem parses_node_braces {P : List (Nat × Nat) → Graph → Prop}
    (h : Parses (flowEntries true fuel) tokens P) (context : Context) :
    Parses (node context (fuel + 1)) (.flowMappingStart :: tokens) fun id g =>
      ∃ ids, g.nodes[id]? = some ⟨.map, .entries ids⟩ ∧ P ids g := by
  refine parses_collection h fun p p' rest ids hp hgives => ?_
  exact (gives_peek hp).bind ((gives_properties hp rfl).bind ((gives_pure none p).bind
    ((gives_peek hp).bind (gives_collection hp hgives))))

/-- Fields. -/
theorem parses_node_block {P : List (Nat × Nat) → Graph → Prop}
    (h : Parses (blockEntries fuel) tokens P) {context : Context} (hcontext : context ≠ .flow) :
    Parses (node context (fuel + 1)) (.blockMappingStart :: tokens) fun id g =>
      ∃ ids, g.nodes[id]? = some ⟨.map, .entries ids⟩ ∧ P ids g := by
  refine parses_collection h fun p p' rest ids hp hgives => ?_
  cases context with
  | flow => exact absurd rfl hcontext
  | block | mappingPart =>
      exact (gives_peek hp).bind ((gives_properties hp rfl).bind ((gives_pure none p).bind
        ((gives_peek hp).bind (gives_collection hp hgives))))

theorem parses_nodeUnless {ends : List Token} {context : Context} {P : Nat → Graph → Prop}
    (htokens : tokens = t :: ts) (ht : ends.contains t = false)
    (h : Parses (node context fuel) tokens P) :
    Parses (nodeUnless ends context (fuel + 1)) tokens P := by
  intro p rest hp
  obtain ⟨id, p', hgives, hrest, hadds⟩ := h p rest hp
  have hp' : p.tokens = t :: (ts ++ rest) := by rw [hp, htokens, List.cons_append]
  refine ⟨id, p', ((gives_peek hp').bind (gives_pure (ends.contains t) p)).bind ?_, hrest, hadds⟩
  rw [ht]
  exact hgives

/-! ### Flows -/

theorem ne_of_beginsValue {token : Token} (ht : beginsValue t)
    (htoken : beginsValue token = false) : t ≠ token := by
  rintro rfl
  simp [ht] at htoken

theorem contains_of_beginsValue {ends : List Token} (ht : beginsValue t)
    (hends : ends.all fun token => !beginsValue token) : ends.contains t = false := by
  rw [List.contains_eq_any_beq, List.any_eq_false]
  intro token htoken
  have := List.all_eq_true.mp hends token htoken
  simpa using ne_of_beginsValue ht (by simpa using this)

theorem exists_cons_tokens (x : Shape) : ∃ t ts, x.tokens = t :: ts ∧ beginsValue t := by
  cases x with
  | scalar => exact ⟨_, _, rfl, rfl⟩
  | items => exact ⟨_, _, rfl, rfl⟩
  | braces => exact ⟨_, _, rfl, rfl⟩

theorem length_tokens_pos (x : Shape) : 0 < x.tokens.length := by
  obtain ⟨t, ts, h, -⟩ := exists_cons_tokens x
  simp [h]

theorem length_itemTokens_pos (first : Bool) (xs : List Shape) :
    0 < (Shape.itemTokens first xs).length := by
  cases xs with
  | nil => simp [Shape.itemTokens]
  | cons x xs =>
      have := length_tokens_pos x
      simp only [Shape.itemTokens, List.length_append]
      omega

/-- Different names are different keys. -/
theorem nodup_texts {names : List String} (h : names.Nodup) : (names.map Tree.text).Nodup :=
  List.Pairwise.map _ (fun _ _ hne heq => hne (by simpa using heq)) h

theorem keys_entryTrees (entries : List (String × Flow)) :
    (Flow.entryTrees entries).map Prod.fst = (entries.map Prod.fst).map Tree.text := by
  induction entries with
  | nil => rfl
  | cons entry entries ih => simpa [Flow.entryTrees] using ih

/-- A key and a value, each of which is there. -/
theorem parses_entry {key : String} {isPlain : Bool} (hkey : scalarTag none isPlain key = .str)
    (ends : List Token) (hends : ends.all fun token => !beginsValue token) (context : Context)
    (fuel : Nat) {value : Parse Nat} {P : Nat → Graph → Prop} (hvalue : Parses value tokens P) :
    Parses (do let k ← nodeUnless ends context (fuel + 2); let v ← value; return (k, v))
      (.scalar key isPlain :: tokens) fun entry g =>
        g.nodes[entry.1]? = some ⟨.str, .text key⟩ ∧ P entry.2 g := by
  have hscalar := parses_nodeUnless rfl (contains_of_beginsValue rfl hends)
    (parses_scalar key isPlain context fuel)
  rw [hkey] at hscalar
  exact hscalar.pair hvalue

mutual

/-- **A shape is parsed as a node that is made of it.** -/
theorem parses_shape : ∀ (x : Shape) (fuel : Nat), 4 * x.tokens.length ≤ fuel →
    ∀ context : Context, Parses (node context fuel) x.tokens fun id g => x.Built g id
  | .scalar text isPlain, fuel, hfuel, context => by
      simp only [Shape.tokens, List.length_singleton] at hfuel
      obtain ⟨fuel, rfl⟩ := Nat.exists_eq_add_one.mpr (show 0 < fuel by omega)
      exact parses_scalar _ _ context fuel
  | .items xs, fuel, hfuel, context => by
      simp only [Shape.tokens, List.length_cons] at hfuel
      obtain ⟨fuel, rfl⟩ := Nat.exists_eq_add_one.mpr (show 0 < fuel by omega)
      exact parses_node_items (parses_items xs true fuel (by omega)) context
  | .braces entries, fuel, hfuel, context => by
      simp only [Shape.tokens, List.length_cons] at hfuel
      obtain ⟨fuel, rfl⟩ := Nat.exists_eq_add_one.mpr (show 0 < fuel by omega)
      exact parses_node_braces (parses_entries entries true fuel (by omega)) context

theorem parses_items : ∀ (xs : List Shape) (first : Bool) (fuel : Nat),
    4 * (Shape.itemTokens first xs).length ≤ fuel →
    Parses (flowItems first fuel) (Shape.itemTokens first xs) fun ids g => Shape.BuiltAll g ids xs
  | [], first, fuel, hfuel => by
      simp only [Shape.itemTokens, List.length_singleton] at hfuel
      obtain ⟨fuel, rfl⟩ := Nat.exists_eq_add_one.mpr (show 0 < fuel by omega)
      rw [flowItems]
      exact .take (.pure [] fun _ => trivial)
  | x :: xs, first, fuel, hfuel => by
      have hx := length_tokens_pos x
      have hxs := length_itemTokens_pos false xs
      simp only [Shape.itemTokens, List.length_append] at hfuel
      obtain ⟨fuel, rfl⟩ := Nat.exists_eq_add_one.mpr (show 0 < fuel by omega)
      obtain ⟨t, ts, htokens, ht⟩ := exists_cons_tokens x
      have hcons : x.tokens ++ Shape.itemTokens false xs = t :: (ts ++ Shape.itemTokens false xs) :=
        by rw [htokens, List.cons_append]
      have hboth := (parses_shape x fuel (by omega) .flow).cons
        (parses_items xs false fuel (by omega))
        (R := fun ids g => Shape.BuiltAll g ids (x :: xs)) fun _ _ _ h hs => ⟨h, hs⟩
      rw [flowItems]
      -- a comma stands in front of the item, unless it is the first one
      cases first with
      | true =>
          refine .skip hcons (ne_of_beginsValue ht rfl) ?_
          simp only [Bool.false_eq_true, if_false, if_true]
          refine .skip hcons (ne_of_beginsValue ht rfl) ?_
          refine .skip hcons (ne_of_beginsValue ht rfl) ?_
          exact hboth
      | false =>
          refine .skip (t := .flowEntry) rfl (by simp) (.expect ?_)
          refine .skip hcons (ne_of_beginsValue ht rfl) ?_
          refine .skip hcons (ne_of_beginsValue ht rfl) ?_
          exact hboth

theorem parses_entries : ∀ (entries : List (String × Shape)) (first : Bool) (fuel : Nat),
    4 * (Shape.entryTokens first entries).length ≤ fuel →
    Parses (flowEntries first fuel) (Shape.entryTokens first entries) fun ids g =>
      Shape.BuiltEntries g ids entries
  | [], first, fuel, hfuel => by
      simp only [Shape.entryTokens, List.length_singleton] at hfuel
      obtain ⟨fuel, rfl⟩ := Nat.exists_eq_add_one.mpr (show 0 < fuel by omega)
      rw [flowEntries]
      exact .take (.pure [] fun _ => trivial)
  | (key, x) :: entries, first, fuel, hfuel => by
      have hx := length_tokens_pos x
      simp only [Shape.entryTokens, List.length_append, List.length_cons] at hfuel
      obtain ⟨fuel, rfl⟩ : ∃ n, fuel = n + 3 := ⟨fuel - 3, by omega⟩
      obtain ⟨t, ts, htokens, ht⟩ := exists_cons_tokens x
      have hvalue : Parses (flowValue .flowMappingEnd (fuel + 2)) (.value :: x.tokens) fun id g =>
          x.Built g id := by
        rw [flowValue]
        exact .take (parses_nodeUnless htokens (contains_of_beginsValue ht rfl)
          (parses_shape x fuel (by omega) .flow))
      have hkey : scalarTag none false key = .str := rfl
      have hentry := parses_entry hkey [.value, .flowEntry, .flowMappingEnd] rfl .flow fuel hvalue
      -- the value and the other entries are parsed one after the other, with fuel to spare for both
      have hboth := hentry.cons (parses_entries entries false (fuel + 2) (by omega))
        (R := fun ids g => Shape.BuiltEntries g ids ((key, x) :: entries))
        fun _ _ _ h hs => ⟨h.1, h.2, hs⟩
      simp only [bind_assoc, pure_bind] at hboth
      rw [flowEntries]
      cases first with
      | true =>
          refine .skip (t := .key) rfl (by simp) ?_
          simp only [Bool.false_eq_true, if_false, if_true]
          exact .take hboth
      | false =>
          refine .skip (t := .flowEntry) rfl (by simp) (.expect ?_)
          exact .take hboth

end

mutual

/-- What is made of a flow stands for its tree. -/
theorem represents_of_built {g : Graph} : ∀ {f : Flow} {id : Nat}, f.Distinct →
    f.shape.Built g id → g.Represents id f.tree
  | .scalar literal, _, _, h => ⟨_, _, h, literal.stands⟩
  | .items _, _, hd, ⟨ids, hnode, h⟩ => ⟨ids, hnode, representsAll_of_built hd h⟩
  | .braces entries, _, hd, ⟨ids, hnode, h⟩ =>
      ⟨ids, hnode, representsEntries_of_built hd.2 h, keys_entryTrees entries ▸ nodup_texts hd.1⟩

theorem representsAll_of_built {g : Graph} : ∀ {xs : List Flow} {ids : List Nat},
    Flow.AllDistinct xs → Shape.BuiltAll g ids (Flow.shapes xs) →
    g.RepresentsAll ids (Flow.trees xs)
  | [], [], _, _ => trivial
  | [], _ :: _, _, h => h.elim
  | _ :: _, [], _, h => h.elim
  | _ :: _, _ :: _, hd, h => ⟨represents_of_built hd.1 h.1, representsAll_of_built hd.2 h.2⟩

theorem representsEntries_of_built {g : Graph} : ∀ {entries : List (String × Flow)}
    {ids : List (Nat × Nat)}, Flow.EntriesDistinct entries →
    Shape.BuiltEntries g ids (Flow.entryShapes entries) →
    g.RepresentsEntries ids (Flow.entryTrees entries)
  | [], [], _, _ => trivial
  | [], _ :: _, _, h => h.elim
  | _ :: _, [], _, h => h.elim
  | (key, _) :: _, (_, _) :: _, hd, h =>
      ⟨⟨key, rfl, h.1⟩, represents_of_built hd.1 h.2.1, representsEntries_of_built hd.2 h.2.2⟩

end

/-- A flow is parsed as a node that stands for its tree. -/
theorem parses_flow (f : Flow) (hd : f.Distinct) (fuel : Nat) (hfuel : 4 * f.tokens.length ≤ fuel)
    (context : Context) :
    Parses (node context fuel) f.tokens fun id g => g.Represents id f.tree := by
  rw [← f.tokens_shape] at hfuel ⊢
  exact (parses_shape f.shape fuel hfuel context).mono fun _ _ h => represents_of_built hd h

/-! ### Layouts -/

theorem exists_cons_layout (value : Layout) : ∃ t ts, value.tokens = t :: ts ∧ beginsValue t := by
  cases value with
  | flow chars f =>
      rw [Layout.tokens, ← f.tokens_shape]
      exact exists_cons_tokens f.shape
  | block fields => exact ⟨_, _, rfl, rfl⟩

theorem keys_trees : ∀ fields : Block, fields.trees.map Prod.fst = fields.names.map Tree.text
  | .last _ _ => rfl
  | .field name _ rest => congrArg (Tree.text name.text :: ·) (keys_trees rest)

/-- The end of a mapping. -/
theorem parses_blockEnd (fuel : Nat) : Parses (blockEntries (fuel + 1)) [.blockEnd] fun ids g =>
    g.RepresentsEntries ids [] := by
  rw [blockEntries]
  exact .skip rfl (by simp) (.expect (.pure [] fun _ => trivial))

/-- A field, and what follows it. -/
theorem parses_field {name : FieldName} {value : Layout} {rest : Entries} {fuel : Nat}
    (hvalue : Parses (node .mappingPart fuel) value.tokens fun id g => g.Represents id value.tree)
    (hrest : Parses (blockEntries (fuel + 2)) tokens fun ids g => g.RepresentsEntries ids rest) :
    Parses (blockEntries (fuel + 3))
      (.key :: .scalar name.text true :: .value :: value.tokens ++ tokens) fun ids g =>
        g.RepresentsEntries ids ((.text name.text, value.tree) :: rest) := by
  obtain ⟨t, ts, htokens, ht⟩ := exists_cons_layout value
  have hpart : Parses (blockValue (fuel + 2)) (.value :: value.tokens) fun id g =>
      g.Represents id value.tree := by
    rw [blockValue]
    exact .take (parses_nodeUnless htokens (contains_of_beginsValue ht rfl) hvalue)
  have hkey : scalarTag none true name.text = .str := name.shownBy
  have hboth := (parses_entry hkey endsBlockPart rfl .mappingPart fuel hpart).cons
    hrest (R := fun ids g => g.RepresentsEntries ids ((.text name.text, value.tree) :: rest))
    fun _ _ _ h hs => ⟨⟨_, rfl, h.1⟩, h.2, hs⟩
  simp only [bind_assoc, pure_bind] at hboth
  rw [blockEntries]
  exact .take hboth

mutual

/-- The value of a field is parsed as a node that stands for its tree. -/
theorem parses_layout : ∀ value : Layout, value.Distinct → ∀ fuel : Nat,
    4 * value.tokens.length ≤ fuel → ∀ context : Context, context ≠ .flow →
    Parses (node context fuel) value.tokens fun id g => g.Represents id value.tree
  | .flow chars f, hd, fuel, hfuel, context, _ => parses_flow f hd fuel hfuel context
  | .block fields, hd, fuel, hfuel, context, hcontext => by
      simp only [Layout.tokens, List.length_append, List.length_cons, List.length_nil] at hfuel
      obtain ⟨fuel, rfl⟩ := Nat.exists_eq_add_one.mpr (show 0 < fuel by omega)
      refine (parses_node_block (parses_block fields hd.2 fuel (by omega)) hcontext).mono ?_
      exact fun id g ⟨ids, hnode, hg⟩ => ⟨ids, hnode, hg, keys_trees fields ▸ nodup_texts hd.1⟩

/-- Fields are parsed up to the end of their mapping. -/
theorem parses_block : ∀ fields : Block, fields.Distinct → ∀ fuel : Nat,
    4 * fields.tokens.length + 1 ≤ fuel →
    Parses (blockEntries fuel) (fields.tokens ++ [.blockEnd]) fun ids g =>
      g.RepresentsEntries ids fields.trees
  | .last name value, hd, fuel, hfuel => by
      simp only [Block.tokens, List.length_cons] at hfuel
      obtain ⟨fuel, rfl⟩ : ∃ n, fuel = n + 3 := ⟨fuel - 3, by omega⟩
      exact parses_field (parses_layout value hd fuel (by omega) _ (by simp)) (parses_blockEnd _)
  | .field name value rest, hd, fuel, hfuel => by
      simp only [Block.tokens, List.length_append, List.length_cons] at hfuel
      obtain ⟨fuel, rfl⟩ : ∃ n, fuel = n + 3 := ⟨fuel - 3, by omega⟩
      rw [Block.tokens, List.append_assoc]
      exact parses_field (parses_layout value hd.1 fuel (by omega) _ (by simp))
        (parses_block rest hd.2 (fuel + 2) (by omega))

end

/-! ### Documents -/

theorem gives_isNext (h : p.tokens = t :: ts) (tokens : List Token) :
    Gives (isNext tokens) p (tokens.contains t) p :=
  (gives_peek h).bind (gives_pure _ _)

theorem gives_isDirectiveNext (h : p.tokens = t :: ts) (ht : beginsValue t) :
    Gives isDirectiveNext p false p := by
  cases t with
  | scalar | flowSequenceStart | flowMappingStart | blockMappingStart =>
      exact (gives_peek h).bind (gives_pure _ _)
  | _ => cases ht

/-- A document that begins with a value consists of it. -/
theorem gives_document {root : Nat} {p p₁ : Parser} (hp : p.tokens = t :: ts) (ht : beginsValue t)
    (hnode : Gives (node .block (fuel + 1)) { p with handles := usualHandles } root p₁)
    (hrest : p₁.tokens = [.streamEnd]) :
    Gives (document (fuel + 1)) p (some root) { p₁ with tokens := [] } := by
  have hends : Gives (documentEnds (fuel + 1)) p₁ () p₁ := by
    rw [documentEnds]
    exact (gives_take_of_ne hrest (by simp)).bind (gives_pure () _)
  have hroot : Gives (some <$> node .block (fuel + 1)) { p with handles := usualHandles }
      (some root) p₁ := by
    rw [map_eq_pure_bind]
    exact hnode.bind (gives_pure _ _)
  have hnext (tokens : List Token) (htokens : tokens.all fun token => !beginsValue token) :
      Gives (isNext tokens) p false p :=
    contains_of_beginsValue ht htokens ▸ gives_isNext hp tokens
  rw [document]
  refine (gives_isDirectiveNext hp ht).bind ((hnext _ rfl).bind ((hnext _ rfl).bind ?_))
  refine (gives_modify _ p).bind (hroot.bind (hends.bind ?_))
  exact (gives_take hrest).bind (gives_pure _ _)

end Parse

/-- A text whose tokens are those of a value, and no others, has the nodes of that value. -/
theorem compose_of_parses {text : List Char} {t : Token} {ts : List Token}
    {P : Nat → Graph → Prop} (hreadable : text.all isReadable)
    (htokens : tokensOf text = (t :: ts ++ [.streamEnd], none)) (ht : Parse.beginsValue t)
    (hparses : ∀ fuel, 4 * (t :: ts).length ≤ fuel →
      Parse.Parses (Parse.node .block fuel) (t :: ts) P) :
    ∃ g root, compose text = .ok (g, some root) ∧ P root g := by
  generalize hall : t :: ts ++ [.streamEnd] = tokens at htokens
  obtain ⟨root, p, hnode, hrest, hadds⟩ := hparses (4 * tokens.length + 8)
    (by simp [← hall]; omega) { tokens, handles := Parse.usualHandles } [.streamEnd] hall.symm
  have hdocument : Gives (Parse.document (4 * tokens.length + 8)) { tokens } (some root)
      { p with tokens := [] } := Parse.gives_document hall.symm ht hnode hrest
  refine ⟨p.graph, root, ?_, hadds.holds p.graph fun _ _ _ => rfl⟩
  unfold Gives at hdocument
  simp only [compose, hreadable, if_true, htokens, Option.getD_none, hdocument]

/-- **The nodes of a text that is laid out as fields.** The root of the graph stands for the tree of
the layout. -/
theorem compose_of_tokens {text : List Char} {fields : Block} (hreadable : text.all isReadable)
    (htokens : tokensOf text = ((Layout.block fields).tokens ++ [.streamEnd], none))
    (hdistinct : (Layout.block fields).Distinct) :
    ∃ g root, compose text = .ok (g, some root) ∧ g.Represents root (Layout.block fields).tree :=
  compose_of_parses hreadable htokens rfl fun fuel hfuel =>
    Parse.parses_layout (.block fields) hdistinct fuel hfuel .block (by simp)

end ApiManifest.Yaml
