import ApiManifest.Proofs.Parsing
import ApiManifest.Proofs.Putting

/-!
# Values of nodes

A collection is made before its contents are, so while values are made some objects are still empty.
They are the ones that wait, with their nodes. What is sound about such a state says that every
other object holds what its node says. When nothing waits any more the value of a node that stands
for a tree shows that tree.

That this comes to an end is counted: each level that is made has a node whose value was made on
the level before it.

Making a value fails if a scalar cannot be read. It is said of a node whether there may be such a
scalar behind it. If there may be none, a value is made.
-/

namespace ApiManifest.Yaml

/-- What has the tag is one value, if it is any, and not an object. -/
def Tag.IsSingle : Tag → Prop
  | .timestamp | .seq | .omap | .pairs | .set | .map => False
  | _ => True

theorem Tag.isSingle_of_scalarOf {tag : Tag} {text : String} {s : Scalar}
    (h : scalarOf tag text = .ok s) : tag.IsSingle := by
  cases tag <;> trivial

/-! ## Nodes without anything to merge -/

namespace Graph

variable {g : Graph}

theorem tag_of_node {id : Nat} {node : Node} (h : g.nodes[id]? = some node) :
    g.tag id = node.tag := by
  simp [tag, Graph.node, h]

theorem contents_of_node {id : Nat} {node : Node} (h : g.nodes[id]? = some node) :
    g.contents id = node.contents := by
  simp [contents, Graph.node, h]

/-- The node of a key, which is a text. -/
def IsKey (g : Graph) (id : Nat) : Prop := ∃ name, g.nodes[id]? = some ⟨.str, .text name⟩

/-- A node is a scalar, a list or a mapping with text keys, and so are its parts. Only if `fails`,
there may be scalars that cannot be read. -/
inductive Regular (g : Graph) (fails : Prop) : Nat → Prop where
  | scalar {id : Nat} {tag : Tag} {text : String} (hnode : g.nodes[id]? = some ⟨tag, .text text⟩)
      (htag : tag.IsSingle) (hs : fails ∨ ∃ s, scalarOf tag text = .ok s) : Regular g fails id
  | list {id : Nat} {ids : List Nat} (hnode : g.nodes[id]? = some ⟨.seq, .items ids⟩)
      (hitems : ∀ part ∈ ids, Regular g fails part) : Regular g fails id
  | map {id : Nat} {ids : List (Nat × Nat)} (hnode : g.nodes[id]? = some ⟨.map, .entries ids⟩)
      (hkeys : ∀ entry ∈ ids, g.IsKey entry.1)
      (hvalues : ∀ entry ∈ ids, Regular g fails entry.2) : Regular g fails id

/-- A list or a mapping. -/
def IsCollection (g : Graph) (fails : Prop) (id : Nat) : Prop :=
  g.Regular fails id ∧ ∀ tag text, g.nodes[id]? ≠ some ⟨tag, .text text⟩

theorem Regular.lt_size {fails : Prop} {id : Nat} (h : g.Regular fails id) : id < g.size := by
  cases h with
  | scalar hnode | list hnode | map hnode => exact (Array.getElem?_eq_some_iff.mp hnode).1

mutual

/-- A node that stands for a tree is regular, and all its scalars can be read. -/
theorem Represents.regular (fails : Prop) : ∀ {t : Tree} {id : Nat}, g.Represents id t →
    g.Regular fails id
  | .scalar s, _, ⟨_, _, hnode, hs⟩ => .scalar hnode (Tag.isSingle_of_scalarOf hs) (.inr ⟨s, hs⟩)
  | .list _, _, ⟨_, hnode, hitems⟩ => .list hnode (hitems.regular fails)
  | .map _, _, ⟨_, hnode, hentries, _⟩ =>
      .map hnode (fun _ h => (hentries.regular fails _ h).1) fun _ h =>
        (hentries.regular fails _ h).2
  | .date _, _, h | .dateTime _, _, h | .tuple _, _, h | .set _, _, h => h.elim

theorem RepresentsAll.regular (fails : Prop) : ∀ {ts : List Tree} {ids : List Nat},
    g.RepresentsAll ids ts → ∀ id ∈ ids, g.Regular fails id
  | [], [], _, _, hid => absurd hid List.not_mem_nil
  | [], _ :: _, h, _, _ => h.elim
  | _ :: _, [], h, _, _ => h.elim
  | _ :: _, _ :: _, h, _, hid => by
      rcases List.mem_cons.mp hid with rfl | hid
      · exact h.1.regular fails
      · exact h.2.regular fails _ hid

theorem RepresentsEntries.regular (fails : Prop) : ∀ {ts : List (Tree × Tree)}
    {ids : List (Nat × Nat)}, g.RepresentsEntries ids ts →
    ∀ entry ∈ ids, g.IsKey entry.1 ∧ g.Regular fails entry.2
  | [], [], _, _, hentry => absurd hentry List.not_mem_nil
  | [], _ :: _, h, _, _ => h.elim
  | _ :: _, [], h, _, _ => h.elim
  | (_, _) :: _, (_, _) :: _, ⟨⟨name, _, hkey⟩, ht, hrest⟩, _, hentry => by
      rcases List.mem_cons.mp hentry with rfl | hentry
      · exact ⟨⟨name, hkey⟩, ht.regular fails⟩
      · exact hrest.regular fails _ hentry

end

theorem takeMerge_of_tags {ids : List (Nat × Nat)} (h : ∀ entry ∈ ids, g.tag entry.1 = .str) :
    g.takeMerge ids = none := by
  induction ids with
  | nil => rfl
  | cons entry ids ih =>
      have hne : g.tag entry.1 ≠ .merge := by simp [h entry List.mem_cons_self]
      rw [takeMerge, if_neg hne, ih fun e he => h e (List.mem_cons_of_mem _ he)]
      rfl

theorem settleKeys_of_tags {ids : List (Nat × Nat)} (h : ∀ entry ∈ ids, g.tag entry.1 = .str) :
    g.settleKeys ids = g := by
  unfold settleKeys
  induction ids with
  | nil => rfl
  | cons entry ids ih =>
      have hne : g.tag entry.1 ≠ .value := by simp [h entry List.mem_cons_self]
      rw [List.foldl_cons]
      simp only [if_neg hne]
      exact ih fun e he => h e (List.mem_cons_of_mem _ he)

theorem setContents_self {id : Nat} {node : Node} (h : g.nodes[id]? = some node) :
    g.setContents id node.contents = g := by
  refine congrArg Graph.mk (Array.ext_getElem? fun i => ?_)
  rw [Array.getElem?_modify]
  split
  case isTrue hi =>
    subst hi
    simp [h]
  case isFalse => rfl

/-- A mapping in which nothing is to be merged stays as it is. -/
theorem flatten_of_tags {id : Nat} {ids : List (Nat × Nat)}
    (hnode : g.nodes[id]? = some ⟨.map, .entries ids⟩)
    (h : ∀ entry ∈ ids, g.tag entry.1 = .str) : g.flatten id = .ok g := by
  have hentries : g.entries id = .ok ids := by simp [entries, contents_of_node hnode]
  have hself := setContents_self hnode
  have hmerge (steps : Nat) : Gives (mergeFrom (steps + 1) [] id) g () g := by
    refine (gives_get g).bind ((gives_lift hentries g).bind ((gives_get g).bind ?_))
    have hlast := gives_modify (fun g => (g.settleKeys ids).setContents id (.entries ids)) g
    simp only [settleKeys_of_tags h, hself] at hlast
    rw [takeMerge_of_tags h]
    exact hlast
  unfold Gives at hmerge
  simp only [flatten, hmerge]
  rfl

end Graph

/-! ## States -/

namespace Construction

variable {g : Graph} {fails : Prop} {c c' c'' : Construction} {level : List (Nat × Nat)}
  {node : Nat}

/-- The value of a node has been made. -/
def Made (c : Construction) (node : Nat) (v : Value) : Prop := c.made[node]? = some (some v)

/-- An entry has been made of the nodes of its key and its value. -/
def MadeEntry (g : Graph) (c : Construction) (nodes : Nat × Nat) (entry : Value × Value) : Prop :=
  (∃ name, g.nodes[nodes.1]? = some ⟨.str, .text name⟩ ∧ entry.1 = .text name) ∧
    c.Made nodes.2 entry.2

/-- An object has the contents of a node. -/
inductive Fills (g : Graph) (c : Construction) (node : Nat) : Cell → Prop where
  | list {ids : List Nat} {vs : List Value} (hnode : g.nodes[node]? = some ⟨.seq, .items ids⟩)
      (hvs : List.Forall₂ c.Made ids vs) : Fills g c node (.list vs)
  | map {ids : List (Nat × Nat)} {es : List (Value × Value)}
      (hnode : g.nodes[node]? = some ⟨.map, .entries ids⟩)
      (hes : List.Forall₂ (MadeEntry g c) ids es) : Fills g c node (.map (Store.putAll [] es))

/-- The value of a node is complete, as far as its outermost level goes. -/
inductive Complete (g : Graph) (c : Construction) (node : Nat) : Value → Prop where
  | scalar {tag : Tag} {text : String} {s : Scalar}
      (hnode : g.nodes[node]? = some ⟨tag, .text text⟩) (hs : scalarOf tag text = .ok s) :
      Complete g c node (.scalar s)
  | object {id : Nat} {cell : Cell} (hcell : c.store.cells[id]? = some cell)
      (hfills : Fills g c node cell) : Complete g c node (.ref id)

/-- An object waits for the contents of its node, on this level or on the next one. -/
def Waits (c : Construction) (level : List (Nat × Nat)) (id node : Nat) : Prop :=
  (id, node) ∈ level ∨ (id, node) ∈ c.pending

/-- How many values are not made yet, with the objects that wait. -/
def room (c : Construction) : Nat := c.made.countP (·.isNone) + c.pending.length

/-- What holds while the objects of a level are filled. -/
structure Sound (g : Graph) (fails : Prop) (level : List (Nat × Nat)) (c : Construction) :
    Prop where
  graph : c.graph = g
  size : c.made.size = g.size
  /-- What has been made is complete, or it waits. -/
  complete : ∀ node v, c.Made node v →
    Complete g c node v ∨ ∃ id, v = .ref id ∧ c.Waits level id node
  object : ∀ node id, c.Made node (.ref id) → id < c.store.cells.size
  /-- Nodes do not share an object, so the one that waits can be filled. -/
  owner : ∀ node node' id, c.Made node (.ref id) → c.Made node' (.ref id) → node = node'
  waits : ∀ id node, c.Waits level id node → c.Made node (.ref id) ∧ g.IsCollection fails node

/-- What holds from one state to a later one. -/
structure Reaches (c c' : Construction) : Prop where
  made : ∀ node v, c.Made node v → c'.Made node v
  room : c'.room ≤ c.room

theorem Reaches.refl (c : Construction) : c.Reaches c := ⟨fun _ _ h => h, Nat.le_refl _⟩

theorem Reaches.trans (h : c.Reaches c') (h' : c'.Reaches c'') : c.Reaches c'' :=
  ⟨fun node v hv => h'.made node v (h.made node v hv), Nat.le_trans h'.room h.room⟩

theorem MadeEntry.mono (h : ∀ node v, c.Made node v → c'.Made node v) {nodes : Nat × Nat}
    {entry : Value × Value} (he : MadeEntry g c nodes entry) : MadeEntry g c' nodes entry :=
  ⟨he.1, h _ _ he.2⟩

theorem Fills.mono (h : ∀ node v, c.Made node v → c'.Made node v) {cell : Cell}
    (hfills : Fills g c node cell) : Fills g c' node cell := by
  cases hfills with
  | list hnode hvs => exact .list hnode (hvs.imp h)
  | map hnode hes => exact .map hnode (hes.imp fun _ _ => MadeEntry.mono h)

/-- A value that is complete stays so when its own object is left alone. -/
theorem Complete.mono (h : ∀ node v, c.Made node v → c'.Made node v) {v : Value}
    (hv : Complete g c node v)
    (hcell : ∀ id, v = .ref id → c'.store.cells[id]? = c.store.cells[id]?) :
    Complete g c' node v := by
  cases hv with
  | scalar hnode hs => exact .scalar hnode hs
  | object hid hfills => exact .object ((hcell _ rfl).trans hid) (hfills.mono h)

/-! ### Making a value -/

/-- Puts down the value of a node. -/
def settle (c : Construction) (node : Nat) (v : Value) : Construction :=
  { c with made := c.made.setIfInBounds node (some v) }

/-- Makes an object that waits for its contents. -/
def start (c : Construction) (node : Nat) (cell : Cell) : Construction :=
  { c with store := (c.store.alloc cell).1, pending := (c.store.cells.size, node) :: c.pending }

theorem made_settle (hnode : c.made[node]? = some none) {v w : Value} {other : Nat} :
    (c.settle node v).Made other w ↔ (other = node ∧ w = v) ∨ c.Made other w := by
  have hlt := (Array.getElem?_eq_some_iff.mp hnode).1
  unfold Made settle
  rw [Array.getElem?_setIfInBounds]
  by_cases h : node = other
  · subst h
    rw [if_pos rfl, if_pos hlt, hnode]
    simp [eq_comm]
  · simp [h, Ne.symm h]

theorem room_settle (hnode : c.made[node]? = some none) (v : Value) :
    (c.settle node v).room + 1 = c.room := by
  obtain ⟨hlt, hnone⟩ := Array.getElem?_eq_some_iff.mp hnode
  have hpos : 0 < c.made.countP (·.isNone) :=
    Array.countP_pos_iff.mpr ⟨none, Array.mem_of_getElem? hnode, rfl⟩
  unfold room settle
  rw [Array.setIfInBounds, dif_pos hlt, Array.countP_set hlt, hnone]
  simp only [Option.isNone_none, Option.isNone_some, if_true, Bool.false_eq_true, if_false]
  omega

theorem reaches_settle (hnode : c.made[node]? = some none) (v : Value) :
    c.Reaches (c.settle node v) where
  made _ _ h := (made_settle hnode).mpr (.inr h)
  room := by
    have := room_settle hnode v
    omega

/-- An object that waits takes up the room of the value that was made. -/
theorem reaches_start (hnode : c.made[node]? = some none) (cell : Cell) :
    c.Reaches ((c.start node cell).settle node (.ref c.store.cells.size)) where
  made _ _ h := (made_settle (c := c.start node cell) hnode).mpr (.inr h)
  room := by
    have := room_settle (c := c.start node cell) hnode (.ref c.store.cells.size)
    have hstart : (c.start node cell).room = c.room + 1 := by
      simp [room, Construction.start, Nat.add_assoc]
    omega

/-- The value of a scalar is complete as soon as it is made. -/
theorem Sound.scalar (hc : Sound g fails level c) (hunmade : c.made[node]? = some none) {tag : Tag}
    {text : String} {s : Scalar} (hnode : g.nodes[node]? = some ⟨tag, .text text⟩)
    (hs : scalarOf tag text = .ok s) : Sound g fails level (c.settle node (.scalar s)) where
  graph := hc.graph
  size := by simpa [settle] using hc.size
  complete other v hv := by
    have hmono (n : Nat) (w : Value) (hw : c.Made n w) : (c.settle node (.scalar s)).Made n w :=
      (made_settle hunmade).mpr (.inr hw)
    rcases (made_settle hunmade).mp hv with ⟨rfl, rfl⟩ | hv
    · exact .inl (.scalar hnode hs)
    · exact (hc.complete other v hv).imp_left fun h => h.mono hmono fun _ _ => rfl
  object other id h := by
    rcases (made_settle hunmade).mp h with ⟨-, heq⟩ | h
    · cases heq
    · exact hc.object other id h
  owner other other' id h h' := by
    rcases (made_settle hunmade).mp h with ⟨-, heq⟩ | h
    · cases heq
    rcases (made_settle hunmade).mp h' with ⟨-, heq⟩ | h'
    · cases heq
    exact hc.owner other other' id h h'
  waits id other h :=
    (hc.waits id other h).imp_left fun hmade => (made_settle hunmade).mpr (.inr hmade)

/-- A collection waits when it is made. -/
theorem Sound.start (hc : Sound g fails level c) (hunmade : c.made[node]? = some none) (cell : Cell)
    (hnode : g.IsCollection fails node) :
    Sound g fails level ((c.start node cell).settle node (.ref c.store.cells.size)) := by
  have hmade {other : Nat} {w : Value} :
      ((c.start node cell).settle node (.ref c.store.cells.size)).Made other w ↔
        (other = node ∧ w = .ref c.store.cells.size) ∨ c.Made other w :=
    made_settle (c := c.start node cell) hunmade
  have hwaits {id other : Nat} (h : c.Waits level id other) :
      ((c.start node cell).settle node (.ref c.store.cells.size)).Waits level id other :=
    h.imp_right (List.mem_cons_of_mem _)
  have hsize : ((c.start node cell).settle node (.ref c.store.cells.size)).store.cells.size =
      c.store.cells.size + 1 := by simp [settle, Construction.start, Store.alloc]
  refine ⟨hc.graph, by simpa [settle, Construction.start] using hc.size, ?_, ?_, ?_, ?_⟩
  · -- the new object waits, and no other value refers to it
    intro other v hv
    rcases hmade.mp hv with ⟨rfl, rfl⟩ | hv
    · exact .inr ⟨_, rfl, .inr List.mem_cons_self⟩
    rcases hc.complete other v hv with h | ⟨id, rfl, h⟩
    · refine .inl (h.mono (fun n w hw => hmade.mpr (.inr hw)) ?_)
      rintro id rfl
      have : id ≠ c.store.cells.size := Nat.ne_of_lt (hc.object other id hv)
      simp [settle, Construction.start, Store.alloc, Array.getElem?_push, this]
    · exact .inr ⟨id, rfl, hwaits h⟩
  · intro other id h
    rw [hsize]
    rcases hmade.mp h with ⟨-, heq⟩ | h
    · cases heq
      exact Nat.lt_succ_self _
    · exact Nat.lt_succ_of_lt (hc.object other id h)
  · intro other other' id h h'
    rcases hmade.mp h with ⟨hother, heq⟩ | h <;> rcases hmade.mp h' with ⟨hother', heq'⟩ | h'
    · exact hother.trans hother'.symm
    · cases heq
      exact absurd (hc.object other' _ h') (Nat.lt_irrefl _)
    · cases heq'
      exact absurd (hc.object other _ h) (Nat.lt_irrefl _)
    · exact hc.owner other other' id h h'
  · rintro id other (h | h)
    · exact (hc.waits id other (.inl h)).imp_left fun h => hmade.mpr (.inr h)
    rcases List.mem_cons.mp h with heq | h
    · cases heq
      exact ⟨hmade.mpr (.inl ⟨rfl, rfl⟩), hnode⟩
    · exact (hc.waits id other (.inr h)).imp_left fun h => hmade.mpr (.inr h)

/-- An object that waited gets its contents. -/
theorem Sound.fill {id : Nat} {cell : Cell} (hc : Sound g fails ((id, node) :: level) c)
    (hfills : Fills g c node cell) :
    Sound g fails level { c with store := c.store.update id cell } := by
  have hkept (n : Nat) (w : Value) (hw : c.Made n w) :
      Made { c with store := c.store.update id cell } n w := hw
  have hmade : c.Made node (.ref id) := (hc.waits id node (.inl List.mem_cons_self)).1
  have hsize : (c.store.update id cell).cells.size = c.store.cells.size := by simp [Store.update]
  refine ⟨hc.graph, hc.size, ?_, ?_, hc.owner, ?_⟩
  -- the node that is filled now has its contents; any other one has them, or still waits
  · intro other v hv
    by_cases hother : other = node
    · subst hother
      obtain rfl : v = .ref id := by simpa [hmade] using Option.some.inj (hv.symm.trans hmade)
      refine .inl (.object ?_ (hfills.mono hkept))
      simp [Store.update, hc.object _ _ hmade]
    rcases hc.complete other v hv with h | ⟨id', rfl, h⟩
    · refine .inl (h.mono hkept ?_)
      rintro id' rfl
      have : id ≠ id' := by
        rintro rfl
        exact hother (hc.owner other node id hv hmade)
      simp [Store.update, this]
    · refine .inr ⟨id', rfl, h.imp_left fun h => ?_⟩
      rcases List.mem_cons.mp h with heq | h
      · exact absurd (Prod.mk.inj heq).2 hother
      · exact h
  · intro other id' h
    rw [hsize]
    exact hc.object other id' h
  · exact fun id' other h => hc.waits id' other (h.imp_left (List.mem_cons_of_mem _))

/-- The objects that wait are taken over as the next level. -/
theorem Sound.nextLevel (hc : Sound g fails [] c) :
    Sound g fails c.pending.reverse { c with pending := [] } where
  graph := hc.graph
  size := hc.size
  object := hc.object
  owner := hc.owner
  complete node v hv := by
    have hkept (n : Nat) (w : Value) (hw : c.Made n w) : Made { c with pending := [] } n w := hw
    rcases hc.complete node v hv with h | ⟨id, rfl, h | h⟩
    · exact .inl (h.mono hkept fun _ _ => rfl)
    · exact absurd h List.not_mem_nil
    · exact .inr ⟨id, rfl, .inl (List.mem_reverse.mpr h)⟩
  waits id node h := by
    rcases h with h | h
    · exact hc.waits id node (.inr (List.mem_reverse.mp h))
    · exact absurd h List.not_mem_nil

/-- A text has been made of a text. -/
theorem Sound.text_of_made (hc : Sound g fails level c) {name : String} {v : Value}
    (hnode : g.nodes[node]? = some ⟨.str, .text name⟩) (h : c.Made node v) : v = .text name := by
  rcases hc.complete node v h with h | ⟨id, rfl, hwaits⟩
  · cases h with
    | scalar hnode' hs =>
        cases hnode.symm.trans hnode'
        cases hs
        rfl
    | object _ hfills =>
        cases hfills with
        | list hnode' _ => cases hnode.symm.trans hnode'
        | map hnode' _ => cases hnode.symm.trans hnode'
  · exact absurd hnode ((hc.waits id node hwaits).2.2 _ _)

/-! ### Nothing waits any more -/

theorem Sound.complete_of_done (hc : Sound g fails [] c) (hdone : c.pending = []) {v : Value}
    (hv : c.Made node v) : Complete g c node v := by
  rcases hc.complete node v hv with h | ⟨id, -, h | h⟩
  · exact h
  · exact absurd h List.not_mem_nil
  · rw [hdone] at h
    exact absurd h List.not_mem_nil

/-- The value of a scalar is what is read of its text. -/
theorem Sound.made_text (hc : Sound g fails [] c) (hdone : c.pending = []) {tag : Tag}
    {text : String} {v : Value} (hnode : g.nodes[node]? = some ⟨tag, .text text⟩)
    (hv : c.Made node v) : ∃ s, v = .scalar s ∧ scalarOf tag text = .ok s := by
  cases hc.complete_of_done hdone hv with
  | @scalar _ _ s hnode' hs =>
      cases hnode.symm.trans hnode'
      exact ⟨s, rfl, hs⟩
  | object _ hfills =>
      cases hfills with
      | list hnode' _ | map hnode' _ => cases hnode.symm.trans hnode'

/-- The value of a sequence is a list of the values of its items. -/
theorem Sound.made_items (hc : Sound g fails [] c) (hdone : c.pending = []) {ids : List Nat}
    {v : Value} (hnode : g.nodes[node]? = some ⟨.seq, .items ids⟩) (hv : c.Made node v) :
    ∃ id vs, v = .ref id ∧ c.store.cells[id]? = some (.list vs) ∧
      List.Forall₂ c.Made ids vs := by
  cases hc.complete_of_done hdone hv with
  | scalar hnode' _ => cases hnode.symm.trans hnode'
  | object hcell hfills =>
      cases hfills with
      | map hnode' _ => cases hnode.symm.trans hnode'
      | list hnode' hvs =>
          cases hnode.symm.trans hnode'
          exact ⟨_, _, rfl, hcell, hvs⟩

/-- The value of a mapping is an object into which its entries have been put. -/
theorem Sound.made_entries (hc : Sound g fails [] c) (hdone : c.pending = [])
    {ids : List (Nat × Nat)} {v : Value} (hnode : g.nodes[node]? = some ⟨.map, .entries ids⟩)
    (hv : c.Made node v) : ∃ id es, v = .ref id ∧
      c.store.cells[id]? = some (.map (Store.putAll [] es)) ∧
      List.Forall₂ (MadeEntry g c) ids es := by
  cases hc.complete_of_done hdone hv with
  | scalar hnode' _ => cases hnode.symm.trans hnode'
  | object hcell hfills =>
      cases hfills with
      | list hnode' _ => cases hnode.symm.trans hnode'
      | map hnode' hes =>
          cases hnode.symm.trans hnode'
          exact ⟨_, _, rfl, hcell, hes⟩

mutual

/-- When nothing waits, the value of a node shows the tree that the node stands for. -/
theorem Sound.shows (hc : Sound g fails [] c) (hdone : c.pending = []) : ∀ {t : Tree} {node : Nat}
    {v : Value}, g.Represents node t → c.Made node v → c.store.Shows v t
  | .scalar s, node, v, ⟨tag, text, hnode, hs⟩, hv => by
      obtain ⟨s', rfl, hs'⟩ := hc.made_text hdone hnode hv
      cases hs.symm.trans hs'
      rfl
  | .list items, node, v, ⟨ids, hnode, hitems⟩, hv => by
      obtain ⟨id, vs, rfl, hcell, hvs⟩ := hc.made_items hdone hnode hv
      exact ⟨id, vs, rfl, hcell, hc.showsAll hdone hitems hvs⟩
  | .map entries, node, v, ⟨ids, hnode, hentries, hnodup⟩, hv => by
      obtain ⟨id, es, rfl, hcell, hes⟩ := hc.made_entries hdone hnode hv
      have hshows := hc.showsEntries hdone hentries hes
      exact ⟨id, es, rfl, hcell.trans (congrArg (some ∘ Cell.map) (hshows.putAll hnodup)), hshows⟩
  | .date _, _, _, h, _ | .dateTime _, _, _, h, _ | .tuple _, _, _, h, _ | .set _, _, _, h, _ =>
      h.elim

theorem Sound.showsAll (hc : Sound g fails [] c) (hdone : c.pending = []) : ∀ {ts : List Tree}
    {ids : List Nat} {vs : List Value}, g.RepresentsAll ids ts → List.Forall₂ c.Made ids vs →
    c.store.ShowsAll vs ts
  | [], [], _, _, .nil => trivial
  | [], _ :: _, _, h, _ => h.elim
  | _ :: _, [], _, h, _ => h.elim
  | _ :: _, _ :: _, _, h, .cons hv hvs => ⟨hc.shows hdone h.1 hv, hc.showsAll hdone h.2 hvs⟩

theorem Sound.showsEntries (hc : Sound g fails [] c) (hdone : c.pending = []) :
    ∀ {ts : List (Tree × Tree)} {ids : List (Nat × Nat)} {es : List (Value × Value)},
    g.RepresentsEntries ids ts → List.Forall₂ (MadeEntry g c) ids es →
    c.store.ShowsEntries es ts
  | [], [], _, _, .nil => trivial
  | [], _ :: _, _, h, _ => h.elim
  | _ :: _, [], _, h, _ => h.elim
  | (_, _) :: _, (_, _) :: _, (_, _) :: _, ⟨⟨name, hkey, hnode⟩, ht, hts⟩,
      .cons ⟨⟨name', hnode', hkey'⟩, hv⟩ hes => by
      cases hnode.symm.trans hnode'
      exact ⟨⟨name, hkey, hkey'⟩, hc.shows hdone ht hv, hc.showsEntries hdone hts hes⟩

end

theorem exists_left_of_forall₂ {α β : Type} {r : α → β → Prop} {as : List α} {bs : List β}
    (h : List.Forall₂ r as bs) {b : β} (hb : b ∈ bs) : ∃ a ∈ as, r a b := by
  induction h with
  | nil => exact absurd hb List.not_mem_nil
  | cons hab _ ih =>
      rcases List.mem_cons.mp hb with rfl | hb
      · exact ⟨_, List.mem_cons_self, hab⟩
      · obtain ⟨a, ha, hr⟩ := ih hb
        exact ⟨a, List.mem_cons_of_mem _ ha, hr⟩

theorem exists_showsAll {st : Store} : ∀ {vs : List Value}, (∀ v ∈ vs, ∃ t, st.Shows v t) →
    ∃ ts, st.ShowsAll vs ts
  | [], _ => ⟨[], trivial⟩
  | _ :: _, h => by
      obtain ⟨⟨t, ht⟩, hvs⟩ := List.forall_mem_cons.mp h
      obtain ⟨ts, hts⟩ := exists_showsAll hvs
      exact ⟨t :: ts, ht, hts⟩

theorem exists_showsEntries {st : Store} : ∀ {es : List (Value × Value)},
    Store.HasTextKeys es → (∀ e ∈ es, ∃ t, st.Shows e.2 t) → ∃ ts, st.ShowsEntries es ts
  | [], _, _ => ⟨[], trivial⟩
  | _ :: _, hkeys, h => by
      obtain ⟨⟨name, hkey⟩, hkeys⟩ := List.forall_mem_cons.mp hkeys
      obtain ⟨⟨t, ht⟩, hes⟩ := List.forall_mem_cons.mp h
      obtain ⟨ts, hts⟩ := exists_showsEntries hkeys hes
      exact ⟨(.text name, t) :: ts, ⟨name, rfl, hkey⟩, ht, hts⟩

theorem hasTextKeys_of_made {ids : List (Nat × Nat)} {es : List (Value × Value)}
    (h : List.Forall₂ (MadeEntry g c) ids es) : Store.HasTextKeys es := by
  intro e he
  obtain ⟨_, -, ⟨name, -, hkey⟩, -⟩ := exists_left_of_forall₂ h he
  exact ⟨name, hkey⟩

/-- When nothing waits, the value of a regular node shows some tree. -/
theorem Sound.exists_shows (hc : Sound g fails [] c) (hdone : c.pending = [])
    (h : g.Regular fails node) : ∀ {v : Value}, c.Made node v → ∃ t, c.store.Shows v t := by
  induction h with
  | scalar hnode =>
      intro v hv
      obtain ⟨s, rfl, -⟩ := hc.made_text hdone hnode hv
      exact ⟨.scalar s, rfl⟩
  | list hnode _ ih =>
      intro v hv
      obtain ⟨id, vs, rfl, hcell, hvs⟩ := hc.made_items hdone hnode hv
      obtain ⟨ts, hts⟩ := exists_showsAll fun v hv => by
        obtain ⟨part, hpart, hmade⟩ := exists_left_of_forall₂ hvs hv
        exact ih part hpart hmade
      exact ⟨.list ts, id, vs, rfl, hcell, hts⟩
  | map hnode _ _ ih =>
      intro v hv
      obtain ⟨id, es, rfl, hcell, hes⟩ := hc.made_entries hdone hnode hv
      have hkeys := hasTextKeys_of_made hes
      -- all entries of the object are among the ones that were put into it
      have hmem (e : Value × Value) (he : e ∈ Store.putAll [] es) : e ∈ es :=
        (Store.mem_of_mem_putAll (fun _ h => absurd h List.not_mem_nil) hkeys he).resolve_left
          List.not_mem_nil
      have hvalues (e : Value × Value) (he : e ∈ Store.putAll [] es) :
          ∃ t, c.store.Shows e.2 t := by
        obtain ⟨part, hpart, -, hmade⟩ := exists_left_of_forall₂ hes (hmem e he)
        exact ih part hpart hmade
      obtain ⟨ts, hts⟩ := exists_showsEntries (fun e he => hkeys e (hmem e he)) hvalues
      exact ⟨.map ts, id, _, rfl, hcell, hts⟩

end Construction

/-! ## Making values -/

namespace Construct

open Construction

variable {g : Graph} {fails : Prop} {c c' : Construction} {level : List (Nat × Nat)} {node : Nat}

/-- The text of a scalar. -/
theorem text_of_node {tag : Tag} {text : String} (h : g.nodes[node]? = some ⟨tag, .text text⟩) :
    g.text node = .ok text := by
  simp [Graph.text, Graph.textIn, Graph.contents_of_node h]

theorem gives_fresh_scalar (hc : c.graph = g) {tag : Tag} {text : String} {s : Scalar}
    (hnode : g.nodes[node]? = some ⟨tag, .text text⟩) (hs : scalarOf tag text = .ok s) :
    Gives (fresh node) c (.scalar s) c := by
  subst hc
  refine (gives_get c).bind ?_
  rw [Graph.tag_of_node hnode]
  have htext : Gives (textOf node) c text c :=
    (gives_get c).bind (gives_lift (text_of_node hnode) c)
  have hread {α : Type} {read : String → Except Error α} {wrap : α → Scalar}
      (h : wrap <$> read text = .ok s) :
      Gives (do return Value.scalar (wrap (← read (← textOf node))) : Construct Value)
        c (.scalar s) c := by
    cases hread : read text with
    | error e => rw [hread] at h; cases h
    | ok a =>
        rw [hread] at h
        cases h
        exact htext.bind ((gives_lift hread c).bind (gives_pure _ _))
  cases tag with
  | null =>
      cases hs
      exact htext.bind (gives_pure _ _)
  | str =>
      cases hs
      exact htext.bind (gives_pure _ _)
  | bool | int | float | binary => exact hread hs
  | _ => cases hs

theorem gives_later (c : Construction) (cell : Cell) (node : Nat) :
    Gives (later cell node) c (.ref c.store.cells.size) (c.start node cell) := rfl

theorem gives_fresh_items (hc : c.graph = g) {ids : List Nat}
    (hnode : g.nodes[node]? = some ⟨.seq, .items ids⟩) :
    Gives (fresh node) c (.ref c.store.cells.size) (c.start node (.list [])) := by
  subst hc
  refine (gives_get c).bind ?_
  rw [Graph.tag_of_node hnode]
  exact gives_later c _ node

theorem gives_fresh_entries (hc : c.graph = g) {ids : List (Nat × Nat)}
    (hnode : g.nodes[node]? = some ⟨.map, .entries ids⟩) :
    Gives (fresh node) c (.ref c.store.cells.size) (c.start node (.map [])) := by
  subst hc
  refine (gives_get c).bind ?_
  rw [Graph.tag_of_node hnode]
  exact gives_later c _ node

theorem gives_value_of_fresh {v : Value} (hunmade : c.made[node]? = some none)
    (h : Gives (fresh node) c v c') : Gives (value node) c v (c'.settle node v) := by
  refine (gives_get c).bind ?_
  rw [hunmade]
  exact h.bind ((gives_modify _ _).bind (gives_pure _ _))

/-- A scalar that cannot be read is not made. -/
theorem scalarOf_of_gives_fresh (hc : c.graph = g) {tag : Tag} {text : String}
    (hnode : g.nodes[node]? = some ⟨tag, .text text⟩) (htag : tag.IsSingle) {v : Value}
    (h : Gives (fresh node) c v c') : ∃ s, scalarOf tag text = .ok s := by
  subst hc
  obtain ⟨_, _, hget, h⟩ := gives_bind_iff.mp h
  cases hget
  rw [Graph.tag_of_node hnode] at h
  have hread {α : Type} {read : String → Except Error α} {wrap : α → Scalar}
      (hwrap : Gives (do return Value.scalar (wrap (← read (← textOf node))) : Construct Value)
        c v c') : ∃ s, wrap <$> read text = .ok s := by
    obtain ⟨found, c₁, htext, hbehind⟩ := gives_bind_iff.mp hwrap
    obtain ⟨rfl, rfl⟩ := htext.unique
      ((gives_get c).bind (gives_lift (text_of_node hnode) c))
    obtain ⟨a, c₂, hlift, -⟩ := gives_bind_iff.mp hbehind
    cases hread : read found with
    | error e =>
        rw [hread] at hlift
        cases hlift
    | ok a => exact ⟨wrap a, rfl⟩
  cases tag with
  | null | str => exact ⟨_, rfl⟩
  | bool | int | float | binary => exact hread h
  | merge | value | other => exact nomatch h
  | _ => exact htag.elim

theorem gives_fresh_of_value {v : Value} (hunmade : c.made[node]? = some none)
    (h : Gives (value node) c v c') : ∃ v' c₁, Gives (fresh node) c v' c₁ := by
  obtain ⟨_, _, hget, h⟩ := gives_bind_iff.mp h
  cases hget
  rw [hunmade] at h
  obtain ⟨v', c₁, hfresh, -⟩ := gives_bind_iff.mp h
  exact ⟨v', c₁, hfresh⟩

/-- **The value of a node.** It is made if it has not been. -/
theorem comes_value (hc : Sound g fails level c) (hnode : g.Regular fails node) :
    Comes fails (value node) c fun v c' =>
      Sound g fails level c' ∧ c.Reaches c' ∧ c'.Made node v := by
  have hlt : node < c.made.size := hc.size ▸ hnode.lt_size
  -- A node that was met before has its value. Otherwise a scalar is read at once, and a collection
  -- becomes an object whose contents wait for the next level.
  cases hmade : c.made[node] with
  | some v =>
      have hv : c.Made node v := Array.getElem?_eq_some_iff.mpr ⟨hlt, hmade⟩
      refine (gives_get c).comes_bind ?_
      rw [hv]
      exact (gives_pure v c).comes ⟨hc, .refl c, hv⟩
  | none =>
      have hunmade : c.made[node]? = some none := Array.getElem?_eq_some_iff.mpr ⟨hlt, hmade⟩
      have hcollection (cell : Cell) (hnode : g.IsCollection fails node)
          (hfresh : Gives (fresh node) c (.ref c.store.cells.size) (c.start node cell)) :
          Comes fails (value node) c fun v c' =>
            Sound g fails level c' ∧ c.Reaches c' ∧ c'.Made node v :=
        (gives_value_of_fresh hunmade hfresh).comes ⟨hc.start hunmade cell hnode,
          reaches_start hunmade cell, (made_settle hunmade).mpr (.inl ⟨rfl, rfl⟩)⟩
      cases hnode with
      | @scalar _ tag text hnode htag hs =>
          by_cases hread : ∃ s, scalarOf tag text = .ok s
          · obtain ⟨s, hs⟩ := hread
            exact (gives_value_of_fresh hunmade (gives_fresh_scalar hc.graph hnode hs)).comes
              ⟨hc.scalar hunmade hnode hs, reaches_settle hunmade _,
                (made_settle hunmade).mpr (.inl ⟨rfl, rfl⟩)⟩
          · refine .inr ⟨hs.resolve_right hread, fun v c' hvalue => hread ?_⟩
            obtain ⟨v, c₁, hfresh⟩ := gives_fresh_of_value hunmade hvalue
            exact scalarOf_of_gives_fresh hc.graph hnode htag hfresh
      | list hnode hitems =>
          exact hcollection _ ⟨.list hnode hitems, fun _ _ h => nomatch hnode.symm.trans h⟩
            (gives_fresh_items hc.graph hnode)
      | map hnode hkeys hvalues =>
          exact hcollection _ ⟨.map hnode hkeys hvalues, fun _ _ h => nomatch hnode.symm.trans h⟩
            (gives_fresh_entries hc.graph hnode)

/-- The values of nodes. -/
theorem comes_values : ∀ {ids : List Nat} {c : Construction}, Sound g fails level c →
    (∀ id ∈ ids, g.Regular fails id) → Comes fails (ids.mapM value) c fun vs c' =>
      Sound g fails level c' ∧ c.Reaches c' ∧ List.Forall₂ c'.Made ids vs
  | [], c, hc, _ => (gives_pure _ _).comes ⟨hc, .refl c, .nil⟩
  | id :: ids, c, hc, h => by
      obtain ⟨hid, hids⟩ := List.forall_mem_cons.mp h
      rw [List.mapM_cons]
      refine (comes_value hc hid).bind fun v c₁ ⟨hc₁, hreaches, hv⟩ => ?_
      refine (comes_values hc₁ hids).bind fun vs c₂ ⟨hc₂, hreaches', hvs⟩ => ?_
      exact (gives_pure _ _).comes
        ⟨hc₂, hreaches.trans hreaches', .cons (hreaches'.made _ _ hv) hvs⟩

/-- The entries of a mapping, behind some that are known. -/
theorem comes_entries : ∀ {ids : List (Nat × Nat)} {known : List (Value × Value)}
    {c : Construction}, Sound g fails level c → Store.HasTextKeys known →
    (∀ entry ∈ ids, g.IsKey entry.1) → (∀ entry ∈ ids, g.Regular fails entry.2) →
    Comes fails (entries known ids) c fun es c' => Sound g fails level c' ∧ c.Reaches c' ∧
      ∃ made, List.Forall₂ (MadeEntry g c') ids made ∧ es = Store.putAll known made
  | [], known, c, hc, _, _, _ => (gives_pure _ _).comes ⟨hc, .refl c, [], .nil, rfl⟩
  | (k, id) :: ids, known, c, hc, hknown, hkeys, hvalues => by
      obtain ⟨⟨name, hkey⟩, hkeys⟩ := List.forall_mem_cons.mp hkeys
      obtain ⟨hvalue, hvalues⟩ := List.forall_mem_cons.mp hvalues
      have hkeyRegular : g.Regular fails k := .scalar hkey trivial (.inr ⟨.text name, rfl⟩)
      refine (comes_value hc hkeyRegular).bind fun kv c₁ ⟨hc₁, hreaches₁, hkv⟩ => ?_
      obtain rfl := hc₁.text_of_made hkey hkv
      refine (gives_get c₁).comes_bind ?_
      simp only [Store.cell?]
      refine (comes_value hc₁ hvalue).bind fun v c₂ ⟨hc₂, hreaches₂, hv⟩ => ?_
      refine (gives_get c₂).comes_bind ?_
      have hput : Store.HasTextKeys (c₂.store.put (.text name) v known) :=
        Store.hasTextKeys_put hknown
      rcases comes_entries hc₂ hput hkeys hvalues with ⟨es, c₃, hgives, hc₃, hreaches₃, made,
        hmade, hes⟩ | hfails
      · refine hgives.comes ⟨hc₃, (hreaches₁.trans hreaches₂).trans hreaches₃,
          (.text name, v) :: made, .cons ⟨⟨name, hkey, rfl⟩, hreaches₃.made _ _ hv⟩ hmade, ?_⟩
        rw [hes, Store.putAll_cons, Store.put_text c₂.store {} hknown]
      · exact .inr hfails

/-- The contents of a collection. -/
theorem comes_contents (hc : Sound g fails level c) (hnode : g.IsCollection fails node) :
    Comes fails (contents node) c fun cell c' =>
      Sound g fails level c' ∧ c.Reaches c' ∧ Fills g c' node cell := by
  obtain rfl := hc.graph
  obtain ⟨hregular, hnot⟩ := hnode
  cases hregular with
  | scalar hnode => exact absurd hnode (hnot _ _)
  | list hnode hitems =>
      refine (gives_get c).comes_bind ?_
      simp only [Graph.tag_of_node hnode, Graph.contents_of_node hnode]
      refine (comes_values hc hitems).bind fun vs c' ⟨hc', hreaches, hvs⟩ => ?_
      exact (gives_pure _ _).comes ⟨hc', hreaches, .list hnode hvs⟩
  | @map _ ids hnode hkeys hvalues =>
      have hflatten := Graph.flatten_of_tags hnode fun entry hentry =>
        Graph.tag_of_node (hkeys entry hentry).choose_spec
      have hids : c.graph.entries node = .ok ids := by
        simp [Graph.entries, Graph.contents_of_node hnode]
      have hmapping : Comes fails (mapping node) c fun es c' => Sound c.graph fails level c' ∧
          c.Reaches c' ∧ ∃ made, List.Forall₂ (MadeEntry c.graph c') ids made ∧
            es = Store.putAll [] made :=
        (gives_get c).comes_bind ((gives_lift hflatten c).comes_bind
          ((gives_modify _ c).comes_bind ((gives_lift hids _).comes_bind
            (comes_entries hc (fun _ h => absurd h List.not_mem_nil) hkeys hvalues))))
      refine (gives_get c).comes_bind ?_
      simp only [Graph.tag_of_node hnode, Graph.contents_of_node hnode]
      refine hmapping.bind fun es c' ⟨hc', hreaches, made, hmade, hes⟩ => ?_
      exact (gives_pure _ _).comes ⟨hc', hreaches, hes ▸ .map hnode hmade⟩

/-- Fills one object. -/
def fill (object : Nat × Nat) : Construct Unit := do
  let cell ← contents object.2
  modify fun c => { c with store := c.store.update object.1 cell }

/-- The objects of a level are filled one after the other. -/
theorem comes_filled : ∀ {level : List (Nat × Nat)} {c : Construction}, Sound g fails level c →
    Comes fails (level.forM fill) c fun _ c' => Sound g fails [] c' ∧ c.Reaches c'
  | [], c, hc => (gives_pure _ _).comes ⟨hc, .refl c⟩
  | (id, node) :: level, c, hc => by
      have hnode := (hc.waits id node (.inl List.mem_cons_self)).2
      have hfill : Comes fails (fill (id, node)) c fun _ c' =>
          Sound g fails level c' ∧ c.Reaches c' := by
        refine (comes_contents hc hnode).bind fun cell c₁ ⟨hc₁, hreaches, hfills⟩ => ?_
        exact (gives_modify _ c₁).comes ⟨hc₁.fill hfills, hreaches.made, hreaches.room⟩
      refine hfill.bind fun _ c₁ ⟨hc₁, hreaches⟩ => ?_
      rcases comes_filled hc₁ with ⟨_, c₂, hgives, hc₂, hreaches'⟩ | hfails
      · exact hgives.comes ⟨hc₂, hreaches.trans hreaches'⟩
      · exact .inr hfails

/-- **Level after level, until nothing waits.** There is a value to be made for each level behind
the one that waits. -/
theorem comes_levels : ∀ {fuel : Nat} {c : Construction}, Sound g fails [] c →
    (c.pending ≠ [] → c.made.countP (·.isNone) < fuel) →
    Comes fails (levels fuel) c fun _ c' => Sound g fails [] c' ∧ c'.pending = [] ∧
      ∀ node v, c.Made node v → c'.Made node v
  | 0, c, hc, hfuel => by
      refine (gives_pure _ _).comes ⟨hc, ?_, fun _ _ h => h⟩
      by_contra hpending
      exact Nat.not_lt_zero _ (hfuel hpending)
  | fuel + 1, c, hc, hfuel => by
      refine (gives_get c).comes_bind ?_
      cases hlevel : c.pending with
      | nil => exact (gives_pure () c).comes ⟨hc, hlevel, fun _ _ h => h⟩
      | cons object rest =>
          have hne : c.pending.reverse.isEmpty = false := by simp [hlevel]
          rw [← hlevel]
          simp only [hne]
          refine (gives_modify _ c).comes_bind ?_
          refine (comes_filled hc.nextLevel).bind fun _ c₁ ⟨hc₁, hreaches₁⟩ => ?_
          -- every object behind this level has used up a node without a value, so the fuel suffices
          have hroom : c₁.made.countP (·.isNone) + c₁.pending.length ≤
              c.made.countP (·.isNone) := hreaches₁.room
          have hfuel₁ : c₁.pending ≠ [] → c₁.made.countP (·.isNone) < fuel := by
            intro hpending
            have hpos := List.length_pos_iff.mpr hpending
            have := hfuel (by simp [hlevel])
            omega
          rcases comes_levels hc₁ hfuel₁ with ⟨_, c₂, hgives, hc₂, hdone, hmade⟩ | hfails
          · exact hgives.comes ⟨hc₂, hdone,
              fun node v hv => hmade node v (hreaches₁.made node v hv)⟩
          · exact .inr hfails

end Construct

/-! ## Whole texts -/

/-- What holds before any value is made. -/
theorem Construction.sound_init (g : Graph) (fails : Prop) (st : Store) :
    Sound g fails [] { graph := g, store := st, made := Array.replicate g.size none } := by
  have hnone (node : Nat) (v : Value) : ¬ Construction.Made
      { graph := g, store := st, made := Array.replicate g.size none } node v := by
    simp [Made, Array.getElem?_replicate]
  refine ⟨rfl, by simp, fun node v h => absurd h (hnone node v),
    fun node id h => absurd h (hnone node _), fun node _ id h => absurd h (hnone node _), ?_⟩
  rintro id node (h | h)
  · exact absurd h List.not_mem_nil
  · exact absurd h List.not_mem_nil

/-- Makes the value of a node with all that is behind it. -/
def Construct.complete (root fuel : Nat) : Construct Value := do
  let v ← value root
  levels fuel
  return v

/-- The value of a regular node is complete in the end. -/
theorem Construct.comes_complete (st : Store) {g : Graph} {fails : Prop} {root : Nat}
    (hroot : g.Regular fails root) : Comes fails (complete root g.size)
      { graph := g, store := st, made := Array.replicate g.size none } fun v c =>
        Construction.Sound g fails [] c ∧ c.pending = [] ∧ c.Made root v := by
  refine (comes_value (Construction.sound_init g fails st) hroot).bind
    fun v c₁ ⟨hc₁, hreaches, hv⟩ => ?_
  have hroom : c₁.made.countP (·.isNone) + c₁.pending.length ≤ g.size := by
    have h := hreaches.room
    simpa [Construction.room, Array.countP_replicate] using h
  have hfuel (hpending : c₁.pending ≠ []) : c₁.made.countP (·.isNone) < g.size := by
    have := List.length_pos_iff.mpr hpending
    omega
  refine (comes_levels hc₁ hfuel).bind fun _ c₂ ⟨hc₂, hdone, hmade⟩ => ?_
  exact (gives_pure v c₂).comes ⟨hc₂, hdone, hmade root v hv⟩

theorem exists_compose_of_load {st : Store} {text : List Char} {made : Store × Value}
    (h : load st text = .ok made) : ∃ r, compose text = .ok r := by
  unfold load at h
  cases hcompose : compose text with
  | error e =>
      rw [hcompose] at h
      cases h
  | ok r => exact ⟨r, rfl⟩

/-- The text is loaded if the value of its node is made. -/
theorem load_iff {st st' : Store} {text : List Char} {g : Graph} {root : Nat} {v : Value}
    (hcompose : compose text = .ok (g, some root)) : load st text = .ok (st', v) ↔
      ∃ c, c.store = st' ∧ Gives (Construct.complete root g.size)
        { graph := g, store := st, made := Array.replicate g.size none } v c := by
  have hload : load st text = (Construct.complete root g.size).run
      { graph := g, store := st, made := Array.replicate g.size none } >>= fun made =>
        pure (made.2.store, made.1) := by
    unfold load
    rw [hcompose]
    rfl
  rw [hload]
  unfold Gives
  cases (Construct.complete root g.size).run
      { graph := g, store := st, made := Array.replicate g.size none } with
  | error e => exact ⟨fun h => (nomatch h), fun ⟨_, h⟩ => nomatch h.2⟩
  | ok made =>
      constructor
      · intro h
        cases h
        exact ⟨made.2, rfl, rfl⟩
      · rintro ⟨c, rfl, h⟩
        cases h
        rfl

/-- **A text whose nodes stand for a tree is loaded as a value that shows it.** -/
theorem load_of_represents (st : Store) {text : List Char} {g : Graph} {root : Nat} {t : Tree}
    (hcompose : compose text = .ok (g, some root)) (ht : g.Represents root t) :
    ∃ st' v, load st text = .ok (st', v) ∧ st'.Shows v t := by
  obtain ⟨v, c, hgives, hc, hdone, hv⟩ :=
    (Construct.comes_complete st (ht.regular False)).exists_gives
  exact ⟨c.store, v, (load_iff hcompose).mpr ⟨c, rfl, hgives⟩, hc.shows hdone ht hv⟩

/-- A text with a regular node is loaded only as a value that is complete. -/
theorem complete_of_load {st st' : Store} {text : List Char} {g : Graph} {root : Nat} {v : Value}
    (hcompose : compose text = .ok (g, some root)) (hroot : g.Regular True root)
    (h : load st text = .ok (st', v)) : ∃ c, c.store = st' ∧ Construction.Sound g True [] c ∧
      c.pending = [] ∧ c.Made root v := by
  obtain ⟨c, hstore, hgives⟩ := (load_iff hcompose).mp h
  exact ⟨c, hstore, (Construct.comes_complete st hroot).of_gives hgives⟩

end ApiManifest.Yaml
