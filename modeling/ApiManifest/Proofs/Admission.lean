import ApiManifest.Proofs.Steps
import ApiManifest.Yaml.Merge

/-!
# What the parser keeps to

The nodes of a document have their tags from its tokens, and what goes wrong in reading them has
gone wrong before, among the tokens, or is a fault of the text. So if all tokens are of a kind that
admits certain tags only, the nodes have such tags, and still have them when entries are merged.
This file goes through the parser once; what is admitted is a parameter.
-/

namespace ApiManifest.Yaml

variable {α : Type}

/-! ## Graphs -/

namespace Graph

variable {P : Tag → Prop} {E : Error → Prop} {g : Graph}

/-- All tags of a graph are of a kind, and so is that of a number without a node, which is null. -/
def Tagged (P : Tag → Prop) (g : Graph) : Prop := ∀ id, P (g.tag id)

namespace Tagged

theorem empty (hnull : P .null) : Tagged P {} := fun _ => hnull

theorem add (hg : g.Tagged P) {node : Node} (hnode : P node.tag) : (g.add node).Tagged P := by
  intro id
  have hid := hg id
  unfold Graph.add tag Graph.node at *
  rw [Array.getElem?_push]
  split
  · exact hnode
  · exact hid

theorem modify (hg : g.Tagged P) (id : Nat) {f : Node → Node}
    (hf : ∀ node, P node.tag → P (f node).tag) : Tagged P ⟨g.nodes.modify id f⟩ := by
  intro other
  have hother := hg other
  unfold tag Graph.node at *
  rw [Array.getElem?_modify]
  split
  · cases h : g.nodes[other]? with
    | none =>
        rw [h] at hother
        exact hother
    | some node =>
        rw [h] at hother
        exact hf node hother
  · exact hother

theorem setContents (hg : g.Tagged P) (id : Nat) (contents : Contents) :
    (g.setContents id contents).Tagged P := hg.modify id fun _ h => h

theorem settleKeys (hg : g.Tagged P) (hstr : P .str) (es : List (Nat × Nat)) :
    (g.settleKeys es).Tagged P := by
  unfold Graph.settleKeys
  induction es generalizing g with
  | nil => exact hg
  | cons e rest ih =>
      refine ih ?_
      dsimp only
      split
      · exact hg.modify _ fun _ _ => hstr
      · exact hg

end Tagged

theorem upholds_entries (hyaml : E .yaml) (g : Graph) (id : Nat) :
    Upholds (Tagged P) E anything (liftM (g.entries id) : Merge (List (Nat × Nat))) := by
  refine .liftM (fun _ _ => trivial) fun e h => ?_
  unfold entries at h
  split at h
  · cases h
  · cases h
    exact hyaml

/-- **Kept by every step of merging.** -/
theorem upholds_mergeFrom (hstr : P .str) (hyaml : E .yaml) (steps : Nat)
    (merged : List (Nat × Nat)) (id : Nat) :
    Upholds (Tagged P) E anything (mergeFrom steps merged id) := by
  induction steps generalizing merged id with
  | zero => exact .throw hyaml
  | succ steps ih =>
      have hentries : ∀ source, Upholds (Tagged P) E anything (do
          mergeFrom steps [] source
          (← get).entries source) :=
        fun source => .bind (ih _ _) fun _ => .get_bind fun g _ => upholds_entries hyaml g source
      unfold mergeFrom
      refine .get_bind fun g _ => .bind (upholds_entries hyaml g id) fun entries =>
        .get_bind fun g _ => ?_
      split
      · exact .modify fun g hg => (hg.settleKeys hstr _).setContents _ _
      · refine .bind (.modify fun g hg => hg.setContents _ _) fun _ => .get_bind fun g _ => ?_
        split
        · exact .bind (hentries _) fun _ => ih _ _
        · exact .bind (.mapM hentries) fun _ => .bind (.pure _) fun _ => ih _ _
        · exact .bind (.throw hyaml) fun _ => ih _ _

/-- Merging leaves tags of the kind, or it fails by the cause. -/
theorem upholds_flatten (hg : g.Tagged P) (hstr : P .str) (hyaml : E .yaml) (id : Nat) :
    (∀ g', g.flatten id = .ok g' → g'.Tagged P) ∧ ∀ e, g.flatten id = .error e → E e := by
  unfold flatten
  extract_lets count
  obtain ⟨hgives, hfails⟩ := upholds_mergeFrom hstr hyaml (count + 1) [] id g hg
  cases hrun : (mergeFrom (count + 1) [] id).run g with
  | error e =>
      refine ⟨nofun, fun e' h => ?_⟩
      cases h
      exact hfails e hrun
  | ok result =>
      refine ⟨fun g' h => ?_, nofun⟩
      cases h
      exact (hgives result.1 result.2 hrun).1

end Graph

/-! ## What is admitted -/

/-- The tokens, tags and causes of failures that are admitted. The parser keeps to them as it adds
nodes with the usual tags of their contents and with those that plain scalars show, and has one
cause of its own; only where some tag can be written, there may be any. -/
structure Admission where
  token : Token → Prop
  tag : Tag → Prop
  cause : Error → Prop
  yaml : cause .yaml
  null : tag .null
  str : tag .str
  seq : tag .seq
  map : tag .map
  shown : ∀ text, token (.scalar text true) → tag (.shownBy text)
  written : ∀ text, token (.tag text) → ∀ t, tag t

namespace Admission

variable (k : Admission)

/-- If there is something in front of a node that makes its tag, every tag is admitted. -/
def Allows (written : Option α) : Prop := written ≠ none → ∀ t, k.tag t

variable {k}

theorem Allows.collectionTag {uri : Option String} (h : k.Allows uri) {usual : Tag}
    (husual : k.tag usual) : k.tag (Parse.collectionTag usual uri) := by
  cases uri with
  | none => exact husual
  | some uri => exact h nofun _

theorem Allows.scalarTag {uri : Option String} (h : k.Allows uri) {text : String} {isPlain : Bool}
    (htoken : k.token (.scalar text isPlain)) : k.tag (Parse.scalarTag uri isPlain text) := by
  cases uri with
  | none =>
      cases isPlain with
      | true => exact k.shown text htoken
      | false => exact k.str
  | some uri => exact h nofun _

end Admission

/-- The parser has admitted tokens before it, and admitted nodes behind it. -/
structure Parser.Within (k : Admission) (p : Parser) : Prop where
  tokens : ∀ t ∈ p.tokens, k.token t
  failure : k.cause p.failure
  graph : p.graph.Tagged k.tag

namespace Parse

variable {k : Admission}

/-- The step gives something with a property, within what is admitted. -/
abbrev Gets (k : Admission) (P : α → Prop) (x : Parse α) : Prop :=
  Upholds (Parser.Within k) k.cause P x

/-- The step stays within what is admitted. -/
abbrev Stays (k : Admission) (x : Parse α) : Prop := Gets k anything x

/-! ## Tokens -/

@[grind .] theorem stays_throw : Stays k (throw .yaml : Parse α) := .throw k.yaml

theorem gets_peek : Gets k k.token peek := by
  refine .get_bind fun p hp => ?_
  split
  · next t ts htokens => exact .pure_of (hp.tokens t (htokens ▸ List.mem_cons_self))
  · exact .get_bind fun p hp => .throw hp.failure

@[grind .] theorem stays_peek : Stays k peek := gets_peek.weaken

@[grind .] theorem stays_advance : Stays k advance :=
  .modify fun _ hp => ⟨fun t ht => hp.tokens t (List.mem_of_mem_drop ht), hp.failure, hp.graph⟩

@[grind .] theorem stays_take (token : Token) : Stays k (take token) := by
  unfold take
  grind

@[grind .] theorem stays_expect (token : Token) : Stays k (expect token) := by
  unfold expect
  grind

@[grind .] theorem stays_isNext (tokens : List Token) : Stays k (isNext tokens) := by
  unfold isNext
  grind

/-! ## Nodes -/

theorem stays_add {node : Node} (h : k.tag node.tag) : Stays k (add node) :=
  .modifyGet fun _ hp => ⟨hp.tokens, hp.failure, hp.graph.add h⟩

@[grind .] theorem stays_addEmpty : Stays k addEmpty := stays_add k.null

theorem stays_addNamed (anchor : Option String) {node : Node} (h : k.tag node.tag) :
    Stays k (addNamed anchor node) := by
  cases anchor with
  | none => exact stays_add h
  | some name =>
      have hname : Stays k do
          let id ← add node
          modify fun p => { p with anchors := (name, id) :: p.anchors }
          return id :=
        .bind (stays_add h) fun _ =>
          .bind (.modify fun _ hp => ⟨hp.tokens, hp.failure, hp.graph⟩) fun _ => .pure _
      refine .get_bind fun p _ => ?_
      split
      · exact .bind stays_throw fun _ => hname
      · exact hname

/-- A tag in front of a node is a token, and by that admits any tag. -/
theorem gets_properties : Gets k (fun props => k.Allows props.tag) properties := by
  delta properties
  extract_lets anchor? tag?
  have hanchor : Stays k anchor? := by grind
  have htag : Gets k k.Allows tag? := by
    refine gets_peek.bind_of fun t ht => ?_
    split
    · exact .bind stays_advance fun _ => .pure_of fun _ => k.written _ ht
    · exact .pure_of fun h => absurd rfl h
  clear_value anchor? tag?
  refine hanchor.bind fun anchor => ?_
  split
  · exact htag.bind_of fun tag h => .pure_of h
  · refine htag.bind_of fun tag h => ?_
    split
    · exact hanchor.bind fun _ => .pure_of h
    · exact .pure_of fun h => absurd rfl h

theorem gets_uriOf {tag : Option TagText} (h : k.Allows tag) :
    Gets k k.Allows (tag.mapM uriOf) := by
  cases tag with
  | none => exact .pure_of fun h => absurd rfl h
  | some tag =>
      have huri : Stays k (uriOf tag) := by
        unfold uriOf
        grind
      have hsome : Stays k (some <$> uriOf tag) := .map _ huri
      exact hsome.mono fun _ _ _ => h nofun

/-- A collection is added before its contents are read. -/
theorem stays_collection (anchor : Option String) {tag : Tag} (htag : k.tag tag)
    {read : Parse Contents} (h : Stays k read) :
    Stays k do
      let id ← addNamed anchor ⟨tag, .items []⟩
      let contents ← read
      modify fun p => { p with graph := p.graph.setContents id contents }
      return id :=
  .bind (stays_addNamed _ htag) fun _ => .bind h fun _ =>
    .bind (.modify fun _ hp => ⟨hp.tokens, hp.failure, hp.graph.setContents _ _⟩) fun _ => .pure _

/-- What is read of nodes and collections with some fuel. -/
structure StaysNodes (k : Admission) (fuel : Nat) : Prop where
  node : ∀ context, Stays k (node context fuel)
  nodeUnless : ∀ ends context, Stays k (nodeUnless ends context fuel)
  blockItems : Stays k (blockItems fuel)
  indentlessItems : Stays k (indentlessItems fuel)
  blockEntries : Stays k (blockEntries fuel)
  blockValue : Stays k (blockValue fuel)
  flowItems : ∀ first, Stays k (flowItems first fuel)
  flowValue : ∀ closing, Stays k (flowValue closing fuel)
  flowEntries : ∀ first, Stays k (flowEntries first fuel)

theorem stays_node {fuel : Nat} (h : StaysNodes k fuel) (context : Context) :
    Stays k (node context (fuel + 1)) := by
  obtain ⟨-, -, hblock, hindentless, hentries, -, hitems, -, hflow⟩ := h
  unfold node
  refine .bind stays_peek fun token => ?_
  -- an alias adds nothing; any other node is added behind its properties
  split
  · refine .bind stays_advance fun _ => .get_bind fun p _ => ?_
    split
    · exact .pure _
    · exact stays_throw
  · refine gets_properties.bind_of fun props hprops => (gets_uriOf hprops).bind_of fun uri huri =>
      gets_peek.bind_of fun next hnext => ?_
    have hseq {read : Parse Contents} (h : Stays k read) :=
      stays_collection props.anchor (huri.collectionTag k.seq) h
    have hmap {read : Parse Contents} (h : Stays k read) :=
      stays_collection props.anchor (huri.collectionTag k.map) h
    split
    · exact hseq (hindentless.bind fun _ => .pure _)
    · exact .bind stays_advance fun _ => stays_addNamed _ (huri.scalarTag hnext)
    · exact hseq (stays_advance.bind fun _ => (hitems _).bind fun _ => .pure _)
    · exact hmap (stays_advance.bind fun _ => (hflow _).bind fun _ => .pure _)
    · exact hseq (stays_advance.bind fun _ => hblock.bind fun _ => .pure _)
    · exact hseq (stays_advance.bind fun _ => hblock.bind fun _ => .pure _)
    · exact hmap (stays_advance.bind fun _ => hentries.bind fun _ => .pure _)
    · exact hmap (stays_advance.bind fun _ => hentries.bind fun _ => .pure _)
    · split
      · exact stays_addNamed _ (huri.collectionTag k.null)
      · exact stays_throw

theorem stays_nodes (fuel : Nat) : StaysNodes k fuel := by
  induction fuel with
  | zero =>
      constructor
      all_goals
        intros
        exact stays_throw
  | succ fuel ih =>
      have hnode := stays_node ih
      have hpair (key value : Nat) : Stays k (add ⟨.map, .entries [(key, value)]⟩) :=
        stays_add k.map
      obtain ⟨hinner, hunless, hblock, hindentless, hentries, hvalue, hitems, hflowValue, hflow⟩ :=
        ih
      constructor
      case node => exact hnode
      case nodeUnless => unfold Parse.nodeUnless; grind
      case blockItems => unfold Parse.blockItems; grind
      case indentlessItems => unfold Parse.indentlessItems; grind
      case blockEntries => unfold Parse.blockEntries; grind
      case blockValue => unfold Parse.blockValue; grind
      case flowItems => unfold Parse.flowItems; grind
      case flowValue => unfold Parse.flowValue; grind
      case flowEntries => unfold Parse.flowEntries; grind

/-! ## Documents -/

theorem stays_handles (f : Parser → List (String × String)) :
    Stays k (modify fun p => { p with handles := f p }) :=
  .modify fun _ hp => ⟨hp.tokens, hp.failure, hp.graph⟩

theorem stays_directives (fuel : Nat) (versioned : Bool) : Stays k (directives versioned fuel) := by
  induction fuel generalizing versioned with
  | zero => exact stays_throw
  | succ fuel ih =>
      have hset {p : Parser} (hp : p.Within k) (handles : List (String × String)) :
          Stays k (set { p with handles }) := .set ⟨hp.tokens, hp.failure, hp.graph⟩
      unfold directives
      refine .bind stays_peek fun token => ?_
      split
      · refine .bind stays_advance fun _ => ?_
        split
        · exact .bind stays_throw fun _ => ih true
        · exact ih true
      · refine .bind stays_advance fun _ => .get_bind fun p hp => ?_
        split
        · exact .bind stays_throw fun _ => .bind (hset hp _) fun _ => ih versioned
        · exact .bind (hset hp _) fun _ => ih versioned
      · exact .bind stays_advance fun _ => ih versioned
      · exact .pure _

theorem stays_documentEnds (fuel : Nat) : Stays k (documentEnds fuel) := by
  induction fuel with
  | zero => exact stays_throw
  | succ fuel ih =>
      unfold documentEnds
      grind

@[grind .] theorem stays_isDirectiveNext : Stays k isDirectiveNext := by
  unfold isDirectiveNext
  grind

/-- **Kept by a whole document.** -/
theorem stays_document (fuel : Nat) : Stays k (document fuel) := by
  have hnode : Stays k (node .block fuel) := (stays_nodes fuel).node _
  delta document
  refine .bind stays_isDirectiveNext fun _ => .bind (stays_isNext _) fun _ => ?_
  extract_lets isMarked finish
  have hfinish : ∀ root, Stays k (finish root) := by
    intro root
    refine .bind (stays_documentEnds _) fun _ => .bind (stays_take _) fun _ => ?_
    extract_lets last
    split
    · exact .pure _
    · exact .bind (stays_handles _) fun _ => .bind (stays_directives _ _) fun _ =>
        .bind stays_throw fun _ => .pure _
  clear_value finish
  split
  · refine .bind (stays_isNext _) fun _ => .bind (stays_directives _ _) fun _ =>
      .bind (stays_expect _) fun _ => .bind (stays_handles _) fun _ => ?_
    grind
  · refine .bind (stays_isNext _) fun _ => ?_
    split
    · exact .bind (.pure _) hfinish
    · exact .bind (stays_handles _) fun _ => .bind (.map _ hnode) hfinish

end Parse

/-- **The nodes of admitted tokens have admitted tags**, and what fails, fails by an admitted
cause. -/
theorem upholds_compose (k : Admission) {text : List Char}
    (htokens : ∀ t ∈ (tokensOf text).1, k.token t)
    (hfailure : k.cause ((tokensOf text).2.getD .yaml)) :
    (∀ g root, compose text = .ok (g, root) → g.Tagged k.tag) ∧
      ∀ e, compose text = .error e → k.cause e := by
  unfold compose
  split
  · dsimp only
    obtain ⟨hgives, hfails⟩ := Parse.stays_document (k := k) (4 * (tokensOf text).1.length + 8)
      { tokens := (tokensOf text).1, failure := (tokensOf text).2.getD .yaml }
      ⟨htokens, hfailure, .empty k.null⟩
    split
    · next root p hrun =>
      refine ⟨fun g root' h => ?_, nofun⟩
      cases h
      exact (hgives root p hrun).1.graph
    · next e hrun =>
      refine ⟨nofun, fun e' h => ?_⟩
      cases h
      exact hfails e hrun
  · refine ⟨nofun, fun e h => ?_⟩
    cases h
    exact k.yaml

end ApiManifest.Yaml
