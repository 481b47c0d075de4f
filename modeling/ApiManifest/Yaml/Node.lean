import ApiManifest.Yaml.Tag
import ApiManifest.Yaml.Token

/-!
# Nodes of YAML

A YAML document as a graph of nodes. An alias is the node that its anchor names, so a node can
occur at several places, even among its own parts; its number tells that it is the same one.
-/

namespace ApiManifest.Yaml

/-- What a node consists of. Its parts are given by their numbers. -/
inductive Contents where
  | text (text : String)
  | items (items : List Nat)
  | entries (entries : List (Nat × Nat))
  deriving DecidableEq, Repr, Inhabited

/-- A node. -/
structure Node where
  tag : Tag
  contents : Contents
  deriving DecidableEq, Repr, Inhabited

/-- A node without any text: null. -/
def Node.empty : Node := ⟨.null, .text ""⟩

/-- The nodes of a document; the number of a node is an index. -/
structure Graph where
  nodes : Array Node := #[]
  deriving DecidableEq, Repr, Inhabited

namespace Graph

/-- The number of nodes. -/
def size (g : Graph) : Nat := g.nodes.size

/-- The node of a number. A number without a node stands for null. -/
def node (g : Graph) (id : Nat) : Node := g.nodes[id]?.getD .empty

/-- The tag of a node. -/
def tag (g : Graph) (id : Nat) : Tag := (g.node id).tag

/-- The contents of a node. -/
def contents (g : Graph) (id : Nat) : Contents := (g.node id).contents

/-- Adds a node, whose number is the size before. -/
def add (g : Graph) (node : Node) : Graph := ⟨g.nodes.push node⟩

/-- Changes the tag of a node. -/
def setTag (g : Graph) (id : Nat) (tag : Tag) : Graph := ⟨g.nodes.modify id ({ · with tag })⟩

/-- Changes the contents of a node. -/
def setContents (g : Graph) (id : Nat) (contents : Contents) : Graph :=
  ⟨g.nodes.modify id ({ · with contents })⟩

end Graph

/-! ## Reading nodes from tokens -/

/-- How far the tokens have been read. -/
structure Parser where
  tokens : List Token
  /-- What went wrong behind the last token. -/
  failure : Error := .yaml
  /-- What the handles of tags stand for. -/
  handles : List (String × String) := []
  /-- The nodes read so far. -/
  graph : Graph := {}
  /-- The nodes that have anchors, by name. -/
  anchors : List (String × Nat) := []

/-- A step of reading nodes, which are given by their numbers. -/
abbrev Parse := StateT Parser (Except Error)

namespace Parse

/-- The next token. -/
def peek : Parse Token := do
  match (← get).tokens with
  | t :: _ => return t
  | [] => throw (← get).failure

/-- Passes the next token. -/
def advance : Parse Unit := modify fun p => { p with tokens := p.tokens.drop 1 }

/-- Passes the next token if it is the given one, and tells if it was. -/
def take (token : Token) : Parse Bool := do
  if (← peek) = token then
    advance
    return true
  else return false

/-- Passes the next token, which has to be the given one. -/
def expect (token : Token) : Parse Unit := do
  unless ← take token do throw .yaml

/-- Whether the next token is one of some. -/
def isNext (tokens : List Token) : Parse Bool := return tokens.contains (← peek)

/-- Adds a node to the graph. -/
def add (node : Node) : Parse Nat :=
  modifyGet fun p => (p.graph.size, { p with graph := p.graph.add node })

/-- Adds a node without any text. -/
def addEmpty : Parse Nat := add .empty

/-- Adds a node, and names it if it has an anchor. An anchor names one node. -/
def addNamed (anchor : Option String) (node : Node) : Parse Nat := do
  match anchor with
  | none => add node
  | some name =>
    if ((← get).anchors.lookup name).isSome then throw .yaml
    let id ← add node
    modify fun p => { p with anchors := (name, id) :: p.anchors }
    return id

/-- What stands before the contents of a node. -/
structure Properties where
  anchor : Option String := none
  tag : Option TagText := none

/-- Reads an anchor and a tag, in either order. -/
def properties : Parse Properties := do
  let anchor? : Parse (Option String) := do
    match ← peek with
    | .anchor name => do advance; return some name
    | _ => return none
  let tag? : Parse (Option TagText) := do
    match ← peek with
    | .tag text => do advance; return some text
    | _ => return none
  match ← anchor? with
  | some anchor => return { anchor := some anchor, tag := ← tag? }
  | none => match ← tag? with
    | some tag => return { anchor := ← anchor?, tag := some tag }
    | none => return {}

/-- The URI of a tag; a lone exclamation mark is the URI of no particular tag. -/
def uriOf (tag : TagText) : Parse String := do
  match tag.handle with
  | none => return tag.suffix
  | some handle => match (← get).handles.lookup handle with
    | some expansion => return expansion ++ tag.suffix
    | none => throw .yaml

/-- The tag of a node that has a usual one, without a word about it. -/
def collectionTag (usual : Tag) (uri : Option String) : Tag :=
  match uri with
  | none | some "!" => usual
  | some uri => .ofUri uri

/-- The tag of a scalar: without a word about it, what its text shows unless it is quoted. -/
def scalarTag (uri : Option String) (isPlain : Bool) (text : String) : Tag :=
  match uri with
  | none => if isPlain then .shownBy text else .str
  | some "!" => .shownBy text
  | some uri => .ofUri uri

/-- Tokens that end an item of a block before its contents. -/
def endsBlockItem : List Token := [.blockEntry, .key, .value, .blockEnd]

/-- Tokens that end a key or a value of a block before its contents. -/
def endsBlockPart : List Token := [.key, .value, .blockEnd]

/-- Which collections without brackets may be the contents of a node. -/
inductive Context where
  /-- Between brackets or braces, none. -/
  | flow
  /-- Those that are indented further. -/
  | block
  /-- Also a sequence that is not indented further. -/
  | mappingPart

mutual

/-- Reads a node. A collection has its number and its name before its contents are read, where
aliases may stand for it. -/
def node (context : Context) : (fuel : Nat) → Parse Nat
  | 0 => throw .yaml
  | fuel + 1 => do
    match ← peek with
    | .alias name => do
      advance
      match (← get).anchors.lookup name with
      | some id => return id
      | none => throw .yaml
    | _ => do
      let props ← properties
      let uri ← props.tag.mapM uriOf
      let collection (usual : Tag) (read : Parse Contents) : Parse Nat := do
        let id ← addNamed props.anchor ⟨collectionTag usual uri, .items []⟩
        let contents ← read
        modify fun p => { p with graph := p.graph.setContents id contents }
        return id
      match ← peek, context with
      | .blockEntry, .mappingPart => collection .seq do
        return .items (← indentlessItems fuel)
      | .scalar text isPlain, _ => do
        advance
        addNamed props.anchor ⟨scalarTag uri isPlain text, .text text⟩
      | .flowSequenceStart, _ => collection .seq do
        advance
        return .items (← flowItems true fuel)
      | .flowMappingStart, _ => collection .map do
        advance
        return .entries (← flowEntries true fuel)
      | .blockSequenceStart, .block | .blockSequenceStart, .mappingPart => collection .seq do
        advance
        return .items (← blockItems fuel)
      | .blockMappingStart, .block | .blockMappingStart, .mappingPart => collection .map do
        advance
        return .entries (← blockEntries fuel)
      | _, _ =>
        if props.anchor.isSome || props.tag.isSome then
          addNamed props.anchor ⟨collectionTag .null uri, .text ""⟩
        else throw .yaml

/-- Reads a node, or nothing if one of some tokens is next. -/
def nodeUnless (ends : List Token) (context : Context) : (fuel : Nat) → Parse Nat
  | 0 => throw .yaml
  | fuel + 1 => do
    if ← isNext ends then addEmpty else node context fuel

/-- Reads the items of a block sequence. -/
def blockItems : (fuel : Nat) → Parse (List Nat)
  | 0 => throw .yaml
  | fuel + 1 => do
    if ← take .blockEntry then
      let item ← nodeUnless [.blockEntry, .blockEnd] .block fuel
      return item :: (← blockItems fuel)
    else
      expect .blockEnd
      return []

/-- Reads the items of a block sequence that is not indented. -/
def indentlessItems : (fuel : Nat) → Parse (List Nat)
  | 0 => throw .yaml
  | fuel + 1 => do
    if ← take .blockEntry then
      let item ← nodeUnless endsBlockItem .block fuel
      return item :: (← indentlessItems fuel)
    else return []

/-- Reads the entries of a block mapping. A key or a value may be missing. -/
def blockEntries : (fuel : Nat) → Parse (List (Nat × Nat))
  | 0 => throw .yaml
  | fuel + 1 => do
    if ← take .key then
      let key ← nodeUnless endsBlockPart .mappingPart fuel
      let value ← blockValue fuel
      return (key, value) :: (← blockEntries fuel)
    else
      expect .blockEnd
      return []

/-- Reads the value of an entry of a block mapping. -/
def blockValue : (fuel : Nat) → Parse Nat
  | 0 => throw .yaml
  | fuel + 1 => do
    if ← take .value then nodeUnless endsBlockPart .mappingPart fuel else addEmpty

/-- Reads the items of a sequence in brackets. An item with a colon is a mapping of one entry. -/
def flowItems (first : Bool) : (fuel : Nat) → Parse (List Nat)
  | 0 => throw .yaml
  | fuel + 1 => do
    if ← take .flowSequenceEnd then return []
    unless first do expect .flowEntry
    if ← take .key then
      let key ← nodeUnless [.value, .flowEntry, .flowSequenceEnd] .flow fuel
      let value ← flowValue .flowSequenceEnd fuel
      let item ← add ⟨.map, .entries [(key, value)]⟩
      return item :: (← flowItems false fuel)
    else if ← take .flowSequenceEnd then return []
    else
      let item ← node .flow fuel
      return item :: (← flowItems false fuel)

/-- Reads the value of an entry between brackets or braces. -/
def flowValue (closing : Token) : (fuel : Nat) → Parse Nat
  | 0 => throw .yaml
  | fuel + 1 => do
    if ← take .value then nodeUnless [.flowEntry, closing] .flow fuel else addEmpty

/-- Reads the entries of a mapping in braces. Without a colon, a key has no value. -/
def flowEntries (first : Bool) : (fuel : Nat) → Parse (List (Nat × Nat))
  | 0 => throw .yaml
  | fuel + 1 => do
    if ← take .flowMappingEnd then return []
    unless first do expect .flowEntry
    if ← take .key then
      let key ← nodeUnless [.value, .flowEntry, .flowMappingEnd] .flow fuel
      let value ← flowValue .flowMappingEnd fuel
      return (key, value) :: (← flowEntries false fuel)
    else if ← take .flowMappingEnd then return []
    else
      let key ← node .flow fuel
      let value ← addEmpty
      return (key, value) :: (← flowEntries false fuel)

end

/-! ## Documents -/

/-- The handles that every document has. -/
def usualHandles : List (String × String) := [("!", "!"), ("!!", Tag.base)]

/-- Reads the directives before a document. There is one version, and it is 1; a handle is
declared once. -/
def directives (versioned : Bool) : (fuel : Nat) → Parse Unit
  | 0 => throw .yaml
  | fuel + 1 => do
    match ← peek with
    | .versionDirective major => do
      advance
      if versioned || major != 1 then throw .yaml
      directives true fuel
    | .tagDirective handle expansion => do
      advance
      let p ← get
      if (p.handles.lookup handle).isSome then throw .yaml
      set { p with handles := p.handles ++ [(handle, expansion)] }
      directives versioned fuel
    | .otherDirective => do
      advance
      directives versioned fuel
    | _ => return ()

/-- Passes marks that end documents. -/
def documentEnds : (fuel : Nat) → Parse Unit
  | 0 => throw .yaml
  | fuel + 1 => do
    if ← take .documentEnd then documentEnds fuel else return ()

/-- Whether the next token is a directive. -/
def isDirectiveNext : Parse Bool := do
  match ← peek with
  | .versionDirective _ | .tagDirective .. | .otherDirective => return true
  | _ => return false

/-- Reads the only document of a stream, if there is one. A second one is refused once its
directives are read. -/
def document (fuel : Nat) : Parse (Option Nat) := do
  let isMarked := (← isDirectiveNext) || (← isNext [.documentStart])
  let root ← if isMarked then do
      directives false fuel
      expect .documentStart
      modify fun p => { p with handles := p.handles ++ usualHandles }
      let isEmpty := (← isDirectiveNext) ||
        (← isNext [.documentStart, .documentEnd, .streamEnd])
      if isEmpty then some <$> addEmpty else some <$> node .block fuel
    else if ← isNext [.streamEnd] then pure none
    else do
      modify fun p => { p with handles := usualHandles }
      some <$> node .block fuel
  documentEnds fuel
  unless ← take .streamEnd do
    modify fun p => { p with handles := [] }
    directives false fuel
    throw .yaml
  return root

end Parse

/-- The nodes of a text and the number of the one that it consists of, if it holds one. Every
token takes a bounded number of steps. -/
def compose (text : List Char) : Except Error (Graph × Option Nat) :=
  if text.all isReadable then
    let (tokens, failure) := tokensOf text
    match (Parse.document (4 * tokens.length + 8)).run
        { tokens, failure := failure.getD .yaml } with
    | .ok (root, p) => .ok (p.graph, root)
    | .error e => .error e
  else .error .yaml

end ApiManifest.Yaml
