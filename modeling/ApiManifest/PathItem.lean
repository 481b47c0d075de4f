import ApiManifest.Definition
import ApiManifest.PathTemplate

/-!
# Path items

The operations of a resource by path. Listing and creating belong to the path of the collection,
the other operations to the path of an item; both paths are there even when they offer nothing.
-/

namespace ApiManifest

/-! ## Backends -/

/-- Where a gateway forwards requests to. -/
structure Backend where
  scheme : Tree
  host : Tree
  basePath : Tree

namespace Backend

/-- The first item of a value. -/
def firstItem : Tree → Except Error Tree
  | .list (x :: _) | .tuple (x :: _) => .ok x
  | .list [] | .tuple [] => .error .missingItem
  | .scalar (.text s) => match s.toList with
    | c :: _ => .ok (.text c.toString)
    | [] => .error .missingItem
  | .scalar (.bytes b) => match b with
    | x :: _ => .ok (.int x.toNat)
    | [] => .error .missingItem
  | .map es => match Entries.find? (.int 0) es with
    | some x => .ok x
    | none => .error .missingKey
  | _ => .error .notSequence

/-- The backend that a document names: its first scheme, its host and its base path. -/
def ofDocument (document : Tree) : Except Error Backend :=
  match document with
  | .map es =>
    let orElse (name : String) (default : Tree) : Tree :=
      match Entries.get? es name with
      | some v => if v.holds then v else default
      | none => default
    do
      let scheme ← firstItem (orElse "schemes" (.list [.text "https"]))
      return { scheme, host := orElse "host" (.text ""), basePath := orElse "basePath" (.text "/") }
  | _ => .error .notMapping

/-- The address of a path at the backend. -/
def uri (b : Backend) (path : String) : Except Error String := do
  let basePath ← match b.basePath with
    | .scalar (.text s) => pure s
    | v => if v.holds then throw .notMapping else pure ""
  let path := PathTemplate.join [some basePath, some path]
  return (← b.scheme.display) ++ "://" ++ (← b.host.display) ++ path

end Backend

/-! ## Operations -/

namespace PathItem

/-- The key of the collection's name in a path item. -/
def tagField : String := "x-kraken-collection"

/-- The key of the gateway integration of an operation. -/
def gatewayField : String := "x-amazon-apigateway-integration"

/-- The type of a path parameter without a hint. -/
def unhintedType : String := "string"

/-- The statuses of a backend that are success. -/
def successStatuses : String := "2\\d\x7b2\x7d"

/-- What a gateway sends to the backend instead of a body. -/
def forwardedRequest : String :=
  "\x7b\"resourcePath\":\"$context.resourcePath\",\"httpMethod\":\"$context.httpMethod\","
    ++ "\"queryParams\":\x7b\"filters\":"
    ++ "\"$util.base64Encode($input.params().querystring.filters)\"\x7d\x7d"

/-- A parameter of a path. -/
def parameterNamed (r : Resource) (name : String) (hint : Option String) : Node :=
  .map [
    ("name", .text name),
    ("in", .text "path"),
    ("type", .text (hint.getD unhintedType)),
    ("required", .bool true),
    ("description",
      .text s!"The {Naming.phrase name} related to this {Naming.title r.name}")]

/-- The parameter that carries new contents. -/
def contentsParameter (r : Resource) : Node :=
  .map [
    ("name", .text "payload"),
    ("in", .text "body"),
    ("description", .text s!"The new {Naming.title r.name} you want to create"),
    ("schema", Definition.reference (Definition.requestName r.name))]

/-- The parameters of an operation. -/
def parameters (r : Resource) (op : Operation) : List Node :=
  (PathTemplate.parse r.path op.onCollection).params.map (fun (name, hint) =>
      parameterNamed r name hint)
    ++ (if op.modifies && !r.isReadOnly then [contentsParameter r] else [])

/-- The schema of an operation's answer. -/
def answerSchema (r : Resource) (op : Operation) : Node :=
  let reference := Definition.reference (Definition.responseName r.name)
  if op.isListing then .map [("type", .text "array"), ("items", reference)] else reference

/-- The gateway integration of an operation. -/
def integration (r : Resource) (op : Operation) (backend : Backend) : Except Error Node := do
  let template := PathTemplate.parse r.path op.onCollection
  let uri ← backend.uri template.display
  return .map [
    ("type", .text "http"),
    ("uri", .text uri),
    ("httpMethod", .text op.verb.text),
    ("requestParameters", .map (template.params.map fun (name, _) =>
      ("integration.request.path." ++ name, .text ("method.request.path." ++ name)))),
    ("requestTemplates", .map [("application/json", .text forwardedRequest)]),
    ("responses", .map [(successStatuses, .map [("statusCode", .text "200")])])]

/-- The integration that the options ask for. It needs a backend. -/
def integration? (r : Resource) (op : Operation) (options : Options) (backend : Option Backend) :
    Except Error (Option Node) :=
  if options.apiGateway then
    match backend with
    | some b => some <$> integration r op b
    | none => .error .noBackend
  else .ok none

/-- What an operation of a resource is. -/
def operation (r : Resource) (op : Operation) (options : Options) (backend : Option Backend) :
    Except Error Node := do
  let description := op.describe (Naming.title r.name)
  let integration ← integration? r op options backend
  return .map <| [
    ("description", .text description),
    ("operationId", .text op.name),
    ("parameters", .list (parameters r op)),
    ("responses", .map [
      ("200", .map [("description", .text description), ("schema", answerSchema r op)])])]
    ++ Definition.optional gatewayField integration

/-- The operation of a name. -/
def operationNamed (r : Resource) (name : String) (options : Options)
    (backend : Option Backend) : Except Error Node :=
  match Operation.ofName? name with
  | some op => operation r op options backend
  | none => .error .missingKey

/-! ## Paths -/

/-- The path that an operation of a resource is requested at. -/
def pathOf (r : Resource) (op : Operation) : String :=
  (PathTemplate.parse r.path op.onCollection).display

/-- The paths of a resource without operations. -/
def roots (r : Resource) : Fields Node :=
  let tag : Node := .map [(tagField, .text (Naming.pascalCase r.name))]
  let collection := (PathTemplate.parse r.path true).display
  let item := (PathTemplate.parse r.path false).display
  if item = collection then [(collection, tag)] else [(collection, tag), (item, tag)]

/-- Puts an operation under its verb into the path item at a path. -/
def putOperation (path : String) (verb : Verb) (operation : Node) (paths : Fields Node) :
    Fields Node :=
  match Fields.get? path paths with
  | some (.map fields) => Fields.put path (.map (Fields.put verb.key operation fields)) paths
  | _ => paths

variable {σ : Type}

/-- Adds operations of a resource to its paths. -/
def addOperations (r : Resource) (options : Options) (backend : Option Backend) :
    List Operation → Fields Node → Run σ (Fields Node)
  | [], paths => pure paths
  | op :: rest, paths => do
    let path := pathOf r op
    Run.tell [⟨.paths, .debug, s!"{op.verb.text} {path} -> {op.name}"⟩]
    let part ← Run.reading fun _ => operation r op options backend
    addOperations r options backend rest (putOperation path op.verb part paths)

/-- The record that a method is no operation, when the method can be shown. -/
def skipped (r : Resource) (method : Tree) : List Log.Record :=
  match method.literal with
  | .ok text => [⟨.paths, .warning, s!"Skipping unknown operation {text} on {r.name}"⟩]
  | .error _ => []

/-- The path items of a resource by path. -/
def ofResource (r : Resource) (options : Options) (backend : Option Backend) :
    Run σ (Fields Node) := do
  let unknown ← Run.reading fun _ => r.unknownMethods
  Run.tell (unknown.flatMap (skipped r))
  addOperations r options backend r.operations (roots r)

end PathItem
end ApiManifest
