import ApiManifest.Proofs.Existence
import ApiManifest.Proofs.Hints
import ApiManifest.Proofs.Index

/-!
# A place for each operation

Every operation has its place in the path items of its resource: a path and a verb. Listing and
reading share a verb, and all other operations have one of their own, so only these two can come to
the same place. They do if the path of the collection is that of an item; and since the first one
lacks the last segment of the template, that is so exactly if there is no segment. Then the
operation that is put there last has taken the place of the other one.
-/

namespace ApiManifest

/-! ## The two paths of a template -/

namespace PathTemplate

/-- **The path of a collection is that of an item** exactly if the template has no segments. -/
theorem display_eq_iff (raw : String) :
    (parse raw true).display = (parse raw false).display ↔ segments raw = [] := by
  constructor
  · intro h
    have hlength := congrArg List.length (segments_display_collection raw)
    rw [h, List.length_dropLast, segments_display, List.length_map] at hlength
    -- an item keeps all segments
    change (segments raw).length = (segments raw).length - 1 at hlength
    exact List.length_eq_zero_iff.mp (by omega)
  · intro h
    rw [display_parse, display_parse, keptSegments, keptSegments, h]
    rfl

end PathTemplate

/-! ## Places -/

theorem Operation.name_injective {op op' : Operation} (h : op.name = op'.name) : op = op' := by
  cases op <;> cases op' <;> first | rfl | exact absurd h (by decide)

/-- Of two operations with one verb, one is listing and the other one is reading. -/
theorem Operation.eq_or_of_verb {op op' : Operation} (h : op.verb = op'.verb) :
    op = op' ∨ op = .list ∧ op' = .read ∨ op = .read ∧ op' = .list := by
  revert h
  cases op <;> cases op' <;> decide

theorem Resource.nodup_operations (r : Resource) : r.operations.Nodup :=
  List.Nodup.filter _ (by decide)

namespace PathItem

/-- Where an operation of a resource belongs: a path, and the key of a verb. -/
def placeOf (r : Resource) (op : Operation) : String × String := (pathOf r op, op.verb.key)

/-- Whether listing and reading come to the same place. -/
def Collides (r : Resource) : Prop :=
  PathTemplate.segments r.path = [] ∧ .list ∈ r.operations ∧ .read ∈ r.operations

theorem placeOf_list_eq_iff (r : Resource) :
    placeOf r .list = placeOf r .read ↔ PathTemplate.segments r.path = [] := by
  rw [← PathTemplate.display_eq_iff]
  simp [placeOf, pathOf, Operation.onCollection, Operation.verb]

/-- **The operations of a resource have different places** unless listing and reading collide. -/
theorem nodup_places_iff (r : Resource) :
    (r.operations.map (placeOf r)).Nodup ↔ ¬ Collides r := by
  rw [List.nodup_map_iff_inj_on r.nodup_operations]
  constructor
  · rintro hdifferent ⟨hsegments, hlist, hread⟩
    cases hdifferent _ hlist _ hread ((placeOf_list_eq_iff r).mpr hsegments)
  · intro hno op hop op' hop' hplace
    obtain ⟨-, hkey⟩ := Prod.mk.inj hplace
    rcases Operation.eq_or_of_verb (key_injective hkey) with rfl | ⟨rfl, rfl⟩ | ⟨rfl, rfl⟩
    · rfl
    · exact absurd ⟨(placeOf_list_eq_iff r).mp hplace, hop, hop'⟩ hno
    · exact absurd ⟨(placeOf_list_eq_iff r).mp hplace.symm, hop', hop⟩ hno

/-! ## What stands at the places -/

/-- The operation objects in a path item, each with the path and the key of its verb. A path item
has nothing else but the name of the collection. -/
def objectsAt (path : String) : Node → List ((String × String) × Node)
  | .map fields => (fields.filter (·.1 ≠ tagField)).map fun field => ((path, field.1), field.2)
  | _ => []

/-- The operation objects in path items. -/
def operationObjects (paths : Fields Node) : List ((String × String) × Node) :=
  paths.flatMap fun entry => objectsAt entry.1 entry.2

/-- The path items hold each operation of the resource at its place, and no operation elsewhere:
their operation objects are those of the operations one by one, no place is there twice, and no
object. -/
def KeepsOperations (r : Resource) (options : Options) (backend : Option Backend)
    (paths : Fields Node) : Prop :=
  ∃ part : Operation → Node,
    (∀ op ∈ r.operations, operation r op options backend = .ok (part op)) ∧
    (operationObjects paths).Perm (r.operations.map fun op => (placeOf r op, part op)) ∧
    ((operationObjects paths).map Prod.fst).Nodup ∧ ((operationObjects paths).map Prod.snd).Nodup

theorem mem_objectsAt {path key : String} {part : Node} {fields : Fields Node}
    (hfields : (Fields.names fields).Nodup) : ((path, key), part) ∈ objectsAt path (.map fields) ↔
      key ≠ tagField ∧ Fields.get? key fields = some part := by
  unfold objectsAt
  rw [List.mem_map]
  constructor
  · rintro ⟨⟨key', part'⟩, hmem, heq⟩
    obtain ⟨hmem, hkey⟩ := List.mem_filter.mp hmem
    cases heq
    exact ⟨of_decide_eq_true hkey, Fields.get?_of_mem hfields hmem⟩
  · rintro ⟨hkey, hget⟩
    exact ⟨_, List.mem_filter.mpr ⟨Fields.mem_of_get? hget, decide_eq_true hkey⟩, rfl⟩

theorem path_of_mem_objectsAt {path : String} {item : Node} {object : (String × String) × Node}
    (h : object ∈ objectsAt path item) : object.1.1 = path := by
  cases item with
  | map fields =>
      obtain ⟨_, _, rfl⟩ := List.mem_map.mp h
      rfl
  | _ => cases h

section

variable {r : Resource} {options : Options} {backend : Option Backend} {paths : Fields Node}
  {path key : String} {part : Node}

theorem mem_operationObjects (hitems : ItemsOf r paths) :
    ((path, key), part) ∈ operationObjects paths ↔
      key ≠ tagField ∧ Node.at? [path, key] (.map paths) = some part := by
  unfold operationObjects
  rw [Node.at?_pair, Option.bind_eq_some_iff, List.mem_flatMap]
  constructor
  · rintro ⟨⟨path', item⟩, hitem, hmem⟩
    obtain rfl : path = path' := path_of_mem_objectsAt hmem
    have hget := Fields.get?_of_mem hitems.nodup hitem
    obtain ⟨fields, rfl, hfields⟩ := Node.isRecord_iff.mp (hitems.record _ _ hget)
    obtain ⟨hkey, hpart⟩ := (mem_objectsAt hfields).mp hmem
    exact ⟨hkey, _, hget, hpart⟩
  · rintro ⟨hkey, item, hget, hpart⟩
    refine ⟨(path, item), Fields.mem_of_get? hget, ?_⟩
    obtain ⟨fields, rfl, hfields⟩ := Node.isRecord_iff.mp (hitems.record _ _ hget)
    exact (mem_objectsAt hfields).mpr ⟨hkey, hpart⟩

/-- No place is there twice. -/
theorem nodup_operationObjects (hitems : ItemsOf r paths) :
    ((operationObjects paths).map Prod.fst).Nodup := by
  unfold operationObjects
  rw [List.map_flatMap, List.nodup_flatMap]
  constructor
  · rintro ⟨path, item⟩ hitem
    obtain ⟨fields, rfl, hfields⟩ :=
      Node.isRecord_iff.mp (hitems.record _ _ (Fields.get?_of_mem hitems.nodup hitem))
    have hplaces : (objectsAt path (.map fields)).map Prod.fst
        = ((fields.filter (·.1 ≠ tagField)).map Prod.fst).map (Prod.mk path) := by
      rw [objectsAt, List.map_map, List.map_map]
      rfl
    rw [hplaces]
    exact List.Nodup.map (Prod.mk_right_injective path)
      ((List.filter_sublist.map Prod.fst).nodup hfields)
  · refine (List.pairwise_map.mp hitems.nodup).imp fun {a b} hne place ha hb => hne ?_
    obtain ⟨x, hx, rfl⟩ := List.mem_map.mp ha
    obtain ⟨y, hy, heq⟩ := List.mem_map.mp hb
    rw [← path_of_mem_objectsAt hx, ← path_of_mem_objectsAt hy, heq]

/-- The operation objects of a resource are those that its operations left at their places. -/
theorem mem_operationObjects_iff (h : items r options backend = .ok paths) :
    ((path, key), part) ∈ operationObjects paths ↔ ∃ op, operationAt r path op.verb = some op ∧
      placeOf r op = (path, key) ∧ operation r op options backend = .ok part := by
  rw [mem_operationObjects (itemsOf_items h)]
  constructor
  · rintro ⟨hkey, hat⟩
    obtain ⟨item, hget, hpart⟩ := Option.bind_eq_some_iff.mp ((Node.at?_pair _ _ _).symm.trans hat)
    -- every key but that of the collection's name is that of a verb
    have hname : key ∈ verbsAt path r := by
      have hnames := hasNames_items h hget
      match item, hnames with
      | .map fields, hnames =>
          have hmem : key ∈ Fields.names fields := Fields.get?_isSome_iff.mp
            (Option.isSome_iff_exists.mpr ⟨part, hpart⟩)
          rw [show Fields.names fields = _ from hnames, List.mem_eraseDups] at hmem
          exact (List.mem_cons.mp hmem).resolve_left hkey
    obtain ⟨op, -, rfl⟩ := List.mem_map.mp hname
    rw [at?_items_verb h, Option.bind_eq_some_iff] at hat
    obtain ⟨shown, hshown, hpart⟩ := hat
    obtain ⟨-, hpath, hverb⟩ := operationAt_cases hshown
    refine ⟨shown, by rw [hverb]; exact hshown, by rw [placeOf, hpath, hverb], ?_⟩
    cases hobject : operation r shown options backend with
    | error e => rw [hobject] at hpart; cases hpart
    | ok object => rw [hobject] at hpart; exact congrArg Except.ok (Option.some.inj hpart)
  · rintro ⟨op, hop, hplace, hpart⟩
    obtain ⟨rfl, rfl⟩ := Prod.mk.inj hplace
    refine ⟨(tagField_ne_key op.verb).symm, ?_⟩
    rw [at?_items_verb h, hop, Option.bind_some, hpart]
    rfl

/-- The object of an operation carries the name of the operation. -/
theorem get?_operationId {op : Operation} (h : operation r op options backend = .ok part) :
    part.get? "operationId" = some (.text op.name) := by
  obtain ⟨gateway, -, rfl⟩ := operation_eq h
  rfl

/-- Different operations have different objects. -/
theorem nodup_parts {part : Operation → Node}
    (hpart : ∀ op ∈ r.operations, operation r op options backend = .ok (part op)) :
    (r.operations.map part).Nodup := by
  refine r.nodup_operations.map_on fun op hop op' hop' hsame => Operation.name_injective ?_
  have hid := get?_operationId (hpart op hop)
  rw [hsame, get?_operationId (hpart op' hop')] at hid
  exact (Scalar.text.inj (Value.scalar.inj (Node.leaf.inj (Option.some.inj hid)))).symm

theorem operationAt_placeOf (h : (r.operations.map (placeOf r)).Nodup) {op : Operation}
    (hop : op ∈ r.operations) : operationAt r (pathOf r op) op.verb = some op := by
  cases hshown : operationAt r (pathOf r op) op.verb with
  | none => exact absurd ⟨rfl, rfl⟩ (operationAt_eq_none_iff.mp hshown op hop)
  | some shown =>
      obtain ⟨hmem, hpath, hverb⟩ := operationAt_cases hshown
      rw [List.nodup_map_iff_inj_on r.nodup_operations] at h
      rw [h shown hmem op hop (by rw [placeOf, placeOf, hpath, hverb])]

/-- **Path items keep all operations exactly if these have different places.** -/
theorem keepsOperations_iff (h : items r options backend = .ok paths) :
    KeepsOperations r options backend paths ↔ ¬ Collides r := by
  have hplaces := nodup_operationObjects (itemsOf_items h)
  rw [← nodup_places_iff]
  constructor
  · rintro ⟨part, -, hperm, -⟩
    have hsame := hperm.map Prod.fst
    rw [List.map_map] at hsame
    exact hsame.nodup_iff.mp hplaces
  · intro hdifferent
    choose! part hpart using fun op (hop : op ∈ r.operations) => operation_of_items h hop
    have hnodup : (r.operations.map fun op => (placeOf r op, part op)).Nodup := by
      refine List.Nodup.of_map Prod.fst ?_
      rw [List.map_map]
      exact hdifferent
    -- neither list has an object twice, so having the same objects is enough
    have hperm : (operationObjects paths).Perm
        (r.operations.map fun op => (placeOf r op, part op)) := by
      refine (List.perm_ext_iff_of_nodup (List.Nodup.of_map _ hplaces) hnodup).mpr ?_
      rintro ⟨⟨path, key⟩, object⟩
      rw [mem_operationObjects_iff h, List.mem_map]
      constructor
      · rintro ⟨op, hop, hplace, hobject⟩
        obtain ⟨hmem, -⟩ := operationAt_cases hop
        refine ⟨op, hmem, ?_⟩
        rw [hplace, Except.ok.inj ((hpart op hmem).symm.trans hobject)]
      · rintro ⟨op, hop, heq⟩
        cases heq
        exact ⟨op, operationAt_placeOf hdifferent hop, rfl, hpart op hop⟩
    refine ⟨part, hpart, hperm, hplaces, ?_⟩
    have hobjects := hperm.map Prod.snd
    rw [List.map_map] at hobjects
    exact hobjects.nodup_iff.mpr (nodup_parts hpart)

/-- Every operation has an object if a backend of texts is given whenever a gateway is asked for. -/
theorem exists_operation_of_texts (r : Resource) (op : Operation)
    (hbackend : options.apiGateway = true →
    ∃ scheme host basePath : String, backend = some ⟨.text scheme, .text host, .text basePath⟩) :
    ∃ part, operation r op options backend = .ok part := by
  cases hgateway : options.apiGateway with
  | true =>
      obtain ⟨scheme, host, basePath, rfl⟩ := hbackend hgateway
      exact exists_operation options (Backend.reachable_texts scheme host basePath) op
  | false =>
      have hnone : integration? r op options backend = .ok none := by
        unfold integration?
        rw [hgateway]
        rfl
      exact ⟨_, by rw [operation, hnone]; rfl⟩

/-- There are path items exactly if all methods are keys and all operations have objects. -/
theorem exists_items_iff : (∃ paths, items r options backend = .ok paths) ↔
    Tree.areKeys r.methods = true ∧
      ∀ op ∈ r.operations, ∃ part, operation r op options backend = .ok part := by
  constructor
  · rintro ⟨paths, h⟩
    refine ⟨?_, fun op hop => operation_of_items h hop⟩
    by_contra hno
    rw [items, Resource.unknownMethods, if_neg hno] at h
    cases h
  · rintro ⟨hmethods, hobjects⟩
    have hoffer : ∀ (ops : List Operation) (paths : Fields Node), (∀ op ∈ ops, op ∈ r.operations) →
        ∃ paths', offer r options backend ops paths = .ok paths' := by
      intro ops
      induction ops with
      | nil => exact fun paths _ => ⟨paths, rfl⟩
      | cons op rest ih =>
          intro paths hops
          obtain ⟨part, hpart⟩ := hobjects op (hops op List.mem_cons_self)
          rw [offer, hpart]
          exact ih _ fun other hother => hops other (List.mem_cons_of_mem _ hother)
    rw [items, Resource.unknownMethods, if_pos hmethods]
    exact hoffer r.operations (roots r) fun _ hop => hop

end

variable {σ : Type}

/-- **No operation of a resource is lost,** given that its methods can be looked up and its
operations have objects, exactly if listing and reading do not collide. Where a backend of texts is
given, as far as it is needed, all operations have objects. -/
theorem keeps_operations_iff (r : Resource) (options : Options) (backend : Option Backend)
    (w : World σ) :
    ((∃ paths w', Returns (ofResource r options backend) w paths w' ∧
        KeepsOperations r options backend paths) ↔
      Tree.areKeys r.methods = true ∧
        (∀ op ∈ r.operations, ∃ part, operation r op options backend = .ok part) ∧
        ¬ (PathTemplate.segments r.path = [] ∧ .list ∈ r.operations ∧ .read ∈ r.operations)) ∧
    ((options.apiGateway = true →
        ∃ scheme host basePath : String,
          backend = some ⟨.text scheme, .text host, .text basePath⟩) →
      ∀ op ∈ r.operations, ∃ part, operation r op options backend = .ok part) := by
  refine ⟨?_, fun hbackend op _ => exists_operation_of_texts r op hbackend⟩
  rw [← and_assoc, ← exists_items_iff]
  constructor
  · rintro ⟨paths, w', hreturns, hkeeps⟩
    have hitems := (items_of_returns hreturns).1
    exact ⟨⟨paths, hitems⟩, (keepsOperations_iff hitems).mp hkeeps⟩
  · rintro ⟨⟨paths, hitems⟩, hno⟩
    obtain ⟨w', hreturns⟩ := returns_of_items w hitems
    exact ⟨paths, w', hreturns, (keepsOperations_iff hitems).mpr hno⟩

/-- A declaration of a resource at the root. -/
def rootDeclaration : Tree :=
  .map [(.text "path", .text "/"), (.text "methods", .list [.text "list", .text "read"])]

/-- Operations are lost in general: at the root, reading takes the place of listing. -/
theorem not_keeps_operations :
    ¬ ∀ (st : Store) (name : String) (decl : Value) (r : Resource) (options : Options)
      (backend : Option Backend) (w : World Unit), Resource.ofValue st name decl = .ok r →
      Tree.areKeys r.methods = true →
      (options.apiGateway = true → ∃ scheme host basePath : String,
        backend = some ⟨.text scheme, .text host, .text basePath⟩) →
      ∃ paths w', Returns (ofResource r options backend) w paths w' ∧
        KeepsOperations r options backend paths := by
  intro hall
  have hresource : ∃ r, Resource.ofValue (Store.empty.insert rootDeclaration).1 "a"
      (Store.empty.insert rootDeclaration).2 = .ok r ∧ Tree.areKeys r.methods = true ∧
        Collides r := by
    refine ⟨⟨"a", "/", [.text "list", .text "read"], false, .null, .null⟩, rfl, rfl, rfl, ?_⟩
    decide +kernel
  obtain ⟨r, hr, hmethods, hcollides⟩ := hresource
  obtain ⟨paths, w', hreturns, hkeeps⟩ := hall _ _ _ r {} none { store := .empty, examples := () }
    hr hmethods nofun
  exact (keepsOperations_iff (items_of_returns hreturns).1).mp hkeeps hcollides

end PathItem
end ApiManifest
