import ApiManifest.Proofs.Parameters

/-!
# Layers

The paths of a document are the path items of its resources laid over each other, those of the first
resource lowest. This file follows one place, given by the names that lead there, through all the
layers: what a document shows at it comes of what the single resources show at it, in their order,
and of nothing else.

Laying one part over another one merges them, which in general leaves something of both. A part
hides what is below it if the two have the same shape: the same names at every level.
-/

namespace ApiManifest

variable {σ : Type}

namespace Node

/-! ## Places -/

/-- The part that some names lead to, one after the other. -/
def at? : List String → Node → Option Node
  | [], part => some part
  | name :: rest, part => (part.get? name).bind (at? rest)

/-- The names lead through records only. -/
def RecordsAlong : List String → Node → Prop
  | [], _ => True
  | name :: rest, part => part.IsRecord ∧ ∀ x, part.get? name = some x → RecordsAlong rest x

theorem at?_append (names more : List String) (part : Node) :
    at? (names ++ more) part = (at? names part).bind (at? more) := by
  induction names generalizing part with
  | nil => rfl
  | cons name rest ih =>
      rw [List.cons_append, at?, at?, Option.bind_assoc]
      congr 1
      funext x
      exact ih x

theorem RecordsAlong.append {names more : List String} {part : Node} (h : RecordsAlong names part)
    (hmore : ∀ x, at? names part = some x → RecordsAlong more x) :
    RecordsAlong (names ++ more) part := by
  induction names generalizing part with
  | nil => exact hmore part rfl
  | cons name rest ih =>
      obtain ⟨hrecord, hrest⟩ := h
      refine ⟨hrecord, fun x hx => ih (hrest x hx) fun y hy => hmore y ?_⟩
      rw [at?, hx]
      exact hy

theorem at?_pair (fields : Fields Node) (name other : String) :
    at? [name, other] (.map fields) = (Fields.get? name fields).bind (Node.get? other) := by
  rw [at?, Node.get?]
  congr 1
  funext x
  rw [at?]
  cases x.get? other <;> rfl

/-- What stands in a part without objects refers to none. -/
theorem Plain.get? {part x : Node} {name : String} (h : part.Plain)
    (hx : part.get? name = some x) : x.Plain := by
  cases part with
  | leaf v => simp [Node.get?] at hx
  | list items => simp [Node.get?] at hx
  | map fields => exact (allFields_iff.mp h _ (Fields.mem_of_get? hx)).2

/-! ## One part over another -/

/-- What comes of laying a part without objects over another part. -/
def cover (lower upper : Node) : Node := overlay (fun _ => false) lower upper

mutual

/-- Which objects are mappings does not matter where there is no object. -/
theorem overlay_plain {maps : Nat → Bool} {field : String → Node → Prop} :
    ∀ {lower upper : Node}, All isScalar field upper → overlay maps lower upper = cover lower upper
  | lower, upper, hu => match lower, upper, pairing lower upper with
    | _, _, .mappings fields source => by
        unfold cover
        rw [overlay, overlay, overlayFields_plain hu]
    | _, _, .objects old new => False.elim hu
    | _, _, .replaced hneither => by
        unfold cover
        rw [overlay_of_not_blends hneither, overlay_of_not_blends hneither]

theorem overlayFields_plain {maps : Nat → Bool} {field : String → Node → Prop} :
    ∀ {lower : Fields Node} {upper : List (String × Node)}, AllFields isScalar field upper →
      overlayFields maps lower upper = overlayFields (fun _ => false) lower upper
  | lower, [], _ => by rw [overlayFields, overlayFields]
  | lower, (name, part) :: rest, hu => by
      rw [overlayFields, overlayFields]
      cases Fields.get? name lower with
      | none => exact overlayFields_plain hu.2
      | some existing =>
          have hpart : overlay maps existing part = overlay (fun _ => false) existing part :=
            overlay_plain hu.1.2
          dsimp only
          rw [hpart]
          exact overlayFields_plain hu.2

end

/-- A new name is taken over with its part. -/
theorem get?_overlay_of_new {maps : Nat → Bool} {name : String} {lower upper new : Node}
    (hl : lower.IsRecord) (hu : upper.IsRecord) (hold : lower.get? name = none)
    (hnew : upper.get? name = some new) :
    (overlay maps lower upper).get? name = some new := by
  match lower, upper, hl, hu with
  | .map fields, .map _, _, hdistinct =>
      have hget : Fields.get? name fields = none := hold
      have h := @get?_overlayFields maps name new fields _ hdistinct hnew
      rw [hget] at h
      rw [overlay]
      exact h

theorem RecordsAlong.overlay {maps : Nat → Bool} {names : List String} {lower upper : Node}
    (hl : RecordsAlong names lower) (hu : RecordsAlong names upper) :
    RecordsAlong names (overlay maps lower upper) := by
  induction names generalizing lower upper with
  | nil => trivial
  | cons name rest ih =>
      obtain ⟨hlr, hlrest⟩ := hl
      obtain ⟨hur, hurest⟩ := hu
      refine ⟨hlr.overlay hur, fun x hx => ?_⟩
      cases hnew : upper.get? name with
      | none =>
          rw [get?_overlay_of_absent hlr hur hnew] at hx
          exact hlrest x hx
      | some new =>
          cases hold : lower.get? name with
          | none =>
              rw [get?_overlay_of_new hlr hur hold hnew, Option.some.injEq] at hx
              subst hx
              exact hurest new hnew
          | some old =>
              rw [get?_overlay hlr hur hold hnew, Option.some.injEq] at hx
              subst hx
              exact ih (hlrest old hold) (hurest new hnew)

/-- **A place in two layers.** Where both show something, the upper part lies over the lower one. -/
theorem at?_overlay {maps : Nat → Bool} {names : List String} {lower upper : Node}
    (hp : upper.Plain) (hl : RecordsAlong names lower) (hu : RecordsAlong names upper) :
    at? names (Node.overlay maps lower upper)
      = Option.merge cover (at? names lower) (at? names upper) := by
  induction names generalizing lower upper with
  | nil =>
      rw [overlay_plain hp]
      rfl
  | cons name rest ih =>
      obtain ⟨hlr, hlrest⟩ := hl
      obtain ⟨hur, hurest⟩ := hu
      rw [at?, at?, at?]
      cases hnew : upper.get? name with
      | none =>
          rw [get?_overlay_of_absent hlr hur hnew, Option.bind_none, Option.merge_none_right]
      | some new =>
          cases hold : lower.get? name with
          | none =>
              rw [get?_overlay_of_new hlr hur hold hnew, Option.bind_none,
                Option.merge_none_left]
          | some old =>
              rw [get?_overlay hlr hur hold hnew]
              exact ih (hp.get? hnew) (hlrest old hold) (hurest new hnew)

/-! ## Many layers -/

/-- What parts come to that are laid over each other, the first one lowest. -/
def layers (parts : List Node) : Option Node :=
  parts.foldl (fun lower part => Option.merge cover lower (some part)) none

theorem layers_concat (parts : List Node) (part : Node) :
    layers (parts ++ [part]) = Option.merge cover (layers parts) (some part) := by
  unfold layers
  rw [List.foldl_append, List.foldl_cons, List.foldl_nil]

theorem layers_eq_none_iff {parts : List Node} : layers parts = none ↔ parts = [] := by
  induction parts using List.reverseRecOn with
  | nil => simp [layers]
  | append_singleton parts part _ =>
      rw [layers_concat]
      cases layers parts <;> simp

/-- Where each part hides the others, the last one is seen. -/
theorem layers_eq_getLast? {parts : List Node}
    (h : ∀ lower ∈ parts, ∀ upper ∈ parts, cover lower upper = upper) :
    layers parts = parts.getLast? := by
  induction parts using List.reverseRecOn with
  | nil => rfl
  | append_singleton parts part ih =>
      have hbelow : layers parts = parts.getLast? :=
        ih fun lower hlower upper hupper => h lower (List.mem_append_left _ hlower) upper
          (List.mem_append_left _ hupper)
      rw [layers_concat, hbelow, List.getLast?_append]
      cases hlast : parts.getLast? with
      | none => rfl
      | some lower =>
          have hlower : lower ∈ parts := List.mem_of_getLast? hlast
          have hhides := h lower (List.mem_append_left _ hlower) part (by simp)
          show some (cover lower part) = some part
          rw [hhides]

/-- The last one of some layers is the one of the last thing that has any. -/
theorem getLast?_filterMap_cases {α : Type} {f : α → Option Node} {things : List α} {part : Node}
    (h : (things.filterMap f).getLast? = some part) :
    ∃ before x after, things = before ++ x :: after ∧ f x = some part ∧
      ∀ y ∈ after, f y = none := by
  rw [List.getLast?_filterMap, List.findSome?_eq_some_iff] at h
  obtain ⟨after, x, before, hsplit, hx, hafter⟩ := h
  refine ⟨before.reverse, x, after.reverse, ?_, hx, fun y hy => ?_⟩
  · have hthings := congrArg List.reverse hsplit
    simpa using hthings
  · exact hafter y (List.mem_reverse.mp hy)

/-- **No name is lost.** Layers of records come to a record that has the names of all of them. -/
theorem get?_layers {parts : List Node} (hrecords : ∀ x ∈ parts, x.IsRecord) {part : Node}
    (h : layers parts = some part) :
    part.IsRecord ∧ ∀ name, (part.get? name).isSome ↔ ∃ x ∈ parts, (x.get? name).isSome := by
  induction parts using List.reverseRecOn generalizing part with
  | nil => cases h
  | append_singleton parts upper ih =>
      have hupper : upper.IsRecord := hrecords upper (by simp)
      have hbelow : ∀ x ∈ parts, x.IsRecord := fun x hx => hrecords x (List.mem_append_left _ hx)
      rw [layers_concat] at h
      cases hlayers : layers parts with
      | none =>
          have hnone : parts = [] := layers_eq_none_iff.mp hlayers
          rw [hlayers, Option.merge_none_left, Option.some.injEq] at h
          subst h
          rw [hnone]
          exact ⟨hupper, fun name => by simp⟩
      | some lower =>
          obtain ⟨hlower, hnames⟩ := ih hbelow hlayers
          rw [hlayers] at h
          have hpart : cover lower upper = part := Option.some.inj h
          rw [← hpart]
          refine ⟨hlower.overlay hupper, fun name => ?_⟩
          -- a part that covers another one has the names of both
          have hgoal : ((cover lower upper).get? name).isSome
              ↔ (lower.get? name).isSome ∨ (upper.get? name).isSome := by
            unfold cover
            cases hnew : upper.get? name with
            | none =>
                rw [get?_overlay_of_absent hlower hupper hnew]
                simp
            | some new =>
                cases hold : lower.get? name with
                | none =>
                    rw [get?_overlay_of_new hlower hupper hold hnew]
                    simp
                | some old =>
                    rw [get?_overlay hlower hupper hold hnew]
                    simp
          rw [hgoal, hnames name]
          simp [or_and_right, exists_or]

/-! ## Shapes -/

mutual

/-- The names of a part at every level, without what stands at them in the end. -/
def shape : Node → Node
  | .map fields => .map (shapeFields fields)
  | _ => .leaf .null

/-- The shapes of fields. -/
def shapeFields : List (String × Node) → List (String × Node)
  | [] => []
  | (name, part) :: rest => (name, shape part) :: shapeFields rest

end

mutual

/-- The names of every mapping in the part are distinct. -/
def Distinct : Node → Prop
  | .map fields => (Fields.names fields).Nodup ∧ DistinctFields fields
  | _ => True

/-- The parts of some fields have distinct names. -/
def DistinctFields : List (String × Node) → Prop
  | [] => True
  | (_, part) :: rest => Distinct part ∧ DistinctFields rest

end

/-- Fields that were put already stay in front of those that are still to come. -/
theorem put_append {done rest : Fields Node} {name : String} {old new : Node}
    (h : name ∉ done.names) :
    Fields.put name new (done ++ (name, old) :: rest) = (done ++ [(name, new)]) ++ rest := by
  induction done with
  | nil => simp [Fields.put]
  | cons entry done ih =>
      rcases entry with ⟨n, part⟩
      have hne : n ≠ name := fun heq => h (heq ▸ List.mem_cons_self)
      have hrest : name ∉ Fields.names done := fun hmem => h (List.mem_cons_of_mem _ hmem)
      rw [List.cons_append, Fields.put, if_neg hne, ih hrest]
      rfl

theorem get?_append_of_not_mem {done rest : Fields Node} {name : String} {old : Node}
    (h : name ∉ done.names) :
    Fields.get? name (done ++ (name, old) :: rest) = some old := by
  induction done with
  | nil => simp [Fields.get?]
  | cons entry done ih =>
      rcases entry with ⟨n, part⟩
      have hne : n ≠ name := fun heq => h (heq ▸ List.mem_cons_self)
      have hrest : name ∉ Fields.names done := fun hmem => h (List.mem_cons_of_mem _ hmem)
      rw [List.cons_append, Fields.get?, if_neg hne, ih hrest]

mutual

/-- **A part hides one of the same shape.** -/
theorem cover_of_shape : ∀ {lower upper : Node}, shape lower = shape upper → Distinct upper →
    cover lower upper = upper
  | lower, .leaf v, _, _ => by
      unfold cover overlay
      cases v with
      | scalar s => rfl
      | ref id =>
          -- no object counts as a mapping here, so the upper one is taken as it is
          dsimp only
          split
          · simp
          · rfl
  | lower, .list items, _, _ => by
      unfold cover overlay
      rfl
  | lower, .map source, hs, hd => by
      cases lower with
      | leaf v => simp [shape] at hs
      | list items => simp [shape] at hs
      | map target =>
          simp only [shape, Node.map.injEq] at hs
          unfold cover
          rw [overlay, ← List.nil_append target]
          exact congrArg Node.map (overlayFields_of_shape hs hd.1 hd.2 (by simp [Fields.names]))

theorem overlayFields_of_shape : ∀ {done target : Fields Node} {source : List (String × Node)},
    shapeFields target = shapeFields source → (Fields.names source).Nodup →
      DistinctFields source → (∀ name ∈ Fields.names source, name ∉ done.names) →
        overlayFields (fun _ => false) (done ++ target) source = done ++ source
  | done, target, [], hs, _, _, _ => by
      cases target with
      | nil => rw [overlayFields]
      | cons entry rest => simp [shapeFields] at hs
  | done, target, (name, part) :: source, hs, hn, hd, hdone => by
      cases target with
      | nil => simp [shapeFields] at hs
      | cons entry target =>
          rcases entry with ⟨n, old⟩
          simp only [shapeFields, List.cons.injEq, Prod.mk.injEq] at hs
          obtain ⟨⟨rfl, hpart⟩, hrest⟩ := hs
          obtain ⟨hnew, hnodup⟩ := List.nodup_cons.mp hn
          have hfree : n ∉ done.names := hdone n List.mem_cons_self
          -- the first field hides the one below it, and joins the fields that are done
          have hhides : overlay (fun _ => false) old part = part := cover_of_shape hpart hd.1
          rw [overlayFields, get?_append_of_not_mem hfree]
          dsimp only
          rw [hhides, put_append hfree,
            overlayFields_of_shape hrest hnodup hd.2, List.append_assoc, List.singleton_append]
          intro other hother hmem
          rw [Fields.names, List.map_append, List.mem_append] at hmem
          rcases hmem with hmem | hmem
          · exact hdone other (List.mem_cons_of_mem _ hother) hmem
          · simp only [List.map_cons, List.map_nil, List.mem_singleton] at hmem
            rw [hmem] at hother
            exact hnew hother

end

end Node

/-! ## Documents -/

/-- What the path items of a resource show at a place. -/
def PathItem.shownAt (options : Options) (backend : Backend) (names : List String)
    (r : Resource) : Option Node :=
  (PathItem.items r options (some backend)).toOption.bind fun items => Node.at? names (.map items)

theorem PathItem.shownAt_eq {options : Options} {backend : Backend} {r : Resource}
    {items : Fields Node} (h : PathItem.items r options (some backend) = .ok items)
    (names : List String) :
    PathItem.shownAt options backend names r = Node.at? names (.map items) := by
  unfold PathItem.shownAt
  rw [h]
  rfl

namespace Document

/-- Every resource that was added has path items. -/
theorem items_of_assembles {options : Options} {backend : Backend}
    {generator : Option (Generator σ)} {models : List (Value × Value)} {d d' : Document}
    {w w' : World σ} {rs : List Resource}
    (h : Assembles options backend generator models d w rs d' w') :
    ∀ r ∈ rs, ∃ items, PathItem.items r options (some backend) = .ok items := by
  induction h with
  | done => simp
  | next _ hadd _ ih =>
      intro r hr
      obtain ⟨_, items, _, _, hitems, _⟩ := addResource_cases hadd
      rcases List.mem_cons.mp hr with heq | hr
      · rw [heq]
        exact ⟨items, hitems⟩
      · exact ih r hr

/-- The names lead through records in the path items of every resource. -/
def RecordsAt (options : Options) (backend : Backend) (names : List String) (r : Resource) : Prop :=
  ∀ items, PathItem.items r options (some backend) = .ok items →
    Node.RecordsAlong names (.map items)

/-- One layer more: what a resource shows at a place lies over what is there. -/
theorem at?_addResource {d d' : Document} {r : Resource} {options : Options} {backend : Backend}
    {generator : Option (Generator σ)} {w w' : World σ} {names : List String}
    (hd : Node.RecordsAlong names (.map d.paths)) (hr : RecordsAt options backend names r)
    (h : Returns (addResource d r options backend generator) w d' w') :
    Node.RecordsAlong names (.map d'.paths) ∧ Node.at? names (.map d'.paths)
      = Option.merge Node.cover (Node.at? names (.map d.paths))
          (PathItem.shownAt options backend names r) := by
  obtain ⟨_, items, _, _, hitems, rfl, _⟩ := addResource_cases h
  have hmerged : Node.map (Node.overlayFields w.store.isMapping d.paths items)
      = Node.overlay w.store.isMapping (.map d.paths) (.map items) := by
    rw [Node.overlay]
  dsimp only
  rw [hmerged, PathItem.shownAt_eq hitems]
  exact ⟨hd.overlay (hr items hitems),
    Node.at?_overlay (PathItem.items_plain hitems) hd (hr items hitems)⟩

theorem at?_of_assembles {options : Options} {backend : Backend}
    {generator : Option (Generator σ)} {models : List (Value × Value)} {d d' : Document}
    {w w' : World σ} {rs : List Resource} {names : List String}
    (hd : Node.RecordsAlong names (.map d.paths))
    (hrs : ∀ r ∈ rs, RecordsAt options backend names r)
    (h : Assembles options backend generator models d w rs d' w') :
    Node.at? names (.map d'.paths)
      = (rs.filterMap (PathItem.shownAt options backend names)).foldl
          (fun lower part => Option.merge Node.cover lower (some part))
          (Node.at? names (.map d.paths)) := by
  induction h with
  | done => rfl
  | @next _ _ _ d _ _ _ _ _ r _ _ hadd _ ih =>
      obtain ⟨hd₁, hat⟩ := at?_addResource hd (hrs _ List.mem_cons_self) hadd
      have hrest := ih hd₁ fun r hr => hrs r (List.mem_cons_of_mem _ hr)
      rw [hrest, hat, List.filterMap_cons]
      cases PathItem.shownAt options backend names r with
      | none => rw [Option.merge_none_right]
      | some part => rfl

section

variable {options : Options} {backend : Backend} {generator : Option (Generator σ)}
  {models : List (Value × Value)} {baseline : Entries} {d : Document} {w w' : World σ}
  {rs : List Resource} {path : String} {names : List String}
  (hrs : ∀ r ∈ rs, RecordsAt options backend (path :: names) r)
  (h : Assembles options backend generator models { baseline } w rs d w')

include hrs h

/-- **What a document shows under its paths** comes of what its resources show there, laid over each
other in the order of their declaration. -/
theorem at?_paths : Node.at? (path :: names) (.map d.paths)
    = Node.layers (rs.filterMap (PathItem.shownAt options backend (path :: names))) := by
  refine at?_of_assembles ?_ hrs h
  exact ⟨by simp [Node.IsRecord, Fields.names], fun x hx => by simp [Node.get?, Fields.get?] at hx⟩

/-- A document shows something at a place exactly if one of its resources does. -/
theorem isSome_at?_paths : (Node.at? (path :: names) (.map d.paths)).isSome ↔
    ∃ r ∈ rs, (PathItem.shownAt options backend (path :: names) r).isSome := by
  rw [at?_paths hrs h, Option.isSome_iff_ne_none, ne_eq, Node.layers_eq_none_iff,
    List.filterMap_eq_nil_iff]
  simp [Option.isSome_iff_ne_none]

/-- **The last one is seen** where what one resource shows hides what another one does. -/
theorem last_shown (hhides : ∀ r ∈ rs, ∀ r' ∈ rs, ∀ lower upper,
      PathItem.shownAt options backend (path :: names) r = some lower →
      PathItem.shownAt options backend (path :: names) r' = some upper →
        Node.cover lower upper = upper) {part : Node}
    (hpart : Node.at? (path :: names) (.map d.paths) = some part) :
    ∃ before r after, rs = before ++ r :: after ∧
      PathItem.shownAt options backend (path :: names) r = some part ∧
      ∀ r' ∈ after, PathItem.shownAt options backend (path :: names) r' = none := by
  rw [at?_paths hrs h, Node.layers_eq_getLast?] at hpart
  · exact Node.getLast?_filterMap_cases hpart
  · intro lower hlower upper hupper
    obtain ⟨r, hr, hshown⟩ := List.mem_filterMap.mp hlower
    obtain ⟨r', hr', hshown'⟩ := List.mem_filterMap.mp hupper
    exact hhides r hr r' hr' lower upper hshown hshown'

end

end Document
end ApiManifest
