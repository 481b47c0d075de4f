import ApiManifest.Proofs.Grafting
import ApiManifest.Proofs.MergeLaws

/-!
# What a merge in place makes of trees

A merge in place goes through objects, a merge of trees through values. If the two mappings stand
apart, the object of the target has after the one the tree that the other gives: an entry that is
put into the target, or two mappings that are merged below it, leave the trees of all other entries
as they are.
-/

namespace ApiManifest.Store

variable {st st' : Store} {ids : List Nat} {key value : Value} {es : List (Value × Value)}
  {target source d : Nat} {inner : Nat → Nat → Work Unit} {t s : Entries}

/-! ## Trees of entries -/

/-- The trees of the keys and values of a mapping. -/
def entryTrees (st : Store) (es : List (Value × Value)) : Entries :=
  es.map fun e => (st.tree e.1, st.tree e.2)

/-- Parts of less depth stand in an object. -/
theorem Shallow.part {id : Nat} {cell : Cell} {part : Value} (h : st.Shallow (.ref id) d)
    (hcell : st.cells[id]? = some cell) (hpart : part ∈ cell.parts) :
    ∃ below, d = below + 1 ∧ st.Shallow part below := by
  obtain ⟨step, hstep⟩ := Cell.mem_parts_iff.mp hpart
  have hat : st.at? (.ref id) [step] = some part := at?_single.mpr ⟨cell, hcell, hstep⟩
  have hpos : 1 ≤ d := h [step] part hat
  refine ⟨d - 1, by omega, fun p x hp => ?_⟩
  have hlength := h (step :: p) x ((at?_append_of hat p).trans hp)
  rw [List.length_cons] at hlength
  omega

/-- The tree of an object down to a depth is made of those of its parts. -/
theorem treeTo_succ_congr {id n m : Nat} {cell : Cell} (hcell : st.cells[id]? = some cell)
    (h : ∀ part ∈ cell.parts, st.treeTo n part = st.treeTo m part) :
    st.treeTo (n + 1) (.ref id) = st.treeTo (m + 1) (.ref id) := by
  rw [treeTo, treeTo, hcell]
  cases cell with
  | date d => rfl
  | dateTime t => rfl
  | list items => exact congrArg Tree.list (List.map_congr_left h)
  | tuple items => exact congrArg Tree.tuple (List.map_congr_left h)
  | set items => exact congrArg Tree.set (List.map_congr_left h)
  | map es =>
      refine congrArg Tree.map (List.map_congr_left fun e he => Prod.ext ?_ ?_)
      · exact h _ (List.mem_flatMap.mpr ⟨e, he, by simp⟩)
      · exact h _ (List.mem_flatMap.mpr ⟨e, he, by simp⟩)

/-- Read deeper than it goes, a value always gives the same tree. -/
theorem Shallow.treeTo_eq {v : Value} {n m : Nat} (h : st.Shallow v d) (hn : d < n) (hm : d < m) :
    st.treeTo n v = st.treeTo m v := by
  induction n generalizing v m d with
  | zero => exact absurd hn (Nat.not_lt_zero d)
  | succ n ih =>
      cases v with
      | scalar s => rw [treeTo_scalar, treeTo_scalar]
      | ref id =>
          obtain ⟨m, rfl⟩ := Nat.exists_eq_succ_of_ne_zero (Nat.ne_zero_of_lt hm)
          cases hcell : st.cells[id]? with
          | none => rw [treeTo, treeTo, hcell]
          | some cell =>
              refine treeTo_succ_congr hcell fun part hpart => ?_
              obtain ⟨below, rfl, hbelow⟩ := h.part hcell hpart
              exact ih hbelow (by omega) (by omega)

/-- The tree of a mapping that shares nothing is made of those of its entries. -/
theorem tree_of_unshared (hu : st.Unshared (.ref target))
    (hes : st.entries? (.ref target) = some es) :
    st.tree (.ref target) = .map (st.entryTrees es) := by
  have hdeep : st.Shallow (.ref target) st.cells.size := fun p part hp => hu.length_le hp
  rw [tree, treeTo, entries?_ref.mp hes]
  refine congrArg Tree.map (List.map_congr_left fun e he => ?_)
  have hpart : ∀ part ∈ [e.1, e.2], st.treeTo st.cells.size part = st.tree part := by
    intro part hpart
    obtain ⟨below, hsize, hbelow⟩ := hdeep.part (entries?_ref.mp hes)
      (List.mem_flatMap.mpr ⟨e, he, hpart⟩)
    exact hbelow.treeTo_eq (by omega) (by omega)
  rw [Prod.mk.injEq]
  exact ⟨hpart _ (by simp), hpart _ (by simp)⟩

/-- What has the tree of a mapping is one. -/
theorem entries?_of_tree (h : st.tree (.ref target) = .map t) :
    ∃ es, st.entries? (.ref target) = some es := by
  rw [tree, treeTo] at h
  cases hcell : st.cells[target]? with
  | none => rw [hcell] at h; cases h
  | some cell =>
      rw [hcell] at h
      cases cell with
      | map es => exact ⟨es, entries?_ref.mpr hcell⟩
      | _ => cases h

/-- Whether an object is a mapping shows in its tree. -/
theorem isMap_tree (st : Store) (id : Nat) : (st.tree (.ref id)).isMap = st.isMapping id := by
  unfold isMapping entries?
  rw [tree, treeTo, cell?_ref]
  cases hcell : st.cells[id]? with
  | none => rfl
  | some cell => cases cell <;> rfl

/-! ## Keys -/

/-- The value is a scalar, or an object of the store. -/
abbrev Present (st : Store) (v : Value) : Prop := v.In (· < st.cells.size)

/-- Only scalars have trees that are scalars. -/
theorem sameKey_tree_of_ref {id : Nat} (hid : id < st.cells.size) (s : Scalar) :
    (Tree.scalar s).sameKey (st.tree (.ref id)) = false ∧
      (st.tree (.ref id)).sameKey (.scalar s) = false := by
  rw [tree, treeTo, Array.getElem?_eq_getElem hid]
  cases st.cells[id] <;> exact ⟨rfl, rfl⟩

/-- **Keys are the same if their trees are,** given that they are sound. -/
theorem sameKey_eq_tree {a b : Value} (ha : st.Present a) (hb : st.Present b)
    (hsound : (st.tree a).isSoundKey = true) :
    st.sameKey a b = (st.tree a).sameKey (st.tree b) := by
  cases a with
  | scalar x =>
      cases b with
      | scalar y =>
          have hx : x ≠ .float .nan := by
            rintro rfl
            cases hsound
          -- two scalars are compared as trees unless both are no number, which a sound key is not
          unfold sameKey
          split
          · rename_i hx' _
            cases hx'
            exact absurd rfl hx
          · rename_i heq heq'
            cases heq
            cases heq'
            rfl
          · rename_i heq _
            cases heq
          · rename_i hno _
            exact absurd rfl (hno x y rfl)
      | ref j =>
          have hscalar : st.sameKey (.scalar x) (.ref j) = false := by
            unfold sameKey
            split <;> trivial
          rw [hscalar]
          exact (sameKey_tree_of_ref hb x).1.symm
  | ref i =>
      cases b with
      | scalar y => exact (sameKey_tree_of_ref ha y).2.symm
      | ref j =>
          rw [sameKey_ref]
          by_cases hij : i = j
          · rw [hij] at hsound ⊢
            rw [Tree.sameKey_self hsound, Bool.or_true]
          · rw [beq_eq_false_iff_ne.mpr hij, Bool.false_or]

/-- All keys and values of the entries are scalars, or objects of the store. -/
abbrev EntriesPresent (st : Store) (es : List (Value × Value)) : Prop :=
  EntriesIn (· < st.cells.size) es

theorem find?_entryTrees (hkey : st.Present key) (hes : st.EntriesPresent es)
    (hsound : (st.tree key).isSoundKey = true) :
    Entries.find? (st.tree key) (st.entryTrees es) = (st.find? key es).map st.tree := by
  induction es with
  | nil => rfl
  | cons e rest ih =>
      obtain ⟨hfirst, hrest⟩ := List.forall_mem_cons.mp hes
      have htrees : st.entryTrees (e :: rest) = (st.tree e.1, st.tree e.2) :: st.entryTrees rest :=
        rfl
      rw [htrees, Entries.find?, find?, sameKey_eq_tree hkey hfirst.1 hsound, ih hrest]
      split <;> rfl

theorem entryTrees_put (hkey : st.Present key) (hes : st.EntriesPresent es)
    (hsound : (st.tree key).isSoundKey = true) (value : Value) :
    st.entryTrees (st.put key value es)
      = Entries.put (st.tree key) (st.tree value) (st.entryTrees es) := by
  induction es with
  | nil => rfl
  | cons e rest ih =>
      obtain ⟨hfirst, hrest⟩ := List.forall_mem_cons.mp hes
      have htrees : st.entryTrees (e :: rest) = (st.tree e.1, st.tree e.2) :: st.entryTrees rest :=
        rfl
      rw [htrees, Entries.put, put, sameKey_eq_tree hkey hfirst.1 hsound, ← ih hrest]
      split <;> rfl

/-! ## Changes -/

/-- Objects that stand apart are different. -/
theorem Separate.nodup (h : st.Separate ids) : ids.Nodup := by
  refine h.detached.imp fun {a b} hdetached heq => ?_
  subst heq
  exact hdetached a ⟨[], rfl⟩ ⟨[], rfl⟩

theorem tree_of_kept {v : Value}
    (h : ∀ id ∈ v.objects, st'.tree (.ref id) = st.tree (.ref id)) : st'.tree v = st.tree v := by
  cases v with
  | scalar s => rw [tree, tree, treeTo_scalar, treeTo_scalar]
  | ref id => exact h id List.mem_cons_self

/-- Entries have the same trees if all objects in them have. -/
theorem entryTrees_of_kept
    (h : ∀ id ∈ (Cell.map es).objects, st'.tree (.ref id) = st.tree (.ref id)) :
    st'.entryTrees es = st.entryTrees es := by
  induction es with
  | nil => rfl
  | cons e rest ih =>
      rw [Cell.objects_map_cons] at h
      refine congrArg₂ List.cons (Prod.ext ?_ ?_) (ih fun id hid => ?_)
      · exact tree_of_kept fun id hid => h id (by simp [hid])
      · exact tree_of_kept fun id hid => h id (by simp [hid])
      · exact h id (by simp [hid])

/-- If one value of a mapping has another tree and all else in it the same, then the trees of the
entries are those with the tree of this value set. -/
theorem entryTrees_of_changed {old : Nat} (hfind : st.find? key es = some (.ref old))
    (hkey : st.Present key) (hes : st.EntriesPresent es) (hsound : (st.tree key).isSoundKey = true)
    (hnodup : (Cell.map es).objects.Nodup)
    (h : ∀ id ∈ (Cell.map es).objects, id ≠ old → st'.tree (.ref id) = st.tree (.ref id)) :
    st'.entryTrees es
      = Entries.put (st.tree key) (st'.tree (.ref old)) (st.entryTrees es) := by
  induction es with
  | nil => cases hfind
  | cons e rest ih =>
      rcases e with ⟨first, value⟩
      obtain ⟨hfirst, hrest⟩ := List.forall_mem_cons.mp hes
      rw [Cell.objects_map_cons] at h hnodup
      obtain ⟨-, hnodup', hfirstRest⟩ := List.nodup_append.mp hnodup
      obtain ⟨-, hnodup'', hvalueRest⟩ := List.nodup_append.mp hnodup'
      have htrees (st : Store) : st.entryTrees ((first, value) :: rest)
          = (st.tree first, st.tree value) :: st.entryTrees rest := rfl
      have hkeep (v : Value) (hv : v.objects ⊆ first.objects ++ (value.objects ++
          (Cell.map rest).objects)) (hold : old ∉ v.objects) : st'.tree v = st.tree v :=
        tree_of_kept fun id hid => h id (hv hid) fun heq => hold (heq ▸ hid)
      rw [htrees, htrees, Entries.put, ← sameKey_eq_tree hkey hfirst.1 hsound]
      rw [find?] at hfind
      split at hfind
      · -- the value that is found is the one that was changed, and stands nowhere else
        rename_i hsame
        cases hfind
        have hfirstKept := hkeep first (List.subset_append_left _ _)
          fun hmem => hfirstRest old hmem old (by simp) rfl
        rw [if_pos hsame, hfirstKept]
        refine congrArg _ (entryTrees_of_kept fun id hid => h id (by simp [hid]) ?_)
        rintro rfl
        exact hvalueRest id List.mem_cons_self id hid rfl
      · rename_i hdiff
        have hold : old ∈ (Cell.map rest).objects := by
          obtain ⟨k, hmem, _⟩ := find?_mem hfind
          exact Cell.mem_objects_iff.mpr (List.mem_flatMap.mpr ⟨_, hmem, by simp⟩)
        have hfirstKept := hkeep first (List.subset_append_left _ _)
          fun hmem => hfirstRest old hmem old (by simp [hold]) rfl
        have hvalueKept := hkeep value (fun id hid => by simp [hid])
          fun hmem => hvalueRest old hmem old hold rfl
        rw [if_neg hdiff, hfirstKept, hvalueKept,
          ih hfind hrest hnodup'' fun id hid => h id (by simp [hid])]

/-! ## One entry -/

/-- Merges of mappings that stand apart leave the target with the merged tree, if the source is not
deeper than that. -/
def GraftsTrees (inner : Nat → Nat → Work Unit) (d : Nat) : Prop :=
  ∀ (target source : Nat) (st st' : Store) (t s : Entries), st.Separate [target, source] →
    st.tree (.ref target) = .map t → st.tree (.ref source) = .map s → t.Keyed → s.Keyed →
    st.Shallow (.ref source) d → Returns (inner target source) st () st' →
    st'.tree (.ref target) = .map (Tree.mergeEntries t s)

theorem Separate.presentValue {v : Value} (hsep : st.Separate ids) (h : v.objects ⊆ ids) :
    st.Present v := (in_reached h).mono fun id hid => hsep.present id hid

theorem Separate.entriesPresent (hsep : st.Separate (target :: ids))
    (hes : st.entries? (.ref target) = some es) : st.EntriesPresent es := by
  obtain ⟨hparts, -⟩ := (separate_cons_iff (entries?_ref.mp hes)).mp hsep
  intro e he
  have hpart (part : Value) (hpart : part ∈ [e.1, e.2]) : st.Present part :=
    hparts.presentValue fun id hid => List.mem_append_left _
      (List.mem_flatMap.mpr ⟨part, List.mem_flatMap.mpr ⟨e, he, hpart⟩, hid⟩)
  exact ⟨hpart _ (by simp), hpart _ (by simp)⟩

/-- Putting an entry puts it in the tree. -/
theorem tree_put (hes : st.entries? (.ref target) = some es)
    (hsep : st.Separate (target :: (key.objects ++ value.objects)))
    (hsound : (st.tree key).isSoundKey = true) :
    (st.update target (.map (st.put key value es))).tree (.ref target)
      = .map (Entries.put (st.tree key) (st.tree value) (st.entryTrees es)) := by
  obtain ⟨-, hagree⟩ := agree_update_put hes hsep
  have hlt := (Array.getElem?_eq_some_iff.mp (entries?_ref.mp hes)).1
  have hes' : (st.update target (.map (st.put key value es))).entries? (.ref target)
      = some (st.put key value es) := by
    rw [entries?_ref, cells_update, if_pos rfl, if_pos hlt]
  have hkey : st.Present key := hsep.presentValue fun id hid => by simp [hid]
  rw [tree_of_unshared (unshared_put hes hsep) hes',
    ← entryTrees_put hkey (hsep.entriesPresent hes) hsound]
  refine congrArg Tree.map (entryTrees_of_kept fun id hid => ?_)
  exact hagree.tree (closed_reached st _) (ref_in_reached hid)

/-- Another object in a mapping has nothing in common with two that are merged. -/
theorem apart_of_value {old new other : Nat} (hes : st.entries? (.ref target) = some es)
    (hold : old ∈ (Cell.map es).objects) (hother : other ∈ (Cell.map es).objects)
    (hne : other ≠ old) (hsep : st.Separate (target :: (ids ++ [new]))) :
    ∀ id, st.Reached [old, new] id → ¬ st.Reached [other] id := by
  obtain ⟨hparts, -⟩ := (separate_cons_iff (entries?_ref.mp hes)).mp hsep
  have hsub : ([old, new] ++ [other]).Subperm ((Cell.map es).objects ++ (ids ++ [new])) := by
    rw [List.subperm_iff_count]
    intro id
    have hcount := (List.perm_cons_erase hold).count_eq id
    have hcount' := (List.perm_cons_erase ((List.mem_erase_of_ne hne).mpr hother)).count_eq id
    simp only [List.count_append, List.count_cons, List.count_nil] at hcount hcount' ⊢
    omega
  exact (separate_append_iff.mp (hparts.subperm hsub)).2.2

/-- Merging two mappings of which one stands in a third mapping sets the merged tree there. -/
theorem tree_of_inner {old new : Nat} (hes : st.entries? (.ref target) = some es)
    (hfind : st.find? key es = some (.ref old)) (hsound : (st.tree key).isSoundKey = true)
    (hsep : st.Separate (target :: (key.objects ++ [new])))
    (hw : Writes (st.Reached [old, new]) st st') (hu : st'.Unshared (.ref target)) :
    st'.tree (.ref target)
      = .map (Entries.put (st.tree key) (st'.tree (.ref old)) (st.entryTrees es)) := by
  have hcell := entries?_ref.mp hes
  obtain ⟨hparts, hself⟩ := (separate_cons_iff hcell).mp hsep
  obtain ⟨k, hmem, _⟩ := find?_mem hfind
  have hold : old ∈ (Cell.map es).objects :=
    Cell.mem_objects_iff.mpr (List.mem_flatMap.mpr ⟨_, hmem, by simp⟩)
  have hsub : [old, new] ⊆ (Cell.map es).objects ++ (key.objects ++ [new]) := by
    simp [hold]
  have hes' : st'.entries? (.ref target) = some es :=
    entries?_ref.mpr ((hw.frame target fun h => hself (h.mono hsub)).trans hcell)
  have hkey : st.Present key := hsep.presentValue fun id hid => by simp [hid]
  rw [tree_of_unshared hu hes']
  refine congrArg Tree.map (entryTrees_of_changed hfind hkey (hsep.entriesPresent hes) hsound
    (separate_append_iff.mp hparts).1.nodup fun id hid hne => ?_)
  have hagree : Agree (st.Reached [id]) st st' := hw.agree fun other hr hr' =>
    apart_of_value hes hold hid hne hsep other hr' hr
  exact hagree.tree (closed_reached st _) (ref_in_reached List.mem_cons_self)

/-- **An entry that is merged in place is merged in the tree.** -/
theorem mergeEntry_tree (hinner : GraftsTrees inner d) (hwithin : ∀ S, MergesWithin S inner)
    (hsep : st.Separate (target :: (key.objects ++ value.objects)))
    (ht : st.tree (.ref target) = .map t) (hkt : t.Keyed) (hsound : (st.tree key).isSoundKey = true)
    (hvalue : (st.tree value).isKeyed = true) (hd : st.Shallow value d)
    (hreturns : Returns (mergeEntry inner target key value) st () st')
    (hu : st'.Unshared (.ref target)) :
    st'.tree (.ref target) = .map (Entries.put (st.tree key)
      (Tree.mergeAt (Entries.find? (st.tree key) t) (st.tree value)) t) := by
  obtain ⟨es, hes⟩ := entries?_of_tree ht
  have htrees := tree_of_unshared (hsep.unshared _ List.mem_cons_self) hes
  obtain rfl : st.entryTrees es = t := Tree.map.inj (htrees.symm.trans ht)
  have hkey : st.Present key := hsep.presentValue fun id hid => by simp [hid]
  have hlookup := find?_entryTrees hkey (hsep.entriesPresent hes) hsound
  rcases outcome_mergeEntry_cases inner key value hes with
    ⟨old, new, hfind, rfl, hold, hnew, houtcome⟩ | ⟨hclash, houtcome⟩
  · obtain ⟨t', ht'⟩ := Tree.isMap_iff.mp ((isMap_tree st old).trans hold)
    obtain ⟨s', hs'⟩ := Tree.isMap_iff.mp ((isMap_tree st new).trans hnew)
    obtain ⟨k, hmem, _⟩ := find?_mem hfind
    have hpair : st.Separate [old, new] := separate_pair hes hmem hsep
    have hmerge : Returns (inner old new) st () st' := houtcome.symm.trans hreturns
    have hw := writes_of_returns (hwithin (st.Reached [old, new])) (reached_of_mem (by simp))
      (reached_of_mem (by simp)) hold (closed_reached st _) hmerge
    rw [hfind, Option.map_some, ht'] at hlookup
    rw [hs'] at hvalue
    rw [hlookup, hs', Tree.mergeAt, Tree.merge_map, tree_of_inner hes hfind hsound hsep hw hu,
      hinner old new st st' t' s' hpair ht' hs' (Entries.keyed_of_find? hkt hlookup)
        (Entries.isKeyed_map_iff.mp hvalue) hd hmerge]
  · -- unless two mappings meet, the value takes its place
    have hmerged :
        Tree.mergeAt ((st.find? key es).map st.tree) (st.tree value) = st.tree value := by
      cases hfind : st.find? key es with
      | none => rfl
      | some existing =>
          cases existing with
          | scalar x => exact Tree.merge_eq_source (.inl rfl)
          | ref old =>
              cases value with
              | scalar x => exact Tree.merge_eq_source (.inr rfl)
              | ref new =>
                  refine Tree.merge_eq_source ?_
                  rw [isMap_tree, isMap_tree]
                  exact hclash old new hfind rfl
    cases houtcome.symm.trans hreturns
    rw [hlookup, hmerged]
    exact tree_put hes hsep hsound

/-! ## All entries -/

/-- The entries of the source can be merged from an index on, the target is of the tree `t`, and the
keys on both sides are sound and different. -/
structure MergeableTrees (st : Store) (target source : Nat) (es : List (Value × Value))
    (index d : Nat) (t : Entries) : Prop extends st.Mergeable target source es index d where
  tree : st.tree (.ref target) = .map t
  keyed : t.Keyed
  keyedRest : (st.entryTrees (es.drop index)).Keyed

theorem entryTrees_drop {index : Nat} (st : Store) (hentry : es[index]? = some (key, value)) :
    st.entryTrees (es.drop index)
      = (st.tree key, st.tree value) :: st.entryTrees (es.drop (index + 1)) := by
  rw [drop_entry hentry]
  rfl

/-- **One entry is merged in the tree,** and the others are as they were. -/
theorem MergeableTrees.step {index : Nat} (hgrafts : Grafts inner d)
    (hinner : GraftsTrees inner d) (hwithin : ∀ S, MergesWithin S inner)
    (h : st.MergeableTrees target source es index d t) (hentry : es[index]? = some (key, value)) :
    ∃ st', Returns (mergeEntry inner target key value) st () st' ∧
      st'.MergeableTrees target source es (index + 1) d (Entries.put (st.tree key)
        (Tree.mergeAt (Entries.find? (st.tree key) t) (st.tree value)) t) ∧
      Agree (st.Reached (Cell.map (es.drop (index + 1))).objects) st st' := by
  have hks := h.keyedRest
  rw [entryTrees_drop st hentry] at hks
  obtain ⟨hsound, _, hvalue, hrest⟩ := Entries.Keyed.cons_iff.mp hks
  obtain ⟨hsep, hdeep⟩ := h.entry hentry
  obtain ⟨st', hreturns, h', hu, hagree⟩ := h.toMergeable.step hgrafts hwithin hentry
  refine ⟨st', hreturns, ⟨h', ?_, h.keyed.put hsound (Tree.isKeyed_mergeAt h.keyed hvalue), ?_⟩,
    hagree⟩
  · exact mergeEntry_tree hinner hwithin hsep h.tree h.keyed hsound hvalue hdeep hreturns hu
  · rwa [entryTrees_of_kept fun id hid =>
      hagree.tree (closed_reached st _) (ref_in_reached hid)]

/-- What is left to do after the first entry. -/
theorem mergeEntries_tail {left index : Nat} {st₁ : Store}
    (hes : st.entries? (.ref source) = some es) (hentry : es[index]? = some (key, value))
    (hfirst : Returns (mergeEntry inner target key value) st () st₁)
    (h : Returns (mergeEntries inner target source es.length (left + 1) index) st () st') :
    Returns (mergeEntries inner target source es.length left (index + 1)) st₁ () st' := by
  unfold Returns at h
  rw [outcome_mergeEntries_succ, hes, Option.getD_some, if_pos rfl, hentry] at h
  obtain ⟨_, st₂, hfirst', hmore⟩ := Returns.bind_iff.mp h
  cases hfirst.symm.trans hfirst'
  exact hmore

/-- **Entries that are merged in place one after the other are merged in the tree.** -/
theorem mergeEntries_tree (hgrafts : Grafts inner d) (hinner : GraftsTrees inner d)
    (hwithin : ∀ S, MergesWithin S inner) (left index : Nat)
    (h : st.MergeableTrees target source es index d t) (hleft : index + left = es.length)
    (hreturns : Returns (mergeEntries inner target source es.length left index) st () st') :
    st'.tree (.ref target) = .map (Tree.mergeEntries t (st.entryTrees (es.drop index))) := by
  induction left generalizing index st t with
  | zero =>
      unfold Returns at hreturns
      rw [outcome_mergeEntries_zero, h.entries, Option.getD_some, if_pos rfl] at hreturns
      cases hreturns
      have hnone : es.drop index = [] := List.drop_eq_nil_of_le (by omega)
      rw [hnone, h.tree]
      rfl
  | succ left ih =>
      obtain ⟨⟨key, value⟩, hentry⟩ : ∃ entry, es[index]? = some entry :=
        ⟨_, List.getElem?_eq_getElem (by omega)⟩
      obtain ⟨st₁, hfirst, h₁, hagree⟩ := h.step hgrafts hinner hwithin hentry
      have hlater : st₁.entryTrees (es.drop (index + 1)) = st.entryTrees (es.drop (index + 1)) :=
        entryTrees_of_kept fun id hid => hagree.tree (closed_reached st _) (ref_in_reached hid)
      rw [entryTrees_drop st hentry, Tree.mergeEntries_cons, ← hlater]
      exact ih (index + 1) h₁ (by omega) (mergeEntries_tail h.entries hentry hfirst hreturns)

/-- Two mappings that stand apart can be merged, and so can their trees. -/
theorem mergeableTrees_of_separate (hsep : st.Separate [target, source])
    (ht : st.tree (.ref target) = .map t) (hs : st.tree (.ref source) = .map s) (hkt : t.Keyed)
    (hks : s.Keyed) (hd : st.Shallow (.ref source) (d + 1)) :
    ∃ es, st.MergeableTrees target source es 0 d t ∧ st.entryTrees es = s := by
  obtain ⟨es, hes⟩ := entries?_of_tree hs
  have hm : st.isMapping target = true := by rw [← isMap_tree, ht]; rfl
  have htrees := tree_of_unshared (hsep.unshared source (by simp)) hes
  obtain rfl : st.entryTrees es = s := Tree.map.inj (htrees.symm.trans hs)
  exact ⟨es, ⟨mergeable_of_separate hsep hm hes hd, ht, hkt, hks⟩, rfl⟩

theorem GraftsTrees.mergeTo_succ {depth : Nat} (hgrafts : Grafts (mergeTo depth) d)
    (h : GraftsTrees (mergeTo depth) d) : GraftsTrees (mergeTo (depth + 1)) (d + 1) := by
  intro target source st st' t s hsep ht hs hkt hks hd hreturns
  obtain ⟨es, hmergeable, rfl⟩ := mergeableTrees_of_separate hsep ht hs hkt hks hd
  unfold Returns at hreturns
  rw [outcome_mergeTo_succ, hmergeable.entries, Option.getD_some] at hreturns
  exact mergeEntries_tree hgrafts h (fun S => mergeTo_within S depth) es.length 0 hmergeable
    (Nat.zero_add _) hreturns

/-- A mapping without any level below it is empty. -/
theorem graftsTrees_mergeTo_one : GraftsTrees (mergeTo 1) 0 := by
  intro target source st st' t s hsep ht hs _ _ hd hreturns
  obtain ⟨es, hes⟩ := entries?_of_tree hs
  have htrees := tree_of_unshared (hsep.unshared source (by simp)) hes
  obtain ⟨rfl, houtcome⟩ := outcome_mergeTo_one hes hd
  cases htrees.symm.trans hs
  cases houtcome.symm.trans hreturns
  exact ht

theorem graftsTrees_mergeTo (d : Nat) : GraftsTrees (mergeTo (d + 1)) d := by
  induction d with
  | zero => exact graftsTrees_mergeTo_one
  | succ d ih => exact ih.mergeTo_succ (grafts_mergeTo d)

/-- **A merge in place makes of the target's tree what a merge of trees does,** if the two mappings
stand apart. What both stood apart from is left as it is. -/
theorem merge_tree (hsep : st.Separate (target :: source :: ids))
    (ht : st.tree (.ref target) = .map t) (hs : st.tree (.ref source) = .map s) (hkt : t.Keyed)
    (hks : s.Keyed) :
    ∃ st', Returns (merge target source) st () st' ∧ st'.Separate (target :: ids) ∧
      Agree (st.Reached ids) st st' ∧
      st'.tree (.ref target) = .map (Tree.mergeEntries t s) := by
  have hm : st.isMapping target = true := by rw [← isMap_tree, ht]; rfl
  have hmsource : st.isMapping source = true := by rw [← isMap_tree, hs]; rfl
  have happend : st.Separate ([target, source] ++ ids) := hsep
  have hpair := (separate_append_iff.mp happend).1
  obtain ⟨st', hreturns, hsep', hagree, -⟩ := merge_returns hsep hm hmsource
  have hdeep : st.Shallow (.ref source) st.cells.size := fun p part hp =>
    (hpair.unshared source (by simp)).length_le hp
  refine ⟨st', hreturns, hsep', hagree, ?_⟩
  exact graftsTrees_mergeTo st.cells.size target source st st' t s hpair ht hs hkt hks hdeep
    ((outcome_merge target source st).symm.trans hreturns)

end ApiManifest.Store
