import Mathlib.Data.List.Count
import ApiManifest.Proofs.Overlay
import ApiManifest.Proofs.Separation

/-!
# Merging objects that stand apart

A merge in place can fail in two ways: the source may grow while its entries are gone through, and
the mappings may lead back to themselves. Neither can happen if the two mappings stand apart: what
is put into the target never stands in the source itself, and no way down is longer than the store.
So the merge returns. It moves parts of the source to the target, and since the source is given up
the target still shares nothing.
-/

namespace ApiManifest

theorem Cell.objects_map_cons (key value : Value) (es : List (Value × Value)) :
    (Cell.map ((key, value) :: es)).objects
      = key.objects ++ (value.objects ++ (Cell.map es).objects) := by
  simp [objects, parts]

namespace Store

variable {st st' : Store} {ids : List Nat} {key value : Value} {es : List (Value × Value)}
  {target source index d : Nat} {inner : Nat → Nat → Work Unit}

/-- Putting an entry adds no other object than its key and its value. -/
theorem objects_put (st : Store) (key value : Value) (es : List (Value × Value)) :
    (Cell.map (st.put key value es)).objects.Subperm
      ((Cell.map es).objects ++ (key.objects ++ value.objects)) := by
  rw [List.subperm_iff_count]
  intro id
  induction es with
  | nil =>
      rw [put, Cell.objects_map_cons]
      simp only [List.count_append]
      omega
  | cons entry rest ih =>
      rcases entry with ⟨k, v⟩
      rw [put]
      split
      · simp only [Cell.objects_map_cons, List.count_append]
        omega
      · simp only [Cell.objects_map_cons, List.count_append] at ih ⊢
        omega

theorem in_reached {v : Value} (h : v.objects ⊆ ids) : v.In (st.Reached ids) := by
  cases v with
  | scalar s => trivial
  | ref id => exact ref_in_reached (h List.mem_cons_self)

/-- No way down from the value is longer. -/
def Shallow (st : Store) (v : Value) (d : Nat) : Prop :=
  ∀ p part, st.at? v p = some part → p.length ≤ d

theorem Shallow.of_agree {S : Nat → Prop} {v : Value} (h : st.Shallow v d) (ha : Agree S st st')
    (hc : st.Closed S) (hv : v.In S) : st'.Shallow v d := by
  intro p part hp
  rw [ha.at? hc hv] at hp
  exact h p part hp

/-- The values of a mapping are less deep than the mapping. -/
theorem Shallow.valueOf {v : Value} (h : st.Shallow v (d + 1)) (hes : st.entries? v = some es) :
    ∀ entry ∈ es, st.Shallow entry.2 d := by
  intro entry hentry p part hp
  obtain ⟨n, hn⟩ := List.mem_iff_getElem?.mp hentry
  have hat : st.at? v [.value n] = some entry.2 := by rw [at?_value hes, hn]; rfl
  have hlength := h (.value n :: p) part ((at?_append_of hat p).trans hp)
  simpa using hlength

/-! ## One entry -/

/-- Merges of mappings that stand apart return and leave a target that shares nothing, if the
source is not deeper than that. -/
def Grafts (inner : Nat → Nat → Work Unit) (d : Nat) : Prop :=
  ∀ target source st, st.Separate [target, source] → st.isMapping target = true →
    st.isMapping source = true → st.Shallow (.ref source) d →
    ∃ st', Returns (inner target source) st () st' ∧ st'.Unshared (.ref target)

/-- Merging an entry merges two mappings, or it puts the entry. -/
theorem outcome_mergeEntry_cases (inner : Nat → Nat → Work Unit) (key value : Value)
    (hes : st.entries? (.ref target) = some es) :
    (∃ old new, st.find? key es = some (.ref old) ∧ value = .ref new ∧ st.isMapping old = true ∧
        st.isMapping new = true ∧
        outcome (mergeEntry inner target key value) st = outcome (inner old new) st) ∨
      (∀ old new, st.find? key es = some (.ref old) → value = .ref new →
          st.isMapping old = false ∨ st.isMapping new = false) ∧
        outcome (mergeEntry inner target key value) st
          = (.ok (), st.update target (.map (st.put key value es))) := by
  rw [outcome_mergeEntry, hes, Option.getD_some]
  -- the two merge only if the old value and the new one are both objects, and mappings
  cases hfound : st.find? key es with
  | none => exact Or.inr ⟨nofun, rfl⟩
  | some existing =>
      cases existing with
      | scalar s => exact Or.inr ⟨nofun, rfl⟩
      | ref old =>
          cases value with
          | scalar s => exact Or.inr ⟨nofun, rfl⟩
          | ref new =>
              dsimp only
              split
              · rename_i hboth
                obtain ⟨hold, hnew⟩ := Bool.and_eq_true_iff.mp hboth
                exact Or.inl ⟨old, new, rfl, rfl, hold, hnew, rfl⟩
              · rename_i hnot
                rw [Bool.and_eq_true, not_and_or, Bool.not_eq_true, Bool.not_eq_true] at hnot
                refine Or.inr ⟨?_, rfl⟩
                rintro _ _ ⟨rfl⟩ ⟨rfl⟩
                exact hnot

/-- Putting an entry that stands apart changes the target, and the target does not stand in its new
parts. -/
theorem agree_update_put (hes : st.entries? (.ref target) = some es)
    (hsep : st.Separate (target :: (key.objects ++ value.objects))) :
    ¬ st.Reached (Cell.map (st.put key value es)).objects target ∧
      Agree (st.Reached (Cell.map (st.put key value es)).objects) st
        (st.update target (.map (st.put key value es))) := by
  obtain ⟨-, hself⟩ := (separate_cons_iff (entries?_ref.mp hes)).mp hsep
  have hself' : ¬ st.Reached (Cell.map (st.put key value es)).objects target :=
    fun h => hself (h.mono (objects_put st key value es).subset)
  refine ⟨hself', by simp [update], fun id hid => ?_⟩
  rw [cells_update, if_neg]
  rintro rfl
  exact hself' hid

/-- Putting an entry that stands apart leaves a mapping that shares nothing. -/
theorem unshared_put (hes : st.entries? (.ref target) = some es)
    (hsep : st.Separate (target :: (key.objects ++ value.objects))) :
    (st.update target (.map (st.put key value es))).Unshared (.ref target) := by
  have hcell := entries?_ref.mp hes
  obtain ⟨hparts, -⟩ := (separate_cons_iff hcell).mp hsep
  obtain ⟨hself, hagree⟩ := agree_update_put hes hsep
  refine unshared_of_parts ?_ ((hparts.subperm (objects_put st key value es)).of_agree hagree)
    fun h => hself (hagree.reached_iff.mp h)
  rw [cells_update, if_pos rfl, if_pos (Array.getElem?_eq_some_iff.mp hcell).1]

/-- A value of a mapping stands apart from what the mapping stands apart from. -/
theorem separate_pair {old new : Nat} {k : Value} (hes : st.entries? (.ref target) = some es)
    (hold : (k, .ref old) ∈ es) (hsep : st.Separate (target :: (ids ++ [new]))) :
    st.Separate [old, new] := by
  obtain ⟨hparts, _⟩ := (separate_cons_iff (entries?_ref.mp hes)).mp hsep
  have hmem : old ∈ (Cell.map es).objects :=
    Cell.mem_objects_iff.mpr (List.mem_flatMap.mpr ⟨_, hold, by simp⟩)
  refine hparts.subperm ?_
  rw [List.subperm_iff_count]
  intro id
  have hcount := (List.perm_cons_erase hmem).count_eq id
  simp only [List.count_append, List.count_cons, List.count_nil] at hcount ⊢
  omega

/-- Merging two mappings of which one stands in a third mapping leaves that one sharing nothing. -/
theorem unshared_of_inner {old new : Nat} {k : Value} (hes : st.entries? (.ref target) = some es)
    (hold : (k, .ref old) ∈ es) (hsep : st.Separate (target :: (ids ++ [new])))
    (hw : Writes (st.Reached [old, new]) st st') (hu : st'.Unshared (.ref old)) :
    st'.Unshared (.ref target) := by
  have hcell := entries?_ref.mp hes
  obtain ⟨hparts, hself⟩ := (separate_cons_iff hcell).mp hsep
  have hmem : old ∈ (Cell.map es).objects :=
    Cell.mem_objects_iff.mpr (List.mem_flatMap.mpr ⟨_, hold, by simp⟩)
  have hperm := List.perm_cons_erase hmem
  have hsub : ([old, new] ++ (Cell.map es).objects.erase old).Subperm
      ((Cell.map es).objects ++ (ids ++ [new])) := by
    rw [List.subperm_iff_count]
    intro id
    have hcount := hperm.count_eq id
    simp only [List.count_append, List.count_cons, List.count_nil] at hcount ⊢
    omega
  obtain ⟨hsep', _, hinside⟩ := (hparts.subperm hsub).frame hw List.mem_cons_self hu
  have hself' : ¬ st.Reached ([old, new] ++ (Cell.map es).objects.erase old) target :=
    fun h => hself (h.mono hsub.subset)
  have hcell' : st'.cells[target]? = some (.map es) :=
    (hw.frame target fun h => hself' (h.mono (List.subset_append_left _ _))).trans hcell
  exact unshared_of_parts hcell' (hsep'.perm hperm.symm)
    fun h => hself' (hinside target (h.mono hperm.subset))

theorem writes_of_returns {S : Nat → Prop} (hwithin : MergesWithin S inner) (ht : S target)
    (hs : S source) (hm : st.isMapping target = true) (hc : st.Closed S)
    (h : Returns (inner target source) st () st') : Writes S st st' := by
  have hw := (hwithin target source st st ht hs hm hc (.refl S st)).writes
  rwa [h] at hw

/-- **Merging an entry that stands apart returns**, and leaves a mapping that shares nothing. -/
theorem mergeEntry_returns (hinner : Grafts inner d) (hwithin : ∀ S, MergesWithin S inner)
    (hm : st.isMapping target = true)
    (hsep : st.Separate (target :: (key.objects ++ value.objects))) (hd : st.Shallow value d) :
    ∃ st', Returns (mergeEntry inner target key value) st () st' ∧
      Writes (st.Reached (target :: (key.objects ++ value.objects))) st st' ∧
      st'.Unshared (.ref target) := by
  obtain ⟨es, hcell⟩ := isMapping_iff.mp hm
  have hes := entries?_ref.mpr hcell
  have hwrites := (mergeEntry_within (hwithin _) (reached_of_mem List.mem_cons_self) hm
    (in_reached (v := key) fun id h => List.mem_cons_of_mem _ (List.mem_append_left _ h))
    (in_reached (v := value) fun id h => List.mem_cons_of_mem _ (List.mem_append_right _ h))
    (closed_reached st _) (.refl _ st)).writes
  suffices h : ∃ st', Returns (mergeEntry inner target key value) st () st' ∧
      st'.Unshared (.ref target) by
    obtain ⟨st', hreturns, hu⟩ := h
    rw [hreturns] at hwrites
    exact ⟨st', hreturns, hwrites, hu⟩
  rcases outcome_mergeEntry_cases inner key value hes with
    ⟨old, new, hfound, rfl, hmold, hmnew, houtcome⟩ | ⟨_, houtcome⟩
  · obtain ⟨k, hold, _⟩ := find?_mem hfound
    obtain ⟨st', hreturns, hu⟩ := hinner old new st (separate_pair hes hold hsep) hmold hmnew hd
    refine ⟨st', houtcome.trans hreturns, unshared_of_inner hes hold hsep ?_ hu⟩
    exact writes_of_returns (hwithin _) (reached_of_mem (by simp)) (reached_of_mem (by simp)) hmold
      (closed_reached st _) hreturns
  · exact ⟨_, houtcome, unshared_put hes hsep⟩

/-! ## All entries -/

/-- What it takes to merge the entries of the source from an index on: they stand apart from the
target, the source itself stands in neither, and no value is deeper than that. -/
structure Mergeable (st : Store) (target source : Nat) (es : List (Value × Value)) (index d : Nat) :
    Prop where
  entries : st.entries? (.ref source) = some es
  mapping : st.isMapping target = true
  separate : st.Separate (target :: (Cell.map (es.drop index)).objects)
  source : ¬ st.Reached (target :: (Cell.map (es.drop index)).objects) source
  shallow : ∀ entry ∈ es.drop index, st.Shallow entry.2 d

/-- Two mappings that stand apart can be merged. -/
theorem mergeable_of_separate (hsep : st.Separate [target, source])
    (hm : st.isMapping target = true) (hes : st.entries? (.ref source) = some es)
    (hd : st.Shallow (.ref source) (d + 1)) : st.Mergeable target source es 0 d := by
  obtain ⟨hparts, hself⟩ := (separate_cons_iff (entries?_ref.mp hes)).mp
    (hsep.perm (.swap source target []))
  have hperm : ((Cell.map es).objects ++ [target]).Perm
      (target :: (Cell.map (es.drop 0)).objects) :=
    List.perm_append_comm
  exact ⟨hes, hm, hparts.perm hperm, fun hr => hself (hr.mono hperm.symm.subset),
    fun entry hentry => hd.valueOf hes entry (List.mem_of_mem_drop hentry)⟩

theorem drop_entry {e : Value × Value} (h : es[index]? = some e) :
    es.drop index = e :: es.drop (index + 1) := by
  obtain ⟨hlt, heq⟩ := List.getElem?_eq_some_iff.mp h
  rw [List.drop_eq_getElem_cons hlt, heq]

theorem Mergeable.entry (h : st.Mergeable target source es index d)
    (hentry : es[index]? = some (key, value)) :
    st.Separate (target :: (key.objects ++ value.objects)) ∧ st.Shallow value d := by
  have hdrop := drop_entry hentry
  have hsep := h.separate
  rw [hdrop, Cell.objects_map_cons, ← List.append_assoc, ← List.cons_append] at hsep
  exact ⟨(separate_append_iff.mp hsep).1, h.shallow (key, value) (hdrop ▸ List.mem_cons_self)⟩

/-- **One entry is merged,** and the others can be merged then, which are as they were. -/
theorem Mergeable.step (hinner : Grafts inner d) (hwithin : ∀ S, MergesWithin S inner)
    (h : st.Mergeable target source es index d) (hentry : es[index]? = some (key, value)) :
    ∃ st', Returns (mergeEntry inner target key value) st () st' ∧
      st'.Mergeable target source es (index + 1) d ∧ st'.Unshared (.ref target) ∧
      Agree (st.Reached (Cell.map (es.drop (index + 1))).objects) st st' := by
  obtain ⟨hentrySep, hdeep⟩ := h.entry hentry
  obtain ⟨st', hreturns, hw, hu⟩ := mergeEntry_returns hinner hwithin h.mapping hentrySep hdeep
  have hdrop := drop_entry hentry
  have hsep := h.separate
  have hsource := h.source
  rw [hdrop, Cell.objects_map_cons, ← List.append_assoc, ← List.cons_append] at hsep hsource
  obtain ⟨hsep', hagree, hinside⟩ := hsep.frame hw List.mem_cons_self hu
  refine ⟨st', hreturns, ⟨?_, ?_, hsep', fun hr => hsource (hinside source hr), ?_⟩, hu, hagree⟩
  · -- the source is not written, as it stands in nothing that is
    have hes := h.entries
    rw [entries?_ref] at hes ⊢
    exact (hw.frame source fun hr => hsource (hr.mono (List.subset_append_left _ _))).trans hes
  · rw [hw.isMapping]
    exact h.mapping
  · intro entry hentry
    refine (h.shallow entry (hdrop ▸ List.mem_cons_of_mem _ hentry)).of_agree hagree
      (closed_reached st _) (in_reached fun id hid => ?_)
    exact List.mem_flatMap.mpr ⟨entry.2, List.mem_flatMap.mpr ⟨entry, hentry, by simp⟩, hid⟩

/-- **Merging entries that stand apart returns**, one after the other, the mapping that they are
taken from standing in none of them. -/
theorem mergeEntries_returns (hinner : Grafts inner d) (hwithin : ∀ S, MergesWithin S inner)
    (left index : Nat) (h : st.Mergeable target source es index d)
    (hleft : index + left = es.length) :
    ∃ st', Returns (mergeEntries inner target source es.length left index) st () st' ∧
      st'.Unshared (.ref target) := by
  induction left generalizing index st with
  | zero =>
      refine ⟨st, ?_, h.separate.unshared _ List.mem_cons_self⟩
      unfold Returns
      rw [outcome_mergeEntries_zero, h.entries, Option.getD_some, if_pos rfl]
  | succ left ih =>
      have hlt : index < es.length := by omega
      obtain ⟨⟨key, value⟩, hentry⟩ : ∃ entry, es[index]? = some entry :=
        ⟨_, List.getElem?_eq_getElem hlt⟩
      obtain ⟨st₁, hfirst, h₁, _, _⟩ := h.step hinner hwithin hentry
      obtain ⟨st', hrest, hu'⟩ := ih (index + 1) h₁ (by omega)
      refine ⟨st', ?_, hu'⟩
      unfold Returns
      rw [outcome_mergeEntries_succ, h.entries, Option.getD_some, if_pos rfl, hentry]
      exact Returns.bind_iff.mpr ⟨(), st₁, hfirst, hrest⟩

/-- Merging through one level more takes mappings that are one level deeper. -/
theorem Grafts.mergeTo_succ {depth : Nat} (h : Grafts (mergeTo depth) d) :
    Grafts (mergeTo (depth + 1)) (d + 1) := by
  intro target source st hsep hm hmsource hd
  obtain ⟨es, hcell⟩ := isMapping_iff.mp hmsource
  have hes := entries?_ref.mpr hcell
  obtain ⟨st', hreturns, hu⟩ := mergeEntries_returns h (fun S => mergeTo_within S depth) es.length 0
    (mergeable_of_separate hsep hm hes hd) (Nat.zero_add _)
  refine ⟨st', ?_, hu⟩
  unfold Returns
  rw [outcome_mergeTo_succ, hes, Option.getD_some]
  exact hreturns

/-- A mapping without any level below it is empty. -/
theorem outcome_mergeTo_one (hes : st.entries? (.ref source) = some es)
    (hd : st.Shallow (.ref source) 0) :
    es = [] ∧ outcome (mergeTo 1 target source) st = (.ok (), st) := by
  have hempty : es = [] := by
    cases es with
    | nil => rfl
    | cons entry rest =>
        have hat : st.at? (.ref source) [.value 0] = some entry.2 := at?_value hes 0
        exact absurd (hd _ _ hat) (by simp)
  refine ⟨hempty, ?_⟩
  rw [outcome_mergeTo_succ, hes, hempty, Option.getD_some, List.length_nil,
    outcome_mergeEntries_zero, hes, hempty]
  rfl

theorem grafts_mergeTo_one : Grafts (mergeTo 1) 0 := by
  intro target source st hsep hm hmsource hd
  obtain ⟨es, hcell⟩ := isMapping_iff.mp hmsource
  obtain ⟨-, houtcome⟩ := outcome_mergeTo_one (entries?_ref.mpr hcell) hd
  exact ⟨st, houtcome, hsep.unshared _ List.mem_cons_self⟩

theorem grafts_mergeTo (d : Nat) : Grafts (mergeTo (d + 1)) d := by
  induction d with
  | zero => exact grafts_mergeTo_one
  | succ d ih => exact ih.mergeTo_succ

/-- **Merging mappings that stand apart returns.** The source is given up, and the target stands
apart from whatever both stood apart from, which is left as it is. -/
theorem merge_returns (hsep : st.Separate (target :: source :: ids))
    (hm : st.isMapping target = true) (hmsource : st.isMapping source = true) :
    ∃ st', Returns (merge target source) st () st' ∧ st'.Separate (target :: ids) ∧
      Agree (st.Reached ids) st st' ∧ st'.isMapping = st.isMapping := by
  have happend : st.Separate ([target, source] ++ ids) := hsep
  have hpair := (separate_append_iff.mp happend).1
  have hdeep : st.Shallow (.ref source) st.cells.size := fun p part hp =>
    (hpair.unshared source (by simp)).length_le hp
  obtain ⟨st', hreturns, hu⟩ :=
    grafts_mergeTo st.cells.size target source st hpair hm hmsource hdeep
  have hmerge : Returns (merge target source) st () st' := (outcome_merge target source st).trans
    hreturns
  have hw : Writes (st.Reached [target, source]) st st' :=
    writes_of_returns (fun target source st st' => merge_within _ target source st st')
      (reached_of_mem (by simp)) (reached_of_mem (by simp)) hm (closed_reached st _) hmerge
  obtain ⟨hsep', hagree, _⟩ := happend.frame hw List.mem_cons_self hu
  exact ⟨st', hmerge, hsep', hagree, hw.isMapping⟩

/-- **Merging pairs of mappings returns** if the sources and the objects that are kept, the targets
among them, stand apart. The sources are given up. -/
theorem mergeAll_returns {pairs : List (Nat × Nat)} {kept more : List Nat}
    (hsep : st.Separate (kept ++ (pairs.map Prod.snd ++ more)))
    (hkept : ∀ pair ∈ pairs, pair.1 ∈ kept)
    (hm : ∀ pair ∈ pairs, st.isMapping pair.1 = true ∧ st.isMapping pair.2 = true) :
    ∃ st', Returns (mergeAll pairs) st () st' ∧ st'.Separate (kept ++ more) ∧
      Agree (st.Reached more) st st' := by
  induction pairs generalizing st with
  | nil => exact ⟨st, rfl, hsep, .refl _ st⟩
  | cons pair rest ih =>
      rcases pair with ⟨target, source⟩
      have hperm := List.perm_cons_erase (hkept _ List.mem_cons_self)
      obtain ⟨hmtarget, hmsource⟩ := hm _ List.mem_cons_self
      -- the first pair comes to the front, since one merge needs its two objects there
      have hfront : (kept ++ (((target, source) :: rest).map Prod.snd ++ more)).Perm
          (target :: source :: (kept.erase target ++ (rest.map Prod.snd ++ more))) := by
        rw [List.perm_iff_count]
        intro id
        have hcount := hperm.count_eq id
        simp only [List.map_cons, List.count_append, List.count_cons] at hcount ⊢
        omega
      obtain ⟨st₁, hfirst, hsep₁, hagree₁, hmaps⟩ := merge_returns (hsep.perm hfront) hmtarget
        hmsource
      obtain ⟨st', hrest, hsep', hagree⟩ := ih
        (hsep₁.perm (hperm.symm.append_right (rest.map Prod.snd ++ more)))
        (fun pair hpair => hkept pair (List.mem_cons_of_mem _ hpair))
        (fun pair hpair => by rw [hmaps]; exact hm pair (List.mem_cons_of_mem _ hpair))
      have hmore : ∀ id, st.Reached more id →
          st.Reached (kept.erase target ++ (rest.map Prod.snd ++ more)) id := fun id h =>
        h.mono fun _ hmem => List.mem_append_right _ (List.mem_append_right _ hmem)
      refine ⟨st', Returns.bind_iff.mpr ⟨(), st₁, hfirst, hrest⟩, hsep', (hagree₁.mono hmore).trans
        (hagree.mono fun id h => ?_)⟩
      exact (hagree₁.mono hmore).reached_iff.mpr h

end Store
end ApiManifest
