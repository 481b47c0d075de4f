import ApiManifest.Proofs.MergedAgain
import ApiManifest.Proofs.TreeShape

/-!
# Accumulating mappings

What merging one nested mapping into another one comes to, for the trees and for the objects that
hold them: everything is kept that is not overridden, in order; to merge the same again changes
nothing; and where no mapping meets anything else, mappings can be accumulated in any grouping.
-/

namespace ApiManifest

namespace Tree

/-- All keys of the chain are sound. -/
def IsSoundChain (chain : List Tree) : Prop := ∀ k ∈ chain, k.isSoundKey = true

/-- What a merge of nested mappings keeps, chain by chain. -/
structure KeepsAll (target source result : Tree) : Prop where
  /-- What the source has outside of mappings is there. -/
  ofSource : ∀ chain v, IsSoundChain chain → source.follow? chain = some v → v.isMap = false →
    result.follow? chain = some v
  /-- What the target has outside of mappings is still there, unless it is overridden. -/
  ofTarget : ∀ chain v, IsSoundChain chain → target.follow? chain = some v → v.isMap = false →
    ¬ Overrides target source chain → result.follow? chain = some v
  /-- There are no other chains than those of the source and those of the target that are not
  overridden. -/
  chains : ∀ chain, IsSoundChain chain → ((result.follow? chain).isSome = true ↔
    (source.follow? chain).isSome = true ∨
      (target.follow? chain).isSome = true ∧ ¬ Overrides target source chain)
  /-- At every depth the keys are those of the target, in their old order and spelling, and then the
  new ones of the source, in their order. -/
  keys : ∀ chain es, IsSoundChain chain → result.follow? chain = some (map es) →
    es.map Prod.fst = target.keysAt chain ++ (source.keysAt chain).filter
      fun k => (target.keysAt chain).all fun k' => !k.sameKey k'

variable {t s a b : Entries}

theorem keepsAll_mergeEntries (ht : t.Keyed) (hs : s.Keyed) :
    KeepsAll (map t) (map s) (map (mergeEntries t s)) where
  ofSource _ _ hchain h hv := follow?_of_source ht hs hchain h hv
  ofTarget _ _ hchain h hv hno := follow?_of_target ht hs hchain h hv hno
  chains _ hchain := isSome_follow?_iff ht hs hchain
  keys _ _ hchain h := keys_follow? ht hs hchain h

end Tree

/-! ## Objects -/

namespace Store

/-- The objects stand apart, and each one is of its tree. -/
structure Hold (st : Store) (held : List (Nat × Tree)) : Prop where
  separate : st.Separate (held.map Prod.fst)
  trees : ∀ entry ∈ held, st.tree (.ref entry.1) = entry.2

variable {st : Store} {target source : Nat} {t s : Entries} {held held' : List (Nat × Tree)}

theorem Hold.perm (h : st.Hold held) (hperm : held.Perm held') : st.Hold held' :=
  ⟨h.separate.perm (hperm.map _), fun entry hentry => h.trees entry (hperm.mem_iff.mpr hentry)⟩

/-- **A merge in place gives up the source,** leaves the target with the merged tree, and all other
objects as they were. -/
theorem Hold.merge (h : st.Hold ((target, .map t) :: (source, .map s) :: held)) (ht : t.Keyed)
    (hs : s.Keyed) :
    ∃ st', Returns (merge target source) st () st' ∧
      st'.Hold ((target, .map (Tree.mergeEntries t s)) :: held) := by
  obtain ⟨hsep, htrees⟩ := h
  obtain ⟨htarget, hrest⟩ := List.forall_mem_cons.mp htrees
  obtain ⟨hsource, hothers⟩ := List.forall_mem_cons.mp hrest
  obtain ⟨st', hreturns, hsep', hagree, htree⟩ := merge_tree hsep htarget hsource ht hs
  refine ⟨st', hreturns, hsep', List.forall_mem_cons.mpr ⟨htree, fun entry hentry => ?_⟩⟩
  rw [hagree.tree (closed_reached st _) (ref_in_reached (List.mem_map_of_mem hentry))]
  exact hothers entry hentry

/-- The first object is of the first tree. -/
theorem Hold.head {id : Nat} {u : Tree} (h : st.Hold ((id, u) :: held)) : st.tree (.ref id) = u :=
  h.trees _ List.mem_cons_self

end Store

/-! ## Accumulating -/

namespace Tree

/-- **A merge keeps everything that it does not override, in order.** -/
theorem merge_keeps_all {t s : Entries} (ht : (map t).isKeyed = true)
    (hs : (map s).isKeyed = true) :
    ∃ r, mergeInto (map t) (map s) = .ok r ∧ KeepsAll (map t) (map s) r ∧
      ∀ (st : Store) (target source : Nat), st.Hold [(target, map t), (source, map s)] →
        ∃ st', Returns (Store.merge target source) st () st' ∧ st'.tree (.ref target) = r := by
  rw [Entries.isKeyed_map_iff] at ht hs
  refine ⟨_, mergeInto_map t s, keepsAll_mergeEntries ht hs, fun st target source h => ?_⟩
  obtain ⟨st', hreturns, h'⟩ := h.merge ht hs
  exact ⟨st', hreturns, h'.head⟩

/-- Nested mappings of which one spells the key 1 as a truth value, and has a mapping, a list and
null where the other has something else. -/
def spelled : Entries × Entries :=
  ([(int 1, map [(text "a", int 1), (text "b", map [])]), (text "k", map [(text "x", null)]),
      (text "z", list [])],
    [(text "n", map []), (bool true, map [(text "b", list [int 2]), (text "a", null)]),
      (text "k", map [(text "y", text "")]), (text "z", map [(null, int 0)])])

/-- The two as objects of their own. -/
def spelledStore : Store :=
  ((Store.empty.insert (map spelled.1)).1.insert (map spelled.2)).1

theorem hold_spelled : spelledStore.Hold [(10, map spelled.2), (4, map spelled.1)] where
  separate := Store.separate_insert (map spelled.2)
    (Store.separate_insert (map spelled.1) (Store.separate_nil .empty))
  trees := List.forall_mem_cons.mpr ⟨rfl, List.forall_mem_cons.mpr ⟨rfl, by simp⟩⟩

theorem merge_keeps_all_spelled :
    (map spelled.1).isKeyed = true ∧ (map spelled.2).isKeyed = true ∧
    KeepsAll (map spelled.1) (map spelled.2) (map [
      (int 1, map [(text "a", null), (text "b", list [int 2])]),
      (text "k", map [(text "x", null), (text "y", text "")]), (text "z", map [(null, int 0)]),
      (text "n", map [])]) ∧
    ∃ st', Returns (Store.merge 4 10) spelledStore () st' := by
  have ht : (map spelled.1).isKeyed = true := by decide +kernel
  have hs : (map spelled.2).isKeyed = true := by decide +kernel
  obtain ⟨r, hmerge, hkeeps, hobjects⟩ := merge_keeps_all ht hs
  obtain ⟨st', hreturns, -⟩ := hobjects spelledStore 4 10 (hold_spelled.perm (.swap _ _ _))
  cases hmerge
  exact ⟨ht, hs, hkeeps, st', hreturns⟩

/-- **A merge made again changes nothing, and merges can be grouped** where no mapping meets
anything else. -/
theorem merge_again_grouped {t a b : Entries} (ht : (map t).isKeyed = true)
    (ha : (map a).isKeyed = true) (hb : (map b).isKeyed = true) :
    (∃ r, mergeInto (map t) (map a) = .ok r ∧ mergeInto r (map a) = .ok r ∧
      ∀ (st : Store) (x y : Nat), st.Hold [(x, map t), (y, map a)] →
        ∃ st', Returns (Store.merge x y) st () st' ∧ st'.tree (.ref x) = r ∧
          Returns (Store.merge x y) st' () st') ∧
    (SameShape (map t) (map a) → SameShape (map a) (map b) → SameShape (map t) (map b) →
      ∃ first both r, mergeInto (map t) (map a) = .ok first ∧ mergeInto first (map b) = .ok r ∧
        mergeInto (map a) (map b) = .ok both ∧ mergeInto (map t) both = .ok r ∧
        ∀ (st : Store) (x y z : Nat), st.Hold [(x, map t), (y, map a), (z, map b)] →
          ∃ st₁ st₂, Returns (do Store.merge x y; Store.merge x z) st () st₁ ∧
            Returns (do Store.merge y z; Store.merge x y) st () st₂ ∧
            st₁.tree (.ref x) = r ∧ st₂.tree (.ref x) = r) := by
  have hagain := (merge_again (map a) ha).2 (map t) ht
  have hgrouped := merge_assoc (map a) ha (map t) (map b) ht hb
  rw [merge_map, merge_map] at hagain
  rw [merge_map, merge_map, merge_map, merge_map] at hgrouped
  rw [Entries.isKeyed_map_iff] at ht ha hb
  refine ⟨⟨_, mergeInto_map t a, by rw [mergeInto_map, hagain], fun st x y h => ?_⟩,
    fun hta hab htb => ?_⟩
  · obtain ⟨st', hreturns, h'⟩ := h.merge ht ha
    exact ⟨st', hreturns, h'.head, Store.merge_again h.separate h.head
      (h.trees (y, map a) (by simp)) ht ha hreturns⟩
  have hsame := hgrouped hta hab htb
  refine ⟨_, _, _, mergeInto_map t a, mergeInto_map _ b, mergeInto_map a b, ?_, ?_⟩
  · rw [mergeInto_map, hsame]
  intro st x y z h
  -- both groupings go through objects that stand apart, in the order in which they are merged
  obtain ⟨st₁, hfirst, h₁⟩ := h.merge ht ha
  obtain ⟨st₂, hsecond, h₂⟩ := h₁.merge (keyed_mergeEntries ht ha) hb
  have hturned : st.Hold [(y, map a), (z, map b), (x, map t)] :=
    h.perm (List.perm_append_singleton (x, map t) [(y, map a), (z, map b)]).symm
  obtain ⟨st₃, hthird, h₃⟩ := hturned.merge ha hb
  obtain ⟨st₄, hfourth, h₄⟩ := (h₃.perm (.swap _ _ _)).merge ht (keyed_mergeEntries ha hb)
  refine ⟨st₂, st₄, Returns.bind_iff.mpr ⟨(), st₁, hfirst, hsecond⟩,
    Returns.bind_iff.mpr ⟨(), st₃, hthird, hfourth⟩, h₂.head, ?_⟩
  rw [hsame]
  exact h₄.head

/-- Nested mappings with keys in common, where none has a mapping where another has something
else. -/
def grouped : Entries × Entries × Entries :=
  ([(int 1, map [(text "a", int 1)]), (text "k", null)],
    [(text "n", map []), (bool true, map [(text "b", list []), (text "a", null)])],
    [(text "k", list [map []]), (int 1, map [(text "c", map []), (text "b", int 5)])])

/-- The three as objects of their own. -/
def groupedStore : Store :=
  (((Store.empty.insert (map grouped.2.2)).1.insert (map grouped.2.1)).1.insert (map grouped.1)).1

theorem hold_grouped :
    groupedStore.Hold [(10, map grouped.1), (8, map grouped.2.1), (4, map grouped.2.2)] where
  separate := Store.separate_insert (map grouped.1) (Store.separate_insert (map grouped.2.1)
    (Store.separate_insert (map grouped.2.2) (Store.separate_nil .empty)))
  trees := List.forall_mem_cons.mpr ⟨rfl, List.forall_mem_cons.mpr ⟨rfl,
    List.forall_mem_cons.mpr ⟨rfl, by simp⟩⟩⟩

theorem keyed_grouped : (map grouped.1).isKeyed = true ∧ (map grouped.2.1).isKeyed = true ∧
    (map grouped.2.2).isKeyed = true := by decide +kernel

theorem sameShape_grouped : (map grouped.1).SameShape (map grouped.2.1) ∧
    (map grouped.2.1).SameShape (map grouped.2.2) ∧
      (map grouped.1).SameShape (map grouped.2.2) := by
  obtain ⟨ht, ha, hb⟩ := keyed_grouped
  exact ⟨(hasShape_iff _ ht _ ha).mp (by decide +kernel),
    (hasShape_iff _ ha _ hb).mp (by decide +kernel),
    (hasShape_iff _ ht _ hb).mp (by decide +kernel)⟩

theorem merge_again_grouped_spelled :
    (map spelled.1).isKeyed = true ∧ (map spelled.2).isKeyed = true ∧
    (∃ r, mergeInto (map spelled.1) (map spelled.2) = .ok r ∧ mergeInto r (map spelled.2) = .ok r) ∧
    (∃ st', Returns (Store.merge 4 10) spelledStore () st' ∧
      Returns (Store.merge 4 10) st' () st') ∧
    (∃ st₁ st₂, Returns (do Store.merge 10 8; Store.merge 10 4) groupedStore () st₁ ∧
      Returns (do Store.merge 8 4; Store.merge 10 8) groupedStore () st₂ ∧
      st₁.tree (.ref 10) = st₂.tree (.ref 10)) := by
  have ht : (map spelled.1).isKeyed = true := by decide +kernel
  have hs : (map spelled.2).isKeyed = true := by decide +kernel
  obtain ⟨⟨r, hmerge, hagain, hobjects⟩, -⟩ := merge_again_grouped ht hs (b := []) rfl
  obtain ⟨st', hreturns, -, hreturns'⟩ :=
    hobjects spelledStore 4 10 (hold_spelled.perm (.swap _ _ _))
  obtain ⟨hkt, hka, hkb⟩ := keyed_grouped
  obtain ⟨hta, hab, htb⟩ := sameShape_grouped
  obtain ⟨-, hgrouped⟩ := merge_again_grouped hkt hka hkb
  obtain ⟨_, _, _, -, -, -, -, hstores⟩ := hgrouped hta hab htb
  obtain ⟨st₁, st₂, h₁, h₂, htree₁, htree₂⟩ := hstores groupedStore 10 8 4 hold_grouped
  exact ⟨ht, hs, ⟨r, hmerge, hagain⟩, ⟨st', hreturns, hreturns'⟩, st₁, st₂, h₁, h₂,
    htree₁.trans htree₂.symm⟩

end Tree
end ApiManifest
