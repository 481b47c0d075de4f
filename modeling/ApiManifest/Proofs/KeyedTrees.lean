import ApiManifest.Data.Merge
import ApiManifest.Proofs.Keys

/-!
# Mappings with different keys

In a tree that stands for nested mappings the keys of each mapping are different. Then a mapping is
determined by its keys, in order, and by what it has at each of them, and a chain of keys leads to
one value at most. Keys are compared by what they stand for, so a chain may spell them otherwise.
-/

namespace ApiManifest

namespace Tree

mutual

/-- Whether the keys of each mapping are sound and different, at every depth of mappings. -/
def isKeyed : Tree → Bool
  | map es => areKeyed es
  | _ => true

/-- Whether the entries of a mapping have sound and different keys, and keyed values. -/
def areKeyed : List (Tree × Tree) → Bool
  | [] => true
  | (k, v) :: rest =>
    k.isSoundKey && rest.all (fun e => !k.sameKey e.1) && v.isKeyed && areKeyed rest

end

/-- Whether the value is a mapping. -/
def isMap : Tree → Bool
  | map _ => true
  | _ => false

/-- The value that a chain of keys leads to. -/
def follow? (t : Tree) : (chain : List Tree) → Option Tree
  | [] => some t
  | k :: rest => match t with
    | map es => (Entries.find? k es).bind fun v => v.follow? rest
    | _ => none

/-- The keys of the mapping that a chain of keys leads to, in order. -/
def keysAt (t : Tree) (chain : List Tree) : List Tree :=
  match t.follow? chain with
  | some (map es) => es.map Prod.fst
  | _ => []

end Tree

namespace Entries

/-- The keys are sound and different, and the values are keyed. -/
structure Keyed (es : Entries) : Prop where
  sound : ∀ e ∈ es, e.1.isSoundKey = true
  distinct : es.Pairwise fun e e' => e.1.sameKey e'.1 = false
  values : ∀ e ∈ es, e.2.isKeyed = true

theorem areKeyed_iff {es : Entries} : Tree.areKeyed es = true ↔ es.Keyed := by
  induction es with
  | nil => exact ⟨fun _ => ⟨by simp, .nil, by simp⟩, fun _ => rfl⟩
  | cons entry rest ih =>
      rcases entry with ⟨k, v⟩
      simp only [Tree.areKeyed, Bool.and_eq_true, List.all_eq_true, Bool.not_eq_true', ih]
      constructor
      · rintro ⟨⟨⟨hk, hnew⟩, hv⟩, hrest⟩
        exact ⟨List.forall_mem_cons.mpr ⟨hk, hrest.sound⟩, .cons hnew hrest.distinct,
          List.forall_mem_cons.mpr ⟨hv, hrest.values⟩⟩
      · intro h
        obtain ⟨hnew, hrest⟩ := List.pairwise_cons.mp h.distinct
        exact ⟨⟨⟨h.sound _ List.mem_cons_self, hnew⟩, h.values _ List.mem_cons_self⟩,
          fun e he => h.sound e (List.mem_cons_of_mem _ he), hrest,
          fun e he => h.values e (List.mem_cons_of_mem _ he)⟩

theorem isKeyed_map_iff {es : Entries} : (Tree.map es).isKeyed = true ↔ es.Keyed := areKeyed_iff

variable {k k' v : Tree} {es es' : Entries}

theorem Keyed.cons_iff : Keyed ((k, v) :: es) ↔
    k.isSoundKey = true ∧ (∀ e ∈ es, k.sameKey e.1 = false) ∧ v.isKeyed = true ∧ es.Keyed := by
  rw [← areKeyed_iff, ← areKeyed_iff]
  simp [Tree.areKeyed, and_assoc]

/-! ## What stands at a key -/

theorem find?_eq_none_iff : find? k es = none ↔ ∀ e ∈ es, k.sameKey e.1 = false := by
  induction es with
  | nil => simp [find?]
  | cons entry rest ih =>
      rcases entry with ⟨first, x⟩
      rw [find?, List.forall_mem_cons, ← ih]
      cases k.sameKey first <;> simp

theorem mem_of_find? (h : find? k es = some v) : ∃ key, (key, v) ∈ es ∧ k.sameKey key = true := by
  induction es with
  | nil => cases h
  | cons entry rest ih =>
      rcases entry with ⟨first, x⟩
      rw [find?] at h
      split at h
      · rename_i hsame
        cases h
        exact ⟨first, List.mem_cons_self, hsame⟩
      · obtain ⟨key, hmem, hsame⟩ := ih h
        exact ⟨key, List.mem_cons_of_mem _ hmem, hsame⟩

/-- Keys that are the same find the same. -/
theorem find?_congr (hes : es.Keyed) (hk : k.isSoundKey = true) (hk' : k'.isSoundKey = true)
    (h : k.sameKey k' = true) : find? k es = find? k' es := by
  induction es with
  | nil => rfl
  | cons entry rest ih =>
      rcases entry with ⟨first, x⟩
      obtain ⟨hfirst, _, _, hrest⟩ := Keyed.cons_iff.mp hes
      rw [find?, find?, Tree.sameKey_congr hk hk' hfirst h, ih hrest]

/-- A mapping has at its keys what its entries say. -/
theorem find?_of_mem (hes : es.Keyed) (h : (k, v) ∈ es) : find? k es = some v := by
  induction es with
  | nil => cases h
  | cons entry rest ih =>
      rcases entry with ⟨first, x⟩
      obtain ⟨hfirst, hnew, _, hrest⟩ := Keyed.cons_iff.mp hes
      rcases List.mem_cons.mp h with heq | hmem
      · cases heq
        rw [find?, if_pos (Tree.sameKey_self hfirst)]
      · have hk := hrest.sound _ hmem
        rw [find?, Tree.sameKey_comm hk hfirst, hnew _ hmem, if_neg Bool.false_ne_true]
        exact ih hrest hmem

theorem isKeyed_of_find? (hes : es.Keyed) (h : find? k es = some v) : v.isKeyed = true := by
  obtain ⟨key, hmem, _⟩ := mem_of_find? h
  exact hes.values _ hmem

theorem keyed_of_find? (hes : es.Keyed) (h : find? k es = some (.map es')) : es'.Keyed :=
  isKeyed_map_iff.mp (isKeyed_of_find? hes h)

/-- **Mappings with the same keys in the same order are equal if they have the same at each
key.** -/
theorem Keyed.ext (hes : es.Keyed) (hes' : es'.Keyed) (hkeys : es.map Prod.fst = es'.map Prod.fst)
    (h : ∀ k ∈ es.map Prod.fst, find? k es = find? k es') : es = es' := by
  refine List.ext_getElem (by simpa using congrArg List.length hkeys) fun n hn hn' => ?_
  have hkey : es[n].1 = es'[n].1 := by
    have := congrArg (·[n]?) hkeys
    simpa [hn, hn'] using this
  have hleft : find? es[n].1 es = some es[n].2 := find?_of_mem hes (List.getElem_mem hn)
  have hright : find? es'[n].1 es' = some es'[n].2 := find?_of_mem hes' (List.getElem_mem hn')
  have hsame := h es[n].1 (List.mem_map_of_mem (List.getElem_mem hn))
  rw [hleft, hkey, hright] at hsame
  exact Prod.ext hkey (Option.some.inj hsame)

/-! ## Setting what stands at a key -/

/-- What was set at a key stands at the keys that are the same. -/
theorem find?_put (hes : es.Keyed) (hk : k.isSoundKey = true) (hk' : k'.isSoundKey = true) :
    find? k' (put k v es) = if k'.sameKey k then some v else find? k' es := by
  induction es with
  | nil => rfl
  | cons entry rest ih =>
      rcases entry with ⟨first, x⟩
      obtain ⟨hfirst, _, _, hrest⟩ := Keyed.cons_iff.mp hes
      rw [put]
      split
      · rename_i hsame
        have hcongr : k'.sameKey first = k'.sameKey k := by
          rw [Tree.sameKey_comm hk' hfirst, Tree.sameKey_comm hk' hk,
            Tree.sameKey_congr hk hfirst hk' hsame]
        rw [find?, find?, hcongr]
        split <;> rfl
      · rename_i hdiff
        rw [find?, find?, ih hrest]
        by_cases hother : k'.sameKey first = true
        · have hno : k'.sameKey k = false := by
            rw [Tree.sameKey_congr hk' hfirst hk hother, Tree.sameKey_comm hfirst hk]
            exact Bool.eq_false_of_not_eq_true hdiff
          rw [if_pos hother, if_pos hother, hno, if_neg Bool.false_ne_true]
        · rw [if_neg hother, if_neg hother]

/-- A key that is there keeps its place and its spelling, a new one comes last. -/
theorem keys_put : (put k v es).map Prod.fst
    = es.map Prod.fst ++ if (find? k es).isSome then [] else [k] := by
  induction es with
  | nil => rfl
  | cons entry rest ih =>
      rcases entry with ⟨first, x⟩
      rw [put, find?]
      split
      · simp
      · rw [List.map_cons, ih, List.map_cons, List.cons_append]

theorem Keyed.put (hes : es.Keyed) (hk : k.isSoundKey = true) (hv : v.isKeyed = true) :
    (Entries.put k v es).Keyed := by
  induction es with
  | nil => exact Keyed.cons_iff.mpr ⟨hk, by simp, hv, hes⟩
  | cons entry rest ih =>
      rcases entry with ⟨first, x⟩
      obtain ⟨hfirst, hnew, hx, hrest⟩ := Keyed.cons_iff.mp hes
      rw [Entries.put]
      split
      · exact Keyed.cons_iff.mpr ⟨hfirst, hnew, hv, hrest⟩
      · rename_i hdiff
        refine Keyed.cons_iff.mpr ⟨hfirst, ?_, hx, ih hrest⟩
        -- the keys that there are now were there, or are the one that was set
        intro e he
        have hmem : e.1 ∈ (Entries.put k v rest).map Prod.fst := List.mem_map_of_mem he
        rw [keys_put, List.mem_append] at hmem
        rcases hmem with hmem | hmem
        · obtain ⟨e', he', heq⟩ := List.mem_map.mp hmem
          exact heq ▸ hnew e' he'
        · have heq : e.1 = k := by
            split at hmem
            · cases hmem
            · exact List.mem_singleton.mp hmem
          rw [heq, Tree.sameKey_comm hfirst hk]
          exact Bool.eq_false_of_not_eq_true hdiff

end Entries
end ApiManifest
