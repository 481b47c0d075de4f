import ApiManifest.Proofs.MergedTrees

/-!
# Merging in place again

After a merge in place the target has, at each key of the source, the value of the source itself or
a mapping that has taken in the one there. Now the two mappings share parts, so that they no longer
stand apart. All the same a second merge of the two changes nothing, not a single object: it puts
what is there, or merges mappings of which the first has taken in the second.

That it stays so until the merge has come to its last key, is because the later keys lead to objects
that have nothing in common with those of the earlier ones.
-/

namespace ApiManifest.Store

variable {st st' : Store} {ids : List Nat} {key value : Value} {es tes : List (Value × Value)}
  {target source index d : Nat} {inner : Nat → Nat → Work Unit} {t s : Entries} {S : Nat → Prop}

/-! ## What has been taken in -/

/-- The values are two mappings that are related, or one value that is no mapping. -/
def Meets (st : Store) (related : Nat → Nat → Prop) (v w : Value) : Prop :=
  (∃ old new, v = .ref old ∧ w = .ref new ∧ st.isMapping old = true ∧ st.isMapping new = true ∧
    related old new) ∨ v = w ∧ ∀ id, v = .ref id → st.isMapping id = false

/-- The target has taken in the source, down to some levels of mappings: at each key of the source
it has the value there, or a mapping that has taken in the one there. -/
def Absorbed (st : Store) : (levels : Nat) → (target source : Nat) → Prop
  | 0, _, _ => False
  | levels + 1, target, source => ∃ old new, st.entries? (.ref target) = some old ∧
      st.entries? (.ref source) = some new ∧ ∀ e ∈ new, ∃ v, st.find? e.1 old = some v ∧
        st.Meets (Absorbed st levels) v e.2

theorem put_of_find? (h : st.find? key es = some value) : st.put key value es = es := by
  induction es with
  | nil => cases h
  | cons e rest ih =>
      rw [find?] at h
      rw [put]
      split at h
      · rename_i hsame
        cases h
        rw [if_pos hsame]
      · rename_i hdiff
        rw [if_neg hdiff, ih h]

theorem update_self (hes : st.entries? (.ref target) = some es) :
    st.update target (.map es) = st := by
  refine Agree.eq (S := fun _ => True) ⟨by simp [update], fun id _ => ?_⟩ fun _ => trivial
  rw [cells_update]
  split
  · rename_i heq
    subst heq
    have hcell := entries?_ref.mp hes
    rw [hcell, if_pos (Array.getElem?_eq_some_iff.mp hcell).1]
  · rfl

/-- Merging an entry that has been taken in changes nothing. -/
theorem mergeEntry_of_meets {related : Nat → Nat → Prop} {v : Value}
    (hinner : ∀ old new, related old new → Returns (inner old new) st () st)
    (hes : st.entries? (.ref target) = some es) (hfind : st.find? key es = some v)
    (hmeets : st.Meets related v value) :
    Returns (mergeEntry inner target key value) st () st := by
  rcases outcome_mergeEntry_cases inner key value hes with
    ⟨old, new, hfound, rfl, hold, hnew, houtcome⟩ | ⟨hclash, houtcome⟩
  · cases hfind.symm.trans hfound
    rcases hmeets with ⟨_, _, heq, heq', _, _, hrelated⟩ | ⟨_, hno⟩
    · cases heq
      cases heq'
      exact houtcome.trans (hinner old new hrelated)
    · rw [hno old rfl] at hold
      cases hold
  · rcases hmeets with ⟨old, new, rfl, rfl, hold, hnew, _⟩ | ⟨rfl, _⟩
    · rcases hclash old new hfind rfl with hno | hno
      · rw [hno] at hold
        cases hold
      · rw [hno] at hnew
        cases hnew
    · rw [put_of_find? hfind, update_self hes] at houtcome
      exact houtcome

/-- **Merging what has been taken in changes nothing.** -/
theorem Absorbed.returns {levels : Nat} (h : st.Absorbed levels target source) :
    Returns (mergeTo levels target source) st () st := by
  induction levels generalizing target source with
  | zero => exact h.elim
  | succ levels ih =>
      obtain ⟨old, new, hold, hnew, hall⟩ := h
      have hentries : ∀ left index, index + left = new.length →
          Returns (mergeEntries (mergeTo levels) target source new.length left index) st () st := by
        intro left
        induction left with
        | zero =>
            intro index _
            unfold Returns
            rw [outcome_mergeEntries_zero, hnew, Option.getD_some, if_pos rfl]
        | succ left ihleft =>
            intro index hleft
            have hlt : index < new.length := by omega
            obtain ⟨v, hfind, hmeets⟩ := hall new[index] (List.getElem_mem hlt)
            unfold Returns
            rw [outcome_mergeEntries_succ, hnew, Option.getD_some, if_pos rfl,
              List.getElem?_eq_getElem hlt]
            refine Returns.bind_iff.mpr ⟨(), st, ?_, ihleft (index + 1) (by omega)⟩
            exact mergeEntry_of_meets (fun _ _ => ih) hold hfind hmeets
      unfold Returns
      rw [outcome_mergeTo_succ, hnew, Option.getD_some]
      exact hentries new.length 0 (Nat.zero_add _)

theorem Meets.mono {related related' : Nat → Nat → Prop} {v w : Value}
    (hkind : st'.isMapping = st.isMapping)
    (hrelated : ∀ old new, v = .ref old → w = .ref new → related old new → related' old new)
    (h : st.Meets related v w) : st'.Meets related' v w := by
  rcases h with ⟨old, new, rfl, rfl, hold, hnew, hmeet⟩ | ⟨rfl, hno⟩
  · exact .inl ⟨old, new, rfl, rfl, by rw [hkind]; exact hold, by rw [hkind]; exact hnew,
      hrelated old new rfl rfl hmeet⟩
  · exact .inr ⟨rfl, fun id hid => by rw [hkind]; exact hno id hid⟩

/-- A value meets itself, if the object of a mapping is related to itself. -/
theorem meets_self {related : Nat → Nat → Prop} {v : Value}
    (h : ∀ id, v = .ref id → st.isMapping id = true → related id id) : st.Meets related v v := by
  by_cases hmapping : ∃ id, v = .ref id ∧ st.isMapping id = true
  · obtain ⟨id, hid, hm⟩ := hmapping
    exact .inl ⟨id, id, hid, hid, hm, hm, h id hid hm⟩
  · exact .inr ⟨rfl, fun id hid => Bool.eq_false_iff.mpr fun hm => hmapping ⟨id, hid, hm⟩⟩

/-- What has been taken in still is in a store that agrees on a region with the two. -/
theorem Absorbed.of_agree {levels : Nat} (h : st.Absorbed levels target source)
    (hagree : Agree S st st') (hc : st.Closed S) (hkind : st'.isMapping = st.isMapping)
    (htarget : S target) (hsource : S source) : st'.Absorbed levels target source := by
  induction levels generalizing target source with
  | zero => exact h.elim
  | succ levels ih =>
      obtain ⟨old, new, hold, hnew, hall⟩ := h
      refine ⟨old, new, ?_, ?_, fun e he => ?_⟩
      · rw [hagree.entries? (v := .ref target) htarget]
        exact hold
      · rw [hagree.entries? (v := .ref source) hsource]
        exact hnew
      · obtain ⟨v, hfind, hmeets⟩ := hall e he
        have hold' := hc.entries htarget hold
        have hnew' := hc.entries hsource hnew e he
        refine ⟨v, by rw [hagree.find? hc hnew'.1 hold']; exact hfind, hmeets.mono hkind ?_⟩
        rintro i j rfl hj hmeet
        obtain ⟨k, hmem, _⟩ := find?_mem hfind
        rw [hj] at hnew'
        exact ih hmeet (hold' _ hmem).2 hnew'.2

/-! ## A mapping takes in itself -/

theorem entryTrees_cons (st : Store) (e : Value × Value) (es : List (Value × Value)) :
    st.entryTrees (e :: es) = (st.tree e.1, st.tree e.2) :: st.entryTrees es := rfl

theorem isSoundKey_of_entry (hkeyed : (st.entryTrees es).Keyed) {e : Value × Value} (he : e ∈ es) :
    (st.tree e.1).isSoundKey = true := hkeyed.sound _ (List.mem_map_of_mem he)

/-- A mapping has at its keys what its entries say. -/
theorem find?_of_entry (hkeyed : (st.entryTrees es).Keyed) (hes : st.EntriesPresent es)
    {e : Value × Value} (he : e ∈ es) : st.find? e.1 es = some e.2 := by
  induction es with
  | nil => cases he
  | cons first rest ih =>
      have hsound := isSoundKey_of_entry hkeyed he
      obtain ⟨hpresent, hrest⟩ := List.forall_mem_cons.mp hes
      rw [entryTrees_cons] at hkeyed
      obtain ⟨hfirst, hnew, _, hkeyed'⟩ := Entries.Keyed.cons_iff.mp hkeyed
      rcases List.mem_cons.mp he with rfl | hmem
      · rw [find?, sameKey_eq_tree hpresent.1 hpresent.1 hsound, Tree.sameKey_self hsound,
          if_pos rfl]
      · rw [find?, sameKey_eq_tree (hrest _ hmem).1 hpresent.1 hsound,
          Tree.sameKey_comm hsound hfirst,
          hnew _ (List.mem_map_of_mem hmem), if_neg Bool.false_ne_true]
        exact ih hkeyed' hrest hmem

/-- A mapping with different keys has taken in itself. -/
theorem absorbed_self (hsep : st.Separate [target]) (ht : st.tree (.ref target) = .map t)
    (hkt : t.Keyed) (hd : st.Shallow (.ref target) d) : st.Absorbed (d + 1) target target := by
  induction d generalizing target t with
  | zero =>
      obtain ⟨es, hes⟩ := entries?_of_tree ht
      have hone : es = [] ∧ outcome (mergeTo 1 target target) st = (.ok (), st) :=
        outcome_mergeTo_one hes hd
      obtain ⟨rfl, -⟩ := hone
      exact ⟨[], [], hes, hes, by simp⟩
  | succ d ih =>
      obtain ⟨es, hes⟩ := entries?_of_tree ht
      have htrees := tree_of_unshared (hsep.unshared _ List.mem_cons_self) hes
      obtain rfl : st.entryTrees es = t := Tree.map.inj (htrees.symm.trans ht)
      refine ⟨es, es, hes, hes, fun e he =>
        ⟨e.2, find?_of_entry hkt (hsep.entriesPresent hes) he, ?_⟩⟩
      obtain ⟨hparts, -⟩ := (separate_cons_iff (entries?_ref.mp hes)).mp hsep
      -- each value that is a mapping has taken in itself, one level further down
      refine meets_self fun id hid hm => ?_
      obtain ⟨t', ht'⟩ := Tree.isMap_iff.mp ((isMap_tree st id).trans hm)
      have hvalue := hkt.values _ (List.mem_map_of_mem he)
      dsimp only at hvalue
      rw [hid, ht'] at hvalue
      have hmem : id ∈ (Cell.map es).objects :=
        Cell.mem_objects_iff.mpr (List.mem_flatMap.mpr ⟨e, he, by simp [hid]⟩)
      have hbelow := hd.valueOf hes e he
      rw [hid] at hbelow
      have hsingle : st.Separate [id] := hparts.subperm
        ((List.singleton_sublist.mpr (List.mem_append_left _ hmem)).subperm)
      exact ih hsingle ht' (Entries.isKeyed_map_iff.mp hvalue) hbelow

/-! ## Keys are not changed -/

/-- What is no mapping, and has no mapping in it, is never changed: so sound keys keep their
trees. -/
theorem Writes.treeTo_of_soundKey (hw : Writes S st st') (depth : Nat) {v : Value}
    (h : (st.treeTo depth v).isSoundKey = true) : st'.treeTo depth v = st.treeTo depth v := by
  induction depth generalizing v with
  | zero => cases v <;> rfl
  | succ depth ih =>
      cases v with
      | scalar x => rfl
      | ref id =>
          -- a sound key is no mapping, and only mappings are written
          have hkind : st.isMapping id = false := by
            unfold Store.isMapping Store.entries?
            rw [cell?_ref]
            rw [treeTo] at h
            cases hcell : st.cells[id]? with
            | none => rfl
            | some cell =>
                rw [hcell] at h
                cases cell with
                | map es => cases h
                | _ => rfl
          have hsame := hw.others id hkind
          rw [treeTo] at h
          rw [treeTo, treeTo, hsame]
          cases hcell : st.cells[id]? with
          | none => rfl
          | some cell =>
              rw [hcell] at h
              cases cell with
              | tuple items =>
                  refine congrArg Tree.tuple (List.map_congr_left fun x hx => ih ?_)
                  exact Tree.isSoundKey_of_mem h (List.mem_map_of_mem hx)
              | date d => rfl
              | dateTime t => rfl
              | _ => cases h

theorem Writes.tree_of_soundKey (hw : Writes S st st') {v : Value}
    (h : (st.tree v).isSoundKey = true) : st'.tree v = st.tree v := by
  unfold tree at h ⊢
  rw [hw.size, hw.treeTo_of_soundKey _ h]

theorem Writes.sameKey (hw : Writes S st st') {a b : Value} (ha : (st.tree a).isSoundKey = true)
    (hb : (st.tree b).isSoundKey = true) : st'.sameKey a b = st.sameKey a b := by
  cases a with
  | scalar x => exact sameKey_scalar st' st x b
  | ref i =>
      cases b with
      | scalar y => rfl
      | ref j => rw [sameKey_ref, sameKey_ref, hw.tree_of_soundKey ha, hw.tree_of_soundKey hb]

/-- A key finds the same in entries with sound keys after a change. -/
theorem Writes.find?_of_soundKeys (hw : Writes S st st') (hkey : (st.tree key).isSoundKey = true)
    (hes : ∀ e ∈ es, (st.tree e.1).isSoundKey = true) : st'.find? key es = st.find? key es := by
  induction es with
  | nil => rfl
  | cons e rest ih =>
      obtain ⟨hfirst, hrest⟩ := List.forall_mem_cons.mp hes
      rw [Store.find?, Store.find?, hw.sameKey hkey hfirst, ih hrest]

/-! ## What later keys leave alone -/

theorem mem_objects_of_entry {k : Value} {id : Nat} (h : (k, .ref id) ∈ es) :
    id ∈ (Cell.map es).objects :=
  Cell.mem_objects_iff.mpr (List.mem_flatMap.mpr ⟨_, h, by simp⟩)

/-- An object is the value of one entry at most if none stands at two places. -/
theorem key_unique (hnodup : (Cell.map es).objects.Nodup) {k k' : Value} {id : Nat}
    (h : (k, .ref id) ∈ es) (h' : (k', .ref id) ∈ es) : k = k' := by
  induction es with
  | nil => cases h
  | cons e rest ih =>
      rcases e with ⟨first, x⟩
      rw [Cell.objects_map_cons] at hnodup
      obtain ⟨-, hnodup', -⟩ := List.nodup_append.mp hnodup
      obtain ⟨-, hrest, happart⟩ := List.nodup_append.mp hnodup'
      rcases List.mem_cons.mp h with heq | hmem <;> rcases List.mem_cons.mp h' with heq' | hmem'
      · cases heq
        cases heq'
        rfl
      · cases heq
        exact absurd rfl (happart id List.mem_cons_self id (mem_objects_of_entry hmem'))
      · cases heq'
        exact absurd rfl (happart id List.mem_cons_self id (mem_objects_of_entry hmem))
      · exact ih hrest hmem hmem'

theorem sameKey_comm {a b : Value} (ha : st.Present a) (hb : st.Present b)
    (hsa : (st.tree a).isSoundKey = true) (hsb : (st.tree b).isSoundKey = true) :
    st.sameKey a b = st.sameKey b a := by
  rw [sameKey_eq_tree ha hb hsa, sameKey_eq_tree hb ha hsb, Tree.sameKey_comm hsa hsb]

/-- Keys that are not the same find different objects. -/
theorem ne_of_find? {a b : Value} {i j : Nat} (hes : st.EntriesPresent es)
    (hkeyed : (st.entryTrees es).Keyed) (hnodup : (Cell.map es).objects.Nodup)
    (ha : st.Present a) (hb : st.Present b) (hsa : (st.tree a).isSoundKey = true)
    (hsb : (st.tree b).isSoundKey = true) (hdiff : st.sameKey a b = false)
    (hfa : st.find? a es = some (.ref i)) (hfb : st.find? b es = some (.ref j)) : i ≠ j := by
  rintro rfl
  obtain ⟨k, hmem, hka⟩ := find?_mem hfa
  obtain ⟨k', hmem', hkb⟩ := find?_mem hfb
  obtain rfl := key_unique hnodup hmem hmem'
  have hsk := isSoundKey_of_entry hkeyed hmem
  have hk := (hes _ hmem).1
  rw [sameKey_eq_tree ha hk hsa] at hka
  rw [sameKey_eq_tree hb hk hsb] at hkb
  rw [sameKey_eq_tree ha hb hsa, Tree.sameKey_congr hsa hsk hsb hka, Tree.sameKey_comm hsk hsb, hkb]
    at hdiff
  cases hdiff

/-- Merging an entry changes the target, and what stands in two mappings that meet. -/
theorem mergeEntry_frame (hwithin : ∀ S, MergesWithin S inner)
    (hes : st.entries? (.ref target) = some es)
    (hsep : st.Separate (target :: (key.objects ++ value.objects))) (htarget : ¬ S target)
    (hfound : ∀ old new, st.find? key es = some (.ref old) → value = .ref new →
      ∀ id, S id → ¬ st.Reached [old, new] id)
    (hreturns : Returns (mergeEntry inner target key value) st () st') :
    Agree S st st' ∧ ∃ es', st'.entries? (.ref target) = some es' ∧
      (es' = es ∨ es' = st.put key value es) := by
  have hcell := entries?_ref.mp hes
  rcases outcome_mergeEntry_cases inner key value hes with
    ⟨old, new, hfind, rfl, hold, hnew, houtcome⟩ | ⟨-, houtcome⟩
  · have hmerge : Returns (inner old new) st () st' := houtcome.symm.trans hreturns
    have hw := writes_of_returns (hwithin (st.Reached [old, new])) (reached_of_mem (by simp))
      (reached_of_mem (by simp)) hold (closed_reached st _) hmerge
    obtain ⟨k, hmem, _⟩ := find?_mem hfind
    obtain ⟨-, hself⟩ := (separate_cons_iff hcell).mp hsep
    have hsub : [old, new] ⊆ (Cell.map es).objects ++ (key.objects ++ [new]) := by
      simp [mem_objects_of_entry hmem]
    refine ⟨hw.agree fun id hid hr => hfound old new hfind rfl id hid hr, es, ?_, .inl rfl⟩
    exact entries?_ref.mpr ((hw.frame target fun h => hself (h.mono hsub)).trans hcell)
  · cases houtcome.symm.trans hreturns
    refine ⟨⟨by simp [update], fun id hid => ?_⟩, st.put key value es, ?_, .inr rfl⟩
    · rw [cells_update, if_neg]
      rintro rfl
      exact htarget hid
    · rw [entries?_ref, cells_update, if_pos rfl, if_pos (Array.getElem?_eq_some_iff.mp hcell).1]

/-- Another key finds the same after an entry was put. -/
theorem find?_put_of_diff {other : Value} (hes : st.EntriesPresent es)
    (hkeyed : (st.entryTrees es).Keyed) (hkey : st.Present key) (hother : st.Present other)
    (hsk : (st.tree key).isSoundKey = true) (hso : (st.tree other).isSoundKey = true)
    (hdiff : st.sameKey other key = false) :
    st.find? other (st.put key value es) = st.find? other es := by
  induction es with
  | nil => simp [put, find?, hdiff]
  | cons e rest ih =>
      rcases e with ⟨first, x⟩
      obtain ⟨hfirst, hrest⟩ := List.forall_mem_cons.mp hes
      have hsf := isSoundKey_of_entry hkeyed List.mem_cons_self
      rw [entryTrees_cons] at hkeyed
      obtain ⟨-, -, -, hkeyed'⟩ := Entries.Keyed.cons_iff.mp hkeyed
      rw [put]
      split
      · rename_i hsame
        have hfirstDiff : st.sameKey other first = false := by
          rw [sameKey_eq_tree hother hfirst.1 hso]
          rw [sameKey_eq_tree hkey hfirst.1 hsk] at hsame
          rw [sameKey_eq_tree hother hkey hso] at hdiff
          rw [Tree.sameKey_comm hso hsf, ← Tree.sameKey_congr hsk hsf hso hsame,
            Tree.sameKey_comm hsk hso, hdiff]
        rw [find?, find?, hfirstDiff, if_neg Bool.false_ne_true, if_neg Bool.false_ne_true]
      · rw [find?, find?, ih hrest hkeyed']

theorem writes_mergeEntry (hwithin : ∀ S, MergesWithin S inner)
    (hm : st.isMapping target = true)
    (hreturns : Returns (mergeEntry inner target key value) st () st') :
    Writes (fun _ => True) st st' := by
  have hin (v : Value) : v.In fun _ => True := by cases v <;> trivial
  have hw := (mergeEntry_within (hwithin fun _ => True) trivial hm (hin key) (hin value)
    (fun _ _ _ _ v _ => hin v) (.refl _ st)).writes
  rwa [hreturns] at hw

theorem writes_mergeEntries {count left index : Nat} (hwithin : ∀ S, MergesWithin S inner)
    (hm : st.isMapping target = true)
    (hreturns : Returns (mergeEntries inner target source count left index) st () st') :
    Writes (fun _ => True) st st' := by
  have hclosed : st.Closed fun _ => True := fun _ _ _ _ v _ => by cases v <;> trivial
  have hwithin' : Alike (fun _ => True) (mergeEntries inner target source count left index) st st :=
    mergeEntries_within (hwithin _) trivial trivial left index hm hclosed (.refl _ st)
  have hw := hwithin'.writes
  rwa [hreturns] at hw

section

variable (hwithin : ∀ S, MergesWithin S inner) (hes : st.entries? (.ref target) = some es)
  (hkeyed : (st.entryTrees es).Keyed)
  (hsep : st.Separate (target :: (key.objects ++ value.objects)))
  (hsound : (st.tree key).isSoundKey = true)
  (hreturns : Returns (mergeEntry inner target key value) st () st')

include hwithin hes hkeyed hsep hsound hreturns

/-- After an entry was merged, the keys of the target still are sound. -/
theorem soundKeys_after_mergeEntry {es' : List (Value × Value)}
    (hes' : st'.entries? (.ref target) = some es') :
    ∀ e ∈ es', (st.tree e.1).isSoundKey = true := by
  obtain ⟨-, found, hfound, hcases⟩ := mergeEntry_frame (S := fun _ => False) hwithin hes hsep id
    (fun _ _ _ _ _ h => h.elim) hreturns
  cases hes'.symm.trans hfound
  intro e he
  rcases hcases with rfl | rfl
  · exact isSoundKey_of_entry hkeyed he
  · rcases mem_put he with hold | ⟨-, heq | ⟨v, hold⟩⟩
    · exact isSoundKey_of_entry hkeyed hold
    · exact heq ▸ hsound
    · exact isSoundKey_of_entry (e := (e.1, v)) hkeyed hold

/-- After an entry was merged, other keys find in the target what they found before. -/
theorem find?_after_mergeEntry {other : Value} (hother : st.Present other)
    (hso : (st.tree other).isSoundKey = true) (hdiff : st.sameKey other key = false)
    {es' : List (Value × Value)} (hes' : st'.entries? (.ref target) = some es') :
    st'.find? other es' = st.find? other es := by
  have hm : st.isMapping target = true := by unfold isMapping; rw [hes]; rfl
  have hw := writes_mergeEntry hwithin hm hreturns
  have hkey : st.Present key := hsep.presentValue fun id hid => by simp [hid]
  obtain ⟨-, found, hfound, hcases⟩ := mergeEntry_frame (S := fun _ => False) hwithin hes hsep id
    (fun _ _ _ _ _ h => h.elim) hreturns
  cases hes'.symm.trans hfound
  rw [hw.find?_of_soundKeys hso
    (soundKeys_after_mergeEntry hwithin hes hkeyed hsep hsound hreturns hes')]
  rcases hcases with rfl | rfl
  · rfl
  · exact find?_put_of_diff (hsep.entriesPresent hes) hkeyed hkey hother hsound hso hdiff

/-- After an entry was merged, what other keys find in the target is as it was. -/
theorem agree_after_mergeEntry {other : Value} (hother : st.Present other)
    (hso : (st.tree other).isSoundKey = true) (hdiff : st.sameKey other key = false) {old : Nat}
    (hfind : st.find? other es = some (.ref old)) : Agree (st.Reached [old]) st st' := by
  obtain ⟨hparts, hself⟩ := (separate_cons_iff (entries?_ref.mp hes)).mp hsep
  have hkey : st.Present key := hsep.presentValue fun id hid => by simp [hid]
  obtain ⟨k, hmem, _⟩ := find?_mem hfind
  have hold := mem_objects_of_entry hmem
  refine (mergeEntry_frame hwithin hes hsep
    (fun h => hself (h.mono (by simp [hold]))) (fun o n hfound hvalue id hid hr => ?_) hreturns).1
  subst hvalue
  obtain ⟨k', hmem', _⟩ := find?_mem hfound
  have hne : old ≠ o := ne_of_find? (hsep.entriesPresent hes) hkeyed
    (separate_append_iff.mp hparts).1.nodup hother hkey hso hsound hdiff hfind hfound
  exact apart_of_value hes (mem_objects_of_entry hmem') hold hne hsep id hr hid

end

/-- A region that merging the rest of the entries does not touch: the target is not in it, and it
has nothing in common with the rest, nor with what the keys of the rest find in the target. -/
structure Clear (st : Store) (S : Nat → Prop) (target : Nat) (es rest : List (Value × Value)) :
    Prop where
  closed : st.Closed S
  target : ¬ S target
  apart : ∀ id, S id → ¬ st.Reached (Cell.map rest).objects id
  found : ∀ e ∈ rest, ∀ old, st.find? e.1 es = some (.ref old) →
    ∀ id, S id → ¬ st.Reaches (.ref old) id

/-- The target's entries have sound and different keys. -/
theorem MergeableTrees.keyedTarget (h : st.MergeableTrees target source es index d t)
    (htes : st.entries? (.ref target) = some tes) : (st.entryTrees tes).Keyed := by
  have htrees := tree_of_unshared (h.separate.unshared _ List.mem_cons_self) htes
  exact Tree.map.inj (htrees.symm.trans h.tree) ▸ h.keyed

/-- The rest has nothing in common with the entry whose turn it is, nor with the target. -/
theorem MergeableTrees.apart_rest (h : st.MergeableTrees target source es index d t)
    (hentry : es[index]? = some (key, value)) :
    ∀ id, st.Reached (target :: (key.objects ++ value.objects)) id →
      ¬ st.Reached (Cell.map (es.drop (index + 1))).objects id := by
  have hsep := h.separate
  rw [drop_entry hentry, Cell.objects_map_cons, ← List.append_assoc, ← List.cons_append] at hsep
  exact (separate_append_iff.mp hsep).2.2

theorem MergeableTrees.sound_key (h : st.MergeableTrees target source es index d t)
    (hentry : es[index]? = some (key, value)) :
    st.Present key ∧ (st.tree key).isSoundKey = true := by
  have hks := h.keyedRest
  rw [entryTrees_drop st hentry] at hks
  exact ⟨(h.entry hentry).1.presentValue fun id hid => by simp [hid],
    (Entries.Keyed.cons_iff.mp hks).1⟩

/-- The keys of the rest are others than the key whose turn it is. -/
theorem MergeableTrees.other_key (h : st.MergeableTrees target source es index d t)
    (hentry : es[index]? = some (key, value)) {e : Value × Value} (he : e ∈ es.drop (index + 1)) :
    st.Present e.1 ∧ (st.tree e.1).isSoundKey = true ∧ st.sameKey e.1 key = false := by
  have hks := h.keyedRest
  rw [entryTrees_drop st hentry] at hks
  obtain ⟨hsound, hnew, _, hrest⟩ := Entries.Keyed.cons_iff.mp hks
  have hso := isSoundKey_of_entry hrest he
  have hkey : st.Present key := (h.entry hentry).1.presentValue fun id hid => by simp [hid]
  have hmem : e ∈ es.drop index := drop_entry hentry ▸ List.mem_cons_of_mem _ he
  have hother : st.Present e.1 := h.separate.presentValue fun id hid =>
    List.mem_cons_of_mem _ (List.mem_flatMap.mpr
      ⟨e.1, List.mem_flatMap.mpr ⟨e, hmem, by simp⟩, hid⟩)
  refine ⟨hother, hso, ?_⟩
  rw [sameKey_eq_tree hother hkey hso, Tree.sameKey_comm hso hsound]
  exact hnew _ (List.mem_map_of_mem he)

section

variable (hwithin : ∀ S, MergesWithin S inner)
  (h : st.MergeableTrees target source es index d t)
  (hentry : es[index]? = some (key, value)) (htes : st.entries? (.ref target) = some tes)
  (hreturns : Returns (mergeEntry inner target key value) st () st')
  (hagree : Agree (st.Reached (Cell.map (es.drop (index + 1))).objects) st st')

include hwithin h hentry htes hreturns hagree

/-- After one entry a region is as clear of the rest as it was. -/
theorem Clear.after (hclear : st.Clear S target tes (es.drop (index + 1)))
    (hclosed : st'.Closed S) {tes' : List (Value × Value)}
    (htes' : st'.entries? (.ref target) = some tes') :
    st'.Clear S target tes' (es.drop (index + 1)) := by
  obtain ⟨hsep, -⟩ := h.entry hentry
  have hkeyed := h.keyedTarget htes
  obtain ⟨-, hsound⟩ := h.sound_key hentry
  refine ⟨hclosed, hclear.target, fun id hid hr => ?_, fun e he old hfind id hid hr => ?_⟩
  · exact hclear.apart id hid (hagree.reached_iff.mp hr)
  · obtain ⟨hother, hso, hdiff⟩ := h.other_key hentry he
    rw [find?_after_mergeEntry hwithin htes hkeyed hsep hsound hreturns hother hso hdiff
      htes'] at hfind
    have hkept :=
      agree_after_mergeEntry hwithin htes hkeyed hsep hsound hreturns hother hso hdiff hfind
    refine hclear.found e he old hfind id hid ?_
    exact reached_singleton_iff.mp (hkept.reached_iff.mp (reached_singleton_iff.mpr hr))

/-- One entry leaves a clear region alone, and clear. -/
theorem Clear.step (hclear : st.Clear S target tes (es.drop index)) :
    Agree S st st' ∧ ∃ tes', st'.entries? (.ref target) = some tes' ∧
      st'.Clear S target tes' (es.drop (index + 1)) := by
  obtain ⟨hsep, -⟩ := h.entry hentry
  rw [drop_entry hentry] at hclear
  have hfound : ∀ old new, st.find? key tes = some (.ref old) → value = .ref new →
      ∀ id, S id → ¬ st.Reached [old, new] id := by
    rintro old new hfind rfl id hid ⟨root, hroot, hr⟩
    rcases List.mem_cons.mp hroot with rfl | hroot
    · exact hclear.found _ List.mem_cons_self root hfind id hid hr
    · rw [List.mem_singleton.mp hroot] at hr
      exact hclear.apart id hid ⟨new, mem_objects_of_entry List.mem_cons_self, hr⟩
  obtain ⟨hagreeS, tes', htes', -⟩ :=
    mergeEntry_frame hwithin htes hsep hclear.target hfound hreturns
  have hrest : st.Clear S target tes (es.drop (index + 1)) := by
    refine ⟨hclear.closed, hclear.target, fun id hid hr => hclear.apart id hid (hr.mono ?_),
      fun e he => hclear.found e (List.mem_cons_of_mem _ he)⟩
    rw [Cell.objects_map_cons, ← List.append_assoc]
    exact List.subset_append_right _ _
  exact ⟨hagreeS, tes', htes', hrest.after hwithin h hentry htes hreturns hagree
    (hclear.closed.of_agree hagreeS) htes'⟩

end

section

variable (hgrafts : Grafts inner d) (hinner : GraftsTrees inner d)
  (hwithin : ∀ S, MergesWithin S inner)

include hgrafts hinner hwithin

/-- **Merging the rest of the entries leaves a clear region alone,** and what other keys find. -/
theorem mergeEntries_clear (left index : Nat) (h : st.MergeableTrees target source es index d t)
    (hleft : index + left = es.length) (htes : st.entries? (.ref target) = some tes)
    (hclear : st.Clear S target tes (es.drop index))
    (hreturns : Returns (mergeEntries inner target source es.length left index) st () st') :
    Agree S st st' := by
  induction left generalizing index st t tes with
  | zero =>
      unfold Returns at hreturns
      rw [outcome_mergeEntries_zero, h.entries, Option.getD_some, if_pos rfl] at hreturns
      cases hreturns
      exact .refl S _
  | succ left ih =>
      obtain ⟨⟨key, value⟩, hentry⟩ : ∃ entry, es[index]? = some entry :=
        ⟨_, List.getElem?_eq_getElem (by omega)⟩
      obtain ⟨st₁, hfirst, h₁, hagree⟩ := h.step hgrafts hinner hwithin hentry
      obtain ⟨hagreeS, tes₁, htes₁, hclear₁⟩ := hclear.step hwithin h hentry htes hfirst hagree
      have hrest := ih (index + 1) h₁ (by omega) htes₁ hclear₁
        (mergeEntries_tail h.entries hentry hfirst hreturns)
      exact hagreeS.trans hrest

/-- Merging the rest of the entries leaves alone what other keys find. -/
theorem mergeEntries_find? (left index : Nat) (h : st.MergeableTrees target source es index d t)
    (hleft : index + left = es.length) (htes : st.entries? (.ref target) = some tes)
    {other : Value} (hother : st.Present other) (hso : (st.tree other).isSoundKey = true)
    (hdiff : ∀ e ∈ es.drop index, st.sameKey other e.1 = false)
    (hreturns : Returns (mergeEntries inner target source es.length left index) st () st') :
    ∃ tes', st'.entries? (.ref target) = some tes' ∧ st'.find? other tes' = st.find? other tes := by
  induction left generalizing index st t tes with
  | zero =>
      unfold Returns at hreturns
      rw [outcome_mergeEntries_zero, h.entries, Option.getD_some, if_pos rfl] at hreturns
      cases hreturns
      exact ⟨tes, htes, rfl⟩
  | succ left ih =>
      obtain ⟨⟨key, value⟩, hentry⟩ : ∃ entry, es[index]? = some entry :=
        ⟨_, List.getElem?_eq_getElem (by omega)⟩
      obtain ⟨st₁, hfirst, h₁, hagree⟩ := h.step hgrafts hinner hwithin hentry
      obtain ⟨hsep, -⟩ := h.entry hentry
      have hks := h.keyedRest
      rw [entryTrees_drop st hentry] at hks
      obtain ⟨hsound, _, _, hrest⟩ := Entries.Keyed.cons_iff.mp hks
      rw [drop_entry hentry] at hdiff
      obtain ⟨hfirstDiff, hrestDiff⟩ := List.forall_mem_cons.mp hdiff
      -- the first entry writes mappings only, so that the other key stays what it is
      have hw := writes_mergeEntry hwithin h.mapping hfirst
      obtain ⟨tes₁, hcell⟩ := isMapping_iff.mp h₁.mapping
      have htes₁ := entries?_ref.mpr hcell
      obtain ⟨tes', htes', hfind⟩ := ih (index + 1) h₁ (by omega) htes₁
        (hother.mono fun id hid => by rw [hw.size]; exact hid)
        (by rw [hw.tree_of_soundKey hso]; exact hso)
        (fun e he => by
          rw [hw.sameKey hso (isSoundKey_of_entry hrest he)]
          exact hrestDiff e he)
        (mergeEntries_tail h.entries hentry hfirst hreturns)
      refine ⟨tes', htes', hfind.trans ?_⟩
      exact find?_after_mergeEntry hwithin htes (h.keyedTarget htes) hsep hsound hfirst hother hso
        hfirstDiff htes₁

end

/-- Merging entries leaves the mapping that they are taken from. -/
theorem mergeEntries_source (hgrafts : Grafts inner d) (hwithin : ∀ S, MergesWithin S inner)
    (left index : Nat) (h : st.Mergeable target source es index d)
    (hleft : index + left = es.length)
    (hreturns : Returns (mergeEntries inner target source es.length left index) st () st') :
    st'.entries? (.ref source) = some es := by
  induction left generalizing index st with
  | zero =>
      unfold Returns at hreturns
      rw [outcome_mergeEntries_zero, h.entries, Option.getD_some, if_pos rfl] at hreturns
      cases hreturns
      exact h.entries
  | succ left ih =>
      obtain ⟨⟨key, value⟩, hentry⟩ : ∃ entry, es[index]? = some entry :=
        ⟨_, List.getElem?_eq_getElem (by omega)⟩
      obtain ⟨st₁, hfirst, h₁, -, -⟩ := h.step hgrafts hwithin hentry
      exact ih (index + 1) h₁ (by omega) (mergeEntries_tail h.entries hentry hfirst hreturns)

/-! ## After a merge -/

/-- Merges of mappings that stand apart leave the target having taken in the source, if this one is
not deeper than that. -/
def Absorbing (inner : Nat → Nat → Work Unit) (d : Nat) : Prop :=
  ∀ (target source : Nat) (st st' : Store) (t s : Entries), st.Separate [target, source] →
    st.tree (.ref target) = .map t → st.tree (.ref source) = .map s → t.Keyed → s.Keyed →
    st.Shallow (.ref source) d → Returns (inner target source) st () st' →
    st'.Absorbed (d + 1) target source

theorem find?_put_of_soundKey (hkey : st.Present key) (hsound : (st.tree key).isSoundKey = true) :
    st.find? key (st.put key value es) = some value := by
  induction es with
  | nil =>
      have hself : st.sameKey key key = true :=
        (sameKey_eq_tree hkey hkey hsound).trans (Tree.sameKey_self hsound)
      simp [put, find?, hself]
  | cons e rest ih =>
      rw [put]
      split
      · rename_i hsame
        rw [find?, if_pos hsame]
      · rename_i hdiff
        rw [find?, if_neg hdiff, ih]

/-- What two mappings reach of which one is found in the target, is clear of the later keys. -/
theorem clear_of_inner {old new : Nat} (h : st.MergeableTrees target source es index d t)
    (hentry : es[index]? = some (key, .ref new)) (htes : st.entries? (.ref target) = some tes)
    (hfind : st.find? key tes = some (.ref old)) :
    st.Clear (st.Reached [old, new]) target tes (es.drop (index + 1)) := by
  obtain ⟨hsep, -⟩ := h.entry hentry
  obtain ⟨hparts, hself⟩ := (separate_cons_iff (entries?_ref.mp htes)).mp hsep
  obtain ⟨hkey, hsound⟩ := h.sound_key hentry
  obtain ⟨k, hmem, _⟩ := find?_mem hfind
  have hold := mem_objects_of_entry hmem
  have hsub : [old, new] ⊆ (Cell.map tes).objects ++ (key.objects ++ [new]) := by simp [hold]
  refine ⟨closed_reached st _, fun hr => hself (hr.mono hsub), fun id hid => ?_, ?_⟩
  · exact h.apart_rest hentry id ((reached_cons_iff (entries?_ref.mp htes)).mpr
      (.inr (hid.mono hsub)))
  · intro e he o hfound id hid hr
    obtain ⟨hother, hso, hdiff⟩ := h.other_key hentry he
    obtain ⟨k', hmem', _⟩ := find?_mem hfound
    have hne : o ≠ old := ne_of_find? (hsep.entriesPresent htes) (h.keyedTarget htes)
      (separate_append_iff.mp hparts).1.nodup hother hkey hso hsound hdiff hfound hfind
    exact apart_of_value htes hold (mem_objects_of_entry hmem') hne hsep id hid
      (reached_singleton_iff.mpr hr)

/-- What the value of an entry reaches is clear of the later keys. -/
theorem clear_of_value (h : st.MergeableTrees target source es index d t)
    (hentry : es[index]? = some (key, value)) (htes : st.entries? (.ref target) = some tes) :
    st.Clear (st.Reached value.objects) target tes (es.drop (index + 1)) := by
  obtain ⟨hsep, -⟩ := h.entry hentry
  obtain ⟨hparts, hself⟩ := (separate_cons_iff (entries?_ref.mp htes)).mp hsep
  obtain ⟨-, -, happart⟩ := separate_append_iff.mp hparts
  have hsub : value.objects ⊆ key.objects ++ value.objects := List.subset_append_right _ _
  refine ⟨closed_reached st _, fun hr => hself (hr.mono fun id hid => by simp [hid]),
    fun id hid => ?_, fun e _ o hfound id hid hr => ?_⟩
  · exact h.apart_rest hentry id (hid.mono fun id hid => by simp [hid])
  · obtain ⟨k, hmem, _⟩ := find?_mem hfound
    exact happart id ⟨o, mem_objects_of_entry hmem, hr⟩ (hid.mono hsub)

/-- A mapping of the target that meets the value of an entry takes it in. -/
theorem absorbed_of_inner {old new : Nat} (hinner : Absorbing inner d)
    (h : st.MergeableTrees target source es index d t) (hentry : es[index]? = some (key, .ref new))
    (htes : st.entries? (.ref target) = some tes) (hfind : st.find? key tes = some (.ref old))
    (hold : st.isMapping old = true) (hnew : st.isMapping new = true)
    (hreturns : Returns (inner old new) st () st') : st'.Absorbed (d + 1) old new := by
  obtain ⟨hsep, hdeep⟩ := h.entry hentry
  have hks := h.keyedRest
  rw [entryTrees_drop st hentry] at hks
  obtain ⟨hsound, _, hvalue, _⟩ := Entries.Keyed.cons_iff.mp hks
  have hkey : st.Present key := hsep.presentValue fun id hid => by simp [hid]
  obtain ⟨k, hmem, _⟩ := find?_mem hfind
  obtain ⟨told, htold⟩ := Tree.isMap_iff.mp ((isMap_tree st old).trans hold)
  obtain ⟨snew, hsnew⟩ := Tree.isMap_iff.mp ((isMap_tree st new).trans hnew)
  have hlookup := find?_entryTrees hkey (hsep.entriesPresent htes) hsound
  rw [hfind, Option.map_some, htold] at hlookup
  rw [hsnew] at hvalue
  exact hinner old new st st' told snew (separate_pair htes hmem hsep) htold hsnew
    (Entries.keyed_of_find? (h.keyedTarget htes) hlookup) (Entries.isKeyed_map_iff.mp hvalue) hdeep
    hreturns

/-- A value has taken in itself, also in a store that agrees on what it reaches. -/
theorem meets_absorbed_self (hsep : st.Separate value.objects)
    (hkeyed : (st.tree value).isKeyed = true) (hdeep : st.Shallow value d)
    (hagree : Agree (st.Reached value.objects) st st') (hmaps : st'.isMapping = st.isMapping) :
    st'.Meets (Absorbed st' (d + 1)) value value := by
  refine meets_self fun id hid hm => ?_
  subst hid
  rw [hmaps] at hm
  obtain ⟨s, hs⟩ := Tree.isMap_iff.mp ((isMap_tree st id).trans hm)
  rw [hs] at hkeyed
  have hself := absorbed_self hsep hs (Entries.isKeyed_map_iff.mp hkeyed) hdeep
  have hin : st.Reached [id] id := reached_of_mem List.mem_cons_self
  exact hself.of_agree hagree (closed_reached st _) hmaps hin hin

/-- What a mapping has at a key after the entry of this key was merged has taken in the value, and
both stand in a region that is clear of the later keys. -/
theorem meets_after_mergeEntry (hwithin : ∀ S, MergesWithin S inner) (hinner : Absorbing inner d)
    (h : st.MergeableTrees target source es index d t) (hentry : es[index]? = some (key, value))
    (htes : st.entries? (.ref target) = some tes)
    (hreturns : Returns (mergeEntry inner target key value) st () st')
    (hagree : Agree (st.Reached (Cell.map (es.drop (index + 1))).objects) st st')
    {tes' : List (Value × Value)} (htes' : st'.entries? (.ref target) = some tes') :
    ∃ v, st'.find? key tes' = some v ∧ st'.Meets (Absorbed st' (d + 1)) v value ∧
      ∃ S : Nat → Prop, v.In S ∧ value.In S ∧ st'.Clear S target tes' (es.drop (index + 1)) := by
  obtain ⟨hsep, hdeep⟩ := h.entry hentry
  have hkeyed := h.keyedTarget htes
  have hks := h.keyedRest
  rw [entryTrees_drop st hentry] at hks
  obtain ⟨hsound, _, hvalue, _⟩ := Entries.Keyed.cons_iff.mp hks
  have hkey : st.Present key := hsep.presentValue fun id hid => by simp [hid]
  have hwhole := writes_mergeEntry hwithin h.mapping hreturns
  have hkept := hwhole.find?_of_soundKeys hsound
    (soundKeys_after_mergeEntry hwithin htes hkeyed hsep hsound hreturns htes')
  rcases outcome_mergeEntry_cases inner key value htes with
    ⟨old, new, hfind, rfl, hold, hnew, houtcome⟩ | ⟨-, houtcome⟩
  · -- two mappings meet, and the one in the target takes in the other one
    have hmerge : Returns (inner old new) st () st' := houtcome.symm.trans hreturns
    have hclear := clear_of_inner h hentry htes hfind
    have hw := writes_of_returns (hwithin (st.Reached [old, new])) (reached_of_mem (by simp))
      (reached_of_mem (by simp)) hold (closed_reached st _) hmerge
    have habsorbed := absorbed_of_inner hinner h hentry htes hfind hold hnew hmerge
    obtain rfl : tes' = tes := Option.some.inj (htes'.symm.trans
      (entries?_ref.mpr ((hw.frame target hclear.target).trans (entries?_ref.mp htes))))
    refine ⟨.ref old, hkept.trans hfind, .inl ⟨old, new, rfl, rfl, ?_, ?_, habsorbed⟩,
      st.Reached [old, new], ref_in_reached (by simp), ref_in_reached (by simp),
      hclear.after hwithin h hentry htes hreturns hagree hw.closed htes'⟩
    · rw [hw.isMapping]
      exact hold
    · rw [hw.isMapping]
      exact hnew
  · -- the value itself is put there
    cases houtcome.symm.trans hreturns
    have hclear := clear_of_value h hentry htes
    have hagree' : Agree (st.Reached value.objects) st
        (st.update target (.map (st.put key value tes))) := by
      refine ⟨by simp [update], fun id hid => ?_⟩
      rw [cells_update, if_neg]
      rintro rfl
      exact hclear.target hid
    obtain rfl : tes' = st.put key value tes := by
      have hlt := (Array.getElem?_eq_some_iff.mp (entries?_ref.mp htes)).1
      rw [entries?_ref, cells_update, if_pos rfl, if_pos hlt] at htes'
      cases htes'
      rfl
    refine ⟨value, hkept.trans (find?_put_of_soundKey hkey hsound), ?_, _,
      in_reached (List.Subset.refl _), in_reached (List.Subset.refl _),
      hclear.after hwithin h hentry htes hreturns hagree (hclear.closed.of_agree hagree') htes'⟩
    have halone : st.Separate value.objects :=
      hsep.subperm ((List.sublist_append_right _ _).cons _).subperm
    exact meets_absorbed_self halone hvalue hdeep hagree' hwhole.isMapping

section

variable (hgrafts : Grafts inner d) (hinner : GraftsTrees inner d)
  (hwithin : ∀ S, MergesWithin S inner) (habsorbing : Absorbing inner d)

include hgrafts hinner hwithin habsorbing

/-- **Entries that were merged one after the other have all been taken in.** -/
theorem mergeEntries_absorbed (left index : Nat) (h : st.MergeableTrees target source es index d t)
    (hleft : index + left = es.length)
    (hreturns : Returns (mergeEntries inner target source es.length left index) st () st') :
    ∃ tes', st'.entries? (.ref target) = some tes' ∧ ∀ e ∈ es.drop index,
      ∃ v, st'.find? e.1 tes' = some v ∧ st'.Meets (Absorbed st' (d + 1)) v e.2 := by
  obtain ⟨tes, hcell⟩ := isMapping_iff.mp h.mapping
  have htes := entries?_ref.mpr hcell
  induction left generalizing index st t tes with
  | zero =>
      unfold Returns at hreturns
      rw [outcome_mergeEntries_zero, h.entries, Option.getD_some, if_pos rfl] at hreturns
      cases hreturns
      have hnone : es.drop index = [] := List.drop_eq_nil_of_le (by omega)
      exact ⟨tes, htes, by simp [hnone]⟩
  | succ left ih =>
      obtain ⟨⟨key, value⟩, hentry⟩ : ∃ entry, es[index]? = some entry :=
        ⟨_, List.getElem?_eq_getElem (by omega)⟩
      obtain ⟨st₁, hfirst, h₁, hagree⟩ := h.step hgrafts hinner hwithin hentry
      have hmore := mergeEntries_tail h.entries hentry hfirst hreturns
      obtain ⟨tes₁, hcell₁⟩ := isMapping_iff.mp h₁.mapping
      have htes₁ := entries?_ref.mpr hcell₁
      obtain ⟨tes', htes', hrest⟩ := ih (index + 1) h₁ (by omega) hmore tes₁ hcell₁ htes₁
      refine ⟨tes', htes', ?_⟩
      rw [drop_entry hentry]
      refine List.forall_mem_cons.mpr ⟨?_, hrest⟩
      -- what the later entries leave alone: the value found at the key, and the key itself
      obtain ⟨v, hfind, hmeets, S, hv, hvalue, hclear⟩ :=
        meets_after_mergeEntry hwithin habsorbing h hentry htes hfirst hagree htes₁
      have hkept := mergeEntries_clear hgrafts hinner hwithin left (index + 1) h₁ (by omega) htes₁
        hclear hmore
      have hw := writes_mergeEntry hwithin h.mapping hfirst
      have hw' := writes_mergeEntries hwithin h₁.mapping hmore
      obtain ⟨hkey, hsound⟩ := h.sound_key hentry
      have hsound₁ : (st₁.tree key).isSoundKey = true := by
        rw [hw.tree_of_soundKey hsound]
        exact hsound
      obtain ⟨_, hfound, hsame⟩ := mergeEntries_find? hgrafts hinner hwithin left (index + 1) h₁
        (by omega) htes₁ (hkey.mono fun id hid => by rw [hw.size]; exact hid) hsound₁
        (fun e he => by
          obtain ⟨hother, hso, hdiff⟩ := h.other_key hentry he
          rw [hw.sameKey hsound hso, sameKey_comm hkey hother hsound hso, hdiff])
        hmore
      cases htes'.symm.trans hfound
      refine ⟨v, hsame.trans hfind, hmeets.mono hw'.isMapping ?_⟩
      rintro old new rfl rfl habsorbed
      exact habsorbed.of_agree hkept hclear.closed hw'.isMapping hv hvalue

end

theorem Absorbing.mergeTo_succ {depth : Nat} (hgrafts : Grafts (mergeTo depth) d)
    (hinner : GraftsTrees (mergeTo depth) d) (h : Absorbing (mergeTo depth) d) :
    Absorbing (mergeTo (depth + 1)) (d + 1) := by
  intro target source st st' t s hsep ht hs hkt hks hd hreturns
  obtain ⟨es, hmergeable, rfl⟩ := mergeableTrees_of_separate hsep ht hs hkt hks hd
  have hwithin (S : Nat → Prop) := mergeTo_within S depth
  unfold Returns at hreturns
  rw [outcome_mergeTo_succ, hmergeable.entries, Option.getD_some] at hreturns
  obtain ⟨tes', htes', hall⟩ :=
    mergeEntries_absorbed hgrafts hinner hwithin h es.length 0 hmergeable (Nat.zero_add _) hreturns
  -- the source has lost nothing, as it is no part of what was written
  have hsource : st'.entries? (.ref source) = some es :=
    mergeEntries_source hgrafts hwithin es.length 0 hmergeable.toMergeable (Nat.zero_add _) hreturns
  exact ⟨tes', es, htes', hsource, hall⟩

theorem absorbing_mergeTo_one : Absorbing (mergeTo 1) 0 := by
  intro target source st st' t s _ ht hs _ _ hd hreturns
  obtain ⟨es, hes⟩ := entries?_of_tree hs
  obtain ⟨tes, htes⟩ := entries?_of_tree ht
  have hone : es = [] ∧ outcome (mergeTo 1 target source) st = (.ok (), st) :=
    outcome_mergeTo_one hes hd
  obtain ⟨rfl, houtcome⟩ := hone
  cases houtcome.symm.trans hreturns
  exact ⟨tes, [], htes, hes, by simp⟩

theorem absorbing_mergeTo (d : Nat) : Absorbing (mergeTo (d + 1)) d := by
  induction d with
  | zero => exact absorbing_mergeTo_one
  | succ d ih => exact ih.mergeTo_succ (grafts_mergeTo d) (graftsTrees_mergeTo d)

/-- **To merge the same in place again changes nothing,** if the two mappings stood apart at
first. -/
theorem merge_again (hsep : st.Separate [target, source]) (ht : st.tree (.ref target) = .map t)
    (hs : st.tree (.ref source) = .map s) (hkt : t.Keyed) (hks : s.Keyed)
    (hreturns : Returns (merge target source) st () st') :
    Returns (merge target source) st' () st' := by
  have hm : st.isMapping target = true := by rw [← isMap_tree, ht]; rfl
  have hmsource : st.isMapping source = true := by rw [← isMap_tree, hs]; rfl
  have hdeep : st.Shallow (.ref source) st.cells.size := fun p part hp =>
    (hsep.unshared source (by simp)).length_le hp
  have hw := writes_of_returns (merge_within fun _ => True) trivial trivial hm
    (fun _ _ _ _ v _ => by cases v <;> trivial) hreturns
  have habsorbed := absorbing_mergeTo st.cells.size target source st st' t s hsep ht hs hkt hks
    hdeep ((outcome_merge target source st).symm.trans hreturns)
  unfold Returns
  rw [outcome_merge, hw.size]
  exact habsorbed.returns

end ApiManifest.Store
