import ApiManifest.Proofs.Region
import ApiManifest.Proofs.Returns

/-!
# Merging in place

What a merge in place can do to the store. Two objects of a closed region are merged by looking at
that region alone and by changing nothing outside; a mapping stays a mapping and loses no key, and
what is no mapping is never changed. So merging does the same in all stores that agree on the
region, which is what makes objects of different regions independent.
-/

namespace ApiManifest.Store

/-- What merging objects of a closed region makes of the store. -/
structure Writes (S : Nat → Prop) (st st' : Store) : Prop where
  /-- No object is made. -/
  size : st'.cells.size = st.cells.size
  /-- Objects outside the region stay as they are. -/
  frame : ∀ id, ¬ S id → st'.cells[id]? = st.cells[id]?
  /-- The region stays closed. -/
  closed : st'.Closed S
  /-- Whatever is no mapping stays as it is. -/
  others : ∀ id, st.isMapping id = false → st'.cells[id]? = st.cells[id]?
  /-- A mapping keeps its keys, in their order. -/
  keys : ∀ id es, st.entries? (.ref id) = some es →
    ∃ es', st'.entries? (.ref id) = some es' ∧ es.map Prod.fst <+: es'.map Prod.fst

theorem Writes.refl {S : Nat → Prop} {st : Store} (hc : st.Closed S) : Writes S st st where
  size := rfl
  frame _ _ := rfl
  closed := hc
  others _ _ := rfl
  keys _ es h := ⟨es, h, List.prefix_rfl⟩

/-- The objects that are mappings stay the same. -/
theorem Writes.isMapping {S : Nat → Prop} {st st' : Store} (h : Writes S st st') :
    st'.isMapping = st.isMapping := by
  funext id
  cases hm : st.isMapping id with
  | false =>
      unfold Store.isMapping at hm ⊢
      unfold Store.entries? at hm ⊢
      rw [cell?_ref] at hm ⊢
      rw [h.others id (by unfold Store.isMapping Store.entries?; rw [cell?_ref]; exact hm)]
      exact hm
  | true =>
      obtain ⟨es, hes⟩ := Option.isSome_iff_exists.mp hm
      obtain ⟨es', hes', _⟩ := h.keys id es hes
      unfold Store.isMapping
      rw [hes']
      rfl

theorem Writes.trans {S : Nat → Prop} {st st' st'' : Store} (h : Writes S st st')
    (h' : Writes S st' st'') : Writes S st st'' where
  size := h'.size.trans h.size
  frame id hid := (h'.frame id hid).trans (h.frame id hid)
  closed := h'.closed
  others id hid := by
    rw [h'.others id (by rw [h.isMapping]; exact hid), h.others id hid]
  keys id es hes := by
    obtain ⟨es', hes', hpre⟩ := h.keys id es hes
    obtain ⟨es'', hes'', hpre'⟩ := h'.keys id es' hes'
    exact ⟨es'', hes'', hpre.trans hpre'⟩

theorem cells_update (st : Store) (target id : Nat) (cell : Cell) :
    (st.update target cell).cells[id]?
      = if target = id then (if id < st.cells.size then some cell else none)
        else st.cells[id]? := by
  unfold update
  rw [Array.getElem?_setIfInBounds]
  split
  · rename_i h
    subst h
    rfl
  · rfl

theorem isMapping_iff {st : Store} {id : Nat} :
    st.isMapping id = true ↔ ∃ es, st.cells[id]? = some (.map es) := by
  unfold isMapping
  rw [Option.isSome_iff_exists]
  exact exists_congr fun es => entries?_ref

/-- Putting an entry of the region into a mapping of it. -/
theorem writes_put {S : Nat → Prop} {st : Store} (hc : st.Closed S) {target : Nat}
    (ht : S target) {es : List (Value × Value)} (hes : st.entries? (.ref target) = some es)
    {key value : Value} (hk : key.In S) (hv : value.In S) :
    Writes S st (st.update target (.map (st.put key value es))) := by
  have hcell := entries?_ref.mp hes
  have hlt : target < st.cells.size := (Array.getElem?_eq_some_iff.mp hcell).1
  have hin : EntriesIn S (st.put key value es) := entriesIn_put (hc.entries ht hes) hk hv
  -- the size, what is outside the region, the region itself, what is no mapping, and the keys
  constructor
  · exact Array.size_setIfInBounds
  · intro id hid
    rw [cells_update, if_neg]
    rintro rfl
    exact hid ht
  · intro id cell hid hcell'
    rw [cells_update] at hcell'
    split at hcell'
    · rename_i h
      subst h
      rw [if_pos hlt] at hcell'
      cases hcell'
      intro v hmem
      obtain ⟨entry, hentry, hv'⟩ := List.mem_flatMap.mp hmem
      rcases List.mem_cons.mp hv' with rfl | hv''
      · exact (hin entry hentry).1
      · rw [List.mem_singleton.mp hv'']
        exact (hin entry hentry).2
    · exact hc id cell hid hcell'
  · intro id hid
    rw [cells_update, if_neg]
    rintro rfl
    rw [isMapping_iff.mpr ⟨es, hcell⟩] at hid
    cases hid
  · intro id es' hes'
    by_cases h : target = id
    · subst h
      rw [hes] at hes'
      cases hes'
      refine ⟨st.put key value es, ?_, keys_put st key value es⟩
      rw [entries?_ref, cells_update, if_pos rfl, if_pos hlt]
    · refine ⟨es', ?_, List.prefix_rfl⟩
      rw [entries?_ref, cells_update, if_neg h]
      exact entries?_ref.mp hes'

/-! ## The steps of a merge -/

theorem outcome_mergeEntry (inner : Nat → Nat → Work Unit) (target : Nat) (key value : Value)
    (st : Store) :
    outcome (mergeEntry inner target key value) st =
      match st.find? key ((st.entries? (.ref target)).getD []), value with
      | some (.ref old), .ref new =>
          if st.isMapping old && st.isMapping new then outcome (inner old new) st
          else (.ok (), st.update target
            (.map (st.put key value ((st.entries? (.ref target)).getD []))))
      | _, _ => (.ok (), st.update target
          (.map (st.put key value ((st.entries? (.ref target)).getD [])))) := by
  unfold mergeEntry
  rw [outcome_bind, outcome_get]
  dsimp only
  cases st.find? key ((st.entries? (.ref target)).getD []) with
  | none => rfl
  | some existing =>
      cases existing with
      | scalar s => rfl
      | ref old =>
          cases value with
          | scalar s => rfl
          | ref new =>
              show outcome (if st.isMapping old && st.isMapping new then inner old new
                else set _) st = _
              dsimp only
              split <;> rfl

theorem outcome_countedEntries (source count : Nat) (st : Store) :
    outcome (countedEntries source count) st =
      if ((st.entries? (.ref source)).getD []).length = count then
        (.ok ((st.entries? (.ref source)).getD []), st)
      else (.error .changedDuringIteration, st) := by
  unfold countedEntries
  rw [outcome_bind, outcome_get]
  dsimp only
  split <;> rfl

theorem outcome_mergeEntries_zero (inner : Nat → Nat → Work Unit)
    (target source count index : Nat) (st : Store) :
    outcome (mergeEntries inner target source count 0 index) st =
      if ((st.entries? (.ref source)).getD []).length = count then (.ok (), st)
      else (.error .changedDuringIteration, st) := by
  rw [mergeEntries, outcome_bind, outcome_countedEntries]
  by_cases h : ((st.entries? (.ref source)).getD []).length = count
  · rw [if_pos h, if_pos h]
    rfl
  · rw [if_neg h, if_neg h]

theorem outcome_mergeEntries_succ (inner : Nat → Nat → Work Unit)
    (target source count left index : Nat) (st : Store) :
    outcome (mergeEntries inner target source count (left + 1) index) st =
      if ((st.entries? (.ref source)).getD []).length = count then
        match ((st.entries? (.ref source)).getD [])[index]? with
        | some (key, value) => outcome (do
            mergeEntry inner target key value
            mergeEntries inner target source count left (index + 1)) st
        | none => (.ok (), st)
      else (.error .changedDuringIteration, st) := by
  rw [mergeEntries, outcome_bind, outcome_countedEntries]
  by_cases h : ((st.entries? (.ref source)).getD []).length = count
  · rw [if_pos h, if_pos h]
    dsimp only
    cases ((st.entries? (.ref source)).getD [])[index]? <;> rfl
  · rw [if_neg h, if_neg h]

theorem outcome_mergeTo_succ (depth target source : Nat) (st : Store) :
    outcome (mergeTo (depth + 1) target source) st =
      outcome (mergeEntries (mergeTo depth) target source
        ((st.entries? (.ref source)).getD []).length
        ((st.entries? (.ref source)).getD []).length 0) st := by
  rw [mergeTo, outcome_bind, outcome_get]

theorem outcome_merge (target source : Nat) (st : Store) :
    outcome (merge target source) st
      = outcome (mergeTo (st.cells.size + 1) target source) st := by
  rw [merge, outcome_bind, outcome_get]

/-! ## Merging stays in its region -/

/-- Work on two stores that agree on a region comes to the same: it has the same result, and leaves
stores that agree on the region. -/
structure Alike (S : Nat → Prop) (work : Work Unit) (st st' : Store) : Prop where
  result : (outcome work st').1 = (outcome work st).1
  agree : Agree S (outcome work st).2 (outcome work st').2
  writes : Writes S st (outcome work st).2

/-- Merging objects of the region, the target being a mapping, comes to the same in all stores
that agree on it. -/
def MergesWithin (S : Nat → Prop) (merge : Nat → Nat → Work Unit) : Prop :=
  ∀ target source st st', S target → S source → st.isMapping target = true → st.Closed S →
    Agree S st st' → Alike S (merge target source) st st'

theorem alike_of_outcome {S : Nat → Prop} {work : Work Unit} {st st' st₁ st₁' : Store}
    {r : Except Error Unit} (h : outcome work st = (r, st₁)) (h' : outcome work st' = (r, st₁'))
    (hagree : Agree S st₁ st₁') (hwrites : Writes S st st₁) : Alike S work st st' := by
  constructor
  · rw [h, h']
  · rw [h, h']
    exact hagree
  · rw [h]
    exact hwrites

/-- Work that comes to the same as other work in both stores is alike if the other is. -/
theorem Alike.of_eq {S : Nat → Prop} {work other : Work Unit} {st st' : Store}
    (h : Alike S other st st') (h₁ : outcome work st = outcome other st)
    (h₂ : outcome work st' = outcome other st') : Alike S work st st' := by
  constructor
  · rw [h₁, h₂]
    exact h.result
  · rw [h₁, h₂]
    exact h.agree
  · rw [h₁]
    exact h.writes

theorem agree_put {S : Nat → Prop} {st st' : Store} (hc : st.Closed S) (h : Agree S st st')
    {target : Nat} (ht : S target) {es : List (Value × Value)}
    (hes : st.entries? (.ref target) = some es) {key value : Value} (hk : key.In S) :
    Agree S (st.update target (.map (st.put key value es)))
      (st'.update target (.map (st'.put key value es))) := by
  constructor
  · unfold update
    rw [Array.size_setIfInBounds, Array.size_setIfInBounds, h.size]
  · intro id hid
    rw [cells_update, cells_update, h.size, h.cells id hid, h.put hc hk (hc.entries ht hes)]

theorem mergeEntry_within {S : Nat → Prop} {inner : Nat → Nat → Work Unit}
    (hinner : MergesWithin S inner) {target : Nat} {key value : Value} {st st' : Store}
    (ht : S target) (hm : st.isMapping target = true) (hk : key.In S) (hv : value.In S)
    (hc : st.Closed S) (h : Agree S st st') :
    Alike S (mergeEntry inner target key value) st st' := by
  obtain ⟨es, hes⟩ := Option.isSome_iff_exists.mp hm
  have hes' : st'.entries? (.ref target) = some es := by
    rw [h.entries? (v := .ref target) ht]
    exact hes
  have hfind : st'.find? key es = st.find? key es := h.find? hc hk (hc.entries ht hes)
  -- the value takes its place in both stores unless two mappings meet
  have hreplace : ∀ {work : Work Unit},
      outcome work st = (.ok (), st.update target (.map (st.put key value es))) →
      outcome work st' = (.ok (), st'.update target (.map (st'.put key value es))) →
      Alike S work st st' := fun h₁ h₂ =>
    alike_of_outcome h₁ h₂ (agree_put hc h ht hes hk) (writes_put hc ht hes hk hv)
  have h₁ := outcome_mergeEntry inner target key value st
  have h₂ := outcome_mergeEntry inner target key value st'
  rw [hes, Option.getD_some] at h₁
  rw [hes', Option.getD_some, hfind] at h₂
  cases hf : st.find? key es with
  | none =>
      rw [hf] at h₁ h₂
      exact hreplace h₁ h₂
  | some existing =>
      rw [hf] at h₁ h₂
      cases existing with
      | scalar s => exact hreplace h₁ h₂
      | ref old =>
          cases value with
          | scalar s => exact hreplace h₁ h₂
          | ref new =>
              obtain ⟨k, hmem, _⟩ := find?_mem hf
              have hold : S old := (hc.entries ht hes _ hmem).2
              have hmaps : ∀ id, S id → st'.isMapping id = st.isMapping id := by
                intro id hid
                unfold isMapping
                rw [h.entries? (v := .ref id) hid]
              dsimp only at h₁ h₂
              rw [hmaps old hold, hmaps new hv] at h₂
              split at h₁
              · rename_i hboth
                rw [if_pos hboth] at h₂
                exact (hinner old new st st' hold hv
                  (Bool.and_eq_true_iff.mp hboth).1 hc h).of_eq h₁ h₂
              · rename_i hboth
                rw [if_neg hboth] at h₂
                exact hreplace h₁ h₂

theorem Alike.bind {S : Nat → Prop} {x : Work Unit} {f : Unit → Work Unit} {st st' : Store}
    (hx : Alike S x st st')
    (hf : ∀ st₁ st₁', outcome x st = (.ok (), st₁) → Writes S st st₁ → Agree S st₁ st₁' →
      Alike S (f ()) st₁ st₁') : Alike S (x >>= f) st st' := by
  obtain ⟨hresult, hagree, hwrites⟩ := hx
  have hb := outcome_bind x f st
  have hb' := outcome_bind x f st'
  -- the first step fails in both stores or in neither
  rcases hout : outcome x st with ⟨e | u, st₁⟩
  · rcases hout' : outcome x st' with ⟨r, st₁'⟩
    rw [hout] at hb hagree hwrites hresult
    rw [hout'] at hb' hagree hresult
    dsimp only at hresult
    subst hresult
    exact alike_of_outcome hb hb' hagree hwrites
  · rcases hout' : outcome x st' with ⟨r, st₁'⟩
    rw [hout] at hb hagree hwrites hresult
    rw [hout'] at hb' hagree hresult
    dsimp only at hresult
    subst hresult
    have hrest := hf st₁ st₁' hout hwrites hagree
    dsimp only at hb hb'
    constructor
    · rw [hb, hb']
      exact hrest.result
    · rw [hb, hb']
      exact hrest.agree
    · rw [hb]
      exact hwrites.trans hrest.writes

theorem alike_of_eq {S : Nat → Prop} {work : Work Unit} {st st' : Store} (hc : st.Closed S)
    (h : Agree S st st') {r : Except Error Unit} (h₁ : outcome work st = (r, st))
    (h₂ : outcome work st' = (r, st')) : Alike S work st st' :=
  alike_of_outcome h₁ h₂ h (.refl hc)

theorem mergeEntries_within {S : Nat → Prop} {inner : Nat → Nat → Work Unit}
    (hinner : MergesWithin S inner) {target source count : Nat} (ht : S target)
    (hs : S source) (left index : Nat) {st st' : Store} (hm : st.isMapping target = true)
    (hc : st.Closed S) (h : Agree S st st') :
    Alike S (mergeEntries inner target source count left index) st st' := by
  induction left generalizing index st st' with
  | zero =>
      have h₁ := outcome_mergeEntries_zero inner target source count index st
      have h₂ := outcome_mergeEntries_zero inner target source count index st'
      rw [h.entries? (v := .ref source) hs] at h₂
      split at h₁
      · rename_i hcount
        rw [if_pos hcount] at h₂
        exact alike_of_eq hc h h₁ h₂
      · rename_i hcount
        rw [if_neg hcount] at h₂
        exact alike_of_eq hc h h₁ h₂
  | succ left ih =>
      have h₁ := outcome_mergeEntries_succ inner target source count left index st
      have h₂ := outcome_mergeEntries_succ inner target source count left index st'
      rw [h.entries? (v := .ref source) hs] at h₂
      split at h₁
      · rename_i hcount
        rw [if_pos hcount] at h₂
        cases hentry : ((st.entries? (.ref source)).getD [])[index]? with
        | none =>
            rw [hentry] at h₁ h₂
            exact alike_of_eq hc h h₁ h₂
        | some entry =>
            rcases entry with ⟨key, value⟩
            rw [hentry] at h₁ h₂
            have hin : key.In S ∧ value.In S := by
              cases hes : st.entries? (.ref source) with
              | none => rw [hes] at hentry; simp at hentry
              | some es =>
                  rw [hes] at hentry
                  exact hc.entries hs hes _ (List.mem_of_getElem? hentry)
            -- the first entry is merged alike, and leaves two stores that agree for the rest
            have hbody : Alike S (do
                mergeEntry inner target key value
                mergeEntries inner target source count left (index + 1)) st st' :=
              (mergeEntry_within hinner ht hm hin.1 hin.2 hc h).bind
                fun st₁ st₁' _ hw hagree => ih (index + 1)
                  (by rw [hw.isMapping]; exact hm) hw.closed hagree
            exact hbody.of_eq h₁ h₂
      · rename_i hcount
        rw [if_neg hcount] at h₂
        exact alike_of_eq hc h h₁ h₂

theorem mergeTo_within (S : Nat → Prop) (depth : Nat) : MergesWithin S (mergeTo depth) := by
  induction depth with
  | zero =>
      -- both runs give up in the same way
      intro target source st st' _ _ _ hc h
      exact alike_of_eq hc h rfl rfl
  | succ depth ih =>
      intro target source st st' ht hs hm hc h
      have h₁ := outcome_mergeTo_succ depth target source st
      have h₂ := outcome_mergeTo_succ depth target source st'
      rw [h.entries? (v := .ref source) hs] at h₂
      generalize ((st.entries? (.ref source)).getD []).length = count at h₁ h₂
      exact (mergeEntries_within ih ht hs count 0 hm hc h).of_eq h₁ h₂

/-- **A merge in place sees and changes only the closed region that its objects are in.** -/
theorem merge_within (S : Nat → Prop) : MergesWithin S merge := by
  intro target source st st' ht hs hm hc h
  have h₁ := outcome_merge target source st
  have h₂ := outcome_merge target source st'
  rw [h.size] at h₂
  -- the depth counts all objects of the store, which are as many in both
  exact (mergeTo_within S (st.cells.size + 1) target source st st' ht hs hm hc h).of_eq h₁ h₂

/-! ## The depth of a merge -/

theorem mergeEntry_mono {inner inner' : Nat → Nat → Work Unit}
    (h : ∀ {a b st st'}, Returns (inner a b) st () st' → Returns (inner' a b) st () st')
    {target : Nat} {key value : Value} {st st' : Store}
    (hentry : Returns (mergeEntry inner target key value) st () st') :
    Returns (mergeEntry inner' target key value) st () st' := by
  unfold Returns at hentry ⊢
  rw [outcome_mergeEntry] at hentry ⊢
  -- only where two mappings meet is the inner merge run
  split at hentry
  · split at hentry
    · rename_i hboth
      rw [if_pos hboth]
      exact h hentry
    · rename_i hboth
      rw [if_neg hboth]
      exact hentry
  · exact hentry

theorem mergeEntries_mono {inner inner' : Nat → Nat → Work Unit}
    (h : ∀ {a b st st'}, Returns (inner a b) st () st' → Returns (inner' a b) st () st')
    {target source count left index : Nat} {st st' : Store}
    (hentries : Returns (mergeEntries inner target source count left index) st () st') :
    Returns (mergeEntries inner' target source count left index) st () st' := by
  induction left generalizing index st with
  | zero =>
      unfold Returns at hentries ⊢
      rw [outcome_mergeEntries_zero] at hentries ⊢
      exact hentries
  | succ left ih =>
      unfold Returns at hentries ⊢
      rw [outcome_mergeEntries_succ] at hentries ⊢
      split at hentries
      · rename_i hcount
        rw [if_pos hcount]
        split at hentries
        · obtain ⟨_, st₁, hfirst, hrest⟩ := Returns.bind_iff.mp hentries
          exact Returns.bind_iff.mpr ⟨(), st₁, mergeEntry_mono h hfirst, ih hrest⟩
        · exact hentries
      · cases hentries

/-- A merge that returns at some depth does the same at every greater one. -/
theorem mergeTo_mono {depth depth' target source : Nat} (hle : depth ≤ depth') {st st' : Store}
    (h : Returns (mergeTo depth target source) st () st') :
    Returns (mergeTo depth' target source) st () st' := by
  induction depth generalizing depth' target source st st' with
  | zero => cases h
  | succ depth ih =>
      obtain ⟨more, rfl⟩ := Nat.exists_eq_add_of_le' hle
      unfold Returns at h ⊢
      rw [outcome_mergeTo_succ] at h
      rw [← Nat.add_assoc, outcome_mergeTo_succ]
      exact mergeEntries_mono (fun hinner => ih (Nat.le_add_left depth more) hinner) h

end ApiManifest.Store
