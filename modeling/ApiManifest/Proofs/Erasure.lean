import ApiManifest.Proofs.Parts

/-!
# Erasing fields

What a toggle adds to a document are fields of certain records. To compare documents apart from such
fields, they are erased. This file shows that erasing can be done before a merge as well as after
it, and that it only takes away meetings of objects: if the objects in the fields that are erased
are in one region and all others are in another one, erasing drops the meetings of the first region
and keeps those of the second.
-/

namespace ApiManifest

/-- Which fields are erased from a part: none, or those of a record that are not kept, and from
those that are kept what is erased from them in turn. -/
inductive Erasure where
  | nothing
  | record (kept : String → Bool) (inner : String → Erasure)

/-- The fields that are kept, each with what becomes of it. -/
def eraseFields (kept : String → Bool) (erase : String → Node → Node) :
    List (String × Node) → Fields Node
  | [] => []
  | (name, part) :: rest =>
    if kept name then (name, erase name part) :: eraseFields kept erase rest
    else eraseFields kept erase rest

/-- A part without the fields that are erased. -/
def Erasure.of : Erasure → Node → Node
  | .record kept inner, .map fields => .map (eraseFields kept (fun name => (inner name).of) fields)
  | _, part => part

/-- Fields without what is erased from a record of them. -/
def Erasure.ofFields : Erasure → Fields Node → Fields Node
  | .record kept inner, fields => eraseFields kept (fun name => (inner name).of) fields
  | .nothing, fields => fields

theorem Erasure.of_map (e : Erasure) (fields : Fields Node) :
    e.of (.map fields) = .map (e.ofFields fields) := by
  cases e <;> rfl

section

variable {kept : String → Bool} {erase : String → Node → Node}

theorem get?_eraseFields (name : String) (fields : Fields Node) :
    Fields.get? name (eraseFields kept erase fields)
      = if kept name then (Fields.get? name fields).map (erase name) else none := by
  induction fields with
  | nil => simp [eraseFields, Fields.get?]
  | cons entry rest ih =>
      rcases entry with ⟨n, part⟩
      unfold eraseFields
      by_cases hn : n = name
      · subst hn
        by_cases hk : kept n = true <;> simp [hk, Fields.get?, ih]
      · by_cases hk : kept n = true <;> simp [hk, Fields.get?, hn, ih]

theorem eraseFields_put (name : String) (part : Node) (fields : Fields Node) :
    eraseFields kept erase (Fields.put name part fields)
      = if kept name then Fields.put name (erase name part) (eraseFields kept erase fields)
        else eraseFields kept erase fields := by
  induction fields with
  | nil => simp [eraseFields, Fields.put]
  | cons entry rest ih =>
      rcases entry with ⟨n, old⟩
      by_cases hn : n = name
      · subst hn
        by_cases hk : kept n = true <;> simp [hk, Fields.put, eraseFields]
      · by_cases hk : kept name = true <;> by_cases hk' : kept n = true <;>
          simp [hk, hk', Fields.put, eraseFields, hn, ih]

/-- Fields are merged alike before and after the erasure, if what is kept of them is. -/
theorem eraseFields_overlayFields {maps : Nat → Bool}
    (hf : ∀ name target source, kept name = true → erase name (Node.overlay maps target source)
      = Node.overlay maps (erase name target) (erase name source))
    (target : Fields Node) (source : List (String × Node)) :
    eraseFields kept erase (Node.overlayFields maps target source)
      = Node.overlayFields maps (eraseFields kept erase target)
          (eraseFields kept erase source) := by
  induction source generalizing target with
  | nil => rw [eraseFields, Node.overlayFields, Node.overlayFields]
  | cons entry rest ih =>
      rcases entry with ⟨name, part⟩
      rw [Node.overlayFields, ih, eraseFields_put, eraseFields]
      by_cases hk : kept name = true
      · rw [if_pos hk, if_pos hk, Node.overlayFields, get?_eraseFields, if_pos hk]
        cases Fields.get? name target with
        | none => rfl
        | some existing =>
            dsimp only [Option.map_some]
            rw [hf name existing part hk]
      · rw [if_neg hk, if_neg hk]

end

/-- Mappings stay mappings, and objects are not touched. -/
theorem Erasure.blends_of (e : Erasure) (target source : Node) :
    Node.Blends (e.of target) (e.of source) ↔ Node.Blends target source := by
  cases e with
  | nothing => rfl
  | record kept inner => cases target <;> cases source <;> simp [Erasure.of, Node.Blends]

/-- **Erasing commutes with merging.** -/
theorem Erasure.of_overlay (e : Erasure) (maps : Nat → Bool) (target source : Node) :
    e.of (Node.overlay maps target source) = Node.overlay maps (e.of target) (e.of source) := by
  induction e generalizing target source with
  | nothing => simp [Erasure.of]
  | record kept inner ih =>
      cases Node.pairing target source with
      | mappings fields source =>
          rw [Node.overlay, Erasure.of, Erasure.of, Erasure.of, Node.overlay,
            eraseFields_overlayFields fun name target source _ => ih name target source]
      | objects old new =>
          by_cases hboth : (maps old && maps new) = true
          · simp [Node.overlay, Erasure.of, hboth]
          · simp [Node.overlay, Erasure.of, hboth]
      | replaced hneither =>
          rw [Node.overlay_of_not_blends hneither,
            Node.overlay_of_not_blends fun h => hneither ((blends_of _ target source).mp h)]

theorem Erasure.ofFields_overlayFields (e : Erasure) (maps : Nat → Bool)
    (target source : Fields Node) :
    e.ofFields (Node.overlayFields maps target source)
      = Node.overlayFields maps (e.ofFields target) (e.ofFields source) := by
  have h := e.of_overlay maps (.map target) (.map source)
  rw [Node.overlay, of_map, of_map, of_map, Node.overlay] at h
  exact Node.map.inj h

/-! ## Meetings that are dropped -/

/-- Of some meetings of objects, all are kept that are in the region `D`, and those in the region
`E` may be dropped. -/
inductive Thinned (E D : Nat → Prop) : List (Nat × Nat) → List (Nat × Nat) → Prop where
  | nil : Thinned E D [] []
  | keep {pair : Nat × Nat} {pairs kept : List (Nat × Nat)} : D pair.1 → D pair.2 →
      Thinned E D pairs kept → Thinned E D (pair :: pairs) (pair :: kept)
  | drop {pair : Nat × Nat} {pairs kept : List (Nat × Nat)} : E pair.1 → E pair.2 →
      Thinned E D pairs kept → Thinned E D (pair :: pairs) kept

namespace Thinned

variable {E D : Nat → Prop} {pairs pairs' kept kept' : List (Nat × Nat)}

theorem append (h : Thinned E D pairs kept) (h' : Thinned E D pairs' kept') :
    Thinned E D (pairs ++ pairs') (kept ++ kept') := by
  induction h with
  | nil => exact h'
  | keep h₁ h₂ _ ih => exact .keep h₁ h₂ ih
  | drop h₁ h₂ _ ih => exact .drop h₁ h₂ ih

theorem kept_all (h : ∀ pair ∈ pairs, D pair.1 ∧ D pair.2) : Thinned E D pairs pairs := by
  induction pairs with
  | nil => exact .nil
  | cons pair rest ih =>
      obtain ⟨h₁, h₂⟩ := h pair List.mem_cons_self
      exact .keep h₁ h₂ (ih fun p hp => h p (List.mem_cons_of_mem _ hp))

theorem dropped_all (h : ∀ pair ∈ pairs, E pair.1 ∧ E pair.2) : Thinned E D pairs [] := by
  induction pairs with
  | nil => exact .nil
  | cons pair rest ih =>
      obtain ⟨h₁, h₂⟩ := h pair List.mem_cons_self
      exact .drop h₁ h₂ (ih fun p hp => h p (List.mem_cons_of_mem _ hp))

end Thinned

/-- The objects in the fields that are erased are in the region `E`, all others in the region
`D`. -/
def Erasure.Fits (E D : Nat → Prop) : Erasure → Node → Prop
  | .record kept inner, .map fields => ∀ entry ∈ fields,
      if kept entry.1 then (inner entry.1).Fits E D entry.2 else entry.2.In E
  | _, part => part.In D

section

variable {E D : Nat → Prop} {maps : Nat → Bool} {P : String → Node → Prop}
  (ho : ∀ name target source, P name target → P name source →
    P name (Node.overlay maps target source))

include ho

theorem fits_merged {name : String} {part : Node} {target : Fields Node}
    (ht : ∀ entry ∈ target, P entry.1 entry.2) (hpart : P name part) :
    ∀ entry ∈ Fields.put name (match Fields.get? name target with
      | some existing => Node.overlay maps existing part
      | none => part) target, P entry.1 entry.2 := by
  intro entry hentry
  rcases Fields.mem_put hentry with rfl | hold
  · dsimp only
    cases hget : Fields.get? name target with
    | none => exact hpart
    | some existing => exact ho name _ _ (ht _ (Fields.mem_of_get? hget)) hpart
  · exact ht entry hold

theorem fits_overlayFields {target : Fields Node} {source : List (String × Node)}
    (ht : ∀ entry ∈ target, P entry.1 entry.2) (hs : ∀ entry ∈ source, P entry.1 entry.2) :
    ∀ entry ∈ Node.overlayFields maps target source, P entry.1 entry.2 := by
  induction source generalizing target with
  | nil =>
      rw [Node.overlayFields]
      exact ht
  | cons entry rest ih =>
      rw [Node.overlayFields]
      exact ih (fits_merged ho ht (hs entry List.mem_cons_self)) fun e he =>
        hs e (List.mem_cons_of_mem _ he)

variable {kept : String → Bool} {erase : String → Node → Node}
  (hcomm : ∀ name target source, kept name = true → erase name (Node.overlay maps target source)
    = Node.overlay maps (erase name target) (erase name source))
  (hkept : ∀ name target source, kept name = true → P name target → P name source →
    Thinned E D (Node.meetings maps target source)
      (Node.meetings maps (erase name target) (erase name source)))
  (hdropped : ∀ name target source, kept name = false → P name target → P name source →
    Thinned E D (Node.meetings maps target source) [])

include hcomm hkept hdropped

/-- Erasing fields drops the meetings of what is erased. -/
theorem thinned_meetingsFields {target : Fields Node} {source : List (String × Node)}
    (ht : ∀ entry ∈ target, P entry.1 entry.2) (hs : ∀ entry ∈ source, P entry.1 entry.2) :
    Thinned E D (Node.meetingsFields maps target source)
      (Node.meetingsFields maps (eraseFields kept erase target)
        (eraseFields kept erase source)) := by
  -- the fields are merged one after the other, so what the target has become has to fit as well
  induction source generalizing target with
  | nil =>
      simp only [Node.meetingsFields, eraseFields]
      exact .nil
  | cons entry rest ih =>
      rcases entry with ⟨name, part⟩
      have hpart := hs _ List.mem_cons_self
      have hrest := ih (fits_merged ho ht hpart) fun e he => hs e (List.mem_cons_of_mem _ he)
      rw [Node.meetingsFields, eraseFields]
      rw [eraseFields_put] at hrest
      cases hk : kept name with
      | true =>
          rw [if_pos rfl, Node.meetingsFields, get?_eraseFields, if_pos hk]
          rw [if_pos hk] at hrest
          cases hget : Fields.get? name target with
          | none =>
              rw [hget] at hrest
              exact hrest
          | some existing =>
              rw [hget] at hrest
              dsimp only at hrest
              rw [hcomm name existing part hk] at hrest
              exact (hkept name existing part hk (ht _ (Fields.mem_of_get? hget)) hpart).append
                hrest
      | false =>
          rw [if_neg (by simp)]
          rw [if_neg (by simp [hk])] at hrest
          cases hget : Fields.get? name target with
          | none =>
              rw [hget] at hrest
              exact hrest
          | some existing =>
              rw [hget] at hrest
              exact (hdropped name existing part hk (ht _ (Fields.mem_of_get? hget)) hpart).append
                hrest

end

namespace Erasure

variable {E D : Nat → Prop} {maps : Nat → Bool}

theorem Fits.nothing {part : Node} (h : part.In D) : Erasure.nothing.Fits E D part := by
  unfold Fits
  exact h

/-- **What fits an erasure still does when more is merged in.** -/
theorem Fits.overlay {e : Erasure} {target source : Node} (ht : e.Fits E D target)
    (hs : e.Fits E D source) : e.Fits E D (Node.overlay maps target source) := by
  induction e generalizing target source with
  | nothing => exact Node.In.overlay ht hs
  | record kept inner ih =>
      cases Node.pairing target source with
      | mappings fields source =>
          rw [Node.overlay]
          refine fits_overlayFields (P := fun name part =>
            if kept name then (inner name).Fits E D part else part.In E) ?_ ht hs
          intro name target source ht hs
          split
          · rename_i hk
            rw [if_pos hk] at ht hs
            exact ih name ht hs
          · rename_i hk
            rw [if_neg hk] at ht hs
            exact Node.In.overlay ht hs
      | objects old new =>
          rw [Node.overlay]
          split
          · exact ht
          · exact hs
      | replaced hneither =>
          rw [Node.overlay_of_not_blends hneither]
          exact hs

/-- **Erasing only drops meetings**, those of the objects in the fields that are erased. -/
theorem Fits.thinned {e : Erasure} {target source : Node} (ht : e.Fits E D target)
    (hs : e.Fits E D source) : Thinned E D (Node.meetings maps target source)
      (Node.meetings maps (e.of target) (e.of source)) := by
  induction e generalizing target source with
  | nothing =>
      simp only [Erasure.of]
      exact .kept_all (Node.In.meetings ht hs)
  | record kept inner ih =>
      cases Node.pairing target source with
      | mappings fields source =>
          -- a field that is kept is thinned by induction, one that is erased drops its meetings
          rw [Node.meetings, Erasure.of, Erasure.of, Node.meetings]
          refine thinned_meetingsFields (P := fun name part =>
            if kept name then (inner name).Fits E D part else part.In E) ?_ ?_ ?_ ?_ ht hs
          · intro name target source ht hs
            split
            · rename_i hk
              rw [if_pos hk] at ht hs
              exact ht.overlay hs
            · rename_i hk
              rw [if_neg hk] at ht hs
              exact Node.In.overlay ht hs
          · intro name target source _
            exact of_overlay (inner name) maps target source
          · intro name target source hk ht hs
            rw [if_pos hk] at ht hs
            exact ih name ht hs
          · intro name target source hk ht hs
            rw [if_neg (by simp [hk])] at ht hs
            exact .dropped_all (Node.In.meetings ht hs)
      | objects old new =>
          simp only [Erasure.of]
          exact .kept_all (Node.In.meetings ht hs)
      | replaced hneither =>
          rw [Node.meetings_of_not_blends hneither,
            Node.meetings_of_not_blends fun h => hneither ((blends_of _ target source).mp h)]
          exact .nil

theorem Fits.overlayFields {e : Erasure} {target source : Fields Node}
    (ht : e.Fits E D (.map target)) (hs : e.Fits E D (.map source)) :
    e.Fits E D (.map (Node.overlayFields maps target source)) := by
  have h : e.Fits E D (Node.overlay maps (.map target) (.map source)) := ht.overlay hs
  rwa [Node.overlay] at h

theorem Fits.thinnedFields {e : Erasure} {target source : Fields Node}
    (ht : e.Fits E D (.map target)) (hs : e.Fits E D (.map source)) :
    Thinned E D (Node.meetingsFields maps target source)
      (Node.meetingsFields maps (e.ofFields target) (e.ofFields source)) := by
  have h : Thinned E D (Node.meetings maps (.map target) (.map source))
      (Node.meetings maps (e.of (.map target)) (e.of (.map source))) := ht.thinned hs
  rwa [Node.meetings, of_map, of_map, Node.meetings] at h

/-- Without objects there is nothing that could not fit. -/
theorem Fits.of_plain {e : Erasure} {part : Node} (h : part.Plain) : e.Fits E D part := by
  induction e generalizing part with
  | nothing => exact Node.Plain.in h D
  | record kept inner ih =>
      match part, h with
      | .map fields, h =>
          intro entry hentry
          have hpart := (Node.allFields_iff.mp h entry hentry).2
          split
          · exact ih entry.1 hpart
          · exact Node.Plain.in hpart E
      | .leaf v, h => exact Node.Plain.in h D
      | .list items, h => exact Node.Plain.in h D

/-- What is left is in the region of what is kept. -/
theorem Fits.in {e : Erasure} {part : Node} (h : e.Fits E D part) : (e.of part).In D := by
  induction e generalizing part with
  | nothing => exact h
  | record kept inner ih =>
      match part, h with
      | .map fields, h =>
          rw [Erasure.of]
          show Node.AllFields _ _ _
          induction fields with
          | nil => trivial
          | cons entry rest ihrest =>
              rcases entry with ⟨name, part⟩
              have hrest := ihrest fun e he => h e (List.mem_cons_of_mem _ he)
              have hentry := h _ List.mem_cons_self
              unfold eraseFields
              dsimp only at hentry
              split at hentry
              · rename_i hk
                rw [if_pos hk]
                exact ⟨⟨trivial, ih name hentry⟩, hrest⟩
              · rename_i hk
                rw [if_neg hk]
                exact hrest
      | .leaf v, h => exact h
      | .list items, h => exact h

/-- If there is only one region, all objects are in it. -/
theorem Fits.in_of_same {e : Erasure} {part : Node} (h : e.Fits D D part) : part.In D := by
  induction e generalizing part with
  | nothing => exact h
  | record kept inner ih =>
      match part, h with
      | .map fields, h =>
          refine Node.allFields_iff.mpr fun entry hentry => ⟨trivial, ?_⟩
          have hfits := h entry hentry
          split at hfits
          · exact ih entry.1 hfits
          · exact hfits
      | .leaf v, h => exact h
      | .list items, h => exact h

end Erasure

/-! ## Two regions of one store -/

namespace Store

/-- What merging objects of two closed regions apart from each other makes of the store. -/
structure Parted (E D : Nat → Prop) (st st' : Store) : Prop where
  /-- No object is made. -/
  size : st'.cells.size = st.cells.size
  /-- Objects outside both regions stay as they are. -/
  frame : ∀ id, ¬ E id → ¬ D id → st'.cells[id]? = st.cells[id]?
  /-- The first region stays closed. -/
  closedE : st'.Closed E
  /-- The second region stays closed. -/
  closedD : st'.Closed D
  /-- The objects that are mappings stay the same. -/
  maps : st'.isMapping = st.isMapping

variable {E D : Nat → Prop} {st st' st'' : Store}

theorem Parted.refl (hE : st.Closed E) (hD : st.Closed D) : Parted E D st st :=
  ⟨rfl, fun _ _ _ => rfl, hE, hD, rfl⟩

theorem Parted.trans (h : Parted E D st st') (h' : Parted E D st' st'') : Parted E D st st'' where
  size := h'.size.trans h.size
  frame id he hd := (h'.frame id he hd).trans (h.frame id he hd)
  closedE := h'.closedE
  closedD := h'.closedD
  maps := h'.maps.trans h.maps

theorem Parted.symm (h : Parted E D st st') : Parted D E st st' :=
  ⟨h.size, fun id hd he => h.frame id he hd, h.closedD, h.closedE, h.maps⟩

/-- A region stays closed when objects of another one are written. -/
theorem Writes.closed_of_disjoint (h : Writes E st st') (hdisjoint : ∀ id, D id → ¬ E id)
    (hD : st.Closed D) : st'.Closed D := by
  intro id cell hid hcell
  rw [h.frame id (hdisjoint id hid)] at hcell
  exact hD id cell hid hcell

theorem Writes.parted (h : Writes E st st') (hdisjoint : ∀ id, D id → ¬ E id)
    (hD : st.Closed D) : Parted E D st st' :=
  ⟨h.size, fun id he _ => h.frame id he, h.closed, h.closed_of_disjoint hdisjoint hD, h.isMapping⟩

/-- **Merges in one region do not show in the other one.** When some merges return, those of them
that are in the region `D` return as well, from any store that agrees outside the region `E`, and
leave a store that does. -/
theorem mergeAll_thinned (hdisjoint : ∀ id, D id → ¬ E id) {pairs kept : List (Nat × Nat)}
    (ht : Thinned E D pairs kept) {sc : Store} (hE : st.Closed E) (hD : st.Closed D)
    (hm : ∀ pair ∈ pairs, st.isMapping pair.1 = true) (ha : Agree (fun id => ¬ E id) st sc)
    (h : Returns (mergeAll pairs) st () st') :
    Parted E D st st' ∧ ∃ sc', Returns (mergeAll kept) sc () sc' ∧
      Agree (fun id => ¬ E id) st' sc' := by
  induction ht generalizing st sc with
  | nil =>
      obtain ⟨_, rfl⟩ := Returns.pure_iff.mp h
      exact ⟨.refl hE hD, sc, rfl, ha⟩
  | @keep pair pairs kept h₁ h₂ _ ih =>
      rcases pair with ⟨target, source⟩
      rw [mergeAll] at h
      obtain ⟨_, st₁, hmerge, hrest⟩ := Returns.bind_iff.mp h
      have haD : Agree D st sc := ha.mono hdisjoint
      have hmap := hm _ List.mem_cons_self
      have hdisjoint' : ∀ id, E id → ¬ D id := fun id he hd => hdisjoint id hd he
      have hleft := merge_within D target source st sc h₁ h₂ hmap hD haD
      have hright := merge_within D target source sc st h₁ h₂
        (by unfold isMapping at hmap ⊢; rwa [haD.entries? (v := .ref target) h₁])
        (hD.of_agree haD) haD.symm
      obtain ⟨hresult, hagree, hwrites⟩ := hleft
      have hwrites' := hright.writes
      have hout : outcome (merge target source) st = (.ok (), st₁) := hmerge
      rcases hc : outcome (merge target source) sc with ⟨result, sc₁⟩
      rw [hout] at hresult hagree hwrites
      rw [hc] at hresult hagree hwrites'
      dsimp only at hresult
      subst hresult
      have hparted := (hwrites.parted (D := E) hdisjoint' hE).symm
      -- outside of both regions neither merge has changed anything
      have hagree₁ : Agree (fun id => ¬ E id) st₁ sc₁ := by
        refine ⟨hagree.size, fun id he => ?_⟩
        by_cases hd : D id
        · exact hagree.cells id hd
        · rw [hwrites.frame id hd, hwrites'.frame id hd]
          exact ha.cells id he
      obtain ⟨hparted', sc', hkept, hagree'⟩ := ih hparted.closedE hparted.closedD
        (fun p hp => by rw [hparted.maps]; exact hm p (List.mem_cons_of_mem _ hp)) hagree₁ hrest
      refine ⟨hparted.trans hparted', sc', ?_, hagree'⟩
      exact Returns.bind_iff.mpr ⟨(), sc₁, hc, hkept⟩
  | @drop pair pairs kept h₁ h₂ _ ih =>
      rcases pair with ⟨target, source⟩
      rw [mergeAll] at h
      obtain ⟨_, st₁, hmerge, hrest⟩ := Returns.bind_iff.mp h
      have hwrites := (merge_within E target source st st h₁ h₂ (hm _ List.mem_cons_self) hE
        (.refl E st)).writes
      rw [show outcome (merge target source) st = (.ok (), st₁) from hmerge] at hwrites
      have hparted := hwrites.parted hdisjoint hD
      -- only the first store was changed, within the region that does not count
      have hagree₁ : Agree (fun id => ¬ E id) st₁ sc :=
        ⟨ha.size.trans hwrites.size.symm, fun id he => (ha.cells id he).trans
          (hwrites.frame id he).symm⟩
      obtain ⟨hparted', hkept⟩ := ih hparted.closedE hparted.closedD
        (fun p hp => by rw [hparted.maps]; exact hm p (List.mem_cons_of_mem _ hp)) hagree₁ hrest
      exact ⟨hparted.trans hparted', hkept⟩

end Store
end ApiManifest
