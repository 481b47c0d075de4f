import ApiManifest.Data.Node
import ApiManifest.Proofs.InPlace
import ApiManifest.Proofs.Lookup

/-!
# Merging parts of a document

Merging two parts of a document does two things at once: it makes a new part, and it merges objects
of the store in place wherever two mappings of the manifest meet. This file separates them. The new
part is an `overlay`, a function of the two parts and of which objects are mappings, and the work on
the store is the list of the `meetings`, one merge after the other.
-/

namespace ApiManifest

/-! ## Several merges in place -/

namespace Store

/-- Merges pairs of mappings in place, the source into the target, one pair after the other. -/
def mergeAll : List (Nat × Nat) → Work Unit
  | [] => pure ()
  | (target, source) :: rest => do
    merge target source
    mergeAll rest

theorem mergeAll_append_iff {l₁ l₂ : List (Nat × Nat)} {st st'' : Store} {u : Unit} :
    Returns (mergeAll (l₁ ++ l₂)) st u st'' ↔
      ∃ st', Returns (mergeAll l₁) st () st' ∧ Returns (mergeAll l₂) st' () st'' := by
  induction l₁ generalizing st with
  | nil =>
      constructor
      · intro h
        exact ⟨st, rfl, h⟩
      · rintro ⟨st', h₁, h₂⟩
        obtain ⟨_, rfl⟩ := Returns.pure_iff.mp h₁
        exact h₂
  | cons pair rest ih =>
      rcases pair with ⟨target, source⟩
      rw [List.cons_append, mergeAll, mergeAll, Returns.bind_iff]
      constructor
      · rintro ⟨_, st₁, h₁, h⟩
        obtain ⟨st', h₂, h₃⟩ := ih.mp h
        exact ⟨st', Returns.bind_iff.mpr ⟨(), st₁, h₁, h₂⟩, h₃⟩
      · rintro ⟨st', h, h₃⟩
        obtain ⟨_, st₁, h₁, h₂⟩ := Returns.bind_iff.mp h
        exact ⟨(), st₁, h₁, ih.mpr ⟨st', h₂, h₃⟩⟩

/-- Merges of mappings of a closed region come to the same in all stores that agree on it. -/
theorem mergeAll_within {S : Nat → Prop} {pairs : List (Nat × Nat)} {st st' : Store}
    (hc : st.Closed S) (h : Agree S st st')
    (hp : ∀ pair ∈ pairs, S pair.1 ∧ S pair.2 ∧ st.isMapping pair.1 = true) :
    Alike S (mergeAll pairs) st st' := by
  induction pairs generalizing st st' with
  | nil => exact alike_of_eq hc h rfl rfl
  | cons pair rest ih =>
      rcases pair with ⟨target, source⟩
      obtain ⟨ht, hs, hm⟩ := hp _ List.mem_cons_self
      exact (merge_within S target source st st' ht hs hm hc h).bind
        fun st₁ st₁' _ hw hagree => ih hw.closed hagree fun p hmem => by
          rw [hw.isMapping]
          exact hp p (List.mem_cons_of_mem _ hmem)

end Store

/-! ## The part that a merge makes, and the objects that it merges -/

namespace Node

mutual

/-- The part that comes of merging a part into another one, when `maps` tells which objects are
mappings: two such objects are merged in place, and the target stays. -/
def overlay (maps : Nat → Bool) (target : Node) : (source : Node) → Node
  | .map source => match target with
    | .map fields => .map (overlayFields maps fields source)
    | _ => .map source
  | .leaf (.ref new) => match target with
    | .leaf (.ref old) => if maps old && maps new then .leaf (.ref old) else .leaf (.ref new)
    | _ => .leaf (.ref new)
  | source => source

/-- The fields that come of merging fields into others. -/
def overlayFields (maps : Nat → Bool) (target : Fields Node) :
    (source : List (String × Node)) → Fields Node
  | [] => target
  | (name, part) :: rest =>
    let part := match Fields.get? name target with
      | some existing => overlay maps existing part
      | none => part
    overlayFields maps (Fields.put name part target) rest

end

mutual

/-- The pairs of objects that are merged in place when a part is merged into another one, in their
order. -/
def meetings (maps : Nat → Bool) (target : Node) : (source : Node) → List (Nat × Nat)
  | .map source => match target with
    | .map fields => meetingsFields maps fields source
    | _ => []
  | .leaf (.ref new) => match target with
    | .leaf (.ref old) => if maps old && maps new then [(old, new)] else []
    | _ => []
  | _ => []

/-- The pairs of objects that are merged in place when fields are merged into others. -/
def meetingsFields (maps : Nat → Bool) (target : Fields Node) :
    (source : List (String × Node)) → List (Nat × Nat)
  | [] => []
  | (name, part) :: rest =>
    match Fields.get? name target with
    | some existing => meetings maps existing part
        ++ meetingsFields maps (Fields.put name (overlay maps existing part) target) rest
    | none => meetingsFields maps (Fields.put name part target) rest

end

/-- The parts are merged: both are mappings of the document, or both are objects. -/
def Blends : (target source : Node) → Prop
  | .map _, .map _ => True
  | .leaf (.ref _), .leaf (.ref _) => True
  | _, _ => False

/-- A list takes the place of whatever is there. -/
theorem not_blends_list (target : Node) (items : List Node) : ¬ Blends target (.list items) := by
  intro h
  match target, h with
  | .leaf (.scalar _), h => exact h
  | .leaf (.ref _), h => exact h

/-- Two parts are both mappings, or both objects, or the new one takes the place of the old one. -/
inductive Pairing : (target source : Node) → Prop where
  | mappings (fields source : Fields Node) : Pairing (.map fields) (.map source)
  | objects (old new : Nat) : Pairing (.leaf (.ref old)) (.leaf (.ref new))
  | replaced {target source : Node} (h : ¬ Blends target source) : Pairing target source

theorem pairing (target source : Node) : Pairing target source := by
  by_cases h : Blends target source
  · match target, source, h with
    | .map fields, .map source, _ => exact .mappings fields source
    | .leaf (.ref old), .leaf (.ref new), _ => exact .objects old new
  · exact .replaced h

section

variable {target source : Node} (h : ¬ Blends target source)

include h

theorem merge_of_not_blends : merge target source = pure source := by
  unfold merge
  split
  · split
    · exact absurd trivial h
    · rfl
  · split
    · exact absurd trivial h
    · rfl
  · rfl

theorem overlay_of_not_blends (maps : Nat → Bool) : overlay maps target source = source := by
  unfold overlay
  split
  · split
    · exact absurd trivial h
    · rfl
  · split
    · exact absurd trivial h
    · rfl
  · rfl

theorem meetings_of_not_blends (maps : Nat → Bool) : meetings maps target source = [] := by
  unfold meetings
  split
  · split
    · exact absurd trivial h
    · rfl
  · split
    · exact absurd trivial h
    · rfl
  · rfl

end

/-- The names of an overlay are those of both parts. -/
theorem mem_names_overlayFields {maps : Nat → Bool} {name : String} {target : Fields Node}
    {source : List (String × Node)} :
    name ∈ Fields.names (overlayFields maps target source) ↔
      name ∈ Fields.names target ∨ name ∈ Fields.names source := by
  induction source generalizing target with
  | nil => simp [overlayFields, Fields.names]
  | cons entry rest ih =>
      rcases entry with ⟨n, part⟩
      rw [overlayFields, ih, Fields.mem_names_put]
      simp only [Fields.names, List.map_cons, List.mem_cons]
      rw [or_assoc, or_left_comm]

theorem nodup_names_overlayFields {maps : Nat → Bool} {target : Fields Node}
    {source : List (String × Node)} (h : (Fields.names target).Nodup) :
    (Fields.names (overlayFields maps target source)).Nodup := by
  induction source generalizing target with
  | nil => rwa [overlayFields]
  | cons entry rest ih =>
      rw [overlayFields]
      exact ih (Fields.nodup_names_put h)

/-- What the source has no part for stays. -/
theorem get?_overlayFields_of_absent {maps : Nat → Bool} {name : String} {target : Fields Node}
    {source : Fields Node} (h : name ∉ Fields.names source) :
    Fields.get? name (overlayFields maps target source) = Fields.get? name target := by
  induction source generalizing target with
  | nil => rw [overlayFields]
  | cons entry rest ih =>
      rcases entry with ⟨n, part⟩
      have hne : name ≠ n := fun heq => h (heq ▸ List.mem_cons_self)
      rw [overlayFields, ih fun hmem => h (List.mem_cons_of_mem _ hmem),
        Fields.get?_put_of_ne hne]

/-- Where no name is there yet, nothing meets. -/
theorem meetingsFields_of_disjoint {maps : Nat → Bool} {target : Fields Node}
    {source : List (String × Node)} (hd : (Fields.names source).Nodup)
    (h : ∀ name ∈ Fields.names source, name ∉ Fields.names target) :
    meetingsFields maps target source = [] := by
  induction source generalizing target with
  | nil => rw [meetingsFields]
  | cons entry rest ih =>
      rcases entry with ⟨name, part⟩
      obtain ⟨hnotin, hrest⟩ := List.nodup_cons.mp hd
      rw [meetingsFields, Fields.get?_eq_none_iff.mpr (h name List.mem_cons_self)]
      refine ih hrest fun other hother hmem => ?_
      rcases Fields.mem_names_put.mp hmem with rfl | hmem
      · exact hnotin hother
      · exact h other (List.mem_cons_of_mem _ hother) hmem

/-- What both have at a name is merged in turn. -/
theorem get?_overlayFields {maps : Nat → Bool} {name : String} {part : Node}
    {target source : Fields Node} (hd : (Fields.names source).Nodup)
    (h : Fields.get? name source = some part) :
    Fields.get? name (overlayFields maps target source)
      = some (match Fields.get? name target with
        | some existing => overlay maps existing part
        | none => part) := by
  induction source generalizing target with
  | nil => simp [Fields.get?] at h
  | cons entry rest ih =>
      rcases entry with ⟨n, first⟩
      obtain ⟨hfirst, hrest⟩ : n ∉ Fields.names rest ∧ (Fields.names rest).Nodup :=
        List.nodup_cons.mp hd
      rw [overlayFields]
      by_cases heq : n = name
      · subst heq
        rw [Fields.get?, if_pos rfl] at h
        cases h
        -- the name comes only once, so what is put now is not touched again
        rw [get?_overlayFields_of_absent hfirst, Fields.get?_put_self]
      · rw [Fields.get?, if_neg heq] at h
        rw [ih hrest h, Fields.get?_put_of_ne (Ne.symm heq)]

/-- What holds of all parts of two records, each under its name, holds of their overlay. -/
theorem overlayFields_induction {maps : Nat → Bool} {P : String → Node → Prop}
    {target source : Fields Node} (hd : (Fields.names source).Nodup)
    (ht : ∀ name part, Fields.get? name target = some part → P name part)
    (hs : ∀ name part, Fields.get? name source = some part → P name part)
    (ho : ∀ name old new, P name old → P name new → P name (overlay maps old new)) :
    ∀ name part, Fields.get? name (overlayFields maps target source) = some part → P name part := by
  intro name part hget
  cases hsource : Fields.get? name source with
  | none =>
      rw [get?_overlayFields_of_absent (Fields.get?_eq_none_iff.mp hsource)] at hget
      exact ht name part hget
  | some new =>
      rw [get?_overlayFields hd hsource] at hget
      cases htarget : Fields.get? name target with
      | none =>
          rw [htarget] at hget
          cases hget
          exact hs name new hsource
      | some old =>
          rw [htarget] at hget
          cases hget
          exact ho name old new (ht name old htarget) (hs name new hsource)

/-- Merging in scalars that are there already changes nothing. -/
theorem overlayFields_eq_self {maps : Nat → Bool} {target : Fields Node}
    {source : List (String × Node)}
    (h : ∀ entry ∈ source, ∃ s, entry.2 = .leaf (.scalar s) ∧
      Fields.get? entry.1 target = some entry.2) : overlayFields maps target source = target := by
  induction source with
  | nil => rw [overlayFields]
  | cons entry rest ih =>
      rcases entry with ⟨name, part⟩
      obtain ⟨s, hpart, hget⟩ := h _ List.mem_cons_self
      dsimp only at hpart hget
      subst hpart
      rw [overlayFields, hget]
      dsimp only
      rw [overlay, Fields.put_eq_self hget]
      · exact ih fun entry hentry => h entry (List.mem_cons_of_mem _ hentry)
      all_goals simp

mutual

/-- The objects that meet are mappings. -/
theorem isMapping_of_meetings {maps : Nat → Bool} : ∀ (target source : Node),
    ∀ pair ∈ meetings maps target source, maps pair.1 = true ∧ maps pair.2 = true
  | target, source => match target, source, pairing target source with
    | _, _, .mappings fields source => isMapping_of_meetingsFields fields source
    | _, _, .objects old new => by
        intro pair h
        rw [meetings] at h
        split at h
        · rename_i hboth
          rw [List.mem_singleton.mp h]
          exact Bool.and_eq_true_iff.mp hboth
        · exact absurd h (by simp)
    | _, _, .replaced hneither => by
        intro pair h
        rw [meetings_of_not_blends hneither] at h
        exact absurd h (by simp)

theorem isMapping_of_meetingsFields {maps : Nat → Bool} :
    ∀ (target : Fields Node) (source : List (String × Node)),
      ∀ pair ∈ meetingsFields maps target source, maps pair.1 = true ∧ maps pair.2 = true
  | target, [], pair, h => absurd h (by simp [meetingsFields])
  | target, (name, part) :: rest, pair, h => by
      rw [meetingsFields] at h
      split at h
      · rename_i existing _
        rcases List.mem_append.mp h with h | h
        · exact isMapping_of_meetings existing part pair h
        · exact isMapping_of_meetingsFields _ rest pair h
      · exact isMapping_of_meetingsFields _ rest pair h

end

/-- Merges of mappings leave the same objects mappings. -/
theorem isMapping_of_mergeAll {pairs : List (Nat × Nat)} {st st' : Store}
    (hp : ∀ pair ∈ pairs, st.isMapping pair.1 = true ∧ st.isMapping pair.2 = true)
    (h : Returns (Store.mergeAll pairs) st () st') : st'.isMapping = st.isMapping := by
  -- the region of all objects is closed, so nothing has to be known of the pairs
  have halike : Store.Alike (fun _ => True) (Store.mergeAll pairs) st st :=
    Store.mergeAll_within (fun _ cell _ _ v _ => by cases v <;> trivial) (.refl _ _)
      fun pair hmem => ⟨trivial, trivial, (hp pair hmem).1⟩
  have hw := halike.writes
  rw [show outcome (Store.mergeAll pairs) st = (.ok (), st') from h] at hw
  exact hw.isMapping

theorem returns_merge_objects {old new : Nat} {st st' : Store} {r : Node} :
    Returns (merge (.leaf (.ref old)) (.leaf (.ref new))) st r st' ↔
      Returns (if st.isMapping old && st.isMapping new then do
        Store.merge old new
        return .leaf (.ref old)
      else return .leaf (.ref new)) st r st' := by
  unfold Returns
  rw [merge, outcome_bind, outcome_get]
  rfl

mutual

/-- **A merge makes the overlay, and merges in place what meets.** -/
theorem merge_iff : ∀ (target source : Node) {st st' : Store} {r : Node},
    Returns (merge target source) st r st' ↔
      overlay st.isMapping target source = r ∧
        Returns (Store.mergeAll (meetings st.isMapping target source)) st () st'
  | target, source, st, st', r => match target, source, pairing target source with
    | _, _, .mappings fields source => by
        rw [merge, Returns.bind_iff, overlay, meetings]
        constructor
        · rintro ⟨fields', st₁, h, h'⟩
          obtain ⟨rfl, rfl⟩ := Returns.pure_iff.mp h'
          obtain ⟨rfl, hm⟩ := (mergeFields_iff fields source).mp h
          exact ⟨rfl, hm⟩
        · rintro ⟨rfl, h⟩
          exact ⟨_, st', (mergeFields_iff fields source).mpr ⟨rfl, h⟩, rfl⟩
    | _, _, .objects old new => by
        rw [returns_merge_objects, overlay, meetings]
        -- the only case that changes the store is that both are mappings
        by_cases hboth : (st.isMapping old && st.isMapping new) = true
        · rw [if_pos hboth, if_pos hboth, if_pos hboth, Returns.bind_iff, Store.mergeAll,
            Returns.bind_iff]
          constructor
          · rintro ⟨_, st₁, hm, hr⟩
            obtain ⟨rfl, rfl⟩ := Returns.pure_iff.mp hr
            exact ⟨rfl, (), st₁, hm, rfl⟩
          · rintro ⟨rfl, _, st₁, hm, hr⟩
            obtain ⟨_, rfl⟩ := Returns.pure_iff.mp hr
            exact ⟨(), st₁, hm, rfl⟩
        · rw [if_neg hboth, if_neg hboth, if_neg hboth, Store.mergeAll, Returns.pure_iff,
            Returns.pure_iff]
          simp
    | _, _, .replaced hneither => by
        rw [merge_of_not_blends hneither, overlay_of_not_blends hneither,
          meetings_of_not_blends hneither, Store.mergeAll, Returns.pure_iff, Returns.pure_iff]
        simp

/-- Merging fields makes their overlay, and merges in place what meets. -/
theorem mergeFields_iff : ∀ (target : Fields Node) (source : List (String × Node))
    {st st' : Store} {r : Fields Node},
    Returns (mergeFields target source) st r st' ↔
      overlayFields st.isMapping target source = r ∧
        Returns (Store.mergeAll (meetingsFields st.isMapping target source)) st () st'
  | target, [], st, st', r => by
      simp [mergeFields, overlayFields, meetingsFields, Store.mergeAll]
  | target, (name, part) :: rest, st, st', r => by
      rw [mergeFields, overlayFields, meetingsFields]
      cases Fields.get? name target with
      | none =>
          dsimp only
          rw [Returns.bind_iff]
          constructor
          · rintro ⟨_, _, hp, h⟩
            obtain ⟨rfl, rfl⟩ := Returns.pure_iff.mp hp
            exact (mergeFields_iff _ rest).mp h
          · intro h
            exact ⟨part, st, rfl, (mergeFields_iff _ rest).mpr h⟩
      | some existing =>
          dsimp only
          rw [Returns.bind_iff]
          constructor
          · rintro ⟨merged, st₁, hp, h⟩
            obtain ⟨rfl, hm⟩ := (merge_iff existing part).mp hp
            -- the rest runs on the store that the first merges left, with the same mappings
            have hmaps := isMapping_of_mergeAll (isMapping_of_meetings existing part) hm
            obtain ⟨hr, hrest⟩ := (mergeFields_iff _ rest).mp h
            rw [hmaps] at hr hrest
            exact ⟨hr, Store.mergeAll_append_iff.mpr ⟨st₁, hm, hrest⟩⟩
          · rintro ⟨hr, h⟩
            obtain ⟨st₁, hm, hrest⟩ := Store.mergeAll_append_iff.mp h
            have hmaps := isMapping_of_mergeAll (isMapping_of_meetings existing part) hm
            refine ⟨_, st₁, (merge_iff existing part).mpr ⟨rfl, hm⟩, ?_⟩
            refine (mergeFields_iff _ rest).mpr ?_
            rw [hmaps]
            exact ⟨hr, hrest⟩

end

end Node
end ApiManifest
