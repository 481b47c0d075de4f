import ApiManifest.Proofs.Region
import Mathlib.Data.List.Infix

/-!
# Positions

A position is a way down from a value to one of its parts. A value shares nothing if no object
stands at two positions in it. Then what stands below one position and what stands below another one
have no object in common, unless one position is below the other: positions tell regions apart.
-/

namespace ApiManifest

/-- One step down from an object: to a key or a value of a mapping, or to an item. -/
inductive Step where
  | key (entry : Nat)
  | value (entry : Nat)
  | item (index : Nat)
  deriving DecidableEq, Repr

/-- A way down, the first step first. -/
abbrev Position := List Step

/-- The part of an object that a step leads to. -/
def Cell.part? : Cell → Step → Option Value
  | .map entries, .key n => entries[n]?.map Prod.fst
  | .map entries, .value n => entries[n]?.map Prod.snd
  | .list items, .item n | .tuple items, .item n | .set items, .item n => items[n]?
  | _, _ => none

/-- Every part of an object is one step away. -/
theorem Cell.mem_parts_iff {cell : Cell} {v : Value} :
    v ∈ cell.parts ↔ ∃ step, cell.part? step = some v := by
  have hitems : ∀ items : List Value, v ∈ items ↔ ∃ n : Nat, items[n]? = some v :=
    fun items => List.mem_iff_getElem?
  cases cell with
  | date d => simp [parts, part?]
  | dateTime t => simp [parts, part?]
  | list items =>
      refine (hitems items).trans ⟨fun ⟨n, h⟩ => ⟨.item n, h⟩, fun ⟨step, h⟩ => ?_⟩
      cases step <;> first | exact ⟨_, h⟩ | cases h
  | tuple items =>
      refine (hitems items).trans ⟨fun ⟨n, h⟩ => ⟨.item n, h⟩, fun ⟨step, h⟩ => ?_⟩
      cases step <;> first | exact ⟨_, h⟩ | cases h
  | set items =>
      refine (hitems items).trans ⟨fun ⟨n, h⟩ => ⟨.item n, h⟩, fun ⟨step, h⟩ => ?_⟩
      cases step <;> first | exact ⟨_, h⟩ | cases h
  | map es =>
      constructor
      -- keys and values of a mapping alternate among its parts, but have steps of their own
      · intro h
        obtain ⟨⟨key, value⟩, hmem, hv⟩ := List.mem_flatMap.mp h
        obtain ⟨n, hn⟩ := List.mem_iff_getElem?.mp hmem
        rcases List.mem_cons.mp hv with rfl | hv
        · exact ⟨.key n, by simp [part?, hn]⟩
        · rw [List.mem_singleton.mp hv]
          exact ⟨.value n, by simp [part?, hn]⟩
      · rintro ⟨step, h⟩
        cases step with
        | key n =>
            obtain ⟨entry, hentry, rfl⟩ := Option.map_eq_some_iff.mp h
            exact List.mem_flatMap.mpr ⟨entry, List.mem_of_getElem? hentry, by simp⟩
        | value n =>
            obtain ⟨entry, hentry, rfl⟩ := Option.map_eq_some_iff.mp h
            exact List.mem_flatMap.mpr ⟨entry, List.mem_of_getElem? hentry, by simp⟩
        | item n => cases h

namespace Store

/-- What stands at a position in a value. -/
def at? (st : Store) : Value → Position → Option Value
  | v, [] => some v
  | v, step :: rest => ((st.cell? v).bind (·.part? step)).bind fun part => st.at? part rest

/-- The object stands somewhere in the value, or is the value. -/
def Reaches (st : Store) (v : Value) (id : Nat) : Prop := ∃ p, st.at? v p = some (.ref id)

/-- No object stands at two positions in the value. -/
def Unshared (st : Store) (v : Value) : Prop :=
  ∀ p q id, st.at? v p = some (.ref id) → st.at? v q = some (.ref id) → p = q

/-- The objects that stand at some positions in a value, or below them. -/
def Under (st : Store) (v : Value) (slots : Position → Prop) (id : Nat) : Prop :=
  ∃ p q, slots p ∧ st.at? v (p ++ q) = some (.ref id)

variable {st : Store} {v part : Value} {p q : Position}

theorem at?_append (st : Store) (v : Value) (p q : Position) :
    st.at? v (p ++ q) = (st.at? v p).bind fun part => st.at? part q := by
  induction p generalizing v with
  | nil => rfl
  | cons step rest ih =>
      rw [List.cons_append, at?, at?]
      cases (st.cell? v).bind (·.part? step) with
      | none => rfl
      | some part => exact ih part

theorem at?_append_of (h : st.at? v p = some part) (q : Position) :
    st.at? v (p ++ q) = st.at? part q := by
  rw [at?_append, h]
  rfl

theorem at?_single {step : Step} :
    st.at? v [step] = some part ↔ ∃ cell, st.cell? v = some cell ∧ cell.part? step = some part := by
  simp [at?, Option.bind_eq_some_iff]

theorem at?_value {es : List (Value × Value)} (hes : st.entries? v = some es) (n : Nat) :
    st.at? v [.value n] = es[n]?.map Prod.snd := by
  cases v with
  | scalar s => cases hes
  | ref id =>
      rw [entries?_ref] at hes
      rw [at?, cell?_ref, hes]
      cases h : es[n]? <;> simp [Cell.part?, at?, h]

theorem at?_key {es : List (Value × Value)} (hes : st.entries? v = some es) (n : Nat) :
    st.at? v [.key n] = es[n]?.map Prod.fst := by
  cases v with
  | scalar s => cases hes
  | ref id =>
      rw [entries?_ref] at hes
      rw [at?, cell?_ref, hes]
      cases h : es[n]? <;> simp [Cell.part?, at?, h]

/-- Only mappings have keys. -/
theorem entries?_of_at?_key {n : Nat} (h : st.at? v [.key n] = some part) :
    (st.entries? v).isSome = true := by
  obtain ⟨cell, hcell, hpart⟩ := at?_single.mp h
  unfold entries?
  rw [hcell]
  cases cell <;> first | rfl | cases hpart

/-! ## Regions below positions -/

/-- What stands in a part stands in the whole. -/
theorem Reaches.of_at? (h : st.at? v p = some part) {id : Nat} (hr : st.Reaches part id) :
    st.Reaches v id := by
  obtain ⟨q, hq⟩ := hr
  exact ⟨p ++ q, (at?_append_of h q).trans hq⟩

/-- A part of a value that shares nothing shares nothing. -/
theorem Unshared.of_at? (hu : st.Unshared v) (h : st.at? v p = some part) :
    st.Unshared part := by
  intro q q' id hq hq'
  exact List.append_cancel_left (hu (p ++ q) (p ++ q') id ((at?_append_of h q).trans hq)
    ((at?_append_of h q').trans hq'))

/-- A value with all that stands in it is a closed region. -/
theorem closed_reaches (st : Store) (v : Value) : st.Closed (st.Reaches v) := by
  -- a part of what stands at a position is one step further
  rintro id cell ⟨p, hat⟩ hcell part hpart
  obtain ⟨step, hstep⟩ := Cell.mem_parts_iff.mp hpart
  cases part with
  | scalar s => trivial
  | ref k =>
      refine ⟨p ++ [step], ?_⟩
      rw [at?_append_of hat, at?_single]
      exact ⟨cell, hcell, hstep⟩

/-- What stands in some objects is a closed region. -/
theorem closed_owned (st : Store) (own : Nat → Prop) :
    st.Closed fun id => ∃ root, own root ∧ st.Reaches (.ref root) id := by
  rintro id cell ⟨root, hroot, hreach⟩ hcell part hpart
  exact (closed_reaches st (.ref root) id cell hreach hcell part hpart).mono
    fun _ h => ⟨root, hroot, h⟩

/-- What stands in a value of a closed region is in the region. -/
theorem Closed.of_reaches {S : Nat → Prop} {st : Store} (hc : st.Closed S) {v : Value}
    (hv : v.In S) {id : Nat} (h : st.Reaches v id) : S id := by
  obtain ⟨p, hat⟩ := h
  induction p generalizing v with
  | nil =>
      cases hat
      exact hv
  | cons step rest ih =>
      rw [at?, Option.bind_eq_some_iff] at hat
      obtain ⟨part, hpart, hat⟩ := hat
      obtain ⟨cell, hcell, hstep⟩ := Option.bind_eq_some_iff.mp hpart
      cases v with
      | scalar s => cases hcell
      | ref k => exact ih (hc k cell hv hcell part (Cell.mem_parts_iff.mpr ⟨step, hstep⟩)) hat

theorem closed_under (st : Store) (v : Value) (slots : Position → Prop) :
    st.Closed (st.Under v slots) := by
  rintro id cell ⟨p, q, hslot, hat⟩ hcell part hpart
  obtain ⟨step, hstep⟩ := Cell.mem_parts_iff.mp hpart
  cases part with
  | scalar s => trivial
  | ref k =>
      refine ⟨p, q ++ [step], hslot, ?_⟩
      rw [← List.append_assoc, at?_append_of hat, at?_single]
      exact ⟨cell, hcell, hstep⟩

theorem reaches_of_under {slots : Position → Prop} {id : Nat} (h : st.Under v slots id) :
    st.Reaches v id := by
  obtain ⟨p, q, _, hat⟩ := h
  exact ⟨p ++ q, hat⟩

theorem in_under {slots : Position → Prop} (hslot : slots p) (h : st.at? v p = some part) :
    part.In (st.Under v slots) := by
  cases part with
  | scalar s => trivial
  | ref id => exact ⟨p, [], hslot, by rw [List.append_nil]; exact h⟩

/-- An object is not below positions that do not lead to where it stands. -/
theorem Unshared.not_under (hu : st.Unshared v) {slots : Position → Prop} {id : Nat}
    (h : st.at? v p = some (.ref id)) (hslots : ∀ q, slots q → ¬ q <+: p) :
    ¬ st.Under v slots id := by
  rintro ⟨q, rest, hslot, hat⟩
  exact hslots q hslot ⟨rest, (hu p (q ++ rest) id h hat).symm⟩

/-- Below positions of one length that differ there are different objects. -/
theorem Unshared.disjoint (hu : st.Unshared v) {slots slots' : Position → Prop} {n : Nat}
    (hn : ∀ p, slots p → p.length = n) (hn' : ∀ p, slots' p → p.length = n)
    (hne : ∀ p, slots p → ¬ slots' p) {id : Nat} (h : st.Under v slots id) :
    ¬ st.Under v slots' id := by
  rintro ⟨q, rest', hslot', hat'⟩
  obtain ⟨p, rest, hslot, hat⟩ := h
  have heq := hu _ _ id hat hat'
  have hp := (List.append_inj heq ((hn p hslot).trans (hn' q hslot').symm)).1
  exact hne p hslot (hp ▸ hslot')

/-! ## What stays -/

/-- The stores have equally many objects, and those that stand in the value but not below some
positions have the same contents. -/
structure Keeps (v : Value) (slots : Position → Prop) (st st' : Store) : Prop where
  size : st'.cells.size = st.cells.size
  cells : ∀ id, st.Reaches v id → ¬ st.Under v slots id → st'.cells[id]? = st.cells[id]?

variable {st' : Store} {slots : Position → Prop}

/-- An object that is not below the positions has the same contents. -/
theorem Keeps.cell? (hk : Keeps v slots st st') (hu : st.Unshared v)
    (h : st.at? v p = some part) (hslots : ∀ q, slots q → ¬ q <+: p) :
    st'.cell? part = st.cell? part := by
  cases part with
  | scalar s => rfl
  | ref id =>
      rw [cell?_ref, cell?_ref]
      exact hk.cells id ⟨p, h⟩ (hu.not_under h hslots)

theorem Keeps.entries? (hk : Keeps v slots st st') (hu : st.Unshared v)
    (h : st.at? v p = some part) (hslots : ∀ q, slots q → ¬ q <+: p) :
    st'.entries? part = st.entries? part := by
  unfold Store.entries?
  rw [hk.cell? hu h hslots]

theorem Keeps.holds (hk : Keeps v slots st st') (hu : st.Unshared v)
    (h : st.at? v p = some part) (hslots : ∀ q, slots q → ¬ q <+: p) :
    st'.holds part = st.holds part := by
  cases part with
  | scalar s => rfl
  | ref id =>
      unfold Store.holds
      dsimp only
      rw [hk.cell? hu h hslots]

/-- What has no position below it, and is below none, has the same tree. -/
theorem Keeps.treeTo (hk : Keeps v slots st st') (hu : st.Unshared v)
    (h : st.at? v p = some part) (hslots : ∀ q, slots q → ¬ q <+: p ∧ ¬ p <+: q) (depth : Nat) :
    st'.treeTo depth part = st.treeTo depth part := by
  have hagree : Agree (st.Reaches part) st st' := by
    refine ⟨hk.size, ?_⟩
    rintro id ⟨q, hat⟩
    have hwhole : st.at? v (p ++ q) = some (.ref id) := (at?_append_of h q).trans hat
    -- a slot that led here would be above `p` or below it
    refine hk.cells id ⟨_, hwhole⟩ (hu.not_under hwhole fun slot hslot hprefix => ?_)
    rcases List.prefix_or_prefix_of_prefix hprefix (List.prefix_append p q) with hle | hle
    · exact (hslots slot hslot).1 hle
    · exact (hslots slot hslot).2 hle
  refine hagree.treeTo (closed_reaches st part) depth ?_
  cases part with
  | scalar s => trivial
  | ref id => exact ⟨[], rfl⟩

theorem Keeps.tree (hk : Keeps v slots st st') (hu : st.Unshared v)
    (h : st.at? v p = some part) (hslots : ∀ q, slots q → ¬ q <+: p ∧ ¬ p <+: q) :
    st'.tree part = st.tree part := by
  unfold Store.tree
  rw [hk.size]
  exact hk.treeTo hu h hslots _

end Store
end ApiManifest
