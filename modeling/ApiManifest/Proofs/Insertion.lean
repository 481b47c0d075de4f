import ApiManifest.Proofs.Positions

/-!
# Values of trees share nothing

A manifest that is given as a tree, without aliases, is made object by object, each part being a new
one. So no object stands at two positions in it, and nothing that was there before stands in it.
-/

namespace ApiManifest.Store

/-- Objects were made, and none was changed. -/
structure Extends (st st' : Store) : Prop where
  size : st.cells.size ≤ st'.cells.size
  cells : ∀ id, id < st.cells.size → st'.cells[id]? = st.cells[id]?

theorem Extends.refl (st : Store) : Extends st st := ⟨Nat.le_refl _, fun _ _ => rfl⟩

theorem Extends.trans {st st' st'' : Store} (h : Extends st st') (h' : Extends st' st'') :
    Extends st st'' where
  size := Nat.le_trans h.size h'.size
  cells id hid := (h'.cells id (Nat.lt_of_lt_of_le hid h.size)).trans (h.cells id hid)

theorem extends_alloc (st : Store) (cell : Cell) : Extends st (st.alloc cell).1 := by
  refine ⟨?_, fun id hid => ?_⟩
  · simp [alloc]
  · simp only [alloc, Array.getElem?_push]
    rw [if_neg (Nat.ne_of_lt hid)]

theorem cells_alloc (st : Store) (cell : Cell) :
    (st.alloc cell).1.cells[st.cells.size]? = some cell := Array.getElem?_push_size

/-- The same stands at every position of a value after objects were made. -/
theorem Extends.at? {st st' : Store} (h : Extends st st') {v : Value}
    (hv : ∀ id, st.Reaches v id → id < st.cells.size) (p : Position) :
    st'.at? v p = st.at? v p := by
  induction p generalizing v with
  | nil => rfl
  | cons step rest ih =>
      have hcell : st'.cell? v = st.cell? v := by
        cases v with
        | scalar s => rfl
        | ref id => exact h.cells id (hv id ⟨[], rfl⟩)
      rw [Store.at?, Store.at?, hcell]
      cases hpart : (st.cell? v).bind (·.part? step) with
      | none => rfl
      | some part =>
          refine ih fun id hr => hv id (Reaches.of_at? (p := [step]) ?_ hr)
          rw [Store.at?, hpart]
          rfl

/-- All objects in a value are made from a certain time on, and it shares nothing. -/
structure Fresh (since : Nat) (st : Store) (v : Value) : Prop where
  made : ∀ id, st.Reaches v id → since ≤ id ∧ id < st.cells.size
  unshared : st.Unshared v

theorem fresh_scalar (since : Nat) (st : Store) (s : Scalar) : Fresh since st (.scalar s) := by
  have hnone : ∀ p id, st.at? (.scalar s) p ≠ some (.ref id) := by
    intro p id h
    cases p with
    | nil => cases h
    | cons step rest => cases h
  exact ⟨fun id ⟨p, hat⟩ => absurd hat (hnone p id), fun p _ id hp _ => absurd hp (hnone p id)⟩

theorem Fresh.extends {since : Nat} {st st' : Store} {v : Value} (hv : Fresh since st v)
    (h : Extends st st') : Fresh since st' v := by
  have hat := h.at? fun id hid => (hv.made id hid).2
  constructor
  · rintro id ⟨p, hp⟩
    rw [hat] at hp
    obtain ⟨hle, hlt⟩ := hv.made id ⟨p, hp⟩
    exact ⟨hle, Nat.lt_of_lt_of_le hlt h.size⟩
  · intro p q id hp hq
    rw [hat] at hp hq
    exact hv.unshared p q id hp hq

/-- Objects that are made later are not in the value. -/
theorem Fresh.before {since : Nat} {st st' : Store} {v : Value} (hv : Fresh since st v)
    (h : Extends st st') : ∀ id, st'.Reaches v id → id < st.cells.size := by
  rintro id ⟨p, hp⟩
  rw [h.at? fun id hid => (hv.made id hid).2] at hp
  exact (hv.made id ⟨p, hp⟩).2

/-- All objects in some values are made from a certain time on, and stand at one position in one of
them. -/
structure AllFresh (since : Nat) (st : Store) (vs : List Value) : Prop where
  each : ∀ v ∈ vs, Fresh since st v
  apart : ∀ (n m : Nat) (v u : Value) (id : Nat), vs[n]? = some v → vs[m]? = some u →
    st.Reaches v id → st.Reaches u id → n = m

theorem allFresh_nil (since : Nat) (st : Store) : AllFresh since st [] :=
  ⟨by simp, by simp⟩

/-- Values that were made one after the other share nothing. -/
theorem AllFresh.cons {since between : Nat} {st : Store} {v : Value} {vs : List Value}
    (hv : Fresh since st v) (hbefore : ∀ id, st.Reaches v id → id < between)
    (hvs : AllFresh between st vs) (hle : since ≤ between) : AllFresh since st (v :: vs) := by
  -- what the first value reaches was made before all that the others reach
  have hlater : ∀ (n : Nat) (u : Value) (id : Nat), vs[n]? = some u → st.Reaches u id →
      ¬ st.Reaches v id := by
    intro n u id hu hr hr'
    have h₁ := ((hvs.each u (List.mem_of_getElem? hu)).made id hr).1
    have h₂ := hbefore id hr'
    omega
  constructor
  · intro u hu
    rcases List.mem_cons.mp hu with rfl | hu
    · exact hv
    · refine ⟨fun id hr => ?_, (hvs.each u hu).unshared⟩
      obtain ⟨h₁, h₂⟩ := (hvs.each u hu).made id hr
      exact ⟨Nat.le_trans hle h₁, h₂⟩
  · intro n m u u' id hn hm hr hr'
    cases n with
    | zero =>
        cases m with
        | zero => rfl
        | succ m =>
            cases hn
            exact absurd hr (hlater m u' id hm hr')
    | succ n =>
        cases m with
        | zero =>
            cases hm
            exact absurd hr' (hlater n u id hn hr)
        | succ m => exact congrArg Nat.succ (hvs.apart n m u u' id hn hm hr hr')

/-- The place of a step's part among all parts of an object. -/
def index : Step → Nat
  | .key n => 2 * n
  | .value n => 2 * n + 1
  | .item n => n

theorem getElem?_parts_map (es : List (Value × Value)) (n : Nat) :
    (Cell.map es).parts[2 * n]? = es[n]?.map Prod.fst ∧
      (Cell.map es).parts[2 * n + 1]? = es[n]?.map Prod.snd := by
  induction es generalizing n with
  | nil => simp [Cell.parts]
  | cons entry rest ih =>
      have hparts : (Cell.map (entry :: rest)).parts
          = entry.1 :: entry.2 :: (Cell.map rest).parts := rfl
      rw [hparts]
      cases n with
      | zero => exact ⟨rfl, rfl⟩
      | succ n =>
          obtain ⟨hkey, hvalue⟩ := ih n
          exact ⟨hkey, hvalue⟩

theorem getElem?_parts {cell : Cell} {step : Step} {v : Value} (h : cell.part? step = some v) :
    cell.parts[index step]? = some v := by
  cases cell with
  | map es =>
      cases step with
      | key n => exact (getElem?_parts_map es n).1.trans h
      | value n => exact (getElem?_parts_map es n).2.trans h
      | item n => cases h
  | list items => cases step <;> first | exact h | cases h
  | tuple items => cases step <;> first | exact h | cases h
  | set items => cases step <;> first | exact h | cases h
  | date d => cases step <;> cases h
  | dateTime t => cases step <;> cases h

/-- The place tells the steps of one object apart. -/
theorem step_eq_of_index {cell : Cell} {step step' : Step} {v v' : Value}
    (h : cell.part? step = some v) (h' : cell.part? step' = some v')
    (hindex : index step = index step') : step = step' := by
  cases cell with
  | map es =>
      cases step <;> cases step' <;> simp only [index] at hindex <;>
        first | cases h | cases h' | (congr 1; omega)
  | list items | tuple items | set items =>
      cases step <;> cases step' <;> first | cases h | cases h' | exact congrArg Step.item hindex
  | date d | dateTime t => cases step <;> cases h

/-- An object of fresh parts is fresh. -/
theorem AllFresh.alloc {since : Nat} {st : Store} {cell : Cell}
    (h : AllFresh since st cell.parts) (hle : since ≤ st.cells.size) :
    Fresh since (st.alloc cell).1 (st.alloc cell).2 := by
  have hext := extends_alloc st cell
  have hsize : (st.alloc cell).1.cells.size = st.cells.size + 1 := by simp [Store.alloc]
  have hroot : (st.alloc cell).2 = .ref st.cells.size := rfl
  have hcell : (st.alloc cell).1.cell? (.ref st.cells.size) = some cell := by
    simp [Store.alloc, cell?_ref]
  -- what stands below the root stands in one of the parts
  have hstep : ∀ step rest id, (st.alloc cell).1.at? (.ref st.cells.size) (step :: rest)
      = some (.ref id) → ∃ part, cell.part? step = some part ∧ st.at? part rest = some (.ref id) ∧
        since ≤ id ∧ id < st.cells.size := by
    intro step rest id hat
    rw [at?, hcell, Option.bind_some, Option.bind_eq_some_iff] at hat
    obtain ⟨part, hpart, hat⟩ := hat
    have hfresh := h.each part (List.mem_of_getElem? (getElem?_parts hpart))
    rw [hext.at? fun id hid => (hfresh.made id hid).2] at hat
    exact ⟨part, hpart, hat, hfresh.made id ⟨rest, hat⟩⟩
  rw [hroot]
  constructor
  · rintro id ⟨p, hat⟩
    cases p with
    | nil =>
        cases hat
        exact ⟨hle, by omega⟩
    | cons step rest =>
        obtain ⟨_, _, _, h₁, h₂⟩ := hstep step rest id hat
        exact ⟨h₁, by omega⟩
  · intro p q id hp hq
    cases p with
    | nil =>
        -- the root itself is newer than all that stands below it
        cases hp
        cases q with
        | nil => rfl
        | cons step rest =>
            obtain ⟨_, _, _, _, hlt⟩ := hstep step rest _ hq
            exact absurd hlt (Nat.lt_irrefl _)
    | cons step rest =>
        obtain ⟨part, hpart, hat, _, hlt⟩ := hstep step rest id hp
        cases q with
        | nil =>
            cases hq
            exact absurd hlt (Nat.lt_irrefl _)
        | cons step' rest' =>
            obtain ⟨part', hpart', hat', _, _⟩ := hstep step' rest' id hq
            have hindex := h.apart _ _ part part' id (getElem?_parts hpart) (getElem?_parts hpart')
              ⟨rest, hat⟩ ⟨rest', hat'⟩
            have hsame := step_eq_of_index hpart hpart' hindex
            subst hsame
            rw [hpart] at hpart'
            cases hpart'
            rw [(h.each part (List.mem_of_getElem? (getElem?_parts hpart))).unshared rest rest' id
              hat hat']

mutual

/-- **Inserting a tree makes new objects only, and shares none of them.** -/
theorem fresh_insert : ∀ (t : Tree) (st : Store),
    Extends st (st.insert t).1 ∧ Fresh st.cells.size (st.insert t).1 (st.insert t).2
  | .scalar s, st => ⟨.refl st, fresh_scalar _ _ s⟩
  | .date d, st => ⟨extends_alloc _ _, AllFresh.alloc (allFresh_nil _ _) (Nat.le_refl _)⟩
  | .dateTime d, st => ⟨extends_alloc _ _, AllFresh.alloc (allFresh_nil _ _) (Nat.le_refl _)⟩
  | .list items, st => by
      obtain ⟨hext, hfresh⟩ := allFresh_insertAll items st
      rw [insert]
      exact ⟨hext.trans (extends_alloc _ _), AllFresh.alloc hfresh hext.size⟩
  | .tuple items, st => by
      obtain ⟨hext, hfresh⟩ := allFresh_insertAll items st
      rw [insert]
      exact ⟨hext.trans (extends_alloc _ _), AllFresh.alloc hfresh hext.size⟩
  | .set items, st => by
      obtain ⟨hext, hfresh⟩ := allFresh_insertAll items st
      rw [insert]
      exact ⟨hext.trans (extends_alloc _ _), AllFresh.alloc hfresh hext.size⟩
  | .map es, st => by
      obtain ⟨hext, hfresh⟩ := allFresh_insertEntries es st
      rw [insert]
      exact ⟨hext.trans (extends_alloc _ _), AllFresh.alloc hfresh hext.size⟩

theorem allFresh_insertAll : ∀ (ts : List Tree) (st : Store),
    Extends st (st.insertAll ts).1 ∧ AllFresh st.cells.size (st.insertAll ts).1 (st.insertAll ts).2
  | [], st => ⟨.refl st, allFresh_nil _ _⟩
  | t :: rest, st => by
      obtain ⟨hext, hfresh⟩ := fresh_insert t st
      obtain ⟨hext', hfresh'⟩ := allFresh_insertAll rest (st.insert t).1
      rw [insertAll]
      exact ⟨hext.trans hext', .cons (hfresh.extends hext') (hfresh.before hext') hfresh' hext.size⟩

theorem allFresh_insertEntries : ∀ (es : List (Tree × Tree)) (st : Store),
    Extends st (st.insertEntries es).1 ∧ AllFresh st.cells.size (st.insertEntries es).1
      (Cell.map (st.insertEntries es).2).parts
  | [], st => ⟨.refl st, allFresh_nil _ _⟩
  | (k, t) :: rest, st => by
      obtain ⟨hkext, hkey⟩ := fresh_insert k st
      obtain ⟨hext, hfresh⟩ := fresh_insert t (st.insert k).1
      obtain ⟨hext', hfresh'⟩ := allFresh_insertEntries rest ((st.insert k).1.insert t).1
      have hlater := hext.trans hext'
      rw [insertEntries]
      refine ⟨hkext.trans hlater, .cons (hkey.extends hlater) (hkey.before hlater) ?_ hkext.size⟩
      exact .cons (hfresh.extends hext') (hfresh.before hext') hfresh' hext.size

end

/-- **Of two trees that are inserted one after the other, neither has a part of the other one**, and
neither shares anything. -/
theorem apart_insert (t u : Tree) (st : Store) :
    ((st.insert t).1.insert u).1.Unshared ((st.insert t).1.insert u).2 ∧
      ((st.insert t).1.insert u).1.Unshared (st.insert t).2 ∧
      ∀ id, ((st.insert t).1.insert u).1.Reaches (st.insert t).2 id →
        ¬ ((st.insert t).1.insert u).1.Reaches ((st.insert t).1.insert u).2 id := by
  obtain ⟨_, hfirst⟩ := fresh_insert t st
  obtain ⟨hext, hsecond⟩ := fresh_insert u (st.insert t).1
  refine ⟨hsecond.unshared, (hfirst.extends hext).unshared, fun id hr hr' => ?_⟩
  have hbefore := hfirst.before hext id hr
  have hafter := (hsecond.made id hr').1
  omega

end ApiManifest.Store
