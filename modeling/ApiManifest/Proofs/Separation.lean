import Mathlib.Data.Fintype.Card
import Mathlib.Data.List.Perm.Subperm
import ApiManifest.Proofs.InPlace
import ApiManifest.Proofs.Insertion

/-!
# Objects that stand apart

Some objects stand apart if none of them shares anything and no object stands in two of them. Then
each object that can be reached from them is reached on one way only. An object can be exchanged for
its parts, and a step that changes only what stands in some of the objects leaves the others as they
are: so what becomes of a few objects can be said without the rest.
-/

namespace ApiManifest

/-- The object that a value refers to, if it is one. -/
def Value.objects : Value → List Nat
  | .scalar _ => []
  | .ref id => [id]

/-- The objects among the parts of an object. -/
def Cell.objects (cell : Cell) : List Nat := cell.parts.flatMap Value.objects

@[simp] theorem Value.objects_scalar (s : Scalar) : (Value.scalar s).objects = [] := rfl

@[simp] theorem Value.objects_ref (id : Nat) : (Value.ref id).objects = [id] := rfl

theorem Cell.mem_objects_iff {cell : Cell} {id : Nat} :
    id ∈ cell.objects ↔ Value.ref id ∈ cell.parts := by
  unfold objects
  rw [List.mem_flatMap]
  constructor
  · rintro ⟨v, hv, hid⟩
    cases v with
    | scalar s => cases hid
    | ref other =>
        cases List.mem_singleton.mp hid
        exact hv
  · intro h
    exact ⟨.ref id, h, List.mem_singleton_self id⟩

namespace Store

variable {st st' : Store} {id other : Nat} {ids more : List Nat} {cell : Cell}

/-- No object stands in both objects. -/
def Detached (st : Store) (a b : Nat) : Prop :=
  ∀ id, st.Reaches (.ref a) id → ¬ st.Reaches (.ref b) id

theorem Detached.symm {a b : Nat} (h : st.Detached a b) : st.Detached b a :=
  fun id hb ha => h id ha hb

/-- The objects that stand in one of the objects. -/
def Reached (st : Store) (ids : List Nat) (id : Nat) : Prop :=
  ∃ root ∈ ids, st.Reaches (.ref root) id

/-- No object can be reached on two ways from the objects, and all that can be reached are in the
store. -/
structure Separate (st : Store) (ids : List Nat) : Prop where
  unshared : ∀ id ∈ ids, st.Unshared (.ref id)
  detached : ids.Pairwise st.Detached
  present : ∀ id, st.Reached ids id → id < st.cells.size

theorem reached_of_mem (h : id ∈ ids) : st.Reached ids id := ⟨id, h, [], rfl⟩

theorem ref_in_reached (h : id ∈ ids) : (Value.ref id).In (st.Reached ids) := reached_of_mem h

theorem Reached.mono (h : st.Reached ids id) (hsub : ids ⊆ more) : st.Reached more id := by
  obtain ⟨root, hroot, hr⟩ := h
  exact ⟨root, hsub hroot, hr⟩

theorem reached_append_iff :
    st.Reached (ids ++ more) id ↔ st.Reached ids id ∨ st.Reached more id := by
  constructor
  · rintro ⟨root, hroot, hr⟩
    rcases List.mem_append.mp hroot with h | h
    · exact Or.inl ⟨root, h, hr⟩
    · exact Or.inr ⟨root, h, hr⟩
  · rintro (h | h)
    · exact h.mono (List.subset_append_left _ _)
    · exact h.mono (List.subset_append_right _ _)

theorem closed_reached (st : Store) (ids : List Nat) : st.Closed (st.Reached ids) :=
  closed_owned st (· ∈ ids)

theorem separate_nil (st : Store) : st.Separate [] :=
  ⟨by simp, .nil, fun _ ⟨_, hroot, _⟩ => absurd hroot List.not_mem_nil⟩

/-- Fewer objects, in whatever order, stand apart, too. -/
theorem Separate.subperm (h : st.Separate ids) (hsub : more.Subperm ids) : st.Separate more := by
  have hsubset := hsub.subset
  obtain ⟨sorted, hperm, hsublist⟩ := hsub
  have hsymm : ∀ {a b : Nat}, st.Detached a b → st.Detached b a := Detached.symm
  refine ⟨fun id hid => h.unshared id (hsubset hid), ?_,
    fun id hr => h.present id (hr.mono hsubset)⟩
  exact (hperm.pairwise_iff hsymm).mp (h.detached.sublist hsublist)

theorem Separate.perm (h : st.Separate ids) (hperm : ids.Perm more) : st.Separate more :=
  h.subperm hperm.symm.subperm

theorem separate_append_iff : st.Separate (ids ++ more) ↔
    st.Separate ids ∧ st.Separate more ∧ ∀ id, st.Reached ids id → ¬ st.Reached more id := by
  constructor
  · intro h
    refine ⟨h.subperm (List.sublist_append_left _ _).subperm,
      h.subperm (List.sublist_append_right _ _).subperm, ?_⟩
    rintro id ⟨a, ha, hr⟩ ⟨b, hb, hr'⟩
    exact (List.pairwise_append.mp h.detached).2.2 a ha b hb id hr hr'
  · rintro ⟨hids, hmore, hacross⟩
    refine ⟨fun id h => ?_, ?_, fun id hr => ?_⟩
    · rcases List.mem_append.mp h with h | h
      · exact hids.unshared id h
      · exact hmore.unshared id h
    · refine List.pairwise_append.mpr ⟨hids.detached, hmore.detached, fun a ha b hb id hr hr' => ?_⟩
      exact hacross id ⟨a, ha, hr⟩ ⟨b, hb, hr'⟩
    · rcases reached_append_iff.mp hr with hr | hr
      · exact hids.present id hr
      · exact hmore.present id hr

theorem reached_singleton_iff : st.Reached [id] other ↔ st.Reaches (.ref id) other :=
  ⟨fun ⟨_, hroot, hr⟩ => List.mem_singleton.mp hroot ▸ hr,
    fun hr => ⟨id, List.mem_singleton_self id, hr⟩⟩

theorem separate_singleton : st.Separate [id] ↔
    st.Unshared (.ref id) ∧ ∀ other, st.Reaches (.ref id) other → other < st.cells.size := by
  constructor
  · intro h
    exact ⟨h.unshared id List.mem_cons_self, fun other hr =>
      h.present other (reached_singleton_iff.mpr hr)⟩
  · rintro ⟨hu, hpresent⟩
    exact ⟨fun _ hid => List.mem_singleton.mp hid ▸ hu, List.pairwise_singleton _ _, fun other hr =>
      hpresent other (reached_singleton_iff.mp hr)⟩

/-! ## An object and its parts -/

/-- In an object stand the object itself and what stands in its parts. -/
theorem reaches_ref_iff (hcell : st.cells[id]? = some cell) :
    st.Reaches (.ref id) other ↔ other = id ∨ st.Reached cell.objects other := by
  constructor
  · rintro ⟨p, hp⟩
    cases p with
    | nil =>
        cases hp
        exact Or.inl rfl
    | cons step rest =>
        rw [at?, cell?_ref, hcell, Option.bind_some, Option.bind_eq_some_iff] at hp
        obtain ⟨part, hpart, hp⟩ := hp
        cases part with
        | scalar s => cases rest <;> cases hp
        | ref root =>
            have hmem := Cell.mem_parts_iff.mpr ⟨step, hpart⟩
            exact Or.inr ⟨root, Cell.mem_objects_iff.mpr hmem, rest, hp⟩
  · rintro (rfl | ⟨root, hroot, rest, hp⟩)
    · exact ⟨[], rfl⟩
    · obtain ⟨step, hpart⟩ := Cell.mem_parts_iff.mp (Cell.mem_objects_iff.mp hroot)
      refine ⟨step :: rest, ?_⟩
      rw [at?, cell?_ref, hcell, Option.bind_some, hpart, Option.bind_some]
      exact hp

theorem reached_cons_iff (hcell : st.cells[id]? = some cell) :
    st.Reached (id :: ids) other ↔ other = id ∨ st.Reached (cell.objects ++ ids) other := by
  have happend : st.Reached (id :: ids) other ↔ st.Reached ([id] ++ ids) other := Iff.rfl
  rw [happend, reached_append_iff, reached_append_iff, reached_singleton_iff, reaches_ref_iff hcell,
    or_assoc]

/-- A part has a step that leads to it. -/
theorem exists_step {n : Nat} {v : Value} (h : cell.parts[n]? = some v) :
    ∃ step, cell.part? step = some v ∧ index step = n := by
  cases cell with
  | date d => cases h
  | dateTime t => cases h
  | list items => exact ⟨.item n, h, rfl⟩
  | tuple items => exact ⟨.item n, h, rfl⟩
  | set items => exact ⟨.item n, h, rfl⟩
  | map es =>
      -- keys stand at the even places, values at the odd ones
      obtain ⟨hkey, hvalue⟩ := getElem?_parts_map es (n / 2)
      rcases Nat.mod_two_eq_zero_or_one n with hmod | hmod
      · have hn : 2 * (n / 2) = n := by omega
        rw [hn, h] at hkey
        exact ⟨.key (n / 2), hkey.symm, hn⟩
      · have hn : 2 * (n / 2) + 1 = n := by omega
        rw [hn, h] at hvalue
        exact ⟨.value (n / 2), hvalue.symm, hn⟩

/-- The parts of an object that stands apart stand apart. -/
theorem separate_parts (hcell : st.cells[id]? = some cell) (h : st.Separate [id]) :
    st.Separate cell.objects := by
  obtain ⟨hu, hpresent⟩ := separate_singleton.mp h
  have hbelow : ∀ {step rest v}, cell.part? step = some v →
      st.at? (.ref id) (step :: rest) = st.at? v rest := by
    intro step rest v hpart
    rw [at?, cell?_ref, hcell, Option.bind_some, hpart, Option.bind_some]
  refine ⟨fun part hpart => ?_, ?_, fun other hr =>
    hpresent other ((reaches_ref_iff hcell).mpr (Or.inr hr))⟩
  · obtain ⟨step, hstep⟩ := Cell.mem_parts_iff.mp (Cell.mem_objects_iff.mp hpart)
    exact hu.of_at? (p := [step]) ((hbelow hstep).trans rfl)
  · unfold Cell.objects
    rw [List.pairwise_flatMap]
    constructor
    · intro v _
      cases v with
      | scalar s => exact .nil
      | ref part => exact List.pairwise_singleton _ _
    -- two parts with an object in common would lead to it by two ways
    · rw [List.pairwise_iff_getElem]
      intro i j hi hj hij a ha b hb other hra hrb
      obtain ⟨step, hstep, hindex⟩ := exists_step (List.getElem?_eq_getElem hi)
      obtain ⟨step', hstep', hindex'⟩ := exists_step (List.getElem?_eq_getElem hj)
      generalize cell.parts[i] = v at hstep ha
      generalize cell.parts[j] = u at hstep' hb
      cases v with
      | scalar s => cases ha
      | ref a' =>
          cases u with
          | scalar s => cases hb
          | ref b' =>
              cases List.mem_singleton.mp ha
              cases List.mem_singleton.mp hb
              obtain ⟨p, hp⟩ := hra
              obtain ⟨q, hq⟩ := hrb
              have hsame := hu (step :: p) (step' :: q) other ((hbelow hstep).trans hp)
                ((hbelow hstep').trans hq)
              cases hsame
              omega

/-- Different places among the parts of an object have nothing in common if the parts stand
apart. -/
theorem Separate.place_eq (h : st.Separate cell.objects) {n m a b : Nat}
    (ha : cell.parts[n]? = some (.ref a)) (hb : cell.parts[m]? = some (.ref b))
    (hra : st.Reaches (.ref a) other) (hrb : st.Reaches (.ref b) other) : n = m := by
  have hpairwise := (List.pairwise_flatMap.mp h.detached).2
  rw [List.pairwise_iff_getElem] at hpairwise
  obtain ⟨hn, hna⟩ := List.getElem?_eq_some_iff.mp ha
  obtain ⟨hm, hmb⟩ := List.getElem?_eq_some_iff.mp hb
  have hina : a ∈ cell.parts[n].objects := by rw [hna]; exact List.mem_cons_self
  have hinb : b ∈ cell.parts[m].objects := by rw [hmb]; exact List.mem_cons_self
  rcases Nat.lt_trichotomy n m with hlt | heq | hlt
  · exact absurd hrb (hpairwise n m hn hm hlt a hina b hinb other hra)
  · exact heq
  · exact absurd hra (hpairwise m n hm hn hlt b hinb a hina other hrb)

/-- An object shares nothing if its parts stand apart and it does not stand in them. -/
theorem unshared_of_parts (hcell : st.cells[id]? = some cell) (h : st.Separate cell.objects)
    (hself : ¬ st.Reached cell.objects id) : st.Unshared (.ref id) := by
  -- what stands below the object stands in one of its parts
  have hbelow : ∀ step rest other, st.at? (.ref id) (step :: rest) = some (.ref other) →
      ∃ a, cell.part? step = some (.ref a) ∧ st.at? (.ref a) rest = some (.ref other) := by
    intro step rest other hat
    rw [at?, cell?_ref, hcell, Option.bind_some, Option.bind_eq_some_iff] at hat
    obtain ⟨part, hpart, hat⟩ := hat
    cases part with
    | scalar s => cases rest <;> cases hat
    | ref a => exact ⟨a, hpart, hat⟩
  have hreached : ∀ step rest, st.at? (.ref id) (step :: rest) ≠ some (.ref id) := by
    intro step rest hat
    obtain ⟨a, hpart, hat⟩ := hbelow step rest id hat
    exact hself ⟨a, Cell.mem_objects_iff.mpr (Cell.mem_parts_iff.mpr ⟨step, hpart⟩), rest, hat⟩
  intro p q other hp hq
  cases p with
  | nil =>
      cases hp
      cases q with
      | nil => rfl
      | cons step rest => exact absurd hq (hreached step rest)
  | cons step rest =>
      cases q with
      | nil =>
          cases hq
          exact absurd hp (hreached step rest)
      | cons step' rest' =>
          obtain ⟨a, hpart, hat⟩ := hbelow step rest other hp
          obtain ⟨b, hpart', hat'⟩ := hbelow step' rest' other hq
          have hindex := h.place_eq (getElem?_parts hpart) (getElem?_parts hpart') ⟨rest, hat⟩
            ⟨rest', hat'⟩
          cases step_eq_of_index hpart hpart' hindex
          rw [hpart] at hpart'
          cases hpart'
          have hmem := Cell.mem_objects_iff.mpr (Cell.mem_parts_iff.mpr ⟨step, hpart⟩)
          rw [h.unshared a hmem rest rest' other hat hat']

/-- **An object stands apart from others exactly if its parts do and it stands in none of them.** -/
theorem separate_cons_iff (hcell : st.cells[id]? = some cell) :
    st.Separate (id :: ids) ↔
      st.Separate (cell.objects ++ ids) ∧ ¬ st.Reached (cell.objects ++ ids) id := by
  have happend : st.Separate (id :: ids) ↔ st.Separate ([id] ++ ids) := Iff.rfl
  rw [happend, separate_append_iff, separate_append_iff, reached_append_iff, not_or]
  have hparts : ∀ other, st.Reached [id] other ↔ other = id ∨ st.Reached cell.objects other :=
    fun other => reached_singleton_iff.trans (reaches_ref_iff hcell)
  constructor
  · rintro ⟨hsep, hids, hacross⟩
    refine ⟨⟨separate_parts hcell hsep, hids, fun other h =>
      hacross other ((hparts other).mpr (Or.inr h))⟩, ?_, hacross id ((hparts id).mpr (Or.inl rfl))⟩
    -- the object would stand in itself, at its own position and at a longer one
    rintro ⟨a, ha, rest, hat⟩
    obtain ⟨step, hstep⟩ := Cell.mem_parts_iff.mp (Cell.mem_objects_iff.mp ha)
    have hlong : st.at? (.ref id) (step :: rest) = some (.ref id) := by
      rw [at?, cell?_ref, hcell, Option.bind_some, hstep, Option.bind_some]
      exact hat
    cases (separate_singleton.mp hsep).1 [] (step :: rest) id rfl hlong
  · rintro ⟨⟨hobjects, hids, hacross⟩, hself, hnot⟩
    refine ⟨separate_singleton.mpr ⟨unshared_of_parts hcell hobjects hself, fun other hr => ?_⟩,
      hids, fun other h => ?_⟩
    · rcases (reaches_ref_iff hcell).mp hr with rfl | hr
      · exact (Array.getElem?_eq_some_iff.mp hcell).1
      · exact hobjects.present other hr
    · rcases (hparts other).mp h with rfl | h
      · exact hnot
      · exact hacross other h

/-! ## What a change leaves alone -/

/-- In stores that agree on a closed region the same stands at every position of its values. -/
theorem Agree.at? {S : Nat → Prop} (h : Agree S st st') (hc : st.Closed S) {v : Value} (hv : v.In S)
    (p : Position) : st'.at? v p = st.at? v p := by
  induction p generalizing v with
  | nil => rfl
  | cons step rest ih =>
      have hcell : st'.cell? v = st.cell? v := by
        cases v with
        | scalar s => rfl
        | ref id => exact h.cells id hv
      rw [Store.at?, Store.at?, hcell]
      cases hpart : (st.cell? v).bind (·.part? step) with
      | none => rfl
      | some part =>
          obtain ⟨cell, hat, hstep⟩ := Option.bind_eq_some_iff.mp hpart
          cases v with
          | scalar s => cases hat
          | ref id => exact ih (hc id cell hv hat part (Cell.mem_parts_iff.mpr ⟨step, hstep⟩))

theorem Agree.reaches_iff {S : Nat → Prop} (h : Agree S st st') (hc : st.Closed S) {v : Value}
    (hv : v.In S) : st'.Reaches v id ↔ st.Reaches v id := by
  unfold Reaches
  simp only [h.at? hc hv]

/-- Objects stand apart in all stores that have at least as many objects, and in which the same
stands at every position of them. -/
theorem Separate.of_at? (h : st.Separate ids) (hsize : st.cells.size ≤ st'.cells.size)
    (hat : ∀ id ∈ ids, ∀ p, st'.at? (.ref id) p = st.at? (.ref id) p) :
    st'.Separate ids ∧ ∀ id, st'.Reached ids id ↔ st.Reached ids id := by
  have hreaches : ∀ root ∈ ids, ∀ id, st'.Reaches (.ref root) id ↔ st.Reaches (.ref root) id := by
    intro root hroot id
    unfold Reaches
    simp only [hat root hroot]
  have hreached : ∀ id, st'.Reached ids id ↔ st.Reached ids id := fun id =>
    exists_congr fun root => and_congr_right fun hroot => hreaches root hroot id
  refine ⟨⟨fun root hroot p q id hp hq => ?_, ?_, fun id hr => ?_⟩, hreached⟩
  · rw [hat root hroot] at hp hq
    exact h.unshared root hroot p q id hp hq
  · refine h.detached.imp_of_mem fun {a b} hma hmb hdetached id hra hrb => ?_
    exact hdetached id ((hreaches a hma id).mp hra) ((hreaches b hmb id).mp hrb)
  · exact Nat.lt_of_lt_of_le (h.present id ((hreached id).mp hr)) hsize

theorem Agree.reached_iff (h : Agree (st.Reached ids) st st') :
    st'.Reached ids id ↔ st.Reached ids id := by
  constructor
  · rintro ⟨root, hroot, hr⟩
    exact ⟨root, hroot, (h.reaches_iff (closed_reached st ids) (ref_in_reached hroot)).mp hr⟩
  · rintro ⟨root, hroot, hr⟩
    exact ⟨root, hroot, (h.reaches_iff (closed_reached st ids) (ref_in_reached hroot)).mpr hr⟩

/-- Objects stand apart in all stores that agree on what stands in them. -/
theorem Separate.of_agree (h : st.Separate ids) (ha : Agree (st.Reached ids) st st') :
    st'.Separate ids :=
  (h.of_at? (Nat.le_of_eq ha.size.symm) fun _ hid p =>
    ha.at? (closed_reached st ids) (ref_in_reached hid) p).1

/-- Making objects leaves those that stand apart as they are. -/
theorem Separate.extends (h : st.Separate ids) (he : Extends st st') :
    st'.Separate ids ∧ ∀ id, st'.Reached ids id ↔ st.Reached ids id :=
  h.of_at? he.size fun id hid p => he.at? (fun _ hr => h.present _ ⟨id, hid, hr⟩) p

/-- Writing in a region leaves the objects of another one as they are. -/
theorem Writes.agree {S T : Nat → Prop} (hw : Writes S st st') (hT : ∀ id, T id → ¬ S id) :
    Agree T st st' :=
  ⟨hw.size, fun id hid => hw.frame id (hT id hid)⟩

/-- **The frame.** If a step writes only what stands in some objects, and one of them shares nothing
afterwards, then this one stands apart from all the other objects, too, and these are as they
were. -/
theorem Separate.frame {root : Nat} (h : st.Separate (ids ++ more))
    (hw : Writes (st.Reached ids) st st') (hroot : root ∈ ids) (hu : st'.Unshared (.ref root)) :
    st'.Separate (root :: more) ∧ Agree (st.Reached more) st st' ∧
      ∀ id, st'.Reached (root :: more) id → st.Reached (ids ++ more) id := by
  obtain ⟨hids, hmore, hacross⟩ := separate_append_iff.mp h
  have hagree : Agree (st.Reached more) st st' := hw.agree fun id hid hr => hacross id hr hid
  have hinside : ∀ id, st'.Reaches (.ref root) id → st.Reached ids id := fun id hr =>
    hw.closed.of_reaches (v := .ref root) (reached_of_mem hroot) hr
  have happend : ∀ id, st'.Reached (root :: more) id ↔ st'.Reached ([root] ++ more) id :=
    fun _ => Iff.rfl
  refine ⟨@separate_append_iff _ [root] more |>.mpr ⟨separate_singleton.mpr ⟨hu, fun id hr => ?_⟩,
    hmore.of_agree hagree, fun id hr hr' => ?_⟩, hagree, fun id hr => ?_⟩
  · rw [hw.size]
    exact hids.present id (hinside id hr)
  · exact hacross id (hinside id (reached_singleton_iff.mp hr)) (hagree.reached_iff.mp hr')
  · rw [happend, reached_append_iff, reached_singleton_iff] at hr
    exact reached_append_iff.mpr (hr.imp (hinside id) hagree.reached_iff.mp)

/-! ## How deep a value is -/

/-- No position of a value has more steps than the store has objects, if the value shares
nothing. -/
theorem Unshared.length_le {v part : Value} (hu : st.Unshared v) {p : Position}
    (h : st.at? v p = some part) : p.length ≤ st.cells.size := by
  -- on the way there is an object for each step, and all of them are different
  have hway : ∀ k : Fin p.length,
      ∃ id : Fin st.cells.size, st.at? v (p.take k) = some (.ref id) := by
    intro k
    have hdrop : p = p.take k ++ p.drop k := (List.take_append_drop k p).symm
    rw [hdrop, at?_append, Option.bind_eq_some_iff] at h
    obtain ⟨u, hu, hat⟩ := h
    rw [List.drop_eq_getElem_cons k.isLt, at?, Option.bind_eq_some_iff] at hat
    obtain ⟨_, hpart, _⟩ := hat
    obtain ⟨cell, hcell, _⟩ := Option.bind_eq_some_iff.mp hpart
    cases u with
    | scalar s => cases hcell
    | ref id => exact ⟨⟨id, (Array.getElem?_eq_some_iff.mp hcell).1⟩, hu⟩
  choose way hway using hway
  have hinjective : Function.Injective way := by
    intro k k' heq
    have hk' := hway k'
    rw [← heq] at hk'
    have hsame := congrArg List.length (hu _ _ _ (hway k) hk')
    rw [List.length_take_of_le (Nat.le_of_lt k.isLt), List.length_take_of_le (Nat.le_of_lt k'.isLt)]
      at hsame
    exact Fin.ext hsame
  simpa using Fintype.card_le_of_injective way hinjective

end Store
end ApiManifest
