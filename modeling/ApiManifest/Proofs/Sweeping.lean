import ApiManifest.Proofs.Showing
import Mathlib.Data.Finset.Card

/-!
# Sweeps

Sweeping over a store finds the objects that do not contain themselves. Each sweep adds objects to
those that are known to end, until a sweep adds none. Then every object is known all of whose parts
are, and so is every value that shows a tree.
-/

namespace ApiManifest.Store

variable {st : Store} {known known' more : Array Bool}

/-- What is known stays known. -/
structure Grows (known more : Array Bool) : Prop where
  size : more.size = known.size
  kept : ∀ id : Nat, known[id]? = some true → more[id]? = some true

theorem Grows.refl (known : Array Bool) : Grows known known := ⟨rfl, fun _ h => h⟩

theorem Grows.trans (h : Grows known known') (h' : Grows known' more) : Grows known more :=
  ⟨h'.size.trans h.size, fun id hid => h'.kept id (h.kept id hid)⟩

theorem Grows.antisymm (h : Grows known more) (h' : Grows more known) : more = known := by
  refine Array.ext h.size fun id hmore hknown => ?_
  have hkept := h.kept id
  have hkept' := h'.kept id
  rw [Array.getElem?_eq_getElem hmore, Array.getElem?_eq_getElem hknown] at hkept hkept'
  cases hk : known[id] <;> cases hm : more[id] <;> simp_all

/-- Looks at one object. -/
def look (st : Store) (known : Array Bool) (id : Nat) : Array Bool :=
  if st.cells[id]?.all fun cell => cell.parts.all (isKnown known) then known.setIfInBounds id true
  else known

theorem grows_set (known : Array Bool) (id : Nat) : Grows known (known.setIfInBounds id true) := by
  refine ⟨Array.size_setIfInBounds, fun other hother => ?_⟩
  rw [Array.getElem?_setIfInBounds]
  split
  · next heq =>
    obtain ⟨hlt, -⟩ := Array.getElem?_eq_some_iff.mp hother
    rw [if_pos (heq ▸ hlt)]
  · exact hother

theorem grows_look (st : Store) (known : Array Bool) (id : Nat) :
    Grows known (st.look known id) := by
  unfold look
  split
  · exact grows_set known id
  · exact .refl known

theorem grows_looks (st : Store) (ids : List Nat) (known : Array Bool) :
    Grows known (ids.foldl st.look known) := by
  induction ids generalizing known with
  | nil => exact .refl known
  | cons id ids ih => exact (grows_look st known id).trans (ih _)

theorem grows_sweep (st : Store) (known : Array Bool) : Grows known (st.sweep known) :=
  grows_looks st _ known

/-- **When a sweep adds nothing, every object is known all of whose parts are.** -/
theorem isKnown_of_sweep (hsize : known.size = st.cells.size) (h : st.sweep known = known)
    {id : Nat} {cell : Cell} (hcell : st.cells[id]? = some cell)
    (hparts : ∀ v ∈ cell.parts, isKnown known v) :
    isKnown known (.ref id) = true := by
  have hlt : id < st.cells.size := (Array.getElem?_eq_some_iff.mp hcell).1
  obtain ⟨before, behind, hids⟩ := List.append_of_mem
    (List.mem_reverse.mpr (List.mem_range.mpr hlt))
  have hsweep : behind.foldl st.look (st.look (before.foldl st.look known) id) = known := by
    have hfold : (List.range st.cells.size).reverse.foldl st.look known = known := h
    rwa [hids, List.foldl_append] at hfold
  have hreached : before.foldl st.look known = known := by
    refine (grows_looks st before known).antisymm ?_
    have hrest := (grows_look st (before.foldl st.look known) id).trans (grows_looks st behind _)
    rwa [hsweep] at hrest
  rw [hreached] at hsweep
  have hlook : st.look known id = known.setIfInBounds id true := by
    have hall : cell.parts.all (isKnown known) = true := List.all_eq_true.mpr hparts
    simp [look, hcell, hall]
  have hgrows := grows_looks st behind (known.setIfInBounds id true)
  rw [← hlook, hsweep, hlook] at hgrows
  have hid : known[id]? = some true := hgrows.kept id (by simp [hsize, hlt])
  simp [Store.isKnown, hid]

/-- The objects that are known to end. -/
def knownIds (known : Array Bool) : Finset Nat :=
  (Finset.range known.size).filter fun id => known[id]? = some true

theorem mem_knownIds {id : Nat} : id ∈ knownIds known ↔ known[id]? = some true := by
  simp only [knownIds, Finset.mem_filter, Finset.mem_range, and_iff_right_iff_imp]
  exact fun h => (Array.getElem?_eq_some_iff.mp h).1

theorem card_knownIds_le (known : Array Bool) : (knownIds known).card ≤ known.size :=
  (Finset.card_filter_le _ _).trans (Finset.card_range _).le

/-- A sweep that adds something adds an object. -/
theorem Grows.card_lt (h : Grows known more) (hne : more ≠ known) :
    (knownIds known).card < (knownIds more).card := by
  refine Finset.card_lt_card (Finset.ssubset_iff_subset_ne.mpr ⟨fun id hid => ?_, fun heq => ?_⟩)
  · exact mem_knownIds.mpr (h.kept id (mem_knownIds.mp hid))
  · refine hne (h.antisymm ⟨h.size.symm, fun id hid => ?_⟩)
    exact mem_knownIds.mp (heq ▸ mem_knownIds.mpr hid)

/-- **As many sweeps as there are objects come to an end.** -/
theorem sweep_sweeps {rounds : Nat} (hsize : known.size = st.cells.size)
    (hrounds : st.cells.size ≤ rounds + (knownIds known).card) :
    (st.sweeps rounds known).size = st.cells.size ∧
      st.sweep (st.sweeps rounds known) = st.sweeps rounds known := by
  induction rounds generalizing known with
  | zero =>
      refine ⟨hsize, ?_⟩
      by_contra hne
      have hgrows := grows_sweep st known
      have hlt := hgrows.card_lt hne
      have hle := card_knownIds_le (st.sweep known)
      rw [hgrows.size] at hle
      omega
  | succ rounds ih =>
      rw [sweeps]
      split
      · next h => exact ⟨hsize, h⟩
      · next hne =>
        have hgrows := grows_sweep st known
        have hlt := hgrows.card_lt hne
        exact ih (hgrows.size.trans hsize) (by omega)

mutual

/-- Values that show a tree are known when sweeping has come to an end. -/
theorem Shows.isKnown (hsize : known.size = st.cells.size) (h : st.sweep known = known) :
    ∀ {t : Tree} {v : Value}, st.Shows v t → isKnown known v = true
  | .scalar _, _, rfl => rfl
  | .list _, _, ⟨_, _, rfl, hcell, hitems⟩ =>
      isKnown_of_sweep hsize h hcell (hitems.isKnown hsize h)
  | .map _, _, ⟨_, _, rfl, hcell, hentries⟩ =>
      isKnown_of_sweep hsize h hcell (hentries.isKnown hsize h)
  | .date _, _, hv | .dateTime _, _, hv | .tuple _, _, hv | .set _, _, hv => hv.elim

theorem ShowsAll.isKnown (hsize : known.size = st.cells.size) (h : st.sweep known = known) :
    ∀ {ts : List Tree} {vs : List Value}, st.ShowsAll vs ts → ∀ v ∈ vs, isKnown known v = true
  | [], [], _, _, hv => absurd hv List.not_mem_nil
  | [], _ :: _, hvs, _, _ => hvs.elim
  | _ :: _, [], hvs, _, _ => hvs.elim
  | _ :: _, _ :: _, hvs, _, hv => by
      rcases List.mem_cons.mp hv with rfl | hv
      · exact hvs.1.isKnown hsize h
      · exact hvs.2.isKnown hsize h _ hv

theorem ShowsEntries.isKnown (hsize : known.size = st.cells.size) (h : st.sweep known = known) :
    ∀ {ts : List (Tree × Tree)} {es : List (Value × Value)}, st.ShowsEntries es ts →
    ∀ v ∈ (Cell.map es).parts, isKnown known v = true
  | [], [], _, _, hv => absurd hv List.not_mem_nil
  | [], _ :: _, hes, _, _ => hes.elim
  | _ :: _, [], hes, _, _ => hes.elim
  | (_, _) :: _, (_, _) :: _, ⟨⟨_, _, hkey⟩, ht, hes⟩, _, hv => by
      rcases List.mem_cons.mp hv with rfl | hv
      · rw [hkey]
        rfl
      rcases List.mem_cons.mp hv with rfl | hv
      · exact ht.isKnown hsize h
      · exact hes.isKnown hsize h _ hv

end

/-- **A value that shows a tree has one.** -/
theorem Shows.hasTree {t : Tree} {v : Value} (h : st.Shows v t) : st.hasTree v = true := by
  have hsize : (Array.replicate st.cells.size false).size = st.cells.size := by simp
  obtain ⟨hsize', hsweep⟩ := sweep_sweeps hsize (Nat.le_add_right st.cells.size _)
  exact h.isKnown hsize' hsweep

end ApiManifest.Store
