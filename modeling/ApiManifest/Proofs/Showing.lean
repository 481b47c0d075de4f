import ApiManifest.Data.Store
import Mathlib.Data.Fintype.Card

/-!
# Values that show a tree

A value shows a tree if the objects that it leads to have the shape of the tree. Its tree is read
down to a depth, since objects can contain themselves; the depth is one more than the number of
objects. That is deep enough for a value that shows a tree: the trees shown by the objects that it
leads to have every height up to its own, and no object shows trees of two heights.
-/

namespace ApiManifest

/-! ## Heights -/

mutual

/-- The number of collections on the longest chain of parts. -/
def Tree.height : Tree → Nat
  | .scalar _ | .date _ | .dateTime _ => 0
  | .list items | .tuple items | .set items => heightAll items + 1
  | .map entries => heightEntries entries + 1

/-- The greatest height of some trees. -/
def Tree.heightAll : List Tree → Nat
  | [] => 0
  | t :: rest => max t.height (heightAll rest)

/-- The greatest height of the values of some entries. -/
def Tree.heightEntries : List (Tree × Tree) → Nat
  | [] => 0
  | (_, t) :: rest => max t.height (heightEntries rest)

end

namespace Store

mutual

/-- A value shows a tree of lists and of mappings with text keys. -/
def Shows (st : Store) (v : Value) : Tree → Prop
  | .scalar s => v = .scalar s
  | .list items => ∃ id vs, v = .ref id ∧ st.cells[id]? = some (.list vs) ∧ ShowsAll st vs items
  | .map entries => ∃ id es, v = .ref id ∧ st.cells[id]? = some (.map es) ∧
      ShowsEntries st es entries
  | _ => False

/-- Values show trees, one each. -/
def ShowsAll (st : Store) : List Value → List Tree → Prop
  | [], [] => True
  | v :: vs, t :: ts => Shows st v t ∧ ShowsAll st vs ts
  | _, _ => False

/-- Pairs of values show entries, one each. -/
def ShowsEntries (st : Store) : List (Value × Value) → List (Tree × Tree) → Prop
  | [], [] => True
  | (k, v) :: es, (key, t) :: rest =>
    (∃ name, key = .text name ∧ k = .text name) ∧ Shows st v t ∧ ShowsEntries st es rest
  | _, _ => False

end

variable {st : Store}

mutual

/-- A value shows one tree. -/
theorem Shows.unique : ∀ {t t' : Tree} {v : Value}, st.Shows v t → st.Shows v t' → t = t'
  | .scalar s, t', v, h, h' => by
      cases t' with
      | scalar s' => cases h; cases h'; rfl
      | _ => simp_all [Shows]
  -- the cell that is shown decides which kind of tree shows it
  | .list items, t', v, h, h' => by
      obtain ⟨id, vs, rfl, hcell, hitems⟩ := h
      cases t' with
      | list items' =>
          obtain ⟨id', vs', hid, hcell', hitems'⟩ := h'
          cases hid
          rw [hcell] at hcell'
          cases hcell'
          rw [ShowsAll.unique hitems hitems']
      | map entries' =>
          obtain ⟨id', es', hid, hcell', -⟩ := h'
          cases hid
          rw [hcell] at hcell'
          cases hcell'
      | _ => simp_all [Shows]
  | .map entries, t', v, h, h' => by
      obtain ⟨id, es, rfl, hcell, hentries⟩ := h
      cases t' with
      | map entries' =>
          obtain ⟨id', es', hid, hcell', hentries'⟩ := h'
          cases hid
          rw [hcell] at hcell'
          cases hcell'
          rw [ShowsEntries.unique hentries hentries']
      | list items' =>
          obtain ⟨id', vs', hid, hcell', -⟩ := h'
          cases hid
          rw [hcell] at hcell'
          cases hcell'
      | _ => simp_all [Shows]
  | .date _, _, _, h, _ | .dateTime _, _, _, h, _ | .tuple _, _, _, h, _ | .set _, _, _, h, _ => by
      exact h.elim

theorem ShowsAll.unique : ∀ {ts ts' : List Tree} {vs : List Value}, st.ShowsAll vs ts →
    st.ShowsAll vs ts' → ts = ts'
  | [], [], _, _, _ => rfl
  | [], _ :: _, [], _, h' => h'.elim
  | [], _ :: _, _ :: _, h, _ => h.elim
  | _ :: _, [], [], h, _ => h.elim
  | _ :: _, [], _ :: _, _, h' => h'.elim
  | t :: ts, t' :: ts', [], h, _ => h.elim
  | t :: ts, t' :: ts', v :: vs, h, h' => by rw [Shows.unique h.1 h'.1, ShowsAll.unique h.2 h'.2]

theorem ShowsEntries.unique : ∀ {ts ts' : List (Tree × Tree)} {es : List (Value × Value)},
    st.ShowsEntries es ts → st.ShowsEntries es ts' → ts = ts'
  | [], [], _, _, _ => rfl
  | [], _ :: _, [], _, h' => h'.elim
  | [], _ :: _, _ :: _, h, _ => h.elim
  | _ :: _, [], [], h, _ => h.elim
  | _ :: _, [], _ :: _, _, h' => h'.elim
  | _ :: _, _ :: _, [], h, _ => h.elim
  | (key, t) :: ts, (key', t') :: ts', (k, v) :: es, h, h' => by
      obtain ⟨⟨name, rfl, hk⟩, ht, hes⟩ := h
      obtain ⟨⟨name', rfl, hk'⟩, ht', hes'⟩ := h'
      rw [hk] at hk'
      cases hk'
      rw [Shows.unique ht ht', ShowsEntries.unique hes hes']

end

/-! ## Depths -/

mutual

/-- Objects of every height up to its own stand behind a value. -/
theorem Shows.exists_height : ∀ {t : Tree} {v : Value}, st.Shows v t → ∀ k < t.height,
    ∃ id t', id < st.cells.size ∧ st.Shows (.ref id) t' ∧ t'.height = k + 1
  | .scalar _, _, _, k, hk => absurd hk (Nat.not_lt_zero k)
  | .list items, v, h, k, hk => by
      obtain ⟨id, vs, rfl, hcell, hitems⟩ := h
      rcases Nat.lt_succ_iff_lt_or_eq.mp hk with hlt | rfl
      · exact hitems.exists_height k hlt
      · exact ⟨id, .list items, (Array.getElem?_eq_some_iff.mp hcell).1,
          ⟨id, vs, rfl, hcell, hitems⟩, rfl⟩
  | .map entries, v, h, k, hk => by
      obtain ⟨id, es, rfl, hcell, hentries⟩ := h
      rcases Nat.lt_succ_iff_lt_or_eq.mp hk with hlt | rfl
      · exact hentries.exists_height k hlt
      · exact ⟨id, .map entries, (Array.getElem?_eq_some_iff.mp hcell).1,
          ⟨id, es, rfl, hcell, hentries⟩, rfl⟩
  | .date _, _, h, _, _ | .dateTime _, _, h, _, _ | .tuple _, _, h, _, _ | .set _, _, h, _, _ =>
      h.elim

theorem ShowsAll.exists_height : ∀ {ts : List Tree} {vs : List Value}, st.ShowsAll vs ts →
    ∀ k < Tree.heightAll ts, ∃ id t', id < st.cells.size ∧ st.Shows (.ref id) t' ∧
      t'.height = k + 1
  | [], _, _, k, hk => absurd hk (Nat.not_lt_zero k)
  | _ :: _, [], h, _, _ => h.elim
  | _ :: _, _ :: _, h, k, hk => by
      rcases lt_max_iff.mp hk with hk | hk
      · exact h.1.exists_height k hk
      · exact h.2.exists_height k hk

theorem ShowsEntries.exists_height : ∀ {ts : List (Tree × Tree)} {es : List (Value × Value)},
    st.ShowsEntries es ts → ∀ k < Tree.heightEntries ts,
    ∃ id t', id < st.cells.size ∧ st.Shows (.ref id) t' ∧ t'.height = k + 1
  | [], _, _, k, hk => absurd hk (Nat.not_lt_zero k)
  | _ :: _, [], h, _, _ => h.elim
  | (_, _) :: _, (_, _) :: _, h, k, hk => by
      rcases lt_max_iff.mp hk with hk | hk
      · exact h.2.1.exists_height k hk
      · exact h.2.2.exists_height k hk

end

/-- A tree that is shown is no higher than there are objects. -/
theorem Shows.height_le {t : Tree} {v : Value} (h : st.Shows v t) : t.height ≤ st.cells.size := by
  choose object tree hobject hshows hheight using h.exists_height
  let objects (k : Fin t.height) : Fin st.cells.size := ⟨object k k.2, hobject k k.2⟩
  have hinjective : objects.Injective := by
    intro k l hkl
    have hid : object k k.2 = object l l.2 := congrArg Fin.val hkl
    have htree : tree k k.2 = tree l l.2 := (hid ▸ hshows k k.2).unique (hshows l l.2)
    have := (hheight k k.2).symm.trans (htree ▸ hheight l l.2)
    exact Fin.ext (Nat.succ_injective this)
  simpa using Fintype.card_le_of_injective objects hinjective

mutual

/-- Read deep enough, a value gives the tree that it shows. -/
theorem Shows.treeTo_eq : ∀ {t : Tree} {v : Value} {depth : Nat}, st.Shows v t → t.height ≤ depth →
    st.treeTo depth v = t
  | .scalar _, _, depth, rfl, _ => by cases depth <;> rfl
  | .list items, _, depth + 1, ⟨_, _, rfl, hcell, hitems⟩, hle => by
      rw [treeTo, hcell]
      exact congrArg Tree.list (hitems.map_treeTo (Nat.le_of_succ_le_succ hle))
  | .map entries, _, depth + 1, ⟨_, _, rfl, hcell, hentries⟩, hle => by
      rw [treeTo, hcell]
      exact congrArg Tree.map (hentries.map_treeTo (Nat.le_of_succ_le_succ hle))
  | .date _, _, _, h, _ | .dateTime _, _, _, h, _ | .tuple _, _, _, h, _ | .set _, _, _, h, _ =>
      h.elim

theorem ShowsAll.map_treeTo : ∀ {ts : List Tree} {vs : List Value} {depth : Nat},
    st.ShowsAll vs ts → Tree.heightAll ts ≤ depth → vs.map (st.treeTo depth) = ts
  | [], [], _, _, _ => rfl
  | [], _ :: _, _, h, _ => h.elim
  | _ :: _, [], _, h, _ => h.elim
  | t :: ts, v :: vs, depth, h, hle => by
      obtain ⟨hhead, htail⟩ := max_le_iff.mp hle
      rw [List.map_cons, h.1.treeTo_eq hhead, h.2.map_treeTo htail]

theorem ShowsEntries.map_treeTo : ∀ {ts : List (Tree × Tree)} {es : List (Value × Value)}
    {depth : Nat}, st.ShowsEntries es ts → Tree.heightEntries ts ≤ depth →
    es.map (fun (k, v) => (st.treeTo depth k, st.treeTo depth v)) = ts
  | [], [], _, _, _ => rfl
  | [], _ :: _, _, h, _ => h.elim
  | _ :: _, [], _, h, _ => h.elim
  | (_, t) :: ts, (_, v) :: es, depth, ⟨⟨name, rfl, rfl⟩, ht, hts⟩, hle => by
      obtain ⟨hhead, htail⟩ := max_le_iff.mp hle
      have hname : st.treeTo depth (.text name) = .text name := by cases depth <;> rfl
      simp only [List.map_cons, hname, ht.treeTo_eq hhead, hts.map_treeTo htail]

end

/-- **A value that shows a tree is of that tree.** -/
theorem Shows.tree_eq {t : Tree} {v : Value} (h : st.Shows v t) : st.tree v = t :=
  h.treeTo_eq (Nat.le_succ_of_le h.height_le)

end Store
end ApiManifest
