import ApiManifest.Proofs.Construction
import ApiManifest.Proofs.JsonNumbers
import ApiManifest.Proofs.JsonShapes

/-!
# Trees of JSON texts

What is made of the nodes of a text of JSON. It is the tree that the text has in JSON exactly if the
strings and the numbers mean in YAML what they mean in JSON.
-/

namespace ApiManifest

namespace Yaml.Tag

/-- A text without quotes is one value unless it is a date. -/
theorem isSingle_shownBy {text : String} (h : (shownBy text).IsJson) :
    (shownBy text).IsSingle := by
  unfold shownBy ofText at h ⊢
  repeat' split
  all_goals first | trivial | simp_all [IsJson]

end Yaml.Tag

namespace JsonText

open Yaml

/-- What is read of the part means in YAML what it means in JSON. -/
def Part.IsKept : Part → Prop
  | .string s => Unfolded s
  | .number n => n.IsYaml
  | _ => True

/-! ## Nodes of items and members -/

section

variable {g : Graph} {before colon middle behind : Gap} {name : List Piece} {value : Text}

theorem Items.built_last_iff {ids : List Nat} :
    Shape.BuiltAll g ids (Items.last before value behind).shapes ↔
      ∃ id, ids = [id] ∧ value.shape.Built g id := by
  rcases ids with _ | ⟨id, _ | ⟨id', ids⟩⟩ <;> simp [Items.shapes, Shape.BuiltAll]

theorem Items.built_more_iff {ids : List Nat} {rest : Items} :
    Shape.BuiltAll g ids (Items.more before value behind rest).shapes ↔
      ∃ id more, ids = id :: more ∧ value.shape.Built g id ∧
        Shape.BuiltAll g more rest.shapes := by
  cases ids <;> simp [Items.shapes, Shape.BuiltAll]

theorem Members.built_last_iff {ids : List (Nat × Nat)} :
    Shape.BuiltEntries g ids (Members.last before name colon middle value behind).shapes ↔
      ∃ key id, ids = [(key, id)] ∧
        g.nodes[key]? = some ⟨.str, .text (Yaml.textOf (heard .words [] name))⟩ ∧
        value.shape.Built g id := by
  rcases ids with _ | ⟨⟨key, id⟩, _ | ⟨entry, ids⟩⟩ <;> simp [Members.shapes, Shape.BuiltEntries]

theorem Members.built_more_iff {ids : List (Nat × Nat)} {rest : Members} :
    Shape.BuiltEntries g ids (Members.more before name colon middle value behind rest).shapes ↔
      ∃ key id more, ids = (key, id) :: more ∧
        g.nodes[key]? = some ⟨.str, .text (Yaml.textOf (heard .words [] name))⟩ ∧
        value.shape.Built g id ∧ Shape.BuiltEntries g more rest.shapes := by
  rcases ids with _ | ⟨⟨key, id⟩, ids⟩ <;> simp [Members.shapes, Shape.BuiltEntries]

end

/-! ## Texts that keep what they mean -/

mutual

/-- What is made of a value stands for its tree. -/
theorem represents_text {g : Graph} : ∀ {t : Text} {id : Nat}, t.Distinct →
    (∀ part ∈ t.parts, part.IsKept) → t.shape.Built g id → g.Represents id t.tree
  | .null, _, _, _, h => ⟨_, _, h, rfl⟩
  | .bool b, _, _, _, h => ⟨_, _, h, by cases b <;> rfl⟩
  | .number n, _, _, hkept, h =>
      ⟨_, _, h, n.scalarOf_chars_iff.mpr (hkept (.number n) List.mem_cons_self)⟩
  | .string s, _, _, hkept, h =>
      ⟨_, _, h, congrArg (Except.ok ∘ Scalar.text)
        (textOf_heard_iff.mpr (hkept (.string s) List.mem_cons_self))⟩
  | .emptyArray _, _, _, _, ⟨ids, hnode, h⟩ => by
      cases ids with
      | nil => exact ⟨[], hnode, trivial⟩
      | cons => exact h.elim
  | .array _, _, hd, hkept, ⟨ids, hnode, h⟩ => ⟨ids, hnode, represents_items hd hkept h⟩
  | .emptyObject _, _, _, _, ⟨ids, hnode, h⟩ => by
      cases ids with
      | nil => exact ⟨[], hnode, trivial, List.nodup_nil⟩
      | cons => exact h.elim
  | .object members, _, hd, hkept, ⟨ids, hnode, h⟩ =>
      ⟨ids, hnode, represents_members hd.2 hkept h, members.keys_entries ▸ Parse.nodup_texts hd.1⟩

theorem represents_items {g : Graph} : ∀ {items : Items} {ids : List Nat}, items.Distinct →
    (∀ part ∈ items.parts, part.IsKept) → Shape.BuiltAll g ids items.shapes →
    g.RepresentsAll ids items.trees
  | .last .., _, hd, hkept, h => by
      obtain ⟨id, rfl, hbuilt⟩ := Items.built_last_iff.mp h
      obtain ⟨-, hvalue, -⟩ := Items.forall_parts_last.mp hkept
      exact ⟨represents_text hd hvalue hbuilt, trivial⟩
  | .more .., _, hd, hkept, h => by
      obtain ⟨id, ids, rfl, hbuilt, hmore⟩ := Items.built_more_iff.mp h
      obtain ⟨-, hvalue, -, hrest⟩ := Items.forall_parts_more.mp hkept
      exact ⟨represents_text hd.1 hvalue hbuilt, represents_items hd.2 hrest hmore⟩

theorem represents_members {g : Graph} : ∀ {members : Members} {ids : List (Nat × Nat)},
    members.Distinct → (∀ part ∈ members.parts, part.IsKept) →
    Shape.BuiltEntries g ids members.shapes → g.RepresentsEntries ids members.entries
  | .last _ name .., _, hd, hkept, h => by
      obtain ⟨key, id, rfl, hkey, hbuilt⟩ := Members.built_last_iff.mp h
      obtain ⟨-, hunfolded, -, -, -, hvalue, -⟩ := Members.forall_parts_last.mp hkept
      have hname : Yaml.textOf (heard .words [] name) = textOf name :=
        textOf_heard_iff.mpr hunfolded
      exact ⟨⟨textOf name, rfl, hname ▸ hkey⟩, represents_text hd hvalue hbuilt, trivial⟩
  | .more _ name .., _, hd, hkept, h => by
      obtain ⟨key, id, ids, rfl, hkey, hbuilt, hmore⟩ := Members.built_more_iff.mp h
      obtain ⟨-, hunfolded, -, -, -, hvalue, -, hrest⟩ := Members.forall_parts_more.mp hkept
      have hname : Yaml.textOf (heard .words [] name) = textOf name :=
        textOf_heard_iff.mpr hunfolded
      exact ⟨⟨textOf name, rfl, hname ▸ hkey⟩, represents_text hd.1 hvalue hbuilt,
        represents_members hd.2 hrest hmore⟩

end

/-! ## Texts whose values show their trees -/

mutual

/-- What is made of a value may hold scalars that cannot be read, but nothing worse. -/
theorem regular_text {g : Graph} : ∀ {t : Text} {id : Nat}, t.shape.Built g id →
    g.Regular True id
  | .null, _, h => .scalar h True.intro (.inl trivial)
  | .bool b, _, h =>
      .scalar h (by cases b <;> exact True.intro) (.inl trivial)
  | .number n, _, h => .scalar h (Tag.isSingle_shownBy n.isWord.isJson) (.inl trivial)
  | .string _, _, h => .scalar h trivial (.inl trivial)
  | .emptyArray _, _, ⟨ids, hnode, h⟩ => by
      cases ids with
      | nil => exact .list hnode fun _ h => absurd h List.not_mem_nil
      | cons => exact h.elim
  | .array _, _, ⟨_, hnode, h⟩ => .list hnode (regular_items h)
  | .emptyObject _, _, ⟨ids, hnode, h⟩ => by
      cases ids with
      | nil =>
          exact .map hnode (fun _ h => absurd h List.not_mem_nil)
            fun _ h => absurd h List.not_mem_nil
      | cons => exact h.elim
  | .object _, _, ⟨_, hnode, h⟩ =>
      .map hnode (fun _ hentry => (regular_members h _ hentry).1) fun _ hentry =>
        (regular_members h _ hentry).2

theorem regular_items {g : Graph} : ∀ {items : Items} {ids : List Nat},
    Shape.BuiltAll g ids items.shapes → ∀ id ∈ ids, g.Regular True id
  | .last .., _, h => by
      obtain ⟨id, rfl, hbuilt⟩ := Items.built_last_iff.mp h
      exact List.forall_mem_singleton.mpr (regular_text hbuilt)
  | .more .., _, h => by
      obtain ⟨id, ids, rfl, hbuilt, hmore⟩ := Items.built_more_iff.mp h
      exact List.forall_mem_cons.mpr ⟨regular_text hbuilt, regular_items hmore⟩

theorem regular_members {g : Graph} : ∀ {members : Members} {ids : List (Nat × Nat)},
    Shape.BuiltEntries g ids members.shapes →
    ∀ entry ∈ ids, g.IsKey entry.1 ∧ g.Regular True entry.2
  | .last .., _, h => by
      obtain ⟨key, id, rfl, hkey, hbuilt⟩ := Members.built_last_iff.mp h
      exact List.forall_mem_singleton.mpr ⟨⟨_, hkey⟩, regular_text hbuilt⟩
  | .more .., _, h => by
      obtain ⟨key, id, ids, rfl, hkey, hbuilt, hmore⟩ := Members.built_more_iff.mp h
      exact List.forall_mem_cons.mpr ⟨⟨⟨_, hkey⟩, regular_text hbuilt⟩, regular_members hmore⟩

end

/-- As many entries are shown as there are. -/
theorem length_of_showsEntries {st : Store} : ∀ {ts : List (Tree × Tree)}
    {es : List (Value × Value)}, st.ShowsEntries es ts → es.length = ts.length
  | [], [], _ => rfl
  | [], _ :: _, h => h.elim
  | _ :: _, [], h => h.elim
  | (_, _) :: _, (_, _) :: _, h => congrArg (· + 1) (length_of_showsEntries h.2.2)

theorem length_of_builtEntries {g : Graph} : ∀ {members : Members} {ids : List (Nat × Nat)},
    Shape.BuiltEntries g ids members.shapes → ids.length = members.entries.length
  | .last .., _, h => by
      obtain ⟨key, id, rfl, -, -⟩ := Members.built_last_iff.mp h
      rfl
  | .more .., _, h => by
      obtain ⟨key, id, ids, rfl, -, -, hmore⟩ := Members.built_more_iff.mp h
      exact congrArg (· + 1) (length_of_builtEntries hmore)

section

variable {g : Graph} {fails : Prop} {c : Construction}

/-- The name of a member is kept if the key of its entry shows it. -/
theorem unfolded_of_shown {name : List Piece} {node : Nat × Nat} {entry : Value × Value}
    (hnode : g.nodes[node.1]? = some ⟨.str, .text (Yaml.textOf (heard .words [] name))⟩)
    (hmade : Construction.MadeEntry g c node entry)
    (hshown : ∃ shown, Tree.text (textOf name) = .text shown ∧ entry.1 = .text shown) :
    Unfolded name := by
  obtain ⟨⟨made, hnode', hkey⟩, -⟩ := hmade
  obtain ⟨shown, hname, hkey'⟩ := hshown
  cases hnode.symm.trans hnode'
  cases hkey.symm.trans hkey'
  exact textOf_heard_iff.mp (by simpa using hname.symm)

mutual

/-- What is made of a value shows its tree only if it keeps what it means. -/
theorem isKept_text (hc : Construction.Sound g fails [] c) (hdone : c.pending = []) :
    ∀ {t : Text} {id : Nat} {v : Value}, t.shape.Built g id → c.Made id v →
    c.store.Shows v t.tree → ∀ part ∈ t.parts, part.IsKept
  | .null, _, _, _, _, _ | .bool _, _, _, _, _, _ => nofun
  | .emptyArray _, _, _, _, _, _ | .emptyObject _, _, _, _, _, _ =>
      List.forall_mem_singleton.mpr trivial
  | .number n, _, _, hnode, hv, hshows => by
      obtain ⟨s, rfl, hs⟩ := hc.made_text hdone hnode hv
      cases (hshows : Value.scalar s = .scalar n.value)
      exact List.forall_mem_singleton.mpr (n.scalarOf_chars_iff.mp hs)
  | .string text, _, _, hnode, hv, hshows => by
      obtain ⟨s, rfl, hs⟩ := hc.made_text hdone hnode hv
      cases hs
      have hshown : Value.scalar (.text (Yaml.textOf (heard .words [] text))) =
          .scalar (.text (textOf text)) := hshows
      exact List.forall_mem_singleton.mpr (textOf_heard_iff.mp (by simpa using hshown))
  | .array items, _, _, ⟨ids, hnode, hitems⟩, hv, hshows => by
      obtain ⟨id, vs, rfl, hcell, hvs⟩ := hc.made_items hdone hnode hv
      obtain ⟨_, vs', heq, hcell', hshows⟩ := hshows
      cases heq
      cases hcell.symm.trans hcell'
      exact isKept_items hc hdone hitems hvs hshows
  | .object members, _, _, ⟨ids, hnode, hmembers⟩, hv, hshows => by
      obtain ⟨id, es, rfl, hcell, hes⟩ := hc.made_entries hdone hnode hv
      obtain ⟨_, es', heq, hcell', hshows⟩ := hshows
      cases heq
      cases hcell.symm.trans hcell'
      -- there is an entry for each member, so none has taken the place of another one
      have hlength : (Store.putAll [] es).length = es.length :=
        (length_of_showsEntries hshows).trans
          ((length_of_builtEntries hmembers).symm.trans hes.length_eq)
      have hput := (Store.length_putAll [] es).2 (by simpa using hlength)
      rw [hput] at hshows
      exact isKept_members hc hdone hmembers hes hshows

theorem isKept_items (hc : Construction.Sound g fails [] c) (hdone : c.pending = []) :
    ∀ {items : Items} {ids : List Nat} {vs : List Value},
    Shape.BuiltAll g ids items.shapes → List.Forall₂ c.Made ids vs →
    c.store.ShowsAll vs items.trees → ∀ part ∈ items.parts, part.IsKept
  | .last .., _, _, h, hmade, hshows => by
      obtain ⟨id, rfl, hbuilt⟩ := Items.built_last_iff.mp h
      cases hmade with
      | cons hv _ =>
          exact Items.forall_parts_last.mpr
            ⟨trivial, isKept_text hc hdone hbuilt hv hshows.1, trivial⟩
  | .more .., _, _, h, hmade, hshows => by
      obtain ⟨id, ids, rfl, hbuilt, hmore⟩ := Items.built_more_iff.mp h
      cases hmade with
      | cons hv hvs =>
          exact Items.forall_parts_more.mpr ⟨trivial, isKept_text hc hdone hbuilt hv hshows.1,
            trivial, isKept_items hc hdone hmore hvs hshows.2⟩

theorem isKept_members (hc : Construction.Sound g fails [] c) (hdone : c.pending = []) :
    ∀ {members : Members} {ids : List (Nat × Nat)} {es : List (Value × Value)},
    Shape.BuiltEntries g ids members.shapes → List.Forall₂ (Construction.MadeEntry g c) ids es →
    c.store.ShowsEntries es members.entries → ∀ part ∈ members.parts, part.IsKept
  | .last .., _, _, h, hmade, hshows => by
      obtain ⟨key, id, rfl, hkey, hbuilt⟩ := Members.built_last_iff.mp h
      cases hmade with
      | cons he _ =>
          exact Members.forall_parts_last.mpr ⟨trivial, unfolded_of_shown hkey he hshows.1, trivial,
            trivial, trivial, isKept_text hc hdone hbuilt he.2 hshows.2.1, trivial⟩
  | .more .., _, _, h, hmade, hshows => by
      obtain ⟨key, id, ids, rfl, hkey, hbuilt, hmore⟩ := Members.built_more_iff.mp h
      cases hmade with
      | cons he hes =>
          exact Members.forall_parts_more.mpr ⟨trivial, unfolded_of_shown hkey he hshows.1, trivial,
            trivial, trivial, isKept_text hc hdone hbuilt he.2 hshows.2.1, trivial,
            isKept_members hc hdone hmore hes hshows.2.2⟩

end

end

end JsonText
end ApiManifest
