import ApiManifest.Data.Tree
import Mathlib.Data.List.Induction

/-!
# Finding what was put

Fields and entries behave like maps that remember the order of insertion: what is put at a key is
found there, what stands at other keys stays, and a key keeps the place at which it first came.
-/

namespace ApiManifest

/-! ## Fields -/

namespace Fields

variable {α β : Type}

@[simp] theorem get?_put_self (name : String) (value : α) (fields : Fields α) :
    get? name (put name value fields) = some value := by
  induction fields with
  | nil => simp [put, get?]
  | cons entry rest ih =>
      rcases entry with ⟨n, v⟩
      by_cases hn : n = name
      · simp [put, get?, hn]
      · simp [put, get?, hn, ih]

theorem get?_put_of_ne {name other : String} (h : other ≠ name) (value : α)
    (fields : Fields α) : get? other (put name value fields) = get? other fields := by
  induction fields with
  | nil => simp [put, get?, h.symm]
  | cons entry rest ih =>
      rcases entry with ⟨n, v⟩
      by_cases hn : n = name
      · subst hn
        simp [put, get?, h.symm]
      · by_cases ho : n = other
        · subst ho
          simp [put, get?, hn]
        · simp [put, get?, hn, ho, ih]

/-- A name that is there keeps its place, a new one comes last. -/
theorem names_put (name : String) (value : α) (fields : Fields α) :
    names (put name value fields)
      = if name ∈ names fields then names fields else names fields ++ [name] := by
  induction fields with
  | nil => simp [put, names]
  | cons entry rest ih =>
      rcases entry with ⟨n, v⟩
      by_cases hn : n = name
      · simp [put, names, hn]
      · have ih' : List.map Prod.fst (put name value rest)
            = if name ∈ List.map Prod.fst rest then List.map Prod.fst rest
              else List.map Prod.fst rest ++ [name] := ih
        simp only [put, names, hn, if_false, List.map_cons, List.mem_cons, Ne.symm hn, false_or,
          ih']
        split <;> rfl

theorem mem_names_put {name other : String} {value : α} {fields : Fields α} :
    other ∈ names (put name value fields) ↔ other = name ∨ other ∈ names fields := by
  rw [names_put]
  split
  · rename_i h
    constructor
    · exact Or.inr
    · rintro (rfl | h')
      · exact h
      · exact h'
  · simp [or_comm]

theorem nodup_names_put {name : String} {value : α} {fields : Fields α}
    (h : (names fields).Nodup) : (names (put name value fields)).Nodup := by
  rw [names_put]
  split
  · exact h
  · rename_i hn
    refine List.nodup_append.mpr ⟨h, by simp, ?_⟩
    intro a ha b hb hab
    rw [List.mem_singleton] at hb
    exact hn (hb ▸ hab ▸ ha)

theorem mem_of_get? {name : String} {value : α} {fields : Fields α}
    (h : get? name fields = some value) : (name, value) ∈ fields := by
  induction fields with
  | nil => simp [get?] at h
  | cons entry rest ih =>
      rcases entry with ⟨n, v⟩
      by_cases hn : n = name
      · simp [get?, hn] at h
        simp [hn, h]
      · simp [get?, hn] at h
        exact List.mem_cons_of_mem _ (ih h)

theorem get?_isSome_iff {name : String} {fields : Fields α} :
    (get? name fields).isSome ↔ name ∈ names fields := by
  induction fields with
  | nil => simp [get?, names]
  | cons entry rest ih =>
      rcases entry with ⟨n, v⟩
      by_cases hn : n = name
      · simp [get?, names, hn]
      · simp only [get?, hn, if_false, ih, names, List.map_cons, List.mem_cons, Ne.symm hn,
          false_or]

theorem get?_eq_none_iff {name : String} {fields : Fields α} :
    get? name fields = none ↔ name ∉ names fields := by
  rw [← get?_isSome_iff]
  cases get? name fields <;> simp

/-- With distinct names every field is found. -/
theorem get?_of_mem {name : String} {value : α} {fields : Fields α}
    (hd : (names fields).Nodup) (h : (name, value) ∈ fields) : get? name fields = some value := by
  induction fields with
  | nil => simp at h
  | cons entry rest ih =>
      rcases entry with ⟨n, v⟩
      have hd' : n ∉ names rest ∧ (names rest).Nodup := List.nodup_cons.mp hd
      rcases List.mem_cons.mp h with heq | hmem
      · cases heq
        simp [get?]
      · have hne : n ≠ name := by
          rintro rfl
          exact hd'.1 (List.mem_map_of_mem hmem)
        simp [get?, hne, ih hd'.2 hmem]

/-- Whatever is in the fields after a value was put is that value or was in them before. -/
theorem mem_put {name : String} {value : α} {fields : Fields α} {entry : String × α}
    (h : entry ∈ put name value fields) : entry = (name, value) ∨ entry ∈ fields := by
  induction fields with
  | nil => simpa [put] using h
  | cons first rest ih =>
      rcases first with ⟨n, v⟩
      by_cases hn : n = name
      · subst hn
        simp only [put, if_true, List.mem_cons] at h
        rcases h with h | h
        · exact Or.inl h
        · exact Or.inr (List.mem_cons_of_mem _ h)
      · simp only [put, hn, if_false, List.mem_cons] at h
        rcases h with h | h
        · exact Or.inr (h ▸ List.mem_cons_self)
        · rcases ih h with h' | h'
          · exact Or.inl h'
          · exact Or.inr (List.mem_cons_of_mem _ h')

/-- Putting the value that is there changes nothing. -/
theorem put_eq_self {name : String} {value : α} {fields : Fields α}
    (h : get? name fields = some value) : put name value fields = fields := by
  induction fields with
  | nil => simp [get?] at h
  | cons entry rest ih =>
      rcases entry with ⟨n, v⟩
      by_cases hn : n = name
      · simp [get?, hn] at h
        simp [put, hn, h]
      · simp [get?, hn] at h
        simp [put, hn, ih h]

/-! ### Putting one after the other -/

/-- The fields that come of putting some values one after the other. -/
def collect (entries : List (String × α)) : Fields α :=
  entries.foldl (fun fields entry => put entry.1 entry.2 fields) []

theorem collect_concat (entries : List (String × α)) (entry : String × α) :
    collect (entries ++ [entry]) = put entry.1 entry.2 (collect entries) := by
  rw [collect, List.foldl_append]
  rfl

/-- Each name is there once, where it first came. -/
theorem names_collect (entries : List (String × α)) :
    names (collect entries) = (entries.map Prod.fst).eraseDups := by
  -- values are put from the left, so the induction takes the last one off
  induction entries using List.reverseRecOn with
  | nil => rfl
  | append_singleton entries entry ih =>
      rw [collect_concat, names_put, ih, List.map_append, List.eraseDups_append]
      by_cases hmem : entry.1 ∈ entries.map Prod.fst
      · rw [if_pos (List.mem_eraseDups.mpr hmem)]
        simp [List.removeAll, List.mem_map.mp hmem]
      · rw [if_neg (mt List.mem_eraseDups.mp hmem)]
        simp [List.removeAll, List.eraseDups_cons, List.mem_map.not.mp hmem]

theorem nodup_names_collect (entries : List (String × α)) : (names (collect entries)).Nodup := by
  induction entries using List.reverseRecOn with
  | nil => exact List.nodup_nil
  | append_singleton entries entry ih =>
      rw [collect_concat]
      exact nodup_names_put ih

theorem mem_of_mem_collect {entries : List (String × α)} {entry : String × α}
    (h : entry ∈ collect entries) : entry ∈ entries := by
  induction entries using List.reverseRecOn with
  | nil => exact h
  | append_singleton entries last ih =>
      rw [collect_concat] at h
      rcases mem_put h with rfl | h
      · exact List.mem_concat_self
      · exact List.mem_append_left _ (ih h)

/-- The last value of a name counts. -/
theorem get?_collect (name : String) (entries : List (String × α)) :
    get? name (collect entries)
      = ((entries.filter (·.1 = name)).getLast?).map Prod.snd := by
  induction entries using List.reverseRecOn with
  | nil => rfl
  | append_singleton entries entry ih =>
      rw [collect_concat, List.filter_append]
      by_cases hname : entry.1 = name
      · rw [← hname, get?_put_self]
        simp
      · rw [get?_put_of_ne (Ne.symm hname), ih]
        simp [hname]

end Fields

/-! ## Entries -/

/-- The only key that is the same as a text is that text. -/
theorem Tree.sameKey_text {name : String} {key : Tree} :
    (Tree.text name).sameKey key = true ↔ key = .text name := by
  cases key with
  | scalar s =>
      cases s with
      | text t =>
          simp only [Tree.sameKey, Scalar.same, beq_iff_eq, Tree.scalar.injEq, Scalar.text.injEq]
          exact eq_comm
      | _ => simp [Tree.sameKey, Scalar.same, Scalar.int?]
  | _ => simp [Tree.sameKey]

namespace Entries

@[simp] theorem get?_put_self (name : String) (value : Tree) (es : Entries) :
    get? (put (.text name) value es) name = some value := by
  unfold get?
  induction es with
  | nil => simp [put, find?, Tree.sameKey_text]
  | cons entry rest ih =>
      rcases entry with ⟨k, v⟩
      by_cases hk : (Tree.text name).sameKey k = true
      · simp [put, find?, hk]
      · simp [put, find?, hk, ih]

theorem get?_put_of_ne {name other : String} (h : other ≠ name) (value : Tree) (es : Entries) :
    get? (put (.text name) value es) other = get? es other := by
  unfold get?
  -- keys are compared by the values they stand for, and a text stands for itself only
  have hne : ∀ k, (Tree.text name).sameKey k = true → (Tree.text other).sameKey k = false := by
    intro k hk
    rw [Tree.sameKey_text] at hk
    rw [Bool.eq_false_iff, Ne, Tree.sameKey_text, hk]
    simpa using h.symm
  induction es with
  | nil => simp [put, find?, hne _ (Tree.sameKey_text.mpr rfl)]
  | cons entry rest ih =>
      rcases entry with ⟨k, v⟩
      by_cases hk : (Tree.text name).sameKey k = true
      · simp [put, find?, hk, hne k hk]
      · by_cases ho : (Tree.text other).sameKey k = true
        · simp [put, find?, hk, ho]
        · simp [put, find?, hk, ho, ih]

end Entries
end ApiManifest
