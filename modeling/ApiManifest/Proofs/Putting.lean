import ApiManifest.Proofs.Showing

/-!
# Entries that are put into a mapping

Entries with text keys are put into a mapping one after the other. One whose key is there already
takes the place of the other one. So nothing is lost exactly if no key comes twice.
-/

namespace ApiManifest.Store

variable {st : Store} {name : String} {v : Value} {known made es : List (Value × Value)}

/-- All keys are texts. -/
def HasTextKeys (es : List (Value × Value)) : Prop := ∀ e ∈ es, ∃ name, e.1 = .text name

/-- A new key comes last. Otherwise there are as many entries as before. -/
theorem put_cases (st : Store) (key v : Value) (known : List (Value × Value)) :
    st.put key v known = known ++ [(key, v)] ∨ (st.put key v known).length = known.length := by
  induction known with
  | nil => exact .inl rfl
  | cons entry known ih =>
      rw [put]
      split
      · exact .inr rfl
      · exact ih.imp (congrArg _) fun h => by simp [h]

/-- A key that is not there yet comes last. -/
theorem put_of_ne (h : ∀ entry ∈ known, ∃ name', entry.1 = .text name' ∧ name ≠ name') :
    st.put (.text name) v known = known ++ [(.text name, v)] := by
  induction known with
  | nil => rfl
  | cons entry known ih =>
      obtain ⟨name', hkey, hne⟩ := h entry List.mem_cons_self
      have hkey' : st.sameKey (.text name) entry.1 = false := by
        rw [hkey]
        exact beq_false_of_ne hne
      rw [Store.put, hkey', ih fun e he => h e (List.mem_cons_of_mem _ he)]
      rfl

/-- It does not depend on objects where an entry with a text key is put. -/
theorem put_text (st st' : Store) (h : HasTextKeys known) :
    st.put (.text name) v known = st'.put (.text name) v known := by
  induction known with
  | nil => rfl
  | cons entry known ih =>
      obtain ⟨⟨other, hkey⟩, hknown⟩ := List.forall_mem_cons.mp h
      have hsame : st.sameKey (.text name) entry.1 = st'.sameKey (.text name) entry.1 := by
        rw [hkey]
        rfl
      rw [put, put, hsame, ih hknown]

theorem mem_put_text (h : HasTextKeys known) {e : Value × Value}
    (he : e ∈ st.put (.text name) v known) : e = (.text name, v) ∨ e ∈ known := by
  induction known with
  | nil => exact .inl (List.mem_singleton.mp he)
  | cons entry known ih =>
      obtain ⟨⟨other, hkey⟩, hknown⟩ := List.forall_mem_cons.mp h
      rw [put] at he
      split at he
      · next hsame =>
        rw [hkey] at hsame he
        obtain rfl : name = other := eq_of_beq hsame
        exact (List.mem_cons.mp he).imp_right (List.mem_cons_of_mem _)
      · rcases List.mem_cons.mp he with rfl | he
        · exact .inr List.mem_cons_self
        · exact (ih hknown he).imp_right (List.mem_cons_of_mem _)

/-- Puts entries with text keys into a mapping, behind some that are known. -/
def putAll (known made : List (Value × Value)) : List (Value × Value) :=
  made.foldl (fun known entry => ({} : Store).put entry.1 entry.2 known) known

theorem putAll_cons (known : List (Value × Value)) (entry : Value × Value)
    (made : List (Value × Value)) : putAll known (entry :: made)
      = putAll (({} : Store).put entry.1 entry.2 known) made := rfl

theorem hasTextKeys_put (h : HasTextKeys known) : HasTextKeys (st.put (.text name) v known) := by
  intro e he
  rcases mem_put_text h he with rfl | he
  · exact ⟨name, rfl⟩
  · exact h e he

/-- No entry is made up. -/
theorem mem_of_mem_putAll (hknown : HasTextKeys known) (hmade : HasTextKeys made)
    {e : Value × Value} (he : e ∈ putAll known made) : e ∈ known ∨ e ∈ made := by
  induction made generalizing known with
  | nil => exact .inl he
  | cons entry made ih =>
      obtain ⟨⟨name, hkey⟩, hmade⟩ := List.forall_mem_cons.mp hmade
      rw [putAll_cons, hkey] at he
      rcases ih (hasTextKeys_put hknown) hmade he with he | he
      · refine (mem_put_text hknown he).elim (fun heq => .inr ?_) .inl
        rw [heq, ← hkey]
        exact List.mem_cons_self
      · exact .inr (List.mem_cons_of_mem _ he)

/-- Entries are only lost. If their number stays the same, they stay as they are. -/
theorem length_putAll (known made : List (Value × Value)) :
    (putAll known made).length ≤ known.length + made.length ∧
      ((putAll known made).length = known.length + made.length →
        putAll known made = known ++ made) := by
  induction made generalizing known with
  | nil => simp [putAll]
  | cons entry made ih =>
      obtain ⟨hle, heq⟩ := ih (({} : Store).put entry.1 entry.2 known)
      rw [putAll_cons]
      rcases put_cases {} entry.1 entry.2 known with hput | hlength
      · rw [hput] at hle heq ⊢
        simp only [List.length_append, List.length_cons, List.length_nil] at hle heq ⊢
        exact ⟨by omega, fun h => by rw [heq (by omega)]; simp⟩
      · simp only [List.length_cons]
        exact ⟨by omega, fun h => by omega⟩

/-- Nothing is lost if no key comes twice. -/
theorem putAll_of_nodup (hkeys : HasTextKeys (known ++ made))
    (hnodup : ((known ++ made).map Prod.fst).Nodup) : putAll known made = known ++ made := by
  induction made generalizing known with
  | nil => simp [putAll]
  | cons entry made ih =>
      have happend : known ++ entry :: made = known ++ [entry] ++ made := by simp
      obtain ⟨key, v⟩ := entry
      obtain ⟨name, rfl⟩ : ∃ name, key = .text name := hkeys (key, v) (by simp)
      have hput : ({} : Store).put (.text name) v known = known ++ [(.text name, v)] := by
        refine put_of_ne fun e he => ?_
        obtain ⟨name', hkey⟩ := hkeys e (List.mem_append_left _ he)
        refine ⟨name', hkey, ?_⟩
        rintro rfl
        rw [List.map_append, List.nodup_append] at hnodup
        exact hnodup.2.2 _ (List.mem_map_of_mem he) _ List.mem_cons_self hkey
      rw [putAll_cons, hput, ih (happend ▸ hkeys) (happend ▸ hnodup), happend]

/-- Values that show entries have their keys. -/
theorem ShowsEntries.exists_keys : ∀ {ts : List (Tree × Tree)} {es : List (Value × Value)},
    st.ShowsEntries es ts → ∃ names : List String, es.map Prod.fst = names.map Value.text ∧
      ts.map Prod.fst = names.map Tree.text
  | [], [], _ => ⟨[], rfl, rfl⟩
  | [], _ :: _, h => h.elim
  | _ :: _, [], h => h.elim
  | (_, _) :: _, (_, _) :: _, ⟨⟨name, hname, hkey⟩, _, hrest⟩ => by
      obtain ⟨names, hes, hts⟩ := hrest.exists_keys
      exact ⟨name :: names, by simp [hkey, hes], by simp [hname, hts]⟩

theorem ShowsEntries.putAll {ts : List (Tree × Tree)} (h : st.ShowsEntries es ts)
    (hnodup : (ts.map Prod.fst).Nodup) : putAll [] es = es := by
  obtain ⟨names, hes, hts⟩ := h.exists_keys
  have hkeys : HasTextKeys ([] ++ es) := by
    intro e he
    have hmem := List.mem_map_of_mem (f := Prod.fst) he
    rw [List.nil_append, hes] at hmem
    obtain ⟨name, -, heq⟩ := List.mem_map.mp hmem
    exact ⟨name, heq.symm⟩
  refine putAll_of_nodup hkeys ?_
  rw [List.nil_append, hes]
  rw [hts] at hnodup
  exact (List.Nodup.of_map _ hnodup).map fun _ _ heq => by simpa using heq

end ApiManifest.Store
