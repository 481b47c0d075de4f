import ApiManifest.Proofs.Sealing

/-!
# Recognised keys

The manifest, the declarations of its resources and the full declarations of their properties are
mappings with keys that mean something. In a manifest that shares nothing these mappings stand at
positions that lead into nothing that is taken as it is, and that are no positions of a mapping with
names for keys. So nulls at recognised keys can always be left out of such a manifest.
-/

namespace ApiManifest

variable {places : Nat → String → Bool} {st : Store} {manifest : Value}

/-! ## Places of recognised keys -/

namespace Document

/-- The declarations of the properties of all resources. -/
def propertiesOf (st : Store) (manifest : Value) : List (Value × Value) :=
  (modelsOf st manifest).flatMap fun (_, decl) => (Resource.listings st decl).flatMap st.listed

/-- The mappings with recognised keys, each one with these keys. -/
def recognised (st : Store) (manifest : Value) : List (Value × List String) :=
  (manifest, "models" :: Metadata.fields)
    :: (modelsOf st manifest).map (fun (_, decl) =>
        (decl, ["path", "methods", "readOnly", "response", "modify"]))
    ++ (propertiesOf st manifest).map fun (_, decl) =>
        (decl, ["type", "required", "description", "example", "validator"])

/-- Whether the text is a recognised key of the object, which has to be a mapping. -/
def isRecognised (st : Store) (manifest : Value) (id : Nat) (name : String) : Bool :=
  st.isMapping id && (recognised st manifest).any fun (v, names) => v == .ref id && name ∈ names

/-- An object with a recognised key is a mapping that has such keys. -/
theorem mem_recognised {id : Nat} {name : String} (h : isRecognised st manifest id name = true) :
    st.isMapping id = true ∧ ∃ names, (.ref id, names) ∈ recognised st manifest := by
  obtain ⟨hmapping, hany⟩ := Bool.and_eq_true_iff.mp h
  obtain ⟨⟨v, names⟩, hmem, hboth⟩ := List.any_eq_true.mp hany
  have hv := eq_of_beq (Bool.and_eq_true_iff.mp hboth).1
  exact ⟨hmapping, names, hv ▸ hmem⟩

end Document

/-! ## Positions -/

namespace Store

variable {v part : Value}

theorem at?_of_mem_fieldsOf {names : List String} (h : part ∈ st.fieldsOf v names) :
    part = .null ∨ ∃ name ∈ names, ∃ n, st.at? v [.key n] = some (.text name) ∧
      st.at? v [.value n] = some part := by
  unfold fieldsOf at h
  cases hes : st.entries? v with
  | none => rw [hes] at h; cases h
  | some es =>
      rw [hes] at h
      obtain ⟨name, hname, rfl⟩ := List.mem_map.mp h
      rcases at?_of_field hes name with hnull | ⟨n, hkey, hat⟩
      · exact Or.inl hnull
      · exact Or.inr ⟨name, hname, n, hkey, hat⟩

theorem at?_of_mem_listed {entry : Value × Value} (h : entry ∈ st.listed v) :
    ∃ n, st.at? v [.key n] = some entry.1 ∧ st.at? v [.value n] = some entry.2 := by
  unfold listed at h
  cases hes : st.entries? v with
  | none => rw [hes] at h; cases h
  | some es =>
      rw [hes, Option.getD_some] at h
      obtain ⟨n, hn⟩ := List.mem_iff_getElem?.mp h
      exact ⟨n, by rw [at?_key hes, hn]; rfl, by rw [at?_value hes, hn]; rfl⟩

/-- What is reached from a part of a value that shares nothing stands at or below the position of
that part. -/
theorem Unshared.prefix_of_reaches {p q : Position} {id : Nat} (hu : st.Unshared v)
    (hp : st.at? v p = some (.ref id)) (hq : st.at? v q = some part) (hr : st.Reaches part id) :
    q <+: p := by
  obtain ⟨r, hr⟩ := hr
  exact ⟨r, hu _ _ id ((at?_append_of hq r).trans hr) hp⟩

end Store

namespace Document

open Store (at?_of_mem_fieldsOf at?_of_mem_listed at?_append_of)

/-- The positions of the mappings with recognised keys. -/
inductive KeyedSlot (st : Store) (manifest : Value) : Position → Prop where
  | manifest : KeyedSlot st manifest []
  | resource {m i : Nat} : st.at? manifest [.key m] = some (.text "models") →
      KeyedSlot st manifest [.value m, .value i]
  | property {m i j k : Nat} {part : String} :
      st.at? manifest [.key m] = some (.text "models") → part ∈ ["response", "modify"] →
      st.at? manifest [.value m, .value i, .key j] = some (.text part) →
      KeyedSlot st manifest [.value m, .value i, .value j, .value k]

/-- The positions of what is taken as it is. -/
inductive TakenSlot (st : Store) (manifest : Value) : Position → Prop where
  | field {n : Nat} {name : String} : name ∈ Metadata.fields →
      st.at? manifest [.key n] = some (.text name) → TakenSlot st manifest [.value n]
  | name {m i : Nat} : TakenSlot st manifest [.value m, .key i]
  | resourceField {m i j : Nat} {name : String} : name ∈ ["path", "methods", "readOnly"] →
      st.at? manifest [.value m, .value i, .key j] = some (.text name) →
      TakenSlot st manifest [.value m, .value i, .value j]
  | propertyName {m i j k : Nat} : TakenSlot st manifest [.value m, .value i, .value j, .key k]
  | short {m i j k : Nat} {decl : Value} :
      st.at? manifest [.value m, .value i, .value j, .value k] = some decl →
      st.entries? decl = none → TakenSlot st manifest [.value m, .value i, .value j, .value k]
  | propertyField {m i j k l : Nat} :
      TakenSlot st manifest [.value m, .value i, .value j, .value k, .value l]

/-- No field of a resource that is taken as it is has properties. -/
theorem ne_of_mem_listing {part name : String} (hpart : part ∈ ["response", "modify"])
    (hname : name ∈ ["path", "methods", "readOnly"]) : part ≠ name := by
  rintro rfl
  simp only [List.mem_cons, List.not_mem_nil, or_false] at hpart hname
  rcases hpart with rfl | rfl <;> simp at hname

/-- No mapping with recognised keys stands in what is taken as it is. -/
theorem TakenSlot.not_prefix {p q : Position} {id : Nat} (hq : TakenSlot st manifest q)
    (hp : KeyedSlot st manifest p) (hat : st.at? manifest p = some (.ref id))
    (hm : st.isMapping id = true) : ¬ q <+: p := by
  intro hle
  cases hp with
  | manifest => cases hq <;> simp at hle
  | resource hmodels =>
      cases hq with
      | field hname hkey =>
          -- the manifest has one key at one place
          rw [List.cons_prefix_cons] at hle
          cases hle.1
          rw [hmodels] at hkey
          cases hkey
          exact Metadata.ne_models hname rfl
      | _ => simp at hle
  | property hmodels hpart hkey =>
      cases hq with
      | field hname hkey' =>
          rw [List.cons_prefix_cons] at hle
          cases hle.1
          rw [hmodels] at hkey'
          cases hkey'
          exact Metadata.ne_models hname rfl
      | resourceField hname hkey' =>
          simp only [List.cons_prefix_cons, Step.value.injEq, List.nil_prefix, and_true] at hle
          obtain ⟨rfl, rfl, rfl⟩ := hle
          rw [hkey] at hkey'
          cases hkey'
          exact ne_of_mem_listing hpart hname rfl
      | short hdecl hnone =>
          have heq := hle.eq_of_length rfl
          rw [heq, hat] at hdecl
          cases hdecl
          unfold Store.isMapping at hm
          rw [hnone] at hm
          cases hm
      | _ => simp at hle

/-! ## Where things stand -/

theorem exists_of_mem_modelsOf {model : Value × Value} (h : model ∈ modelsOf st manifest) :
    ∃ m i, st.at? manifest [.key m] = some (.text "models") ∧
      st.at? manifest [.value m, .key i] = some model.1 ∧
      st.at? manifest [.value m, .value i] = some model.2 := by
  obtain ⟨models, hmodels, hmodel⟩ := List.mem_flatMap.mp h
  obtain ⟨i, hkey, hvalue⟩ := at?_of_mem_listed hmodel
  rcases at?_of_mem_fieldsOf hmodels with rfl | ⟨name, hname, m, hm, hat⟩
  · cases hkey
  · rw [List.mem_singleton.mp hname] at hm
    exact ⟨m, i, hm, (at?_append_of hat [.key i]).trans hkey,
      (at?_append_of hat [.value i]).trans hvalue⟩

/-- The mapping of the properties of a resource stands in its declaration. -/
theorem exists_of_mem_listings {decl v : Value} {m i : Nat}
    (hdecl : st.at? manifest [.value m, .value i] = some decl)
    (h : v ∈ Resource.listings st decl) : v = .null ∨ ∃ j, ∃ part ∈ ["response", "modify"],
      st.at? manifest [.value m, .value i, .key j] = some (.text part) ∧
      st.at? manifest [.value m, .value i, .value j] = some v := by
  rcases at?_of_mem_fieldsOf h with rfl | ⟨part, hpart, j, hkey, hat⟩
  · exact Or.inl rfl
  · exact Or.inr ⟨j, part, hpart, (at?_append_of hdecl [.key j]).trans hkey,
      (at?_append_of hdecl [.value j]).trans hat⟩

/-- Recognised keys stand in mappings at their positions. -/
theorem keyedSlot_of_mem_recognised {entry : Value × List String}
    (h : entry ∈ recognised st manifest) :
    ∃ p, KeyedSlot st manifest p ∧ st.at? manifest p = some entry.1 := by
  rcases List.mem_append.mp h with h | h
  · rcases List.mem_cons.mp h with rfl | h
    · exact ⟨[], .manifest, rfl⟩
    · obtain ⟨model, hmodel, rfl⟩ := List.mem_map.mp h
      obtain ⟨m, i, hm, _, hdecl⟩ := exists_of_mem_modelsOf hmodel
      exact ⟨_, .resource hm, hdecl⟩
  · obtain ⟨property, hproperty, rfl⟩ := List.mem_map.mp h
    obtain ⟨model, hmodel, hproperty⟩ := List.mem_flatMap.mp hproperty
    obtain ⟨v, hv, hproperty⟩ := List.mem_flatMap.mp hproperty
    obtain ⟨m, i, hm, _, hdecl⟩ := exists_of_mem_modelsOf hmodel
    obtain ⟨k, _, hvalue⟩ := at?_of_mem_listed hproperty
    rcases exists_of_mem_listings hdecl hv with rfl | ⟨j, part, hpart, hj, hat⟩
    · cases hvalue
    · exact ⟨_, .property hm hpart hj, (at?_append_of hat [.value k]).trans hvalue⟩

/-- What is taken as it is stands at the positions for it. -/
theorem takenSlot_of_mem_wholes {x : Value} (h : x ∈ wholes st manifest) :
    x = .null ∨ ∃ q, TakenSlot st manifest q ∧ st.at? manifest q = some x := by
  -- a field of the interface, a resource's name, a field of a resource, or a part of a property
  rcases List.mem_append.mp h with h | h
  · rcases at?_of_mem_fieldsOf h with rfl | ⟨name, hname, n, hkey, hat⟩
    · exact Or.inl rfl
    · exact Or.inr ⟨_, .field hname hkey, hat⟩
  · obtain ⟨model, hmodel, h⟩ := List.mem_flatMap.mp h
    obtain ⟨m, i, hm, hname, hdecl⟩ := exists_of_mem_modelsOf hmodel
    rcases List.mem_cons.mp h with rfl | h
    · exact Or.inr ⟨_, .name, hname⟩
    rcases Resource.mem_wholes.mp h with h | ⟨v, hv, h⟩
    · rcases at?_of_mem_fieldsOf h with rfl | ⟨name, hname, j, hkey, hat⟩
      · exact Or.inl rfl
      · exact Or.inr ⟨_, .resourceField hname ((at?_append_of hdecl [.key j]).trans hkey),
          (at?_append_of hdecl [.value j]).trans hat⟩
    · obtain ⟨entry, hentry, hx⟩ := Property.mem_allWholes.mp h
      obtain ⟨k, hkey, hvalue⟩ := at?_of_mem_listed hentry
      rcases exists_of_mem_listings hdecl hv with rfl | ⟨j, part, hpart, hj, hat⟩
      · cases hkey
      have hproperty : st.at? manifest [.value m, .value i, .value j, .value k] = some entry.2 :=
        (at?_append_of hat [.value k]).trans hvalue
      rcases hx with rfl | hx
      · exact Or.inr ⟨_, .propertyName, (at?_append_of hat [.key k]).trans hkey⟩
      unfold Property.wholes at hx
      split at hx
      · rcases at?_of_mem_fieldsOf hx with rfl | ⟨_, _, l, _, hfield⟩
        · exact Or.inl rfl
        · exact Or.inr ⟨_, .propertyField, (at?_append_of hproperty [.value l]).trans hfield⟩
      · rename_i hnone
        rw [List.mem_singleton.mp hx]
        exact Or.inr ⟨_, .short hproperty (by simpa using hnone), hproperty⟩

/-! ## Manifests that share nothing -/

section

variable (hu : st.Unshared manifest)
  (hplaces : ∀ id name, places id name = true → isRecognised st manifest id name = true)

include hu hplaces

/-- **What is taken as it is has no places.** -/
theorem wholes_untrimmed : ∀ x ∈ wholes st manifest, ∀ id, st.Reaches x id →
    Untrimmed places id := by
  intro x hx id hr name
  rw [Bool.eq_false_iff]
  intro hplace
  obtain ⟨hm, names, hmem⟩ := mem_recognised (hplaces id name hplace)
  obtain ⟨p, hp, hat⟩ := keyedSlot_of_mem_recognised hmem
  rcases takenSlot_of_mem_wholes hx with rfl | ⟨q, hq, hat'⟩
  · obtain ⟨r, hr⟩ := hr
    cases r <;> cases hr
  · exact hq.not_prefix hp hat hm (hu.prefix_of_reaches hat hat' hr)

/-- **The mappings that declarations are listed in have no places.** -/
theorem listings_untrimmed : ∀ v ∈ listings st manifest, v.In (Untrimmed places) := by
  intro v hv
  cases v with
  | scalar s => trivial
  | ref id =>
      intro name
      rw [Bool.eq_false_iff]
      intro hplace
      obtain ⟨_, names, hmem⟩ := mem_recognised (hplaces id name hplace)
      obtain ⟨p, hp, hat⟩ := keyedSlot_of_mem_recognised hmem
      -- a list of declarations stands at an odd depth, a mapping with recognised keys at an even
      -- one
      have hodd : ∃ q : Position, st.at? manifest q = some (.ref id) ∧ q.length % 2 = 1 := by
        rcases List.mem_append.mp hv with hv | hv
        · rcases at?_of_mem_fieldsOf hv with hnull | ⟨_, _, m, _, hat⟩
          · cases hnull
          · exact ⟨_, hat, by simp⟩
        · obtain ⟨model, hmodel, hv⟩ := List.mem_flatMap.mp hv
          obtain ⟨m, i, _, _, hdecl⟩ := exists_of_mem_modelsOf hmodel
          rcases exists_of_mem_listings hdecl hv with hnull | ⟨j, _, _, _, hat⟩
          · cases hnull
          · exact ⟨_, hat, by simp⟩
      obtain ⟨q, hq, hlength⟩ := hodd
      rw [hu q p id hq hat] at hlength
      cases hp <;> simp at hlength

end

end Document
end ApiManifest
