import ApiManifest.Proofs.KeyedTrees

/-!
# Merging nested mappings

At each key a merge keeps what only the target has, takes what the source has, and goes on where
both have a mapping. What this means at all depths is said by chains of keys: what becomes of the
values that they lead to, which chains there are afterwards, and in which order the keys stand.

Merging the same again changes nothing. And where no mapping meets anything else, mappings can be
merged in any grouping.
-/

namespace ApiManifest

namespace Tree

/-! ## Induction over nested mappings -/

mutual

/-- What holds of a mapping if it holds of its values, and of all that is no mapping, holds of all
trees. -/
theorem induction_values {P : Tree → Prop}
    (step : ∀ t, (∀ es, t = map es → ∀ e ∈ es, P e.2) → P t) : ∀ t, P t
  | map es => step _ fun _ h => map.inj h ▸ induction_entries step es
  | scalar _ | date _ | dateTime _ | list _ | tuple _ | set _ => step _ nofun

theorem induction_entries {P : Tree → Prop}
    (step : ∀ t, (∀ es, t = map es → ∀ e ∈ es, P e.2) → P t) :
    ∀ es : List (Tree × Tree), ∀ e ∈ es, P e.2
  | [] => by simp
  | (_, v) :: rest =>
      List.forall_mem_cons.mpr ⟨induction_values step v, induction_entries step rest⟩

end

/-! ## One mapping -/

variable {t s : Entries} {k : Tree}

theorem isMap_iff {t : Tree} : t.isMap = true ↔ ∃ es, t = map es := by
  constructor
  · intro h
    cases t with
    | map es => exact ⟨es, rfl⟩
    | _ => cases h
  · rintro ⟨es, rfl⟩
    rfl

@[simp] theorem merge_map (t s : Entries) : merge (map t) (map s) = map (mergeEntries t s) := by
  rw [merge]

/-- Unless two mappings meet, the source wins. -/
theorem merge_eq_source {target source : Tree} (h : target.isMap = false ∨ source.isMap = false) :
    merge target source = source := by
  cases source with
  | map s =>
      cases target with
      | map t => simp [isMap] at h
      | _ => rw [merge]; intros; simp_all
  | _ => rw [merge]; simp

theorem mergeInto_map (t s : Entries) :
    mergeInto (map t) (map s) = .ok (map (mergeEntries t s)) := by
  cases s with
  | nil => rw [mergeInto, mergeEntries]
  | cons e rest => rfl

/-- What merging a value into what there is at its key leaves there. -/
def mergeAt : (existing? : Option Tree) → (value : Tree) → Tree
  | none, v => v
  | some e, v => merge e v

theorem mergeEntries_cons (t : Entries) (k v : Tree) (rest : Entries) :
    mergeEntries t ((k, v) :: rest)
      = mergeEntries (Entries.put k (mergeAt (Entries.find? k t) v) t) rest := by
  rw [mergeEntries]
  cases Entries.find? k t <;> rfl

/-- What two mappings have at a key, merged. -/
def blend : (target source : Option Tree) → Option Tree
  | e?, none => e?
  | e?, some v => some (mergeAt e? v)

mutual

theorem isKeyed_merge : ∀ {target source : Tree}, target.isKeyed = true → source.isKeyed = true →
    (merge target source).isKeyed = true
  | target, map s, ht, hs => by
      cases target with
      | map t =>
          rw [merge_map, Entries.isKeyed_map_iff]
          exact keyed_mergeEntries (Entries.isKeyed_map_iff.mp ht) (Entries.isKeyed_map_iff.mp hs)
      | _ =>
          rw [merge_eq_source (.inl rfl)]
          exact hs
  | _, scalar _, _, _ | _, date _, _, _ | _, dateTime _, _, _ | _, list _, _, _
  | _, tuple _, _, _ | _, set _, _, _ => by
      rw [merge_eq_source (.inr rfl)]
      rfl

theorem keyed_mergeEntries : ∀ {t : Entries} {s : List (Tree × Tree)}, t.Keyed → Entries.Keyed s →
    (mergeEntries t s).Keyed
  | _, [], ht, _ => by rwa [mergeEntries]
  | t, (k, v) :: rest, ht, hs => by
      obtain ⟨hk, _, hv, hrest⟩ := Entries.Keyed.cons_iff.mp hs
      rw [mergeEntries_cons]
      refine keyed_mergeEntries (ht.put hk ?_) hrest
      cases hfind : Entries.find? k t with
      | none => exact hv
      | some e => exact isKeyed_merge (Entries.isKeyed_of_find? ht hfind) hv

end

theorem isKeyed_mergeAt {v : Tree} (ht : t.Keyed) (hv : v.isKeyed = true) :
    (mergeAt (Entries.find? k t) v).isKeyed = true := by
  cases hfind : Entries.find? k t with
  | none => exact hv
  | some e => exact isKeyed_merge (Entries.isKeyed_of_find? ht hfind) hv

/-- **What stands at a key after a merge** is what both mappings had there, merged. -/
theorem find?_mergeEntries (ht : t.Keyed) (hs : s.Keyed) (hk : k.isSoundKey = true) :
    Entries.find? k (mergeEntries t s) = blend (Entries.find? k t) (Entries.find? k s) := by
  induction s generalizing t with
  | nil =>
      rw [mergeEntries, Entries.find?]
      cases Entries.find? k t <;> rfl
  | cons entry rest ih =>
      rcases entry with ⟨first, v⟩
      obtain ⟨hfirst, hnew, hv, hrest⟩ := Entries.Keyed.cons_iff.mp hs
      rw [mergeEntries_cons, ih (ht.put hfirst (isKeyed_mergeAt ht hv)) hrest,
        Entries.find?_put ht hfirst hk, Entries.find?]
      by_cases hsame : k.sameKey first = true
      · -- the key does not come again
        have hgone : Entries.find? k rest = none := by
          refine Entries.find?_eq_none_iff.mpr fun e he => ?_
          rw [sameKey_congr hk hfirst (hrest.sound e he) hsame]
          exact hnew e he
        rw [if_pos hsame, if_pos hsame, hgone, Entries.find?_congr ht hk hfirst hsame]
        rfl
      · rw [if_neg hsame, if_neg hsame]

/-- **The order of the keys after a merge:** those of the target, then the new ones of the
source. -/
theorem keys_mergeEntries (ht : t.Keyed) (hs : s.Keyed) :
    (mergeEntries t s).map Prod.fst
      = t.map Prod.fst ++ (s.map Prod.fst).filter fun k => (Entries.find? k t).isNone := by
  induction s generalizing t with
  | nil => rw [mergeEntries, List.map_nil, List.filter_nil, List.append_nil]
  | cons entry rest ih =>
      rcases entry with ⟨first, v⟩
      obtain ⟨hfirst, hnew, hv, hrest⟩ := Entries.Keyed.cons_iff.mp hs
      have hlater : ∀ value, (rest.map Prod.fst).filter
            (fun k => (Entries.find? k (Entries.put first value t)).isNone)
          = (rest.map Prod.fst).filter fun k => (Entries.find? k t).isNone := by
        intro value
        refine List.filter_congr fun k hk => ?_
        obtain ⟨e, he, rfl⟩ := List.mem_map.mp hk
        have hsound := hrest.sound e he
        rw [Entries.find?_put ht hfirst hsound, sameKey_comm hsound hfirst, hnew e he,
          if_neg Bool.false_ne_true]
      rw [mergeEntries_cons, ih (ht.put hfirst (isKeyed_mergeAt ht hv)) hrest, hlater,
        Entries.keys_put, List.map_cons, List.filter_cons]
      cases Entries.find? first t <;> simp

/-! ## Chains of keys -/

/-- What a key leads to after a merge: what only the target had, what the source put there, or two
mappings merged. -/
inductive Meeting (t s : Entries) (k : Tree) : Option Tree → Prop where
  | kept : Entries.find? k s = none → Meeting t s k (Entries.find? k t)
  | taken (v : Tree) : Entries.find? k s = some v →
      (∀ e, Entries.find? k t = some e → e.isMap = false ∨ v.isMap = false) →
      Meeting t s k (some v)
  | merged (t' s' : Entries) : Entries.find? k t = some (map t') →
      Entries.find? k s = some (map s') → Meeting t s k (some (map (mergeEntries t' s')))

theorem meeting (ht : t.Keyed) (hs : s.Keyed) (hk : k.isSoundKey = true) :
    Meeting t s k (Entries.find? k (mergeEntries t s)) := by
  rw [find?_mergeEntries ht hs hk]
  cases hv : Entries.find? k s with
  | none => exact .kept hv
  | some v =>
      cases he : Entries.find? k t with
      | none => exact .taken v hv fun e h => by rw [he] at h; cases h
      | some e =>
          -- two values stand at the key: unless both are mappings, that of the source replaces the
          -- other
          by_cases hclash : e.isMap = false ∨ v.isMap = false
          · have hsource : blend (some e) (some v) = some v :=
              congrArg some (merge_eq_source hclash)
            rw [hsource]
            refine .taken v hv fun e' h => ?_
            rw [he] at h
            exact Option.some.inj h ▸ hclash
          · obtain ⟨he', hv'⟩ := not_or.mp hclash
            cases e with
            | map t' =>
                cases v with
                | map s' =>
                    have hboth : blend (some (map t')) (some (map s'))
                        = some (map (mergeEntries t' s')) :=
                      congrArg some (merge_map t' s')
                    rw [hboth]
                    exact .merged t' s' he hv
                | _ => exact absurd rfl hv'
            | _ => exact absurd rfl he'

theorem follow?_cons (es : Entries) (k : Tree) (rest : List Tree) :
    (map es).follow? (k :: rest) = (Entries.find? k es).bind (·.follow? rest) := rfl

theorem follow?_append (t : Tree) (start more : List Tree) :
    t.follow? (start ++ more) = (t.follow? start).bind (·.follow? more) := by
  induction start generalizing t with
  | nil => rfl
  | cons k rest ih =>
      cases t with
      | map es =>
          rw [List.cons_append, follow?_cons, follow?_cons, Option.bind_assoc]
          exact Option.bind_congr fun v _ => ih v
      | _ => rfl

/-- All that a chain to a mapping passes is a mapping. -/
theorem isMap_of_follow? {t v : Tree} {start chain : List Tree} {es : Entries}
    (h : t.follow? chain = some (map es)) (hstart : start <+: chain)
    (hv : t.follow? start = some v) : v.isMap = true := by
  obtain ⟨more, rfl⟩ := hstart
  rw [follow?_append, hv, Option.bind_some] at h
  cases v with
  | map _ => rfl
  | _ => cases more <;> cases h

/-- Somewhere on the chain, not at its beginning, the source has a value, and the source or the
target has no mapping there. -/
def Overrides (target source : Tree) (chain : List Tree) : Prop :=
  ∃ start, start ≠ [] ∧ start <+: chain ∧ ∃ v, source.follow? start = some v ∧
    (v.isMap = false ∨ ∃ e, target.follow? start = some e ∧ e.isMap = false)

/-- The source overrides nothing below a key that it does not have. -/
theorem not_overrides_of_none (hk : Entries.find? k s = none) (rest : List Tree) :
    ¬ Overrides (map t) (map s) (k :: rest) := by
  rintro ⟨start, hne, hstart, v, hv, -⟩
  cases start with
  | nil => exact hne rfl
  | cons first more =>
      obtain ⟨rfl, -⟩ := List.cons_prefix_cons.mp hstart
      rw [follow?_cons, hk] at hv
      cases hv

theorem overrides_of_clash {e v : Tree} (he : Entries.find? k t = some e)
    (hv : Entries.find? k s = some v) (hclash : e.isMap = false ∨ v.isMap = false)
    (rest : List Tree) : Overrides (map t) (map s) (k :: rest) := by
  refine ⟨[k], nofun, List.cons_prefix_cons.mpr ⟨rfl, List.nil_prefix⟩, v, ?_, ?_⟩
  · rw [follow?_cons, hv]
    rfl
  · refine hclash.symm.imp_right fun hnot => ⟨e, ?_, hnot⟩
    rw [follow?_cons, he]
    rfl

/-- Below a key at which both have mappings it is the same question again. -/
theorem overrides_cons_iff {t' s' : Entries} (ht : Entries.find? k t = some (map t'))
    (hs : Entries.find? k s = some (map s')) (rest : List Tree) :
    Overrides (map t) (map s) (k :: rest) ↔ Overrides (map t') (map s') rest := by
  have hfollow : ∀ more, (map s).follow? (k :: more) = (map s').follow? more ∧
      (map t).follow? (k :: more) = (map t').follow? more := by
    intro more
    rw [follow?_cons, follow?_cons, ht, hs]
    exact ⟨rfl, rfl⟩
  constructor
  · rintro ⟨start, hne, hstart, v, hv, hclash⟩
    cases start with
    | nil => exact absurd rfl hne
    | cons first more =>
        obtain ⟨rfl, hmore⟩ := List.cons_prefix_cons.mp hstart
        rw [(hfollow more).1] at hv
        rw [(hfollow more).2] at hclash
        refine ⟨more, ?_, hmore, v, hv, hclash⟩
        -- at the key itself there is no clash
        rintro rfl
        rcases hclash with hno | ⟨e, he, hno⟩
        · cases hv
          cases hno
        · cases he
          cases hno
  · rintro ⟨start, _, hstart, v, hv, hclash⟩
    refine ⟨k :: start, nofun, List.cons_prefix_cons.mpr ⟨rfl, hstart⟩, v, ?_, ?_⟩
    · rwa [(hfollow start).1]
    · rwa [(hfollow start).2]

/-- Nothing is overridden on a chain that leads to mappings in both. -/
theorem not_overrides_of_maps {target source : Tree} {chain : List Tree} {t s : Entries}
    (ht : target.follow? chain = some (map t)) (hs : source.follow? chain = some (map s)) :
    ¬ Overrides target source chain := by
  rintro ⟨start, -, hstart, v, hv, hno | ⟨e, he, hno⟩⟩
  · rw [isMap_of_follow? hs hstart hv] at hno
    cases hno
  · rw [isMap_of_follow? ht hstart he] at hno
    cases hno

/-- What a chain leads to after a merge: what only the target had, what the source put there, or two
mappings merged. -/
inductive ChainMeeting (t s : Entries) (chain : List Tree) : Option Tree → Prop where
  | kept : (map s).follow? chain = none → ¬ Overrides (map t) (map s) chain →
      ChainMeeting t s chain ((map t).follow? chain)
  | taken : (map t).follow? chain = none ∨ Overrides (map t) (map s) chain →
      ChainMeeting t s chain ((map s).follow? chain)
  | merged (t' s' : Entries) : t'.Keyed → s'.Keyed → (map t).follow? chain = some (map t') →
      (map s).follow? chain = some (map s') →
      ChainMeeting t s chain (some (map (mergeEntries t' s')))

/-- **What a chain of keys leads to after a merge.** -/
theorem chainMeeting {chain : List Tree} (ht : t.Keyed) (hs : s.Keyed)
    (hchain : ∀ k ∈ chain, k.isSoundKey = true) :
    ChainMeeting t s chain ((map (mergeEntries t s)).follow? chain) := by
  induction chain generalizing t s with
  | nil => exact .merged t s ht hs rfl rfl
  | cons k rest ih =>
      obtain ⟨hk, hrest⟩ := List.forall_mem_cons.mp hchain
      have hmeeting := meeting ht hs hk
      rw [follow?_cons]
      generalize Entries.find? k (mergeEntries t s) = found at hmeeting
      cases hmeeting with
      | kept hnone =>
          refine .kept ?_ (not_overrides_of_none hnone rest)
          rw [follow?_cons, hnone]
          rfl
      | taken v hv hclash =>
          have hsource : (some v).bind (·.follow? rest) = (map s).follow? (k :: rest) := by
            rw [follow?_cons, hv]
          rw [hsource]
          refine .taken ?_
          cases he : Entries.find? k t with
          | none =>
              refine .inl ?_
              rw [follow?_cons, he]
              rfl
          | some e => exact .inr (overrides_of_clash he hv (hclash e he) rest)
      | merged t' s' ht' hs' =>
          -- below the key it is the same question for the two mappings there
          have htarget : (map t).follow? (k :: rest) = (map t').follow? rest := by
            rw [follow?_cons, ht']
            rfl
          have hsource : (map s).follow? (k :: rest) = (map s').follow? rest := by
            rw [follow?_cons, hs']
            rfl
          have hbelow := ih (Entries.keyed_of_find? ht ht') (Entries.keyed_of_find? hs hs') hrest
          rw [Option.bind_some]
          generalize (map (mergeEntries t' s')).follow? rest = found at hbelow
          cases hbelow with
          | kept hnone hno =>
              rw [← htarget]
              rw [← hsource] at hnone
              exact .kept hnone (mt (overrides_cons_iff ht' hs' rest).mp hno)
          | taken h =>
              rw [← hsource]
              rw [← htarget] at h
              exact .taken (h.imp_right (overrides_cons_iff ht' hs' rest).mpr)
          | merged t'' s'' hkt hks hft hfs =>
              rw [← htarget] at hft
              rw [← hsource] at hfs
              exact .merged t'' s'' hkt hks hft hfs

variable {chain : List Tree} {v : Tree}

section

variable (ht : t.Keyed) (hs : s.Keyed) (hchain : ∀ k ∈ chain, k.isSoundKey = true)

include ht hs hchain

/-- What the source has outside of mappings is there after the merge. -/
theorem follow?_of_source (h : (map s).follow? chain = some v) (hv : v.isMap = false) :
    (map (mergeEntries t s)).follow? chain = some v := by
  have hmeeting := chainMeeting ht hs hchain
  generalize (map (mergeEntries t s)).follow? chain = found at hmeeting ⊢
  cases hmeeting with
  | kept hnone _ => rw [hnone] at h; cases h
  | taken _ => exact h
  | merged t' s' _ _ _ hfs => rw [hfs] at h; cases h; cases hv

/-- What the target has outside of mappings is there after the merge, unless it is overridden. -/
theorem follow?_of_target (h : (map t).follow? chain = some v) (hv : v.isMap = false)
    (hno : ¬ Overrides (map t) (map s) chain) :
    (map (mergeEntries t s)).follow? chain = some v := by
  have hmeeting := chainMeeting ht hs hchain
  generalize (map (mergeEntries t s)).follow? chain = found at hmeeting ⊢
  cases hmeeting with
  | kept _ _ => exact h
  | taken hover =>
      rcases hover with hnone | hover
      · rw [hnone] at h; cases h
      · exact absurd hover hno
  | merged t' s' _ _ hft _ => rw [hft] at h; cases h; cases hv

/-- The chains that there are after a merge. -/
theorem isSome_follow?_iff : ((map (mergeEntries t s)).follow? chain).isSome = true ↔
    ((map s).follow? chain).isSome = true ∨
      ((map t).follow? chain).isSome = true ∧ ¬ Overrides (map t) (map s) chain := by
  have hmeeting := chainMeeting ht hs hchain
  generalize (map (mergeEntries t s)).follow? chain = found at hmeeting ⊢
  cases hmeeting with
  | kept hnone hno => simp [hnone, hno]
  | taken hover =>
      rcases hover with hnone | hover
      · simp [hnone]
      · simp [hover]
  | merged t' s' _ _ _ hfs => simp [hfs]

/-- The order of the keys at every depth after a merge. -/
theorem keys_follow? {es : Entries} (h : (map (mergeEntries t s)).follow? chain = some (map es)) :
    es.map Prod.fst = (map t).keysAt chain ++ ((map s).keysAt chain).filter
      fun k => ((map t).keysAt chain).all fun k' => !k.sameKey k' := by
  have hmeeting := chainMeeting ht hs hchain
  generalize (map (mergeEntries t s)).follow? chain = found at hmeeting h
  cases hmeeting with
  | kept hnone _ => simp [keysAt, h, hnone]
  | taken hover =>
      have hnone : (map t).keysAt chain = [] := by
        unfold keysAt
        split
        · rename_i t' ht'
          rcases hover with hnone | hover
          · rw [hnone] at ht'; cases ht'
          · exact absurd hover (not_overrides_of_maps ht' h)
        · rfl
      rw [hnone]
      simp [keysAt, h]
  | merged t' s' hkt hks hft hfs =>
      cases h
      simp only [keysAt, hft, hfs]
      rw [keys_mergeEntries hkt hks]
      refine congrArg _ (List.filter_congr fun k _ => ?_)
      rw [Bool.eq_iff_iff, Option.isNone_iff_eq_none, Entries.find?_eq_none_iff]
      simp

end

/-! ## Merging again -/

/-- A mapping that has all that the source has is not changed. -/
theorem mergeEntries_absorb (ht : t.Keyed) (hs : s.Keyed)
    (h : ∀ k v, k.isSoundKey = true → Entries.find? k s = some v →
      ∃ e, Entries.find? k t = some e ∧ merge e v = e) : mergeEntries t s = t := by
  have hkeys : (mergeEntries t s).map Prod.fst = t.map Prod.fst := by
    rw [keys_mergeEntries ht hs, List.append_right_eq_self, List.filter_eq_nil_iff]
    intro k hk
    obtain ⟨e, he, rfl⟩ := List.mem_map.mp hk
    obtain ⟨x, hx, -⟩ := h _ _ (hs.sound e he) (Entries.find?_of_mem hs he)
    simp [hx]
  refine (keyed_mergeEntries ht hs).ext ht hkeys fun k hk => ?_
  rw [hkeys] at hk
  obtain ⟨entry, hentry, rfl⟩ := List.mem_map.mp hk
  have hsound := ht.sound entry hentry
  rw [find?_mergeEntries ht hs hsound]
  cases hv : Entries.find? entry.1 s with
  | none => rfl
  | some v =>
      obtain ⟨e, he, hsame⟩ := h _ v hsound hv
      rw [he]
      exact congrArg some hsame

/-- **Merging a tree changes nothing if it was merged before,** or is what it is merged into. -/
theorem merge_again : ∀ source : Tree, source.isKeyed = true → merge source source = source ∧
    ∀ target : Tree, target.isKeyed = true →
      merge (merge target source) source = merge target source := by
  refine induction_values fun source ih hs => ?_
  cases source with
  | map s =>
      have hs := Entries.isKeyed_map_iff.mp hs
      have hbelow : ∀ k v, Entries.find? k s = some v → merge v v = v ∧ ∀ e : Tree,
          e.isKeyed = true → merge (merge e v) v = merge e v := by
        intro k v hv
        obtain ⟨key, hmem, _⟩ := Entries.mem_of_find? hv
        exact ih s rfl _ hmem (hs.values _ hmem)
      have hself : mergeEntries s s = s :=
        mergeEntries_absorb hs hs fun k v _ hv => ⟨v, hv, (hbelow k v hv).1⟩
      refine ⟨by rw [merge_map, hself], fun target ht => ?_⟩
      cases hm : target.isMap with
      | true =>
          obtain ⟨t, rfl⟩ := isMap_iff.mp hm
          have ht := Entries.isKeyed_map_iff.mp ht
          rw [merge_map, merge_map]
          refine congrArg map (mergeEntries_absorb (keyed_mergeEntries ht hs) hs
            fun k v hk hv => ?_)
          rw [find?_mergeEntries ht hs hk, hv]
          refine ⟨_, rfl, ?_⟩
          -- the source was put there, or was merged with what there was
          cases he : Entries.find? k t with
          | none => exact (hbelow k v hv).1
          | some e => exact (hbelow k v hv).2 e (Entries.isKeyed_of_find? ht he)
      | false => rw [merge_eq_source (.inl hm), merge_map, hself]
  | _ => exact ⟨merge_eq_source (.inr rfl), fun _ _ => by
      rw [merge_eq_source (.inr rfl), merge_eq_source (.inr rfl)]⟩

/-! ## Merging in groups -/

/-- Chains that lead somewhere in both trees lead to mappings in both or in neither. -/
def SameShape (t u : Tree) : Prop :=
  ∀ chain, (∀ k ∈ chain, k.isSoundKey = true) → ∀ x y, t.follow? chain = some x →
    u.follow? chain = some y → x.isMap = y.isMap

theorem SameShape.isMap_eq {t u : Tree} (h : t.SameShape u) : t.isMap = u.isMap :=
  h [] (by simp) t u rfl rfl

theorem SameShape.find? {x y : Tree} (h : (map t).SameShape (map s)) (hk : k.isSoundKey = true)
    (hx : Entries.find? k t = some x) (hy : Entries.find? k s = some y) : x.SameShape y := by
  intro chain hchain u w hu hw
  refine h (k :: chain) (List.forall_mem_cons.mpr ⟨hk, hchain⟩) u w ?_ ?_
  · rw [follow?_cons, hx]
    exact hu
  · rw [follow?_cons, hy]
    exact hw

/-- What is no mapping has the shape of whatever is no mapping. -/
theorem sameShape_iff_of_not_isMap {t u : Tree} (ht : t.isMap = false) :
    t.SameShape u ↔ u.isMap = false := by
  refine ⟨fun h => h.isMap_eq.symm.trans ht, fun hu chain _ x y hx hy => ?_⟩
  cases chain with
  | nil =>
      cases hx
      cases hy
      rw [ht, hu]
  | cons k rest =>
      cases t with
      | map es => cases ht
      | _ => cases hx

/-- Two mappings have the same shape if the values at their common keys have. -/
theorem sameShape_map_iff (ht : t.Keyed) (hs : s.Keyed) : (map t).SameShape (map s) ↔
    ∀ e ∈ t, ∀ w, Entries.find? e.1 s = some w → e.2.SameShape w := by
  constructor
  · exact fun h e he w hw => h.find? (ht.sound e he) (Entries.find?_of_mem ht he) hw
  · intro h chain hchain x y hx hy
    cases chain with
    | nil =>
        cases hx
        cases hy
        rfl
    | cons k rest =>
        obtain ⟨hk, hrest⟩ := List.forall_mem_cons.mp hchain
        obtain ⟨v, hv, hx⟩ := Option.bind_eq_some_iff.mp hx
        obtain ⟨w, hw, hy⟩ := Option.bind_eq_some_iff.mp hy
        obtain ⟨k', hmem, hsame⟩ := Entries.mem_of_find? hv
        rw [Entries.find?_congr hs hk (ht.sound _ hmem) hsame] at hw
        exact h _ hmem w hw rest hrest x y hx hy

mutual

/-- Whether the values have the same shape. -/
def hasShape : Tree → Tree → Bool
  | map es, map es' => haveShape es es'
  | map _, _ => false
  | _, u => !u.isMap

/-- Whether the values at common keys have the same shape. -/
def haveShape : List (Tree × Tree) → Entries → Bool
  | [], _ => true
  | (k, v) :: rest, es => (match Entries.find? k es with
    | some w => v.hasShape w
    | none => true) && haveShape rest es

end

theorem haveShape_iff : haveShape t s = true ↔
    ∀ e ∈ t, ∀ w, Entries.find? e.1 s = some w → e.2.hasShape w = true := by
  induction t with
  | nil => simp [haveShape]
  | cons e rest ih =>
      rw [haveShape, Bool.and_eq_true, ih, List.forall_mem_cons]
      refine and_congr_left fun _ => ?_
      cases Entries.find? e.1 s <;> simp

/-- **Whether trees have the same shape can be seen from their entries,** without chains. -/
theorem hasShape_iff : ∀ t : Tree, t.isKeyed = true → ∀ u : Tree, u.isKeyed = true →
    (t.hasShape u = true ↔ t.SameShape u) := by
  refine induction_values fun t ih ht u hu => ?_
  cases hm : t.isMap with
  | false =>
      rw [sameShape_iff_of_not_isMap hm]
      cases t with
      | map es => cases hm
      | _ => simp [hasShape]
  | true =>
      obtain ⟨es, rfl⟩ := isMap_iff.mp hm
      cases hmu : u.isMap with
      | false =>
          refine ⟨fun h => ?_, fun h => absurd h.isMap_eq (by rw [hm, hmu]; decide)⟩
          cases u with
          | map es' => cases hmu
          | _ => cases h
      | true =>
          obtain ⟨es', rfl⟩ := isMap_iff.mp hmu
          rw [Entries.isKeyed_map_iff] at ht hu
          rw [hasShape, haveShape_iff, sameShape_map_iff ht hu]
          refine forall_congr' fun e => forall_congr' fun he => forall_congr' fun w =>
            forall_congr' fun hw => ?_
          exact ih es rfl e he (ht.values e he) w (Entries.isKeyed_of_find? hu hw)

theorem isNone_blend (e? v? : Option Tree) :
    (blend e? v?).isNone = (e?.isNone && v?.isNone) := by
  cases v? with
  | none => simp [blend]
  | some v => simp [blend]

/-- What a key has is merged in any grouping if the values there are. -/
theorem blend_assoc {e? v? w? : Option Tree}
    (h : ∀ e v w, e? = some e → v? = some v → w? = some w →
      merge (merge e v) w = merge e (merge v w)) :
    blend (blend e? v?) w? = blend e? (blend v? w?) := by
  cases w? with
  | none => rfl
  | some w =>
      cases v? with
      | none => rfl
      | some v =>
          cases e? with
          | none => rfl
          | some e => exact congrArg some (h e v w rfl rfl rfl)

/-- The keys after merging two mappings, one after the other or both at once. -/
theorem keys_mergeEntries_assoc {t a b : Entries} (ht : t.Keyed) (ha : a.Keyed) (hb : b.Keyed) :
    (mergeEntries (mergeEntries t a) b).map Prod.fst
      = (mergeEntries t (mergeEntries a b)).map Prod.fst := by
  rw [keys_mergeEntries (keyed_mergeEntries ht ha) hb, keys_mergeEntries ht ha,
    keys_mergeEntries ht (keyed_mergeEntries ha hb), keys_mergeEntries ha hb, List.filter_append,
    List.filter_filter, List.append_assoc]
  -- a key of the last mapping is new to the first two together if it is new to both
  refine congrArg _ (congrArg _ (List.filter_congr fun k hk => ?_))
  obtain ⟨e, he, rfl⟩ := List.mem_map.mp hk
  rw [find?_mergeEntries ht ha (hb.sound e he), isNone_blend]

/-- **Merging can be grouped** where no mapping meets anything else. -/
theorem merge_assoc : ∀ a : Tree, a.isKeyed = true → ∀ t b : Tree, t.isKeyed = true →
    b.isKeyed = true → t.SameShape a → a.SameShape b → t.SameShape b →
    merge (merge t a) b = merge t (merge a b) := by
  refine induction_values fun a ih ha t b ht hb hta hab htb => ?_
  cases hm : b.isMap with
  | false => rw [merge_eq_source (.inr hm), merge_eq_source (.inr hm), merge_eq_source (.inr hm)]
  | true =>
      obtain ⟨b, rfl⟩ := isMap_iff.mp hm
      obtain ⟨a, rfl⟩ := isMap_iff.mp (hab.isMap_eq.trans hm)
      obtain ⟨t, rfl⟩ := isMap_iff.mp (htb.isMap_eq.trans hm)
      have ht := Entries.isKeyed_map_iff.mp ht
      have ha := Entries.isKeyed_map_iff.mp ha
      have hb := Entries.isKeyed_map_iff.mp hb
      have hleft := keyed_mergeEntries (keyed_mergeEntries ht ha) hb
      have hright := keyed_mergeEntries ht (keyed_mergeEntries ha hb)
      rw [merge_map, merge_map, merge_map, merge_map]
      refine congrArg map (hleft.ext hright (keys_mergeEntries_assoc ht ha hb) fun k hk => ?_)
      obtain ⟨entry, hentry, rfl⟩ := List.mem_map.mp hk
      have hsound := hleft.sound entry hentry
      -- at each key, three values are blended one after the other
      rw [find?_mergeEntries (keyed_mergeEntries ht ha) hb hsound, find?_mergeEntries ht ha hsound,
        find?_mergeEntries ht (keyed_mergeEntries ha hb) hsound, find?_mergeEntries ha hb hsound]
      refine blend_assoc fun e v w he hv hw => ?_
      obtain ⟨key, hmem, _⟩ := Entries.mem_of_find? hv
      exact ih a rfl _ hmem (ha.values _ hmem) e w (Entries.isKeyed_of_find? ht he)
        (Entries.isKeyed_of_find? hb hw) (hta.find? hsound he hv) (hab.find? hsound hv hw)
        (htb.find? hsound he hw)

end Tree
end ApiManifest
