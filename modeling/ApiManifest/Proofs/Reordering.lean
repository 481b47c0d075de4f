import ApiManifest.Proofs.Contributions

/-!
# The order of the resources

Two manifests that differ in the order of their resources have the same document but for the order
of its definitions and of its paths, if the resources do not meet: then each document is made of
what every resource contributes on its own, and what a resource contributes does not depend on its
turn. Or neither has a document, as one of the resources contributes nothing.
-/

namespace ApiManifest

variable {σ : Type}

/-! ## Equality of mappings -/

mutual

/-- Values that are equal, or that are mappings with equal values in any order. -/
inductive Tree.Alike : Tree → Tree → Prop where
  | same (t : Tree) : Tree.Alike t t
  | map {es moved es' : Entries} : es.Perm moved → Tree.AlikeEntries moved es' →
      Tree.Alike (.map es) (.map es')

/-- Entries with equal keys, one by one, whose values are alike. -/
inductive Tree.AlikeEntries : Entries → Entries → Prop where
  | nil : Tree.AlikeEntries [] []
  | cons {key v v' : Tree} {rest rest' : Entries} : Tree.Alike v v' →
      Tree.AlikeEntries rest rest' → Tree.AlikeEntries ((key, v) :: rest) ((key, v') :: rest')

end

namespace Tree

theorem alikeEntries_refl : ∀ es : Entries, AlikeEntries es es
  | [] => .nil
  | (_, v) :: rest => .cons (.same v) (alikeEntries_refl rest)

theorem alike_of_perm {es es' : Entries} (h : es.Perm es') : Alike (.map es) (.map es') :=
  .map h (alikeEntries_refl es')

theorem AlikeEntries.put {es es' : Entries} (h : AlikeEntries es es') (key : Tree) {v v' : Tree}
    (hv : Alike v v') : AlikeEntries (Entries.put key v es) (Entries.put key v' es') := by
  induction es generalizing es' with
  | nil =>
      cases h
      exact .cons hv .nil
  | cons entry rest ih =>
      cases h with
      | @cons k _ _ _ _ hfirst hrest =>
          unfold Entries.put
          by_cases hkey : key.sameKey k = true
          · rw [if_pos hkey, if_pos hkey]
            exact .cons hv hrest
          · rw [if_neg hkey, if_neg hkey]
            exact .cons hfirst (ih hrest)

end Tree

/-! ## Sequences of results -/

namespace ResultLike

variable {α β γ δ : Type} {Q : α → β → Prop}

theorem trans {P : β → γ → Prop} {x : Except Error α} {y : Except Error β} {z : Except Error γ}
    (h : ResultLike Q x y) (h' : ResultLike P y z) :
    ResultLike (fun a c => ∃ b, Q a b ∧ P b c) x z := by
  cases h with
  | ok hab =>
      cases h' with
      | ok hbc => exact .ok ⟨_, hab, hbc⟩
  | error e _ =>
      cases h' with
      | error _ e' => exact .error e e'

theorem imp {Q' : α → β → Prop} {x : Except Error α} {y : Except Error β}
    (h : ResultLike Q x y) (himp : ∀ a b, Q a b → Q' a b) : ResultLike Q' x y := by
  cases h with
  | ok hab => exact .ok (himp _ _ hab)
  | error e e' => exact .error e e'

/-- What is related one by one gives related results one by one. -/
theorem mapM {P : γ → δ → Prop} {f : γ → Except Error α} {g : δ → Except Error β} {xs : List γ}
    {ys : List δ} (h : List.Forall₂ P xs ys) (hf : ∀ x y, P x y → ResultLike Q (f x) (g y)) :
    ResultLike (List.Forall₂ Q) (xs.mapM f) (ys.mapM g) := by
  induction h with
  | nil => exact .ok .nil
  | cons hxy _ ih =>
      rw [List.mapM_cons, List.mapM_cons]
      exact (hf _ _ hxy).bind fun a b hab => ih.bind fun as bs hrest => .ok (.cons hab hrest)

/-- What stands in another order gives the same results in another order. -/
theorem mapM_perm (f : γ → Except Error α) {xs ys : List γ} (h : xs.Perm ys) :
    ResultLike List.Perm (xs.mapM f) (ys.mapM f) := by
  induction h with
  | nil => exact .ok .nil
  | cons x _ ih =>
      rw [List.mapM_cons, List.mapM_cons]
      refine (refl (fun _ => Eq.refl _) (f x)).bind ?_
      rintro a _ rfl
      exact ih.bind fun as bs hrest => .ok (hrest.cons a)
  | swap x y rest =>
      rw [List.mapM_cons, List.mapM_cons, List.mapM_cons, List.mapM_cons]
      cases f x with
      | error e =>
          cases f y with
          | error e' => exact .error e' e
          | ok b => exact .error e e
      | ok a =>
          cases f y with
          | error e => exact .error e e
          | ok b =>
              cases rest.mapM f with
              | error e => exact .error e e
              | ok as => exact .ok (.swap a b as)
  | trans _ _ ih ih' =>
      exact (ih.trans ih').imp fun as cs ⟨_, hab, hbc⟩ => hab.trans hbc

end ResultLike

/-! ## Reordered manifests -/

variable {R : Value → Value → Prop} {st : Store}

/-- Mappings with the same entries in any order, up to what cannot be told apart. -/
def Store.Shuffled (st : Store) (R : Value → Value → Prop) (v v' : Value) : Prop :=
  ∃ es moved es', st.entries? v = some es ∧ es.Perm moved ∧ EntriesLike R moved es' ∧
    st.entries? v' = some es'

/-- Manifests that differ in the order of their resources only. -/
def Store.Reordered (st : Store) (R : Value → Value → Prop) (manifest manifest' : Value) : Prop :=
  ∃ es es', st.entries? manifest = some es ∧ st.entries? manifest' = some es' ∧
    List.Forall₂ (fun e e' => R e.1 e'.1 ∧
      (R e.2 e'.2 ∨ e.1 = .text "models" ∧ st.Shuffled R e.2 e'.2)) es es'

section

variable (hR : st.Likeness R)

include hR

/-- What they say about the interface as a whole is the same. -/
theorem Store.Reordered.baseline {manifest manifest' : Value}
    (h : st.Reordered R manifest manifest') :
    Baseline.ofManifest (st.tree manifest) = Baseline.ofManifest (st.tree manifest') := by
  obtain ⟨es, es', hes, hes', hlike⟩ := h
  rw [Store.tree_of_entries? hes, Store.tree_of_entries? hes']
  unfold Baseline.ofManifest
  rw [metadata_congr]
  intro name hfield
  have hname := Metadata.ne_models hfield
  refine congrArg (Option.getD · _) ?_
  unfold Entries.get?
  clear hes hes'
  induction hlike with
  | nil => rfl
  | @cons e e' rest rest' hentry _ ih =>
      rcases e with ⟨k, v⟩
      rcases e' with ⟨k', v'⟩
      obtain ⟨hkey, hvalue⟩ := hentry
      rw [List.map_cons, List.map_cons, Entries.find?, Entries.find?, ih]
      dsimp only at hkey hvalue ⊢
      rw [hR.treeTo hkey]
      by_cases hsame : (Tree.text name).sameKey (st.treeTo st.cells.size k') = true
      · rw [if_pos hsame, if_pos hsame]
        rcases hvalue with hvalue | ⟨hmodels, _⟩
        · rw [hR.treeTo hvalue]
        · -- the value at the models is not asked for
          have htext := Store.eq_text_of_treeTo (Tree.sameKey_text.mp hsame)
          rw [← hR.eq_scalar_iff hkey, hmodels] at htext
          cases htext
          exact absurd rfl hname
      · rw [if_neg hsame, if_neg hsame]

/-- They declare the same resources in any order. -/
theorem Store.Reordered.declarations {manifest manifest' : Value}
    (h : st.Reordered R manifest manifest') :
    ResultLike (fun declared declared' => ∃ moved, declared.Perm moved ∧
      EntriesLike R moved declared') (Document.declarations st manifest)
        (Document.declarations st manifest') := by
  obtain ⟨es, es', hes, hes', hlike⟩ := h
  have hmodels : R (st.field es "models") (st.field es' "models") ∨
      st.Shuffled R (st.field es "models") (st.field es' "models") := by
    unfold Store.field
    clear hes hes'
    induction hlike with
    | nil => exact Or.inl (hR.refl _)
    | @cons e e' rest rest' hentry _ ih =>
        rcases e with ⟨k, v⟩
        rcases e' with ⟨k', v'⟩
        obtain ⟨hkey, hvalue⟩ := hentry
        have hsame : st.sameKey (.text "models") k = true ↔
            st.sameKey (.text "models") k' = true := by
          rw [Store.sameKey_text, Store.sameKey_text]
          exact hR.eq_scalar_iff hkey (.text "models")
        unfold Store.find?
        by_cases hfound : st.sameKey (.text "models") k = true
        · rw [if_pos hfound, if_pos (hsame.mp hfound)]
          exact hvalue.imp id And.right
        · rw [if_neg hfound, if_neg (mt hsame.mpr hfound)]
          exact ih
  -- the models are like each other, or they are the mapping whose entries were moved
  rcases hmodels with hvalue | ⟨ms, moved, ms', hms, hperm, hmoved, hms'⟩
  · unfold Document.declarations Document.models
    rw [hes, hes']
    dsimp only
    generalize st.field es "models" = v at hvalue
    generalize st.field es' "models" = v' at hvalue
    rw [hR.holds hvalue]
    by_cases hholds : st.holds v' = true
    · rw [if_pos hholds, if_pos hholds]
      have hentries := hR.entries? hvalue
      rcases hR.scalar_or_object hvalue with ⟨s, rfl, rfl⟩ | ⟨i, j, rfl, rfl, _⟩
      · exact ResultLike.refl (fun declared => ⟨declared, .refl _,
          forall₂_refl (fun e => ⟨hR.refl e.1, hR.refl e.2⟩) declared⟩) _
      · dsimp only [bind, Except.bind]
        revert hentries
        generalize st.entries? (.ref i) = ms
        generalize st.entries? (.ref j) = ms'
        rintro (hentries | _)
        · exact .ok ⟨_, .refl _, hentries⟩
        · exact .error _ _
    · rw [if_neg hholds, if_neg hholds]
      exact .ok ⟨[], .refl _, .nil⟩
  · rw [Document.declarations_of_models hes hms, Document.declarations_of_models hes' hms']
    exact .ok ⟨moved, hperm, hmoved⟩

end

theorem exists_of_forall₂ {α β : Type} {Q : α → β → Prop} {xs : List α} {ys : List β}
    (h : List.Forall₂ Q xs ys) {y : β} (hy : y ∈ ys) : ∃ x ∈ xs, Q x y := by
  induction h with
  | nil => cases hy
  | @cons x _ _ _ hxy _ ih =>
      rcases List.mem_cons.mp hy with rfl | hy
      · exact ⟨x, List.mem_cons_self, hxy⟩
      · obtain ⟨other, hother, hQ⟩ := ih hy
        exact ⟨other, List.mem_cons_of_mem _ hother, hQ⟩

namespace Document

/-! ## Resources in another order -/

section

variable (hR : st.Likeness R)

include hR

theorem pascalNames_like {declared declared' : List (Value × Value)}
    (h : EntriesLike R declared declared') :
    pascalNames st declared = pascalNames st declared' := by
  unfold pascalNames
  induction h with
  | nil => rfl
  | cons hentry _ ih => rw [List.filterMap_cons, List.filterMap_cons, hR.tree hentry.1, ih]

omit hR in
theorem pathsOf_like {r r' : Resource} (h : r.Like R r') :
    PathItem.pathsOf r = PathItem.pathsOf r' := by
  unfold PathItem.pathsOf
  rw [h.path]

theorem pathsApart_like {a a' b b' : Value × Value} (ha : R a.1 a'.1 ∧ R a.2 a'.2)
    (hb : R b.1 b'.1 ∧ R b.2 b'.2) (h : PathsApart st a b) : PathsApart st a' b' := by
  intro r' q' hr' hq' path hpath hmem
  have hread := resourceOf_like hR ha.1 ha.2
  have hread' := resourceOf_like hR hb.1 hb.2
  rw [hr'] at hread
  rw [hq'] at hread'
  generalize hr : resourceOf st a.1 a.2 = x at hread
  generalize hq : resourceOf st b.1 b.2 = y at hread'
  cases hread with
  | ok hlike =>
      cases hread' with
      | ok hlike' =>
          rw [← pathsOf_like hlike] at hpath
          rw [← pathsOf_like hlike'] at hmem
          exact h _ _ hr hq path hpath hmem

theorem apart_like {declared declared' : List (Value × Value)}
    (h : EntriesLike R declared declared')
    (hapart : Apart st declared) : Apart st declared' := by
  refine ⟨pascalNames_like hR h ▸ hapart.names, ?_⟩
  have hpairs := hapart.paths
  clear hapart
  induction h with
  | nil => exact .nil
  | @cons a a' rest rest' hentry hrest ih =>
      obtain ⟨hfirst, hothers⟩ := List.pairwise_cons.mp hpairs
      refine List.pairwise_cons.mpr ⟨fun b' hb' => ?_, ih hothers⟩
      obtain ⟨b, hb, hlike⟩ := exists_of_forall₂ hrest hb'
      exact pathsApart_like hR hentry hlike (hfirst b hb)

end

theorem apart_perm {declared declared' : List (Value × Value)} (h : declared.Perm declared')
    (hapart : Apart st declared) : Apart st declared' where
  names := (h.filterMap _).nodup_iff.mp hapart.names
  paths := by
    refine (h.pairwise_iff fun {a b} hab => ?_).mp hapart.paths
    intro r r' hr hr' path hpath hmem
    exact hab r' r hr' hr path hmem hpath

/-- The resources of a reordered manifest do not meet if those of the first one do not. -/
theorem apart_reordered {manifest manifest' : Value} {declared' : List (Value × Value)}
    (hR : st.Likeness R) (h : st.Reordered R manifest manifest')
    (hapart : ∀ declared, declarations st manifest = .ok declared → Apart st declared)
    (hdeclared' : declarations st manifest' = .ok declared') : Apart st declared' := by
  have hdeclared := h.declarations hR
  rw [hdeclared'] at hdeclared
  generalize hfirst : declarations st manifest = first at hdeclared
  cases hdeclared with
  | ok hmoved =>
      obtain ⟨moved, hperm, hlike⟩ := hmoved
      exact apart_like hR hlike (apart_perm hperm (hapart _ hfirst))

/-- Contributions whose definitions are related. -/
def OwnLike (R : Value → Value → Prop) (own own' : Fields Node × Fields Node) : Prop :=
  Node.LikeFields R own.1 own'.1 ∧ own.2 = own'.2

section

variable {options : Options} {backend : Backend} {generator : Option (Generator σ)} {w w' : World σ}
  (hR : w.store.Likeness R) (hg : ∀ g, generator = some g → g.Forgetful w.store)
  (hstore : w'.store = w.store)

include hR hg hstore

/-- **What a resource contributes** does not depend on its turn, nor on which of two objects that
cannot be told apart declares it. -/
theorem contribution_like {model model' : Value × Value}
    (h : R model.1 model'.1 ∧ R model.2 model'.2) :
    ResultLike (OwnLike R) (contribution w options backend generator model)
      (contribution w' options backend generator model') := by
  unfold contribution
  rw [hstore]
  refine (resourceOf_like hR h.1 h.2).bind fun r r' hlike => ?_
  obtain ⟨_, _, hdefinitions⟩ := Definition.mirrors_ofResource hR hg hlike w w' rfl hstore
  refine hdefinitions.bind fun definitions definitions' hsame => ?_
  have hpaths : ResultLike Eq (outcome (PathItem.ofResource r options (some backend)) w).1
      (outcome (PathItem.ofResource r' options (some backend)) w').1 := by
    have hiff : ∀ paths, (outcome (PathItem.ofResource r options (some backend)) w).1 = .ok paths ↔
        (outcome (PathItem.ofResource r' options (some backend)) w').1 = .ok paths := by
      intro paths
      rw [PathItem.outcome_ofResource, PathItem.outcome_ofResource, hlike.items]
    cases hfirst : (outcome (PathItem.ofResource r options (some backend)) w).1 with
    | ok paths =>
        rw [(hiff paths).mp hfirst]
        exact .ok rfl
    | error e =>
        cases hsecond : (outcome (PathItem.ofResource r' options (some backend)) w').1 with
        | error e' => exact .error e e'
        | ok paths =>
            rw [(hiff paths).mpr hsecond] at hfirst
            cases hfirst
  exact hpaths.bind fun paths paths' heq => .ok ⟨hsame, heq⟩

/-- Resources in another order contribute the same in another order. -/
theorem contributions_reordered {manifest manifest' : Value}
    (h : w.store.Reordered R manifest manifest') :
    ResultLike (fun owns owns' => ∃ mid, owns.Perm mid ∧ List.Forall₂ (OwnLike R) mid owns')
      (contributions w manifest options backend generator)
      (contributions w' manifest' options backend generator) := by
  unfold contributions
  rw [hstore]
  refine (h.declarations hR).bind fun declared declared' ⟨moved, hperm, hlike⟩ => ?_
  exact (ResultLike.mapM_perm _ hperm).trans
    (ResultLike.mapM hlike fun _ _ => contribution_like hR hg hstore)

end

/-! ## Documents in another order -/

theorem entries_append (st : Store) (fields more : Fields Node) :
    Node.entries st (fields ++ more) = Node.entries st fields ++ Node.entries st more := by
  rw [Node.entries_eq_map, Node.entries_eq_map, Node.entries_eq_map, List.map_append]

/-- Contributions in another order make sections with the same entries in another order. -/
theorem entries_perm (hR : st.Likeness R) {owns mid owns' : List (Fields Node × Fields Node)}
    (hperm : owns.Perm mid) (hlike : List.Forall₂ (OwnLike R) mid owns') :
    (Node.entries st (owns.flatMap Prod.fst)).Perm (Node.entries st (owns'.flatMap Prod.fst)) ∧
      (Node.entries st (owns.flatMap Prod.snd)).Perm (Node.entries st (owns'.flatMap Prod.snd))
    := by
  have hsections :
      Node.entries st (mid.flatMap Prod.fst) = Node.entries st (owns'.flatMap Prod.fst) ∧
      mid.flatMap Prod.snd = owns'.flatMap Prod.snd := by
    clear hperm
    induction hlike with
    | nil => exact ⟨rfl, rfl⟩
    | cons hown _ ih =>
        rw [List.flatMap_cons, List.flatMap_cons, List.flatMap_cons, List.flatMap_cons,
          entries_append, entries_append, hown.1.entries hR, hown.2, ih.1, ih.2]
        exact ⟨rfl, rfl⟩
  rw [← hsections.1, ← hsections.2]
  simp only [Node.entries_eq_map]
  exact ⟨(hperm.flatMap_right _).map _, (hperm.flatMap_right _).map _⟩

theorem alike_tree {baseline : Entries} {definitions definitions' paths paths' : Fields Node}
    (hdefinitions : (Node.entries st definitions).Perm (Node.entries st definitions'))
    (hpaths : (Node.entries st paths).Perm (Node.entries st paths')) :
    Tree.Alike (tree st { baseline, definitions, paths })
      (tree st { baseline, definitions := definitions', paths := paths' }) := by
  unfold tree
  refine .map (.refl _) (Tree.AlikeEntries.put ?_ _ (Tree.alike_of_perm hdefinitions))
  exact (Tree.alikeEntries_refl _).put _ (Tree.alike_of_perm hpaths)

/-- What does not return fails. -/
theorem raises_of_not_returns {α : Type} {step : Run σ α} {w : World σ}
    (h : ¬ ∃ a w', Returns step w a w') : ∃ e, (outcome step w).1 = .error e := by
  cases hresult : (outcome step w).1 with
  | error e => exact ⟨e, rfl⟩
  | ok a => exact absurd ⟨a, _, (Prod.ext hresult rfl : Returns step w a _)⟩ h

/--
**The order of the resources does not matter** if they do not meet.

For two manifests that differ in the order of their resources only, resources whose names differ in
PascalCase and that share no path, and a generator that does not remember what it was asked, either
both builds fail, or both return documents that are equal as mappings, in whatever order their
entries are, and both documents consist of what every resource contributes on its own.
-/
theorem build_reordered {manifest manifest' : Value} {options : Options}
    {generator : Option (Generator σ)} {w w' : World σ} (hstore : w'.store = w.store)
    (hR : w.store.Likeness R) (hreordered : w.store.Reordered R manifest manifest')
    (hg : ∀ g, generator = some g → g.Forgetful w.store)
    (hnames : ∀ declared, declarations w.store manifest = .ok declared →
      (pascalNames w.store declared).Nodup)
    (hpaths : ∀ declared, declarations w.store manifest = .ok declared →
      declared.Pairwise (PathsApart w.store)) :
    ((∃ e, (outcome (build manifest options generator) w).1 = .error e) ∧
      ∃ e, (outcome (build manifest' options generator) w').1 = .error e) ∨
    ∃ d d' w₁ w₁', Returns (build manifest options generator) w d w₁ ∧
      Returns (build manifest' options generator) w' d' w₁' ∧
      Tree.Alike (d.tree w₁.store) (d'.tree w₁'.store) ∧
      ConsistsOfOwn w manifest options generator d ∧
      ConsistsOfOwn w' manifest' options generator d' := by
  have hapart : ∀ declared, declarations w.store manifest = .ok declared → Apart w.store declared :=
    fun declared hdeclared => ⟨hnames declared hdeclared, hpaths declared hdeclared⟩
  have hapart' : ∀ declared', declarations w'.store manifest' = .ok declared' →
      Apart w'.store declared' := by
    rw [hstore]
    exact fun declared' => apart_reordered hR hreordered hapart
  have hg' : ∀ g, generator = some g → g.Forgetful w'.store := hstore ▸ hg
  have hbaseline : Baseline.ofManifest (w'.store.tree manifest')
      = Baseline.ofManifest (w.store.tree manifest) := by
    rw [hstore]
    exact (hreordered.baseline hR).symm
  have hcontributions : ∀ backend, ResultLike
      (fun owns owns' => ∃ mid, owns.Perm mid ∧ List.Forall₂ (OwnLike R) mid owns')
      (contributions w manifest options backend generator)
      (contributions w' manifest' options backend generator) :=
    fun backend => contributions_reordered hR hg hstore hreordered
  -- the second build returns if the first one does, and only then
  by_cases hreturns : ∃ d w₁, Returns (build manifest options generator) w d w₁
  · obtain ⟨d, w₁, h⟩ := hreturns
    obtain ⟨hown, hs⟩ := consistsOfOwn_of_returns hg hapart h
    obtain ⟨baseline, backend, owns, hb, hk, ho, rfl⟩ := id hown
    have hlike := hcontributions backend
    rw [ho] at hlike
    generalize hsecond : contributions w' manifest' options backend generator = second at hlike
    cases hlike with
    | ok hmoved =>
        obtain ⟨mid, hperm, howns⟩ := hmoved
        obtain ⟨d', w₁', h'⟩ := returns_of_contributions hg' hapart' (hbaseline.trans hb) hk hsecond
        obtain ⟨hown', hs'⟩ := consistsOfOwn_of_returns hg' hapart' h'
        obtain ⟨baseline', backend', owns', hb', hk', ho', rfl⟩ := id hown'
        rw [hbaseline, hb] at hb'
        cases hb'
        rw [hk] at hk'
        cases hk'
        rw [hsecond] at ho'
        cases ho'
        obtain ⟨hdefinitions, hsections⟩ := entries_perm hR hperm howns
        refine Or.inr ⟨_, _, w₁, w₁', h, h', ?_, hown, hown'⟩
        rw [hs, hs', hstore]
        exact alike_tree hdefinitions hsections
  · refine Or.inl ⟨raises_of_not_returns hreturns, raises_of_not_returns ?_⟩
    rintro ⟨d', w₁', h'⟩
    obtain ⟨⟨baseline, backend, owns', hb', hk, ho', _⟩, _⟩ :=
      consistsOfOwn_of_returns hg' hapart' h'
    have hlike := hcontributions backend
    rw [ho'] at hlike
    generalize hfirst : contributions w manifest options backend generator = first at hlike
    cases hlike with
    | ok _ => exact hreturns (returns_of_contributions hg hapart (hbaseline.symm.trans hb') hk
        hfirst)

/-- A manifest with two resources, the same with the resources the other way round, and a mapping of
examples. -/
def rosterStore : Store where
  cells := #[
    .map [(.text "id", .text "uuid")],
    .map [(.text "path", .text "/users/\x7bid\x7d"), (.text "response", .ref 0)],
    .map [(.text "path", .text "/teams/\x7bid\x7d"), (.text "readOnly", .scalar (.bool true))],
    .map [(.text "user", .ref 1), (.text "team", .ref 2)],
    .map [(.text "team", .ref 2), (.text "user", .ref 1)],
    .map [(.text "models", .ref 3)],
    .map [(.text "models", .ref 4)],
    .map [(.text "uuid4", .text "6b8b4567")]]

/-- Both rosters have a document. -/
theorem build_reordered_roster : ∃ (d d' : Document) (w₁ w₁' : World Unit),
    Returns (build (.ref 5) { examples := true } (some (.fixed (.ref 7))))
      { store := rosterStore, examples := () } d w₁ ∧
    Returns (build (.ref 6) { examples := true } (some (.fixed (.ref 7))))
      { store := rosterStore, examples := () } d' w₁' ∧
    Tree.Alike (d.tree w₁.store) (d'.tree w₁'.store) ∧
    ConsistsOfOwn { store := rosterStore, examples := () } (.ref 5) { examples := true }
      (some (.fixed (.ref 7))) d ∧
    ConsistsOfOwn { store := rosterStore, examples := () } (.ref 6) { examples := true }
      (some (.fixed (.ref 7))) d' := by
  have hdeclared : declarations rosterStore (.ref 5)
      = .ok [(.text "user", .ref 1), (.text "team", .ref 2)] := by decide +kernel
  have hreordered : rosterStore.Reordered Eq (.ref 5) (.ref 6) := by
    refine ⟨_, _, rfl, rfl, .cons ⟨rfl, Or.inr ⟨rfl, ?_⟩⟩ .nil⟩
    exact ⟨_, _, _, rfl, .swap _ _ _, forall₂_refl (fun _ => ⟨rfl, rfl⟩) _, rfl⟩
  refine Or.resolve_left (build_reordered rfl rosterStore.likeness_eq hreordered
    (fun g hg => by cases hg; exact fun _ _ _ => rfl)
    (fun declared h => by rw [hdeclared] at h; cases h; decide +kernel)
    (fun declared h => by rw [hdeclared] at h; cases h; decide +kernel)) fun hfails => ?_
  obtain ⟨e, he⟩ := hfails.1
  have hreturns : (outcome (build (.ref 5) { examples := true } (some (.fixed (.ref 7))))
      ({ store := rosterStore, examples := () } : World Unit)).1.toOption.isSome = true := by
    rw [outcome_build_of_silent (by decide +kernel)]
    decide +kernel
  rw [he] at hreturns
  cases hreturns

end Document
end ApiManifest
