import ApiManifest.Proofs.Admission
import ApiManifest.Proofs.Parsing

/-!
# Whole documents

A text is composed only if its tokens come to the end of the stream, and only if a node is read of
those with which it begins.
-/

namespace ApiManifest.Yaml

/-- All tokens but the end of the stream are admitted. -/
def Admission.endless : Admission where
  token := (· ≠ .streamEnd)
  tag := anything
  cause := anything
  yaml := trivial
  null := trivial
  str := trivial
  seq := trivial
  map := trivial
  shown _ _ := trivial
  written _ _ _ := trivial

namespace Parse

variable {α β : Type}

/-! ## The end of the stream -/

/-- The step gives nothing if the end of the stream is not among the tokens. -/
def Unfinished (x : Parse α) : Prop :=
  ∀ p : Parser, p.Within .endless → ∀ a p', ¬ Gives x p a p'

theorem not_gives_peek {p p' : Parser} {t : Token} (h : p.tokens = []) : ¬ Gives peek p t p' := by
  intro hpeek
  obtain ⟨_, _, hget, hpeek⟩ := gives_bind_iff.mp hpeek
  cases hget
  rw [h] at hpeek
  obtain ⟨_, _, -, hthrow⟩ := gives_bind_iff.mp hpeek
  cases hthrow

namespace Unfinished

theorem throw {e : Error} {f : α → Parse β} : Unfinished (throw e >>= f) := by
  intro p hp b p' h
  obtain ⟨_, _, hthrow, -⟩ := gives_bind_iff.mp h
  exact nomatch hthrow

theorem bind {x : Parse α} {f : α → Parse β} (hx : Stays .endless x)
    (hf : ∀ a, Unfinished (f a)) : Unfinished (x >>= f) := by
  intro p hp b p' h
  obtain ⟨a, p₁, hgives, hrest⟩ := gives_bind_iff.mp h
  exact hf a p₁ ((hx p hp).1 a p₁ hgives).1 b p' hrest

/-- Without the end of the stream, none is taken. -/
theorem take {f : Bool → Parse β} (hf : Unfinished (f false)) :
    Unfinished (Parse.take .streamEnd >>= f) := by
  intro p hp b p' h
  cases htokens : p.tokens with
  | nil =>
      obtain ⟨_, _, htake, -⟩ := gives_bind_iff.mp h
      obtain ⟨_, _, hpeek, -⟩ := gives_bind_iff.mp htake
      exact not_gives_peek htokens hpeek
  | cons t ts =>
      have hne : t ≠ .streamEnd := hp.tokens t (by simp [htokens])
      exact (gives_take_of_ne htokens hne).not_bind (hf p hp) b p' h

end Unfinished

/-- **A document ends with the stream.** -/
theorem unfinished_document (fuel : Nat) : Unfinished (document fuel) := by
  have hnode : Stays .endless (node .block fuel) := (stays_nodes fuel).node _
  delta document
  refine .bind stays_isDirectiveNext fun _ => .bind (stays_isNext _) fun _ => ?_
  extract_lets isMarked finish
  have hfinish : ∀ root, Unfinished (finish root) := by
    intro root
    refine .bind (stays_documentEnds _) fun _ => .take ?_
    exact .bind (stays_handles _) fun _ => .bind (stays_directives _ _) fun _ => .throw
  clear_value finish
  split
  · refine .bind (stays_isNext _) fun _ => .bind (stays_directives _ _) fun _ =>
      .bind (stays_expect _) fun _ => .bind (stays_handles _) fun _ => ?_
    refine .bind stays_isDirectiveNext fun _ => .bind (stays_isNext _) fun _ => ?_
    dsimp only
    split
    · exact .bind (.map _ stays_addEmpty) hfinish
    · exact .bind (.map _ hnode) hfinish
  · refine .bind (stays_isNext _) fun _ => ?_
    split
    · exact .bind (.pure _) hfinish
    · exact .bind (stays_handles _) fun _ => .bind (.map _ hnode) hfinish

/-! ## Tokens that no node is read of -/

/-- The step gives nothing where these tokens come next. -/
def Refuses (x : Parse α) (tokens : List Token) : Prop :=
  ∀ (p : Parser) (rest : List Token), p.tokens = tokens ++ rest → ∀ a p', ¬ Gives x p a p'

namespace Refuses

variable {tokens tokens' : List Token} {t : Token} {ts : List Token}

theorem append {x : Parse α} (h : Refuses x tokens) (more : List Token) :
    Refuses x (tokens ++ more) :=
  fun p rest hp => h p (more ++ rest) (hp.trans (List.append_assoc ..))

/-- A step that gives nothing ends what is done with its result. -/
theorem bind {x : Parse α} (h : Refuses x tokens) (f : α → Parse β) : Refuses (x >>= f) tokens := by
  intro p rest hp b p' hgives
  obtain ⟨a, p₁, hx, -⟩ := gives_bind_iff.mp hgives
  exact h p rest hp a p₁ hx

/-- Behind tokens that are read, others are not. -/
theorem behind {x : Parse α} {f : α → Parse β} {P : α → Graph → Prop}
    (hx : Parses x tokens P) (hf : ∀ a, Refuses (f a) tokens') :
    Refuses (x >>= f) (tokens ++ tokens') := by
  intro p rest hp
  rw [List.append_assoc] at hp
  obtain ⟨a, p₁, hgives, hrest, -⟩ := hx p _ hp
  exact hgives.not_bind (hf a p₁ rest hrest)

/-- A token is passed. -/
theorem take {f : Bool → Parse α} (h : Refuses (f true) tokens) :
    Refuses (Parse.take t >>= f) (t :: tokens) :=
  fun _ rest hp => (gives_take hp).not_bind (h _ rest rfl)

/-- Another token is passed over. -/
theorem skip {f : Bool → Parse α} {token : Token} (hne : t ≠ token)
    (h : Refuses (f false) (t :: ts)) : Refuses (Parse.take token >>= f) (t :: ts) :=
  fun p rest hp => (gives_take_of_ne hp hne).not_bind (h p rest hp)

theorem expect {f : Unit → Parse α} (h : Refuses (f ()) tokens) :
    Refuses (Parse.expect t >>= f) (t :: tokens) :=
  fun _ rest hp => ((gives_take hp).bind (gives_pure () _)).not_bind (h _ rest rfl)

/-- Another token comes than has to. -/
theorem unexpected {f : Unit → Parse α} {token : Token} (hne : t ≠ token) :
    Refuses (Parse.expect token >>= f) (t :: ts) := by
  refine bind (f := f) fun p rest hp => ?_
  exact (gives_take_of_ne hp hne).not_bind fun _ _ h => nomatch h

end Refuses

section Nodes

variable {tokens : List Token} {fuel : Nat}

/-- A collection is not read if its parts are not. -/
theorem not_gives_collection {step : Parse α} {tag : Tag} {contents : α → Contents} {p : Parser}
    {t : Token} {ts : List Token} (hp : p.tokens = t :: ts)
    (h : ∀ a p', ¬ Gives step { p with tokens := ts, graph := p.graph.add ⟨tag, .items []⟩ } a p')
    (found : Nat) (p' : Parser) : ¬ Gives (do
        let id ← addNamed none ⟨tag, .items []⟩
        let found ← (do advance; return contents (← step) : Parse Contents)
        modify fun p => { p with graph := p.graph.setContents id found }
        return id) p found p' := by
  have hp' : ({ p with graph := p.graph.add ⟨tag, .items []⟩ } : Parser).tokens = t :: ts := hp
  refine (gives_add _ p).not_bind (fun _ _ hgives => ?_) found p'
  obtain ⟨_, _, hparts, -⟩ := gives_bind_iff.mp hgives
  refine (gives_advance hp').not_bind (fun _ _ hstep => ?_) _ _ hparts
  obtain ⟨a, p₁, hstep, -⟩ := gives_bind_iff.mp hstep
  exact h a p₁ hstep

theorem refuses_node_items (h : Refuses (flowItems true fuel) tokens) (context : Context) :
    Refuses (node context (fuel + 1)) (.flowSequenceStart :: tokens) :=
  fun p rest hp => (gives_peek hp).not_bind ((gives_properties hp rfl).not_bind
    ((gives_pure none p).not_bind ((gives_peek hp).not_bind
      (not_gives_collection hp (h _ rest rfl)))))

theorem refuses_node_braces (h : Refuses (flowEntries true fuel) tokens) (context : Context) :
    Refuses (node context (fuel + 1)) (.flowMappingStart :: tokens) :=
  fun p rest hp => (gives_peek hp).not_bind ((gives_properties hp rfl).not_bind
    ((gives_pure none p).not_bind ((gives_peek hp).not_bind
      (not_gives_collection hp (h _ rest rfl)))))

end Nodes

/-! ## Documents -/

variable {p : Parser} {t : Token} {ts : List Token} {fuel : Nat}

/-- A document that begins with a value cannot be read without it. -/
theorem not_gives_document (hp : p.tokens = t :: ts) (ht : beginsValue t)
    (hnode : ∀ id p', ¬ Gives (node .block fuel) { p with handles := usualHandles } id p')
    (root : Option Nat) (p' : Parser) : ¬ Gives (document fuel) p root p' := by
  have hnext (tokens : List Token) (htokens : tokens.all fun token => !beginsValue token) :
      Gives (isNext tokens) p false p :=
    contains_of_beginsValue ht htokens ▸ gives_isNext hp tokens
  rw [document]
  refine (gives_isDirectiveNext hp ht).not_bind ((hnext _ rfl).not_bind
    ((hnext _ rfl).not_bind ((gives_modify _ p).not_bind fun root p' h => ?_))) root p'
  obtain ⟨_, _, hmap, -⟩ := gives_bind_iff.mp h
  rw [map_eq_pure_bind] at hmap
  obtain ⟨id, p₁, hgives, -⟩ := gives_bind_iff.mp hmap
  exact hnode id p₁ hgives

end Parse

variable {text : List Char}

/-- **Only a text that can be read to its end is composed.** -/
theorem streamEnd_mem_of_compose {r : Graph × Option Nat} (h : compose text = .ok r) :
    text.all isReadable ∧ .streamEnd ∈ (tokensOf text).1 := by
  unfold compose at h
  split at h
  · next hreadable =>
    refine ⟨hreadable, Classical.byContradiction fun hend => ?_⟩
    dsimp only at h
    split at h
    · next root p hdocument =>
      refine Parse.unfinished_document _ _ ⟨fun t ht heq => ?_, trivial, fun _ => trivial⟩ root p
        hdocument
      exact hend (heq ▸ ht)
    · cases h
  · cases h

/-- A text is not composed if no node is read of its tokens. -/
theorem not_compose {t : Token} {ts rest : List Token} {failure : Option Error}
    (htokens : tokensOf text = (t :: ts ++ rest, failure)) (ht : Parse.beginsValue t)
    (hnode : Parse.Refuses (Parse.node .block (4 * (t :: ts ++ rest).length + 8)) (t :: ts))
    (r : Graph × Option Nat) : compose text ≠ .ok r := by
  intro h
  unfold compose at h
  split at h
  · dsimp only at h
    rw [htokens] at h
    split at h
    · next root p hdocument =>
      refine Parse.not_gives_document rfl ht (hnode _ rest rfl) root p hdocument
    · cases h
  · cases h

end ApiManifest.Yaml
