import ApiManifest.Command
import ApiManifest.Proofs.Admission

/-!
# Causes of failures in reading

Only the output path can be at fault for its format: whatever else goes wrong has another cause,
which an exit code of its own tells. This file follows the errors through the reading of a
manifest, function by function, with a rule for each way of putting steps together.
-/

namespace ApiManifest

variable {α β σ : Type}

/-- The causes that lie in the format of the output. -/
@[grind cases] inductive Error.OfFormat : Error → Prop
  | path (quoted : String) : OfFormat (.unsupportedPath quoted)
  | name (quoted : String) : OfFormat (.unsupportedFormat quoted)

/-! ## Results -/

/-- The result is no failure that lies in the format of the output. -/
def Ordinary (x : Except Error α) : Prop := ∀ e, x = .error e → ¬ e.OfFormat

namespace Ordinary

@[grind .] theorem ok (a : α) : Ordinary (.ok a) := fun _ h => nomatch h

@[grind .] theorem pure (a : α) : Ordinary (Pure.pure a) := ok a

@[grind =] theorem error_iff {e : Error} :
    Ordinary (.error e : Except Error α) ↔ ¬ e.OfFormat :=
  ⟨fun h => h e rfl, fun h _ he => by cases he; exact h⟩

@[grind =] theorem throw_iff {e : Error} :
    Ordinary (throw e : Except Error α) ↔ ¬ e.OfFormat := error_iff

@[grind .] theorem bind {x : Except Error α} {f : α → Except Error β} (hx : Ordinary x)
    (hf : ∀ a, Ordinary (f a)) : Ordinary (x >>= f) := by
  cases x with
  | error e => exact error_iff.2 (error_iff.1 hx)
  | ok a => exact hf a

@[grind .] theorem map {x : Except Error α} {f : α → β} (hx : Ordinary x) :
    Ordinary (f <$> x) := by
  cases x with
  | error e => exact error_iff.2 (error_iff.1 hx)
  | ok a => exact ok _

@[grind .] theorem mapM {f : α → Except Error β} {xs : List α} (hf : ∀ a, Ordinary (f a)) :
    Ordinary (xs.mapM f) := by
  induction xs with
  | nil => exact pure _
  | cons x xs ih =>
      rw [List.mapM_cons]
      exact .bind (hf x) fun _ => .bind ih fun _ => pure _

theorem ite {c : Prop} [Decidable c] {x y : Except Error α} (hx : Ordinary x)
    (hy : Ordinary y) : Ordinary (if c then x else y) := by
  split
  · exact hx
  · exact hy

end Ordinary

/-! ## Steps with a state -/

/-- The cause does not lie in the format of the output. -/
def Error.IsOrdinary (e : Error) : Prop := ¬ e.OfFormat

@[grind =] theorem Error.isOrdinary_iff {e : Error} : e.IsOrdinary ↔ ¬ e.OfFormat := Iff.rfl

/-- Wherever the step is started, it does not fail for the format of the output. -/
abbrev OrdinaryWork (x : StateT σ (Except Error) α) : Prop :=
  Upholds anything Error.IsOrdinary anything x

namespace OrdinaryWork

@[grind .] theorem liftM {x : Except Error α} (hx : Ordinary x) :
    OrdinaryWork (liftM x : StateT σ (Except Error) α) :=
  Upholds.liftM (fun _ _ => trivial) hx

theorem run {x : StateT σ (Except Error) α} (hx : OrdinaryWork x) (s : σ) : Ordinary (x.run s) :=
  (hx s trivial).2

end OrdinaryWork

/-! ## Numerals and written scalars -/

@[grind .] theorem Numeral.ordinary_int (base : Nat) (cs : List Char) :
    Ordinary (int base cs) := by
  unfold int
  grind

@[grind .] theorem Numeral.ordinary_float (cs : List Char) : Ordinary (float cs) := by
  unfold float
  grind

namespace Yaml

@[grind .] theorem ordinary_ofCode (code : Nat) : Ordinary (ofCode code) := by
  unfold ofCode
  grind

-- Two quotes in a row are read in one step, so the induction is on the number of characters.
theorem ordinary_quotedFrom (double : Bool) (cs : List Char) (mode : QuotedMode)
    (read : List Char) (p : Place) : Ordinary (quotedFrom double mode read p cs) := by
  induction h : cs.length using Nat.strongRecOn generalizing cs mode read p with
  | ind n ih =>
      cases cs with
      | nil =>
          rw [quotedFrom]
          grind
      | cons c rest =>
          have ih : ∀ cs mode read p, cs.length ≤ rest.length →
              Ordinary (quotedFrom double mode read p cs) :=
            fun cs mode read p hcs => ih cs.length (by grind) cs mode read p rfl
          rw [quotedFrom.eq_def]
          dsimp -zeta only
          extract_lets next lineStart word
          have hline : ∀ mode read, Ordinary (lineStart mode read) := by grind
          have hword : ∀ read, Ordinary (word read) := by
            intro read
            simp only [word]
            grind
          clear_value lineStart word
          cases mode <;> grind

@[grind .] theorem ordinary_quoted (double : Bool) (c : Cursor) :
    Ordinary (Lexeme.quoted double c) := ordinary_quotedFrom double _ .words [] _

@[grind .] theorem ordinary_blockHeader (c : Cursor) : Ordinary (blockHeader c) := by
  delta blockHeader
  extract_lets increment finish
  have hincrement : ∀ d, Ordinary (increment d) := by grind
  have hfinish : ∀ r, Ordinary (finish r) := by grind
  clear_value increment finish
  grind

@[grind .] theorem ordinary_block (fold : Bool) (indent : Int) (c : Cursor) :
    Ordinary (Lexeme.block fold indent c) := by
  unfold Lexeme.block
  grind

/-! ## Tokens -/

namespace Token

@[grind .] theorem ordinary_readWord (c : Cursor) : Ordinary (readWord c) := by
  unfold readWord
  grind

@[grind .] theorem ordinary_readAnchor (c : Cursor) : Ordinary (readAnchor c) := by
  unfold readAnchor
  grind

@[grind .] theorem ordinary_uriFrom (read : List Char) (bytes : List Nat) (p : Place)
    (cs : List Char) : Ordinary (uriFrom read bytes p cs) := by
  fun_induction uriFrom read bytes p cs <;> grind

@[grind .] theorem ordinary_readUri (c : Cursor) : Ordinary (readUri c) := by
  unfold readUri
  grind

@[grind .] theorem ordinary_readHandle (c : Cursor) : Ordinary (readHandle c) := by
  unfold readHandle
  grind

@[grind .] theorem ordinary_readTag (c : Cursor) : Ordinary (readTag c) := by
  unfold readTag
  grind

@[grind .] theorem ordinary_readNumber (c : Cursor) : Ordinary (readNumber c) := by
  unfold readNumber
  grind

@[grind .] theorem ordinary_readDirective (c : Cursor) : Ordinary (readDirective c) := by
  delta readDirective
  refine .bind (ordinary_readWord _) fun (name, c) => ?_
  dsimp -zeta only
  extract_lets spaces finish afterName
  have hfinish : ∀ r, Ordinary (finish r) := by grind
  have hafter : ∀ u, Ordinary (afterName u) := by
    intro u
    simp only [afterName]
    clear_value finish spaces
    split <;> grind
  clear_value afterName
  grind

end Token

namespace Lexer

@[grind .] theorem ordinary_dropKey (l : Lexer) : Ordinary l.dropKey := by
  unfold dropKey
  grind

@[grind .] theorem ordinary_noteKey (l : Lexer) : Ordinary l.noteKey := by
  unfold noteKey
  grind

theorem ordinary_dropStaleKeys (l : Lexer) : Ordinary l.dropStaleKeys := by
  unfold dropStaleKeys
  grind

@[grind .] theorem ordinary_readNode (l : Lexer) {read : Cursor → Except Error (Token × Cursor)}
    (h : ∀ c, Ordinary (read c)) : Ordinary (l.readNode read) := by
  unfold readNode
  grind

@[grind .] theorem ordinary_readBetween (l : Lexer)
    {read : Cursor → Except Error (Token × Cursor)} (h : ∀ c, Ordinary (read c)) :
    Ordinary (l.readBetween read) := by
  unfold readBetween
  grind

@[grind .] theorem ordinary_openFlow (l : Lexer) (token : Token) :
    Ordinary (l.openFlow token) := by
  unfold openFlow
  grind

@[grind .] theorem ordinary_closeFlow (l : Lexer) (token : Token) :
    Ordinary (l.closeFlow token) := by
  unfold closeFlow
  grind

@[grind .] theorem ordinary_beginBlock (l : Lexer) (token : Token) :
    Ordinary (l.beginBlock token) := by
  unfold beginBlock
  grind

@[grind .] theorem ordinary_readFlowEntry (l : Lexer) : Ordinary l.readFlowEntry := by
  unfold readFlowEntry
  grind

@[grind .] theorem ordinary_readBlockEntry (l : Lexer) : Ordinary l.readBlockEntry := by
  unfold readBlockEntry
  grind

@[grind .] theorem ordinary_readKey (l : Lexer) : Ordinary l.readKey := by
  unfold readKey
  grind

@[grind .] theorem ordinary_readValue (l : Lexer) : Ordinary l.readValue := by
  unfold readValue
  grind

@[grind .] theorem ordinary_readBlock (l : Lexer) (fold : Bool) : Ordinary (l.readBlock fold) := by
  unfold readBlock
  grind

@[grind .] theorem ordinary_readPlain (l : Lexer) : Ordinary l.readPlain := by
  unfold readPlain
  grind

theorem ordinary_readToken (l : Lexer) (c : Char) (rest : List Char) :
    Ordinary (l.readToken c rest) := by
  unfold readToken
  repeat' apply Ordinary.ite
  all_goals grind

theorem ordinary_finish (l : Lexer) : Ordinary l.finish := by
  unfold finish
  grind

/-- The error that ends the tokens of a text. -/
theorem not_ofFormat_of_readFrom (steps : Nat) (l : Lexer) :
    ∀ e ∈ (readFrom steps l).2, ¬ e.OfFormat := by
  fun_induction readFrom steps l with
  | case1 l => grind
  | case2 l steps e h =>
      rintro _ ⟨⟩
      exact ordinary_dropStaleKeys _ _ h
  | case3 => simp
  | case4 l steps next _ _ _ e h =>
      rintro _ ⟨⟩
      exact ordinary_finish _ _ h
  | case5 l steps next _ _ _ _ _ _ _ ih => exact ih
  | case6 l steps next _ _ c rest _ e h =>
      rintro _ ⟨⟩
      exact ordinary_readToken _ _ _ _ h

end Lexer

/-! ## Nodes -/

theorem not_ofFormat_failure (text : List Char) : ¬ ((tokensOf text).2.getD .yaml).OfFormat := by
  unfold tokensOf
  cases h : (Lexer.readFrom (text.length + 1) { cursor := Cursor.start text }).2 with
  | none => exact nofun
  | some e => exact Lexer.not_ofFormat_of_readFrom _ _ e h

/-- All tokens and tags are admitted, but no failure that lies in the format of the output. -/
def Admission.ordinary : Admission where
  token := anything
  tag := anything
  cause := Error.IsOrdinary
  yaml := nofun
  null := trivial
  str := trivial
  seq := trivial
  map := trivial
  shown _ _ := trivial
  written _ _ _ := trivial

theorem ordinary_compose (text : List Char) : Ordinary (compose text) :=
  (upholds_compose .ordinary (fun _ _ => trivial) (not_ofFormat_failure text)).2

/-! ## Values -/

namespace ScalarValue

@[grind .] theorem ordinary_signed (cs : List Char) : Ordinary (signed cs) := by
  unfold signed
  grind

@[grind .] theorem ordinary_readInt (text : String) : Ordinary (readInt text) := by
  unfold readInt
  grind

@[grind .] theorem ordinary_sixtyfoldFloat (base : Nat) (sum : Binary64)
    (parts : List Binary64) : Ordinary (sixtyfoldFloat base sum parts) := by
  fun_induction sixtyfoldFloat base sum parts <;> grind

@[grind .] theorem ordinary_readFloat (text : String) : Ordinary (readFloat text) := by
  unfold readFloat
  grind

@[grind .] theorem ordinary_readBool (text : String) : Ordinary (readBool text) := by
  unfold readBool
  grind

@[grind .] theorem ordinary_readBinary (text : String) : Ordinary (readBinary text) := by
  unfold readBinary
  grind

@[grind .] theorem ordinary_readTimestamp (text : String) : Ordinary (readTimestamp text) := by
  unfold readTimestamp
  grind

end ScalarValue

namespace Graph

@[grind .] theorem ordinary_text (g : Graph) (id : Nat) : Ordinary (g.text id) := by
  have htext : ∀ steps id, Ordinary (g.textIn steps id) := by
    intro steps id
    fun_induction textIn g steps id <;> grind
  exact htext _ _

theorem ordinary_entries (g : Graph) (id : Nat) : Ordinary (g.entries id) := by
  unfold entries
  grind

theorem ordinary_flatten (g : Graph) (id : Nat) : Ordinary (g.flatten id) := by
  have htagged : g.Tagged anything := fun _ => trivial
  exact (upholds_flatten (E := Error.IsOrdinary) htagged trivial nofun id).2

end Graph

namespace Construct

@[grind .] theorem ordinary_alloc (cell : Cell) : OrdinaryWork (alloc cell) := by
  unfold alloc
  grind

@[grind .] theorem ordinary_later (empty : Cell) (node : Nat) :
    OrdinaryWork (later empty node) := by
  unfold later
  grind

@[grind .] theorem ordinary_textOf (node : Nat) : OrdinaryWork (textOf node) := by
  unfold textOf
  grind

@[grind .] theorem ordinary_fresh (node : Nat) : OrdinaryWork (fresh node) := by
  unfold fresh
  refine .get_bind fun c _ => ?_
  split <;> grind

@[grind .] theorem ordinary_value (node : Nat) : OrdinaryWork (value node) := by
  unfold value
  grind

@[grind .] theorem ordinary_entries (known : List (Value × Value)) (es : List (Nat × Nat)) :
    OrdinaryWork (entries known es) := by
  induction es generalizing known with
  | nil => exact .pure _
  | cons e es ih =>
      have hrest : ∀ key, OrdinaryWork (do
          let v ← value e.2
          entries ((← get).store.put key v known) es) :=
        fun key => .bind (ordinary_value _) fun v => .get_bind fun c _ => ih _
      unfold entries
      refine .bind (ordinary_value _) fun key => .get_bind fun c _ => ?_
      split
      · exact hrest key
      · exact hrest key
      · exact hrest key
      · exact .bind (.throw nofun) fun _ => hrest key

@[grind .] theorem ordinary_mapping (node : Nat) : OrdinaryWork (mapping node) := by
  unfold mapping
  grind [Graph.ordinary_entries, Graph.ordinary_flatten]

@[grind .] theorem ordinary_pair (node : Nat) : OrdinaryWork (pair node) := by
  unfold pair
  grind

@[grind .] theorem ordinary_contents (node : Nat) : OrdinaryWork (contents node) := by
  unfold contents
  grind

theorem ordinary_levels (fuel : Nat) : OrdinaryWork (levels fuel) := by
  induction fuel with
  | zero => exact .pure _
  | succ fuel ih =>
      unfold levels
      grind

end Construct

@[grind .] theorem ordinary_load (st : Store) (text : List Char) : Ordinary (load st text) := by
  unfold load
  refine .bind (ordinary_compose _) fun r => ?_
  split
  · exact .pure _
  · refine .bind (OrdinaryWork.run ?_ _) fun _ => .pure _
    exact .bind (Construct.ordinary_value _) fun _ =>
      .bind (Construct.ordinary_levels _) fun _ => .pure _

end Yaml

/-! ## Manifests -/

theorem FileTree.ordinary_read (t : FileTree) (path : String) : Ordinary (t.read path) := by
  unfold read checkPath faultAt
  grind

namespace Manifest

theorem ordinary_ofText (st : Store) (path : String) (text : List Char) :
    Ordinary (ofText st path text) := by
  unfold ofText
  grind

/-- Whatever is wrong with a manifest file, the format of the output is not to blame. -/
theorem ordinary_read (st : Store) (files : FileTree) (path : String) :
    Ordinary (read st files path) := by
  have hdecode : ∀ contents, Ordinary (decode contents) := by
    unfold decode
    grind
  exact .bind (files.ordinary_read path) fun contents =>
    .bind (hdecode contents) fun text => ordinary_ofText st path text

end Manifest
end ApiManifest
