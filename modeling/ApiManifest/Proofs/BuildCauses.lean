import ApiManifest.Proofs.LoadCauses
import ApiManifest.Proofs.Returns

/-!
# Causes of failures in building and writing out

Building a document and writing it as text have no part in the format that is chosen for it, so
what goes wrong in them has other causes. A generator is taken to answer without blaming the
format, as the providers do.
-/

namespace ApiManifest

variable {α β σ s : Type}

/-! ## Steps of a run -/

/-- Wherever the step is started, it does not fail for the format of the output. -/
def OrdinaryStep (step : ExceptT Error (StateM s) α) : Prop := ∀ w, Ordinary (outcome step w).1

namespace OrdinaryStep

@[grind .] theorem pure (a : α) : OrdinaryStep (Pure.pure a : ExceptT Error (StateM s) α) :=
  fun _ => .ok a

@[grind .] theorem throw {e : Error} (h : ¬ e.OfFormat) :
    OrdinaryStep (MonadExcept.throw e : ExceptT Error (StateM s) α) :=
  fun _ => Ordinary.error_iff.2 h

@[grind .] theorem bind {x : ExceptT Error (StateM s) α} {f : α → ExceptT Error (StateM s) β}
    (hx : OrdinaryStep x) (hf : ∀ a, OrdinaryStep (f a)) : OrdinaryStep (x >>= f) := by
  intro w
  have hfirst := hx w
  rw [outcome_bind]
  rcases h : outcome x w with ⟨e | a, w'⟩
  · rw [h] at hfirst
    exact Ordinary.error_iff.2 (hfirst e rfl)
  · exact hf a w'

@[grind .] theorem get : OrdinaryStep (MonadState.get : ExceptT Error (StateM s) s) :=
  fun w => .ok w

@[grind .] theorem set (w : s) :
    OrdinaryStep (MonadStateOf.set w : ExceptT Error (StateM s) Unit) :=
  fun _ => .ok ()

@[grind .] theorem reading {read : Store → Except Error α} (h : ∀ st, Ordinary (read st)) :
    OrdinaryStep (Run.reading read : Run σ α) := by
  intro w
  rw [Run.outcome_reading]
  exact h w.store

@[grind .] theorem onStore {work : Store.Work α} (h : OrdinaryStep work) :
    OrdinaryStep (Run.onStore work : Run σ α) := by
  intro w
  rw [Run.outcome_onStore]
  exact h w.store

@[grind .] theorem tell (records : List Log.Record) :
    OrdinaryStep (Run.tell records : Run σ Unit) := fun _ => .ok ()

end OrdinaryStep

/-! ## Texts of values -/

@[grind .] theorem ordinary_decimalText (n : Int) : Ordinary (decimalText n) := by
  unfold decimalText
  grind

@[grind .] theorem Scalar.ordinary_literal (s : Scalar) : Ordinary s.literal := by
  unfold literal
  grind

@[grind .] theorem Scalar.ordinary_display (s : Scalar) : Ordinary s.display := by
  unfold display
  grind

namespace Tree

mutual

theorem ordinary_literal (t : Tree) : Ordinary t.literal := by
  cases t with
  | list items | tuple items | set items =>
      have := ordinary_literals items
      unfold literal
      grind
  | map entries =>
      have := ordinary_entryLiterals entries
      unfold literal
      grind
  | _ =>
      unfold literal
      grind

theorem ordinary_literals (items : List Tree) : Ordinary (literals items) := by
  cases items with
  | nil => exact .ok _
  | cons x rest =>
      have := ordinary_literal x
      have := ordinary_literals rest
      unfold literals
      grind

theorem ordinary_entryLiterals (entries : List (Tree × Tree)) :
    Ordinary (entryLiterals entries) := by
  cases entries with
  | nil => exact .ok _
  | cons e rest =>
      have := ordinary_literal e.1
      have := ordinary_literal e.2
      have := ordinary_entryLiterals rest
      unfold entryLiterals
      grind

end

@[grind .] theorem ordinary_display (t : Tree) : Ordinary t.display := by
  unfold display
  grind [ordinary_literal]

end Tree

/-! ## JSON -/

namespace Json

@[grind .] theorem ordinary_bare (s : Scalar) : Ordinary (bare s) := by
  unfold bare
  grind

@[grind .] theorem ordinary_scalar (s : Scalar) : Ordinary (scalar s) := by
  unfold scalar
  grind

@[grind .] theorem ordinary_key (t : Tree) : Ordinary (key t) := by
  unfold key
  grind

@[grind .] theorem ordinary_objectKey (k : Value) : Ordinary (objectKey k) := by
  unfold objectKey
  grind

theorem ordinary_pretty (st : Store) (depth level : Nat) (v : Value) :
    Ordinary (pretty st depth level v) := by
  induction depth generalizing level v with
  | zero => cases v <;> grind [pretty]
  | succ depth ih =>
      cases v with
      | scalar s => exact ordinary_scalar s
      | ref id =>
          unfold pretty
          split
          · exact ordinary_scalar _
          · exact .bind (.mapM fun _ => ih _ _) fun _ => .pure _
          · exact .bind (.mapM fun _ => ih _ _) fun _ => .pure _
          · refine .bind (.mapM fun entry => ?_) fun _ => .pure _
            exact .bind (ordinary_objectKey _) fun _ => .bind (ih _ _) fun _ => .pure _
          all_goals exact Ordinary.error_iff.2 nofun

mutual

theorem ordinary_inline (t : Tree) : Ordinary (inline t) := by
  cases t with
  | list items | tuple items =>
      have := ordinary_inlineItems items
      unfold inline
      grind
  | map entries =>
      have := ordinary_inlineEntries entries
      unfold inline
      grind
  | _ =>
      unfold inline
      grind

theorem ordinary_inlineItems (items : List Tree) : Ordinary (inlineItems items) := by
  cases items with
  | nil => exact .ok _
  | cons x rest =>
      have := ordinary_inline x
      have := ordinary_inlineItems rest
      unfold inlineItems
      grind

theorem ordinary_inlineEntries (entries : List (Tree × Tree)) :
    Ordinary (inlineEntries entries) := by
  cases entries with
  | nil => exact .ok _
  | cons e rest =>
      have := ordinary_inline e.2
      have := ordinary_inlineEntries rest
      unfold inlineEntries
      grind

end

end Json

/-! ## The baseline -/

theorem BaseUri.ordinary_split (baseUri scheme : String) : Ordinary (split baseUri scheme) := by
  unfold split hostAndPath
  grind

@[grind .] theorem Metadata.ordinary_textOf (v : Tree) : Ordinary (textOf v) := by
  unfold textOf
  grind

theorem Metadata.ordinary_ofManifest (manifest : Tree) : Ordinary (ofManifest manifest) := by
  unfold ofManifest
  split
  · refine .bind (Tree.ordinary_display _) fun scheme => .bind (ordinary_textOf _) fun uri =>
      .bind (BaseUri.ordinary_split _ _) fun parts => .bind (ordinary_textOf _) fun title => ?_
    split
    · exact .ok _
    · exact .bind (Tree.ordinary_display _) fun _ => .pure _
  · exact Ordinary.error_iff.2 nofun

namespace Baseline

@[grind .] theorem ordinary_given (fields : Entries) (name : String) :
    Ordinary (given fields name) := by
  unfold given filled
  grind [Json.ordinary_inline]

@[grind .] theorem ordinary_descriptionLine (fields : Entries) :
    Ordinary (descriptionLine fields) := by
  unfold descriptionLine
  grind

theorem ordinary_text (fields : Entries) : Ordinary (text fields) := by
  delta text
  extract_lets filledIn
  have hfilled : ∀ u, Ordinary (filledIn u) := fun _ =>
    .bind (ordinary_given _ _) fun _ => .bind (ordinary_descriptionLine _) fun _ =>
      .bind (ordinary_given _ _) fun _ => .bind (ordinary_given _ _) fun _ =>
        .bind (ordinary_given _ _) fun _ => .bind (ordinary_given _ _) fun _ =>
          .bind (ordinary_given _ _) fun _ => .pure _
  split
  · exact .bind (Ordinary.throw_iff.2 nofun) hfilled
  · exact hfilled ()

theorem ordinary_ofManifest (manifest : Tree) : Ordinary (ofManifest manifest) := by
  refine .bind (Metadata.ordinary_ofManifest manifest) fun m => ?_
  unfold ofFields
  exact .bind (ordinary_text _) fun text => .bind (Yaml.ordinary_load _ _) fun _ => .pure _

end Baseline

namespace Backend

theorem ordinary_ofDocument (document : Tree) : Ordinary (ofDocument document) := by
  unfold ofDocument firstItem
  grind

@[grind .] theorem ordinary_uri (b : Backend) (path : String) : Ordinary (b.uri path) := by
  unfold uri
  grind

end Backend

/-! ## Declarations -/

@[grind .] theorem Property.ordinary_ofValue (st : Store) (decl : Value) :
    Ordinary (ofValue st decl) := by
  unfold ofValue
  grind

theorem ordinary_declareAll (st : Store) (properties : Fields Property)
    (es : List (Value × Value)) : Ordinary (declareAll st properties es) := by
  induction es generalizing properties with
  | nil => exact .ok _
  | cons e rest ih =>
      unfold declareAll
      grind

theorem ordinary_declaredProperties (st : Store) (declared : Value) :
    Ordinary (declaredProperties st declared) := by
  unfold declaredProperties
  grind [ordinary_declareAll]

namespace Resource

@[grind .] theorem ordinary_itemsOf (t : Tree) : Ordinary (itemsOf t) := by
  unfold itemsOf
  grind

theorem ordinary_ofEntries (st : Store) (name : String) (es : List (Value × Value)) :
    Ordinary (ofEntries st name es) := by
  unfold ofEntries pathOf methodsOf
  grind

theorem ordinary_ofModel (st : Store) (name : String) (decl : Value) :
    Ordinary (ofModel st name decl) := by
  unfold ofModel ofValue
  grind [ordinary_ofEntries]

theorem ordinary_unknownMethods (r : Resource) : Ordinary r.unknownMethods := by
  unfold unknownMethods
  grind

end Resource

namespace Document

theorem ordinary_declarations (st : Store) (manifest : Value) :
    Ordinary (declarations st manifest) := by
  unfold declarations models
  grind

end Document

/-! ## Merging -/

namespace Store

theorem ordinary_countedEntries (source count : Nat) :
    OrdinaryStep (countedEntries source count) := by
  unfold countedEntries
  grind

theorem ordinary_mergeEntry {inner : Nat → Nat → Work Unit}
    (h : ∀ target source, OrdinaryStep (inner target source)) (target : Nat) (key value : Value) :
    OrdinaryStep (mergeEntry inner target key value) := by
  unfold mergeEntry
  grind

theorem ordinary_mergeEntries {inner : Nat → Nat → Work Unit}
    (h : ∀ target source, OrdinaryStep (inner target source)) (target source count left : Nat)
    (index : Nat) : OrdinaryStep (mergeEntries inner target source count left index) := by
  induction left generalizing index with
  | zero => exact .bind (ordinary_countedEntries _ _) fun _ => .pure _
  | succ left ih =>
      unfold mergeEntries
      grind [ordinary_countedEntries, ordinary_mergeEntry]

theorem ordinary_mergeTo (depth target source : Nat) :
    OrdinaryStep (mergeTo depth target source) := by
  induction depth generalizing target source with
  | zero => exact .throw nofun
  | succ depth ih => exact .bind .get fun _ => ordinary_mergeEntries ih _ _ _ _ _

@[grind .] theorem ordinary_merge (target source : Nat) : OrdinaryStep (merge target source) :=
  .bind .get fun _ => ordinary_mergeTo _ _ _

end Store

namespace Node

mutual

theorem ordinary_merge (target source : Node) : OrdinaryStep (merge target source) := by
  cases source with
  | map source =>
      have := ordinary_mergeFields source
      unfold merge
      grind
  | leaf v =>
      cases v <;> unfold merge <;> grind
  | list items =>
      unfold merge
      grind

theorem ordinary_mergeFields (source : List (String × Node)) (target : Fields Node) :
    OrdinaryStep (mergeFields target source) := by
  cases source with
  | nil => exact .pure _
  | cons field rest =>
      have := fun target => ordinary_merge target field.2
      have := fun target => ordinary_mergeFields rest target
      unfold mergeFields
      grind

end

end Node

/-! ## Documents -/

/-- Whatever the generator is asked, it does not blame the format of the output. -/
def Generator.IsOrdinary (generator : Generator σ) : Prop :=
  ∀ st key state, Ordinary (generator.ask st key state).result

theorem Provided.ordinary_toScalar (provided : Provided) : Ordinary provided.toScalar := by
  unfold toScalar
  grind

/-- Providers fail for reasons of their own. -/
theorem Providers.isOrdinary_generator (ps : Providers) : ps.generator.IsOrdinary := by
  intro st key calls
  show Ordinary (ps.ask key calls).result
  unfold ask
  dsimp only
  split
  · exact .ok _
  · split
    · exact .ok _
    · exact .ok _
    · split
      · exact .ok _
      · exact Ordinary.error_iff.2 nofun
      · next provided _ =>
        have := provided.ordinary_toScalar
        split <;> grind

theorem Run.ordinary_ask {generator : Generator σ} (h : generator.IsOrdinary) (key : String) :
    OrdinaryStep (Run.ask generator key) := by
  intro w
  rw [outcome_ask]
  exact h _ _ _

section Building

variable {generator : Option (Generator σ)} (hgenerator : ∀ g ∈ generator, g.IsOrdinary)
include hgenerator

namespace Definition

theorem ordinary_shownExample (property : Property) (options : Options) :
    OrdinaryStep (shownExample property options generator) := by
  unfold shownExample exampleOf
  split
  · split
    · exact .bind (Run.ordinary_ask (hgenerator _ rfl) _) fun _ => .pure _
    · exact .pure _
  · exact .pure _

theorem ordinary_schemas (resource : String) (options : Options) (properties : Fields Property) :
    OrdinaryStep (schemas resource options generator properties) := by
  induction properties with
  | nil => exact .pure _
  | cons p rest ih =>
      refine .bind ?_ fun part => .bind ih fun _ => .pure _
      exact .bind (.tell _) fun _ => .bind .get fun _ =>
        .bind (ordinary_shownExample hgenerator _ _) fun _ => .pure _

theorem ordinary_build (resource : String) (declared : Value) (options : Options) :
    OrdinaryStep (build resource declared options generator) :=
  .bind (.reading fun st => ordinary_declaredProperties st declared) fun _ =>
    .bind (ordinary_schemas hgenerator _ _ _) fun _ => .pure _

theorem ordinary_ofResource (r : Resource) (options : Options) :
    OrdinaryStep (ofResource r options generator) := by
  refine .bind (ordinary_build hgenerator _ _ _) fun response => ?_
  split
  · exact .pure _
  · exact .bind (ordinary_build hgenerator _ _ _) fun _ => .pure _

end Definition

omit hgenerator in
theorem PathItem.ordinary_operation (r : Resource) (op : Operation) (options : Options)
    (backend : Option Backend) : Ordinary (operation r op options backend) := by
  unfold operation integration? integration
  grind

omit hgenerator in
theorem PathItem.ordinary_ofResource (r : Resource) (options : Options)
    (backend : Option Backend) : OrdinaryStep (ofResource r options backend : Run σ _) := by
  have hadd : ∀ (ops : List Operation) (paths : Fields Node),
      OrdinaryStep (addOperations r options backend ops paths : Run σ _) := by
    intro ops
    induction ops with
    | nil => exact fun _ => .pure _
    | cons op rest ih =>
        exact fun paths => .bind (.tell _) fun _ =>
          .bind (.reading fun _ => ordinary_operation r op options backend) fun _ => ih _
  exact .bind (.reading fun _ => r.ordinary_unknownMethods) fun _ => .bind (.tell _) fun _ =>
    hadd _ _

namespace Document

theorem ordinary_addModels (options : Options) (backend : Backend)
    (declared : List (Value × Value)) (d : Document) :
    OrdinaryStep (addModels options backend generator declared d) := by
  induction declared generalizing d with
  | nil => exact .pure _
  | cons entry rest ih =>
      refine .bind .get fun _ => .bind (.tell _) fun _ => .bind (.reading fun st => ?_) fun r =>
        .bind ?_ fun d => ih d
      · exact .bind (Tree.ordinary_display _) fun name => Resource.ordinary_ofModel _ _ _
      · exact .bind (Definition.ordinary_ofResource hgenerator _ _) fun _ =>
          .bind (.onStore (Node.ordinary_mergeFields _ _)) fun _ =>
            .bind (PathItem.ordinary_ofResource _ _ _) fun _ =>
              .bind (.onStore (Node.ordinary_mergeFields _ _)) fun _ => .pure _

/-- Building a document does not fail for the format that it is to be written in. -/
theorem ordinary_build (manifest : Value) (options : Options) :
    OrdinaryStep (build manifest options generator) :=
  .bind (.reading fun _ => Baseline.ordinary_ofManifest _) fun _ =>
    .bind (.reading fun _ => Backend.ordinary_ofDocument _) fun _ =>
      .bind (.reading fun st => ordinary_declarations st manifest) fun _ =>
        .bind (ordinary_addModels hgenerator _ _ _ _) fun _ =>
          .bind (.tell _) fun _ => .pure _

end Document
end Building

/-! ## Texts of documents -/

namespace Yaml.Outline

@[grind .] theorem ordinary_ofScalar (s : Scalar) : Ordinary (ofScalar s) := by
  unfold ofScalar
  grind

theorem ordinary_ofValue (st : Store) (m : Marks) (depth : Nat) (v : Value) :
    OrdinaryWork (ofValue st m depth v) := by
  induction depth generalizing v with
  | zero =>
      cases v with
      | scalar s => exact .liftM (ordinary_ofScalar s)
      | ref id => exact .throw nofun
  | succ depth ih =>
      cases v with
      | scalar s => exact .liftM (ordinary_ofScalar s)
      | ref id =>
          unfold ofValue
          refine .get_bind fun written _ => ?_
          split
          · exact .pure _
          · refine .bind (.modify fun _ _ => trivial) fun _ => ?_
            split <;> grind

theorem ordinary_ofEntries (st : Store) (entries : List (Value × Value)) :
    Ordinary (ofEntries st entries) := by
  refine .bind (OrdinaryWork.run (.mapM fun entry => ?_) _) fun _ => .pure _
  exact .bind (ordinary_ofValue _ _ _ _) fun _ => .bind (ordinary_ofValue _ _ _ _) fun _ => .pure _

end Yaml.Outline

namespace Output

@[grind .] theorem ordinary_itemsOf (st : Store) (v : Value) : Ordinary (itemsOf st v) := by
  unfold itemsOf
  grind

theorem ordinary_addPairs (st : Store) (pairs : List Value) (es : List (Value × Value)) :
    Ordinary (addPairs st es pairs) := by
  induction pairs generalizing es with
  | nil => exact .ok _
  | cons pair rest ih =>
      unfold addPairs
      grind

theorem ordinary_render (st : Store) (document : Value) (format : Format) :
    Ordinary (render st document format) := by
  cases format with
  | json => exact .bind (Json.ordinary_pretty _ _ _ _) fun _ => .pure _
  | yaml =>
      refine .bind ?_ fun es => .bind (Yaml.Outline.ordinary_ofEntries st es) fun _ => .pure _
      unfold entriesOf
      split
      · exact .ok _
      · exact .bind (ordinary_itemsOf _ _) fun _ => ordinary_addPairs _ _ _

/-- Once there is a format, writing a document as text does not blame it. -/
theorem ordinary_renderDocument (st : Store) (d : Document) (format : Format) :
    Ordinary (renderDocument st d format) := ordinary_render _ _ _

end Output
end ApiManifest
