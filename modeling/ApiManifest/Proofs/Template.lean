import ApiManifest.Baseline
import ApiManifest.Proofs.Construction
import ApiManifest.Proofs.Lines

/-!
# The template

The document that the template makes of a manifest says what the manifest says, character for
character. No text can break out of the place that it is filled into: the text of the template is
one layout, whose flows are the quoted texts, and reading that layout gives its tree.
-/

namespace ApiManifest

namespace Yaml

/-! ## Readable layouts -/

mutual

/-- The characters of the flows in a layout. -/
def Layout.flows : Layout → List (List Char)
  | .flow chars _ => [chars]
  | .block fields => fields.flows

/-- The characters of the flows in some fields. -/
def Block.flows : Block → List (List Char)
  | .last _ value => value.flows
  | .field _ value rest => value.flows ++ rest.flows

end

/-- The codes of the letters of ASCII. -/
theorem code_of_isAlpha {c : Char} (hc : c.isAlpha) :
    (65 ≤ c.toNat ∧ c.toNat ≤ 90) ∨ (97 ≤ c.toNat ∧ c.toNat ≤ 122) := by
  have hcase : ('A'.val ≤ c.val ∧ c.val ≤ 'Z'.val) ∨ ('a'.val ≤ c.val ∧ c.val ≤ 'z'.val) := by
    rcases Bool.or_eq_true_iff.mp hc with h | h
    · exact .inl (of_decide_eq_true h)
    · exact .inr ((Bool.and_eq_true_iff.mp h).imp of_decide_eq_true of_decide_eq_true)
  simp only [UInt32.le_iff_toNat_le] at hcase
  exact hcase

theorem isReadable_of_isAlpha {c : Char} (hc : c.isAlpha) : isReadable c := by
  have hcode := code_of_isAlpha hc
  simp only [isReadable, Bool.or_eq_true, Bool.and_eq_true, decide_eq_true_eq]
  omega

theorem FieldName.isReadable (name : FieldName) : name.text.toList.all Yaml.isReadable :=
  List.all_eq_true.mpr fun c hc => isReadable_of_isAlpha (List.all_eq_true.mp name.isAlpha c hc)

theorem isReadable_indentation (column : Nat) :
    ('\n' :: List.replicate column ' ').all isReadable := by
  have hbreak : isReadable '\n' := by decide
  have hspace : isReadable ' ' := by decide
  simp [hbreak, hspace]

mutual

/-- YAML can read a layout if it can read its flows. -/
theorem Layout.isReadable_text : ∀ (value : Layout) (column : Nat),
    (∀ chars ∈ value.flows, chars.all isReadable) → (value.text column).all isReadable
  | .flow chars _, _, h => by
      have hspace : isReadable ' ' := by decide
      rw [Layout.text, List.all_cons, hspace, h chars List.mem_cons_self]
      rfl
  | .block fields, column, h => by
      rw [Layout.text, List.all_append, isReadable_indentation, fields.isReadable_text _ h]
      rfl

theorem Block.isReadable_text : ∀ (fields : Block) (column : Nat),
    (∀ chars ∈ fields.flows, chars.all isReadable) → (fields.text column).all isReadable
  | .last name value, column, h => by
      have hcolon : isReadable ':' := by decide
      rw [Block.text, List.all_append, List.all_cons, name.isReadable, hcolon,
        value.isReadable_text column h]
      rfl
  | .field name value rest, column, h => by
      have hcolon : isReadable ':' := by decide
      obtain ⟨hvalue, hrest⟩ := List.forall_mem_append.mp h
      rw [Block.text, List.all_append, List.all_append, List.all_append, List.all_cons,
        name.isReadable, hcolon, value.isReadable_text column hvalue, isReadable_indentation,
        rest.isReadable_text column hrest]
      rfl

end

end Yaml

namespace Baseline

open Yaml

/-! ## Names of the fields in the template -/

namespace Field

abbrev swagger : FieldName := ⟨"swagger", by decide⟩
abbrev info : FieldName := ⟨"info", by decide⟩
abbrev title : FieldName := ⟨"title", by decide⟩
abbrev description : FieldName := ⟨"description", by decide⟩
abbrev version : FieldName := ⟨"version", by decide⟩
abbrev schemes : FieldName := ⟨"schemes", by decide⟩
abbrev consumes : FieldName := ⟨"consumes", by decide⟩
abbrev produces : FieldName := ⟨"produces", by decide⟩
abbrev host : FieldName := ⟨"host", by decide⟩
abbrev basePath : FieldName := ⟨"basePath", by decide⟩
abbrev paths : FieldName := ⟨"paths", by decide⟩
abbrev definitions : FieldName := ⟨"definitions", by decide⟩

end Field

/-! ## Texts in the template -/

/-- A text that the template carries. -/
structure PlainText where
  text : String
  isPlain : text.toList.all Baseline.isPlain

namespace PlainText

variable (s : PlainText) (ss : List PlainText)

/-- The text as a value. -/
def tree : Tree := .text s.text

/-- What stands in the template for the text. -/
def layout : Layout := .flow (quote s.text) (.scalar (.quoted s.text))

/-- What stands in the template for each of some texts. -/
def items : List (List Char × Flow) := ss.map fun s => (quote s.text, .scalar (.quoted s.text))

/-- What stands in the template for a list of texts. -/
def listLayout : Layout :=
  .flow ('[' :: Lexer.itemChars true ((items ss).map Prod.fst)) (.items ((items ss).map Prod.snd))

theorem layout_spelled : s.layout.Spelled := Lexer.spells_quote s.isPlain

theorem listLayout_spelled : (listLayout ss).Spelled := by
  refine Lexer.spells_items fun item hitem => ?_
  obtain ⟨s, -, rfl⟩ := List.mem_map.mp hitem
  exact Lexer.spells_quote s.isPlain

theorem isReadable_layout : ∀ chars ∈ s.layout.flows, chars.all isReadable :=
  List.forall_mem_singleton.mpr (isReadable_quote s.isPlain)

theorem isReadable_itemChars (first : Bool) :
    (Lexer.itemChars first ((items ss).map Prod.fst)).all isReadable := by
  have hbracket : isReadable ']' := by decide
  have hcomma : isReadable ',' := by decide
  have hspace : isReadable ' ' := by decide
  induction ss generalizing first with
  | nil => simp [items, Lexer.itemChars, hbracket]
  | cons s ss ih =>
      have hrest := ih false
      have hs := isReadable_quote s.isPlain
      simp only [items, List.map_cons, Lexer.itemChars, List.all_append] at hrest ⊢
      rw [hs, hrest]
      cases first <;> simp [hcomma, hspace]

theorem isReadable_listLayout : ∀ chars ∈ (listLayout ss).flows, chars.all isReadable := by
  have hbracket : isReadable '[' := by decide
  refine List.forall_mem_singleton.mpr ?_
  rw [List.all_cons, hbracket, isReadable_itemChars]
  rfl

theorem listLayout_distinct : (listLayout ss).Distinct := by
  induction ss with
  | nil => trivial
  | cons s ss ih => exact ⟨trivial, ih⟩

theorem tree_listLayout : (listLayout ss).tree = .list (ss.map tree) := by
  refine congrArg Tree.list ?_
  induction ss with
  | nil => rfl
  | cons s ss ih => exact congrArg (s.tree :: ·) ih

/-! ### What is filled in -/

theorem filled_tree : filled s.tree = .ok (String.ofList (quote s.text)) := filled_text s.text

theorem inlineItems_map : Json.inlineItems (ss.map tree) = .ok (ss.map (Json.quoted ·.text)) := by
  induction ss with
  | nil => rfl
  | cons s ss ih =>
      rw [List.map_cons, Json.inlineItems, ih]
      rfl

/-- Items of JSON are parted as the items of a flow are. -/
theorem flatMap_escapedChar_intercalate (s : String) (ss : List String) :
    (", ".intercalate (s :: ss)).toList.flatMap escapedChar ++ [']'] =
      Lexer.itemChars true ((s :: ss).map fun s => s.toList.flatMap escapedChar) := by
  have hcomma : escapedChar ',' = [','] := rfl
  have hspace : escapedChar ' ' = [' '] := rfl
  induction ss generalizing s with
  | nil => simp [Lexer.itemChars]
  | cons s' ss ih =>
      have hrest := ih s'
      simp only [List.map_cons, Lexer.itemChars] at hrest ⊢
      rw [String.intercalate_cons_cons]
      simp [hcomma, hspace, hrest, -String.toList_intercalate]

theorem filled_list : filled (.list (ss.map tree)) =
    .ok (String.ofList ('[' :: Lexer.itemChars true ((items ss).map Prod.fst))) := by
  have hopen : escapedChar '[' = ['['] := rfl
  have hclose : escapedChar ']' = [']'] := rfl
  have hitems : (", ".intercalate (ss.map (Json.quoted ·.text))).toList.flatMap escapedChar ++ [']']
      = Lexer.itemChars true ((items ss).map Prod.fst) := by
    cases ss with
    | nil => rfl
    | cons s ss =>
        rw [List.map_cons, flatMap_escapedChar_intercalate]
        simp [items, flatMap_escapedChar_quoted, Function.comp_def]
  have hinline : Json.inline (.list (ss.map tree)) =
      .ok ("[" ++ ", ".intercalate (ss.map (Json.quoted ·.text)) ++ "]") := by
    rw [Json.inline, inlineItems_map]
    rfl
  rw [filled, hinline, ← hitems]
  simp [hopen, hclose, -String.toList_intercalate, pure, Except.pure, bind, Except.bind]

end PlainText

/-! ## The whole template -/

/-- What a manifest says about the interface as a whole, where every text is plain. -/
structure Texts where
  title : PlainText
  description : Option PlainText
  version : PlainText
  schemes : List PlainText
  formats : List PlainText
  host : PlainText
  basePath : PlainText

namespace Texts

variable (t : Texts)

/-- The same as metadata. -/
def metadata : Metadata where
  title := t.title.text
  description := t.description.elim .null PlainText.tree
  version := t.version.text
  schemes := t.schemes.map PlainText.tree
  formats := t.formats.map PlainText.tree
  host := t.host.text
  basePath := t.basePath.text

/-- What the document says about the interface as a whole. -/
def info : Entries :=
  (.text "title", t.title.tree) ::
    (t.description.toList.map fun description => (.text "description", description.tree)) ++
    [(.text "version", t.version.tree)]

/-- The document that begins with what the manifest says. -/
def document : Tree := .map [
  (.text "swagger", .text "2.0"),
  (.text "info", .map t.info),
  (.text "schemes", .list (t.schemes.map PlainText.tree)),
  (.text "consumes", .list (t.formats.map PlainText.tree)),
  (.text "produces", .list (t.formats.map PlainText.tree)),
  (.text "host", t.host.tree),
  (.text "basePath", t.basePath.tree),
  (.text "paths", .map []),
  (.text "definitions", .map [])]

/-- The version of the format. -/
def format : PlainText := ⟨"2.0", by decide⟩

/-- Nothing in braces. -/
def noEntries : Layout := .flow ['\x7b', '\x7d'] (.braces [])

/-- The lines about the interface as a whole. -/
def infoLayout : Block :=
  let version := Block.last Field.version t.version.layout
  .field Field.title t.title.layout <| match t.description with
    | none => version
    | some description => .field Field.description description.layout version

/-- The lines of the template with its fields. -/
def layout : Block :=
  .field Field.swagger format.layout <|
  .field Field.info (.block t.infoLayout) <|
  .field Field.schemes (PlainText.listLayout t.schemes) <|
  .field Field.consumes (PlainText.listLayout t.formats) <|
  .field Field.produces (PlainText.listLayout t.formats) <|
  .field Field.host t.host.layout <|
  .field Field.basePath t.basePath.layout <|
  .field Field.paths noEntries <|
  .last Field.definitions noEntries

theorem noEntries_spelled : noEntries.Spelled := Lexer.spells_braces

theorem infoLayout_spelled : t.infoLayout.Spelled := by
  unfold infoLayout
  cases t.description with
  | none => exact ⟨t.title.layout_spelled, t.version.layout_spelled⟩
  | some description =>
      exact ⟨t.title.layout_spelled, description.layout_spelled, t.version.layout_spelled⟩

theorem layout_spelled : t.layout.Spelled :=
  ⟨format.layout_spelled, t.infoLayout_spelled, PlainText.listLayout_spelled t.schemes,
    PlainText.listLayout_spelled t.formats, PlainText.listLayout_spelled t.formats,
    t.host.layout_spelled, t.basePath.layout_spelled, noEntries_spelled, noEntries_spelled⟩

theorem infoLayout_distinct : (Layout.block t.infoLayout).Distinct := by
  unfold infoLayout
  cases t.description with
  | none => exact ⟨by simp [Block.names], trivial, trivial⟩
  | some description => exact ⟨by simp [Block.names], trivial, trivial, trivial⟩

theorem layout_distinct : (Layout.block t.layout).Distinct :=
  ⟨by simp [layout, Block.names], trivial, t.infoLayout_distinct,
    PlainText.listLayout_distinct t.schemes, PlainText.listLayout_distinct t.formats,
    PlainText.listLayout_distinct t.formats, trivial, trivial, ⟨List.nodup_nil, trivial⟩,
    ⟨List.nodup_nil, trivial⟩⟩

theorem tree_layout : (Layout.block t.layout).tree = t.document := by
  have hinfo : (Layout.block t.infoLayout).tree = .map t.info := by
    unfold infoLayout info
    cases t.description <;> rfl
  simp only [layout, Layout.tree, Block.trees] at hinfo ⊢
  rw [hinfo]
  simp only [PlainText.tree_listLayout]
  rfl

/-- The line about the description is a field, and it is left out where the description is. -/
theorem exists_descriptionLine : ∃ line, descriptionLine t.metadata.entries = .ok line ∧
    t.infoLayout.text Layout.step = "title: ".toList ++ quote t.title.text ++ '\n' :: line.toList
      ++ "  version: ".toList ++ quote t.version.text := by
  cases hdescription : t.description with
  | none =>
      have hnull : Entries.get? t.metadata.entries "description" = some .null := by
        rw [metadata, hdescription]
        rfl
      refine ⟨"", by rw [descriptionLine, hnull], ?_⟩
      simp [infoLayout, hdescription, Block.text, Layout.text, Layout.step, PlainText.layout]
  | some description =>
      have hsome : Entries.get? t.metadata.entries "description" = some description.tree := by
        rw [metadata, hdescription]
        rfl
      have hline : descriptionLine t.metadata.entries =
          .ok ("  description: " ++ String.ofList (quote description.text) ++ "\n") := by
        rw [descriptionLine, hsome, given, hsome]
        simp only [PlainText.tree, filled_text]
        rfl
      refine ⟨_, hline, ?_⟩
      simp [infoLayout, hdescription, Block.text, Layout.text, Layout.step, PlainText.layout]

/-- The template is the text of the layout. -/
theorem text_metadata :
    Baseline.text t.metadata.entries = .ok (String.ofList (t.layout.text 0 ++ ['\n'])) := by
  have hnames : areNames t.metadata.entries = true := rfl
  have hgiven {name : String} {v : Tree} {chars : List Char}
      (hv : Entries.get? t.metadata.entries name = some v)
      (hfilled : filled v = .ok (String.ofList chars)) :
      given t.metadata.entries name = .ok (String.ofList chars) := by
    rw [given, hv]
    exact hfilled
  have htitle : given t.metadata.entries "title" = _ := hgiven rfl t.title.filled_tree
  have hversion : given t.metadata.entries "version" = _ := hgiven rfl t.version.filled_tree
  have hschemes : given t.metadata.entries "schemes" = _ := hgiven rfl (PlainText.filled_list _)
  have hformats : given t.metadata.entries "formats" = _ := hgiven rfl (PlainText.filled_list _)
  have hhost : given t.metadata.entries "host" = _ := hgiven rfl t.host.filled_tree
  have hbasePath : given t.metadata.entries "base_path" = _ := hgiven rfl t.basePath.filled_tree
  have hformat : quote "2.0" = ['"', '2', '.', '0', '"'] := by decide
  obtain ⟨line, hline, hinfo⟩ := t.exists_descriptionLine
  rw [Layout.step] at hinfo
  simp only [Baseline.text, hnames, htitle, hline, hversion, hschemes, hformats, hhost, hbasePath]
  refine congrArg Except.ok (String.toList_inj.mp ?_)
  simp [layout, Block.text, Layout.text, Layout.step, hinfo, PlainText.layout,
    PlainText.listLayout, format, hformat, noEntries]

theorem isReadable_infoLayout : ∀ chars ∈ t.infoLayout.flows, chars.all isReadable := by
  have hversion := t.version.isReadable_layout
  have htitle := t.title.isReadable_layout
  unfold infoLayout
  cases t.description with
  | none => exact List.forall_mem_append.mpr ⟨htitle, hversion⟩
  | some description =>
      exact List.forall_mem_append.mpr
        ⟨htitle, List.forall_mem_append.mpr ⟨description.isReadable_layout, hversion⟩⟩

theorem isReadable_layout : ∀ chars ∈ t.layout.flows, chars.all isReadable := by
  have hbraces : ∀ chars ∈ noEntries.flows, chars.all isReadable := by decide
  have hschemes := PlainText.isReadable_listLayout t.schemes
  have hformats := PlainText.isReadable_listLayout t.formats
  simp only [layout, Block.flows, List.forall_mem_append]
  exact ⟨format.isReadable_layout, t.isReadable_infoLayout, hschemes, hformats, hformats,
    t.host.isReadable_layout, t.basePath.isReadable_layout, hbraces, hbraces⟩

/-- **The template gives the document of its fields**, whatever plain texts are filled in. -/
theorem ofFields_metadata : ofFields (.map t.metadata.entries) = .ok t.document := by
  have hbreak : isReadable '\n' := by decide
  have hreadable : (t.layout.text 0 ++ ['\n']).all isReadable := by
    rw [List.all_append, t.layout.isReadable_text 0 t.isReadable_layout, List.all_cons, hbreak]
    rfl
  obtain ⟨g, root, hcompose, hroot⟩ :=
    compose_of_tokens hreadable (tokensOf_text t.layout t.layout_spelled) t.layout_distinct
  obtain ⟨st, v, hload, hshows⟩ := load_of_represents .empty hcompose hroot
  have htext : (String.ofList (t.layout.text 0 ++ ['\n'])).toList = t.layout.text 0 ++ ['\n'] :=
    String.toList_ofList
  rw [ofFields, t.text_metadata]
  simp only [bind, Except.bind, htext, hload]
  exact congrArg Except.ok (hshows.tree_eq.trans t.tree_layout)

end Texts

/-! ## Manifests -/

/-- The empty text. -/
def PlainText.empty : PlainText := ⟨"", rfl⟩

/-- A manifest of texts that the template carries has the document of these texts. -/
theorem ofManifest_of_metadata {manifest : Tree} {t : Texts}
    (h : Metadata.ofManifest manifest = .ok t.metadata) : ofManifest manifest = .ok t.document := by
  rw [ofManifest, h]
  exact t.ofFields_metadata

theorem textOf_text (s : String) : Metadata.textOf (.text s) = .ok s := by
  unfold Metadata.textOf
  split
  case isTrue => rfl
  case isFalse h =>
    have hempty : s = "" := by simpa [Tree.holds, Scalar.holds] using h
    rw [hempty]

theorem textOf_tree (s : PlainText) : Metadata.textOf s.tree = .ok s.text := textOf_text s.text

/-- **Plain texts survive the template.** The document begins with what the manifest says: no text,
whatever it looks like, changes the type of a value, loses a character or adds a key. -/
theorem ofManifest_of_texts {es : Entries} {uri : String} (t : Texts)
    (htitle : Entries.get? es "title" = some t.title.tree)
    (hdescription : (Entries.get? es "description").getD .null =
      t.description.elim .null PlainText.tree)
    (hversion : Entries.get? es "version" = some t.version.tree)
    (hschemes : Entries.get? es "schemes" = some (.list (t.schemes.map PlainText.tree)))
    (hformats : Entries.get? es "formats" = some (.list (t.formats.map PlainText.tree)))
    (huri : Metadata.textOf ((Entries.get? es "baseUri").getD .null) = .ok uri)
    (hsplit : BaseUri.split uri ((t.schemes.map (·.text)).headD Metadata.usualScheme)
      = .ok (t.host.text, t.basePath.text)) :
    ofManifest (.map es) = .ok t.document := by
  have hscheme : ((t.schemes.map PlainText.tree).head?.getD (.text Metadata.usualScheme)).display =
      .ok ((t.schemes.map (·.text)).headD Metadata.usualScheme) := by
    cases t.schemes <;> rfl
  have hmetadata : Metadata.ofManifest (.map es) = .ok t.metadata := by
    simp only [Metadata.ofManifest, htitle, hdescription, hversion, hschemes, hformats, huri,
      Option.getD_some, Metadata.asList, hscheme, hsplit, bind, Except.bind,
      textOf_tree]
    rfl
  exact ofManifest_of_metadata hmetadata

/-- Texts that look like quoting, comments, templates, markup and values of other types. -/
def oddTexts : Texts where
  title := ⟨"\"a\": [b] # \x7b\x7b title \x7d\x7d\\\n<&>'\x00é", by decide⟩
  description := some ⟨"- null\n\n  yes: ~ ", by decide⟩
  version := ⟨"1.0", by decide⟩
  schemes := [⟨"https", by decide⟩, ⟨"no", by decide⟩]
  formats := [⟨"", by decide⟩, ⟨"2024-01-01", by decide⟩]
  host := ⟨"\x7bhost\x7d", by decide⟩
  basePath := ⟨"/", by decide⟩

theorem ofManifest_oddTexts :
    ofManifest (.map [
        (.text "formats", .list [.text "", .text "2024-01-01"]),
        (.text "title", .text "\"a\": [b] # \x7b\x7b title \x7d\x7d\\\n<&>'\x00é"),
        (.text "description", .text "- null\n\n  yes: ~ "),
        (.text "version", .text "1.0"),
        (.text "baseUri", .text "\x7bhost\x7d"),
        (.text "schemes", .list [.text "https", .text "no"])])
      = .ok (.map [
        (.text "swagger", .text "2.0"),
        (.text "info", .map [
          (.text "title", .text "\"a\": [b] # \x7b\x7b title \x7d\x7d\\\n<&>'\x00é"),
          (.text "description", .text "- null\n\n  yes: ~ "),
          (.text "version", .text "1.0")]),
        (.text "schemes", .list [.text "https", .text "no"]),
        (.text "consumes", .list [.text "", .text "2024-01-01"]),
        (.text "produces", .list [.text "", .text "2024-01-01"]),
        (.text "host", .text "\x7bhost\x7d"),
        (.text "basePath", .text "/"),
        (.text "paths", .map []),
        (.text "definitions", .map [])]) :=
  ofManifest_of_texts oddTexts rfl rfl rfl rfl rfl rfl rfl

end Baseline
end ApiManifest
