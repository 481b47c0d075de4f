import ApiManifest.Proofs.Placeholders

/-!
# Laws of path templates

Parsing a template keeps its segments, or all but the last one of them for a collection, and shows
each of them by itself. This file derives from that what parsing does to a template as a whole:
parsed again it stays as it is, and so does the displayed path, in which no hint is left. A
collection has the parameters that stand before the last segment of an item. And both paths are tidy
and go segment by segment, because no segment is displayed as nothing and none gets a slash.
-/

namespace ApiManifest.PathTemplate

/-! ## Displaying a segment -/

theorem display_shown (piece : Piece) : piece.shown.flatMap Piece.display = piece.display := by
  cases piece with
  | char c => rfl
  | placeholder inner =>
      by_cases hname : paramName inner = []
      · simp [Piece.shown, Piece.display, hname]
      · simp [Piece.shown, Piece.display, hname, paramName_eq_self (colon_not_mem_paramName inner)]

/-- A segment that is displayed has no hint left to leave out. -/
theorem displaySegment_displaySegment (segment : List Char) :
    displaySegment (displaySegment segment) = displaySegment segment := by
  have hpieces : pieces (displaySegment segment) = (pieces segment).flatMap Piece.shown :=
    pieces_display (by simp)
  rw [displaySegment, hpieces, List.flatMap_assoc]
  exact List.flatMap_congr fun piece _ => display_shown piece

theorem colon_not_mem_inners_displaySegment {segment inner : List Char}
    (h : inner ∈ inners (displaySegment segment)) : ':' ∉ inner := by
  rw [displaySegment, inners_display] at h
  obtain ⟨shown, _, rfl⟩ := List.mem_map.mp (List.mem_filter.mp h).1
  exact colon_not_mem_paramName shown

/-- There is no slash in what is displayed of a text without one. -/
theorem slash_not_mem_display {opened : Option (List Char)} {cs : List Char} (h : '/' ∉ cs)
    (hopened : ∀ inner, opened = some inner → '/' ∉ inner) :
    '/' ∉ (piecesFrom opened cs).flatMap Piece.display := by
  fun_induction piecesFrom opened cs with
  | case5 inner c cs _ ih =>
      -- of the name that is left, every character was in the text
      have hname : '/' ∉ paramName inner.reverse := fun hmem =>
        hopened inner rfl (List.mem_reverse.mp (paramName_subset _ _ hmem))
      simp_all [Piece.display]
  | _ => simp_all [Piece.display]

theorem piecesFrom_ne_nil {opened : Option (List Char)} {cs : List Char}
    (h : cs ≠ [] ∨ opened.isSome = true) : piecesFrom opened cs ≠ [] := by
  fun_induction piecesFrom opened cs <;> simp_all

/-- What is displayed of a segment is a segment: it is not displayed as nothing, and gets no
slash. -/
theorem isSegment_displaySegment {segment : List Char} (h : IsSegment segment) :
    IsSegment (displaySegment segment) := by
  refine ⟨?_, slash_not_mem_display h.2 (by simp)⟩
  have hne : piecesFrom none segment ≠ [] := piecesFrom_ne_nil (.inl h.1)
  obtain ⟨piece, rest, hpieces⟩ := List.exists_cons_of_ne_nil hne
  rw [displaySegment, pieces, hpieces, List.flatMap_cons]
  cases piece <;> simp [Piece.display]

/-! ## The paths of a template -/

/-- Templates with the same segments are parsed alike. -/
theorem parse_congr {raw raw' : String} {collection collection' : Bool}
    (h : keptSegments raw collection = keptSegments raw' collection') :
    parse raw collection = parse raw' collection' :=
  congrArg (fun kept => (⟨ofSegments kept, ofSegments (kept.map displaySegment),
    paramsOf (pieces (ofSegments kept).toList)⟩ : PathTemplate)) h

section

variable (raw : String) (collection : Bool)

theorem isSegment_of_kept {segment : List Char} (h : segment ∈ keptSegments raw collection) :
    IsSegment segment :=
  isSegment_of_mem (mem_segments_of_kept h)

theorem isSegment_of_displayed {segment : List Char}
    (h : segment ∈ (keptSegments raw collection).map displaySegment) : IsSegment segment := by
  obtain ⟨kept, hkept, rfl⟩ := List.mem_map.mp h
  exact isSegment_displaySegment (isSegment_of_kept raw collection hkept)

theorem segments_path : segments (parse raw collection).path = keptSegments raw collection :=
  segments_ofSegments fun _ => isSegment_of_kept raw collection

theorem segments_display : segments (parse raw collection).display
    = (keptSegments raw collection).map displaySegment :=
  segments_ofSegments fun _ => isSegment_of_displayed raw collection

/-- A template that was parsed already stays as it is. -/
theorem parse_path : parse (parse raw collection).path false = parse raw collection :=
  parse_congr (segments_path raw collection)

/-- A displayed path is displayed as it is. -/
theorem display_display :
    (parse (parse raw collection).display false).display = (parse raw collection).display := by
  have hkept : keptSegments (parse raw collection).display false
      = (keptSegments raw collection).map displaySegment := segments_display raw collection
  rw [display_parse, hkept, List.map_map, display_parse]
  refine congrArg ofSegments (List.map_congr_left fun segment _ => ?_)
  exact displaySegment_displaySegment segment

/-- No hint is left in a displayed path. -/
theorem colon_not_mem_inners_display {inner : List Char}
    (h : inner ∈ inners (parse raw collection).display.toList) : ':' ∉ inner := by
  rw [display_parse, inners_ofSegments, List.flatMap_map] at h
  obtain ⟨segment, _, hinner⟩ := List.mem_flatMap.mp h
  exact colon_not_mem_inners_displaySegment hinner

/-- The collection's path is displayed without the last segment of an item's. -/
theorem segments_display_collection : segments (parse raw true).display
    = (segments (parse raw false).display).dropLast := by
  rw [segments_display, segments_display, ← List.map_dropLast]
  rfl

end

/-! ## The parameters of a collection -/

section

variable (raw : String)

/-- An item has the segments of its collection, and then the last one. -/
theorem keptSegments_item :
    keptSegments raw false = keptSegments raw true ++ (segments raw).getLast?.toList := by
  rcases List.eq_nil_or_concat (segments raw) with hnone | ⟨start, last, hlast⟩
  · simp [keptSegments, hnone]
  · simp [keptSegments, hlast]

theorem params_item : (parse raw false).params
    = Fields.collect (((keptSegments raw true).flatMap inners).map paramOf
      ++ ((segments raw).getLast?.toList.flatMap inners).map paramOf) := by
  rw [params_parse, keptSegments_item, List.flatMap_append, List.map_append]

theorem names_params_collection :
    (parse raw true).params.names <+: (parse raw false).params.names := by
  rw [params_item, params_parse, Fields.names_collect, Fields.names_collect, List.map_append,
    List.eraseDups_append]
  exact List.prefix_append _ _

/-- A parameter has the hint that it has for the collection unless the last segment names it too. -/
theorem get?_params_item {name : String} (h : ∀ last ∈ (segments raw).getLast?,
      ∀ inner ∈ inners last, String.ofList (paramName inner) ≠ name) :
    Fields.get? name (parse raw false).params = Fields.get? name (parse raw true).params := by
  have hnone : (((segments raw).getLast?.toList.flatMap inners).map paramOf).filter (·.1 = name)
      = [] := by
    rw [List.filter_eq_nil_iff]
    intro param hparam
    obtain ⟨inner, hinner, rfl⟩ := List.mem_map.mp hparam
    obtain ⟨last, hlast, hinner⟩ := List.mem_flatMap.mp hinner
    exact decide_eq_true_iff.not.mpr (h last (Option.mem_toList.mp hlast) inner hinner)
  rw [params_item, params_parse, Fields.get?_collect, Fields.get?_collect, List.filter_append,
    hnone, List.append_nil]

/--
**Laws of parsing a template.**

A template that was parsed is parsed to the same again, and a displayed path is displayed as it is:
no placeholder in it has a hint. The collection is displayed without the last segment of an item,
and its parameters are the first ones of an item, with the hints they have there unless the last
segment names them again. Both paths of a template are tidy and have one segment for each other. And
if all placeholders have names, the parameters are those that the displayed path names.
-/
theorem parse_laws (collection : Bool) :
    parse (parse raw collection).path false = parse raw collection ∧
    (parse (parse raw collection).display false).display = (parse raw collection).display ∧
    (∀ inner ∈ inners (parse raw collection).display.toList, ':' ∉ inner) ∧
    segments (parse raw true).display = (segments (parse raw false).display).dropLast ∧
    (parse raw true).params.names <+: (parse raw false).params.names ∧
    (∀ name, (∀ last ∈ (segments raw).getLast?, ∀ inner ∈ inners last,
        String.ofList (paramName inner) ≠ name) →
      Fields.get? name (parse raw false).params = Fields.get? name (parse raw true).params) ∧
    Tidy (parse raw collection).path ∧ Tidy (parse raw collection).display ∧
    (segments (parse raw collection).path).length
      = (segments (parse raw collection).display).length ∧
    (Named raw →
      (parse raw collection).params.names = placeholderNames (parse raw collection).display) := by
  refine ⟨parse_path raw collection, display_display raw collection,
    fun _ => colon_not_mem_inners_display raw collection, segments_display_collection raw,
    names_params_collection raw, fun _ => get?_params_item raw,
    tidy_ofSegments fun _ => isSegment_of_kept raw collection,
    tidy_ofSegments fun _ => isSegment_of_displayed raw collection, ?_,
    fun h => names_params h collection⟩
  rw [segments_path, segments_display, List.length_map]

/-- A template with a name twice, a brace too many and slashes too many. -/
def untidyTemplate : String := "a/\x7bid:uuid\x7d//\x7b\x7bid\x7d\x7bb:c:d\x7d/"

theorem parse_laws_untidy : Named untidyTemplate ∧
    (parse untidyTemplate false).display = "/a/\x7bid\x7d/\x7b\x7bid\x7d\x7bb\x7d" ∧
    (parse untidyTemplate false).params.names
      = placeholderNames (parse untidyTemplate false).display := by
  have hnamed : Named untidyTemplate := by decide +kernel
  obtain ⟨-, -, -, -, -, -, -, -, -, hnames⟩ := parse_laws untidyTemplate false
  exact ⟨hnamed, by decide +kernel, hnames hnamed⟩

end

end ApiManifest.PathTemplate
