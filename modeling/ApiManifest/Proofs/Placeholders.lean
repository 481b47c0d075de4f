import ApiManifest.Proofs.Lookup
import ApiManifest.Proofs.Slashes
import Mathlib.Data.List.Infix
import Mathlib.Data.List.TakeWhile

/-!
# The placeholders of a displayed path

The parameters of a path are read off the template that the author wrote, but a document shows the
path without type hints. This file shows that the two name the same parameters: the displayed path,
scanned again, has the placeholders of the template, each cut down to its name. Braces may be
nested, unbalanced or empty; only a placeholder without a name is lost on the way.

Two facts carry it. A slash ends whatever placeholder is open, so that a template is scanned segment
by segment. And leaving out a hint moves no boundary: what the scanner had open before the
placeholder is still given up at its brace.
-/

namespace ApiManifest

namespace PathTemplate

/-- The text between the braces of a placeholder. -/
def Piece.inner? : Piece → Option (List Char)
  | .placeholder inner => some inner
  | .char _ => none

/-- The texts between the braces of the placeholders, in order. -/
def inners (cs : List Char) : List (List Char) := (pieces cs).filterMap Piece.inner?

/-- The names of the placeholders of a path in the order of their first occurrence. -/
def placeholderNames (path : String) : List String :=
  ((inners path.toList).map String.ofList).eraseDups

/-- Every placeholder of a template has a name. -/
def Named (template : String) : Prop := ∀ inner ∈ inners template.toList, paramName inner ≠ []

instance (template : String) : Decidable (Named template) :=
  inferInstanceAs (Decidable (∀ inner ∈ inners template.toList, paramName inner ≠ []))

/-- What the scanner finds of a piece that is displayed: without a name, a placeholder is nothing
but two braces. -/
def Piece.shown : Piece → List Piece
  | .placeholder inner =>
    if paramName inner = [] then [.char '\x7b', .char '\x7d'] else [.placeholder (paramName inner)]
  | .char c => [.char c]

/-! ## Scanning -/

theorem isBoundary_eq_false {c : Char} :
    isBoundary c = false ↔ c ≠ '/' ∧ c ≠ '\x7b' ∧ c ≠ '\x7d' := by
  simp [isBoundary, and_assoc]

/-- Inside a brace the scanner reads on up to the next boundary. -/
theorem piecesFrom_append {opened cs rest : List Char} (h : ∀ c ∈ cs, isBoundary c = false) :
    piecesFrom (some opened) (cs ++ rest) = piecesFrom (some (cs.reverse ++ opened)) rest := by
  induction cs generalizing opened with
  | nil => rfl
  | cons c cs ih =>
      have hc := h c List.mem_cons_self
      obtain ⟨_, hopen, hclose⟩ := isBoundary_eq_false.mp hc
      rw [List.cons_append, piecesFrom, if_neg (fun hand => hclose hand.1), if_neg hopen,
        if_neg (by simp [hc]), ih fun d hd => h d (List.mem_cons_of_mem _ hd),
        List.reverse_cons, List.append_assoc, List.singleton_append]

/-- What was open is given up at the end. -/
theorem piecesFrom_opened {cs : List Char} (h : ∀ c ∈ cs, isBoundary c = false) :
    piecesFrom none ('\x7b' :: cs) = .char '\x7b' :: cs.map .char := by
  have happend := @piecesFrom_append [] cs [] h
  rw [List.append_nil] at happend
  rw [piecesFrom, if_pos rfl, happend, piecesFrom]
  simp

/-- A slash ends what is open: both sides of it are scanned by themselves. -/
theorem piecesFrom_slash (opened : Option (List Char)) (cs rest : List Char) :
    piecesFrom opened (cs ++ '/' :: rest)
      = piecesFrom opened cs ++ .char '/' :: piecesFrom none rest := by
  fun_induction piecesFrom opened cs with
  | case1 => simp [piecesFrom]
  | case2 inner => simp [piecesFrom, isBoundary]
  | case3 cs ih => simp [piecesFrom, ih]
  | case4 c cs hc ih => simp [piecesFrom, hc, ih]
  | case5 inner c cs hc ih => simp [piecesFrom, hc, ih]
  | case6 inner cs _ ih => simp [piecesFrom, ih]
  | case7 inner c cs hclose hopen hb ih => simp [piecesFrom, hclose, hopen, hb, ih]
  | case8 inner c cs hclose hopen hb ih => simp [piecesFrom, hclose, hopen, hb, ih]

/-- The placeholders of segments with slashes between them. -/
theorem inners_joinWith (segments : List (List Char)) :
    inners (Text.joinWith '/' segments) = segments.flatMap inners := by
  induction segments with
  | nil => rfl
  | cons segment rest ih =>
      cases rest with
      | nil => rw [Text.joinWith_singleton, List.flatMap_singleton]
      | cons next rest =>
          rw [Text.joinWith_cons_cons, List.flatMap_cons, ← ih]
          unfold inners pieces
          rw [piecesFrom_slash, List.filterMap_append, List.filterMap_cons]
          rfl

theorem inners_ofSegments (segments : List (List Char)) :
    inners (ofSegments segments).toList = segments.flatMap inners := by
  rw [← inners_joinWith]
  unfold ofSegments
  rw [String.toList_ofList]
  rfl

/-- The placeholders of the segments of a template are placeholders of the template. -/
theorem mem_inners_of_segment {template : String} {segment inner : List Char}
    (hs : segment ∈ segments template) (h : inner ∈ inners segment) :
    inner ∈ inners template.toList := by
  have hsplit : segment ∈ Text.splitAt '/' template.toList := (List.mem_filter.mp hs).1
  rw [← Text.joinWith_splitAt '/' template.toList, inners_joinWith]
  exact List.mem_flatMap.mpr ⟨segment, hsplit, h⟩

/-! ## Leaving out hints -/

theorem paramName_eq_takeWhile (inner : List Char) :
    paramName inner = inner.takeWhile (· != ':') := by
  unfold paramName Text.cut
  split
  · rename_i hnone
    exact (List.takeWhile_eq_self_iff.mpr (List.dropWhile_eq_nil_iff.mp hnone)).symm
  · rfl

theorem paramName_subset (inner : List Char) : ∀ c ∈ paramName inner, c ∈ inner := by
  intro c hc
  rw [paramName_eq_takeWhile] at hc
  exact (List.takeWhile_sublist _).subset hc

theorem colon_not_mem_paramName (inner : List Char) : ':' ∉ paramName inner := by
  intro hmem
  rw [paramName_eq_takeWhile] at hmem
  simpa using List.mem_takeWhile_imp hmem

/-- A name without a colon is cut down to itself. -/
theorem paramName_eq_self {name : List Char} (h : ':' ∉ name) : paramName name = name := by
  rw [paramName_eq_takeWhile, List.takeWhile_eq_self_iff]
  intro c hc
  simpa using fun heq : c = ':' => h (heq ▸ hc)

/-- The placeholder that was open, or the brace that came to nothing: what is displayed of the
rest begins with the brace. -/
theorem display_opened (opened cs : List Char) :
    ∃ rest, (piecesFrom (some opened) cs).flatMap Piece.display = '\x7b' :: rest := by
  generalize ho : some opened = o
  fun_induction piecesFrom o cs generalizing opened with
  | case1 => cases ho
  | case2 inner => exact ⟨_, rfl⟩
  | case3 => cases ho
  | case4 => cases ho
  | case5 inner c cs hc _ => exact ⟨_, rfl⟩
  | case6 inner cs _ _ => exact ⟨_, rfl⟩
  | case7 inner c cs _ _ _ _ => exact ⟨_, rfl⟩
  | case8 inner c cs _ _ _ ih => exact ih _ rfl

theorem display_chars (cs : List Char) : (cs.map Piece.char).flatMap Piece.display = cs := by
  induction cs with
  | nil => rfl
  | cons c rest ih =>
      rw [List.map_cons, List.flatMap_cons, ih]
      rfl

theorem shown_chars (cs : List Char) :
    (cs.map Piece.char).flatMap Piece.shown = cs.map Piece.char := by
  induction cs with
  | nil => rfl
  | cons c rest ih =>
      rw [List.map_cons, List.flatMap_cons, ih]
      rfl

/-- A brace that comes to nothing because of what follows does so again when it is displayed. -/
theorem piecesFrom_given_up {inner more : List Char} (hinner : ∀ c ∈ inner, isBoundary c = false)
    (hmore : piecesFrom (some inner) more
      = .char '\x7b' :: inner.reverse.map .char ++ piecesFrom none more) :
    piecesFrom none ('\x7b' :: inner.reverse ++ more)
      = .char '\x7b' :: inner.reverse.map .char ++ piecesFrom none more := by
  have hreverse : ∀ c ∈ inner.reverse, isBoundary c = false := fun c hc =>
    hinner c (List.mem_reverse.mp hc)
  rw [List.cons_append, piecesFrom, if_pos rfl, piecesFrom_append hreverse, List.append_nil,
    List.reverse_reverse, hmore]

/-- **What is displayed of a text has its pieces, without their hints.** -/
theorem pieces_display {opened : Option (List Char)} {cs : List Char}
    (hopened : ∀ inner, opened = some inner → ∀ c ∈ inner, isBoundary c = false) :
    piecesFrom none ((piecesFrom opened cs).flatMap Piece.display)
      = (piecesFrom opened cs).flatMap Piece.shown := by
  fun_induction piecesFrom opened cs with
  | case1 => rfl
  | case2 inner =>
      have hinner : ∀ c ∈ inner.reverse, isBoundary c = false := fun c hc =>
        hopened inner rfl c (List.mem_reverse.mp hc)
      rw [List.flatMap_cons, display_chars, List.flatMap_cons, shown_chars]
      exact piecesFrom_opened hinner
  | case3 cs ih => exact ih (by simp)
  | case4 c cs hc ih =>
      -- outside of braces a character is scanned by itself, before and after
      rw [List.flatMap_cons, List.flatMap_cons, ← ih (by simp)]
      simp [Piece.display, Piece.shown, piecesFrom, hc]
  | case5 inner c cs hclose ih =>
      -- the name that is left has no boundary, so it is closed by the same brace, unless there is
      -- none left: then the two braces are scanned by themselves
      obtain ⟨rfl, hne⟩ := hclose
      have hboundary : ∀ c ∈ paramName inner.reverse, isBoundary c = false := fun c hc =>
        hopened inner rfl c (List.mem_reverse.mp (paramName_subset _ c hc))
      rw [List.flatMap_cons, List.flatMap_cons, ← ih (by simp)]
      simp only [Piece.display, Piece.shown, List.cons_append, List.append_assoc]
      rw [piecesFrom, if_pos rfl, piecesFrom_append hboundary, List.append_nil, List.nil_append]
      split
      · rename_i hnone
        rw [hnone, List.reverse_nil, piecesFrom, if_neg (by simp), if_neg (by decide),
          if_pos (by decide)]
        rfl
      · rename_i hname
        rw [piecesFrom, if_pos ⟨rfl, by simpa using hname⟩, List.reverse_reverse]
        rfl
  | case6 inner cs _ ih =>
      -- a second brace gives up the first one, and is displayed first of what follows
      obtain ⟨more, hmore⟩ := display_opened [] cs
      have hrest := ih (by simp)
      rw [List.flatMap_append, List.flatMap_cons, display_chars, List.flatMap_append,
        List.flatMap_cons, shown_chars, ← hrest, hmore]
      refine piecesFrom_given_up (hopened inner rfl) ?_
      simp [piecesFrom]
  | case7 inner c cs hclose hopen hb ih =>
      -- so does a slash, or a closing brace right after the opening one
      have hrest := ih (by simp)
      have hscan : ∀ more, piecesFrom none (c :: more) = .char c :: piecesFrom none more := by
        intro more
        rw [piecesFrom, if_neg hopen]
      rw [List.flatMap_append, List.flatMap_cons, display_chars, List.flatMap_cons,
        List.flatMap_append, List.flatMap_cons, shown_chars, List.flatMap_cons, ← hrest]
      refine (piecesFrom_given_up (hopened inner rfl) ?_).trans ?_
      · rw [Piece.display, List.singleton_append, hscan, piecesFrom, if_neg hclose, if_neg hopen,
          if_pos hb]
      · rw [Piece.display, List.singleton_append, hscan]
        rfl
  | case8 inner c cs hclose hopen hb ih =>
      refine ih fun inner' hinner' => ?_
      cases hinner'
      intro d hd
      rcases List.mem_cons.mp hd with rfl | hd
      · simpa using hb
      · exact hopened inner rfl d hd

/-- The placeholders of what is displayed of a segment are its placeholders that have a name. -/
theorem inners_display (segment : List Char) :
    inners ((pieces segment).flatMap Piece.display)
      = ((inners segment).map paramName).filter (!·.isEmpty) := by
  have hshown : ∀ found : List Piece, (found.flatMap Piece.shown).filterMap Piece.inner?
      = ((found.filterMap Piece.inner?).map paramName).filter (!·.isEmpty) := by
    intro found
    induction found with
    | nil => rfl
    | cons piece rest ih =>
        rw [List.flatMap_cons, List.filterMap_append, ih]
        cases piece with
        | char c => rfl
        | placeholder inner =>
            by_cases hname : paramName inner = [] <;> simp [Piece.shown, Piece.inner?, hname]
  unfold inners pieces
  rw [@pieces_display none segment (by simp), hshown]

/-! ## The names of parameters -/

/-- The parameter that a placeholder stands for, with its hint. -/
def paramOf (inner : List Char) : String × Option String :=
  (String.ofList (paramName inner), paramType? inner)

/-- The parameters are those of the placeholders, one after the other. -/
theorem paramsOf_eq (pieces : List Piece) :
    paramsOf pieces = Fields.collect ((pieces.filterMap Piece.inner?).map paramOf) := by
  unfold paramsOf Fields.collect
  generalize ([] : Fields (Option String)) = params
  induction pieces generalizing params with
  | nil => rfl
  | cons piece rest ih =>
      cases piece with
      | char c => exact ih params
      | placeholder inner => exact ih (Fields.put _ _ params)

theorem nodup_eraseDups (names : List String) : names.eraseDups.Nodup := by
  induction names using List.reverseRecOn with
  | nil => exact List.nodup_nil
  | append_singleton names name ih =>
      rw [List.eraseDups_append]
      by_cases hmem : name ∈ names
      · simpa [List.removeAll, hmem] using ih
      · have hne : ∀ other ∈ names, ¬ other = name := fun other hother heq => hmem (heq ▸ hother)
        simpa [List.removeAll, hmem, List.eraseDups_cons, List.nodup_append, ih] using hne

theorem nodup_placeholderNames (path : String) : (placeholderNames path).Nodup :=
  nodup_eraseDups _

/-! ## Parsing a template -/

/-- The segments of a template that parsing keeps. -/
def keptSegments (template : String) (collection : Bool) : List (List Char) :=
  if collection then (segments template).dropLast else segments template

theorem mem_segments_of_kept {template : String} {collection : Bool} {segment : List Char}
    (h : segment ∈ keptSegments template collection) : segment ∈ segments template := by
  unfold keptSegments at h
  split at h
  · exact List.mem_of_mem_dropLast h
  · exact h

/-- A segment without its type hints. -/
def displaySegment (segment : List Char) : List Char := (pieces segment).flatMap Piece.display

theorem display_parse (template : String) (collection : Bool) : (parse template collection).display
    = ofSegments ((keptSegments template collection).map displaySegment) := rfl

theorem params_parse (template : String) (collection : Bool) : (parse template collection).params
    = Fields.collect (((keptSegments template collection).flatMap inners).map paramOf) := by
  rw [← inners_ofSegments]
  exact paramsOf_eq _

/-- **A template has the parameters that its displayed path names.** -/
theorem names_params {template : String} (h : Named template) (collection : Bool) :
    (parse template collection).params.names
      = placeholderNames (parse template collection).display := by
  have hfst : Prod.fst ∘ paramOf = String.ofList ∘ paramName := rfl
  rw [params_parse, Fields.names_collect, placeholderNames, display_parse, inners_ofSegments,
    List.flatMap_map, List.map_map, hfst, ← List.map_map, List.map_flatMap]
  refine congrArg (fun names => (List.map String.ofList names).eraseDups) ?_
  refine List.flatMap_congr fun segment hsegment => ?_
  rw [displaySegment, inners_display, eq_comm, List.filter_eq_self]
  intro name hname
  obtain ⟨inner, hinner, rfl⟩ := List.mem_map.mp hname
  simpa using h inner (mem_inners_of_segment (mem_segments_of_kept hsegment) hinner)

end PathTemplate
end ApiManifest
