import ApiManifest.PathItem
import ApiManifest.Proofs.Returns
import Mathlib.Data.List.Basic

/-!
# Paths and their segments

A path is written with slashes, and may be written with too many of them: what counts is the list of
its segments. This file shows that taking a path apart and putting it together are inverse to each
other, on lists of segments and on paths that are tidy, which have no slash too many. So joining
paths is appending lists of segments: it does not matter how the paths are grouped, nor with which
slashes each of them was written, and joining once more changes nothing. The address of an operation
at a backend is such a joined path behind the backend's scheme and host.
-/

namespace ApiManifest

/-! ## Splitting and joining -/

namespace Text

theorem joinWith_singleton (sep : Char) (piece : List Char) : joinWith sep [piece] = piece := by
  simp [joinWith, List.intercalate]

theorem joinWith_cons_cons (sep : Char) (piece next : List Char) (rest : List (List Char)) :
    joinWith sep (piece :: next :: rest) = piece ++ sep :: joinWith sep (next :: rest) := by
  simp [joinWith, List.intercalate]

theorem splitAt_eq_splitOn (sep : Char) (cs : List Char) : splitAt sep cs = cs.splitOn sep := by
  induction cs with
  | nil => rw [splitAt, List.splitOn_nil]
  | cons c rest ih =>
      rw [splitAt, List.splitOn_cons_eq_if_modifyHead, ih]
      by_cases hc : c = sep
      · rw [if_pos hc, if_pos (beq_iff_eq.mpr hc)]
      · rw [if_neg hc, if_neg (by simpa using hc)]
        -- there always is a first piece for the character to come before
        obtain ⟨piece, pieces, hrest⟩ := List.exists_cons_of_ne_nil (List.splitOn_ne_nil sep rest)
        rw [hrest]
        rfl

/-- A text is what its pieces make with the separators between them. -/
theorem joinWith_splitAt (sep : Char) (cs : List Char) : joinWith sep (splitAt sep cs) = cs := by
  rw [splitAt_eq_splitOn]
  exact List.intercalate_splitOn sep

/-- Pieces without separators are what their text is split into. -/
theorem splitAt_joinWith {sep : Char} {pieces : List (List Char)} (hne : pieces ≠ [])
    (h : ∀ piece ∈ pieces, sep ∉ piece) : splitAt sep (joinWith sep pieces) = pieces := by
  rw [splitAt_eq_splitOn]
  exact List.splitOn_intercalate sep h hne

theorem not_mem_of_mem_splitAt {sep : Char} {cs piece : List Char}
    (h : piece ∈ splitAt sep cs) : sep ∉ piece := by
  induction cs generalizing piece with
  | nil =>
      rw [List.mem_singleton.mp h]
      exact List.not_mem_nil
  | cons c rest ih =>
      unfold splitAt at h
      split at h
      · rcases List.mem_cons.mp h with rfl | h
        · exact List.not_mem_nil
        · exact ih h
      · rename_i hc
        cases hrest : splitAt sep rest with
        | nil =>
            rw [hrest] at h
            rw [List.mem_singleton.mp h]
            simpa using Ne.symm hc
        | cons first others =>
            rw [hrest] at h ih
            rcases List.mem_cons.mp h with rfl | h
            · simpa [Ne.symm hc] using ih List.mem_cons_self
            · exact ih (List.mem_cons_of_mem _ h)

end Text

namespace PathTemplate

/-! ## Segments -/

/-- What can stand between two slashes: something, and no slash. -/
def IsSegment (cs : List Char) : Prop := cs ≠ [] ∧ '/' ∉ cs

theorem isSegment_of_mem {path : String} {segment : List Char} (h : segment ∈ segments path) :
    IsSegment segment := by
  obtain ⟨hmem, hkept⟩ := List.mem_filter.mp h
  refine ⟨?_, Text.not_mem_of_mem_splitAt hmem⟩
  rintro rfl
  cases hkept

theorem toList_ofSegments (parts : List (List Char)) :
    (ofSegments parts).toList = '/' :: Text.joinWith '/' parts :=
  String.toList_ofList

/-- What stands behind the first slash. -/
theorem splitAt_ofSegments {parts : List (List Char)} (h : ∀ part ∈ parts, IsSegment part) :
    Text.splitAt '/' (ofSegments parts).toList.tail = if parts = [] then [[]] else parts := by
  rw [toList_ofSegments, List.tail_cons]
  split
  · rename_i hnone
    rw [hnone]
    rfl
  · rename_i hne
    exact Text.splitAt_joinWith hne fun part hpart => (h part hpart).2

/-- **The segments that a path is made of are its segments.** -/
theorem segments_ofSegments {parts : List (List Char)} (h : ∀ part ∈ parts, IsSegment part) :
    segments (ofSegments parts) = parts := by
  have hsplit := splitAt_ofSegments h
  rw [toList_ofSegments, List.tail_cons] at hsplit
  rw [segments, Text.pieces, toList_ofSegments, Text.splitAt, if_pos rfl, hsplit]
  split
  · rename_i hnone
    rw [hnone]
    rfl
  · rw [List.filter_cons_of_neg (by simp), List.filter_eq_self]
    intro part hpart
    simpa using (h part hpart).1

/-! ## Tidy paths -/

/-- The path begins with a slash, and behind it no segment is empty, unless the path is nothing but
that slash: no slash follows another one, and none is at the end. -/
structure Tidy (path : String) : Prop where
  slash : path.toList.head? = some '/'
  filled : path = "/" ∨ ∀ piece ∈ Text.splitAt '/' path.toList.tail, piece ≠ []

theorem tidy_ofSegments {parts : List (List Char)} (h : ∀ part ∈ parts, IsSegment part) :
    Tidy (ofSegments parts) := by
  refine ⟨by rw [toList_ofSegments]; rfl, ?_⟩
  rw [splitAt_ofSegments h]
  split
  · rename_i hnone
    rw [hnone]
    exact Or.inl rfl
  · exact Or.inr fun part hpart => (h part hpart).1

/-- **A tidy path is what its segments make.** -/
theorem ofSegments_segments {path : String} (h : Tidy path) :
    ofSegments (segments path) = path := by
  obtain ⟨rest, hrest⟩ := List.head?_eq_some_iff.mp h.slash
  apply String.toList_injective
  rw [toList_ofSegments, segments, Text.pieces, hrest, Text.splitAt, if_pos rfl,
    List.filter_cons_of_neg (by simp)]
  rcases h.filled with rfl | hfilled
  · obtain rfl : rest = [] := by simpa using hrest.symm
    rfl
  · rw [hrest, List.tail_cons] at hfilled
    rw [List.filter_eq_self.mpr fun piece hpiece => by simpa using hfilled piece hpiece,
      Text.joinWith_splitAt]

/-! ## Joining -/

section

variable (parts before group after : List (Option String))

theorem segments_join :
    segments (join parts) = parts.flatMap fun part => segments (part.getD "") := by
  refine segments_ofSegments fun segment hsegment => ?_
  obtain ⟨part, _, hpart⟩ := List.mem_flatMap.mp hsegment
  exact isSegment_of_mem hpart

theorem tidy_join : Tidy (join parts) := by
  refine tidy_ofSegments fun segment hsegment => ?_
  obtain ⟨part, _, hpart⟩ := List.mem_flatMap.mp hsegment
  exact isSegment_of_mem hpart

/-- Some paths in a row may be joined first. -/
theorem join_group :
    join (before ++ some (join group) :: after) = join (before ++ group ++ after) := by
  have hsegments : (before ++ some (join group) :: after).flatMap
      (fun part => segments (part.getD ""))
      = (before ++ group ++ after).flatMap fun part => segments (part.getD "") := by
    simp only [List.flatMap_append, List.flatMap_cons, Option.getD_some, segments_join,
      List.append_assoc]
  exact congrArg ofSegments hsegments

theorem join_join : join [some (join parts)] = join parts := by
  have h := join_group [] parts []
  rwa [List.nil_append, List.nil_append, List.append_nil] at h

end

end PathTemplate

/-! ## Addresses at a backend -/

namespace Backend

/-- The path that a backend puts before all others: its base path, or none where that is empty. -/
def HasBase (b : Backend) (base : String) : Prop :=
  b.basePath = .text base ∨ (b.basePath.holds = false ∧ base = "")

theorem exists_hasBase {b : Backend} {path address : String} (h : b.uri path = .ok address) :
    ∃ base, b.HasBase base := by
  unfold uri at h
  dsimp only at h
  split at h
  · rename_i text heq
    exact ⟨text, Or.inl heq⟩
  · split at h
    · cases h
    · rename_i hholds
      exact ⟨"", Or.inr ⟨by simpa using hholds, rfl⟩⟩

/-- The address of a path is the scheme and the host, and the path behind the base path. -/
theorem uri_of_hasBase {b : Backend} {base : String} (h : b.HasBase base) (path : String) :
    b.uri path = do
      return (← b.scheme.display) ++ "://" ++ (← b.host.display)
        ++ PathTemplate.join [some base, some path] := by
  unfold uri
  dsimp only
  rcases h with heq | ⟨hholds, rfl⟩
  · rw [heq]
    rfl
  · split
    · rename_i text heq
      rw [heq] at hholds
      obtain rfl : text = "" := by simpa [Tree.holds, Scalar.holds] using hholds
      rfl
    · rw [if_neg (by simp [hholds])]
      rfl

theorem uri_cases {b : Backend} {path address : String} (h : b.uri path = .ok address) :
    ∃ scheme host base, b.scheme.display = .ok scheme ∧ b.host.display = .ok host ∧
      b.HasBase base ∧
      address = scheme ++ "://" ++ host ++ PathTemplate.join [some base, some path] := by
  obtain ⟨base, hbase⟩ := exists_hasBase h
  rw [uri_of_hasBase hbase] at h
  obtain ⟨scheme, hscheme, h⟩ := result_bind_iff.mp h
  obtain ⟨host, hhost, h⟩ := result_bind_iff.mp h
  exact ⟨scheme, host, base, hscheme, hhost, hbase, (Except.ok.inj h).symm⟩

end Backend

namespace PathItem

open PathTemplate (join segments Tidy)

/-- The address in an integration is that of the operation's path. -/
theorem uri_of_integration {r : Resource} {op : Operation} {backend : Backend} {block : Node}
    (h : integration r op backend = .ok block) :
    ∃ address, backend.uri (pathOf r op) = .ok address ∧
      block.get? "uri" = some (.text address) := by
  unfold integration at h
  obtain ⟨address, haddress, h⟩ := result_bind_iff.mp h
  cases h
  exact ⟨address, haddress, rfl⟩

/-- A backend of texts has an address for every operation. -/
theorem exists_integration_of_texts (r : Resource) (op : Operation) (scheme host base : String) :
    ∃ block, integration r op ⟨.text scheme, .text host, .text base⟩ = .ok block :=
  ⟨_, rfl⟩

theorem segments_join_base (base path : String) :
    segments (join [some base, some path]) = segments base ++ segments path := by
  rw [PathTemplate.segments_join]
  simp

/--
**Joining paths appends their segments.**

A joined path is a slash and the segments of its parts with single slashes between them, where an
absent part has none. So parts in a row may be joined first, and joining again changes nothing. And
the address of an operation in its gateway integration is the backend's scheme and host, and then a
tidy path: the segments of the backend's base path and those of the operation's own path. Every
backend of texts has such an address.
-/
theorem joined_of_segments :
    (∀ parts : List (Option String), Tidy (join parts) ∧
      (join parts).toList = '/' :: ['/'].intercalate (parts.flatMap fun part =>
        (Text.splitAt '/' (part.getD "").toList).filter (!·.isEmpty))) ∧
    (∀ before group after : List (Option String),
      join (before ++ some (join group) :: after) = join (before ++ group ++ after)) ∧
    (∀ parts : List (Option String), join [some (join parts)] = join parts) ∧
    (∀ (r : Resource) (op : Operation) (backend : Backend) (block : Node),
      integration r op backend = .ok block → ∃ scheme host base path,
        backend.scheme.display = .ok scheme ∧ backend.host.display = .ok host ∧
        backend.HasBase base ∧ block.get? "uri" = some (.text (scheme ++ "://" ++ host ++ path)) ∧
        Tidy path ∧ segments path = segments base ++ segments (pathOf r op)) ∧
    ∀ (r : Resource) (op : Operation) (scheme host base : String), ∃ block,
      integration r op ⟨.text scheme, .text host, .text base⟩ = .ok block := by
  refine ⟨fun parts => ⟨PathTemplate.tidy_join parts, ?_⟩, PathTemplate.join_group,
    PathTemplate.join_join, ?_, exists_integration_of_texts⟩
  · rw [join, PathTemplate.toList_ofSegments]
    rfl
  · intro r op backend block h
    obtain ⟨address, haddress, hshown⟩ := uri_of_integration h
    obtain ⟨scheme, host, base, hscheme, hhost, hbase, rfl⟩ := Backend.uri_cases haddress
    exact ⟨scheme, host, base, _, hscheme, hhost, hbase, hshown, PathTemplate.tidy_join _,
      segments_join_base base (pathOf r op)⟩

end PathItem
end ApiManifest
