import ApiManifest.PathItem
import ApiManifest.Proofs.Template
import ApiManifest.Proofs.WellShaped

/-!
# Baselines of well-shaped manifests

If a manifest says about the interface as a whole what it is expected to, in plain texts or not at
all, then its document has a baseline, and every path has an address at the backend that the
baseline names. A base URI of printable characters without brackets is always taken apart.
-/

namespace ApiManifest

/-! ## Base URIs -/

namespace BaseUri

/-- A printable character of ASCII that is no bracket. -/
def isOrdinary (c : Char) : Bool :=
  0x20 ≤ c.toNat && c.toNat ≤ 0x7E && c != '[' && c != ']'

/-- Ordinary characters alone make a host. -/
theorem isHost_of_isOrdinary {host : List Char} (h : ∀ c ∈ host, isOrdinary c) :
    isHost host = true := by
  have hlacks : ∀ c, isOrdinary c = false → host.contains c = false := by
    intro c hc
    refine Bool.eq_false_iff.mpr fun hmem => ?_
    rw [h c (List.contains_iff_mem.mp hmem)] at hc
    cases hc
  have hforms : (host.all fun c => !delimiterForms.contains c.toNat) = true := by
    refine List.all_eq_true.mpr fun c hc => ?_
    have hbeyond : ∀ n ∈ delimiterForms, 0x7E < n := by decide
    have hcode : c.toNat ≤ 0x7E := by
      have hordinary := h c hc
      simp only [isOrdinary, Bool.and_eq_true, decide_eq_true_eq] at hordinary
      exact hordinary.1.1.2
    rw [Bool.not_eq_true', Bool.eq_false_iff]
    intro hmem
    exact absurd (hbeyond _ (List.contains_iff_mem.mp hmem)) (by omega)
  rw [isHost, hlacks '[' (by decide), hlacks ']' (by decide), hforms]
  rfl

theorem cut_subset {separator : Char} {cs rest : List Char}
    (h : (Text.cut separator cs).2 = some rest) : rest ⊆ cs := by
  unfold Text.cut at h
  split at h
  · cases h
  · rename_i c more hdrop
    cases h
    exact fun x hx => (List.dropWhile_sublist _).subset (hdrop ▸ List.mem_cons_of_mem c hx)

theorem afterScheme_subset (uri : List Char) : afterScheme uri ⊆ uri := by
  unfold afterScheme
  split
  · rename_i scheme rest hcut
    split
    · exact cut_subset (by rw [hcut])
    · exact List.Subset.refl _
  · exact List.Subset.refl _

/-- **A URI of ordinary characters has a host and a path**, which are parts of it. -/
theorem exists_hostAndPath {uri : List Char} (h : ∀ c ∈ uri, isOrdinary c) :
    ∃ host path, hostAndPath uri = .ok (host, path) ∧ host ⊆ uri ∧ path ⊆ uri := by
  have hkept : (uri.dropWhile isLeading).filter (!isOmitted ·) ⊆ uri :=
    List.Subset.trans (List.filter_sublist).subset (List.dropWhile_sublist _).subset
  have hafter := List.Subset.trans (afterScheme_subset _) hkept
  have hparts : ∀ host rest : List Char, host ⊆ uri → rest ⊆ uri → ∃ host' path,
      (if isHost host then .ok (host, rest.takeWhile (!endsPath ·)) else .error .badHost
        : Except Error (List Char × List Char)) = .ok (host', path) ∧ host' ⊆ uri ∧ path ⊆ uri := by
    intro host rest hhost hrest
    rw [if_pos (isHost_of_isOrdinary fun c hc => h c (hhost hc))]
    exact ⟨_, _, rfl, hhost, List.Subset.trans (List.takeWhile_sublist _).subset hrest⟩
  unfold hostAndPath
  dsimp only
  split
  · rename_i rest hrest
    have hmore : rest ⊆ uri := fun c hc => hafter (by simp [hrest, hc])
    exact hparts _ _ (List.Subset.trans (List.takeWhile_sublist _).subset hmore)
      (List.Subset.trans (List.dropWhile_sublist _).subset hmore)
  · exact hparts _ _ (List.nil_subset _) hafter

/-- A base URI of ordinary characters is taken apart into ordinary characters. -/
theorem exists_split {uri scheme : String} (huri : ∀ c ∈ uri.toList, isOrdinary c)
    (hscheme : ∀ c ∈ scheme.toList, isOrdinary c) :
    ∃ host basePath, split uri scheme = .ok (host, basePath) ∧
      (∀ c ∈ host.toList, isOrdinary c) ∧ ∀ c ∈ basePath.toList, isOrdinary c := by
  have hall : ∀ c ∈ scheme.toList ++ "://".toList ++ uri.toList, isOrdinary c := by
    have hmark : ∀ c ∈ "://".toList, isOrdinary c := List.all_eq_true.mp rfl
    simp only [List.forall_mem_append]
    exact ⟨⟨hscheme, hmark⟩, huri⟩
  obtain ⟨host, path, hparts, hhost, hpath⟩ := exists_hostAndPath hall
  refine ⟨_, _, by rw [split, hparts]; rfl, ?_, ?_⟩
  · rw [String.toList_ofList]
    exact fun c hc => hall c (hhost hc)
  · split
    · exact List.all_eq_true.mp rfl
    · rw [String.toList_ofList]
      exact fun c hc => hall c (hpath hc)

theorem isOrdinary_of_isAlpha {c : Char} (hc : c.isAlpha) : isOrdinary c := by
  have hcode := Yaml.code_of_isAlpha hc
  have hopen : c ≠ '[' := Yaml.Lexer.ne_of_isAlpha hc (by decide)
  have hclose : c ≠ ']' := Yaml.Lexer.ne_of_isAlpha hc (by decide)
  simp only [isOrdinary, Bool.and_eq_true, decide_eq_true_eq, bne_iff_ne]
  exact ⟨⟨by omega, hopen⟩, hclose⟩

theorem isPlain_of_isOrdinary {c : Char} (hc : isOrdinary c) : Baseline.isPlain c := by
  simp only [isOrdinary, Bool.and_eq_true, decide_eq_true_eq] at hc
  simp only [Baseline.isPlain, Bool.or_eq_true, Bool.and_eq_true, decide_eq_true_eq]
  omega

end BaseUri
/-! ## Metadata -/

/-- The entries of a manifest say about the interface as a whole what they are expected to. -/
structure Store.DescribesInterface (st : Store) (es : List (Value × Value)) : Prop where
  title : (st.field es "title").IsTextOrNull (·.toList.all Baseline.isPlain)
  description : (st.field es "description").IsTextOrNull (·.toList.all Baseline.isPlain)
  version : (st.field es "version").IsTextOrNull (·.toList.all Baseline.isPlain)
  schemes : st.ListsTexts (fun s => s ≠ "" ∧ s.toList.all Char.isAlpha) (st.field es "schemes")
  formats : st.ListsTexts (·.toList.all Baseline.isPlain) (st.field es "formats")
  baseUri : (st.field es "baseUri").IsTextOrNull (·.toList.all BaseUri.isOrdinary)

namespace Baseline

variable {st : Store} {es : List (Value × Value)} {v : Value}

namespace PlainText

/-- An optional text has a tree that is one. -/
theorem exists_option (st : Store) (depth : Nat)
    (h : v.IsTextOrNull (·.toList.all Baseline.isPlain)) :
    ∃ s : Option PlainText, st.treeTo depth v = s.elim .null tree := by
  rcases h with rfl | ⟨s, rfl, hs⟩
  · exact ⟨none, st.treeTo_scalar depth _⟩
  · exact ⟨some ⟨s, hs⟩, st.treeTo_scalar depth _⟩

theorem exists_list {texts : List String} (h : ∀ s ∈ texts, s.toList.all Baseline.isPlain) :
    ∃ ss : List PlainText, ss.map (·.text) = texts := by
  induction texts with
  | nil => exact ⟨[], rfl⟩
  | cons s rest ih =>
      obtain ⟨hs, hrest⟩ := List.forall_mem_cons.mp h
      obtain ⟨ss, hss⟩ := ih hrest
      exact ⟨⟨s, hs⟩ :: ss, by rw [List.map_cons, hss]⟩

end PlainText

theorem textOf_option (s : Option PlainText) :
    Metadata.textOf (s.elim .null PlainText.tree) = .ok (s.getD .empty).text := by
  cases s with
  | none => rfl
  | some s => exact textOf_tree s

/-- **A well-shaped manifest has a baseline**, which consists of plain texts. -/
theorem exists_texts (hes : st.entries? v = some es) (h : st.DescribesInterface es) :
    ∃ t : Texts, ofManifest (st.tree v) = .ok t.document := by
  have hfield := st.getD_get?_trees es st.cells.size
  obtain ⟨title, htitle⟩ := PlainText.exists_option st st.cells.size h.title
  obtain ⟨description, hdescription⟩ := PlainText.exists_option st st.cells.size h.description
  obtain ⟨version, hversion⟩ := PlainText.exists_option st st.cells.size h.version
  obtain ⟨schemeTexts, hschemes, hletters⟩ := h.schemes.exists_tree
  obtain ⟨formatTexts, hformats, hformatsPlain⟩ := h.formats.exists_tree
  obtain ⟨formats, rfl⟩ := PlainText.exists_list hformatsPlain
  obtain ⟨schemes, rfl⟩ := PlainText.exists_list fun s hs => List.all_eq_true.mpr fun c hc =>
    BaseUri.isPlain_of_isOrdinary (BaseUri.isOrdinary_of_isAlpha
      (List.all_eq_true.mp (hletters s hs).2 c hc))
  obtain ⟨uri, huri, hordinary⟩ : ∃ uri, Metadata.textOf (st.treeTo st.cells.size
      (st.field es "baseUri")) = .ok uri ∧ ∀ c ∈ uri.toList, BaseUri.isOrdinary c := by
    rcases h.baseUri with hnull | ⟨uri, htext, hall⟩
    · rw [hnull, Store.treeTo_scalar]
      exact ⟨"", rfl, List.all_eq_true.mp rfl⟩
    · rw [htext, Store.treeTo_scalar]
      exact ⟨uri, textOf_text uri, List.all_eq_true.mp hall⟩
  have hletter : ∀ c ∈ ((schemes.map (·.text)).headD Metadata.usualScheme).toList,
      BaseUri.isOrdinary c := by
    cases schemes with
    | nil => exact List.all_eq_true.mp rfl
    | cons scheme rest =>
        have hall := (hletters scheme.text List.mem_cons_self).2
        exact fun c hc => BaseUri.isOrdinary_of_isAlpha (List.all_eq_true.mp hall c hc)
  obtain ⟨host, basePath, hsplit, hhost, hbasePath⟩ := BaseUri.exists_split hordinary hletter
  -- what is read so far has neither line breaks nor other unprintable characters
  let t : Texts := {
    title := title.getD .empty
    description
    version := version.getD .empty
    schemes
    formats
    host := ⟨host, List.all_eq_true.mpr fun c hc => BaseUri.isPlain_of_isOrdinary (hhost c hc)⟩
    basePath := ⟨basePath,
      List.all_eq_true.mpr fun c hc => BaseUri.isPlain_of_isOrdinary (hbasePath c hc)⟩ }
  refine ⟨t, ofManifest_of_metadata ?_⟩
  have hscheme : ((schemes.map PlainText.tree).head?.getD (.text Metadata.usualScheme)).display =
      .ok ((schemes.map (·.text)).headD Metadata.usualScheme) := by
    cases schemes <;> rfl
  have htrees : ∀ ss : List PlainText, (ss.map (·.text)).map Tree.text = ss.map PlainText.tree :=
    fun ss => List.map_map
  rw [Store.tree_of_entries? hes]
  simp only [Metadata.ofManifest, hfield, htitle, hdescription, hversion, hschemes, hformats, huri,
    htrees, Metadata.asList, hscheme, hsplit, textOf_option, bind, Except.bind]
  cases version <;> rfl

end Baseline

/-! ## Backends -/

namespace Backend

/-- Every path has an address at the backend. -/
def Reachable (b : Backend) : Prop := ∀ path, ∃ uri, b.uri path = .ok uri

/-- Three texts are a backend at which every path has an address. -/
theorem reachable_texts (scheme host basePath : String) :
    (Backend.mk (.text scheme) (.text host) (.text basePath)).Reachable := fun _ => ⟨_, rfl⟩

/-- **The document of plain texts names a backend** at which every path has an address. -/
theorem exists_ofDocument (t : Baseline.Texts) :
    ∃ b, ofDocument t.document = .ok b ∧ b.Reachable := by
  -- an empty list or text gives way to a default
  let orElse (v default : Tree) : Tree := if v.holds then v else default
  have hscheme : ∃ scheme, firstItem (orElse (.list (t.schemes.map Baseline.PlainText.tree))
      (.list [.text "https"])) = .ok (.text scheme) := by
    cases t.schemes with
    | nil => exact ⟨"https", rfl⟩
    | cons scheme rest => exact ⟨scheme.text, rfl⟩
  have htext : ∀ s default : String, ∃ text, orElse (.text s) (.text default) = .text text := by
    intro s default
    dsimp only [orElse]
    split <;> exact ⟨_, rfl⟩
  obtain ⟨scheme, hscheme⟩ := hscheme
  obtain ⟨host, hhost⟩ := htext t.host.text ""
  obtain ⟨basePath, hbasePath⟩ := htext t.basePath.text "/"
  refine ⟨_, ?_, reachable_texts scheme host basePath⟩
  show (do
    let scheme ← firstItem (orElse (.list (t.schemes.map Baseline.PlainText.tree))
      (.list [.text "https"]))
    return (Backend.mk scheme (orElse (.text t.host.text) (.text ""))
      (orElse (.text t.basePath.text) (.text "/")))) = _
  rw [hscheme, hhost, hbasePath]
  rfl

end Backend
end ApiManifest
