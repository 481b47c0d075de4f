import ApiManifest.Proofs.Scaffold
import Mathlib.Data.List.TakeWhile

/-!
# Where a host ends

The host and the base path of a base URI are read as those of a whole URI, behind a scheme and two
slashes. Much in a base URI could be taken for something else there: a colon for the end of a
scheme, two slashes for the beginning of a host, an `@` for the end of a user's name. None of it
counts. The scheme in front is the one that is found, and the host ends at the first slash behind
it. So a base URI without a query, a fragment and brackets is cut in two at its first slash,
whatever the scheme is.
-/

namespace ApiManifest.BaseUri

/-- An ordinary character with which neither a query nor a fragment begins. -/
def isPathChar (c : Char) : Bool := isOrdinary c && !endsPath c

/-! ## Behind the scheme -/

theorem ne_colon_of_isSchemeChar {c : Char} (hc : isSchemeChar c) : c ≠ ':' := by
  rintro rfl
  exact absurd hc (by decide)

theorem isSchemeChar_of_isScheme {scheme : List Char} (h : isScheme scheme) :
    ∀ c ∈ scheme, isSchemeChar c := by
  cases scheme with
  | nil => exact fun _ hc => absurd hc List.not_mem_nil
  | cons first rest =>
      simp only [isScheme, Bool.and_eq_true] at h
      exact List.all_eq_true.mp h.2

/-- A URI ends its scheme with its first colon, whatever follows. -/
theorem afterScheme_append {scheme : List Char} (h : isScheme scheme) (rest : List Char) :
    afterScheme (scheme ++ ':' :: rest) = rest := by
  have hkept : ∀ c ∈ scheme, (c != ':') = true := fun c hc =>
    bne_iff_ne.mpr (ne_colon_of_isSchemeChar (isSchemeChar_of_isScheme h c hc))
  have hcut : Text.cut ':' (scheme ++ ':' :: rest) = (scheme, some rest) := by
    unfold Text.cut
    rw [List.dropWhile_append_of_pos hkept, List.takeWhile_append_of_pos hkept,
      List.dropWhile_cons_of_neg (by simp), List.takeWhile_cons_of_neg (by simp), List.append_nil]
  rw [afterScheme, hcut]
  exact if_pos h

/-- Nothing is left out in front of a scheme. -/
theorem dropWhile_isLeading {scheme : List Char} (h : isScheme scheme) (rest : List Char) :
    (scheme ++ rest).dropWhile isLeading = scheme ++ rest := by
  cases scheme with
  | nil => cases h
  | cons first others =>
      simp only [isScheme, Bool.and_eq_true] at h
      have hcode := Yaml.code_of_isAlpha h.1
      refine List.dropWhile_cons_of_neg ?_
      simp only [isLeading, decide_eq_true_eq]
      omega

theorem isOmitted_of_isOrdinary {c : Char} (hc : isOrdinary c) : isOmitted c = false := by
  refine Bool.eq_false_iff.mpr fun homitted => ?_
  simp only [isOmitted, Bool.or_eq_true, beq_iff_eq] at homitted
  rcases homitted with (rfl | rfl) | rfl <;> exact absurd hc (by decide)

theorem isOrdinary_of_isSchemeChar {c : Char} (hc : isSchemeChar c) : isOrdinary c := by
  simp only [isSchemeChar, Char.isAlphanum, Bool.or_eq_true, beq_iff_eq] at hc
  rcases hc with (((halpha | hdigit) | rfl) | rfl) | rfl
  · exact isOrdinary_of_isAlpha halpha
  · have hcode : 48 ≤ c.toNat ∧ c.toNat ≤ 57 := Char.isDigit_iff_toNat.mp hdigit
    have hopen : c ≠ '[' := by rintro rfl; exact absurd hdigit (by decide)
    have hclose : c ≠ ']' := by rintro rfl; exact absurd hdigit (by decide)
    simp only [isOrdinary, Bool.and_eq_true, decide_eq_true_eq, bne_iff_ne]
    exact ⟨⟨by omega, hopen⟩, hclose⟩
  all_goals decide

/-! ## Host and path -/

theorem ne_slash_of_endsHost {c : Char} (hc : isPathChar c) (hne : c ≠ '/') :
    endsHost c = false := by
  simp only [isPathChar, endsPath, Bool.and_eq_true, Bool.not_eq_true', Bool.or_eq_false_iff] at hc
  simp [endsHost, hc.2, hne]

/-- A text up to its first slash, and the rest. -/
theorem exists_firstSlash (cs : List Char) : ∃ before behind, cs = before ++ behind ∧
    '/' ∉ before ∧ (behind = [] ∨ ∃ more, behind = '/' :: more) := by
  refine ⟨cs.takeWhile (· != '/'), cs.dropWhile (· != '/'), List.takeWhile_append_dropWhile.symm,
    fun hmem => ?_, ?_⟩
  · simpa using List.mem_takeWhile_imp hmem
  · cases hdrop : cs.dropWhile (· != '/') with
    | nil => exact .inl rfl
    | cons c more =>
        have hc := List.head_dropWhile_not (· != '/') (l := cs) (by simp [hdrop])
        simp only [hdrop, List.head_cons, bne_eq_false_iff_eq] at hc
        exact .inr ⟨more, by rw [hc]⟩

/-- Behind a scheme and two slashes, the host reaches up to the first slash, and the path is all
that is left. -/
theorem hostAndPath_append {scheme host path : List Char} (hscheme : isScheme scheme)
    (hchars : ∀ c ∈ host ++ path, isPathChar c) (hhost : '/' ∉ host)
    (hpath : path = [] ∨ ∃ more, path = '/' :: more) :
    hostAndPath (scheme ++ "://".toList ++ (host ++ path)) = .ok (host, path) := by
  have hordinary : ∀ c ∈ host ++ path, isOrdinary c := fun c hc =>
    (Bool.and_eq_true_iff.mp (hchars c hc)).1
  obtain ⟨hcharsHost, hcharsPath⟩ := List.forall_mem_append.mp hchars
  -- nothing is left out of such a text, so that it is cut where it was put together
  have hkept : ∀ c ∈ scheme ++ "://".toList ++ (host ++ path), isOmitted c = false := by
    have hmark : ∀ c ∈ "://".toList, isOmitted c = false := by simp [isOmitted]
    rw [List.forall_mem_append, List.forall_mem_append]
    refine ⟨⟨fun c hc => ?_, hmark⟩, fun c hc => isOmitted_of_isOrdinary (hordinary c hc)⟩
    exact isOmitted_of_isOrdinary
      (isOrdinary_of_isSchemeChar (isSchemeChar_of_isScheme hscheme c hc))
  have huri : ((scheme ++ "://".toList ++ (host ++ path)).dropWhile isLeading).filter (!isOmitted ·)
      = scheme ++ ':' :: '/' :: '/' :: (host ++ path) := by
    rw [List.append_assoc, dropWhile_isLeading hscheme, ← List.append_assoc]
    refine (List.filter_eq_self.mpr fun c hc => ?_).trans (List.append_assoc _ _ _)
    rw [hkept c hc]
    rfl
  have hbefore : ∀ c ∈ host, (!endsHost c) = true := fun c hc => by
    rw [ne_slash_of_endsHost (hcharsHost c hc) (by rintro rfl; exact hhost hc)]
    rfl
  have htake : (host ++ path).takeWhile (!endsHost ·) = host := by
    rw [List.takeWhile_append_of_pos hbefore]
    rcases hpath with rfl | ⟨more, rfl⟩
    · simp
    · rw [List.takeWhile_cons_of_neg (by decide), List.append_nil]
  have hdrop : (host ++ path).dropWhile (!endsHost ·) = path := by
    rw [List.dropWhile_append_of_pos hbefore]
    rcases hpath with rfl | ⟨more, rfl⟩
    · rfl
    · exact List.dropWhile_cons_of_neg (by decide)
  have hwhole : path.takeWhile (!endsPath ·) = path :=
    List.takeWhile_eq_self_iff.mpr fun c hc => (Bool.and_eq_true_iff.mp (hcharsPath c hc)).2
  have hvalid : isHost host = true :=
    isHost_of_isOrdinary fun c hc => hordinary c (List.mem_append_left _ hc)
  unfold hostAndPath
  rw [huri]
  dsimp only
  rw [afterScheme_append hscheme]
  simp only [htake, hdrop, hwhole, hvalid, if_true]

/-- The base path is what is left from the first slash on, or a slash if there is none. -/
theorem split_append {uri scheme : String} {host path : List Char}
    (huri : uri.toList = host ++ path) (hscheme : isScheme scheme.toList)
    (hchars : ∀ c ∈ uri.toList, isPathChar c) (hhost : '/' ∉ host)
    (hpath : path = [] ∨ ∃ more, path = '/' :: more) :
    split uri scheme
      = .ok (String.ofList host, if path.isEmpty then "/" else String.ofList path) := by
  rw [huri] at hchars
  rw [split, huri, hostAndPath_append hscheme hchars hhost hpath]
  rfl

/--
**Nothing of a base URI is lost or moved when it is taken apart.**

For every scheme and every base URI of printable characters, without a query, a fragment and
brackets: it is taken apart into a host without a slash and a base path that begins with one.
Written one behind the other they are the base URI, or the base URI and a slash where it has none.
No other scheme gives another host or another base path.
-/
theorem split_lossless {uri scheme : String} (huri : ∀ c ∈ uri.toList, isPathChar c)
    (hscheme : isScheme scheme.toList) :
    ∃ host basePath, split uri scheme = .ok (host, basePath) ∧
      '/' ∉ host.toList ∧ basePath.toList.head? = some '/' ∧
      host ++ basePath = (if '/' ∈ uri.toList then uri else uri ++ "/") ∧
      ∀ other : String, isScheme other.toList → split uri other = split uri scheme := by
  obtain ⟨host, path, hparts, hhost, hpath⟩ := exists_firstSlash uri.toList
  have hsplit {scheme : String} (hscheme : isScheme scheme.toList) :=
    split_append hparts hscheme huri hhost hpath
  refine ⟨_, _, hsplit hscheme, by rwa [String.toList_ofList], ?_, ?_,
    fun other hother => (hsplit hother).trans (hsplit hscheme).symm⟩
  · rcases hpath with rfl | ⟨more, rfl⟩
    · rfl
    · simp
  · apply String.toList_injective
    rcases hpath with rfl | ⟨more, rfl⟩
    · have hnone : '/' ∉ uri.toList := by simpa [hparts] using hhost
      rw [if_neg hnone, if_pos List.isEmpty_nil, String.toList_append, String.toList_append, hparts,
        String.toList_ofList, List.append_nil]
    · have hsome : '/' ∈ uri.toList := by simp [hparts]
      rw [if_pos hsome, if_neg (by simp), String.toList_append, String.toList_ofList,
        String.toList_ofList, hparts]

/-- A base URI that looks like a whole URI, with a user, a port and an empty segment. -/
theorem split_lossless_embedded :
    (∀ c ∈ "me@a:80%zz//b://c".toList, isPathChar c) ∧ isScheme "Git+ssh-2.0".toList ∧
      split "me@a:80%zz//b://c" "Git+ssh-2.0" = .ok ("me@a:80%zz", "//b://c") ∧
      split "me@a:80%zz//b://c" "x" = .ok ("me@a:80%zz", "//b://c") := by
  have hchars : ∀ c ∈ "me@a:80%zz//b://c".toList, isPathChar c :=
    List.all_eq_true.mp (by decide)
  obtain ⟨_, _, -, -, -, -, hother⟩ :=
    @split_lossless "me@a:80%zz//b://c" "Git+ssh-2.0" hchars (by decide)
  have hparts : split "me@a:80%zz//b://c" "Git+ssh-2.0" = .ok ("me@a:80%zz", "//b://c") := rfl
  exact ⟨hchars, by decide, hparts, (hother "x" (by decide)).trans hparts⟩

end ApiManifest.BaseUri
