import ApiManifest.Output

/-!
# Suffixes in whatever case

The suffix of an output path chooses a format in whatever case it is written. Lower case is that
of all scripts, but no letter beyond ASCII has a form in it that a suffix is made of: the only
one with a form in ASCII alone is the kelvin sign, and that form is a `k`.
-/

namespace ApiManifest

namespace Text

/-- Where the other forms of a run of letters lie. -/
theorem lowerRuns_beyond : ∀ r ∈ lowerRuns.toList, r.last < 0x80 ∨
    (r.first + r.offset = 0x6B ∧ r.last + r.offset = 0x6B) ∨
    (0x80 ≤ r.first + r.offset ∧ r.last + r.offset < 0xD800) ∨
    (0xE000 ≤ r.first + r.offset ∧ r.last + r.offset < 0x110000) := by
  decide +kernel

theorem toNat_ofNat_of_valid {n : Nat} (h : n.isValidChar) : (Char.ofNat n).toNat = n := by
  rw [Char.ofNat, dif_pos h]
  rfl

/-- The lower-case form of a letter beyond ASCII has a character that is no lower-case letter of
ASCII but `k`. -/
theorem exists_mem_lowerChar {c : Char} (h : 0x80 ≤ c.toNat) :
    ∃ d ∈ lowerChar c, 0x80 ≤ d.toNat ∨ d = 'k' := by
  unfold lowerChar
  rw [if_neg (by omega)]
  split
  · exact ⟨'\u0307', by simp, .inl (by decide)⟩
  · split
    · next code hcode =>
      obtain ⟨r, hr, himage⟩ := Array.exists_of_findSome?_eq_some hcode
      unfold CaseRun.image? at himage
      split at himage
      · next hrange =>
        cases himage
        refine ⟨_, List.mem_singleton_self _, ?_⟩
        obtain hlow | ⟨hk, hk'⟩ | hplane := lowerRuns_beyond r (Array.mem_toList_iff.mpr hr)
        · omega
        · right
          have hcode : (c.toNat + r.offset).toNat = 0x6B := by omega
          rw [hcode]
        · left
          rw [toNat_ofNat_of_valid (by unfold Nat.isValidChar; omega)]
          omega
      · cases himage
    · exact ⟨c, by simp, .inl h⟩

theorem toLower_of_beyond {c : Char} (h : 0x80 ≤ c.toNat) : c.toLower = c := by
  unfold Char.toLower
  rw [dif_neg]
  rintro ⟨-, hupper⟩
  have hupper : c.toNat ≤ 90 := hupper
  omega

/-- A text of ASCII letters other than `k` is the lower case of a text exactly when it is so
letter by letter. -/
theorem lowerAfter_eq_iff {t : List Char} (ht : ∀ d ∈ t, d.toNat < 0x80 ∧ d ≠ 'k')
    (cs before : List Char) : lowerAfter before cs = t ↔ cs.map Char.toLower = t := by
  induction cs generalizing before t with
  | nil => rfl
  | cons c rest ih =>
      -- beyond ASCII, only the Kelvin sign has a lower case in ASCII, and its k is not in the text
      by_cases hc : c.toNat < 0x80
      · have hsigma : c ≠ 'Σ' := by
          rintro rfl
          exact absurd hc (by decide)
        have hform : lowerAfter before (c :: rest)
            = c.toLower :: lowerAfter (c :: before) rest := by
          simp [lowerAfter, hsigma, lowerChar, hc]
        rw [hform, List.map_cons]
        cases t with
        | nil => simp
        | cons d t =>
            rw [List.cons.injEq, List.cons.injEq,
              ih (fun d' hd' => ht d' (List.mem_cons_of_mem _ hd'))]
      · have hbeyond : 0x80 ≤ c.toNat := by omega
        constructor
        · intro h
          have hform : ∃ d ∈ t, 0x80 ≤ d.toNat ∨ d = 'k' := by
            rw [← h, lowerAfter]
            by_cases hsigma : c = 'Σ'
            · by_cases hfinal : facesCased before && !facesCased rest
              · exact ⟨'ς', by simp [hsigma, hfinal], .inl (by decide)⟩
              · exact ⟨'σ', by simp [hsigma, hfinal], .inl (by decide)⟩
            · obtain ⟨d, hd, hlow⟩ := exists_mem_lowerChar hbeyond
              exact ⟨d, by simp [hsigma, hd], hlow⟩
          obtain ⟨d, hd, hbad | hbad⟩ := hform
          · exact absurd (ht d hd).1 (by omega)
          · exact absurd hbad (ht d hd).2
        · intro h
          have hmem : c.toLower ∈ t := by
            rw [← h]
            simp
          rw [toLower_of_beyond hbeyond] at hmem
          exact absurd (ht c hmem).1 hc

theorem lower_eq_iff {t : String} (ht : ∀ d ∈ t.toList, d.toNat < 0x80 ∧ d ≠ 'k')
    (cs : List Char) : lower (String.ofList cs) = t ↔ cs.map Char.toLower = t.toList := by
  rw [← lowerAfter_eq_iff ht cs [], lower, String.toList_ofList]
  constructor
  · rintro rfl
    rw [String.toList_ofList]
  · intro h
    rw [h, String.ofList_toList]

end Text

namespace Format

/-- The endings of the paths of files in a format, in lower case. -/
def endings : Format → List String
  | json => [".json"]
  | yaml => [".yaml", ".yml"]

/-- A suffix stands for a format exactly when it is one of its endings up to the case of ASCII
letters. -/
theorem ofSuffix?_eq_some_iff {suffix : List Char} {format : Format} :
    ofSuffix? suffix = some format ↔
      ∃ ending ∈ format.endings, suffix.map Char.toLower = ending.toList := by
  have hjson := Text.lower_eq_iff (t := ".json") (by simp) suffix
  have hyaml := Text.lower_eq_iff (t := ".yaml") (by simp) suffix
  have hyml := Text.lower_eq_iff (t := ".yml") (by simp) suffix
  unfold ofSuffix?
  cases format with
  | json =>
      simp only [endings, List.mem_singleton, exists_eq_left, ← hjson]
      split <;> simp_all
  | yaml =>
      simp only [endings, List.mem_cons, List.not_mem_nil, or_false, exists_eq_or_imp,
        exists_eq_left, ← hyaml, ← hyml]
      split <;> simp_all

end Format
end ApiManifest
