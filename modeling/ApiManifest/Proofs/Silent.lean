import ApiManifest.Proofs.Assembly
import ApiManifest.Proofs.Template

/-!
# Manifests without an interface

A manifest need not say anything about the interface as a whole. Its document then begins with the
same baseline whatever it declares, so that nothing but its resources is left to go through. What
such a document comes to can be computed without reading the template back.
-/

namespace ApiManifest

/-! ## The baseline -/

/-- The fields in which a manifest says something about the interface as a whole. -/
def Metadata.fieldNames : List String :=
  ["title", "description", "version", "schemes", "formats", "baseUri"]

/-- A mapping that has null at all these fields, or lacks them. -/
def Tree.isSilent : Tree → Bool
  | .map es => Metadata.fieldNames.all fun name =>
      match (Entries.get? es name).getD .null with
      | .scalar .null => true
      | _ => false
  | _ => false

namespace Baseline

/-- What a silent manifest says. -/
def silentTexts : Texts where
  title := .empty
  description := none
  version := .empty
  schemes := []
  formats := []
  host := .empty
  basePath := ⟨"/", rfl⟩

/-- What its document begins with. -/
def silentEntries : Entries := [
  (.text "swagger", .text "2.0"),
  (.text "info", .map [(.text "title", .text ""), (.text "version", .text "")]),
  (.text "schemes", .list []),
  (.text "consumes", .list []),
  (.text "produces", .list []),
  (.text "host", .text ""),
  (.text "basePath", .text "/"),
  (.text "paths", .map []),
  (.text "definitions", .map [])]

theorem metadata_of_silent {manifest : Tree} (h : manifest.isSilent = true) :
    Metadata.ofManifest manifest = .ok silentTexts.metadata := by
  cases manifest with
  | map es =>
      have hnull : ∀ name ∈ Metadata.fieldNames, (Entries.get? es name).getD .null = .null := by
        intro name hname
        have hfield := List.all_eq_true.mp h name hname
        split at hfield
        · assumption
        · cases hfield
      simp only [Metadata.fieldNames, List.forall_mem_cons] at hnull
      obtain ⟨htitle, hdescription, hversion, hschemes, hformats, hbaseUri, -⟩ := hnull
      have hsplit : BaseUri.split "" Metadata.usualScheme = .ok ("", "/") := rfl
      have hscheme : (Tree.text Metadata.usualScheme).display = .ok Metadata.usualScheme := rfl
      have hempty : Metadata.textOf .null = .ok "" := rfl
      simp only [Metadata.ofManifest, htitle, hdescription, hversion, hschemes, hformats, hbaseUri,
        Metadata.asList, List.head?_nil, Option.getD_none, hscheme, hempty, hsplit, bind,
        Except.bind]
      rfl
  | _ => cases h

/-- **All silent manifests have one baseline.** -/
theorem ofManifest_of_silent {manifest : Tree} (h : manifest.isSilent = true) :
    ofManifest manifest = .ok (.map silentEntries) :=
  ofManifest_of_metadata (metadata_of_silent h)

/-- It leaves the scheme, the host and the base path of the backend to their defaults. -/
theorem backend_of_silent :
    Backend.ofDocument (.map silentEntries) = .ok ⟨.text "https", .text "", .text "/"⟩ := rfl

end Baseline

/-! ## The document -/

namespace Document

variable {σ : Type}

/-- Goes through the resources of a silent manifest. -/
def buildSilent (manifest : Value) (options : Options) (generator : Option (Generator σ)) :
    Run σ Document := do
  let declared ← Run.reading fun st => declarations st manifest
  let d ← addModels options ⟨.text "https", .text "", .text "/"⟩ generator declared
    { baseline := Baseline.silentEntries }
  Run.tell [assembled d]
  return d

/-- **A silent manifest is built of its resources alone.** -/
theorem outcome_build_of_silent {manifest : Value} {options : Options}
    {generator : Option (Generator σ)} {w : World σ}
    (h : (w.store.tree manifest).isSilent = true) :
    outcome (build manifest options generator) w
      = outcome (buildSilent manifest options generator) w := by
  rw [build, outcome_bind, Run.outcome_reading, Baseline.ofManifest_of_silent h]
  dsimp only
  rw [outcome_bind, Run.outcome_reading, Baseline.backend_of_silent]
  rfl

theorem passes_build_of_silent {manifest : Value} {options : Options}
    {generator : Option (Generator σ)} {w : World σ} {p : Document → World σ → Bool}
    (h : (w.store.tree manifest).isSilent = true) :
    passes (build manifest options generator) w p
      = passes (buildSilent manifest options generator) w p := by
  rw [passes, passes, outcome_build_of_silent h]

end Document
end ApiManifest
