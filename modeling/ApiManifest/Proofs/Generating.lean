import ApiManifest.Proofs.BuildCauses
import ApiManifest.Proofs.Directories
import ApiManifest.Proofs.Suffixes
import ApiManifest.Proofs.TreeShape
import ApiManifest.Proofs.WellShaped

/-!
# All or nothing

A document is written when all of its text is there, and not before. What can go wrong until then
has no part in the files, so a run either has a text or leaves everything as it was; once it has
one, only the file system can still refuse it. The exit code of the command follows from the cause.
-/

namespace ApiManifest

variable {σ α : Type} {st : Store}

/-! ## The line that tells of a document -/

namespace Node

theorem length_insertFields (st : Store) (fields : List (String × Node)) :
    (insertFields st fields).2.length = fields.length := by
  induction fields generalizing st with
  | nil => rfl
  | cons field rest ih => exact congrArg Nat.succ (ih _)

/-- A mapping becomes an object with as many entries. -/
theorem insert_map (st : Store) (fields : List (String × Node)) :
    ∃ id es, (insert st (.map fields)).2 = .ref id ∧
      (insert st (.map fields)).1.cells[id]? = some (.map es) ∧ es.length = fields.length := by
  refine ⟨_, (insertFields st fields).2, rfl, ?_, length_insertFields st fields⟩
  simp [insert, Store.alloc]

end Node

namespace Output

/-- A section that is a mapping has as many parts as entries. -/
theorem sectionSize_map {es entries : List (Value × Value)} {name : String} {id depth : Nat}
    (hfind : st.find? (.text name) es = some (.ref id))
    (hcell : st.cells[id]? = some (.map entries)) :
    sectionSize (es.map fun (k, v) => (st.treeTo (depth + 1) k, st.treeTo (depth + 1) v)) name
      = .ok entries.length := by
  rw [sectionSize, Store.get?_trees, hfind, Option.map_some, Store.treeTo, hcell]
  simp

end Output

namespace Document

/-- What is printed of a document that was written. -/
def announcement (d : Document) (path : FilePath) : String :=
  s!"Generated {path.text} ({d.paths.length} paths, {d.definitions.length} definitions)\n"

theorem find?_paths (st st' : Store) (d : Document) :
    st.find? (.text "paths") (d.insert st').2 =
      some (Node.insert (st'.insertEntries d.baseline).1 (.map d.paths)).2 :=
  (Store.find?_put_of_ne _ _ (by decide) _ _).trans (Store.find?_put_self _ _ _ _ _)

theorem find?_definitions (st st' : Store) (d : Document) :
    st.find? (.text "definitions") (d.insert st').2 =
      some (Node.insert (Node.insert (st'.insertEntries d.baseline).1 (.map d.paths)).1
        (.map d.definitions)).2 :=
  Store.find?_put_self _ _ _ _ _

/-- **The line that tells of a document can always be printed.** -/
theorem summary_object (st : Store) (d : Document) (path : FilePath) :
    Output.summary ((d.object st).1.tree (d.object st).2) path = .ok (d.announcement path) := by
  obtain ⟨p, ps, hp, hpcell, hps⟩ := Node.insert_map (st.insertEntries d.baseline).1 d.paths
  obtain ⟨q, qs, hq, hqcell, hqs⟩ := Node.insert_map
    (Node.insert (st.insertEntries d.baseline).1 (.map d.paths)).1 d.definitions
  have hplater : (d.object st).1.cells[p]? = some (.map ps) := by
    have hext := (Node.extends_insert (.map d.definitions)
      (Node.insert (st.insertEntries d.baseline).1 (.map d.paths)).1).trans
        (Store.extends_alloc _ (.map (d.insert st).2))
    rw [← hpcell]
    exact hext.cells p (Array.getElem?_eq_some_iff.mp hpcell).1
  have hqlater : (d.object st).1.cells[q]? = some (.map qs) := by
    rw [← hqcell]
    exact (Store.extends_alloc _ (.map (d.insert st).2)).cells q
      (Array.getElem?_eq_some_iff.mp hqcell).1
  have hpfind := (find?_paths (d.object st).1 st d).trans (congrArg some hp)
  have hqfind := (find?_definitions (d.object st).1 st d).trans (congrArg some hq)
  obtain ⟨depth, hdepth⟩ : ∃ depth, (d.object st).1.cells.size = depth + 1 :=
    ⟨(d.insert st).1.cells.size, by simp [object, Store.alloc]⟩
  have htree : (d.object st).1.tree (d.object st).2 =
      .map ((d.insert st).2.map fun (k, v) =>
        ((d.object st).1.treeTo (depth + 1) k, (d.object st).1.treeTo (depth + 1) v)) := by
    rw [Store.tree, hdepth]
    show Store.treeTo _ _ (.ref (d.insert st).1.cells.size) = _
    rw [Store.treeTo, cells_object]
  rw [htree, Output.summary, Output.sectionSize_map hpfind hplater,
    Output.sectionSize_map hqfind hqlater, hps, hqs]
  rfl

end Document

/-! ## Steps of a job -/

/-- Makes the directories on the way to a file, and writes it. -/
def FileTree.deliver (t : FileTree) (file : FilePath) (contents : ByteArray) :
    Except Error Unit × FileTree :=
  match ensureDirectories file.parent.root file.parent.names t with
  | (.error e, t) => (.error e, t)
  | (.ok (), t) => match t.write file.text contents with
    | .ok t => (.ok (), t)
    | .error e => (.error e, t)

namespace Job

theorem outcome_reading (read : FileTree → Except Error α) (s : Session) :
    outcome (reading read) s = (read s.files, s) := by
  unfold reading
  rw [outcome_bind, outcome_get]
  dsimp only
  cases read s.files <;> rfl

theorem outcome_ofExcept (result : Except Error α) (s : Session) :
    outcome (ofExcept result) s = (result, s) := by
  cases result <;> rfl

theorem outcome_modify (f : Session → Session) (s : Session) :
    outcome (modify f : Job Unit) s = (.ok (), f s) := rfl

theorem outcome_ensureParent (path : FilePath) (s : Session) :
    outcome (ensureParent path) s =
      ((FileTree.ensureDirectories path.parent.root path.parent.names s.files).1,
        { s with files :=
            (FileTree.ensureDirectories path.parent.root path.parent.names s.files).2 }) := by
  unfold ensureParent
  dsimp only
  rw [outcome_bind, outcome_get]
  dsimp only
  rw [outcome_bind, outcome_modify]
  dsimp only
  cases (FileTree.ensureDirectories path.parent.root path.parent.names s.files).1 <;> rfl

theorem outcome_writing (work : FileTree → Except Error FileTree) (s : Session) :
    outcome (writing work) s = match work s.files with
      | .ok files => (.ok (), { s with files })
      | .error e => (.error e, s) := by
  unfold writing
  rw [outcome_bind, outcome_get]
  dsimp only
  cases work s.files <;> rfl

/-- A document that has a text is delivered, and then the line is printed that tells of it. -/
theorem outcome_write {path : FilePath} {format : Format} (st : Store) (d : Document)
    (hformat : Format.ofPath path path.text = .ok format) (s : Session) :
    outcome (write (d.object st).1 (d.object st).2 path) s =
      match Output.renderDocument st d format with
      | .error e => (.error e, s)
      | .ok text => match s.files.deliver path text.toUTF8 with
        | (.ok (), files) =>
          (.ok path, { s with files, printed := s.printed ++ d.announcement path })
        | (.error e, files) => (.error e, { s with files }) := by
  have hrender : Output.renderDocument st d format =
      Output.render (d.object st).1 (d.object st).2 format := rfl
  unfold write FileTree.deliver
  rw [hrender, hformat, outcome_bind, outcome_ofExcept]
  dsimp only
  rw [outcome_bind, outcome_ofExcept]
  -- rendering, making the directories and writing can each fail, in this order
  rcases Output.render (d.object st).1 (d.object st).2 format with e | text
  · rfl
  dsimp only
  rw [outcome_bind, outcome_ensureParent]
  rcases FileTree.ensureDirectories path.parent.root path.parent.names s.files with ⟨e | u, files⟩
  · rfl
  dsimp only
  rw [outcome_bind, outcome_writing]
  dsimp only
  rcases files.write path.text text.toUTF8 with e | written
  · rfl
  dsimp only
  rw [d.summary_object, outcome_bind, outcome_ofExcept]
  rfl

end Job

/-! ## Drafts -/

/-- The document of a manifest, and its text in the format of an output path. This is all that is
done before anything is written. -/
def draft (st : Store) (memory : σ) (generator : Options → Option (Generator σ))
    (source : ManifestSource) (output : String) (options : Except Error Options)
    (files : FileTree) : Except Error (Document × String) := do
  let format ← Format.ofPathText output
  let (st, manifest) ← source.load st files
  let options ← options
  let (result, world) := outcome (Document.build manifest options (generator options))
    { store := st, examples := memory }
  let document ← result
  let text ← Output.renderDocument world.store document format
  return (document, text)

/-- Whether a document can be written depends on the suffix alone, not on how the path is shown. -/
theorem Format.ofPath_eq_ok_iff {p : FilePath} {shown : String} {format : Format} :
    Format.ofPath p shown = .ok format ↔ Format.ofSuffix? p.suffix = some format := by
  unfold Format.ofPath
  cases Format.ofSuffix? p.suffix <;> simp

/-- What a run comes to: without a draft, it ends for the cause that the draft does and leaves no
more than records behind; with one, the text is delivered. -/
theorem outcome_generateWith (st : Store) (memory : σ)
    (generator : Options → Option (Generator σ)) (source : ManifestSource) (output : String)
    (options : Except Error Options) (s : Session) : ∃ log t,
      outcome (Job.generateWith st memory generator source output options) s =
        match draft st memory generator source output options s.files with
        | .error e => (.error e, { s with log })
        | .ok (d, text) => match s.files.deliver (.ofText output) text.toUTF8 with
          | (.ok (), files) => (.ok t,
            { s with files, printed := s.printed ++ d.announcement (.ofText output), log })
          | (.error e, files) => (.error e, { s with files, log }) := by
  -- the draft and the run take the same steps, so what ends one of them ends the other as well
  unfold draft Job.generateWith
  rw [outcome_bind, Job.outcome_ofExcept]
  rcases hformat : Format.ofPathText output with e | format
  · exact ⟨s.log, .null, rfl⟩
  dsimp only
  rw [outcome_bind, Job.outcome_reading]
  rcases source.load st s.files with e | loaded
  · exact ⟨s.log, .null, rfl⟩
  dsimp only
  rw [outcome_bind, Job.outcome_ofExcept]
  rcases options with e | options
  · exact ⟨s.log, .null, rfl⟩
  dsimp only
  rcases hbuild : outcome (Document.build loaded.2 options (generator options))
    { store := loaded.1, examples := memory } with ⟨result, world⟩
  have hrun : (Document.build loaded.2 options (generator options)).run
      { store := loaded.1, examples := memory } = (result, world) := hbuild
  rw [hrun]
  dsimp only
  rw [outcome_bind, Job.outcome_modify]
  dsimp only
  rw [outcome_bind, Job.outcome_ofExcept]
  rcases result with e | d
  · refine ⟨s.log ++ world.log, .null, ?_⟩
    simp only [bind, Except.bind, hbuild]
  dsimp only
  -- from here on there is a document, and what is left is to write it
  have hpath : Format.ofPath (.ofText output) (FilePath.ofText output).text = .ok format :=
    Format.ofPath_eq_ok_iff.mpr (Format.ofPath_eq_ok_iff.mp hformat)
  have hwrite := Job.outcome_write world.store d hpath
    { s with log := s.log ++ world.log }
  refine ⟨s.log ++ world.log, (d.object world.store).1.tree (d.object world.store).2, ?_⟩
  unfold Document.object at hwrite
  rw [outcome_bind, hwrite]
  simp only [bind, Except.bind, hbuild]
  rcases Output.renderDocument world.store d format with e | text
  · rfl
  dsimp only [pure, Except.pure]
  rcases s.files.deliver (.ofText output) text.toUTF8 with ⟨e | u, files⟩
  · rfl
  · rfl

/-! ## Suffixes of output paths -/

/-- The suffix of an output path is an ending of some format, in whatever case. -/
def HasFormat (output : String) : Prop :=
  ∃ format : Format, ∃ ending ∈ format.endings,
    (FilePath.ofText output).suffix.map Char.toLower = ending.toList

instance (output : String) : Decidable (HasFormat output) :=
  decidable_of_iff (Format.ofSuffix? (FilePath.ofText output).suffix).isSome <| by
    simp only [Option.isSome_iff_exists, Format.ofSuffix?_eq_some_iff, HasFormat]

theorem exists_ofPathText {output : String} (h : HasFormat output) :
    ∃ format, Format.ofPathText output = .ok format := by
  obtain ⟨format, hending⟩ := h
  exact ⟨format, Format.ofPath_eq_ok_iff.mpr (Format.ofSuffix?_eq_some_iff.mpr hending)⟩

theorem ofPathText_of_not {output : String} (h : ¬ HasFormat output) :
    Format.ofPathText output = .error (.unsupportedPath (Text.quoted output)) := by
  unfold Format.ofPathText Format.ofPath
  cases hsuffix : Format.ofSuffix? (FilePath.ofText output).suffix with
  | some format => exact absurd ⟨format, Format.ofSuffix?_eq_some_iff.mp hsuffix⟩ h
  | none => rfl

/-! ## Files -/

namespace FileTree

variable {t t' : FileTree} {file : FilePath} {contents : ByteArray}

theorem gains_of_deliver (h : t.deliver file contents = (.ok (), t')) :
    t.Gains t' file contents := by
  unfold deliver at h
  rcases hdirs : ensureDirectories file.parent.root file.parent.names t with ⟨e | u, t₁⟩
  · rw [hdirs] at h
    cases h
  rw [hdirs] at h
  cases hwrite : t₁.write file.text contents with
  | error e => simp [hwrite] at h
  | ok t₂ =>
      simp only [hwrite, Prod.mk.injEq, true_and] at h
      subst h
      exact gains_of_write hdirs hwrite

/-- What is not delivered is refused by the file system, and directories at most are left. -/
theorem addsDirectories_of_deliver {e : Error} (h : t.deliver file contents = (.error e, t')) :
    e.OfFile ∧ t.AddsDirectories t' (Leads file.root file.parent.names) := by
  have hadds := addsDirectories_ensureDirectories file.parent.root file.parent.names t
  unfold deliver at h
  rcases hdirs : ensureDirectories file.parent.root file.parent.names t with ⟨e' | u, t₁⟩
  · rw [hdirs] at h hadds
    cases h
    exact ⟨ofFile_of_ensureDirectories (congrArg Prod.fst hdirs), hadds⟩
  rw [hdirs] at h hadds
  cases hwrite : t₁.write file.text contents with
  | ok t₂ => simp [hwrite] at h
  | error e' =>
      simp only [hwrite, Prod.mk.injEq, Except.error.injEq] at h
      obtain ⟨rfl, rfl⟩ := h
      exact ⟨ofFile_of_write hwrite, hadds⟩

end FileTree

/-! ## Exit codes -/

namespace Error

theorem exitCode?_eq_two_iff (e : Error) : e.exitCode? = some 2 ↔ e.OfFormat := by
  constructor
  · intro h
    unfold exitCode? at h
    split at h
    · exact .path _
    · exact .name _
    all_goals cases h
  · rintro (⟨_⟩ | ⟨_⟩)
    · rfl
    · rfl

theorem OfFile.exitCode? {e : Error} (h : e.OfFile) : e.exitCode? = some 1 := by
  cases h with
  | refused fault path => rfl
  | null => rfl

theorem exitCode?_cases (e : Error) :
    e.exitCode? = none ∨ e.exitCode? = some 1 ∨ e.exitCode? = some 2 := by
  unfold Error.exitCode?
  split <;> simp

end Error

/-- The exit code with which a command ends that comes to a result. There is none if the cause of
a failure is not foreseen. -/
def exitOf? : Except Error Unit → Option Nat
  | .ok () => some 0
  | .error e => e.exitCode?

/-! ## Runs -/

/-- What a run that has a document to write comes to. `draft` is the document and its text, or why
there is none. -/
structure AllOrNothing {α : Type} (output : String) (draft : Except Error (Document × String))
    (before : Session) (result : Except Error α) (after : Session) : Prop where
  /-- A suffix without a format is told of before anything else is looked at. -/
  unsupported : ¬ HasFormat output →
    result = .error (.unsupportedPath (Text.quoted output)) ∧ after = before
  /-- Without a text, the run ends for the cause of that and leaves the files as they were. -/
  failed : ∀ e, draft = .error e →
    result = .error e ∧ after.files = before.files ∧ after.printed = before.printed
  /-- A run that returns has written the whole text, and nothing else. -/
  returned : ∀ a, result = .ok a → ∃ d text, draft = .ok (d, text) ∧
    before.files.Gains after.files (.ofText output) text.toUTF8 ∧
    after.printed = before.printed ++ d.announcement (.ofText output)
  /-- A run that has a text only ends otherwise if the file system refuses it. -/
  refused : ∀ d text e, draft = .ok (d, text) → result = .error e → e.OfFile ∧
    before.files.deliver (.ofText output) text.toUTF8 = (.error e, after.files) ∧
    before.files.AddsDirectories after.files
      (FileTree.Leads (FilePath.ofText output).root (FilePath.ofText output).parent.names) ∧
    after.printed = before.printed

/-- How the command ends that has a document to write, by its exit code. -/
structure Ends (output : String) (draft : Except Error (Document × String)) (before : Session)
    (exit? : Option Nat) (after : Session) : Prop where
  two_iff : exit? = some 2 ↔ ¬ HasFormat output
  two : exit? = some 2 → after = before
  zero : exit? = some 0 → ∃ d text, draft = .ok (d, text) ∧
    before.files.Gains after.files (.ofText output) text.toUTF8 ∧
    after.printed = before.printed ++ d.announcement (.ofText output)
  /-- A failure to load, build or write out is a foreseen one or not, and changes nothing. -/
  failed : ∀ e, draft = .error e → HasFormat output → (exit? = some 1 ∨ exit? = none) ∧
    after.files = before.files ∧ after.printed = before.printed
  drafted : ∀ d text, draft = .ok (d, text) → exit? = some 0 ∨ exit? = some 1

theorem allOrNothing_generateWith (st : Store) (memory : σ)
    (generator : Options → Option (Generator σ)) (source : ManifestSource) (output : String)
    (options : Except Error Options) (s : Session) :
    AllOrNothing output (draft st memory generator source output options s.files) s
      (outcome (Job.generateWith st memory generator source output options) s).1
      (outcome (Job.generateWith st memory generator source output options) s).2 := by
  have hunsupported (h : ¬ HasFormat output) :
      outcome (Job.generateWith st memory generator source output options) s =
        (.error (.unsupportedPath (Text.quoted output)), s) := by
    unfold Job.generateWith
    rw [outcome_bind, Job.outcome_ofExcept, ofPathText_of_not h]
  obtain ⟨log, t, hrun⟩ := outcome_generateWith st memory generator source output options s
  rcases houtcome : outcome (Job.generateWith st memory generator source output options) s
    with ⟨result, after⟩
  rw [houtcome] at hunsupported hrun
  have hunsupported h := Prod.mk.inj (hunsupported h)
  -- there is no draft, or it is not delivered, or it is
  rcases hdraft : draft st memory generator source output options s.files with e | ⟨d, text⟩
  · rw [hdraft] at hrun
    cases hrun
    refine ⟨hunsupported, fun _ he => ?_, nofun, nofun⟩
    cases he
    exact ⟨rfl, rfl, rfl⟩
  rw [hdraft] at hrun
  dsimp only at hrun
  rcases hdeliver : s.files.deliver (.ofText output) text.toUTF8 with ⟨e | u, files⟩
  · rw [hdeliver] at hrun
    cases hrun
    refine ⟨hunsupported, nofun, nofun, fun _ _ _ hd he => ?_⟩
    cases hd
    cases he
    obtain ⟨hfile, hadds⟩ := FileTree.addsDirectories_of_deliver hdeliver
    exact ⟨hfile, hdeliver, hadds, rfl⟩
  · rw [hdeliver] at hrun
    cases hrun
    exact ⟨hunsupported, nofun,
      fun _ _ => ⟨d, text, rfl, FileTree.gains_of_deliver hdeliver, rfl⟩, nofun⟩

/-- Once there is a format, what keeps a text from coming about is not the format. -/
theorem ordinary_draft {memory : σ} {generator : Options → Option (Generator σ)}
    {source : ManifestSource} {output : String} {options : Except Error Options}
    {files : FileTree} (hformat : HasFormat output)
    (hgenerator : ∀ options, ∀ g ∈ generator options, g.IsOrdinary)
    (hoptions : Ordinary options) :
    Ordinary (draft st memory generator source output options files) := by
  obtain ⟨format, hformat⟩ := exists_ofPathText hformat
  have hload : Ordinary (source.load st files) := by
    cases source with
    | file path => exact Manifest.ordinary_read _ _ _
    | value manifest => exact .ok _
    | object manifest => exact .ok _
  refine .bind (hformat ▸ .ok format) fun _ => .bind hload fun loaded =>
    .bind hoptions fun options => .bind ?_ fun d => .bind ?_ fun _ => .pure _
  · exact Document.ordinary_build (hgenerator options) _ _ _
  · exact Output.ordinary_renderDocument _ _ _

theorem AllOrNothing.ends {output : String} {draft : Except Error (Document × String)}
    {before after : Session} {result : Except Error Unit}
    (h : AllOrNothing output draft before result after)
    (hdraft : HasFormat output → Ordinary draft) :
    Ends output draft before (exitOf? result) after := by
  -- the path is the only cause for this exit: neither a draft nor a delivery fails for it
  have htwo : exitOf? result = some 2 ↔ ¬ HasFormat output := by
    constructor
    · intro hexit hformat
      cases result with
      | ok u => cases hexit
      | error e =>
          have he := e.exitCode?_eq_two_iff.mp hexit
          cases hd : draft with
          | error e' =>
              cases (h.failed e' hd).1
              exact hdraft hformat e hd he
          | ok drafted =>
              have hfile := (h.refused drafted.1 drafted.2 e hd rfl).1
              rw [exitOf?, hfile.exitCode?] at hexit
              cases hexit
    · intro hformat
      rw [(h.unsupported hformat).1]
      rfl
  refine ⟨htwo, fun hexit => (h.unsupported (htwo.mp hexit)).2, fun hexit => ?_,
    fun e hd hformat => ?_, fun d text hd => ?_⟩
  · cases result with
    | ok u => exact h.returned u rfl
    | error e =>
        obtain hnone | hone | htwo := e.exitCode?_cases
        · cases hnone.symm.trans hexit
        · cases hone.symm.trans hexit
        · cases htwo.symm.trans hexit
  · obtain ⟨hresult, hkept⟩ := h.failed e hd
    refine ⟨?_, hkept⟩
    subst hresult
    obtain hnone | hone | hbad := e.exitCode?_cases
    · exact .inr hnone
    · exact .inl hone
    · exact absurd hformat (htwo.mp hbad)
  · cases result with
    | ok u => exact .inl rfl
    | error e => exact .inr (h.refused d text e hd rfl).1.exitCode?

/-- What a run comes to does not matter for what it leaves. -/
theorem AllOrNothing.map {β : Type} {output : String}
    {draft : Except Error (Document × String)} {before after : Session} {result : Except Error α}
    (h : AllOrNothing output draft before result after) (f : α → β) :
    AllOrNothing output draft before (result.map f) after := by
  cases result with
  | error e =>
      refine ⟨fun hformat => ?_, fun e' hd => ?_, nofun, fun d text e' hd he => ?_⟩
      · obtain ⟨he, hafter⟩ := h.unsupported hformat
        cases he
        exact ⟨rfl, hafter⟩
      · obtain ⟨he, hkept⟩ := h.failed e' hd
        cases he
        exact ⟨rfl, hkept⟩
      · cases he
        exact h.refused d text e hd rfl
  | ok a =>
      refine ⟨fun hformat => ?_, fun e hd => ?_, fun _ _ => h.returned a rfl, nofun⟩
      · cases (h.unsupported hformat).1
      · cases (h.failed e hd).1

/-! ## The command -/

namespace CommandLine

/-- The draft of what a request asks for. -/
def Request.draft (r : Request) (table : Fields Provider) (output : String) (files : FileTree) :
    Except Error (Document × String) :=
  ApiManifest.draft .empty [] ((ExampleSource.standard table).generator none) (.file r.manifest)
    output (.ok r.options) files

theorem Request.outcome_job (r : Request) (table : Fields Provider) {output : String}
    (houtput : r.output = some output) (s : Session) :
    outcome (r.job table) s =
      ((outcome (Job.generateWith .empty [] ((ExampleSource.standard table).generator none)
        (.file r.manifest) output (.ok r.options)) s).1.map fun _ => (),
      (outcome (Job.generateWith .empty [] ((ExampleSource.standard table).generator none)
        (.file r.manifest) output (.ok r.options)) s).2) := by
  have hjob : r.job table = (do
      let _ ← Job.generateWith .empty [] ((ExampleSource.standard table).generator none)
        (.file r.manifest) output (.ok r.options)) := by
    unfold Request.job
    rw [houtput]
    rfl
  rw [hjob, outcome_bind]
  rcases outcome (Job.generateWith .empty [] ((ExampleSource.standard table).generator none)
    (.file r.manifest) output (.ok r.options)) s with ⟨e | t, after⟩
  · rfl
  · rfl

theorem Request.allOrNothing_job (r : Request) (table : Fields Provider) {output : String}
    (houtput : r.output = some output) (s : Session) :
    AllOrNothing output (r.draft table output s.files) s (outcome (r.job table) s).1
      (outcome (r.job table) s).2 := by
  have hrun := allOrNothing_generateWith .empty []
    ((ExampleSource.standard table).generator none) (.file r.manifest) output (.ok r.options) s
  rw [r.outcome_job table houtput]
  dsimp only
  exact hrun.map fun _ => ()

/-- The examples of the command come from providers, which do not blame the format. -/
theorem Request.ordinary_draft (r : Request) (table : Fields Provider) {output : String}
    (files : FileTree) (hformat : HasFormat output) : Ordinary (r.draft table output files) := by
  refine ApiManifest.ordinary_draft hformat (fun options g hg => ?_) (.ok r.options)
  unfold ExampleSource.generator at hg
  dsimp only at hg
  split at hg
  · cases hg
    exact Providers.isOrdinary_generator _
  · cases hg

end CommandLine

/--
**A document is written as a whole or not at all.**

That holds of every run, whatever its manifest, options and generator are, and so of the command,
whose exit code tells which of the two it was.
-/
theorem all_or_nothing :
    (∀ {σ : Type} (st : Store) (memory : σ) (generator : Options → Option (Generator σ))
      (source : ManifestSource) (output : String) (options : Except Error Options) (s : Session),
      AllOrNothing output (draft st memory generator source output options s.files) s
        (outcome (Job.generateWith st memory generator source output options) s).1
        (outcome (Job.generateWith st memory generator source output options) s).2) ∧
    ∀ (args : List String) (r : CommandLine.Request) (table : Fields Provider) (s : Session),
      CommandLine.parse args = .request r →
        (r.output = none →
          exitOf? (outcome (r.job table) s).1 = none ∧ (outcome (r.job table) s).2 = s) ∧
        ∀ output, r.output = some output →
          Ends output (r.draft table output s.files) s (exitOf? (outcome (r.job table) s).1)
            (outcome (r.job table) s).2 := by
  refine ⟨allOrNothing_generateWith, fun args r table s _ => ⟨fun hnone => ?_, fun output h => ?_⟩⟩
  · have hjob : r.job table = throw .noOutput := by
      unfold CommandLine.Request.job
      rw [hnone]
    rw [hjob]
    exact ⟨rfl, rfl⟩
  · exact (r.allOrNothing_job table h s).ends (r.ordinary_draft table s.files)

/-- A manifest that stands alone in the working directory. -/
def loneManifest : Session where
  files := FileTree.empty.put ["work", "api.yml"] <| some <| String.toUTF8 <|
    "models:\n  thing:\n    path: /things/\x7bid\x7d\n    methods: [get, list]\n"
      ++ "    response: \x7bname: \x7btype: string, required: yes\x7d\x7d\n"

/-- Writes the document over the manifest. -/
def overwriting : CommandLine.Request := ⟨"./api.yml", some "api.yml", { examples := false }, false⟩

/-- Writes the document into directories that are to be made, with a suffix in capital letters. -/
def nesting : CommandLine.Request := ⟨"api.yml", some "out/v1/api.JSON", { seed := some 7 }, true⟩

/-- Names a format that there is not, and no manifest. -/
def misnaming : CommandLine.Request := ⟨"missing.yml", some "api.toml", {}, false⟩

theorem all_or_nothing_loneManifest :
    CommandLine.parse ["--no-ex", "./api.yml", "api.yml"] = .request overwriting ∧
    CommandLine.parse ["api.yml", "-v", "out/v1/api.JSON", "--seed=7"] = .request nesting ∧
    CommandLine.parse ["missing.yml", "api.toml"] = .request misnaming ∧
    (∃ d text, overwriting.draft [] "api.yml" loneManifest.files = .ok (d, text) ∧
      loneManifest.files.Gains (outcome (overwriting.job []) loneManifest).2.files
        (.ofText "api.yml") text.toUTF8) ∧
    (∃ d text, nesting.draft [] "out/v1/api.JSON" loneManifest.files = .ok (d, text) ∧
      loneManifest.files.Gains (outcome (nesting.job []) loneManifest).2.files
        (.ofText "out/v1/api.JSON") text.toUTF8) ∧
    exitOf? (outcome (misnaming.job []) loneManifest).1 = some 2 ∧
    (outcome (misnaming.job []) loneManifest).2 = loneManifest := by
  have hover : CommandLine.parse ["--no-ex", "./api.yml", "api.yml"] = .request overwriting := by
    decide +kernel
  have hnest : CommandLine.parse ["api.yml", "-v", "out/v1/api.JSON", "--seed=7"]
      = .request nesting := by
    decide +kernel
  have hmis : CommandLine.parse ["missing.yml", "api.toml"] = .request misnaming := by
    decide +kernel
  have hoverEnds := (all_or_nothing.2 _ _ [] loneManifest hover).2 _ rfl
  have hnestEnds := (all_or_nothing.2 _ _ [] loneManifest hnest).2 _ rfl
  have hmisEnds := (all_or_nothing.2 _ _ [] loneManifest hmis).2 _ rfl
  obtain ⟨d, text, hd, hgains, -⟩ := hoverEnds.zero (by decide +kernel)
  obtain ⟨d', text', hd', hgains', -⟩ := hnestEnds.zero (by decide +kernel)
  have htwo := hmisEnds.two_iff.mpr (by decide +kernel)
  exact ⟨hover, hnest, hmis, ⟨d, text, hd, hgains⟩, ⟨d', text', hd', hgains'⟩, htwo,
    hmisEnds.two htwo⟩

end ApiManifest
