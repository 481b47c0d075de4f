import ApiManifest.FileTree
import ApiManifest.Proofs.Returns

/-!
# What writing a file changes

A file is written in two steps: the directories on the way to it are made, unless they are there,
and then it is put in its place. Neither step takes a directory away, so a path that leads to a
place goes on leading there, and this is what keeps the account of the changes together: nothing
changes but the place of the file, and places of directories where nothing was.
-/

namespace ApiManifest

/-- The causes that lie in a path. -/
inductive Error.OfFile : Error → Prop
  | refused (fault : FileFault) (path : String) : OfFile (.file fault path)
  | null : OfFile .nullInPath

namespace FileTree

variable {t t₁ t₂ : FileTree} {place other : List String} {path : String}

/-! ## Places -/

theorem lookup_put (t : FileTree) (place other : List String) (contents : Option ByteArray) :
    (t.put place contents).entries.lookup other =
      if other = place then some contents else t.entries.lookup other := by
  unfold put
  dsimp only
  induction t.entries with
  | nil =>
      by_cases h : other = place
      · simp [h]
      · simp [List.lookup_cons, h, beq_false_of_ne h]
  | cons e rest ih =>
      obtain ⟨key, old⟩ := e
      by_cases he : key = place
      · by_cases h : other = place
        · simp_all
        · simp_all [List.lookup_cons, beq_false_of_ne h]
      · by_cases h : other = key
        · simp_all
        · simp_all [List.lookup_cons, beq_false_of_ne h]

theorem at?_put_of_ne (contents : Option ByteArray) (h : other ≠ place) :
    (t.put place contents).at? other = t.at? other := by
  simp only [at?, lookup_put, if_neg h]

theorem at?_put_none (t : FileTree) (place : List String) :
    (t.put place none).at? place = .directory := by
  simp [at?, lookup_put]

/-- The outermost directory has no file in its place. -/
theorem at?_put_some {contents : ByteArray} (h : t.at? place ≠ .directory) :
    (t.put place (some contents)).at? place = .file contents := by
  have hplace : place ≠ [] := by
    rintro rfl
    exact h rfl
  simp [at?, lookup_put, hplace]

/-! ## Where paths lead -/

/-- Where a directory was, there is one. -/
def KeepsDirectories (t₁ t₂ : FileTree) : Prop :=
  ∀ place, t₁.at? place = .directory → t₂.at? place = .directory

theorem keepsDirectories_put (contents : Option ByteArray) (h : t.at? place ≠ .directory) :
    t.KeepsDirectories (t.put place contents) := by
  intro other hother
  have hne : other ≠ place := by
    rintro rfl
    exact h hother
  rw [at?_put_of_ne contents hne]
  exact hother

theorem KeepsDirectories.walk (h : t₁.KeepsDirectories t₂) (names : List String)
    {start : List String} (hwalk : t₁.walk start names = .ok place) :
    t₂.walk start names = .ok place := by
  induction names generalizing start with
  | nil => exact hwalk
  | cons name rest ih =>
      unfold FileTree.walk at hwalk ⊢
      by_cases hhere : name = "" ∨ name = "."
      · rw [if_pos hhere] at hwalk ⊢
        exact ih hwalk
      by_cases hup : name = ".."
      · rw [if_neg hhere, if_pos hup] at hwalk ⊢
        exact ih hwalk
      rw [if_neg hhere, if_neg hup] at hwalk ⊢
      cases hkind : t₁.at? (start ++ [name]) with
      | missing => simp [hkind] at hwalk
      | file contents => simp [hkind] at hwalk
      | directory =>
          rw [hkind] at hwalk
          rw [h _ hkind]
          exact ih hwalk

/-- A path goes on leading where it led. -/
theorem KeepsDirectories.resolve (h : t₁.KeepsDirectories t₂)
    (hpath : t₁.resolve path = .ok place) : t₂.resolve path = .ok place := by
  unfold FileTree.resolve at hpath ⊢
  by_cases hempty : path = ""
  · rw [if_pos hempty] at hpath
    cases hpath
  rw [if_neg hempty] at hpath ⊢
  dsimp only at hpath ⊢
  cases hwalk : t₁.walk (if path.startsWith "/" then [] else workingDirectory)
      ((Text.splitAt '/' path.toList).map String.ofList).dropLast with
  | error fault =>
      rw [hwalk] at hpath
      cases hpath
  | ok directory =>
      rw [hwalk] at hpath
      rw [h.walk _ hwalk]
      exact hpath

/-! ## Making directories -/

/-- Directories were made, in places where nothing was, to which paths of some lead. -/
def AddsDirectories (t₁ t₂ : FileTree) (dirs : FilePath → Prop) : Prop :=
  ∀ place, t₂.at? place = t₁.at? place ∨
    t₁.at? place = .missing ∧ t₂.at? place = .directory ∧
      ∃ dir, dirs dir ∧ t₂.resolve dir.text = .ok place

namespace AddsDirectories

variable {dirs more : FilePath → Prop}

theorem refl (t : FileTree) (dirs : FilePath → Prop) : t.AddsDirectories t dirs :=
  fun _ => .inl rfl

theorem keepsDirectories (h : t₁.AddsDirectories t₂ dirs) : t₁.KeepsDirectories t₂ := by
  intro place hplace
  obtain hsame | ⟨hmissing, -, -⟩ := h place
  · rw [hsame, hplace]
  · rw [hplace] at hmissing
    cases hmissing

theorem mono (h : t₁.AddsDirectories t₂ dirs) (hdirs : ∀ dir, dirs dir → more dir) :
    t₁.AddsDirectories t₂ more := by
  intro place
  obtain hsame | ⟨hmissing, hthere, dir, hdir, hplace⟩ := h place
  · exact .inl hsame
  · exact .inr ⟨hmissing, hthere, dir, hdirs dir hdir, hplace⟩

theorem trans (h₁ : t.AddsDirectories t₁ dirs) (h₂ : t₁.AddsDirectories t₂ dirs) :
    t.AddsDirectories t₂ dirs := by
  intro place
  obtain hsame₂ | ⟨hmissing₂, hthere₂, hnew⟩ := h₂ place
  · rw [hsame₂]
    obtain hsame₁ | ⟨hmissing₁, hthere₁, dir, hdir, hplace⟩ := h₁ place
    · exact .inl hsame₁
    · exact .inr ⟨hmissing₁, hthere₁, dir, hdir, h₂.keepsDirectories.resolve hplace⟩
  · obtain hsame₁ | ⟨-, hthere₁, -⟩ := h₁ place
    · exact .inr ⟨hsame₁ ▸ hmissing₂, hthere₂, hnew⟩
    · rw [hthere₁] at hmissing₂
      cases hmissing₂

end AddsDirectories

/-- Putting a directory where nothing was. -/
theorem addsDirectories_put {dirs : FilePath → Prop} {dir : FilePath} (hdir : dirs dir)
    (hplace : t.resolve dir.text = .ok place) (hmissing : t.at? place = .missing) :
    t.AddsDirectories (t.put place none) dirs := by
  have hkeep : t.KeepsDirectories (t.put place none) :=
    keepsDirectories_put none (by rw [hmissing]; exact nofun)
  intro other
  by_cases h : other = place
  · subst h
    exact .inr ⟨hmissing, at?_put_none t other, dir, hdir, hkeep.resolve hplace⟩
  · exact .inl (at?_put_of_ne none h)

theorem of_faultAt_eq_ok {α : Type} {x : Except FileFault α} {a : α}
    (h : faultAt path x = .ok a) : x = .ok a := by
  cases x with
  | error fault => cases h
  | ok b =>
      cases h
      rfl

theorem ofFile_of_faultAt {α : Type} {x : Except FileFault α} {e : Error}
    (h : faultAt path x = .error e) : e.OfFile := by
  cases x with
  | error fault =>
      cases h
      exact .refused fault path
  | ok b => cases h

theorem ofFile_of_checkPath {e : Error} (h : checkPath path = .error e) : e.OfFile := by
  unfold checkPath at h
  split at h
  · cases h
    exact .null
  · cases h

/-- What an operation on a path fails with. -/
theorem ofFile_of_operation {α : Type} {x : Except FileFault α} {e : Error}
    (h : (checkPath path >>= fun _ => faultAt path x) = .error e) : e.OfFile := by
  cases hcheck : checkPath path with
  | error e' =>
      rw [hcheck] at h
      cases h
      exact ofFile_of_checkPath hcheck
  | ok u =>
      rw [hcheck] at h
      exact ofFile_of_faultAt h

theorem makeDirectory_spec (h : t.makeDirectory path = .ok t₁) :
    ∃ place, t.resolve path = .ok place ∧ t.at? place = .missing ∧ t₁ = t.put place none := by
  obtain ⟨_, -, h⟩ := result_bind_iff.mp h
  obtain ⟨place, hplace, h⟩ := result_bind_iff.mp (of_faultAt_eq_ok h)
  split at h
  · next hmissing =>
    cases h
    exact ⟨place, hplace, hmissing, rfl⟩
  · cases h

theorem ofFile_of_makeDirectory {e : Error} (h : t.makeDirectory path = .error e) : e.OfFile :=
  ofFile_of_operation h

theorem addsDirectories_of_makeDirectory {dirs : FilePath → Prop} {dir : FilePath}
    (hdir : dirs dir) (h : t.makeDirectory dir.text = .ok t₁) : t.AddsDirectories t₁ dirs := by
  obtain ⟨place, hplace, hmissing, rfl⟩ := makeDirectory_spec h
  exact addsDirectories_put hdir hplace hmissing

/-! ## The directories on the way -/

/-- The directory leads to the one that the names lead to, or is that one. -/
def Leads (root : String) (names : List String) (dir : FilePath) : Prop :=
  dir.root = root ∧ dir.names <+: names

theorem leads_self (root : String) (names : List String) : Leads root names ⟨root, names⟩ :=
  ⟨rfl, List.prefix_rfl⟩

theorem Leads.of_dropLast {root : String} {names : List String} {dir : FilePath}
    (h : Leads root names.dropLast dir) : Leads root names dir :=
  ⟨h.1, h.2.trans (List.dropLast_prefix names)⟩

theorem ensureDirectory_spec {dirs : FilePath → Prop} {dir : FilePath} (hdir : dirs dir)
    (h : t.ensureDirectory dir.text = .ok t₁) : t.AddsDirectories t₁ dirs := by
  unfold ensureDirectory at h
  split at h
  · next hmake =>
    cases h
    exact addsDirectories_of_makeDirectory hdir hmake
  · split at h
    · cases h
      exact .refl t dirs
    · cases h

theorem ofFile_of_ensureDirectory {e : Error} (h : t.ensureDirectory path = .error e) :
    e.OfFile := by
  unfold ensureDirectory at h
  split at h
  · cases h
  · next hmake =>
    split at h
    · cases h
    · cases h
      exact ofFile_of_makeDirectory hmake

/-- **Only directories on the way are made, whether or not all of them can be.** -/
theorem addsDirectories_ensureDirectories (root : String) (names : List String) (t : FileTree) :
    t.AddsDirectories (ensureDirectories root names t).2 (Leads root names) := by
  fun_induction ensureDirectories root names t with
  | case1 names t _ t₁ hmake => exact addsDirectories_of_makeDirectory (leads_self root names) hmake
  | case2 => exact .refl _ _
  | case3 names t _ _ _ _ e t₁ hall ih =>
      rw [hall] at ih
      exact ih.mono fun _ => Leads.of_dropLast
  | case4 names t _ _ _ _ t₁ hall t₂ hlast ih =>
      rw [hall] at ih
      exact (ih.mono fun _ => Leads.of_dropLast).trans
        (ensureDirectory_spec (leads_self root names) hlast)
  | case5 names t _ _ _ _ t₁ hall e hlast ih =>
      rw [hall] at ih
      exact ih.mono fun _ => Leads.of_dropLast
  | case6 => exact .refl _ _
  | case7 => exact .refl _ _

theorem ofFile_of_ensureDirectories {root : String} {names : List String} {t : FileTree}
    {e : Error} (h : (ensureDirectories root names t).1 = .error e) : e.OfFile := by
  fun_induction ensureDirectories root names t with
  | case1 => cases h
  | case2 =>
      cases h
      exact .refused _ _
  | case3 names t _ _ _ _ e' t₁ hall ih =>
      rw [hall] at ih
      exact ih h
  | case4 => cases h
  | case5 names t _ _ _ _ t₁ hall e' hlast ih =>
      cases h
      exact ofFile_of_ensureDirectory hlast
  | case6 => cases h
  | case7 names t _ e' _ hmake _ =>
      cases h
      exact ofFile_of_makeDirectory hmake

/-! ## Writing a file -/

theorem write_spec {contents : ByteArray} (h : t.write path contents = .ok t₁) :
    ∃ place, t.resolve path = .ok place ∧ t.at? place ≠ .directory ∧
      t₁ = t.put place (some contents) := by
  obtain ⟨_, -, h⟩ := result_bind_iff.mp h
  obtain ⟨place, hplace, h⟩ := result_bind_iff.mp (of_faultAt_eq_ok h)
  split at h
  · cases h
  · next hfile =>
    cases h
    exact ⟨place, hplace, hfile, rfl⟩

theorem ofFile_of_write {contents : ByteArray} {e : Error}
    (h : t.write path contents = .error e) : e.OfFile := ofFile_of_operation h

/-- What was written can be read. -/
theorem read_of_write {contents : ByteArray} (h : t.write path contents = .ok t₁) :
    t₁.read path = .ok contents := by
  obtain ⟨place, hplace, hfile, rfl⟩ := write_spec h
  obtain ⟨_, hcheck, -⟩ := result_bind_iff.mp h
  have hresolve := (keepsDirectories_put (some contents) hfile).resolve hplace
  unfold read
  rw [hcheck]
  simp [hresolve, at?_put_some hfile, faultAt, bind, Except.bind, pure, Except.pure]

/-- A file tree has gained a file: the path leads to one with the contents, and anything else is
as it was, but for directories that were missing on the way to the file. -/
structure Gains (before after : FileTree) (path : FilePath) (contents : ByteArray) : Prop where
  reads : after.read path.text = .ok contents
  keeps : ∀ place, after.resolve path.text ≠ .ok place →
    after.at? place = before.at? place ∨
      before.at? place = .missing ∧ after.at? place = .directory ∧
        ∃ dir, Leads path.root path.parent.names dir ∧ after.resolve dir.text = .ok place

/-- **Writing a file into a directory that is ensured adds it and nothing else.** -/
theorem gains_of_write {file : FilePath} {contents : ByteArray}
    (hdirs : ensureDirectories file.parent.root file.parent.names t = (.ok (), t₁))
    (hwrite : t₁.write file.text contents = .ok t₂) : t.Gains t₂ file contents := by
  have hadds := addsDirectories_ensureDirectories file.parent.root file.parent.names t
  rw [hdirs] at hadds
  refine ⟨read_of_write hwrite, fun place hother => ?_⟩
  obtain ⟨filePlace, hfilePlace, hfile, rfl⟩ := write_spec hwrite
  have hkeep := keepsDirectories_put (some contents) hfile
  have hne : place ≠ filePlace := by
    rintro rfl
    exact hother (hkeep.resolve hfilePlace)
  rw [at?_put_of_ne _ hne]
  obtain hsame | ⟨hmissing, hthere, dir, hdir, hplace⟩ := hadds place
  · exact .inl hsame
  · exact .inr ⟨hmissing, hthere, dir, hdir, hkeep.resolve hplace⟩

end FileTree
end ApiManifest
