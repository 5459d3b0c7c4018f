import Qrypt.Drive.Files
import Qrypt.Vfs.RenameRecords

/-!
# Direct uploads

`UploadSource` uploads a source without staging. If the directory has files of the name, or the driver
cannot resume uploads, the source goes to a temporary name first; then the old files are removed and the
new one gets its name. A replacement that fails is rolled back by removing the upload.

* `uploadSource_keeps_file` — when a failed upload leaves an old or the new content
-/

namespace Vfs

open Infra Drive Upload List Function Option

variable {σ : Type} (raw : Driver σ)

/-! ## Names -/

/-- `strconv.FormatInt(n, 36)`. -/
def formatInt36 (n : Int) : Bytes :=
  let digits := (Nat.toDigits 36 n.natAbs).map fun c => UInt8.ofNat c.toNat
  if n < 0 then 45 :: digits else digits

def sourceUploadTemporaryPrefix (name : Bytes) : Bytes := name ++ ascii ".qrypt-upload-"

def sourceUploadTemporaryName (name : Bytes) (now : Int) : Bytes :=
  sourceUploadTemporaryPrefix name ++ formatInt36 now

/-! ## The calls -/

/-- `Driver.List`. -/
def listEntries (parentID : Bytes) : VfsProg σ (Except Err (List Entry)) :=
  ask raw fun _ s => raw.list s.backend parentID

/-- `Driver.Remove`. -/
def removeEntry (entry : Entry) : VfsProg σ (Option Err) :=
  call raw (.remote (.remove entry)) fun _ s => (raw.remove s.backend entry).1

/-- `Driver.PutSource`. -/
def putEntry (req : UploadRequest) : VfsProg σ (Except Err Entry) :=
  call raw (.remote (.putSource req)) fun _ s => (raw.putSource s.backend req).1

/-- Entries are removed one after the other; errors are ignored. -/
def removeEach : List Entry → VfsProg σ Unit
  | [] => pure ()
  | entry :: entries => do
    let _ ← removeEntry raw entry
    removeEach entries

def removeSourceUploadTemporaryFiles (parentID finalName : Bytes) : VfsProg σ Unit := do
  match ← listEntries raw parentID with
  | .error _ => pure ()
  | .ok entries =>
    removeEach raw (entries.filter fun e => !e.isDir && (sourceUploadTemporaryPrefix finalName).isPrefixOf e.name)

/-- `removeSourceUploadNamedTemporary`: the first file of the name. -/
def removeSourceUploadNamedTemporary (parentID uploadName : Bytes) : VfsProg σ Unit := do
  match ← listEntries raw parentID with
  | .error _ => pure ()
  | .ok entries => removeEach raw (entries.find? fun e => !e.isDir && e.name == uploadName).toList

def sourceUploadExisting (parentID name : Bytes) : VfsProg σ (Except Err (List Entry)) := do
  match ← listEntries raw parentID with
  | .error err => pure (.error err)
  | .ok entries => pure (.ok (entries.filter fun e => !e.isDir && e.name == name))

def replaceSourceUploadedEntry (entry : Entry) (finalName : Bytes) : List Entry → VfsProg σ (Except Err Entry)
  | [] => if entry.name ≠ finalName then renameEntry raw entry finalName else pure (.ok { entry with name := finalName })
  | old :: existing => do
    match ← removeEntry raw old with
    | some err => pure (.error err)
    | none => replaceSourceUploadedEntry entry finalName existing

/-- The upload replaces the files of its name, or it is taken back. -/
def finishSourceUpload (entry : Entry) (existing : List Entry) (uploadName name : Bytes) :
    VfsProg σ (Except Err Entry) := do
  if existing ≠ [] ∨ uploadName ≠ name then
    match ← replaceSourceUploadedEntry raw entry name existing with
    | .ok replaced => pure (.ok replaced)
    | .error err =>
      let _ ← removeEntry raw entry
      pure (.error err)
  else pure (.ok entry)

def putSourceAs (parentID uploadName name : Bytes) (existing : List Entry) (source : Source) :
    VfsProg σ (Except Err Entry) := do
  match ← putEntry raw ⟨parentID, uploadName, source⟩ with
  | .error err =>
    if uploadName ≠ name then removeSourceUploadNamedTemporary raw parentID uploadName
    pure (.error err)
  | .ok entry => finishSourceUpload raw entry existing uploadName name

/-- The files of the name are listed, and the source is uploaded beside or instead of them. -/
def uploadSourceOver (resumable : Bool) (path parentID name : Bytes) (source : Source) :
    VfsProg σ (Except Err Entry) := do
  match ← sourceUploadExisting raw parentID name with
  | .error err => pure (.error err)
  | .ok existing =>
    let now ← ask raw fun e _ => e.store.now.1
    let uploadName := if existing ≠ [] ∨ !resumable then sourceUploadTemporaryName name now else name
    run raw (.vis (.restoreDeletedAncestor (dirPath path)))
    run raw (.vis (.cancelDeletedFile path))
    putSourceAs raw parentID uploadName name existing source

def uploadSourceIn (resumable : Bool) (path parentID name : Bytes) (source : Source) :
    VfsProg σ (Except Err Entry) := do
  if !resumable then removeSourceUploadTemporaryFiles raw parentID name
  uploadSourceOver raw resumable path parentID name source

/-- `UploadSource`; `supported` and `resumable` are capabilities of the driver. -/
def uploadSource (supported resumable : Bool) (i : Nat) (path : Bytes) (source : Option Source) :
    VfsProg σ (Except Err Entry) := do
  if !supported then pure (.error (.text "drive: operation unsupported"))
  else
    match source with
    | none => pure (.error (.text "vfs: upload source required"))
    | some source =>
      let path := cleanVirtualPath path
      if path = [47] then pure (.error (.text "vfs: read-only namespace path"))
      else
        locked raw i path do
          match ← parentOf raw path with
          | .error err => pure (.error err)
          | .ok (parent, name) => uploadSourceIn raw resumable path parent.id name source

/-! ## Removing files -/

variable {raw} {s s₁ s₂ : Sys σ} {log log₁ log₂ : Log σ} {cond : Call → Env → Sys σ → Prop}

/-- The call removes the file with the given id. -/
def Removes (raw : Driver σ) (id : Bytes) : Call × Env × Sys σ → Prop
  | (.remote (.remove entry), _, s) => entry.id = id ∧ (raw.remove s.backend entry).1 = none
  | _ => False

/-- The call is a `Rename` of the entry that fails. -/
def RefusedRename (raw : Driver σ) (entry : Entry) : Call × Env × Sys σ → Prop
  | (.remote (.rename e name), _, s) => e = entry ∧ ∃ err, (raw.rename s.backend e name).1 = .error err
  | _ => False

variable {c : Call × Env × Sys σ} {e : Entry} {l : Call} {name : Bytes}

theorem RefusedRename.unique {e' : Entry} (h : RefusedRename raw e c) (h' : RefusedRename raw e' c) : e = e' := by
  unfold RefusedRename at h h'
  split at h
  · exact h.1.symm.trans h'.1
  · exact h.elim

theorem RefusedRename.not_removes (h : RefusedRename raw e c) (id : Bytes) : ¬ Removes raw id c := by
  unfold RefusedRename at h
  split at h
  · intro hremoves
    exact hremoves
  · exact h.elim

/-- The rename of an upload failed, and then the upload was removed. -/
def RolledBack (raw : Driver σ) : Log σ → Prop
  | [] => False
  | c :: log => (∃ entry, RefusedRename raw entry c ∧ ∃ c' ∈ log, Removes raw entry.id c') ∨ RolledBack raw log

theorem rolledBack_append (h : ∀ c ∈ log₁, ∀ entry, ¬ RefusedRename raw entry c) :
    RolledBack raw (log₁ ++ log₂) ↔ RolledBack raw log₂ := by
  induction log₁ with
  | nil => rfl
  | cons c log₁ ih =>
    obtain ⟨hc, h⟩ := forall_mem_cons.mp h
    simp only [cons_append, RolledBack, hc, false_and, exists_false, false_or, ih h]

theorem not_rolledBack (h : ∀ c ∈ log, ∀ entry, ¬ RefusedRename raw entry c) : ¬ RolledBack raw log := by
  induction log with
  | nil => exact id
  | cons c log ih =>
    obtain ⟨hc, h⟩ := forall_mem_cons.mp h
    rintro (⟨entry, hrefused, -⟩ | hrest)
    · exact hc entry hrefused
    · exact ih h hrest

theorem rolledBack_append_right (h : ∀ c ∈ log₂, ∀ entry, ¬ RefusedRename raw entry c)
    (hremoves : ∀ c ∈ log₂, ∀ id, ¬ Removes raw id c) : RolledBack raw (log₁ ++ log₂) ↔ RolledBack raw log₁ := by
  induction log₁ with
  | nil => exact iff_of_false (not_rolledBack h) id
  | cons c log₁ ih =>
    have hlater : ∀ id, (∃ c' ∈ log₁ ++ log₂, Removes raw id c') ↔ ∃ c' ∈ log₁, Removes raw id c' := by
      intro id
      have hnone : ¬ ∃ c' ∈ log₂, Removes raw id c' := fun ⟨c', hc', hremove⟩ => hremoves c' hc' id hremove
      simp only [mem_append, or_and_right, exists_or, hnone, or_false]
    simp only [cons_append, RolledBack, hlater, ih]

variable (st : Files raw)

/-- Calls that at most remove files; those of the given name stay. -/
structure Clears (name : Bytes) (s : Sys σ) (log : Log σ) (s' : Sys σ) : Prop where
  removed : ∀ id, ∀ c ∈ log, Removes raw id c → st.file s'.backend id = none
  kept : ∀ id, (∀ c ∈ log, ¬ Removes raw id c) → st.file s'.backend id = st.file s.backend id
  named : ∀ id f, st.file s.backend id = some f → f.name = name → ∀ c ∈ log, ¬ Removes raw id c
  renames : ∀ c ∈ log, ∀ entry, ¬ RefusedRename raw entry c

namespace Clears

variable {st} {name : Bytes}

theorem append (h₁ : Clears st name s log₁ s₁) (h₂ : Clears st name s₁ log₂ s₂) :
    Clears st name s (log₁ ++ log₂) s₂ where
  removed := by
    intro id c hc hremove
    by_cases hlater : ∃ c' ∈ log₂, Removes raw id c'
    · obtain ⟨c', hc', hremove'⟩ := hlater
      exact h₂.removed id c' hc' hremove'
    · have hlater : ∀ c' ∈ log₂, ¬ Removes raw id c' := fun c' hc' hr => hlater ⟨c', hc', hr⟩
      rcases mem_append.mp hc with hc | hc
      · rw [h₂.kept id hlater]
        exact h₁.removed id c hc hremove
      · exact absurd hremove (hlater c hc)
  kept := by
    intro id hnone
    obtain ⟨hfirst, hlater⟩ := forall_mem_append.mp hnone
    rw [h₂.kept id hlater, h₁.kept id hfirst]
  named := by
    intro id f hf hname
    have hfirst := h₁.named id f hf hname
    exact forall_mem_append.mpr ⟨hfirst, h₂.named id f ((h₁.kept id hfirst).trans hf) hname⟩
  renames := forall_mem_append.mpr ⟨h₁.renames, h₂.renames⟩

theorem file (h : Clears st name s log s₁) {id : Bytes} {f : RemoteFile}
    (hf : st.file s.backend id = some f) (hname : f.name = name) : st.file s₁.backend id = some f := by
  rw [h.kept id (h.named id f hf hname), hf]

theorem was (h : Clears st name s log s₁) {id : Bytes} {f : RemoteFile} (hf : st.file s₁.backend id = some f) :
    st.file s.backend id = some f ∧ ∀ c ∈ log, ¬ Removes raw id c := by
  have hnone : ∀ c ∈ log, ¬ Removes raw id c := by
    intro c hc hremove
    simp [h.removed id c hc hremove] at hf
  exact ⟨(h.kept id hnone).symm.trans hf, hnone⟩

end Clears

def Call.isLocal : Call → Bool
  | .remote _ => false
  | _ => true

theorem not_removes_local (hl : l.isLocal = true) (e : Env) (s : Sys σ) (id : Bytes) : ¬ Removes raw id (l, e, s) := by
  intro h
  unfold Removes at h
  split at h
  · next heq =>
    cases heq
    cases hl
  · exact h

theorem not_refused_local (hl : l.isLocal = true) (e : Env) (s : Sys σ) (entry : Entry) :
    ¬ RefusedRename raw entry (l, e, s) := by
  intro h
  unfold RefusedRename at h
  split at h
  · next heq =>
    cases heq
    cases hl
  · exact h

theorem clears_call {s' : Sys σ}
    (hfile : st.file s'.backend = st.file s.backend) (hremoves : ∀ id, ¬ Removes raw id c)
    (hrenames : ∀ entry, ¬ RefusedRename raw entry c) : Clears st name s [c] s' := by
  refine ⟨?_, ?_, ?_, ?_⟩
  · simp [hremoves]
  · exact fun id _ => congrFun hfile id
  · simp [hremoves]
  · simpa using hrenames

theorem clears_local (hl : l.isLocal = true) (e : Env) (s : Sys σ) :
    Clears st name s [(l, e, s)] (l.apply raw e s) := by
  have hbackend : (l.apply raw e s).backend = s.backend := by
    cases l with
    | remote call => cases hl
    | _ => rfl
  exact clears_call st (by rw [hbackend]) (not_removes_local hl e s) (not_refused_local hl e s)

variable {st}

theorem ensures_removeEntry {entry : Entry} (hother : ∀ f, st.file s.backend entry.id = some f → f.name ≠ name) :
    (removeEntry raw entry).Ensures cond (fun log _ s' => Clears st name s log s' ∧
      ∀ id, (∃ c ∈ log, Removes raw id c) → id = entry.id) s := by
  refine ensures_call ?_
  intro e _
  have hid : ∀ id, Removes raw id (.remote (.remove entry), e, s) → id = entry.id := fun id h => h.1.symm
  refine ⟨⟨?_, ?_, ?_, ?_⟩, ?_⟩
  · intro id c hc hremove
    rw [mem_singleton.mp hc] at hremove
    obtain ⟨rfl, hok⟩ := hremove
    have hfile : st.file (raw.remove s.backend entry).2 = _ := st.remove (Prod.ext hok rfl)
    exact (congrFun hfile entry.id).trans (update_self ..)
  · intro id hnone
    cases hres : (raw.remove s.backend entry).1 with
    | none =>
      have hne : id ≠ entry.id := fun heq => hnone _ mem_cons_self ⟨heq.symm, hres⟩
      have hfile : st.file (raw.remove s.backend entry).2 = _ := st.remove (Prod.ext hres rfl)
      exact (congrFun hfile id).trans (update_of_ne hne ..)
    | some err =>
      have hfile : st.file (raw.remove s.backend entry).2 = _ := st.remove_failed (Prod.ext hres rfl)
      exact congrFun hfile id
  · intro id f hf hname c hc hremove
    rw [mem_singleton.mp hc] at hremove
    rw [hid id hremove] at hf
    exact hother f hf hname
  · exact forall_mem_singleton.mpr fun _ => id
  · rintro id ⟨c, hc, hremove⟩
    rw [mem_singleton.mp hc] at hremove
    exact hid id hremove

theorem ensures_removeEach (st : Files raw) (name : Bytes) (entries : List Entry) (s : Sys σ)
    (hother : ∀ e ∈ entries, ∀ f, st.file s.backend e.id = some f → f.name ≠ name) :
    (removeEach raw entries).Ensures cond (fun log _ s' => Clears st name s log s') s := by
  induction entries generalizing s with
  | nil => exact ⟨by simp, by simp, by simp, by simp⟩
  | cons entry entries ih =>
    obtain ⟨hfirst, hother⟩ := forall_mem_cons.mp hother
    refine Prog.Ensures.bind ((ensures_removeEntry hfirst).mono ?_)
    rintro log _ s₁ ⟨hclears, -⟩
    refine (ih s₁ ?_).mono ?_
    · intro e he f hf
      exact hother e he f (hclears.was hf).1
    · intro log' _ s₂ hrest
      exact hclears.append hrest

theorem temporary_ne {n : Bytes} (h : sourceUploadTemporaryPrefix name <+: n) : n ≠ name := by
  rintro rfl
  have hlength := h.length_le
  have hlong : (sourceUploadTemporaryPrefix n).length = n.length + 14 := length_append
  omega

theorem ensures_removeTemporaryFiles (st : Files raw) (parentID name : Bytes) (s : Sys σ) :
    (removeSourceUploadTemporaryFiles raw parentID name).Ensures cond
      (fun log _ s' => Clears st name s log s') s := by
  refine Prog.Ensures.bind (ensures_call ?_)
  intro e _
  have hasked : Clears st name s [(.ask .other, e, s)] s := clears_local st rfl e s
  cases hlist : raw.list s.backend parentID with
  | error err => exact hasked
  | ok entries =>
    refine (ensures_removeEach st name _ s ?_).mono ?_
    · intro entry hentry f hf
      obtain ⟨hmem, hfilter⟩ := mem_filter.mp hentry
      rw [Bool.and_eq_true, Bool.not_eq_true', isPrefixOf_iff_prefix] at hfilter
      obtain ⟨g, hg, -, hname⟩ := st.list hlist entry hmem hfilter.1
      obtain rfl := some.inj (hf.symm.trans hg)
      rw [hname]
      exact temporary_ne hfilter.2
    · intro log _ s' hclears
      exact hasked.append hclears

theorem ensures_removeNamedTemporary (st : Files raw) {parentID uploadName : Bytes} (hne : uploadName ≠ name) (s : Sys σ) :
    (removeSourceUploadNamedTemporary raw parentID uploadName).Ensures cond
      (fun log _ s' => Clears st name s log s') s := by
  refine Prog.Ensures.bind (ensures_call ?_)
  intro e _
  have hasked : Clears st name s [(.ask .other, e, s)] s := clears_local st rfl e s
  cases hlist : raw.list s.backend parentID with
  | error err => exact hasked
  | ok entries =>
    refine (ensures_removeEach st name _ s ?_).mono ?_
    · intro entry hentry f hf
      have hfound := mem_toList.mp hentry
      have hmem := mem_of_find?_eq_some hfound
      have htest := find?_some hfound
      rw [Bool.and_eq_true, Bool.not_eq_true', beq_iff_eq] at htest
      obtain ⟨g, hg, -, hname⟩ := st.list hlist entry hmem htest.1
      obtain rfl := some.inj (hf.symm.trans hg)
      rwa [hname, htest.2]
    · intro log _ s' hclears
      exact hasked.append hclears

/-! ## The file -/

section Verdict

variable (st) (parentID name content : Bytes)

/-- The directory had a file of the name with this content. -/
def Old (s : Sys σ) (c : Bytes) : Prop := ∃ id, st.file s.backend id = some ⟨parentID, name, c⟩

/-- A complete copy: of an old content, or of the new one. -/
def IsCopy (s : Sys σ) (f : RemoteFile) : Prop :=
  f.parentID = parentID ∧ (f.content = content ∨ Old st parentID name s f.content)

/-- The directory has a copy, under its name or a temporary one. -/
def Kept (s s' : Sys σ) : Prop :=
  ∃ id f, st.file s'.backend id = some f ∧ IsCopy st parentID name content s f ∧
    (f.name = name ∨ sourceUploadTemporaryPrefix name <+: f.name)

/-- A temporary copy from before was not removed. -/
def Spared (s : Sys σ) (log : Log σ) : Prop :=
  ∃ id f, st.file s.backend id = some f ∧ IsCopy st parentID name content s f ∧
    sourceUploadTemporaryPrefix name <+: f.name ∧ ∀ c ∈ log, ¬ Removes raw id c

/-- The file is the only one of its name, and has the new content. -/
def OneFile (s' : Sys σ) (id : Bytes) : Prop :=
  st.file s'.backend id = some ⟨parentID, name, content⟩ ∧
    ∀ id' f, st.file s'.backend id' = some f → f.parentID = parentID → f.name = name → id' = id

/-- What is claimed of an upload. -/
structure UploadVerdict (s : Sys σ) (log : Log σ) (result : Except Err Entry) (s' : Sys σ) : Prop where
  one : ∀ e, result = .ok e → OneFile st parentID name content s' e.id
  kept : ∀ err, result = .error err →
    (((∃ c, Old st parentID name s c) → Kept st parentID name content s s') ↔
      ((∃ c, Old st parentID name s c) → RolledBack raw log → Spared st parentID name content s log))

variable {st parentID name content}

theorem verdict_cleared {err : Err} (h : Clears st name s log s₁) :
    UploadVerdict st parentID name content s log (.error err) s₁ where
  one := by simp
  kept := by
    intro _ _
    refine iff_of_true ?_ ?_
    · rintro ⟨c, id, hold⟩
      exact ⟨id, _, h.file hold rfl, ⟨rfl, .inr ⟨id, hold⟩⟩, .inl rfl⟩
    · intro _ hrolled
      exact absurd hrolled (not_rolledBack h.renames)

/-! ## Replacing the old files -/

/-- What `replaceSourceUploadedEntry` did: the new file got its name, an old file is there, or the old files are gone
and the rename failed. -/
structure ReplaceSpec (st : Files raw) (parentID name uploadName content : Bytes) (entry : Entry) (existing : List Entry)
    (s : Sys σ) (log : Log σ) (result : Except Err Entry) (s' : Sys σ) : Prop where
  done : ∀ renamed, result = .ok renamed → st.file s'.backend renamed.id = some ⟨parentID, name, content⟩ ∧
      ∀ id f, id ≠ renamed.id → st.file s'.backend id = some f →
        id ∉ existing.map (·.id) ∧ id ≠ entry.id ∧ st.file s.backend id = some f
  failed : ∀ err, result = .error err → st.file s'.backend entry.id = some ⟨parentID, uploadName, content⟩ ∧
    (((∃ old ∈ existing, st.file s'.backend old.id = st.file s.backend old.id) ∧
        ∀ c ∈ log, ∀ e, ¬ RefusedRename raw e c) ∨
      ∃ log₀ c, log = log₀ ++ [c] ∧ RefusedRename raw entry c ∧ (∀ c ∈ log₀, ∀ e, ¬ RefusedRename raw e c) ∧
        (∀ old ∈ existing, st.file s'.backend old.id = none) ∧
        (∀ id, (∃ c ∈ log₀, Removes raw id c) → id ∈ existing.map (·.id)) ∧
        ∀ id, id ∉ existing.map (·.id) → st.file s'.backend id = st.file s.backend id)

variable {uploadName : Bytes} {entry : Entry}

theorem ensures_replace (hname : entry.name = uploadName) (hne : uploadName ≠ name) (existing : List Entry)
    (s : Sys σ) (hentry : st.file s.backend entry.id = some ⟨parentID, uploadName, content⟩)
    (hnodup : (existing.map (·.id)).Nodup) (hother : ∀ old ∈ existing, old.id ≠ entry.id) :
    (replaceSourceUploadedEntry raw entry name existing).Ensures cond
      (ReplaceSpec st parentID name uploadName content entry existing s) s := by
  induction existing generalizing s with
  | nil =>
    unfold replaceSourceUploadedEntry
    rw [if_pos (hname ▸ hne)]
    refine ensures_call ?_
    intro e _
    rcases hrename : raw.rename s.backend entry name with ⟨err | renamed, b⟩
    · have hfile := st.rename_failed hrename
      have hb : (Call.apply raw (.remote (.rename entry name)) e s).backend = b := congrArg Prod.snd hrename
      refine ⟨by simp, ?_⟩
      intro err' _
      rw [hb, hfile]
      refine ⟨hentry, .inr ⟨[], _, rfl, ⟨rfl, err, congrArg Prod.fst hrename⟩, by simp, by simp, by simp, ?_⟩⟩
      intro id _
      rfl
    · obtain ⟨hfile, -⟩ := st.rename hrename hentry
      have hb : (Call.apply raw (.remote (.rename entry name)) e s).backend = b := congrArg Prod.snd hrename
      refine ⟨?_, by simp⟩
      intro renamed' hok
      cases hok
      rw [hb, hfile]
      refine ⟨update_self .., ?_⟩
      intro id f hid hf
      rw [update_of_ne hid] at hf
      by_cases hentryid : id = entry.id
      · simp [hentryid, update_self] at hf
      · rw [update_of_ne hentryid] at hf
        exact ⟨by simp, hentryid, hf⟩
  | cons old existing ih =>
    obtain ⟨hold, hother⟩ := forall_mem_cons.mp hother
    obtain ⟨hfresh, hnodup⟩ := nodup_cons.mp hnodup
    refine Prog.Ensures.bind (ensures_call ?_)
    intro e _
    have hnotrename : ∀ e', ¬ RefusedRename raw e' (.remote (.remove old), e, s) := fun _ => id
    rcases hremove : raw.remove s.backend old with ⟨_ | err, b⟩
    · have hfile := st.remove hremove
      have hb : (Call.apply raw (.remote (.remove old)) e s).backend = b := congrArg Prod.snd hremove
      generalize Call.apply raw (.remote (.remove old)) e s = s₀ at hb ⊢
      rw [← hb] at hfile
      have hsame : ∀ id, id ≠ old.id → st.file s₀.backend id = st.file s.backend id := by
        intro id hid
        rw [hfile, update_of_ne hid]
      refine (ih s₀ ((hsame _ hold.symm).trans hentry) hnodup hother).mono ?_
      intro log result s' hspec
      constructor
      · intro renamed hok
        obtain ⟨hnew, hrest⟩ := hspec.done renamed hok
        refine ⟨hnew, ?_⟩
        intro id f hid hf
        obtain ⟨hnot, hne', hf'⟩ := hrest id f hid hf
        have hid' : id ≠ old.id := by
          rintro rfl
          simp [hfile] at hf'
        exact ⟨by simp [hid', hnot], hne', hsame id hid' ▸ hf'⟩
      · intro err herr
        obtain ⟨hnew, hcases⟩ := hspec.failed err herr
        refine ⟨hnew, ?_⟩
        rcases hcases with ⟨⟨o, ho, hstill⟩, hnone⟩ | ⟨log₀, c, rfl, hrefused, hnone, hall, honly, hrest⟩
        · refine .inl ⟨⟨o, mem_cons_of_mem _ ho, hstill.trans (hsame o.id ?_)⟩, ?_⟩
          · intro heq
            exact hfresh (mem_map.mpr ⟨o, ho, heq⟩)
          · exact forall_mem_cons.mpr ⟨hnotrename, hnone⟩
        · refine .inr ⟨(.remote (.remove old), e, s) :: log₀, c, rfl, hrefused, ?_, ?_, ?_, ?_⟩
          · exact forall_mem_cons.mpr ⟨hnotrename, hnone⟩
          · refine forall_mem_cons.mpr ⟨?_, hall⟩
            rw [hrest old.id hfresh, hfile, update_self]
          · rintro id ⟨c', hc', hremoves⟩
            rcases mem_cons.mp hc' with rfl | hc'
            · simp [hremoves.1]
            · exact mem_cons_of_mem _ (honly id ⟨c', hc', hremoves⟩)
          · intro id hid
            rw [map_cons, mem_cons, not_or] at hid
            rw [hrest id hid.2, hsame id hid.1]
    · -- the old file cannot be removed
      have hfile := st.remove_failed hremove
      have hb : (Call.apply raw (.remote (.remove old)) e s).backend = b := congrArg Prod.snd hremove
      refine ⟨by simp, ?_⟩
      intro err' _
      rw [hb, hfile]
      exact ⟨hentry, .inl ⟨⟨old, mem_cons_self, rfl⟩, by simpa using hnotrename⟩⟩

/-- The files of the name, as they were listed. -/
structure Listed (st : Files raw) (parentID name : Bytes) (existing : List Entry) (s : Sys σ) : Prop where
  all : ∀ id f, st.file s.backend id = some f → f.parentID = parentID → f.name = name → id ∈ existing.map (·.id)
  old : ∀ o ∈ existing, ∃ f, st.file s.backend o.id = some f ∧ f.parentID = parentID ∧ f.name = name
  nodup : (existing.map (·.id)).Nodup

theorem listed_filter {entries : List Entry} (hlist : raw.list s.backend parentID = .ok entries) :
    Listed st parentID name (entries.filter fun e => !e.isDir && e.name == name) s := by
  refine ⟨?_, ?_, ?_⟩
  · intro id f hf hparent hname
    obtain ⟨e, he, hdir, rfl, hename⟩ := st.list_all hlist id f hf hparent
    exact mem_map_of_mem (mem_filter.mpr ⟨he, by simp [hdir, hename, hname]⟩)
  · intro o ho
    obtain ⟨hmem, htest⟩ := mem_filter.mp ho
    rw [Bool.and_eq_true, Bool.not_eq_true', beq_iff_eq] at htest
    obtain ⟨f, hf, hparent, hname⟩ := st.list hlist o hmem htest.1
    exact ⟨f, hf, hparent, hname.trans htest.2⟩
  · exact (filter_sublist.map _).nodup (st.list_nodup hlist)

/-- The upload is done: the old files were listed, and the source is there under the upload name. -/
structure Uploaded (st : Files raw) (parentID name uploadName content : Bytes) (entry : Entry) (existing : List Entry)
    (s₁ s₂ : Sys σ) : Prop where
  listed : Listed st parentID name existing s₁
  stored : st.file s₂.backend = update (st.file s₁.backend) entry.id (some ⟨parentID, uploadName, content⟩)
  named : entry.name = uploadName
  place : ∀ g, st.file s₁.backend entry.id = some g → g.parentID = parentID ∧ g.name = uploadName
  replaces : existing ≠ [] → uploadName ≠ name
  temporary : uploadName ≠ name → sourceUploadTemporaryPrefix name <+: uploadName

variable {existing : List Entry} {c₀ : Call × Env × Sys σ}

namespace Uploaded

variable (h : Uploaded st parentID name uploadName content entry existing s₁ s₂)
include h

theorem entry_ne {o : Entry} (ho : o ∈ existing) : o.id ≠ entry.id := by
  obtain ⟨f, hf, -, hname⟩ := h.listed.old o ho
  intro heq
  rw [heq] at hf
  exact h.replaces (ne_nil_of_mem ho) ((h.place f hf).2.symm.trans hname)

theorem file_of_ne {id : Bytes} (hid : id ≠ entry.id) : st.file s₂.backend id = st.file s₁.backend id := by
  rw [h.stored, update_of_ne hid]

theorem stored_entry : st.file s₂.backend entry.id = some ⟨parentID, uploadName, content⟩ := by
  rw [h.stored, update_self]

theorem oneFile (hnone : existing = []) (hsame : uploadName = name) :
    OneFile st parentID name content s₂ entry.id := by
  constructor
  · rw [h.stored_entry, hsame]
  · intro id f hf hparent hname
    by_contra hid
    rw [h.file_of_ne hid] at hf
    have hmem := h.listed.all id f hf hparent hname
    simp [hnone] at hmem

theorem oneFile_replaced {renamed : Entry} {s' : Sys σ} {result : Except Err Entry}
    (hspec : ReplaceSpec st parentID name uploadName content entry existing s₂ log result s')
    (hok : result = .ok renamed) : OneFile st parentID name content s' renamed.id := by
  obtain ⟨hnew, hrest⟩ := hspec.done renamed hok
  refine ⟨hnew, ?_⟩
  intro id f hf hparent hname
  by_contra hid
  obtain ⟨hnot, hne, hf'⟩ := hrest id f hid hf
  rw [h.file_of_ne hne] at hf'
  exact hnot (h.listed.all id f hf' hparent hname)

/-- An old file could not be removed; it is there whether or not the upload is taken back. -/
theorem kept_old (hclears : Clears st name s log s₁) {o : Entry} (ho : o ∈ existing) {s₃ : Sys σ}
    (hstill : st.file s₃.backend o.id = st.file s₂.backend o.id) : Kept st parentID name content s s₃ := by
  obtain ⟨f, hf, hparent, hname⟩ := h.listed.old o ho
  rw [h.file_of_ne (h.entry_ne ho), hf] at hstill
  refine ⟨o.id, f, hstill, ⟨hparent, .inr ⟨o.id, ?_⟩⟩, .inl hname⟩
  rw [(hclears.was hf).1, ← hparent, ← hname]

theorem kept_new (hne : uploadName ≠ name) {s₃ : Sys σ}
    (hstill : st.file s₃.backend entry.id = some ⟨parentID, uploadName, content⟩) :
    Kept st parentID name content s s₃ :=
  ⟨entry.id, _, hstill, ⟨rfl, .inl rfl⟩, .inr (h.temporary hne)⟩

/-- The old files are gone and the upload is taken back: only a temporary copy can be left. -/
theorem kept_iff_spared (hclears : Clears st name s log₁ s₁) {s₃ s₄ : Sys σ}
    (hgone : ∀ o ∈ existing, st.file s₃.backend o.id = none)
    (hrest : ∀ id, id ∉ existing.map (·.id) → st.file s₃.backend id = st.file s₂.backend id)
    (hback : st.file s₄.backend entry.id = none)
    (hkept : ∀ id, id ≠ entry.id → st.file s₄.backend id = st.file s₃.backend id)
    (hlog : ∀ id, (∃ c ∈ log₂, Removes raw id c) → id ∈ existing.map (·.id) ∨ id = entry.id)
    (hentry : ∃ c ∈ log₂, Removes raw entry.id c) :
    Kept st parentID name content s s₄ ↔ Spared st parentID name content s (log₁ ++ log₂) := by
  constructor
  · rintro ⟨id, f, hf, hcopy, hname⟩
    have hid : id ≠ entry.id := by
      rintro rfl
      simp [hback] at hf
    rw [hkept id hid] at hf
    have hnot : id ∉ existing.map (·.id) := by
      intro hmem
      obtain ⟨o, ho, rfl⟩ := mem_map.mp hmem
      simp [hgone o ho] at hf
    rw [hrest id hnot, h.file_of_ne hid] at hf
    obtain ⟨hfirst, hnone⟩ := hclears.was hf
    refine ⟨id, f, hfirst, hcopy, ?_, ?_⟩
    · refine hname.resolve_left ?_
      intro hname
      exact hnot (h.listed.all id f hf hcopy.1 hname)
    · intro c hc hremoves
      rcases mem_append.mp hc with hc | hc
      · exact hnone c hc hremoves
      · rcases hlog id ⟨c, hc, hremoves⟩ with hmem | heq
        · exact hnot hmem
        · exact hid heq
  · rintro ⟨id, f, hf, hcopy, hname, hnone⟩
    have hlater : ∀ c ∈ log₂, ¬ Removes raw id c := fun c hc => hnone c (mem_append_right _ hc)
    have hid : id ≠ entry.id := by
      rintro rfl
      obtain ⟨c, hc, hremoves⟩ := hentry
      exact hlater c hc hremoves
    have hnot : id ∉ existing.map (·.id) := by
      intro hmem
      obtain ⟨o, ho, rfl⟩ := mem_map.mp hmem
      obtain ⟨g, hg, -, hold⟩ := h.listed.old o ho
      obtain rfl := some.inj (hf.symm.trans (hclears.was hg).1)
      exact temporary_ne hname hold
    refine ⟨id, f, ?_, hcopy, .inr hname⟩
    rw [hkept id hid, hrest id hnot, h.file_of_ne hid,
      hclears.kept id fun c hc => hnone c (mem_append_left _ hc), hf]

end Uploaded

theorem rolledBack_iff {c : Call × Env × Sys σ} (hbefore : ∀ c ∈ log₁, ∀ e, ¬ RefusedRename raw e c)
    (hrefused : RefusedRename raw entry c) (hafter : ∀ c ∈ log₂, ∀ e, ¬ RefusedRename raw e c) :
    RolledBack raw (log₁ ++ c :: log₂) ↔ ∃ c' ∈ log₂, Removes raw entry.id c' := by
  rw [rolledBack_append hbefore]
  constructor
  · rintro (⟨e, he, hremoves⟩ | hrest)
    · rwa [hrefused.unique he]
    · exact absurd hrest (not_rolledBack hafter)
  · intro hremoves
    exact .inl ⟨entry, hrefused, hremoves⟩

/-- **The replacement is made or taken back**; nothing is left only if the old files are gone and the upload is taken
back. -/
theorem ensures_finish (hclears : Clears st name s log₁ s₁)
    (h : Uploaded st parentID name uploadName content entry existing s₁ s₂)
    (hremoves : ∀ id, ¬ Removes raw id c₀) (hrenames : ∀ e, ¬ RefusedRename raw e c₀) :
    (finishSourceUpload raw entry existing uploadName name).Ensures cond
      (fun log result s' => UploadVerdict st parentID name content s (log₁ ++ c₀ :: log) result s') s₂ := by
  have hbefore : ∀ log, (∀ c ∈ log, ∀ e, ¬ RefusedRename raw e c) →
      ∀ c ∈ log₁ ++ c₀ :: log, ∀ e, ¬ RefusedRename raw e c := by
    intro log hlog
    exact forall_mem_append.mpr ⟨hclears.renames, forall_mem_cons.mpr ⟨hrenames, hlog⟩⟩
  unfold finishSourceUpload
  split
  case isFalse hnone =>
    rw [not_or, not_not, not_not] at hnone
    refine ⟨?_, by simp⟩
    intro e he
    cases he
    exact h.oneFile hnone.1 hnone.2
  case isTrue hsome =>
    have hne : uploadName ≠ name := hsome.elim h.replaces id
    refine Prog.Ensures.bind ((ensures_replace h.named hne existing s₂ h.stored_entry h.listed.nodup
      fun o ho => h.entry_ne ho).mono ?_)
    intro log result s₃ hspec
    cases result with
    | ok renamed =>
      refine ⟨?_, by simp⟩
      intro e he
      cases he
      exact h.oneFile_replaced hspec rfl
    | error err =>
      obtain ⟨hnew, hcases⟩ := hspec.failed err rfl
      have hother : ∀ f, st.file s₃.backend entry.id = some f → f.name ≠ name := by
        intro f hf
        obtain rfl := some.inj (hnew.symm.trans hf)
        exact hne
      refine Prog.Ensures.bind ((ensures_removeEntry hother).mono ?_)
      rintro log' _ s₄ ⟨hback, hid⟩
      refine ⟨by simp, ?_⟩
      intro _ _
      rw [append_nil]
      have hkept : ∀ id, id ≠ entry.id → st.file s₄.backend id = st.file s₃.backend id := by
        intro id hne
        exact hback.kept id fun c hc hremove => hne (hid id ⟨c, hc, hremove⟩)
      rcases hcases with ⟨⟨o, ho, hstill⟩, hnone⟩ | ⟨log₀, c, rfl, hrefused, hnone, hgone, hlog, hrest⟩
      · -- an old file is still there, and no rename was tried
        refine iff_of_true ?_ ?_
        · intro _
          exact h.kept_old hclears ho ((hkept _ (h.entry_ne ho)).trans hstill)
        · intro _ hrolled
          exact absurd hrolled (not_rolledBack (hbefore _ (forall_mem_append.mpr ⟨hnone, hback.renames⟩)))
      · have hrolled := rolledBack_iff (hbefore log₀ hnone) hrefused hback.renames
        rw [append_assoc, singleton_append, ← cons_append, ← append_assoc, hrolled]
        by_cases hremoved : ∃ c' ∈ log', Removes raw entry.id c'
        · -- the upload is taken back
          have hspared : Kept st parentID name content s s₄ ↔
              Spared st parentID name content s (log₁ ++ c₀ :: (log₀ ++ c :: log')) := by
            obtain ⟨c', hc', hremove⟩ := hremoved
            refine h.kept_iff_spared hclears hgone hrest (hback.removed _ c' hc' hremove) hkept ?_ ?_
            · rintro id ⟨c'', hc'', hremove'⟩
              simp only [mem_cons, mem_append] at hc''
              rcases hc'' with rfl | hc'' | rfl | hc''
              · exact absurd hremove' (hremoves id)
              · exact .inl (hlog id ⟨c'', hc'', hremove'⟩)
              · exact absurd hremove' (hrefused.not_removes id)
              · exact .inr (hid id ⟨c'', hc'', hremove'⟩)
            · exact ⟨c', by simp [hc'], hremove⟩
          rw [append_assoc, cons_append, hspared, imp_iff_right hremoved]
        · have hstill := hback.kept entry.id fun c hc hremove => hremoved ⟨c, hc, hremove⟩
          refine iff_of_true ?_ ?_
          · intro _
            exact h.kept_new hne (hstill.trans hnew)
          · intro _ hremove
            exact absurd hremove hremoved

/-! ## The operation -/

theorem ensures_putEntry {α : Type} {req : UploadRequest} {k : Except Err Entry → VfsProg σ α}
    {R : Log σ → α → Sys σ → Prop}
    (h : ∀ e r b, raw.putSource s.backend req = (r, b) →
      (k r).Ensures cond (fun log => R ((.remote (.putSource req), e, s) :: log)) (s.withBackend b)) :
    ((putEntry raw req).bind k).Ensures cond R s :=
  Prog.Ensures.bind (ensures_call fun e _ => h e _ _ rfl)

section

variable (hclears : Clears st name s log₁ s₁)
include hclears

theorem ensures_putSourceAs (hlisted : Listed st parentID name existing s₁)
    (hreplaces : existing ≠ [] → uploadName ≠ name)
    (htemporary : uploadName ≠ name → sourceUploadTemporaryPrefix name <+: uploadName) (source : Source) :
    (putSourceAs raw parentID uploadName name existing source).Ensures cond
      (fun log result s' => UploadVerdict st parentID name source.content s (log₁ ++ log) result s') s₁ := by
  refine ensures_putEntry ?_
  intro e r b hput
  cases r with
  | error err =>
    have hfailed : Clears st name s₁ [(.remote (.putSource ⟨parentID, uploadName, source⟩), e, s₁)]
        (s₁.withBackend b) := clears_call st (st.putSource_failed hput) (fun _ => id) fun _ => id
    by_cases hne : uploadName ≠ name
    · simp only [if_pos hne]
      refine Prog.Ensures.bind ((ensures_removeNamedTemporary st hne _).mono ?_)
      intro log _ s₂ hremoved
      have hall := (hclears.append hfailed).append hremoved
      simpa using verdict_cleared hall
    · simp only [if_neg hne]
      exact verdict_cleared (hclears.append hfailed)
  | ok entry =>
    obtain ⟨hstored, hname, hplace⟩ := st.putSource hput
    exact ensures_finish hclears ⟨hlisted, hstored, hname, hplace, hreplaces, htemporary⟩ (fun _ => id) fun _ => id

theorem ensures_uploadSourceAs (hlisted : Listed st parentID name existing s₁)
    (resumable : Bool) (now : Int) (source : Source) :
    (putSourceAs raw parentID (if existing ≠ [] ∨ !resumable then sourceUploadTemporaryName name now else name) name
      existing source).Ensures cond
      (fun log result s' => UploadVerdict st parentID name source.content s (log₁ ++ log) result s') s₁ := by
  have htemporary : sourceUploadTemporaryPrefix name <+: sourceUploadTemporaryName name now := prefix_append ..
  split
  · exact ensures_putSourceAs hclears hlisted (fun _ => temporary_ne htemporary) (fun _ => htemporary) source
  case isFalse hnone =>
    rw [not_or, not_not] at hnone
    exact ensures_putSourceAs hclears hlisted (absurd hnone.1) (absurd rfl) source

theorem ensures_local {α β : Type} {l : Call} {result : Env → Sys σ → α} {k : α → VfsProg σ β}
    {R : Log σ → β → Sys σ → Prop} (hk : ∀ e, cond l e s₁ → Clears st name s (log₁ ++ [(l, e, s₁)]) (l.apply raw e s₁) →
      (k (result e s₁)).Ensures cond (fun log => R ((l, e, s₁) :: log)) (l.apply raw e s₁))
    (hl : l.isLocal = true) : ((call raw l result).bind k).Ensures cond R s₁ :=
  Prog.Ensures.bind (ensures_call fun e he => hk e he (hclears.append (clears_local st hl e s₁)))

theorem ensures_uploadSourceOver (resumable : Bool) (path : Bytes) (source : Source) :
    (uploadSourceOver raw resumable path parentID name source).Ensures cond
      (fun log result s' => UploadVerdict st parentID name source.content s (log₁ ++ log) result s') s₁ := by
  refine Prog.Ensures.bind (ensures_local hclears (fun e₁ _ hclears => ?_) rfl)
  cases hlist : raw.list s₁.backend parentID with
  | error err => exact verdict_cleared hclears
  | ok entries =>
    have hlisted : Listed st parentID name _ s₁ := listed_filter hlist
    refine Prog.Ensures.bind (ensures_call fun e₂ _ => ?_)
    have hclears := hclears.append (clears_local st (l := .ask .other) rfl e₂ _)
    refine ensures_local hclears (fun e₃ _ hclears => ?_) rfl
    refine ensures_local hclears (fun e₄ _ hclears => ?_) rfl
    refine (ensures_uploadSourceAs hclears ⟨hlisted.all, hlisted.old, hlisted.nodup⟩ resumable _ source).mono ?_
    intro log result s' hverdict
    simpa using hverdict

theorem ensures_uploadSourceIn (resumable : Bool) (path : Bytes) (source : Source) :
    (uploadSourceIn raw resumable path parentID name source).Ensures cond
      (fun log result s' => UploadVerdict st parentID name source.content s (log₁ ++ log) result s') s₁ := by
  unfold uploadSourceIn
  split
  · refine Prog.Ensures.bind ((ensures_removeTemporaryFiles st parentID name s₁).mono ?_)
    intro log _ s₂ hremoved
    refine (ensures_uploadSourceOver (hclears.append hremoved) resumable path source).mono ?_
    intro log' result s' hverdict
    simpa using hverdict
  · exact ensures_uploadSourceOver hclears resumable path source

end

theorem UploadVerdict.append_local {result : Except Err Entry} {l : Call} (hl : l.isLocal = true) (e : Env)
    (h : UploadVerdict st parentID name content s log result s₁) :
    UploadVerdict st parentID name content s (log ++ [(l, e, s₁)]) result (l.apply raw e s₁) := by
  have hbackend : (l.apply raw e s₁).backend = s₁.backend := by
    cases l with
    | remote call => cases hl
    | _ => rfl
  have hrolled : RolledBack raw (log ++ [(l, e, s₁)]) ↔ RolledBack raw log := by
    refine rolledBack_append_right ?_ ?_
    · simpa using not_refused_local hl e s₁
    · simpa using not_removes_local hl e s₁
  have hspared : Spared st parentID name content s (log ++ [(l, e, s₁)]) ↔
      Spared st parentID name content s log := by
    simp [Spared, or_imp, forall_and, not_removes_local hl e s₁]
  refine ⟨?_, ?_⟩
  · intro entry hok
    simpa only [OneFile, hbackend] using h.one entry hok
  · intro err herr
    simpa only [Kept, hbackend, hrolled, hspared] using h.kept err herr

/-- The answer to the question for the directory. -/
def ParentIs (parentID : Bytes) : Call → Env → Sys σ → Prop
  | .ask .parent, e, _ => ∀ parent, e.resolve = .ok parent → parent.id = parentID
  | _, _, _ => True

theorem ensures_uploadSource (supported resumable : Bool) (i : Nat) (path : Bytes) (source : Option Source)
    (hlock : s.locks (cleanVirtualPath path) = none) :
    (uploadSource raw supported resumable i path source).Ensures (ParentIs parentID)
      (fun log result s' => UploadVerdict st parentID (splitName (cleanVirtualPath path)) (source.elim [] (·.content))
        s log result s') s := by
  have hrefused : ∀ err : Err, UploadVerdict st parentID (splitName (cleanVirtualPath path))
      (source.elim [] (·.content)) s [] (.error err) s := by
    intro err
    exact verdict_cleared ⟨by simp, by simp, by simp, by simp⟩
  unfold uploadSource
  split
  · exact hrefused _
  · cases source with
    | none => exact hrefused _
    | some source =>
      dsimp only
      split
      · exact hrefused _
      · refine Prog.Ensures.bind ⟨by simp [hlock], ?_⟩
        intro e₀ _
        have hclears : Clears st (splitName (cleanVirtualPath path)) s _ _ :=
          clears_local st (l := .lock i (cleanVirtualPath path)) rfl e₀ s
        refine Prog.Ensures.bind (Prog.Ensures.bind (ensures_call ?_))
        intro e₁ hparent
        have hclears := hclears.append (clears_local st (l := .ask .parent) rfl e₁ _)
        dsimp only
        cases hresolve : e₁.resolve with
        | error err =>
          refine Prog.Ensures.bind (ensures_call ?_)
          intro e₂ _
          exact (verdict_cleared hclears).append_local (l := .unlock (cleanVirtualPath path)) rfl e₂
        | ok parent =>
          obtain rfl := hparent parent hresolve
          refine (ensures_uploadSourceIn hclears resumable _ source).mono ?_
          intro log result s₁ hverdict
          refine Prog.Ensures.bind (ensures_call ?_)
          intro e₂ _
          have hdone := hverdict.append_local (l := .unlock (cleanVirtualPath path)) rfl e₂
          simp only [append_assoc, singleton_append] at hdone
          exact hdone

end Verdict

/-- **A failed upload leaves an old or the new content exactly if it is not rolled back after the old files are
gone; a successful one leaves exactly one file, with the new content.** -/
theorem uploadSource_keeps_file (raw : Driver σ) (st : Files raw) (s : Sys σ) (env : Nat → Env)
    (supported resumable : Bool) (i : Nat) (path : Bytes) (source : Option Source) (parentID : Bytes)
    (hlock : s.locks (cleanVirtualPath path) = none)
    (henv : (uploadSource raw supported resumable i path source).Along env (ParentIs parentID) 0 s) :
    ∃ r, (uploadSource raw supported resumable i path source).exec env 0 s = some r ∧
      UploadVerdict st parentID (splitName (cleanVirtualPath path)) (source.elim [] (·.content)) s r.log r.result
        r.state :=
  (ensures_uploadSource supported resumable i path source hlock).exec henv

def folderA (renameFails : Bool) : Sys Folder where
  backend := { files := (∅ : AList fun _ : Bytes => Bytes).insert (ascii "a") (ascii "old"), renameFails := renameFails }

def answersRoot : Env where
  resolve := .ok ⟨Folder.rootID, [], [], true, 0, none⟩

def newSource : Source := { size := 3, content := ascii "new" }

theorem parentIs_answersRoot (l : Call) (s : Sys Folder) : ParentIs Folder.rootID l answersRoot s := by
  unfold ParentIs
  split
  · next heq =>
    intro parent hparent
    cases hparent
    rfl
  · trivial

theorem uploadSource_keeps_file_folder :
    ∃ r, (uploadSource folder true true 0 (ascii "/a") (some newSource)).exec (fun _ => answersRoot) 0
        (folderA false) = some r ∧
      UploadVerdict folderFiles Folder.rootID (splitName (cleanVirtualPath (ascii "/a"))) (ascii "new") (folderA false)
        r.log r.result r.state := by
  refine uploadSource_keeps_file folder folderFiles (folderA false) _ true true 0 (ascii "/a") (some newSource)
    Folder.rootID rfl ?_
  exact Prog.along_of_forall (fun _ l s => parentIs_answersRoot l s) _ 0 _

/-- The rename to the final name fails: the old file is removed before it, and the new one after it. -/
theorem uploadSource_loses_file :
    ((uploadSource folder true true 0 (ascii "/a") (some newSource)).exec (fun _ => answersRoot) 0
        (folderA true)).map (fun r => (r.result, r.state.backend.files.entries)) =
      some (.error (.text "drive: rename refused"), []) := by
  decide +kernel

end Vfs
