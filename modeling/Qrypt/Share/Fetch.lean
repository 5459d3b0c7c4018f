import Qrypt.Infra.Number
import Qrypt.Vfs.Paths

/-!
# Downloading a share

`pkg/core/share_fetch.go`: the entries of a share, or those a save has put into the account, are downloaded into
a directory, each under the name its publisher gave it.

* `confined_iff` — the files that are opened are children of the directory, a different one for each entry, for
  every directory and every run exactly if each name is a single element and the names are different
-/

namespace Share

open Infra Upload Vfs List

/-! ## Targets -/

/-- `shareSavedEntry`. -/
structure SavedEntry where
  name : Bytes
  size : Int := 0
  remoteID : Bytes := []
  errorCode : Bytes := []
  errorMessage : Bytes := []
  deriving DecidableEq

/-- `drive.ShareEntry`, as far as it is read. -/
structure Entry where
  id : Bytes
  name : Bytes
  size : Int

/-- `shareFetchTarget`; `direct` stands for a download URL. -/
structure Target where
  name : Bytes
  size : Int
  remoteID : Bytes
  direct : Bool
  deriving DecidableEq

/-- What the provider lists: the selected entries and the number of download URLs, or an error. -/
structure Listing where
  entries : List Entry
  downloads : Nat

/-- The errors of a download; `provider` is the text of a driver's or a file system's error. -/
inductive FetchError where
  | noRemoteID (name : Bytes)
  | noneSaved
  | otherTargets (got want : Nat)
  | singleFile
  | provider (text : Bytes)

/-- The text of an error; quotes in names are not escaped. -/
def FetchError.text : FetchError → Bytes
  | .noRemoteID name => ascii "core: saved entry \"" ++ name ++ ascii "\" has no remote id to download"
  | .noneSaved => ascii "the save phase produced no downloadable entry"
  | .otherTargets got want =>
    ascii "core: provider returned " ++ decimal got ++ ascii " download targets for " ++ decimal want ++
      ascii " entries"
  | .singleFile =>
    ascii "task: invalid operation: a single-file download destination needs exactly one selected entry"
  | .provider text => text

def fetchTargets (saved : List SavedEntry) (listing : Except FetchError Listing) (fromSave : Bool) :
    Except FetchError (List Target) :=
  if fromSave then
    let kept := saved.filter fun s => s.errorCode = []
    match kept.find? fun s => s.remoteID = [] with
    | some s => .error (.noRemoteID s.name)
    | none =>
      if kept = [] then .error .noneSaved
      else .ok (kept.map fun s => { name := s.name, size := s.size, remoteID := s.remoteID, direct := false })
  else
    listing.bind fun l =>
      if l.downloads ≠ l.entries.length then .error (.otherTargets l.downloads l.entries.length)
      else .ok (l.entries.map fun e => { name := e.name, size := e.size, remoteID := e.id, direct := true })

/-! ## Destinations -/

/-- `shareFetchDestination`; its base is not empty. -/
structure Destination where
  mount : Bytes
  base : Bytes
  single : Bool
  base_ne : base ≠ []

def offlineVirtualPath (isNamespace : Bool) (mountName dir : Bytes) : Bytes :=
  let dir := cleanVirtualPath dir
  if !isNamespace then dir else if dir = [47] then 47 :: mountName else 47 :: mountName ++ dir

theorem offlineVirtualPath_ne_nil (isNamespace : Bool) (mountName dir : Bytes) :
    offlineVirtualPath isNamespace mountName dir ≠ [] := by
  unfold offlineVirtualPath
  dsimp only
  split_ifs
  · exact cons_ne_nil _ _
  · exact cons_ne_nil _ _
  · exact cons_ne_nil _ _

/-- `fetchDestination`: `raw` is the text without surrounding blanks, `isDir` looks a path up. -/
def fetchDestination (raw mount dir : Bytes) (isNamespace : Bool) (isDir : Bytes → Bool) : Option Destination :=
  if hraw : raw = [] then none
  else
    let slash : Bool := raw.getLast? = some 47
    if mount = [] then some { mount := mount, base := raw, single := !(slash || isDir raw), base_ne := hraw }
    else
      let base := offlineVirtualPath isNamespace mount dir
      some { mount := mount, base := base, single := !(slash || isDir base),
             base_ne := offlineVirtualPath_ne_nil isNamespace mount dir }

namespace Destination

variable (d : Destination)

def trimRight (path : Bytes) : Bytes := (path.reverse.dropWhile (· = 47)).reverse

/-- The path that `writer` opens. -/
def path (name : Bytes) : Bytes :=
  if d.single then d.base
  else if d.mount ≠ [] then trimRight d.base ++ 47 :: name
  else joinPath d.base name

/-- The file that is opened: the file system cleans the paths of a mount. -/
def file (name : Bytes) : Bytes := if d.mount ≠ [] then cleanVirtualPath (d.path name) else d.path name

/-- The file is a child of the directory. -/
def IsChild (file : Bytes) : Prop := ∃ name, PlainElem name ∧ file = d.file name

end Destination

/-! ## Runs -/

/-- What happens to a target: the file cannot be opened, or bytes are written, perhaps not all. -/
structure Answer where
  openErr : Option FetchError := none
  written : Int := 0
  transferErr : Option FetchError := none

def shareTransferKey (name remoteID : Bytes) : Bytes :=
  if remoteID ≠ [] then ascii "id:" ++ remoteID else ascii "name:" ++ name

def completed (transferred : List SavedEntry) (t : Target) : Option SavedEntry :=
  transferred.reverse.find? fun e =>
    e.errorCode = [] ∧ shareTransferKey e.name e.remoteID = shareTransferKey t.name t.remoteID

/-- The files a run opened, its results and its error. -/
structure Outcome where
  opened : List (Target × Bytes) := []
  results : List SavedEntry := []
  err : Option FetchError := none

def failedEntry (t : Target) (written : Int) (err : FetchError) : SavedEntry :=
  { name := t.name, size := written, remoteID := t.remoteID, errorCode := ascii "share_provider_error",
    errorMessage := err.text }

/-- The loop of `downloadPhase`. -/
def downloadEach (transferred : List SavedEntry) (d : Destination) (answers : Target → Answer) : List Target → Outcome
  | [] => {}
  | t :: ts =>
    let rest := downloadEach transferred d answers ts
    match completed transferred t with
    | some entry => { rest with results := entry :: rest.results }
    | none =>
      match (answers t).openErr, (answers t).transferErr with
      | some err, _ => { results := [failedEntry t 0 err], err := some err }
      | none, some err =>
        { opened := [(t, d.file t.name)], results := [failedEntry t (answers t).written err], err := some err }
      | none, none =>
        { rest with
          opened := (t, d.file t.name) :: rest.opened
          results := { name := t.name, size := (answers t).written, remoteID := t.remoteID } :: rest.results }

def downloadPhase (transferred : List SavedEntry) (targets : Except FetchError (List Target)) (d : Destination)
    (answers : Target → Answer) : Outcome :=
  match targets with
  | .error err => { err := some err }
  | .ok ts =>
    if d.single ∧ ts.length ≠ 1 then
      { err := some .singleFile }
    else downloadEach transferred d answers ts

/-! ## Confinement -/

/-- Each opened file is a child of the directory, and different entries are written to different files. -/
structure Confined (d : Destination) (o : Outcome) : Prop where
  inside : ∀ x ∈ o.opened, d.IsChild x.2
  apart : ∀ x ∈ o.opened, ∀ y ∈ o.opened, x.1 ≠ y.1 → x.2 ≠ y.2

def pending (transferred : List SavedEntry) (targets : Except FetchError (List Target)) : List Target :=
  match targets with
  | .error _ => []
  | .ok ts => ts.filter fun t => (completed transferred t).isNone

/-- Each name is a single element, and different entries have different ones. -/
structure PlainNames (ts : List Target) : Prop where
  single : ∀ t ∈ ts, ∃ name, PlainElem name ∧ relativeElems t.name = [name]
  apart : ∀ t ∈ ts, ∀ t' ∈ ts, t ≠ t' → relativeElems t.name ≠ relativeElems t'.name

namespace Destination

variable {d : Destination} {name name' : Bytes}

theorem exists_cleanVirtualPath (base : Bytes) :
    ∃ base', ∀ name : Bytes, cleanVirtualPath (base ++ 47 :: name) = cleanPath (base' ++ 47 :: name) := by
  cases base with
  | nil => exact ⟨[], fun name => rfl⟩
  | cons c base =>
    by_cases hc : c = 47
    · subst hc
      exact ⟨47 :: base, fun name => rfl⟩
    · refine ⟨47 :: c :: base, fun name => ?_⟩
      simp [cleanVirtualPath, hc]

/-- The files of a directory are its base, cleaned with their names. -/
theorem exists_file (d : Destination) (hd : d.single = false) :
    ∃ base, ∀ name : Bytes, d.file name = cleanPath (base ++ 47 :: name) := by
  by_cases hmount : d.mount = []
  · refine ⟨d.base, fun name => ?_⟩
    simp [file, path, hd, hmount, joinPath, d.base_ne]
  · obtain ⟨base, hbase⟩ := exists_cleanVirtualPath (trimRight d.base)
    refine ⟨base, fun name => ?_⟩
    simp [file, path, hd, hmount, hbase]

theorem file_congr (hd : d.single = false) (h : relativeElems name = relativeElems name') :
    d.file name = d.file name' := by
  obtain ⟨base, hbase⟩ := d.exists_file hd
  rw [hbase, hbase]
  exact cleanPath_append_congr base h

theorem file_inj (hd : d.single = false) (h : PlainElem name) (h' : PlainElem name')
    (heq : d.file name = d.file name') : name = name' := by
  obtain ⟨base, hbase⟩ := d.exists_file hd
  rw [hbase, hbase] at heq
  exact cleanPath_append_inj base h h' heq

def ofElems (mounted : Bool) (elems : List Bytes) : Destination where
  mount := if mounted then [109] else []
  base := rootedPath elems
  single := false
  base_ne := cons_ne_nil _ _

theorem file_ofElems (mounted : Bool) {elems : List Bytes} (hne : elems ≠ []) (h : ∀ e ∈ elems, PlainElem e)
    (name : Bytes) : (ofElems mounted elems).file name = cleanPath (rootedPath elems ++ 47 :: name) := by
  cases mounted with
  | false => simp [file, path, ofElems, joinPath, rootedPath]
  | true =>
    have htrim : trimRight (rootedPath elems) = rootedPath elems := by
      obtain ⟨init, last, rfl⟩ := (eq_nil_or_concat' elems).resolve_left hne
      rw [trimRight, dropWhile_slash_rootedPath (h last (by simp)), reverse_reverse]
    simp only [file, path, ofElems, htrim]
    rfl

end Destination

variable {transferred : List SavedEntry} {d : Destination} {ts : List Target}

theorem mem_opened_downloadEach {answers : Target → Answer}
    {x : Target × Bytes} (h : x ∈ (downloadEach transferred d answers ts).opened) :
    x.1 ∈ ts ∧ (completed transferred x.1).isNone ∧ x.2 = d.file x.1.name := by
  induction ts with
  | nil => cases h
  | cons t ts ih =>
    have hrest : x ∈ (downloadEach transferred d answers ts).opened →
        x.1 ∈ t :: ts ∧ (completed transferred x.1).isNone ∧ x.2 = d.file x.1.name :=
      fun hx => ⟨mem_cons_of_mem _ (ih hx).1, (ih hx).2⟩
    unfold downloadEach at h
    split at h
    · exact hrest h
    · next hnone =>
      split at h
      · cases h
      · rw [mem_singleton.mp h]
        exact ⟨mem_cons_self, by simp [hnone], rfl⟩
      · rcases mem_cons.mp h with rfl | h
        · exact ⟨mem_cons_self, by simp [hnone], rfl⟩
        · exact hrest h

theorem mem_opened_of_ok {t : Target} (ht : t ∈ ts) (hnone : (completed transferred t).isNone) :
    (t, d.file t.name) ∈ (downloadEach transferred d (fun _ => {}) ts).opened := by
  induction ts with
  | nil => cases ht
  | cons t' ts ih =>
    unfold downloadEach
    rcases mem_cons.mp ht with rfl | ht
    · rw [Option.isNone_iff_eq_none.mp hnone]
      exact mem_cons_self
    · split
      · exact ih ht
      · exact mem_cons_of_mem _ (ih ht)

/-- **A download stays in its directory exactly if the published names are single elements and different.** -/
theorem confined_iff (saved transferred : List SavedEntry) (listing : Except FetchError Listing)
    (fromSave mounted : Bool) :
    (∀ d : Destination, d.single = false → (d.mount ≠ [] ↔ mounted = true) → ∀ answers,
      Confined d (downloadPhase transferred (fetchTargets saved listing fromSave) d answers)) ↔
    PlainNames (pending transferred (fetchTargets saved listing fromSave)) := by
  generalize fetchTargets saved listing fromSave = targets
  cases targets with
  | error err =>
    refine ⟨fun _ => ⟨?_, ?_⟩, fun _ d _ _ answers => ⟨?_, ?_⟩⟩
    all_goals simp [pending, downloadPhase]
  | ok ts =>
    have hphase : ∀ d : Destination, d.single = false → ∀ answers,
        downloadPhase transferred (.ok ts) d answers = downloadEach transferred d answers ts := by
      intro d hd answers
      simp [downloadPhase, hd]
    constructor
    · intro h
      have hall : ∀ elems : List Bytes, elems ≠ [] → (∀ e ∈ elems, PlainElem e) →
          Confined (.ofElems mounted elems) (downloadEach transferred (.ofElems mounted elems) (fun _ => {}) ts) := by
        intro elems hne helems
        have hd := h (.ofElems mounted elems) rfl (by cases mounted <;> simp [Destination.ofElems]) fun _ => {}
        rwa [hphase _ rfl] at hd
      refine ⟨fun t ht => relativeElems_of_child fun elems hne helems => ?_, fun t ht t' ht' hne hsame => ?_⟩
      · obtain ⟨ht, hnone⟩ := mem_filter.mp ht
        obtain ⟨name, hname, heq⟩ := (hall elems hne helems).inside _ (mem_opened_of_ok ht hnone)
        rw [Destination.file_ofElems mounted hne helems, Destination.file_ofElems mounted hne helems,
          cleanPath_rootedPath_append helems name, relativeElems_plain hname] at heq
        refine ⟨name, hname, heq.trans (congrArg rootedPath ?_)⟩
        simp [cleanStep_plain hname]
      · obtain ⟨ht, hnone⟩ := mem_filter.mp ht
        obtain ⟨ht', hnone'⟩ := mem_filter.mp ht'
        have hplain : ∀ e ∈ [ascii "d"], PlainElem e := by simp [PlainElem, ascii]
        exact (hall [ascii "d"] (by simp) hplain).apart _ (mem_opened_of_ok ht hnone) _ (mem_opened_of_ok ht' hnone') hne
          (Destination.file_congr rfl hsame)
    · intro h d hd _ answers
      rw [hphase d hd]
      have hpending : ∀ x ∈ (downloadEach transferred d answers ts).opened, x.1 ∈ pending transferred (.ok ts) :=
        fun x hx => mem_filter.mpr ⟨(mem_opened_downloadEach hx).1, (mem_opened_downloadEach hx).2.1⟩
      have hfile : ∀ x ∈ (downloadEach transferred d answers ts).opened,
          ∃ name, PlainElem name ∧ relativeElems x.1.name = [name] ∧ x.2 = d.file name := by
        intro x hx
        obtain ⟨name, hname, hrel⟩ := h.single x.1 (hpending x hx)
        refine ⟨name, hname, hrel, (mem_opened_downloadEach hx).2.2.trans (Destination.file_congr hd ?_)⟩
        rw [hrel, relativeElems_plain hname]
      refine ⟨fun x hx => ?_, fun x hx y hy hne heq => ?_⟩
      · obtain ⟨name, hname, -, hx⟩ := hfile x hx
        exact ⟨name, hname, hx⟩
      · obtain ⟨name, hname, hrel, hfx⟩ := hfile x hx
        obtain ⟨name', hname', hrel', hfy⟩ := hfile y hy
        have hsame : name = name' := Destination.file_inj hd hname hname' (by rw [← hfx, heq, hfy])
        exact h.apart _ (hpending x hx) _ (hpending y hy) hne (by rw [hrel, hrel', hsame])

/-- What a publisher lists with the name `../x`. -/
def climbing : Listing where
  entries := [{ id := ascii "i", name := ascii "../x", size := 1 }]
  downloads := 1

/-- **A published name leads out of the download directory.** The file `/x` is opened for the directory `/d`. -/
theorem climbing_not_confined : ¬ Confined (.ofElems false [ascii "d"])
      (downloadPhase [] (fetchTargets [] (.ok climbing) false) (.ofElems false [ascii "d"]) fun _ => {}) := by
  intro h
  have hopened : ((downloadPhase [] (fetchTargets [] (.ok climbing) false) (.ofElems false [ascii "d"])
      fun _ => {}).opened.map Prod.snd) = [ascii "/x"] := by decide
  obtain ⟨x, hx, hx2⟩ := mem_map.mp (hopened ▸ mem_singleton.mpr rfl : ascii "/x" ∈ _)
  obtain ⟨name, hname, heq⟩ := h.inside x hx
  have hplain : ∀ e ∈ [ascii "d"], PlainElem e := by simp [PlainElem, ascii]
  rw [hx2, Destination.file_ofElems false (by simp) hplain, cleanPath_rootedPath_append hplain,
    relativeElems_plain hname] at heq
  simp [cleanStep_plain hname, rootedPath, ascii] at heq

end Share
