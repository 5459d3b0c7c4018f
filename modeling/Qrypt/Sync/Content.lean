import Qrypt.Sync.Run

/-!
# The content of the destination

With `--compare hash`, `CompareTrees` looks at the times before it asks for hashes, and `Plan` drops differences of
times if the destination keeps none. A file with another content and another time, but the same size, is then not
transferred.

* `equal_iff` — success means equal trees exactly if the destination keeps times or there is no such file
-/

namespace Sync

open Infra List

/-! ## Verified hashes -/

/-- The two sides of a path are files. -/
def Pair (req : Request) (w : World) (p : TreePath) (a b : FileData) : Prop :=
  (w.side req.source.kind).get (req.source.root ++ p) = some (.file a) ∧
    (w.side req.destination.kind).get (req.destination.root ++ p) = some (.file b)

/-- All answers are hashes of the contents; for an encrypted mount, of what they are with the nonce of the file. -/
structure Verified (algorithm : TreePath → Bytes) (digest : TreePath → Bytes → Bytes) (env : Env) (req : Request)
    (w : World) : Prop where
  remoteA : ∀ p a b, Pair req w p a b → req.source.kind = .vfs →
    (env.hashes p).remoteA = .ok ⟨algorithm p, digest p a.content, true⟩
  remoteB : ∀ p a b, Pair req w p a b → req.destination.kind = .vfs →
    (env.hashes p).remoteB = .ok ⟨algorithm p, digest p b.content, true⟩
  localA : ∀ p a b, Pair req w p a b → req.source.kind = .disk →
    (env.hashes p).localHash (algorithm p) = .ok (digest p a.content) ∧
      (env.hashes p).encryptedHash (algorithm p) = .ok (digest p a.content)
  localB : ∀ p a b, Pair req w p a b → req.destination.kind = .disk →
    (env.hashes p).localHash (algorithm p) = .ok (digest p b.content) ∧
      (env.hashes p).encryptedHash (algorithm p) = .ok (digest p b.content)

section Hashes

variable {algorithm : TreePath → Bytes} {digest : TreePath → Bytes → Bytes} {env : Env} {req : Request} {w : World}

theorem Verified.equal (h : Verified algorithm digest env req w) (haccepted : refusal req = none)
    (hmode : req.compareMode = .hash) {p : TreePath} {a b : FileData} (hpair : Pair req w p a b)
    (hhash : (compareOptions env req).hash p = .ok true) : digest p a.content = digest p b.content := by
  have hcompare : compareHashPair req.source req.destination false (env.hashes p) = .ok true := by
    cases hc : compareHashPair req.source req.destination false (env.hashes p) with
    | error err => simp [compareOptions, hmode, hc, Except.mapError] at hhash
    | ok equal => simpa [compareOptions, hmode, hc, Except.mapError] using hhash
  unfold compareHashPair at hcompare
  cases hA : req.source.kind with
  | vfs =>
    have hremoteA := h.remoteA p a b hpair hA
    cases hB : req.destination.kind with
    | vfs =>
      have hremoteB := h.remoteB p a b hpair hB
      by_cases henc : req.source.encrypted = true ∨ req.destination.encrypted = true
      · simp [hA, hB, henc, degrade] at hcompare
      · simpa [hA, hB, henc, hremoteA, hremoteB] using hcompare
    | disk =>
      obtain ⟨hlocal, hencrypted⟩ := h.localB p a b hpair hB
      cases henc : req.source.encrypted with
      | true => simpa [hA, hB, henc, hremoteA, hencrypted, eq_comm] using hcompare
      | false => simpa [hA, hB, henc, hremoteA, hlocal, eq_comm] using hcompare
  | disk =>
    cases hB : req.destination.kind with
    | vfs =>
      have hremoteB := h.remoteB p a b hpair hB
      obtain ⟨hlocal, hencrypted⟩ := h.localA p a b hpair hA
      cases henc : req.destination.encrypted with
      | true => simpa [hA, hB, henc, hremoteB, hencrypted] using hcompare
      | false => simpa [hA, hB, henc, hremoteB, hlocal] using hcompare
    | disk => simp [refusal, hA, hB] at haccepted

end Hashes

/-! ## Steps around a file of the source -/

/-- What is at a path of a target. -/
abbrev World.node (w : World) (target : Target) (p : TreePath) : Option (Node FileData) :=
  (w.side target.kind).get (target.root ++ p)

section Steps

variable {env : Env} {req : Request} {w : World} {ops : List PlanEntry} {p : TreePath} {a : FileData}

section File

variable (hplan : planOf env req w = .ok ops) (hfile : w.node req.source p = some (.file a)) {e : PlanEntry}
  (he : e ∈ ops)
include hplan hfile he

/-- Above a file of the source, a plan makes directories, or removes a file. -/
theorem step_above (hact : e.Acts) (hpre : e.path <+: p) (hne : e.path ≠ p) :
    w.node req.destination p = none ∧ (e.action = .add ∧ e.isDir = true ∨ e.action = .delete) := by
  obtain ⟨d, hd, hmem⟩ := (mem_planOf hplan e).mp he
  have hnil := path_ne hplan he
  obtain ⟨r, rfl⟩ := hpre
  have hr : r ≠ [] := by
    rintro rfl
    exact hne (by simp)
  have hA : entryAt w req.source e.path = some { isDir := true } := by
    have hget : (w.side req.source.kind).get (req.source.root ++ e.path ++ r) ≠ none := by
      simp [hfile]
    rw [entryAt_ne hnil, FileTree.get_of_below hget hr]
    rfl
  have hnone : entryAt w req.destination e.path ≠ some { isDir := true } →
      w.node req.destination (e.path ++ r) = none := by
    intro hB
    by_contra hget
    rw [World.node, ← append_assoc] at hget
    rw [entryAt_ne hnil, FileTree.get_of_below hget hr] at hB
    exact hB rfl
  rcases planned_of_mem hd hmem with ⟨x, hA', hB, haction, hdir, -⟩ | ⟨y, hA', -⟩ |
    ⟨x, y, hA', hB, htype, -, haction⟩ | ⟨x, y, hA', hB, -, -, haction⟩ | ⟨x, y, hA', hB, hx, -⟩
  · rw [hA] at hA'
    cases hA'
    exact ⟨hnone (by simp [hB]), .inl ⟨haction, hdir⟩⟩
  · rw [hA] at hA'
    cases hA'
  · rw [hA] at hA'
    cases hA'
    refine ⟨hnone ?_, ?_⟩
    · rw [hB]
      rintro heq
      cases heq
      exact htype rfl
    · rcases haction with ⟨haction, -⟩ | ⟨haction, hdir⟩
      · exact .inr haction
      · exact .inl ⟨haction, hdir⟩
  · exact absurd haction hact.2
  · rw [hA] at hA'
    cases hA'
    cases hx

theorem not_above (haction : e.action = .add ∨ e.action = .update) (hdir : e.isDir = true) : ¬ p <+: e.path := by
  intro hpre
  obtain ⟨d, hd, hmem⟩ := (mem_planOf hplan e).mp he
  have hnil := path_ne hplan he
  have hsource : ∀ x, entryAt w req.source e.path = some x → x.isDir = false := by
    intro x hx
    rw [entryAt_ne hnil, Option.map_eq_some_iff] at hx
    obtain ⟨node, hnode, rfl⟩ := hx
    obtain ⟨r, hr⟩ := hpre
    rw [← hr, ← append_assoc] at hnode
    by_cases hr0 : r = []
    · simp only [hr0, append_nil, hfile] at hnode
      cases hnode
      rfl
    · have hget : (w.side req.source.kind).get (req.source.root ++ p ++ r) ≠ none := by
        rw [hnode]
        simp
      simp [FileTree.get_of_below hget hr0] at hfile
  rcases planned_of_mem hd hmem with ⟨x, hA, -, -, hisDir, -⟩ | ⟨y, -, -, -, haction'⟩ |
    ⟨x, y, hA, -, -, -, haction'⟩ | ⟨x, y, -, -, -, -, haction'⟩ | ⟨x, y, -, -, -, -, -, hisDir, -⟩
  · simp [hisDir, hsource x hA] at hdir
  · rcases haction' with ⟨-, h⟩ | ⟨-, h⟩ <;> simp [h] at haction
  · rcases haction' with ⟨h, -⟩ | ⟨-, hisDir⟩
    · simp [h] at haction
    · simp [hisDir, hsource x hA] at hdir
  · simp [haction'] at haction
  · simp [hisDir] at hdir

/-- What is at the place of a file of the source does not become a directory. -/
theorem notDir_perform {w' : World} (h : w'.node req.destination p ≠ some .dir) (f : OpFault) :
    (perform env.mounts req.source req.destination w' e f).2.node req.destination p ≠ some .dir := by
  have hcreate : e.action = .add ∨ e.action = .update →
      (perform env.mounts req.source req.destination w' e f).2.node req.destination p ≠ some .dir := by
    intro haction
    cases hdir : e.isDir with
    | true =>
      have hmkdir : (perform env.mounts req.source req.destination w' e f).2.side req.destination.kind =
          (mkdir req.destination.kind (w'.side req.destination.kind) (req.destination.root ++ e.path) f).2 := by
        rcases haction with haction | haction <;> simp [perform, haction, hdir]
      rw [World.node, hmkdir, get_mkdir_of_not_prefix]
      · exact h
      · rw [prefix_append_right_inj]
        exact not_above hplan hfile he haction hdir
    | false =>
      rw [World.node, side_perform_copy _ _ _ _ _ _ haction hdir]
      by_cases hpath : e.path = p
      · rw [← hpath] at h ⊢
        exact notDir_copyFile h
      · rw [within_copyFile]
        · exact h
        · rw [prefix_append_right_inj]
          intro hpre
          have hact : e.Acts := by
            rcases haction with haction | haction <;> simp [haction]
          rcases (step_above hplan hfile he hact hpre hpath).2 with ⟨-, hdir'⟩ | hdelete
          · simp [hdir] at hdir'
          · simp [hdelete] at haction
  cases haction : e.action with
  | add => exact hcreate (.inl haction)
  | update => exact hcreate (.inr haction)
  | delete =>
    simp only [World.node, perform, haction, World.side_set]
    rcases get_deletePath (w'.side req.destination.kind) (req.destination.root ++ e.path) f req.destination.kind e.isDir
      (req.destination.root ++ p) with hnone | hsame
    · simp [hnone]
    · rwa [hsame]
  | skip => simpa [perform, haction] using h
  | conflict => simpa [perform, haction] using h

end File

/-- Steps that are no copies onto a path or above it keep what is there. -/
theorem kept_foldl (l : List PlanEntry)
    (hl : ∀ e ∈ l, e.path <+: p → (e.action = .add ∨ e.action = .update) ∧ e.isDir = true) (s : ExecState)
    (hget : s.world.node req.destination p ≠ none) :
    (l.foldl (execStep env.mounts req.source req.destination env.faults) s).world.node req.destination p =
      s.world.node req.destination p := by
  refine foldl_execStep (P := fun w' => w'.node req.destination p = s.world.node req.destination p) ?_ rfl
  intro e he w' hw'
  have hget' : w'.node req.destination p ≠ none := by rwa [hw']
  rw [← hw']
  by_cases hpre : e.path <+: p
  · obtain ⟨haction, hdir⟩ := hl e he hpre
    exact get_perform_mkdir _ _ _ _ _ _ haction hdir hget'
  · exact get_perform _ _ _ _ _ _ (by rwa [prefix_append_right_inj]) hget'

theorem key_eq_of_creations (hplan : planOf env req w = .ok ops) {e e' : PlanEntry} (he : e ∈ creations ops)
    (he' : e' ∈ creations ops) (hpath : e.path = e'.path) : e.key = e'.key := by
  have hadd : ∀ e₁ ∈ ops, ∀ e₂ ∈ ops, e₁.path = e₂.path → e₁.action = .add → e₂.action = .update → False := by
    intro e₁ h₁ e₂ h₂ hpath hadd hupdate
    obtain ⟨d₁, hd₁, hmem₁⟩ := (mem_planOf hplan e₁).mp h₁
    obtain ⟨d₂, hd₂, hmem₂⟩ := (mem_planOf hplan e₂).mp h₂
    rw [← hpath] at hd₂ hmem₂
    rw [hd₁] at hd₂
    obtain rfl : d₁ = d₂ := by simpa using hd₂
    have hfiles : ∃ x y : Entry, entryAt w req.source e₁.path = some x ∧ entryAt w req.destination e₁.path = some y ∧
        x.isDir = false ∧ y.isDir = false := by
      rcases planned_of_mem hd₁ hmem₂ with ⟨x, -, -, haction, -⟩ | ⟨y, -, -, -, haction⟩ | ⟨x, y, -, -, -, -, haction⟩ |
        ⟨x, y, -, -, -, -, haction⟩ | ⟨x, y, hA, hB, hx, hy, -⟩
      · simp [hupdate] at haction
      · simp [hupdate] at haction
      · simp [hupdate] at haction
      · simp [hupdate] at haction
      · exact ⟨x, y, hA, hB, hx, hy⟩
    obtain ⟨x, y, hA, hB, hx, hy⟩ := hfiles
    rcases planned_of_mem hd₁ hmem₁ with ⟨x', -, hB', -⟩ | ⟨y', hA', -⟩ | ⟨x', y', hA', hB', htype, -⟩ |
      ⟨x', y', -, -, -, -, haction⟩ | ⟨x', y', -, -, -, -, haction, -⟩
    · simp [hB] at hB'
    · simp [hA] at hA'
    · rw [hA] at hA'
      rw [hB] at hB'
      cases hA'
      cases hB'
      exact htype (hx.trans hy.symm)
    · simp [hadd] at haction
    · simp [hadd] at haction
  obtain ⟨hmem, haction⟩ := mem_of_mem_creations he
  obtain ⟨hmem', haction'⟩ := mem_of_mem_creations he'
  have hsame : e.action = e'.action := by
    rcases haction with haction | haction
    · rcases haction' with haction' | haction'
      · rw [haction, haction']
      · exact (hadd e hmem e' hmem' hpath haction haction').elim
    · rcases haction' with haction' | haction'
      · exact (hadd e' hmem' e hmem hpath.symm haction' haction).elim
      · rw [haction, haction']
  exact Prod.ext hpath hsame

end Steps

/-! ## Plans that succeed -/

def stateAfter (env : Env) (req : Request) (w : World) (l : List PlanEntry) : ExecState :=
  l.foldl (execStep env.mounts req.source req.destination env.faults)
    { world := w.set req.destination.kind
        (mkdir req.destination.kind (w.side req.destination.kind) req.destination.root env.root).2 }

section Plans

variable {env : Env} {req : Request} {w : World} {ops : List PlanEntry} {p : TreePath} {a : FileData}

theorem get_stateAfter_nil (hp : p ≠ []) : (stateAfter env req w []).world.node req.destination p =
      w.node req.destination p := by
  simp only [World.node, stateAfter, foldl_nil, World.side_set]
  refine get_mkdir_of_not_prefix _ _ _ _ _ fun hpre => hp ?_
  have hlen := hpre.length_le
  rw [length_append] at hlen
  exact length_eq_zero_iff.mp (by omega)

theorem stateAfter_append (l l' : List PlanEntry) : stateAfter env req w (l ++ l') =
    l'.foldl (execStep env.mounts req.source req.destination env.faults) (stateAfter env req w l) := by
  rw [stateAfter, foldl_append, ← stateAfter]

/-- What is no directory at the place of a file of the source stays none. -/
theorem notDir_stateAfter (hplan : planOf env req w = .ok ops)
    (hfile : w.node req.source p = some (.file a)) {l l' : List PlanEntry}
    (hl' : ∀ e ∈ l', e ∈ ops)
    (h : (stateAfter env req w l).world.node req.destination p ≠ some .dir) :
    (stateAfter env req w (l ++ l')).world.node req.destination p ≠ some .dir := by
  rw [stateAfter_append]
  refine foldl_execStep (P := fun w' => w'.node req.destination p ≠ some .dir) (fun e he w' hw' => ?_) h
  exact notDir_perform hplan hfile (hl' e he) hw' _

theorem mem_of_mem_steps {e : PlanEntry} (h : e ∈ steps ops) : e ∈ ops := by
  rcases mem_append.mp h with h | h
  · exact (mem_of_mem_deletions h).1
  · exact (mem_of_mem_creations h).1

theorem get_deletePath_ok {k : TargetKind} {t : FileTree FileData} {q : TreePath} {f : OpFault} (hq : q ≠ [])
    (h : (deletePath k t q true f).1 = true) : (deletePath k t q true f).2.get q = none := by
  cases k with
  | vfs =>
    simp only [deletePath] at h ⊢
    split_ifs at h ⊢
    simp [hq]
  | disk =>
    simp only [deletePath] at h ⊢
    split_ifs at h ⊢
    simp [hq]

theorem notDir_before (hplan : planOf env req w = .ok ops) (hfailed : (stateAfter env req w (steps ops)).failed = 0)
    (hfile : w.node req.source p = some (.file a)) (hp : p ≠ []) {e : PlanEntry}
    (he : e ∈ creations ops) (hremoval : w.node req.destination p = some .dir →
      ∃ del ∈ deletions ops, del.path = p ∧ del.isDir = true) {l₁ l₂ : List PlanEntry}
    (hsteps : steps ops = l₁ ++ e :: l₂) : (stateAfter env req w l₁).world.node req.destination p ≠ some .dir := by
  have hmem : ∀ x ∈ l₁, x ∈ ops := fun x hx => mem_of_mem_steps (by simp [hsteps, hx])
  by_cases hdir : w.node req.destination p = some .dir
  · obtain ⟨del, hdel, rfl, hisDir⟩ := hremoval hdir
    have hact := (mem_of_mem_deletions hdel).2
    have haction : e.action ≠ .delete := by
      rcases (mem_of_mem_creations he).2 with haction | haction <;> simp [haction]
    obtain ⟨l, rfl, -⟩ := split_steps hsteps haction
    obtain ⟨l₃, l₄, hsplit⟩ := append_of_mem hdel
    -- The directory is removed by its own step.
    have hnodup := nodup_steps (nodup_planOf hplan)
    rw [hsteps, hsplit] at hnodup hfailed
    simp only [append_assoc, cons_append] at hnodup hfailed
    obtain ⟨hok, hworld⟩ := step_of_ok hnodup rfl hfailed
    have hgone : (stateAfter env req w (l₃ ++ [del])).world.node req.destination del.path = none := by
      rw [stateAfter, hworld]
      simp only [World.node, perform, hact, hisDir, World.side_set] at hok ⊢
      exact get_deletePath_ok (by simp [hp]) hok
    have happend : deletions ops ++ l = (l₃ ++ [del]) ++ (l₄ ++ l) := by simp [hsplit]
    rw [happend]
    refine notDir_stateAfter hplan hfile ?_ (by simp [hgone])
    intro x hx
    refine hmem x ?_
    rw [happend]
    exact mem_append_right _ hx
  · have hstart : (stateAfter env req w []).world.node req.destination p ≠
        some .dir := by
      rwa [get_stateAfter_nil hp]
    simpa using notDir_stateAfter hplan hfile hmem hstart

/-- **A step that copies a file leaves its content, and no later step changes it.** -/
theorem copied_of_step (hplan : planOf env req w = .ok ops) (hfailed : (stateAfter env req w (steps ops)).failed = 0)
    (hstill : ∀ l, l <+: steps ops → SourceUntouched req w (stateAfter env req w l).world)
    (hfile : w.node req.source p = some (.file a)) {e : PlanEntry}
    (he : e ∈ creations ops) (hpath : e.path = p) (hisDir : e.isDir = false)
    (hremoval : w.node req.destination p = some .dir → ∃ del ∈ deletions ops, del.path = p ∧ del.isDir = true) :
    ∃ b, (stateAfter env req w (steps ops)).world.node req.destination p =
      some (.file b) ∧ b.content = a.content := by
  subst hpath
  obtain ⟨hmem, haction⟩ := mem_of_mem_creations he
  have hp := path_ne hplan hmem
  obtain ⟨l₁, l₂, hsteps⟩ := append_of_mem (mem_append_right (deletions ops) he)
  rw [← steps] at hsteps
  have hdir := notDir_before hplan hfailed hfile hp he hremoval hsteps
  have hnodup := nodup_steps (nodup_planOf hplan)
  rw [hsteps] at hnodup hfailed
  obtain ⟨hok, hworld⟩ := step_of_ok hnodup rfl hfailed
  -- The copy itself.
  have hcopy : ∃ b, (stateAfter env req w (l₁ ++ [e])).world.node req.destination e.path = some (.file b) ∧ b.content = a.content := by
    rw [World.node, stateAfter, hworld, side_perform_copy _ _ _ _ _ _ haction hisDir]
    rw [fst_perform_copy _ _ _ _ _ _ haction hisDir] at hok
    obtain ⟨data, b, hdata, hb, hcontent⟩ := copyFile_ok hok hdir
    have hsource := hstill l₁ ⟨e :: l₂, hsteps.symm⟩ (req.source.root ++ e.path) (prefix_append _ _)
    have hsame : some (Node.file data) = some (Node.file a) := hdata.symm.trans (hsource.trans hfile)
    cases hsame
    exact ⟨b, hb, hcontent⟩
  obtain ⟨b, hb, hcontent⟩ := hcopy
  refine ⟨b, ?_, hcontent⟩
  have hlast : steps ops = (l₁ ++ [e]) ++ l₂ := by simp [hsteps]
  rw [hlast, stateAfter_append, kept_foldl l₂, hb]
  · intro e' he' hpre
    have hdelete : e.action ≠ .delete := by
      rcases haction with haction | haction <;> simp [haction]
    obtain ⟨l, -, hcreations⟩ := split_steps hsteps hdelete
    have he'c : e' ∈ creations ops := by simp [hcreations, he']
    obtain ⟨hmem', haction'⟩ := mem_of_mem_creations he'c
    have hne : e'.path ≠ e.path := by
      intro heq
      have hkey := key_eq_of_creations hplan he'c he heq
      rw [map_append, map_cons, nodup_append, nodup_cons] at hnodup
      exact hnodup.2.1.1 (hkey ▸ mem_map_of_mem he')
    rcases (step_above hplan hfile hmem' (act_of_mem_creations he'c) hpre hne).2 with ⟨hadd, hdir'⟩ | hdelete'
    · exact ⟨.inl hadd, hdir'⟩
    · simp [hdelete'] at haction'
  · simp [hb]

theorem kept_of_no_step (hplan : planOf env req w = .ok ops) {b : FileData} (hpair : Pair req w p a b)
    (hp : p ≠ []) (hnone : ∀ e ∈ ops, e.path ≠ p) :
    (stateAfter env req w (steps ops)).world.node req.destination p = some (.file b) := by
  have hstart : (stateAfter env req w []).world.node req.destination p =
      some (.file b) := (get_stateAfter_nil hp).trans hpair.2
  have hkept : stateAfter env req w (steps ops) = _ := stateAfter_append [] (steps ops)
  rw [hkept, kept_foldl, hstart]
  · intro e he hpre
    have hmem := mem_of_mem_steps he
    have hact : e.Acts := by
      rcases mem_append.mp he with he | he
      · exact act_of_mem_deletions he
      · exact act_of_mem_creations he
    cases hpair.2.symm.trans (step_above hplan hpair.1 hmem hact hpre (hnone e hmem)).1
  · simp [hstart]

end Plans

/-! ## All runs -/

section Runs

variable {env : Env} {req : Request} {w : World} {ops : List PlanEntry} {p : TreePath} {a b : FileData}

theorem conflict_foldl (l : List PlanEntry) (s : Summary) :
    (l.foldl Summary.add s).conflict = s.conflict + l.countP fun e => e.action = .conflict := by
  induction l generalizing s with
  | nil => simp
  | cons e l ih =>
    rw [foldl_cons, ih, countP_cons]
    cases haction : e.action <;> simp [Summary.add, haction]
    omega

theorem entries_of_pair (hp : p ≠ []) (h : Pair req w p a b) :
    entryAt w req.source p = some (Entry.ofNode (.file a)) ∧
      entryAt w req.destination p = some (Entry.ofNode (.file b)) := by
  rw [entryAt_ne hp, entryAt_ne hp, h.1, h.2]
  exact ⟨rfl, rfl⟩

/-- A pair of files with a difference that is not dropped has a step. -/
theorem exists_update (hplan : planOf env req w = .ok ops) (hp : p ≠ []) (hpair : Pair req w p a b) {reason : Reason}
    (hdiffer : differAt (compareOptions env req) p (some (Entry.ofNode (.file a))) (some (Entry.ofNode (.file b))) =
      .ok (some ⟨p, reason, false⟩))
    (hreason : reason = .size ∨ reason = .hash ∨
      reason = .mtime ∧ targetSupportsMTime env.mounts req.destination = true) :
    ∃ e ∈ creations ops, e.path = p ∧ e.isDir = false := by
  obtain ⟨hA, hB⟩ := entries_of_pair hp hpair
  let e : PlanEntry :=
    { path := p, action := .update, reason := reason, isDir := false, sourceSize := (Entry.ofNode (.file a)).size
      destSize := (Entry.ofNode (.file b)).size
      bytes := diffBytes (Entry.ofNode (.file a)).size (Entry.ofNode (.file b)).size
      sourceModTime := (Entry.ofNode (.file a)).modTime }
  have hmem : e ∈ ops := by
    refine (mem_planOf hplan e).mpr ⟨⟨p, reason, false⟩, ?_, ?_⟩
    · rw [hA, hB]
      exact hdiffer
    · rw [hA, hB]
      rcases hreason with rfl | rfl | ⟨rfl, hsupports⟩
      · simp [planAt, e]
      · simp [planAt, e]
      · simp [planAt, e, planOptions, hsupports]
  exact ⟨e, by simp [creations, hmem, e], rfl, rfl⟩

theorem differAt_files (hmode : req.compareMode = .hash) :
    differAt (compareOptions env req) p (some (Entry.ofNode (.file a))) (some (Entry.ofNode (.file b))) =
      if a.content.length ≠ b.content.length then .ok (some ⟨p, .size, false⟩)
      else if a.modTime ≠ b.modTime then .ok (some ⟨p, .mtime, false⟩)
      else ((compareOptions env req).hash p).map fun equal => if equal then none else some ⟨p, .hash, false⟩ := by
  have hskip : (compareOptions env req).skipSize = false := by simp [compareOptions, hmode]
  by_cases htime : a.modTime = b.modTime <;> simp [differAt, Entry.ofNode, hskip, htime]

/-- Two files with the same size and different times have no step, if the destination keeps no times. -/
theorem no_step_of_times (hplan : planOf env req w = .ok ops) (hmode : req.compareMode = .hash)
    (hsupports : targetSupportsMTime env.mounts req.destination = false) (hp : p ≠ []) (hpair : Pair req w p a b)
    (hsize : a.content.length = b.content.length) (htime : a.modTime ≠ b.modTime) : ∀ e ∈ ops, e.path ≠ p := by
  rintro e he rfl
  obtain ⟨hA, hB⟩ := entries_of_pair hp hpair
  obtain ⟨d, hd, hmem⟩ := (mem_planOf hplan e).mp he
  rw [hA, hB, differAt_files hmode, if_neg (by simp [hsize]), if_pos htime] at hd
  cases hd
  simp [planAt, planOptions, hsupports, hmode] at hmem

/-- A file that the destination has not, or has as a directory, has a step. -/
theorem exists_add (hplan : planOf env req w = .ok ops) (hconflict : (ops.foldl Summary.add {}).conflict = 0)
    (hp : p ≠ []) (hfile : w.node req.source p = some (.file a))
    (hdest : w.node req.destination p = none ∨ w.node req.destination p = some .dir) :
    ∃ e ∈ creations ops, e.path = p ∧ e.isDir = false ∧
      (w.node req.destination p = some .dir →
        ∃ del ∈ deletions ops, del.path = p ∧ del.isDir = true) := by
  have hA : entryAt w req.source p = some (Entry.ofNode (.file a)) := by
    simp [entryAt_ne hp, hfile]
  rcases hdest with hnone | hdir
  · have hB : entryAt w req.destination p = none := by simp [entryAt_ne hp, hnone]
    let e : PlanEntry :=
      { path := p, action := .add, reason := .missingInB, isDir := false, sourceSize := a.content.length
        bytes := a.content.length, sourceModTime := a.modTime }
    have hmem : e ∈ ops := by
      refine (mem_planOf hplan e).mpr ⟨⟨p, .missingInB, false⟩, ?_, ?_⟩
      · rw [hA, hB]
        rfl
      · rw [hA, hB]
        simp [planAt, e, Entry.ofNode]
    exact ⟨e, by simp [creations, hmem, e], rfl, rfl, by simp [hnone]⟩
  · have hB : entryAt w req.destination p = some (Entry.ofNode .dir) := by simp [entryAt_ne hp, hdir]
    have hdiffer : differAt (compareOptions env req) p (entryAt w req.source p) (entryAt w req.destination p) =
        .ok (some ⟨p, .type, false⟩) := by
      rw [hA, hB]
      rfl
    -- A conflict would have been counted.
    have hsource : req.conflict = .source := by
      by_contra hpolicy
      let e : PlanEntry := { path := p, action := .conflict, reason := .type, isDir := false }
      have hmem : e ∈ ops := by
        refine (mem_planOf hplan e).mpr ⟨_, hdiffer, ?_⟩
        rw [hA, hB]
        simp [planAt, planOptions, hpolicy, e, Entry.ofNode]
      rw [conflict_foldl, Nat.add_eq_zero_iff, countP_eq_zero] at hconflict
      simpa [e] using hconflict.2 e hmem
    let del : PlanEntry := { path := p, action := .delete, reason := .type, isDir := true }
    let add : PlanEntry := { path := p, action := .add, reason := .type, isDir := false
                             sourceSize := a.content.length, bytes := a.content.length }
    have hdel : del ∈ ops := by
      refine (mem_planOf hplan del).mpr ⟨_, hdiffer, ?_⟩
      rw [hA, hB]
      simp [planAt, planOptions, hsource, del, Entry.ofNode]
    have hadd : add ∈ ops := by
      refine (mem_planOf hplan add).mpr ⟨_, hdiffer, ?_⟩
      rw [hA, hB]
      simp [planAt, planOptions, hsource, add, Entry.ofNode]
    exact ⟨add, by simp [creations, hadd, add], rfl, rfl, fun _ => ⟨del, by simp [deletions, hdel, del], rfl, rfl⟩⟩

/-- A pair of files has a step, or equal hashes, or times that are not looked at. -/
theorem pair_cases (hplan : planOf env req w = .ok ops) (hmode : req.compareMode = .hash) (hp : p ≠ [])
    (hpair : Pair req w p a b) :
    (∃ e ∈ creations ops, e.path = p ∧ e.isDir = false) ∨
      ((∀ e ∈ ops, e.path ≠ p) ∧ a.content.length = b.content.length ∧
        (a.modTime ≠ b.modTime ∧ targetSupportsMTime env.mounts req.destination = false ∨
          (compareOptions env req).hash p = .ok true)) := by
  obtain ⟨hA, hB⟩ := entries_of_pair hp hpair
  have hfiles : differAt (compareOptions env req) p (some (Entry.ofNode (.file a))) (some (Entry.ofNode (.file b))) = _ :=
    differAt_files hmode
  by_cases hsize : a.content.length = b.content.length
  swap
  · rw [if_pos hsize] at hfiles
    exact .inl (exists_update hplan hp hpair hfiles (.inl rfl))
  rw [if_neg (by simp [hsize])] at hfiles
  by_cases htime : a.modTime = b.modTime
  swap
  · rw [if_pos htime] at hfiles
    cases hsupports : targetSupportsMTime env.mounts req.destination with
    | true => exact .inl (exists_update hplan hp hpair hfiles (.inr (.inr ⟨rfl, hsupports⟩)))
    | false =>
      exact .inr ⟨no_step_of_times hplan hmode hsupports hp hpair hsize htime, hsize, .inl ⟨htime, rfl⟩⟩
  rw [if_neg (by simp [htime])] at hfiles
  cases hhash : (compareOptions env req).hash p with
  | error err =>
    obtain ⟨d, hd⟩ := differAt_of_planOf hplan p
    rw [hA, hB, hfiles, hhash] at hd
    cases hd
  | ok equal =>
    rw [hhash] at hfiles
    cases equal with
    | false => exact .inl (exists_update hplan hp hpair hfiles (.inr (.inl rfl)))
    | true =>
      refine .inr ⟨?_, hsize, .inr rfl⟩
      rintro e he rfl
      obtain ⟨d, hd, -⟩ := (mem_planOf hplan e).mp he
      rw [hA, hB, hfiles] at hd
      cases hd

theorem still_of_kind (hkind : req.source.kind ≠ req.destination.kind) (l : List PlanEntry) :
    SourceUntouched req w (stateAfter env req w l).world := by
  have hside : (stateAfter env req w l).world.side req.source.kind = w.side req.source.kind := by
    refine foldl_execStep (P := fun w' => w'.side req.source.kind = w.side req.source.kind) ?_ ?_
    · intro e _ w' hw'
      rw [side_perform_ne _ _ _ _ _ _ hkind, hw']
    · exact w.side_set_ne hkind _
  intro q _
  rw [hside]

end Runs

/-- Two files of the same size with different times and contents. -/
def Deceptive (req : Request) (w : World) (p : TreePath) : Prop :=
  ∃ a b, Pair req w p a b ∧ a.content.length = b.content.length ∧ a.modTime ≠ b.modTime ∧ a.content ≠ b.content

/-- **A run that reports success, during which the source stays as it is, made the destination equal exactly if the
destination keeps times or there is no deceptive pair of files.** -/
theorem equal_iff (env : Env) (req : Request) (saved : Option Saved) (w : World) (algorithm : TreePath → Bytes)
    (digest : TreePath → Bytes → Bytes) (hmode : req.compareMode = .hash) (hresume : req.resume = false)
    (hdry : req.dryRun = false) (hverified : Verified algorithm digest env req w)
    (hcollision : ∀ p a b, Pair req w p a b → digest p a.content = digest p b.content → a.content = b.content)
    (hstill : ∀ ops, planOf env req w = .ok ops → ∀ l, l <+: steps ops →
      SourceUntouched req w (stateAfter env req w l).world)
    (hok : (run env req saved w).result.ok = true) (hconflict : (run env req saved w).result.summary.conflict = 0) :
    (∀ p a, p ≠ [] → (w.side req.source.kind).get (req.source.root ++ p) = some (.file a) →
      ∃ b, ((run env req saved w).world.side req.destination.kind).get (req.destination.root ++ p) = some (.file b) ∧
        b.content = a.content) ↔
      targetSupportsMTime env.mounts req.destination = true ∨ ∀ p, p ≠ [] → ¬ Deceptive req w p := by
  obtain ⟨haccepted, ops, t, hplan, hroot, hfailed, hworld, hsummary⟩ := execute_of_ok hresume hdry hok
  have hafter : (steps ops).foldl (execStep env.mounts req.source req.destination env.faults)
      { world := w.set req.destination.kind t } = stateAfter env req w (steps ops) := by
    rw [stateAfter, hroot]
  rw [hafter] at hfailed hworld
  rw [hworld]
  rw [hsummary] at hconflict
  constructor
  · intro hequal
    by_contra hnot
    rw [not_or] at hnot
    obtain ⟨hsupports, hdeceptive⟩ := hnot
    push Not at hdeceptive
    obtain ⟨p, hp, a, b, hpair, hsize, htime, hcontent⟩ := hdeceptive
    have hnone := no_step_of_times hplan hmode (by simpa using hsupports) hp hpair hsize htime
    obtain ⟨c, hc, hcontent'⟩ := hequal p a hp hpair.1
    cases (kept_of_no_step hplan hpair hp hnone).symm.trans hc
    exact hcontent hcontent'.symm
  · intro hcond p a hp hfile
    have hcopied : (∃ e ∈ creations ops, e.path = p ∧ e.isDir = false ∧
        (w.node req.destination p = some .dir → ∃ del ∈ deletions ops, del.path = p ∧ del.isDir = true)) → _ :=
      fun ⟨e, he, hpath, hisDir, hremoval⟩ =>
        copied_of_step hplan hfailed (hstill ops hplan) hfile he hpath hisDir hremoval
    cases hdest : w.node req.destination p with
    | none => exact hcopied (exists_add hplan hconflict hp hfile (.inl hdest))
    | some node =>
      cases node with
      | dir => exact hcopied (exists_add hplan hconflict hp hfile (.inr hdest))
      | file b =>
        have hpair : Pair req w p a b := ⟨hfile, hdest⟩
        rcases pair_cases hplan hmode hp hpair with ⟨e, he, hpath, hisDir⟩ | ⟨hnone, hsize, hwhy⟩
        · exact hcopied ⟨e, he, hpath, hisDir, by simp [hdest]⟩
        · refine ⟨b, kept_of_no_step hplan hpair hp hnone, ?_⟩
          rcases hwhy with ⟨htime, hsupports⟩ | hhash
          · rcases hcond with hcond | hcond
            · simp [hsupports] at hcond
            · by_contra hcontent
              exact hcond p hp ⟨a, b, hpair, hsize, htime, fun heq => hcontent heq.symm⟩
          · exact (hcollision p a b hpair (hverified.equal haccepted hmode hpair hhash)).symm

/-! ## A file that is not transferred -/

/-- The local file `/s/f` and the older virtual file `/m/f` of the same size. -/
def deceptiveWorld : World where
  disk := (FileTree.empty.makeDirs [ascii "s"] (by decide)).write [ascii "s", ascii "f"]
    { content := ascii "new", modTime := 2 } ⟨by decide, by decide, by decide, by decide⟩
  vfs := (FileTree.empty.makeDirs [ascii "m"] Copy.plain_m).write [ascii "m", ascii "f"]
    { content := ascii "old", modTime := 1 } ⟨by decide, by decide, by decide, by decide⟩

def hashRequest : Request where
  source := { kind := .disk, raw := ascii "/s", localPath := ascii "/s" }
  destination := { kind := .vfs, raw := ascii "/m", vfsPath := ascii "/m", mountName := ascii "m" }
  compareMode := .hash

/-- The mount keeps no times; the hash of a content is the content. -/
def contentEnv : Env where
  mounts := { drivers := [(ascii "m", { handle := 0 })], persists := fun _ => false }
  hashes p :=
    let content (x : Option (Node FileData)) : Bytes :=
      match x with
      | some (.file data) => data.content
      | _ => []
    let here := content (deceptiveWorld.disk.get ([ascii "s"] ++ p))
    { remoteA := .ok ⟨[], [], false⟩
      remoteB := .ok ⟨ascii "id", content (deceptiveWorld.vfs.get ([ascii "m"] ++ p)), true⟩
      encryptedHash := fun _ => .ok here
      localHash := fun _ => .ok here }
  faults _ _ := {}

theorem verified_contentEnv : Verified (fun _ => ascii "id") (fun _ c => c) contentEnv hashRequest deceptiveWorld := by
  have hS : hashRequest.source.root = [ascii "s"] := by decide +kernel
  have hD : hashRequest.destination.root = [ascii "m"] := by decide +kernel
  constructor
  · intro p a b _ hkind
    cases hkind
  · intro p a b hpair _
    have hget : deceptiveWorld.vfs.get ([ascii "m"] ++ p) = some (.file b) := hD ▸ hpair.2
    simp only [contentEnv, hget]
  · intro p a b hpair _
    have hget : deceptiveWorld.disk.get ([ascii "s"] ++ p) = some (.file a) := hS ▸ hpair.1
    simp only [contentEnv, hget, and_self]
  · intro p a b _ hkind
    cases hkind

theorem equal_iff_deceptiveWorld :
    (∀ p a, p ≠ [] → (deceptiveWorld.side hashRequest.source.kind).get (hashRequest.source.root ++ p) =
        some (.file a) →
      ∃ b, ((run contentEnv hashRequest none deceptiveWorld).world.side hashRequest.destination.kind).get
          (hashRequest.destination.root ++ p) = some (.file b) ∧ b.content = a.content) ↔
      targetSupportsMTime contentEnv.mounts hashRequest.destination = true ∨
        ∀ p, p ≠ [] → ¬ Deceptive hashRequest deceptiveWorld p :=
  equal_iff contentEnv hashRequest none deceptiveWorld (fun _ => ascii "id") (fun _ c => c) rfl rfl rfl
    verified_contentEnv (fun _ _ _ _ h => h) (fun _ _ l _ => still_of_kind (by decide) l) (by decide +kernel)
    (by decide +kernel)

/-- The run reports success without conflicts, and the older file is still there. -/
theorem deceptive_not_transferred : (run contentEnv hashRequest none deceptiveWorld).result.ok = true ∧
      (run contentEnv hashRequest none deceptiveWorld).result.summary.conflict = 0 ∧
      deceptiveWorld.disk.get [ascii "s", ascii "f"] = some (.file { content := ascii "new", modTime := 2 }) ∧
      (run contentEnv hashRequest none deceptiveWorld).world.vfs.get [ascii "m", ascii "f"] =
        some (.file { content := ascii "old", modTime := 1 }) := by
  decide +kernel

end Sync
