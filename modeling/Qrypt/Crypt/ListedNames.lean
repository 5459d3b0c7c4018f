import Qrypt.Crypt.Names
import Qrypt.Crypt.NonceCache

/-!
# Names written and listed through the encrypting driver

`Mkdir`, `PutSource` and `Rename` encrypt a name as it stands; `List` decrypts the names it finds,
drops those that are not valid and trims the others. Over runs of these operations on a backend that
keeps names verbatim, every name that is stored is the text of some name written (`CleanNames`), so a
listing shows each of them as it was written: as long as no valid name with white space around it is
written (`names_listed_as_written`).
-/

namespace Crypt

open Infra Drive List

/-- The names of a cipher as the driver uses them. A panic of `DecryptSegment` is given as an error here; it does not
occur for the texts of names. -/
def NameCipher.part (prim : NamePrimitives) (dedup : FixedBytes 32 → Int → Except Err Nonce)
    (c : NameCipher) : NamePart where
  encryptSegment := encryptSegment prim c
  decryptSegment s := (decryptSegment prim c s).mapError fun
    | .error e => e
    | .panic => .text "panic"
  contentDedupNonce := dedup

/-! ## Backends and operations -/

section Stores

variable {σ : Type}

/-- A call to store `name` under `parent`: nothing else appears, and the name is there when the call succeeds. -/
def StoresName (names : σ → Bytes → Set Bytes) (b b' : σ) (parent name : Bytes) (ok : Prop) : Prop :=
  (∀ p n, n ∈ names b' p → n ∈ names b p ∨ p = parent ∧ n = name) ∧ (ok → name ∈ names b' parent)

/-- The backend keeps names verbatim: `names b p` are the names under `p`. -/
structure VerbatimNames (raw : Drive.Driver σ) (names : σ → Bytes → Set Bytes) : Prop where
  list : ∀ b p es, raw.list b p = .ok es → ∀ n, n ∈ names b p ↔ ∃ x ∈ es, x.name = n
  mkdir : ∀ b parent name, StoresName names b (raw.mkdir b parent name).2 parent name
    ((raw.mkdir b parent name).1.isOk = true)
  putSource : ∀ b req, StoresName names b (raw.putSource b req).2 req.parentID req.name
    ((raw.putSource b req).1.isOk = true)
  rename : ∀ b entry name, StoresName names b (raw.rename b entry name).2 entry.parentID name
    ((raw.rename b entry name).1.isOk = true)
  move : ∀ b entry dst p n, n ∈ names (raw.move b entry dst).2 p → ∃ p', n ∈ names b p'
  remove : ∀ b entry p n, n ∈ names (raw.remove b entry).2 p → n ∈ names b p

end Stores

/-- The operations of the driver that change what names there are. -/
inductive NameOp where
  | mkdir (parentID name : Bytes)
  | putSource (req : UploadRequest) (random : Except Err Nonce)
  | rename (entry : Entry) (newName : Bytes)
  | move (entry : Entry) (dstParentID : Bytes)
  | remove (entry : Entry)

/-- The name an operation writes, and where. -/
def NameOp.written : NameOp → Option (Bytes × Bytes)
  | .mkdir parentID name => some (parentID, name)
  | .putSource req _ => some (req.parentID, req.name)
  | .rename entry newName => some (entry.parentID, newName)
  | .move _ _ => none
  | .remove _ => none

section Run

variable {σ : Type} (hash : HashAlgorithm → Bytes → Bytes)

/-- Runs an operation: whether it succeeds, and the driver after it. -/
def NameOp.exec (d : Driver σ) : NameOp → Bool × Driver σ
  | .mkdir parentID name => ((d.mkdir parentID name).1.isOk, (d.mkdir parentID name).2)
  | .putSource req random => ((d.putSource hash req random).1.isOk, (d.putSource hash req random).2)
  | .rename entry newName => ((d.rename entry newName).1.isOk, (d.rename entry newName).2)
  | .move entry dst => ((d.move entry dst).1.isOk, (d.move entry dst).2)
  | .remove entry => ((d.remove entry).1.isNone, (d.remove entry).2)

/-- If a name that is written is valid it has no white space around it, and obfuscated its code points add up to an
`int`. -/
def NameOk (c : NameCipher) (name : Bytes) : Prop :=
  (Driver.validPlainName name = true → trimSpace name = name) ∧
    (c.filenameEncryption = .obfuscate → (runeValues name).sum < 2 ^ 63)

/-- Every name stored is the text of a name that meets the condition. -/
def CleanNames (prim : NamePrimitives) (c : NameCipher) (names : σ → Bytes → Set Bytes) (b : σ) : Prop :=
  ∀ p n, n ∈ names b p → ∃ m, NameOk c m ∧ n = encryptSegment prim c m

variable {hash} {prim : NamePrimitives} {c : NameCipher} {names : σ → Bytes → Set Bytes} {d : Driver σ}

/-- What an operation may do: what is written is stored as its text, and there when it succeeds; nothing else appears.
-/
def Frames (names : σ → Bytes → Set Bytes) (written : Option (Bytes × Bytes)) (d d' : Driver σ) (ok : Bool) : Prop :=
  d'.raw = d.raw ∧ d'.cp = d.cp ∧
    (∀ p n, n ∈ names d'.backend p → (∃ p', n ∈ names d.backend p') ∨
      ∃ t, written = some t ∧ n = d.cp.encryptSegment t.2) ∧
    ∀ t, written = some t → ok = true → d.cp.encryptSegment t.2 ∈ names d'.backend t.1

theorem frames_failed (written : Option (Bytes × Bytes)) {d' : Driver σ} (hraw : d'.raw = d.raw)
    (hcp : d'.cp = d.cp) (hb : d'.backend = d.backend) : Frames names written d d' false :=
  ⟨hraw, hcp, fun p _ hn => .inl ⟨p, hb ▸ hn⟩, fun _ _ h => nomatch h⟩

theorem frames_stores {parent name : Bytes} (d' : Driver σ) {ok : Bool} {okRaw : Prop}
    (h : StoresName names d.backend d'.backend parent (d.cp.encryptSegment name) okRaw)
    (hraw : d'.raw = d.raw) (hcp : d'.cp = d.cp) (hok : ok = true → okRaw) :
    Frames names (some (parent, name)) d d' ok := by
  refine ⟨hraw, hcp, fun p n hn => ?_, fun t ht hs => ?_⟩
  · rcases h.1 p n hn with hold | ⟨-, hnew⟩
    · exact .inl ⟨p, hold⟩
    · exact .inr ⟨_, rfl, hnew⟩
  · cases ht
    exact h.2 (hok hs)

variable (hash) in
theorem NameOp.exec_frames (hraw : VerbatimNames d.raw names) (op : NameOp) :
    Frames names op.written d (op.exec hash d).2 (op.exec hash d).1 := by
  cases op with
  | mkdir parentID name =>
    have h := hraw.mkdir d.backend parentID (d.cp.encryptSegment name)
    simp only [exec, Driver.mkdir]
    rcases hres : d.raw.mkdir d.backend parentID (d.cp.encryptSegment name) with ⟨r, b'⟩
    rw [hres] at h
    cases r with
    | error e => exact frames_stores { d with backend := b' } h rfl rfl (fun h => h)
    | ok entry => exact frames_stores { d with backend := b' } h rfl rfl (fun h => h)
  | rename entry newName =>
    have h := hraw.rename d.backend entry (d.cp.encryptSegment newName)
    simp only [exec, Driver.rename]
    rcases hres : d.raw.rename d.backend entry (d.cp.encryptSegment newName) with ⟨r, b'⟩
    rw [hres] at h
    cases r with
    | error e => exact frames_stores { d with backend := b' } h rfl rfl (fun h => h)
    | ok entry => exact frames_stores { d with backend := b' } h rfl rfl (fun h => h)
  | putSource req random =>
    show Frames names (some (req.parentID, req.name)) d (d.putSource hash req random).2
      (d.putSource hash req random).1.isOk
    cases hnonce : d.nonceForSource req.source random with
    | error e =>
      rw [show d.putSource hash req random = (.error e, d) by simp only [Driver.putSource, hnonce]]
      exact frames_failed _ rfl rfl rfl
    | ok nonce =>
      obtain ⟨cache, hcache⟩ := uploadHashes_snd hash d req.source (Driver.encryptedSource d.cp req.source nonce {})
      rcases hhash : d.uploadHashes hash req.source (Driver.encryptedSource d.cp req.source nonce {}) with ⟨r, d'⟩
      rw [hhash] at hcache
      obtain rfl : d' = { d with hashCache := cache } := hcache
      cases r with
      | error e =>
        have hput : d.putSource hash req random = (.error e, { d with hashCache := cache }) := by
          simp only [Driver.putSource, hnonce, hhash]
        rw [hput]
        exact frames_failed _ rfl rfl rfl
      | ok hashes =>
        have h := hraw.putSource d.backend { req with
          name := d.cp.encryptSegment req.name
          source := Driver.encryptedSource d.cp req.source nonce hashes }
        rcases hres : d.raw.putSource d.backend { req with
          name := d.cp.encryptSegment req.name
          source := Driver.encryptedSource d.cp req.source nonce hashes } with ⟨r, b'⟩
        rw [hres] at h
        cases r with
        | error e =>
          have hput : d.putSource hash req random = (.error e, { d with hashCache := cache, backend := b' }) := by
            simp only [Driver.putSource, hnonce, hhash, hres]
          rw [hput]
          exact frames_stores { d with hashCache := cache, backend := b' } h rfl rfl (fun h => h)
        | ok entry =>
          have hput : d.putSource hash req random
              = (.ok { entry with
                  remoteName := some (d.cp.encryptSegment req.name), name := req.name,
                  size := req.source.size },
                { d with hashCache := cache, backend := b' }.storeNonce entry.id nonce) := by
            simp only [Driver.putSource, hnonce, hhash, hres]
          rw [hput]
          exact frames_stores (d := d) ({ d with hashCache := cache, backend := b' }.storeNonce
            entry.id nonce) h rfl rfl (fun h => h)
  | move entry dst =>
    have h := hraw.move d.backend entry dst
    simp only [exec, Driver.move]
    rcases hres : d.raw.move d.backend entry dst with ⟨r, b'⟩
    rw [hres] at h
    cases r with
    | error e => exact ⟨rfl, rfl, fun p n hn => .inl (h p n hn), fun t ht => by cases ht⟩
    | ok moved => exact ⟨rfl, rfl, fun p n hn => .inl (h p n hn), fun t ht => by cases ht⟩
  | remove entry =>
    have h := hraw.remove d.backend entry
    exact ⟨rfl, rfl, fun p n hn => .inl ⟨p, h p n hn⟩, fun t ht => by cases ht⟩

/-! ## Listings -/

variable {sb : SecretBox} {rc : RcloneCipher} {dedup : FixedBytes 32 → Int → Except Err Nonce}
  (h : prim.Lawful) (hcp : d.cp = rc.cipher sb (c.part prim dedup))

include h hcp

/-- **What a listing makes of the text of a name.** -/
theorem listEntry_encryptSegment {name : Bytes} (hname : NameOk c name) {x : Entry}
    (hx : x.name = encryptSegment prim c name) :
    (∀ e, Driver.listEntry d.cp x = some e → e.name = name ∧ e.remoteName = some (encryptSegment prim c name)) ∧
      (Driver.validPlainName name = true → ∃ e, Driver.listEntry d.cp x = some e) := by
  have hdec : d.cp.decryptSegment x.name = .ok name := by
    rw [hcp, hx]
    show (decryptSegment prim c (encryptSegment prim c name)).mapError _ = _
    rw [decryptSegment_encryptSegment h hname.2]
    rfl
  simp only [Driver.listEntry, hdec]
  by_cases hvalid : Driver.validPlainName name = true
  · rw [if_pos hvalid]
    constructor
    · intro e he
      cases he
      exact ⟨hname.1 hvalid, congrArg some hx⟩
    · intro _
      exact ⟨_, rfl⟩
  · rw [if_neg hvalid]
    exact ⟨fun e he => (nomatch he), fun hv => absurd hv hvalid⟩

theorem list_of_cleanNames (hraw : VerbatimNames d.raw names) (hclean : CleanNames prim c names d.backend)
    {p : Bytes} {es : List Entry} (hlist : d.list p = .ok es) :
    (∀ e ∈ es, ∃ m, NameOk c m ∧ e.name = m ∧ e.remoteName = some (encryptSegment prim c m)) ∧
      ∀ name, NameOk c name → Driver.validPlainName name = true →
        encryptSegment prim c name ∈ names d.backend p → ∃ e ∈ es, e.name = name := by
  rw [Driver.list] at hlist
  cases hraw' : d.raw.list d.backend p with
  | error e => rw [hraw'] at hlist; cases hlist
  | ok xs =>
    rw [hraw'] at hlist
    cases hlist
    have hnames := hraw.list d.backend p xs hraw'
    constructor
    · intro e he
      obtain ⟨x, hx, hentry⟩ := mem_filterMap.mp he
      obtain ⟨m, hm, hxm⟩ := hclean p x.name ((hnames x.name).mpr ⟨x, hx, rfl⟩)
      exact ⟨m, hm, (listEntry_encryptSegment h hcp hm hxm).1 e hentry⟩
    · intro name hok hvalid hmem
      obtain ⟨x, hx, hxn⟩ := (hnames _).mp hmem
      have hspec := listEntry_encryptSegment h hcp hok hxn
      obtain ⟨e, he⟩ := hspec.2 hvalid
      exact ⟨e, mem_filterMap.mpr ⟨x, hx, he⟩, (hspec.1 e he).1⟩

omit h hcp

end Run

/-- **Names are listed as they were written**, in every run that writes no valid name with white space around it, from a
backend that holds none; a valid name is in the listing after it was written. -/
theorem names_listed_as_written {σ : Type} (hash : HashAlgorithm → Bytes → Bytes)
    {prim : NamePrimitives} (h : prim.Lawful) {c : NameCipher} {sb : SecretBox} {rc : RcloneCipher}
    {dedup : FixedBytes 32 → Int → Except Err Nonce} {names : σ → Bytes → Set Bytes}
    {d₀ d : Driver σ} (hraw : VerbatimNames d₀.raw names)
    (hcp : d₀.cp = rc.cipher sb (c.part prim dedup))
    (hstart : CleanNames prim c names d₀.backend)
    (hrun : Reaches (fun d (op : NameOp) d' => d' = (op.exec hash d).2)
      (fun _ op => ∀ t, op.written = some t → NameOk c t.2) d₀ d) :
    (∀ p es, d.list p = .ok es → ∀ e ∈ es,
      e.remoteName = some (encryptSegment prim c e.name) ∧
        ∀ m, NameOk c m → e.remoteName = some (encryptSegment prim c m) → e.name = m) ∧
      ∀ (op : NameOp) parent name, op.written = some (parent, name) → NameOk c name →
        Driver.validPlainName name = true → (op.exec hash d).1 = true →
        ∀ es, (op.exec hash d).2.list parent = .ok es → ∃ e ∈ es, e.name = name := by
  -- one step keeps the names clean
  have step : ∀ (d : Driver σ) (op : NameOp), VerbatimNames d.raw names →
      d.cp = rc.cipher sb (c.part prim dedup) → CleanNames prim c names d.backend →
      (∀ t, op.written = some t → NameOk c t.2) →
      CleanNames prim c names (op.exec hash d).2.backend := by
    intro d op hraw hcp hclean hok p n hn
    rcases (op.exec_frames hash hraw).2.2.1 p n hn with ⟨p', hp'⟩ | ⟨t, ht, heq⟩
    · exact hclean p' n hp'
    · exact ⟨t.2, hok t ht, heq.trans (by rw [hcp]; rfl)⟩
  obtain ⟨hraw, hcp, hclean⟩ : VerbatimNames d.raw names ∧
      d.cp = rc.cipher sb (c.part prim dedup) ∧ CleanNames prim c names d.backend := by
    refine hrun.invariant (fun d => VerbatimNames d.raw names ∧
      d.cp = rc.cipher sb (c.part prim dedup) ∧ CleanNames prim c names d.backend)
      ⟨hraw, hcp, hstart⟩ ?_
    rintro d op d' ⟨hraw, hcp, hclean⟩ hok rfl
    have hframes := op.exec_frames hash hraw
    exact ⟨hframes.1 ▸ hraw, hframes.2.1 ▸ hcp, step d op hraw hcp hclean hok⟩
  constructor
  · intro p es hlist e he
    obtain ⟨m, hm, hname, hremote⟩ := (list_of_cleanNames h hcp hraw hclean hlist).1 e he
    refine ⟨hname ▸ hremote, fun m' hm' hremote' => ?_⟩
    -- the text of a name determines the name
    have htext := Option.some.inj (hremote.symm.trans hremote')
    have hdec := decryptSegment_encryptSegment h hm.2
    rw [htext, decryptSegment_encryptSegment h hm'.2] at hdec
    exact hname.trans (Except.ok.inj hdec).symm
  · intro op parent name hwritten hname hvalid hok es hlist
    have hframes := op.exec_frames hash hraw
    have hcp' := hframes.2.1.trans hcp
    have hok' : ∀ t, op.written = some t → NameOk c t.2 := by
      intro t ht
      rw [hwritten] at ht
      cases ht
      exact hname
    have hmem := hframes.2.2.2 _ hwritten hok
    have henc : d.cp.encryptSegment = encryptSegment prim c := by
      rw [hcp]
      rfl
    rw [henc] at hmem
    exact (list_of_cleanNames h hcp' (hframes.1 ▸ hraw) (step d op hraw hcp hclean hok') hlist).2
      name hname hvalid hmem

/-! ### A backend to evaluate the model with -/

/-- A backend that holds the entries of directories; nothing is moved or renamed. -/
def entriesDriver : Drive.Driver (List Entry) where
  list b p := .ok (b.filter (·.parentID = p))
  read _ _ _ _ := .error (.text "no content")
  mkdir b p name := (.ok ⟨name, p, name, true, 0, none⟩, b ++ [⟨name, p, name, true, 0, none⟩])
  move b _ _ := (.error (.text "unsupported"), b)
  rename b _ _ := (.error (.text "unsupported"), b)
  remove b entry := (none, b.filter (·.id ≠ entry.id))
  putSource b _ := (.error (.text "unsupported"), b)
  requiredUploadHashes := []

def entryNames (b : List Entry) (p : Bytes) : Set Bytes := {n | ∃ x ∈ b, x.parentID = p ∧ x.name = n}

theorem verbatim_entriesDriver : VerbatimNames entriesDriver entryNames where
  list b p es hes n := by
    cases hes
    simp only [entryNames, Set.mem_ofPred_eq, mem_filter, decide_eq_true_eq, and_assoc]
  mkdir b p name := by
    refine ⟨?_, fun _ => ⟨_, mem_append_right _ (mem_singleton_self _), rfl, rfl⟩⟩
    rintro q n ⟨x, hx, rfl, rfl⟩
    rcases mem_append.mp hx with hx | hx
    · exact .inl ⟨x, hx, rfl, rfl⟩
    · rw [mem_singleton.mp hx]
      exact .inr ⟨rfl, rfl⟩
  putSource b req := ⟨fun p n hn => .inl hn, fun h => nomatch h⟩
  rename b entry name := ⟨fun p n hn => .inl hn, fun h => nomatch h⟩
  move b entry dst p n hn := ⟨p, hn⟩
  remove b entry := by
    rintro p n ⟨x, hx, hp, hn⟩
    exact ⟨x, (mem_filter.mp hx).1, hp, hn⟩

/-- A driver over an empty backend, with standard names. -/
def emptyNames : Driver (List Entry) :=
  Driver.new entriesDriver [] (zeroCipher.cipher lengthBox
    ((zeroNames .base32).part plainPrimitives fun _ _ => .ok zeroNonce)) false

theorem names_listed_as_written_mkdir :
    ∃ es, ((NameOp.mkdir [] (ascii "a")).exec (fun _ b => b) emptyNames).2.list [] = .ok es ∧
      ∃ e ∈ es, e.name = ascii "a" := by
  have hraw : VerbatimNames emptyNames.raw entryNames := verbatim_entriesDriver
  have hcp : emptyNames.cp = zeroCipher.cipher lengthBox
      ((zeroNames .base32).part plainPrimitives fun _ _ => .ok zeroNonce) := rfl
  have h := names_listed_as_written (fun _ b => b) lawful_plainPrimitives hraw hcp
    (fun p n ⟨x, hx, _⟩ => absurd hx not_mem_nil) (Reaches.refl _)
  refine ⟨_, rfl, h.2 (.mkdir [] (ascii "a")) [] (ascii "a") rfl ⟨fun _ => ?_, nofun⟩ ?_ rfl _ rfl⟩
  · decide +kernel
  · decide +kernel

/-- A directory is made under a name with a space in front, and listed under another name with another text. -/
theorem spaced_name_listed_trimmed : Driver.validPlainName (ascii " a") = true ∧
      (emptyNames.mkdir [] (ascii " a")).1.isOk = true ∧
      ((emptyNames.mkdir [] (ascii " a")).2.list []).toOption.map (map fun e => (e.name, e.remoteName)) =
        some [(ascii "a", some (encryptSegment plainPrimitives (zeroNames .base32) (ascii " a")))] ∧
      encryptSegment plainPrimitives (zeroNames .base32) (ascii " a") ≠
        encryptSegment plainPrimitives (zeroNames .base32) (ascii "a") := by
  decide +kernel

end Crypt
