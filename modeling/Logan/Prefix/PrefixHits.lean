import Logan.Prefix.PrefixSoundness

/-!
# Where the hits of the prefix cache come from

Along a run of a world, entries come in from two sides: they are cached, or
they are in the files, which may have been changed. The **origins** of a run
are both of them.

Every hit goes back to an origin. If that is something that was cached, then
it was cached under the identity of the query; if it is a file, then a
complete container, with the fingerprints and the tokens of the query, has
been brought in. The second cannot be excluded, since nothing in a container
is secret.
-/

namespace Logan

open List PrefixRuntime SsdPrefixStore PrefixKey Table

/-! ## Origins -/

/-- Where an entry may come from. -/
inductive PrefixOrigin where
  /-- A runtime with this salt has accepted the entry. -/
  | cached (salt : List UInt8) (key : PrefixKey) (snapshot : StateSnapshot)
  /-- These files were there, or have been brought in. -/
  | files (directory : Directory)

/-- What the model fingerprint of a key and the salt make the digest of:
`with_salt`. -/
def saltInput (salt : List UInt8) (model : ModelFingerprint) : List UInt8 :=
  utf8 "logan-prefix-salt-v1" ++ (model.digest.val ++ salt)

section Sha

variable (sha256 : List UInt8 → Bytes 32)

/-- Some file of the directory is a container of the entry. -/
def Holds (dir : Directory) (key : PrefixKey) (snapshot : StateSnapshot) : Prop :=
  ∃ name content, dir.lookup name = some (some content) ∧
    (readFile sha256 content).result = .ok (key, snapshot)

/-- What an origin may be the origin of. -/
def PrefixOrigin.Gives : PrefixOrigin → PrefixKey → StateSnapshot → Prop
  | cached salt key snapshot, key', snapshot' =>
    key' = saltedKey sha256 salt key ∧ snapshot' = snapshot
  | files dir, key, snapshot => Holds sha256 dir key snapshot

/-- Two models, each under a salt, of which the digests are the same although
the models or the salts are not: the digests of two inputs collide, or the
fingerprint of one of the models is the digest of the other one with its
salt. -/
def Confused (salt : List UInt8) (model : ModelFingerprint) (salt' : List UInt8)
    (model' : ModelFingerprint) : Prop :=
  (salt ≠ [] ∧ salt' ≠ [] ∧ saltInput salt model ≠ saltInput salt' model' ∧
    sha256 (saltInput salt model) = sha256 (saltInput salt' model')) ∨
  (salt = [] ∧ salt' ≠ [] ∧ model.digest = sha256 (saltInput salt' model')) ∨
  (salt ≠ [] ∧ salt' = [] ∧ model'.digest = sha256 (saltInput salt model))

/-- **The identity of a model in the cache** is its fingerprint with the
salt. -/
def SameModel (salt : List UInt8) (model : ModelFingerprint) (salt' : List UInt8)
    (model' : ModelFingerprint) : Prop :=
  (salt = salt' ∧ model = model') ∨ Confused sha256 salt model salt' model'

variable {sha256}

theorem saltInput_injective {salt salt' : List UInt8} {model model' : ModelFingerprint}
    (h : saltInput salt model = saltInput salt' model') : salt = salt' ∧ model = model' := by
  obtain ⟨hdig, hsal⟩ := append_inj (append_cancel_left h)
    (model.digest.property.trans model'.digest.property.symm)
  exact ⟨hsal, ModelFingerprint.ext (Subtype.ext hdig)⟩

/-- **Equal salted fingerprints** are those of one model under one salt, but
for confusion. -/
theorem sameModel_of_salted {salt salt' : List UInt8} {key key' : PrefixKey}
    (h : (saltedKey sha256 salt key).modelFingerprint =
      (saltedKey sha256 salt' key').modelFingerprint) :
    SameModel sha256 salt key.modelFingerprint salt' key'.modelFingerprint := by
  unfold saltedKey at h
  by_cases hsal : salt = [] <;> by_cases hsal' : salt' = []
  · rw [if_pos hsal, if_pos hsal'] at h
    exact Or.inl ⟨hsal.trans hsal'.symm, h⟩
  · rw [if_pos hsal, if_neg hsal'] at h
    exact Or.inr (Or.inr (Or.inl ⟨hsal, hsal', congrArg ModelFingerprint.digest h⟩))
  · rw [if_neg hsal, if_pos hsal'] at h
    exact Or.inr (Or.inr (Or.inr ⟨hsal, hsal', (congrArg ModelFingerprint.digest h).symm⟩))
  · rw [if_neg hsal, if_neg hsal'] at h
    by_cases hinp : saltInput salt key.modelFingerprint = saltInput salt' key'.modelFingerprint
    · exact Or.inl (saltInput_injective hinp)
    · exact Or.inr (Or.inl ⟨hsal, hsal', hinp, congrArg ModelFingerprint.digest h⟩)

theorem saltedKey_tokens (salt : List UInt8) (key : PrefixKey) :
    (saltedKey sha256 salt key).prefixTokens = key.prefixTokens := by
  unfold saltedKey
  split_ifs
  · rfl
  · rfl

theorem saltedKey_contract (sha256 : List UInt8 → Bytes 32) (salt : List UInt8) (key : PrefixKey) :
    (saltedKey sha256 salt key).stateSchemaFingerprint = key.stateSchemaFingerprint ∧
    (saltedKey sha256 salt key).tokenizerFingerprint = key.tokenizerFingerprint ∧
    (saltedKey sha256 salt key).planFingerprint = key.planFingerprint := by
  unfold saltedKey
  split_ifs
  · exact ⟨rfl, rfl, rfl⟩
  · exact ⟨rfl, rfl, rfl⟩

theorem PrefixKey.sameContract_iff {key other : PrefixKey} :
    key.sameContract other = true ↔ key.modelFingerprint = other.modelFingerprint ∧
      key.stateSchemaFingerprint = other.stateSchemaFingerprint ∧
      key.tokenizerFingerprint = other.tokenizerFingerprint ∧
      key.planFingerprint = other.planFingerprint := by
  unfold sameContract
  simp only [Bool.and_eq_true, decide_eq_true_eq, and_assoc]

/-! ## Runs -/

namespace PrefixWorld

variable (sha256)

/-- The origins that a step brings in. -/
def brings (w : PrefixWorld) : PrefixOp → List PrefixOrigin
  | .cache key snapshot _ =>
    match w.runtime with
    | some rt => if rt.Accepts key snapshot then [.cached rt.config.salt key snapshot] else []
    | none => []
  | .corrupt dir => [.files dir]
  | _ => []

/-- **The origins of a run**: what has been cached, and the files that were
there at first or have been brought in. -/
def origins (dir : Directory) (ops : List PrefixOp) : List PrefixOrigin :=
  .files dir :: (machine sha256).gather brings (initial dir) ops

/-- What is in memory and in the files is good. -/
def Good (G : PrefixKey → StateSnapshot → Prop) (w : PrefixWorld) : Prop :=
  GoodDirectory sha256 G w.directory ∧ ∀ rt, w.runtime = some rt → GoodTable G rt.ramCache

variable {sha256} {G : PrefixKey → StateSnapshot → Prop}

theorem brings_of_accepts {w : PrefixWorld} (rt : PrefixRuntime) {key : PrefixKey}
    {snapshot : StateSnapshot} {faults : StoreFaults} (hrt : w.runtime = some rt)
    (h : rt.Accepts key snapshot) :
    brings w (.cache key snapshot faults) = [.cached rt.config.salt key snapshot] := by
  unfold brings
  rw [hrt]
  exact if_pos h

theorem good_answer {A : Type} {answerOk : A → PrefixAnswer}
    {result : Except (Failure String) A} {dir : Directory} {rt : PrefixRuntime}
    (hdir : GoodDirectory sha256 G dir) (hram : GoodTable G rt.ramCache) :
    Good sha256 G (answer answerOk result dir rt).2 := by
  have hsom : Good sha256 G ⟨dir, some rt⟩ := by
    refine ⟨hdir, fun rt' h => ?_⟩
    obtain rfl := Option.some.inj h
    exact hram
  have hnon : Good sha256 G ⟨dir, none⟩ := ⟨hdir, fun _ h => by cases h⟩
  cases result with
  | ok => exact hsom
  | error e =>
    cases e with
    | error => exact hsom
    | panic | endless => exact hnon

/-- **A step keeps the world good**, if what it brings in is good. -/
theorem good_next {w : PrefixWorld} {op : PrefixOp} (hw : Good sha256 G w)
    (hbr : ∀ o ∈ brings w op, ∀ key snapshot, o.Gives sha256 key snapshot → G key snapshot) :
    Good sha256 G ((machine sha256).next w op) := by
  obtain ⟨dir, runtime⟩ := w
  obtain ⟨hdir, hrun⟩ := hw
  show Good sha256 G (step sha256 ⟨dir, runtime⟩ op).2
  cases op with
  | restart config faults =>
    cases hnew : PrefixRuntime.new sha256 faults config dir with
    | error =>
      simp only [step, hnew]
      exact ⟨hdir, fun _ h => by cases h⟩
    | ok =>
      simp only [step, hnew]
      obtain ⟨hram, hdir', -⟩ := new_good hdir hnew
      refine ⟨hdir', fun rt h => ?_⟩
      cases h
      exact hram
  | cache key snapshot faults =>
    cases runtime with
    | none => exact ⟨hdir, hrun⟩
    | some rt =>
      have hcac : rt.Accepts key snapshot → G (rt.effectiveKey sha256 key) snapshot := by
        intro hacc
        refine hbr (.cached rt.config.salt key snapshot) ?_ _ _ ⟨rfl, rfl⟩
        rw [brings_of_accepts rt rfl hacc]
        exact mem_singleton_self _
      obtain ⟨hram, hdir'⟩ := cachePrefix_good (hrun rt rfl) hdir hcac
      exact good_answer hdir' hram
  | lookup query faults =>
    cases runtime with
    | none => exact ⟨hdir, hrun⟩
    | some rt =>
      exact good_answer hdir (lookupPrefix_good faults query (hrun rt rfl) hdir).1
  | clear =>
    cases runtime with
    | none => exact ⟨hdir, hrun⟩
    | some =>
      refine ⟨hdir, fun rt' h => ?_⟩
      obtain rfl := Option.some.inj h
      exact fun f e h => by cases h
  | corrupt dir' =>
    refine ⟨fun name content entry hnam hrd => ?_, hrun⟩
    exact hbr (.files dir') (mem_singleton_self _) _ _ ⟨name, content, hnam, hrd⟩

/-- **All that is in memory and in the files** of a run has an origin. -/
theorem good_run (sha256 : List UInt8 → Bytes 32) (dir : Directory) (ops : List PrefixOp) :
    Good sha256 (fun key snapshot => ∃ o ∈ origins sha256 dir ops, o.Gives sha256 key snapshot)
      ((machine sha256).run (initial dir) ops) := by
  refine Machine.run_of_along (fun w op hw hop => good_next hw hop) ?_
    (Machine.along_of_mem_gather ?_)
  · refine ⟨fun name content entry hnam hrd => ?_, fun _ h => by cases h⟩
    exact ⟨.files dir, mem_cons_self, name, content, hnam, hrd⟩
  · exact fun o ho key snapshot hgiv => ⟨o, mem_cons_of_mem _ ho, hgiv⟩

/-! ## Hits -/

variable (sha256)

/-- **Where a hit comes from**: from something that has been cached for these
tokens, under this identity, or from a file that is a complete container for
them. -/
def HitOrigin (os : List PrefixOrigin) (salt : List UInt8) (query : PrefixKey) (n : ℕ)
    (snapshot : StateSnapshot) : Prop :=
  (∃ salt' key, PrefixOrigin.cached salt' key snapshot ∈ os ∧
    key.prefixTokens.toList = query.prefixTokens.toList.take n ∧
    key.stateSchemaFingerprint = query.stateSchemaFingerprint ∧
    key.tokenizerFingerprint = query.tokenizerFingerprint ∧
    key.planFingerprint = query.planFingerprint ∧
    SameModel sha256 salt' key.modelFingerprint salt query.modelFingerprint) ∨
  ∃ dir key, PrefixOrigin.files dir ∈ os ∧ Holds sha256 dir key snapshot ∧
    key.prefixTokens.toList = query.prefixTokens.toList.take n ∧
    key.sameContract (saltedKey sha256 salt query) = true

/-- The answer to a lookup is accounted for: a hit has an origin. -/
def AccountedFor (os : List PrefixOrigin) (w : PrefixWorld) (query : PrefixKey) :
    PrefixAnswer → Prop
  | .found r => r.hit = true → ∃ rt snapshot, w.runtime = some rt ∧ r.snapshot = some snapshot ∧
      r.prefixLen ≤ query.prefixTokens.toList.length ∧
      HitOrigin sha256 os rt.config.salt query r.prefixLen snapshot
  | _ => True

variable {sha256}

theorem hitOrigin_of_gives {os : List PrefixOrigin} {o : PrefixOrigin} {salt : List UInt8}
    {query key : PrefixKey} {snapshot : StateSnapshot} (ho : o ∈ os)
    (hgiv : o.Gives sha256 key snapshot)
    (his : key.isPrefixOf (saltedKey sha256 salt query) = true) :
    key.prefixLen.toNat ≤ query.prefixTokens.toList.length ∧
    HitOrigin sha256 os salt query key.prefixLen.toNat snapshot := by
  obtain ⟨hcon, hst⟩ := (Bool.and_eq_true_iff).mp his
  rw [List.isPrefixOf_iff_prefix, saltedKey_tokens] at hst
  have htok : key.prefixTokens.toList = query.prefixTokens.toList.take key.prefixLen.toNat := by
    rw [key.toNat_prefixLen]
    exact prefix_iff_eq_take.mp hst
  refine ⟨key.toNat_prefixLen ▸ hst.length_le, ?_⟩
  cases o with
  | files dir => exact Or.inr ⟨dir, key, ho, hgiv, htok, hcon⟩
  | cached salt' key' =>
    obtain ⟨rfl, rfl⟩ := hgiv
    obtain ⟨hmod, hsch, htkn, hpl⟩ := sameContract_iff.mp hcon
    obtain ⟨hsch₁, htok₁, hpl₁⟩ := saltedKey_contract sha256 salt' key'
    obtain ⟨hsch₂, htok₂, hpl₂⟩ := saltedKey_contract sha256 salt query
    refine Or.inl ⟨salt', key', ho, ?_, ?_, ?_, ?_, sameModel_of_salted hmod⟩
    · rw [← htok, saltedKey_tokens]
    · rw [← hsch₁, hsch, hsch₂]
    · rw [← htok₁, htkn, htok₂]
    · rw [← hpl₁, hpl, hpl₂]

/-- **Every hit goes back to an origin of the run.** -/
theorem hits_accountedFor (sha256 : List UInt8 → Bytes 32) (dir : Directory)
    (ops : List PrefixOp) (query : PrefixKey) (faults : StoreFaults) :
    AccountedFor sha256 (origins sha256 dir ops) ((machine sha256).run (initial dir) ops) query
      ((machine sha256).out ((machine sha256).run (initial dir) ops) (.lookup query faults)) := by
  have hgd := good_run sha256 dir ops
  generalize (machine sha256).run (initial dir) ops = w at hgd ⊢
  obtain ⟨files, runtime⟩ := w
  cases runtime with
  | none => trivial
  | some rt =>
    have hhit := (lookupPrefix_good faults query (hgd.2 rt rfl) hgd.1).2
    show AccountedFor sha256 _ _ _ (answer .found (rt.lookupPrefix sha256 faults files query).1 _ _).1
    cases hres : (rt.lookupPrefix sha256 faults files query).1 with
    | error e => cases e <;> trivial
    | ok r =>
      intro hr
      obtain ⟨key, snapshot, ⟨o, ho, hgiv⟩, his, hlen, hsn⟩ := hhit r hres hr
      obtain ⟨hle, hor⟩ := hitOrigin_of_gives ho hgiv his
      rw [hlen]
      exact ⟨rt, snapshot, rfl, hsn, hle, hor⟩

end PrefixWorld

end Sha

/-! ## Files that have been planted -/

section Planted

variable (sha256 : List UInt8 → Bytes 32)

theorem size_le_usizeMax (key : PrefixKey) (v : Vec 1 UInt8) :
    key.prefixLen.toNat * 4 + v.toList.length ≤ usizeMax := by
  have htok := key.prefixTokens.fits
  have hv := v.fits
  rw [key.toNat_prefixLen]
  unfold usizeMax
  unfold isizeMax at htok hv
  omega

variable {s : StateSnapshot} {v : Vec 1 UInt8}

theorem cacheEntryBytes_of_toBytes {key : PrefixKey} (h : s.toBytes sha256 = .ok v) :
    cacheEntryBytes sha256 key s = .ok (key.prefixLen.toNat * 4 + v.toList.length) := by
  unfold cacheEntryBytes
  rw [h]
  exact if_neg (Nat.not_lt.mpr (size_le_usizeMax key v))

theorem PrefixKey.isPrefixOf_self (key : PrefixKey) : key.isPrefixOf key = true := by
  unfold isPrefixOf
  rw [sameContract_iff.mpr ⟨rfl, rfl, rfl, rfl⟩, Bool.true_and, List.isPrefixOf_iff_prefix]

namespace PrefixTable
theorem lookup_new {V : Type} (n : ℕ) (query : PrefixKey) :
    (PrefixTable.new n : PrefixTable V).lookup query = (none, PrefixTable.new n) := by
  have hsor : (PrefixTable.new n : PrefixTable V).sorted = [] := mergeSort_nil
  unfold lookup
  rw [hsor]
  rfl

theorem lookup_push_new {V : Type} (n size : ℕ) (key : PrefixKey) (value : V) :
    ((PrefixTable.new n).push key value size).lookup key =
      (some (key.fingerprint, ⟨key, value, size⟩),
        ((PrefixTable.new n).push key value size).touch key.fingerprint) := by
  have hsor : ((PrefixTable.new n).push key value size).sorted =
      [(key.fingerprint, ⟨key, value, size⟩)] := mergeSort_singleton _
  have hst := key.isPrefixOf_self
  unfold lookup
  rw [hsor, filter_cons_of_pos (by exact hst)]
  rfl
end PrefixTable

theorem indexInsert_new {n size : ℕ} (key : PrefixKey) (hsiz : size ≤ n)
    (hmax : size ≤ usizeMax) : indexInsert (PrefixTable.new n) key size =
      .ok ([], (PrefixTable.new n).push key () size) := by
  have hev : ((PrefixTable.new n : PrefixIndex).remove key.fingerprint).2.evictFor size =
      .ok ([], PrefixTable.new n) := by
    refine if_pos ?_
    show min (0 + size) usizeMax ≤ n
    rw [zero_add]
    exact min_le_of_left_le hsiz
  unfold indexInsert PrefixTable.insertWithEvictions
  rw [if_neg (by exact Nat.not_lt.mpr hsiz), hev, Result.ok_bind]
  refine if_neg (Nat.not_lt.mpr ?_)
  show 0 + size ≤ usizeMax
  rwa [zero_add]


variable {file : List UInt8}

theorem readFile_of_write {key : PrefixKey}
    (hhas : key.prefixTokenHash = hashTokens sha256 key.prefixTokens.toList)
    (h : writeSnapshot sha256 key s = .ok file) :
    (readFile sha256 file).result = .ok (key, s) := by
  obtain ⟨header, hrd⟩ := read_of_write sha256 hhas h
  exact readFile_eq_ok.mpr ⟨header, [], hrd⟩

/-- A runtime without room in memory, and with a lot of it in its store. -/
def forgedConfig : PrefixRuntimeConfig where
  ramCacheBytes := 0
  ssdCacheBytes := usizeMax
  hasRoot := true
  minCacheTokens := 0
  writesEnabled := true
  salt := []

namespace PrefixRuntime

/-- The runtime of `forgedConfig` that has one entry in its store. -/
def forgedRuntime (key : PrefixKey) (size : ℕ) : PrefixRuntime :=
  { empty forgedConfig with ssdIndex := (PrefixTable.new usizeMax).push key () size }

theorem cachePrefix_forged {key : PrefixKey} (hv : s.toBytes sha256 = .ok v)
    (hfil : writeSnapshot sha256 key s = .ok file) :
    (empty forgedConfig).cachePrefix sha256 (.only none none) ∅ key s =
      (.ok (), insert ∅ (snapshotPath sha256 key.fingerprint) (some file),
        forgedRuntime key (key.prefixLen.toNat * 4 + v.toList.length)) := by
  have hid := ((writeSnapshot_eq_ok sha256).mp hfil).1
  have hkey : (empty forgedConfig).effectiveKey sha256 key = key := rfl
  have hsiz : key.prefixLen.toNat * 4 + v.toList.length ≤ usizeMax := size_le_usizeMax key v
  have hins := indexInsert_new key hsiz hsiz
  rw [cachePrefix_of_accepts ⟨⟨Nat.zero_le _, rfl⟩, hid⟩, hkey]
  unfold cacheChecked
  rw [cacheEntryBytes_of_toBytes sha256 hv]
  generalize key.prefixLen.toNat * 4 + v.toList.length = size at hsiz hins ⊢
  show (empty forgedConfig).cacheStore sha256 (.only none none) ∅ key s size = _
  have hrm : ((empty forgedConfig).hasStore &&
      decide (size ≤ (empty forgedConfig).config.ssdCacheBytes)) = true := decide_eq_true hsiz
  have hwr : writeFor sha256 ∅ key s none =
      .ok (insert ∅ (snapshotPath sha256 key.fingerprint) (some file)) := by
    unfold writeFor
    rw [hfil]
    rfl
  unfold cacheStore
  rw [if_pos hrm, show (empty forgedConfig).ssdIndex = PrefixTable.new usizeMax from rfl, hins]
  dsimp only
  rw [show removeUnder sha256 (.only none none) 0 ∅ [] = ∅ from rfl,
    show (StoreFaults.only none none).write = none from rfl, hwr]
  rfl

/-- **A container that has been planted** for the key is a hit. -/
theorem lookupPrefix_forged {key : PrefixKey} {dir : Directory} (size : ℕ)
    (hhas : key.prefixTokenHash = hashTokens sha256 key.prefixTokens.toList)
    (hne : key.prefixTokens.toList ≠ []) (hv : s.toBytes sha256 = .ok v)
    (hfil : writeSnapshot sha256 key s = .ok file)
    (hdir : dir.lookup (snapshotPath sha256 key.fingerprint) = some (some file)) :
    ((forgedRuntime key size).lookupPrefix sha256 (.only none none) dir key).1 =
      .ok (.found false key.prefixLen.toNat key.prefixLen.toNat s) := by
  have hrd : readUnder sha256 (.only none none) dir key.fingerprint = .ok (key, s) := by
    show readFor sha256 dir key.fingerprint = _
    unfold readFor
    rw [hdir]
    dsimp only
    rw [readFile_of_write sha256 hhas hfil]
    exact if_neg (not_not.mpr rfl)
  have hst : key.isPrefixOf key = true := isPrefixOf_self key
  have hram : (forgedRuntime key size).ramCache.lookup key =
      (none, PrefixTable.new 0) := PrefixTable.lookup_new 0 key
  have hidx : (forgedRuntime key size).ssdIndex.lookup key = _ :=
    PrefixTable.lookup_push_new usizeMax size key ()
  have hlrg : ¬ key.prefixLen.toNat * 4 + v.toList.length ≤ 0 := by
    have hlen := length_pos_of_ne_nil hne
    rw [← key.toNat_prefixLen] at hlen
    omega
  show ((forgedRuntime key size).lookupEffective sha256 (.only none none) dir key).1 = _
  unfold lookupEffective
  rw [hram]
  show ((forgedRuntime key size).lookupStore sha256 (.only none none) dir key).1 = _
  unfold lookupStore
  rw [hidx]
  dsimp only
  rw [if_neg (by exact Bool.false_ne_true), hrd]
  show (promote sha256 _ key key.fingerprint key s).1 = _
  unfold promote
  rw [if_neg (by rw [hst]; decide), cacheEntryBytes_of_toBytes sha256 hv]
  dsimp only
  rw [if_neg (by exact hlrg)]

end PrefixRuntime

namespace PrefixWorld

/-- What is done before the lookup: an entry is cached, and the files are
changed. -/
def forgedOps (key : PrefixKey) (s : StateSnapshot) (dir : Directory) : List PrefixOp :=
  [.restart forgedConfig (.only none none), .cache key s (.only none none), .corrupt dir]

theorem run_forgedOps {key : PrefixKey} (hv : s.toBytes sha256 = .ok v)
    (hfil : writeSnapshot sha256 key s = .ok file) (dir : Directory) :
    (machine sha256).run (initial ∅) (forgedOps key s dir) = ⟨dir, some (forgedRuntime key
        (key.prefixLen.toNat * 4 + v.toList.length))⟩ := by
  have hcac := cachePrefix_forged sha256 hv hfil
  have hcch : (machine sha256).next ⟨∅, some (empty forgedConfig)⟩
      (.cache key s (.only none none)) =
        ⟨insert ∅ (snapshotPath sha256 key.fingerprint) (some file), some (forgedRuntime key
            (key.prefixLen.toNat * 4 + v.toList.length))⟩ := by
    simp only [Machine.next, machine, step, hcac, answer]
  show (machine sha256).next ((machine sha256).next
    ⟨∅, some (empty forgedConfig)⟩ (.cache key s (.only none none))) (.corrupt dir) = _
  rw [hcch]
  rfl

theorem origins_forgedOps {key : PrefixKey} (hfil : writeSnapshot sha256 key s = .ok file)
    (dir : Directory) :
    origins sha256 ∅ (forgedOps key s dir) = [.files ∅, .cached [] key s, .files dir] := by
  have hid := ((writeSnapshot_eq_ok sha256).mp hfil).1
  have hbr : brings ⟨∅, some (empty forgedConfig)⟩ (.cache key s (.only none none)) =
      [.cached [] key s] :=
    (brings_of_accepts (empty forgedConfig) rfl ⟨⟨Nat.zero_le _, rfl⟩, hid⟩)
  show .files ∅ :: ([] ++ (brings ⟨∅, some (empty forgedConfig)⟩
    (.cache key s (.only none none)) ++ ([.files dir] ++ []))) = _
  rw [hbr]
  rfl

/-- **A planted container is a hit**: for every key, whatever has been cached
for it, the lookup returns what the file holds. -/
theorem lookup_planted {key : PrefixKey} {t : StateSnapshot} {file' : List UInt8}
    (hhas : key.prefixTokenHash = hashTokens sha256 key.prefixTokens.toList)
    (hne : key.prefixTokens.toList ≠ []) (hs : writeSnapshot sha256 key s = .ok file)
    (ht : writeSnapshot sha256 key t = .ok file') {dir : Directory}
    (hdir : dir.lookup (snapshotPath sha256 key.fingerprint) = some (some file')) :
    (machine sha256).out ((machine sha256).run (initial ∅) (forgedOps key s dir))
        (.lookup key (.only none none)) =
      .found (.found false key.prefixLen.toNat key.prefixLen.toNat t) := by
  obtain ⟨-, v, hv, -⟩ := (writeSnapshot_eq_ok sha256).mp hs
  obtain ⟨-, v', hv', -⟩ := (writeSnapshot_eq_ok sha256).mp ht
  rw [run_forgedOps sha256 hv hs]
  exact congrArg (fun result => (answer .found result dir _).1)
    (lookupPrefix_forged sha256 _ hhas hne hv' ht hdir)

end PrefixWorld

/-- A digest of zeros. -/
def zeroDigest : Bytes 32 := ⟨List.replicate 32 0, length_replicate⟩

/-- The key of one token. -/
def forgedKey : PrefixKey :=
  new sha256 ⟨zeroDigest⟩ ⟨zeroDigest⟩ ⟨zeroDigest⟩ ⟨zeroDigest⟩ ⟨[7], by decide⟩

/-- The payload of one byte. -/
def forgedPayload (byte : UInt8) : SnapshotPayload :=
  .raw ⟨[byte], (by decide : 1 * 1 ≤ isizeMax)⟩

/-- A snapshot of one byte, for a key. -/
def forgedSnapshot (key : PrefixKey) (byte : UInt8) : StateSnapshot where
  schemaId := ⟨"", 1, 0⟩
  prefixLen := key.prefixLen
  prefixHash := key.prefixTokenHash
  payload := forgedPayload byte
  checksum := computeChecksum sha256 (forgedPayload byte)
  generation := 0

/-- It is written, and measures 90 bytes and four for every token. -/
theorem write_forgedSnapshot (key : PrefixKey) (byte : UInt8) :
    ∃ file, writeSnapshot sha256 key (forgedSnapshot sha256 key byte) = .ok file
      ∧ cacheEntryBytes sha256 key (forgedSnapshot sha256 key byte)
        = .ok (key.prefixLen.toNat * 4 + 90) := by
  have hval : (forgedSnapshot sha256 key byte).Valid sha256 :=
    ⟨if_neg (not_not.mpr rfl), (by decide : (utf8 "").length < 2 ^ 32)⟩
  have hlen : (forgedSnapshot sha256 key byte).fields.encoded.length = 90 := by
    have hsum : (forgedSnapshot sha256 key byte).fields.checksum.val.length = 32 :=
      (forgedSnapshot sha256 key byte).fields.checksum.property
    have heng : (utf8 (forgedSnapshot sha256 key byte).fields.schemaId.engine).length = 0 := by
      show (utf8 "").length = 0
      decide
    have hpay : (forgedSnapshot sha256 key byte).fields.payloadBytes.toList.length = 1 := rfl
    unfold SnapshotFields.encoded StateSnapshot.encoded lengthBytes
    simp only [length_append, length_u32Bytes, length_u64Bytes, length_singleton, hsum, hpay, heng]
    decide
  have hfit : (forgedSnapshot sha256 key byte).fields.encoded.length ≤ isizeMax := by
    rw [hlen]
    decide
  obtain ⟨file, hfil⟩ := write_of_valid sha256 rfl rfl hval hfit
  refine ⟨file, hfil, ?_⟩
  have hbytes : (forgedSnapshot sha256 key byte).toBytes sha256
      = .ok ⟨(forgedSnapshot sha256 key byte).fields.encoded, by rwa [one_mul]⟩ :=
    (StateSnapshot.toBytes_eq_ok sha256).mpr ⟨hval, rfl⟩
  rw [cacheEntryBytes_of_toBytes sha256 hbytes]
  exact congrArg (fun n => Except.ok (key.prefixLen.toNat * 4 + n)) hlen

end Planted

/-- **The hits are not only of what was cached**, whatever the hash function
is: the checksums of a container can be made by everyone. -/
theorem PrefixWorld.not_only_cached :
    ¬ ∃ sha256 : List UInt8 → Bytes 32, ∀ dir ops query r snapshot,
      (machine sha256).out ((machine sha256).run (initial dir) ops)
        (.lookup query (.only none none)) = .found r →
      r.hit = true → r.snapshot = some snapshot →
      ∃ salt key, PrefixOrigin.cached salt key snapshot ∈ origins sha256 dir ops := by
  rintro ⟨sha256, hcl⟩
  obtain ⟨file, hfil, -⟩ := write_forgedSnapshot sha256 (forgedKey sha256) 1
  obtain ⟨file', hfil', -⟩ := write_forgedSnapshot sha256 (forgedKey sha256) 2
  have hhit := lookup_planted sha256 rfl (cons_ne_nil _ _) hfil hfil' (lookup_insert_self ∅ _ _)
  obtain ⟨salt, key, hmem⟩ := hcl _ _ _ _ _ hhit rfl rfl
  rw [origins_forgedOps sha256 hfil] at hmem
  have hsam : forgedSnapshot sha256 (forgedKey sha256) 2
      = forgedSnapshot sha256 (forgedKey sha256) 1 := by
    rcases mem_cons.mp hmem with h | hmem
    · cases h
    · rcases mem_cons.mp hmem with h | hmem
      · exact (PrefixOrigin.cached.inj h).2.2
      · cases mem_singleton.mp hmem
  have hpay := congrArg StateSnapshot.payload hsam
  exact absurd hpay (by decide : forgedPayload 2 ≠ forgedPayload 1)

end Logan
