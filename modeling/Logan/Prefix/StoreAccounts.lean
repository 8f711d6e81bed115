import Logan.Prefix.PrefixAccounts
import Logan.Prefix.PrefixHits

/-!
# The index of the store and its files

The index of the store counts the bytes of its entries, and stays within its
budget, whatever fails (`PrefixWorld.run_balanced`). Its entries are the files
of the directory as long as nothing fails that leaves a file without an entry
(`PrefixWorld.store_law`). Three things do: a write that fails over an entry
that is there, since the entry goes and its file stays; a file that is found
by the index and cannot be read; and a removal that fails.
-/

namespace Logan

open List PrefixTable Result Table
open PrefixRuntime (cacheChecked empty forgedRuntime rebuildEntries rebuildSsdIndex)
open SsdPrefixStore (files readFile readUnder scanEntries scanUnder writeFor)
open SsdPrefixStore (removeUnder snapshotPath)

variable {size : ℕ} {evicted : List PrefixFingerprint}

namespace PrefixTable

variable {V : Type} {t u : PrefixTable V}

/-- **What an insertion does** that returns. -/
theorem Accounts.of_insert (h : t.Accounts) {tooLarge : ℕ → ℕ → String} {key : PrefixKey}
    {value : V} (hok : t.insertWithEvictions tooLarge key value size = .ok (evicted, u)) :
    u.Accounts ∧ Admits t key value size evicted u := by
  have hsiz : size ≤ t.maxBytes := by
    by_contra hlrg
    rw [insertWithEvictions, if_pos (not_le.mp hlrg)] at hok
    cases hok
  have hfit : t.Fits key size := by
    by_contra hfit
    rw [h.insert_panics value hsiz hfit] at hok
    cases hok
  obtain ⟨evicted', u', hins, hacc, hadm⟩ := h.insert_eq value hsiz hfit
  obtain ⟨rfl, rfl⟩ := Prod.mk.inj (Except.ok.inj (hok.symm.trans hins))
  exact ⟨hacc, hadm⟩

theorem Accounts.indexInsert_eq {t : PrefixIndex} (h : t.Accounts) {key : PrefixKey}
    (hsiz : size ≤ t.maxBytes) (hfit : Fits t key size) :
    ∃ evicted u, indexInsert t key size = .ok (evicted, u) ∧ u.Accounts
      ∧ Admits t key () size evicted u :=
  h.insert_eq () hsiz hfit

theorem lookup_maxBytes (t : PrefixTable V) (query : PrefixKey) :
    (t.lookup query).2.maxBytes = t.maxBytes := by
  rw [lookup_snd]
  cases (t.lookup query).1 with
  | none | some => rfl

theorem Accounts.remove_maxBytes (h : t.Accounts) (f : PrefixFingerprint) :
    (t.remove f).2.maxBytes = t.maxBytes := by
  rw [h.remove_eq]

/-- The other entries are in the order as before: first those that are dropped,
then those that stay. -/
theorem Admits.split {key : PrefixKey} {value : V} (h : Admits t key value size evicted u) :
    ∃ rest, t.lru.filter (· ≠ key.fingerprint) = evicted ++ rest
      ∧ u.lru = rest ++ [key.fingerprint] := by
  obtain ⟨rest, hres⟩ := h.dropped
  refine ⟨rest, hres.symm, ?_⟩
  rw [h.lru_eq, ← hres, drop_left]

end PrefixTable

/-! ## The tables of a runtime -/

/-- The budgets are of the type `usize`. -/
def PrefixRuntimeConfig.InRange (config : PrefixRuntimeConfig) : Prop :=
  config.ramCacheBytes ≤ usizeMax ∧ config.ssdCacheBytes ≤ usizeMax

namespace PrefixRuntime

/-- **Both tables account for their entries**, within their budgets, and the
index is empty if there is no store. -/
structure Balanced (rt : PrefixRuntime) : Prop where
  ram : rt.ramCache.Accounts
  ramMax : rt.ramCache.maxBytes = rt.config.ramCacheBytes
  ssd : rt.ssdIndex.Accounts
  ssdMax : rt.ssdIndex.maxBytes = rt.config.ssdCacheBytes
  unused : rt.hasStore = false → rt.ssdIndex.entries = ∅

section Sha

variable {sha256 : List UInt8 → Bytes 32} {faults : StoreFaults} {rt : PrefixRuntime}
variable {dir : Directory} {query key : PrefixKey} {snapshot : StateSnapshot}

/-- **What an operation keeps**: the tables in balance, and whether there is a
store. -/
structure Keeps (rt rt' : PrefixRuntime) : Prop where
  balanced : rt'.Balanced
  hasStore : rt'.hasStore = rt.hasStore

theorem keeps_refl (h : Balanced rt) : rt.Keeps rt := ⟨h, rfl⟩

theorem Keeps.trans {rt' rt'' : PrefixRuntime} (h : rt.Keeps rt') (h' : rt'.Keeps rt'') :
    rt.Keeps rt'' := ⟨h'.balanced, h'.hasStore.trans h.hasStore⟩

section

variable (h : Balanced rt)

include h

theorem Balanced.withRam {ram : RamPrefixCache StateSnapshot}
    (hram : ram.Accounts) (hmax : ram.maxBytes = rt.ramCache.maxBytes) :
    rt.Keeps { rt with ramCache := ram } :=
  ⟨⟨hram, hmax.trans h.ramMax, h.ssd, h.ssdMax, h.unused⟩, rfl⟩

theorem Balanced.withIndex {index : PrefixIndex} (hidx : index.Accounts)
    (hmax : index.maxBytes = rt.ssdIndex.maxBytes)
    (hun : rt.hasStore = false → index.entries = ∅) : rt.Keeps { rt with ssdIndex := index } :=
  ⟨⟨h.ram, h.ramMax, hidx, hmax.trans h.ssdMax, hun⟩, rfl⟩

theorem Balanced.removeIndex (f : PrefixFingerprint) :
    rt.Keeps { rt with ssdIndex := (rt.ssdIndex.remove f).2 } := by
  refine h.withIndex (h.ssd.remove f) (h.ssd.remove_maxBytes f) fun hnon => ?_
  rw [h.ssd.remove_eq, h.unused hnon]
  rfl

theorem Balanced.lookupIndex (query : PrefixKey) :
    rt.Keeps { rt with ssdIndex := (rt.ssdIndex.lookup query).2 } := by
  refine h.withIndex (h.ssd.lookup query) (lookup_maxBytes _ query) fun hnon => ?_
  rw [(lookup_spec _ query).1, h.unused hnon]

/-- An insertion into memory that returns. -/
theorem Balanced.insertRam {ram : RamPrefixCache StateSnapshot}
    (hok : ramInsert rt.ramCache key snapshot size = .ok ram) :
    rt.Keeps { rt with ramCache := ram } := by
  obtain ⟨⟨evicted, u⟩, hins, hu⟩ := bind_eq_ok.mp hok
  cases hu
  obtain ⟨hacc, hadm⟩ := h.ram.of_insert hins
  exact h.withRam hacc hadm.maxBytes_eq

theorem Balanced.promote (f : PrefixFingerprint) :
    rt.Keeps (rt.promote sha256 query f key snapshot).2 := by
  unfold PrefixRuntime.promote
  split_ifs
  · exact h.removeIndex f
  · cases cacheEntryBytes sha256 key snapshot with
    | error => exact keeps_refl h
    | ok size =>
      dsimp only
      split_ifs
      · cases hram : ramInsert rt.ramCache key snapshot size with
        | ok => exact h.insertRam hram
        | error e => cases e <;> exact keeps_refl h
      · exact keeps_refl h

theorem Balanced.lookupStore (query : PrefixKey) :
    rt.Keeps (rt.lookupStore sha256 faults dir query).2 := by
  unfold PrefixRuntime.lookupStore
  have hidx := h.lookupIndex query
  generalize rt.ssdIndex.lookup query = found at hidx ⊢
  obtain ⟨_ | ⟨f, e⟩, index⟩ := found
  · exact hidx
  · dsimp only
    split_ifs
    · exact hidx
    · cases readUnder sha256 faults dir f with
      | ok => exact hidx.trans (hidx.balanced.promote f)
      | error e =>
        cases e with
        | error =>
          dsimp only
          split_ifs
          · exact hidx.trans (hidx.balanced.removeIndex f)
          · exact hidx.trans (hidx.balanced.removeIndex f)
        | panic | endless => exact hidx

/-- **A lookup keeps the tables in balance**, whatever fails. -/
theorem Balanced.lookupPrefix (query : PrefixKey) :
    rt.Keeps (rt.lookupPrefix sha256 faults dir query).2 := by
  unfold PrefixRuntime.lookupPrefix
  generalize rt.effectiveKey sha256 query = query
  unfold lookupEffective
  have hram := h.withRam (h.ram.lookup query) (lookup_maxBytes _ query)
  generalize rt.ramCache.lookup query = found at hram ⊢
  obtain ⟨_ | ⟨g, e⟩, ram⟩ := found
  · exact hram.trans (hram.balanced.lookupStore query)
  · exact hram

theorem Balanced.cacheStore : rt.Keeps (rt.cacheStore sha256 faults dir key snapshot size).2.2 := by
  unfold PrefixRuntime.cacheStore
  split_ifs with hrm
  · have hst := (Bool.and_eq_true_iff.mp hrm).1
    cases hins : indexInsert rt.ssdIndex key size with
    | error => exact keeps_refl h
    | ok p =>
      obtain ⟨evicted, index⟩ := p
      obtain ⟨hacc, hadm⟩ := h.ssd.of_insert hins
      have hidx : rt.Keeps { rt with ssdIndex := index } :=
        h.withIndex hacc hadm.maxBytes_eq fun hnon => by
          rw [hst] at hnon
          cases hnon
      dsimp only
      cases writeFor sha256
          (removeUnder sha256 faults 0 dir evicted) key snapshot faults.write with
      | ok => exact hidx
      | error => exact hidx.trans (hidx.balanced.removeIndex key.fingerprint)
  · exact keeps_refl h

/-- **So does an entry that is cached.** -/
theorem Balanced.cachePrefix : rt.Keeps (rt.cachePrefix sha256 faults dir key snapshot).2.2 := by
  unfold PrefixRuntime.cachePrefix
  split_ifs
  · exact keeps_refl h
  · exact keeps_refl h
  · generalize rt.effectiveKey sha256 key = key
    unfold cacheChecked
    cases cacheEntryBytes sha256 key snapshot with
    | error => exact keeps_refl h
    | ok size =>
      dsimp only
      split_ifs
      · cases hram : ramInsert rt.ramCache key snapshot size with
        | error => exact keeps_refl h
        | ok =>
          have hkep := h.insertRam hram
          exact hkep.trans hkep.balanced.cacheStore
      · exact h.cacheStore

theorem Balanced.clearRam : rt.Keeps rt.clearRam := h.withRam h.ram.clear rfl

end

theorem balanced_empty {config : PrefixRuntimeConfig} (h : config.InRange) :
    Balanced (empty config) :=
  ⟨accounts_new h.1, rfl, accounts_new h.2, rfl, fun _ => rfl⟩

theorem rebuildEntries_accounts {budget : ℕ} {entries : List (PrefixKey × StateSnapshot)}
    {index : PrefixIndex} {p : List PrefixFingerprint × PrefixIndex} (h : index.Accounts)
    (hok : rebuildEntries sha256 budget entries index = .ok p) :
    p.2.Accounts ∧ p.2.maxBytes = index.maxBytes := by
  induction entries generalizing index p with
  | nil =>
    obtain rfl := Except.ok.inj hok
    exact ⟨h, rfl⟩
  | cons e es ih =>
    obtain ⟨⟨evicted, u⟩, hent, hok⟩ := bind_eq_ok.mp hok
    obtain ⟨q, hres, hok⟩ := bind_eq_ok.mp hok
    obtain rfl := Except.ok.inj hok
    obtain ⟨size, -, hent⟩ := bind_eq_ok.mp hent
    show q.2.Accounts ∧ q.2.maxBytes = index.maxBytes
    split_ifs at hent
    · obtain ⟨-, rfl⟩ := Prod.mk.inj (Except.ok.inj hent)
      exact ih h hres
    · obtain ⟨hacc, hadm⟩ := h.of_insert hent
      obtain ⟨hp, hmax⟩ := ih hacc hres
      exact ⟨hp, hmax.trans hadm.maxBytes_eq⟩

/-- **A runtime that is built is in balance.** -/
theorem keeps_new {config : PrefixRuntimeConfig} (h : config.InRange)
    {p : Directory × PrefixRuntime} (hok : new sha256 faults config dir = .ok p) :
    (empty config).Keeps p.2 := by
  have hreb := rebuild_of_new hok
  unfold rebuildSsdIndex at hreb
  split_ifs at hreb with hst
  · obtain ⟨entries, -, hreb⟩ := bind_eq_ok.mp hreb
    obtain ⟨q, hents, hp⟩ := bind_eq_ok.mp hreb
    cases hp
    obtain ⟨hacc, hmax⟩ := rebuildEntries_accounts (balanced_empty h).ssd hents
    exact (balanced_empty h).withIndex hacc hmax fun hnon => by
      rw [hst] at hnon
      cases hnon
  · cases hreb
    exact keeps_refl (balanced_empty h)

end Sha

end PrefixRuntime

/-! ## The files of some entries -/

section Files

variable (sha256 : List UInt8 → Bytes 32)

/-- The name of a file of the store has the extension. -/
theorem hasExtension_snapshotPath (f : PrefixFingerprint) :
    hasExtension (snapshotPath sha256 f) = true := by
  unfold snapshotPath hasExtension
  generalize hdig : sha256 _ = digest
  rw [Bool.and_eq_true, String.endsWith, String.Slice.endsWith_string_iff, bne_iff_ne]
  refine ⟨by simp, fun heq => ?_⟩
  have hlen := congrArg String.length heq
  rw [String.length_append, hexEncode, String.length_ofList, length_flatMap] at hlen
  have hsum : (digest.val.map fun b : UInt8 =>
      [hexDigit (b.toNat / 16), hexDigit (b.toNat % 16)].length).sum = 2 * digest.val.length := by
    induction digest.val with
    | nil => rfl
    | cons b l ih =>
      rw [map_cons, sum_cons, ih, length_cons]
      simp only [length_cons, length_nil]
      omega
  rw [hsum, digest.property] at hlen
  omega

/-- **The files of the store are those of some entries**, one for each. -/
structure Agrees (dir : Directory) (fs : List PrefixFingerprint) : Prop where
  once : (fs.map (snapshotPath sha256)).Nodup
  files : ∀ name, hasExtension name = true →
    ((dir.lookup name).isSome ↔ name ∈ fs.map (snapshotPath sha256))

variable {sha256} {dir : Directory} {fs gs : List PrefixFingerprint} {f : PrefixFingerprint}
variable {content : Option (List UInt8)}

theorem Agrees.perm (h : Agrees sha256 dir fs) (hper : gs.Perm fs) : Agrees sha256 dir gs where
  once := (hper.map _).nodup_iff.mpr h.once
  files name hnam := (h.files name hnam).trans (hper.map _).mem_iff.symm

theorem Agrees.remove (h : Agrees sha256 dir (f :: fs)) :
    Agrees sha256 (SsdPrefixStore.remove sha256 dir f) fs := by
  have honc := h.once
  rw [map_cons, nodup_cons] at honc
  refine ⟨honc.2, fun name hnam => ?_⟩
  have hfil := h.files name hnam
  rw [map_cons, mem_cons] at hfil
  unfold SsdPrefixStore.remove
  rw [lookup_erase]
  by_cases heq : name = snapshotPath sha256 f
  · rw [if_pos heq, heq]
    exact iff_of_false Bool.false_ne_true honc.1
  · rw [if_neg heq, hfil]
    exact or_iff_right heq

theorem Agrees.removeAll (h : Agrees sha256 dir (gs ++ fs)) :
    Agrees sha256 (SsdPrefixStore.removeAll sha256 dir gs) fs := by
  induction gs generalizing dir with
  | nil => exact h
  | cons g gs ih => exact ih h.remove

theorem Agrees.write (h : Agrees sha256 dir fs) (hnew : snapshotPath sha256 f
      ∉ fs.map (snapshotPath sha256)) :
    Agrees sha256 (dir.insert (snapshotPath sha256 f) content) (f :: fs) := by
  refine ⟨nodup_cons.mpr ⟨hnew, h.once⟩, fun name hnam => ?_⟩
  rw [lookup_insert, map_cons, mem_cons]
  by_cases heq : name = snapshotPath sha256 f
  · rw [if_pos heq]
    exact iff_of_true rfl (Or.inl heq)
  · rw [if_neg heq, h.files name hnam]
    exact (or_iff_right heq).symm

/-- The file of an entry is written once more. -/
theorem Agrees.rewrite (h : Agrees sha256 dir (f :: fs)) :
    Agrees sha256 (dir.insert (snapshotPath sha256 f) content) (f :: fs) := by
  refine ⟨h.once, fun name hnam => ?_⟩
  rw [lookup_insert, ← h.files name hnam]
  by_cases heq : name = snapshotPath sha256 f
  · rw [if_pos heq, heq]
    exact iff_of_true rfl ((h.files _ (hasExtension_snapshotPath sha256 f)).mpr (by simp))
  · rw [if_neg heq]

/-- Where no removal fails, all are removed. -/
theorem removeUnder_of_deletes {faults : StoreFaults} {n : ℕ} (dir : Directory)
    (h : ∀ i < fs.length, faults.delete (n + i) = false) :
    removeUnder sha256 faults n dir fs = SsdPrefixStore.removeAll sha256 dir fs := by
  induction fs generalizing n dir with
  | nil => rfl
  | cons f fs ih =>
    rw [removeUnder, show faults.delete n = false from h 0 (Nat.zero_lt_succ _)]
    refine ih (SsdPrefixStore.remove sha256 dir f) fun i hi => ?_
    rw [Nat.add_right_comm]
    exact h (i + 1) (Nat.succ_lt_succ hi)

end Files

/-! ## What keeps the files with their entries -/

section Steps

variable {sha256 : List UInt8 → Bytes 32} {faults : StoreFaults} {dir : Directory}

/-- **The removals of an operation succeed**: as many as there are fingerprints
to remove. -/
def StoreFaults.Deletes (faults : StoreFaults) (fs : List PrefixFingerprint) : Prop :=
  ∀ n < fs.length, faults.delete n = false

/-- **A file that the scan reads as an entry of its own name.** -/
def Readable (sha256 : List UInt8 → Bytes 32) (faults : StoreFaults) (name : String)
    (content : Option (List UInt8)) : Prop :=
  faults.read name = none ∧ ∃ bytes key snapshot, content = some bytes
    ∧ (readFile sha256 bytes).result = .ok (key, snapshot)
    ∧ snapshotPath sha256 key.fingerprint = name

/-- The scan finds an entry for every file, in their order. -/
theorem scanEntries_of_readable {files : List (String × Option (List UInt8))}
    (h : ∀ name content, (name, content) ∈ files → hasExtension name = true →
      Readable sha256 faults name content) : ∃ entries, (scanEntries sha256 (files.map fun e =>
        (e.1, if (faults.read e.1).isSome then none else e.2))).result = .ok entries
      ∧ (entries.map fun e => snapshotPath sha256 e.1.fingerprint)
        = (files.map Prod.fst).filter hasExtension := by
  induction files with
  | nil => exact ⟨[], rfl, rfl⟩
  | cons file files ih =>
    obtain ⟨entries, hents, hnam⟩ := ih fun name content hmem =>
      h name content (mem_cons_of_mem _ hmem)
    obtain ⟨name, content⟩ := file
    rw [map_cons, map_cons]
    by_cases hext : hasExtension name = true
    · obtain ⟨hrd, bytes, key, snapshot, rfl, hfil, hnm⟩ :=
        h name content mem_cons_self hext
      refine ⟨(key, snapshot) :: entries, ?_, ?_⟩
      · rw [hrd]
        show (scanEntries sha256 ((name, some bytes) :: _)).result = _
        rw [scanEntries, if_pos hext]
        refine Metered.bind_eq_ok.mpr ⟨some (key, snapshot), ?_, Metered.bind_eq_ok.mpr
          ⟨entries, hents, rfl⟩⟩
        unfold Metered.attempt
        rw [hfil]
      · rw [map_cons, filter_cons_of_pos hext, hnam, hnm]
    · refine ⟨entries, ?_, ?_⟩
      · generalize (if (faults.read name).isSome then none else content) = content
        cases content with
        | none =>
          rwa [scanEntries]
        | some =>
          rwa [scanEntries, if_neg hext]
      · rw [filter_cons_of_neg hext, hnam]

/-- Before the index is built, the entries that were found stand for all
files. -/
theorem agrees_scan (hlis : faults.list = none)
    (h : ∀ name content, dir.lookup name = some content → hasExtension name = true →
      Readable sha256 faults name content) : ∃ entries, scanUnder sha256 faults dir = .ok entries
      ∧ Agrees sha256 dir (entries.map fun e => e.1.fingerprint) := by
  have hfil {name : String} {content : Option (List UInt8)} :
      (name, content) ∈ files dir ↔ dir.lookup name = some content := by
    rw [files, mem_map]
    constructor
    · rintro ⟨e, hmem, heq⟩
      cases heq
      exact AList.mem_lookup_iff.mpr hmem
    · intro hlkp
      exact ⟨⟨name, content⟩, AList.mem_lookup_iff.mp hlkp, rfl⟩
  have hrdb : ∀ name content, (name, content) ∈ files dir →
      hasExtension name = true → Readable sha256 faults name content :=
    fun name content hmem => h name content (hfil.mp hmem)
  obtain ⟨entries, hents, hnam⟩ := scanEntries_of_readable hrdb
  have hkey : (files dir).map Prod.fst = dir.keys := by
    rw [files, map_map]
    rfl
  have hmap : (entries.map fun e => e.1.fingerprint).map (snapshotPath sha256)
      = dir.keys.filter hasExtension := by
    rw [map_map, ← hkey, ← hnam]
    rfl
  refine ⟨entries, ?_, ?_, fun name hnm => ?_⟩
  · rwa [scanUnder, hlis]
  · rw [hmap]
    exact dir.keys_nodup.filter _
  · rw [hmap, mem_filter, mem_keys_iff, Option.isSome_iff_exists]
    exact (and_iff_left hnm).symm

/-- **An insertion and its removals**: the files are those of the entries that
stay, if the new entry was not there. -/
theorem Agrees.insert_new {index u : PrefixIndex} {key : PrefixKey} {fs : List PrefixFingerprint}
    (hadm : PrefixTable.Admits index key () size evicted u)
    (hnew : key.fingerprint ∉ index.lru) (h : Agrees sha256 dir (index.lru ++ fs)) :
    ∃ rest, index.lru = evicted ++ rest ∧ u.lru = rest ++ [key.fingerprint]
      ∧ Agrees sha256 (SsdPrefixStore.removeAll sha256 dir evicted) (rest ++ fs) := by
  obtain ⟨rest, hres, hlru⟩ := hadm.split
  have hkep : index.lru.filter (· ≠ key.fingerprint) = index.lru :=
    filter_eq_self.mpr fun f hf => decide_eq_true fun heq => hnew (heq ▸ hf)
  rw [hkep] at hres
  rw [hres, append_assoc] at h
  exact ⟨rest, hres, hlru, h.removeAll⟩

/-- **Every entry that is found keeps the files with their entries**: those of
the index, and those that are still to come. -/
theorem agrees_rebuild {budget : ℕ} {entries : List (PrefixKey × StateSnapshot)}
    {index : PrefixIndex} {p : List PrefixFingerprint × PrefixIndex} (hidx : index.Accounts)
    (h : Agrees sha256 dir (index.lru ++ entries.map fun e => e.1.fingerprint))
    (hok : PrefixRuntime.rebuildEntries sha256 budget entries index = .ok p) :
    Agrees sha256 (SsdPrefixStore.removeAll sha256 dir p.1) p.2.lru := by
  induction entries generalizing dir index p with
  | nil =>
    obtain rfl := Except.ok.inj hok
    exact h.perm (by simp)
  | cons e es ih =>
    obtain ⟨⟨evicted, u⟩, hent, hok⟩ := bind_eq_ok.mp hok
    obtain ⟨q, hres, hok⟩ := bind_eq_ok.mp hok
    obtain rfl := Except.ok.inj hok
    obtain ⟨size, -, hent⟩ := bind_eq_ok.mp hent
    show Agrees sha256 ((evicted ++ q.1).foldl _ dir) q.2.lru
    rw [foldl_append]
    split_ifs at hent
    · obtain ⟨rfl, rfl⟩ := Prod.mk.inj (Except.ok.inj hent)
      exact ih hidx (h.perm perm_middle.symm).remove hres
    · obtain ⟨hacc, hadm⟩ := hidx.of_insert hent
      have hnew : e.1.fingerprint ∉ index.lru := by
        intro hmem
        have honc := h.once
        rw [List.map_append, map_cons, map_cons, nodup_middle, nodup_cons] at honc
        exact honc.1 (mem_append_left _ (mem_map_of_mem hmem))
      obtain ⟨rest, -, hlru, hagr⟩ := h.insert_new hadm hnew
      refine ih hacc ?_ hres
      rwa [hlru, append_assoc]

theorem saltedKey_identity (sha256 : List UInt8 → Bytes 32) (salt : List UInt8) (key : PrefixKey) :
    (saltedKey sha256 salt key).prefixLen = key.prefixLen
      ∧ (saltedKey sha256 salt key).prefixTokenHash = key.prefixTokenHash := by
  unfold saltedKey
  split_ifs
  · exact ⟨rfl, rfl⟩
  · exact ⟨rfl, rfl⟩

namespace PrefixRuntime

variable {rt : PrefixRuntime} {query key : PrefixKey} {snapshot : StateSnapshot}

/-- **What is stored keeps the files with their entries**: nothing fails to be
removed, no write fails over an entry that is there, and no other entry has a
file of that name. -/
theorem agrees_cacheStore (h : Balanced rt)
    (hdel : ∀ p, indexInsert rt.ssdIndex key size = .ok p → faults.Deletes p.1)
    (hwr : faults.write = none ∨ rt.ssdIndex.entries.lookup key.fingerprint = none)
    (hal : ∀ f ∈ rt.ssdIndex.lru, snapshotPath sha256 f
      = snapshotPath sha256 key.fingerprint → f = key.fingerprint)
    (hfil : ∃ file, writeSnapshot sha256 key snapshot = .ok file)
    (hagr : Agrees sha256 dir rt.ssdIndex.lru) :
    Agrees sha256 (rt.cacheStore sha256 faults dir key snapshot size).2.1
      (rt.cacheStore sha256 faults dir key snapshot size).2.2.ssdIndex.lru := by
  obtain ⟨file, hfil⟩ := hfil
  unfold cacheStore
  split_ifs
  · cases hins : indexInsert rt.ssdIndex key size with
    | error => exact hagr
    | ok p =>
      obtain ⟨evicted, index⟩ := p
      obtain ⟨hacc, hadm⟩ := h.ssd.of_insert hins
      dsimp only
      rw [removeUnder_of_deletes dir fun i hi => by rw [Nat.zero_add]; exact hdel _ hins i hi]
      by_cases hmem : key.fingerprint ∈ rt.ssdIndex.lru
      · -- the entry was there: its file is written once more
        obtain ⟨e, he⟩ := h.ssd.mem_lru_iff.mp hmem
        have hnon : faults.write = none := hwr.resolve_right (by rw [he]; simp)
        obtain ⟨rest, hres, hlru⟩ := hadm.split
        have hper : (evicted ++ key.fingerprint :: rest).Perm rt.ssdIndex.lru := by
          refine perm_middle.trans ?_
          rw [← hres, h.ssd.filter_lru]
          exact (perm_cons_erase hmem).symm
        have hkep := (hagr.perm hper).removeAll
        rw [writeFor, hfil, hnon]
        show Agrees sha256 (insert _ _ (some file)) index.lru
        rw [hlru]
        exact hkep.rewrite.perm (perm_append_singleton _ _)
      · rw [← List.append_nil rt.ssdIndex.lru] at hagr
        obtain ⟨rest, hres, hlru, hkep⟩ := hagr.insert_new hadm hmem
        rw [List.append_nil] at hkep
        have hfr : key.fingerprint ∉ rest := fun hin =>
          hmem (hres ▸ mem_append_right _ hin)
        rw [writeFor, hfil]
        cases faults.write with
        | none =>
          show Agrees sha256 (insert _ _ (some file)) index.lru
          rw [hlru]
          refine (hkep.write fun hin => ?_).perm (perm_append_singleton _ _)
          obtain ⟨f, hf, heq⟩ := mem_map.mp hin
          exact hfr (hal f (hres ▸ mem_append_right _ hf) heq ▸ hf)
        | some =>
          show Agrees sha256 _ (index.remove key.fingerprint).2.lru
          rw [hacc.remove_eq]
          show Agrees sha256 _ (index.lru.filter fun f => decide (f ≠ key.fingerprint))
          have hsam : index.lru.filter (fun f => decide (f ≠ key.fingerprint)) = rest := by
            have hlas : [key.fingerprint].filter (fun f => decide (f ≠ key.fingerprint)) = [] :=
              filter_eq_nil_iff.mpr (by simp)
            have hall : rest.filter (fun f => decide (f ≠ key.fingerprint)) = rest :=
              filter_eq_self.mpr fun f hf => decide_eq_true fun heq => hfr (heq ▸ hf)
            rw [hlru, filter_append, hlas, hall, List.append_nil]
          rwa [hsam]
  · exact hagr

theorem writeSnapshot_of_measured (hsiz : cacheEntryBytes sha256 key snapshot = .ok size)
    (hlen : snapshot.prefixLen = key.prefixLen)
    (hhas : snapshot.prefixHash = key.prefixTokenHash) :
    ∃ file, writeSnapshot sha256 key snapshot = .ok file := by
  obtain ⟨v, hv, -⟩ := bind_eq_ok.mp hsiz
  exact ⟨_, (writeSnapshot_eq_ok sha256).mpr ⟨⟨hlen, hhas⟩, v, hv, rfl⟩⟩

/-- **What is cached keeps the files with their entries.** -/
theorem agrees_cachePrefix (h : Balanced rt)
    (hdel : ∀ size p, cacheEntryBytes sha256 (rt.effectiveKey sha256 key) snapshot = .ok size →
      indexInsert rt.ssdIndex (rt.effectiveKey sha256 key) size = .ok p → faults.Deletes p.1)
    (hwr : faults.write = none
      ∨ rt.ssdIndex.entries.lookup (rt.effectiveKey sha256 key).fingerprint = none)
    (hal : ∀ f ∈ rt.ssdIndex.lru, snapshotPath sha256 f
      = snapshotPath sha256 (rt.effectiveKey sha256 key).fingerprint →
      f = (rt.effectiveKey sha256 key).fingerprint) (hagr : Agrees sha256 dir rt.ssdIndex.lru) :
    Agrees sha256 (rt.cachePrefix sha256 faults dir key snapshot).2.1
      (rt.cachePrefix sha256 faults dir key snapshot).2.2.ssdIndex.lru := by
  obtain ⟨hlen, hhas⟩ := saltedKey_identity sha256 rt.config.salt key
  change (rt.effectiveKey sha256 key).prefixLen = _ at hlen
  change (rt.effectiveKey sha256 key).prefixTokenHash = _ at hhas
  unfold cachePrefix
  split_ifs with hsk hid
  · exact hagr
  · exact hagr
  · rw [not_or, not_not, not_not] at hid
    generalize rt.effectiveKey sha256 key = key at hdel hwr hal hlen hhas ⊢
    unfold cacheChecked
    cases hsiz : cacheEntryBytes sha256 key snapshot with
    | error => exact hagr
    | ok size =>
      have hfil := writeSnapshot_of_measured hsiz (hid.1.trans hlen.symm) (hid.2.trans hhas.symm)
      dsimp only
      split_ifs
      · cases hram : ramInsert rt.ramCache key snapshot size with
        | error => exact hagr
        | ok =>
          exact agrees_cacheStore (h.insertRam hram).balanced (fun p => hdel size p hsiz) hwr hal
            hfil hagr
      · exact agrees_cacheStore h (fun p => hdel size p hsiz) hwr hal hfil hagr

/-- **The lookup finds its file**: what it finds by the index can be read, and
is for the query. -/
def Intact (sha256 : List UInt8 → Bytes 32) (faults : StoreFaults) (dir : Directory)
    (rt : PrefixRuntime) (query : PrefixKey) : Prop :=
  (rt.ramCache.lookup query).1 = none → ∀ f e, (rt.ssdIndex.lookup query).1 = some (f, e) →
    ∃ entry, readUnder sha256 faults dir f = .ok entry ∧ entry.1.isPrefixOf query = true

/-- What is read for the query stays in the index. -/
theorem promote_ssdIndex (f : PrefixFingerprint) (hst : key.isPrefixOf query = true) :
    (rt.promote sha256 query f key snapshot).2.ssdIndex = rt.ssdIndex := by
  unfold promote
  rw [if_neg (by rw [hst]; decide)]
  cases cacheEntryBytes sha256 key snapshot with
  | error => rfl
  | ok size =>
    dsimp only
    split_ifs
    · cases ramInsert rt.ramCache key snapshot size with
      | ok => rfl
      | error e => cases e <;> rfl
    · rfl

/-- **A lookup that finds its file keeps the entries of the index.** -/
theorem lookupPrefix_entries (h : Intact sha256 faults dir rt (rt.effectiveKey sha256 query)) :
    (rt.lookupPrefix sha256 faults dir query).2.ssdIndex.entries = rt.ssdIndex.entries := by
  unfold lookupPrefix
  generalize rt.effectiveKey sha256 query = query at h ⊢
  unfold lookupEffective
  unfold Intact at h
  generalize rt.ramCache.lookup query = found at h ⊢
  obtain ⟨_ | ⟨g, e⟩, ram⟩ := found
  · show (lookupStore sha256 { rt with ramCache := ram } faults dir query).2.ssdIndex.entries
      = rt.ssdIndex.entries
    have hents := (lookup_spec rt.ssdIndex query).1
    replace h := h rfl
    unfold lookupStore
    generalize rt.ssdIndex.lookup query = found at h hents ⊢
    obtain ⟨_ | ⟨f, e⟩, index⟩ := found
    · exact hents
    · obtain ⟨entry, hrd, hst⟩ := h f e rfl
      dsimp only
      split_ifs
      · exact hents
      · rw [hrd]
        dsimp only
        rwa [promote_ssdIndex f hst]
  · rfl

end PrefixRuntime

end Steps

/-! ## Every run -/

/-- The budgets of a new runtime are of the type `usize`. -/
def PrefixOp.InRange : PrefixOp → Prop
  | .restart config _ => config.InRange
  | _ => True

section Sha

variable (sha256 : List UInt8 → Bytes 32)

/-- **Nothing fails that leaves a file without an entry**, or an entry without
its file.

A new runtime can read all the files of the store, each as an entry of its own
name. No removal fails. No write fails over an entry that is there, and what
is written has a name of its own. What a lookup finds by the index can be
read, and is for its query. Nobody else makes or removes files. -/
def PrefixOp.Clean (w : PrefixWorld) : PrefixOp → Prop
  | .restart config faults => (empty config).hasStore = true →
    (∀ entries p, scanUnder sha256 faults w.directory = .ok entries →
        rebuildEntries sha256 config.ssdCacheBytes entries (empty config).ssdIndex = .ok p →
        faults.Deletes p.1)
      ∧ ∀ name content, w.directory.lookup name = some content →
        hasExtension name = true → Readable sha256 faults name content
  | .cache key snapshot faults => ∀ rt, w.runtime = some rt → rt.hasStore = true →
    (∀ size p, cacheEntryBytes sha256 (rt.effectiveKey sha256 key) snapshot = .ok size →
        indexInsert rt.ssdIndex (rt.effectiveKey sha256 key) size = .ok p → faults.Deletes p.1)
      ∧ (faults.write = none
        ∨ rt.ssdIndex.entries.lookup (rt.effectiveKey sha256 key).fingerprint = none)
      ∧ ∀ f ∈ rt.ssdIndex.lru, snapshotPath sha256 f
        = snapshotPath sha256 (rt.effectiveKey sha256 key).fingerprint →
        f = (rt.effectiveKey sha256 key).fingerprint
  | .lookup query faults => ∀ rt, w.runtime = some rt → rt.hasStore = true →
    PrefixRuntime.Intact sha256 faults w.directory rt (rt.effectiveKey sha256 query)
  | .clear => True
  | .corrupt dir => ∀ rt, w.runtime = some rt → rt.hasStore = true →
    ∀ name, hasExtension name = true → ((dir.lookup name).isSome ↔ (w.directory.lookup name).isSome)

/-- The names of the files of the store. -/
def storeFiles (dir : Directory) : Set String :=
  {name | hasExtension name = true ∧ (dir.lookup name).isSome}

/-- The names of the files that the entries of the index have. -/
def indexFiles (index : PrefixIndex) : Set String :=
  {name | ∃ f e, index.entries.lookup f = some e ∧ snapshotPath sha256 f = name}

/-- **What the index accounts for**: the files of the store are those of its
entries, one for each, and the total is the sum of their sizes, within the
budget. -/
structure StoreLaw (dir : Directory) (rt : PrefixRuntime) : Prop where
  files : rt.hasStore = true → storeFiles dir = indexFiles sha256 rt.ssdIndex
  once : rt.hasStore = true → ∀ f g e e', rt.ssdIndex.entries.lookup f = some e →
    rt.ssdIndex.entries.lookup g = some e' →
    snapshotPath sha256 f = snapshotPath sha256 g → f = g
  total : rt.ssdIndex.totalBytes = rt.ssdIndex.entries.sum fun _ e => e.size
  budget : rt.ssdIndex.totalBytes ≤ rt.config.ssdCacheBytes

variable {sha256}

/-- The law, from its parts. -/
theorem storeLaw_of_agrees {dir : Directory} {rt : PrefixRuntime} (h : rt.Balanced)
    (hagr : rt.hasStore = true → Agrees sha256 dir rt.ssdIndex.lru) : StoreLaw sha256 dir rt where
  files := by
    intro hst
    have hfil := (hagr hst).files
    ext name
    constructor
    · rintro ⟨hext, hsom⟩
      obtain ⟨f, hf, rfl⟩ := mem_map.mp ((hfil name hext).mp hsom)
      obtain ⟨e, he⟩ := h.ssd.mem_lru_iff.mp hf
      exact ⟨f, e, he, rfl⟩
    · rintro ⟨f, e, he, rfl⟩
      have hext := hasExtension_snapshotPath sha256 f
      exact ⟨hext, (hfil _ hext).mpr (mem_map_of_mem (h.ssd.mem_lru_iff.mpr ⟨e, he⟩))⟩
  once := by
    intro hst f g e e' he he' heq
    exact inj_on_of_nodup_map (hagr hst).once (h.ssd.mem_lru_iff.mpr ⟨e, he⟩)
      (h.ssd.mem_lru_iff.mpr ⟨e', he'⟩) heq
  total := h.ssd.total_eq
  budget := h.ssd.total_le.trans_eq h.ssdMax

namespace PrefixWorld

theorem answer_runtime {A : Type} {answerOk : A → PrefixAnswer}
    {result : Except (Failure String) A} {dir : Directory} {rt rt' : PrefixRuntime}
    (h : (answer answerOk result dir rt).2.runtime = some rt') : rt' = rt := by
  unfold answer at h
  split at h
  · exact (Option.some.inj h).symm
  · exact (Option.some.inj h).symm
  · cases h

theorem answer_directory {A : Type} (answerOk : A → PrefixAnswer)
    (result : Except (Failure String) A) (dir : Directory) (rt : PrefixRuntime) :
    (answer answerOk result dir rt).2.directory = dir := by
  unfold answer
  split
  · rfl
  · rfl
  · rfl

/-- **Every step keeps the tables in balance**, whatever fails. -/
theorem balanced_step (w : PrefixWorld) (op : PrefixOp) (hop : op.InRange)
    (h : ∀ rt, w.runtime = some rt → rt.Balanced) :
    ∀ rt, (w.step sha256 op).2.runtime = some rt → rt.Balanced := by
  intro rt hrt
  cases op with
  | restart config faults =>
    unfold step at hrt
    dsimp only at hrt
    cases hnew : PrefixRuntime.new sha256 faults config w.directory with
    | error =>
      rw [hnew] at hrt
      cases hrt
    | ok =>
      rw [hnew] at hrt
      obtain rfl := Option.some.inj hrt
      exact (PrefixRuntime.keeps_new hop hnew).balanced
  | cache =>
    unfold step at hrt
    cases hw : w.runtime with
    | none =>
      rw [hw] at hrt
      exact h rt hrt
    | some before =>
      rw [hw] at hrt
      obtain rfl := answer_runtime hrt
      exact (h before hw).cachePrefix.balanced
  | lookup query =>
    unfold step at hrt
    cases hw : w.runtime with
    | none =>
      rw [hw] at hrt
      exact h rt hrt
    | some before =>
      rw [hw] at hrt
      obtain rfl := answer_runtime hrt
      exact ((h before hw).lookupPrefix query).balanced
  | clear =>
    unfold step at hrt
    cases hw : w.runtime with
    | none =>
      rw [hw] at hrt
      exact h rt hrt
    | some before =>
      rw [hw] at hrt
      obtain rfl := Option.some.inj hrt
      exact (h before hw).clearRam.balanced
  | corrupt => exact h rt hrt

/-- **The tables are in balance in every run.** -/
theorem run_balanced (dir : Directory) {ops : List PrefixOp} (hops : ∀ op ∈ ops, op.InRange)
    {rt : PrefixRuntime}
    (hrt : ((machine sha256).run (initial dir) ops).runtime = some rt) : rt.Balanced :=
  Machine.run_of_along (M := machine sha256)
    (P := fun w => ∀ rt, w.runtime = some rt → rt.Balanced) (C := fun _ op => op.InRange)
    (fun w op h hop => balanced_step w op hop h) (fun _ h => by cases h)
    (Machine.along_of_forall _ _ fun op hop _ => hops op hop) rt hrt

/-- The files agree with the index of a new runtime. -/
theorem agrees_new {config : PrefixRuntimeConfig} {faults : StoreFaults} {dir : Directory}
    {p : Directory × PrefixRuntime} (hcon : config.InRange)
    (hdel : ∀ entries p, scanUnder sha256 faults dir = .ok entries →
      rebuildEntries sha256 config.ssdCacheBytes entries (empty config).ssdIndex = .ok p →
      faults.Deletes p.1)
    (hfil : ∀ name content, dir.lookup name = some content → hasExtension name = true →
      Readable sha256 faults name content) (hst : (empty config).hasStore = true)
    (hok : PrefixRuntime.new sha256 faults config dir = .ok p) :
    Agrees sha256 p.1 p.2.ssdIndex.lru := by
  have hreb := PrefixRuntime.rebuild_of_new hok
  rw [rebuildSsdIndex, if_pos hst] at hreb
  obtain ⟨entries, hsc, hreb⟩ := bind_eq_ok.mp hreb
  obtain ⟨q, hents, hp⟩ := bind_eq_ok.mp hreb
  cases hp
  cases hlis : faults.list with
  | some =>
    rw [scanUnder, hlis] at hsc
    cases hsc
  | none =>
    obtain ⟨found, hfnd, hagr⟩ := agrees_scan hlis hfil
    have hall := hdel found q hfnd
    rw [hfnd] at hsc
    cases hsc
    show Agrees sha256 (removeUnder sha256 faults 0 dir q.1) q.2.lru
    rw [removeUnder_of_deletes dir fun i hi => by rw [Nat.zero_add]; exact hall hents i hi]
    exact agrees_rebuild (PrefixRuntime.balanced_empty hcon).ssd hagr hents

/-- **A clean step keeps the files with their entries.** -/
theorem agrees_step (w : PrefixWorld) (op : PrefixOp) (hrng : op.InRange)
    (hcl : op.Clean sha256 w) (hbal : ∀ rt, w.runtime = some rt → rt.Balanced)
    (h : ∀ rt, w.runtime = some rt → rt.hasStore = true →
      Agrees sha256 w.directory rt.ssdIndex.lru) :
    ∀ rt, (w.step sha256 op).2.runtime = some rt → rt.hasStore = true →
      Agrees sha256 (w.step sha256 op).2.directory rt.ssdIndex.lru := by
  intro rt hrt hst
  cases op with
  | restart config faults =>
    unfold step at hrt ⊢
    dsimp only at hrt ⊢
    cases hnew : PrefixRuntime.new sha256 faults config w.directory with
    | error =>
      rw [hnew] at hrt
      cases hrt
    | ok =>
      rw [hnew] at hrt
      obtain rfl := Option.some.inj hrt
      have hus : (empty config).hasStore = true := by
        rw [← hst]
        exact (PrefixRuntime.keeps_new hrng hnew).hasStore.symm
      obtain ⟨hdel, hfil⟩ := hcl hus
      exact agrees_new hrng hdel hfil hus hnew
  | cache =>
    unfold step at hrt ⊢
    cases hw : w.runtime with
    | none =>
      rw [hw] at hrt
      exact h rt hrt hst
    | some before =>
      rw [hw] at hrt
      obtain rfl := answer_runtime hrt
      rw [answer_directory]
      rw [(hbal before hw).cachePrefix.hasStore] at hst
      obtain ⟨hdel, hwr, hal⟩ := hcl before hw hst
      exact PrefixRuntime.agrees_cachePrefix (hbal before hw) hdel hwr hal (h before hw hst)
  | lookup query faults =>
    unfold step at hrt ⊢
    cases hw : w.runtime with
    | none =>
      rw [hw] at hrt
      exact h rt hrt hst
    | some before =>
      rw [hw] at hrt
      obtain rfl := answer_runtime hrt
      rw [answer_directory]
      have hkep : before.Keeps (before.lookupPrefix sha256 faults w.directory query).2 :=
        (hbal before hw).lookupPrefix query
      rw [hkep.hasStore] at hst
      have hents := PrefixRuntime.lookupPrefix_entries (hcl before hw hst)
      refine (h before hw hst).perm ?_
      have haft := hkep.balanced.ssd.lru_perm
      rw [hents] at haft
      exact haft.trans (hbal before hw).ssd.lru_perm.symm
  | clear =>
    unfold step at hrt ⊢
    cases hw : w.runtime with
    | none =>
      rw [hw] at hrt
      exact h rt hrt hst
    | some before =>
      rw [hw] at hrt
      obtain rfl := Option.some.inj hrt
      exact h before hw hst
  | corrupt =>
    have hsam := hcl rt hrt hst
    exact ⟨(h rt hrt hst).once,
      fun name hnam => (hsam name hnam).trans ((h rt hrt hst).files name hnam)⟩

/-- A clean run keeps the law, from any state in which it holds. -/
theorem store_law_from {w : PrefixWorld} {ops : List PrefixOp} (hops : ∀ op ∈ ops, op.InRange)
    (hcl : (machine sha256).Along (fun w op => op.Clean sha256 w) w ops)
    (hbal : ∀ rt, w.runtime = some rt → rt.Balanced)
    (hagr : ∀ rt, w.runtime = some rt → rt.hasStore = true →
      Agrees sha256 w.directory rt.ssdIndex.lru) : (machine sha256).Within
      (fun w => ∀ rt, w.runtime = some rt → StoreLaw sha256 w.directory rt) w ops := by
  induction ops generalizing w with
  | nil => trivial
  | cons op ops ih =>
    have hop := hops op mem_cons_self
    have hbal' : ∀ rt, (w.step sha256 op).2.runtime = some rt → rt.Balanced :=
      balanced_step w op hop hbal
    have hagr' := agrees_step w op hop hcl.1 hbal hagr
    refine ⟨fun rt hrt => storeLaw_of_agrees (hbal' rt hrt) (hagr' rt hrt), ?_⟩
    exact ih (fun op hop => hops op (mem_cons_of_mem _ hop)) hcl.2 hbal' hagr'

/-- **The law of the store** holds after every step of a clean run. -/
theorem store_law (sha256 : List UInt8 → Bytes 32) (dir : Directory) {ops : List PrefixOp}
    (hops : ∀ op ∈ ops, op.InRange)
    (hclean : (machine sha256).Along (fun w op => op.Clean sha256 w) (initial dir) ops) :
    (machine sha256).Within
      (fun w => ∀ rt, w.runtime = some rt → StoreLaw sha256 w.directory rt) (initial dir) ops :=
  store_law_from hops hclean (fun _ h => by cases h) (fun _ h => by cases h)

/-- A snapshot is cached under its key. -/
abbrev cacheOp (sha256 : List UInt8 → Bytes 32) (key : PrefixKey) (fault : Option IoError) :
    PrefixOp :=
  .cache key (forgedSnapshot sha256 key 1) (.only none fault)

/-- A key is cached, and the memory is cleared. -/
def cleanOps (sha256 : List UInt8 → Bytes 32) : List PrefixOp :=
  [.restart forgedConfig (.only none none), cacheOp sha256 (forgedKey sha256) none, .clear]

theorem store_law_of_clean : (machine fun _ => zeroDigest).Within
      (fun w => ∀ rt, w.runtime = some rt → StoreLaw (fun _ => zeroDigest) w.directory rt)
      (initial ∅) (cleanOps fun _ => zeroDigest) := by
  refine store_law _ ∅ ?_ ⟨?_, ?_, trivial, trivial⟩
  · intro op hop
    simp only [cleanOps, mem_cons, not_mem_nil, or_false] at hop
    rcases hop with rfl | rfl | rfl
    · exact ⟨by decide, by decide⟩
    · trivial
    · trivial
  · intro _
    refine ⟨fun _ _ _ _ _ _ => rfl, fun name content hfil => ?_⟩
    cases hfil
  · intro rt hrt _
    cases hrt
    refine ⟨fun _ _ _ _ _ _ => rfl, Or.inl rfl, fun f hf => ?_⟩
    cases hf

/-- **A write fails over an entry that is there**: the entry goes, and nothing
is done to its file. -/
theorem cachePrefix_failed {key : PrefixKey} {s : StateSnapshot} {file : List UInt8}
    (hfil : writeSnapshot sha256 key s = .ok file) (e : IoError) (dir : Directory)
    (hsiz : cacheEntryBytes sha256 key s = .ok size) (hle : size ≤ usizeMax) :
    ∃ message index, (forgedRuntime key size).cachePrefix sha256 (.only none (some e)) dir key s
      = (.error (.error message), dir, { forgedRuntime key size with ssdIndex := index })
      ∧ ∀ f, index.entries.lookup f = none := by
  obtain ⟨hlen, hhas⟩ := ((writeSnapshot_eq_ok sha256).mp hfil).1
  obtain ⟨hidx, -⟩ := (accounts_new le_rfl).of_insert (indexInsert_new key hle hle)
  have hone : ((new usizeMax).push key () size).lru = [key.fingerprint] := rfl
  have hmax : ((new usizeMax).push key () size).maxBytes = usizeMax := rfl
  generalize hpus : (new usizeMax).push key () size = pushed at hidx hone hmax
  -- the only entry makes room for itself
  have hnon : pushed.lru.filter (fun f => decide (f ≠ key.fingerprint)) = [] := by
    rw [hone]
    exact filter_eq_nil_iff.mpr (by simp)
  have hfit : pushed.Fits key size := by
    right
    have hres := (hidx.remove key.fingerprint).bytesOf_lru
    rw [hidx.remove_eq] at hres ⊢
    dsimp only at hres ⊢
    rw [hnon] at hres
    rw [← hres]
    exact (Nat.zero_add size).trans_le hle
  obtain ⟨evicted, u, hins, hacc, hadm⟩ :=
    hidx.indexInsert_eq (hle.trans_eq hmax.symm) hfit
  obtain ⟨rest, hres, hlru⟩ := hadm.split
  obtain ⟨rfl, rfl⟩ := append_eq_nil_iff.mp (hres.symm.trans hnon)
  refine ⟨"write SSD prefix cache: " ++ e.message, (u.remove key.fingerprint).2, ?_, fun f => ?_⟩
  · have hwr : writeFor sha256 dir key s (some e) = .error (.error e) := by
      rw [writeFor, hfil]
      rfl
    unfold PrefixRuntime.cachePrefix
    rw [if_neg (by simp [forgedRuntime, empty, forgedConfig]),
      if_neg (not_or.mpr ⟨not_not.mpr hlen, not_not.mpr hhas⟩)]
    show cacheChecked sha256 _ _ dir key s = _
    unfold cacheChecked
    rw [hsiz]
    show PrefixRuntime.cacheStore sha256 _ _ dir key s size = _
    unfold PrefixRuntime.cacheStore
    have hrm : ((forgedRuntime key size).hasStore
        && decide (size ≤ (forgedRuntime key size).config.ssdCacheBytes)) = true :=
      decide_eq_true hle
    rw [if_pos hrm, show (forgedRuntime key size).ssdIndex = pushed from hpus, hins]
    have hrem : removeUnder sha256 (.only none (some e)) 0 dir [] = dir := rfl
    dsimp only [StoreFaults.only] at hrem ⊢
    rw [hrem, hwr]
    rfl
  · have haft := hacc.remove key.fingerprint
    refine haft.lookup_none ?_
    rw [hacc.remove_eq, hlru]
    simp

/-- **A file without an entry**: a key is cached, and its second write fails,
whatever the hash function is. -/
theorem store_law_broken : ¬ ∃ sha256 : List UInt8 → Bytes 32, ∀ dir ops, (∀ op ∈ ops, op.InRange) →
      (machine sha256).Within
        (fun w => ∀ rt, w.runtime = some rt → StoreLaw sha256 w.directory rt)
          (initial dir) ops := by
  rintro ⟨sha256, hlaw⟩
  obtain ⟨file, hfil, -⟩ := write_forgedSnapshot sha256 (forgedKey sha256) 1
  generalize hkey : forgedKey sha256 = key at hfil
  obtain ⟨-, v, hv, -⟩ := (writeSnapshot_eq_ok sha256).mp hfil
  have hcac := PrefixRuntime.cachePrefix_forged sha256 hv hfil
  have hsiz : cacheEntryBytes sha256 key _ = _ := cacheEntryBytes_of_toBytes sha256 hv
  have hle := size_le_usizeMax key v
  generalize key.prefixLen.toNat * 4 + v.toList.length = size at hcac hsiz hle
  let e : IoError := ⟨.other, "no space left on device"⟩
  let dir : Directory :=
    Table.insert ∅ (snapshotPath sha256 key.fingerprint) (some file)
  obtain ⟨message, index, hfld, hemp⟩ := cachePrefix_failed hfil e dir hsiz hle
  have hfst : (step sha256 ⟨∅, some (empty forgedConfig)⟩ (cacheOp sha256 key none)).2
      = ⟨dir, some (forgedRuntime key size)⟩ := by
    simp only [step, hcac, answer, dir]
  have hsec : (step sha256 ⟨dir, some (forgedRuntime key size)⟩ (cacheOp sha256 key (some e))).2
      = ⟨dir, some { forgedRuntime key size with ssdIndex := index }⟩ := by
    simp only [step, hfld, answer]
  have hrng : ∀ op ∈ [PrefixOp.restart forgedConfig (.only none none), cacheOp sha256 key none,
      cacheOp sha256 key (some e)], op.InRange := by
    intro op hop
    simp only [mem_cons, not_mem_nil, or_false] at hop
    rcases hop with rfl | rfl | rfl
    · exact ⟨by decide, by decide⟩
    · trivial
    · trivial
  have hlas := (hlaw ∅ _ hrng).2.2.1
  change ∀ rt, (step sha256 (step sha256 ⟨∅, some (empty forgedConfig)⟩ _).2
    _).2.runtime = some rt → StoreLaw sha256 (step sha256 (step sha256
      ⟨∅, some (empty forgedConfig)⟩ _).2 _).2.directory rt at hlas
  rw [hfst, hsec] at hlas
  have hmem : snapshotPath sha256 key.fingerprint ∈ storeFiles dir :=
    ⟨hasExtension_snapshotPath sha256 _, by
      simp only [dir, lookup_insert_self, Option.isSome_some]⟩
  rw [(hlas _ rfl).files rfl] at hmem
  obtain ⟨f, entry, hent, -⟩ := hmem
  rw [show AList.lookup f index.entries = none from hemp f] at hent
  cases hent

end PrefixWorld

end Sha

end Logan
