import Logan.Prefix.StoreAccounts

/-!
# The longest prefix, tier by tier

A lookup asks the memory first, and the store only if the memory has no entry
that is a prefix of the query. In each of the two it finds the longest. So a
hit in memory is the longest of the memory, and a longer one may be in the
store; a hit in the store is the longest there is; and a miss is when there is
none in either (`PrefixWorld.tier_law`).
-/

namespace Logan

open List SsdPrefixStore PrefixRuntime PrefixTable StateSnapshot PrefixKey

/-- **The lengths of the entries of a table that are prefixes of the query.** -/
def PrefixTable.held {V : Type} (t : PrefixTable V) (query : PrefixKey) : Set ℕ :=
  {n | ∃ f e, t.entries.lookup f = some e ∧ e.key.isPrefixOf query = true
    ∧ e.key.prefixTokens.toList.length = n}

namespace PrefixTable

variable {V : Type} {t : PrefixTable V} {query : PrefixKey} {f : PrefixFingerprint}

theorem isGreatest_of_lookup {e : PrefixEntry V} (h : (t.lookup query).1 = some (f, e)) :
    IsGreatest (t.held query) e.key.prefixLen.toNat := by
  obtain ⟨hent, hst⟩ := (t.lookup_spec query).2 f e h
  refine ⟨⟨f, e, hent, hst, e.key.toNat_prefixLen.symm⟩, ?_⟩
  rintro n ⟨g, e', hent', hst', rfl⟩
  rw [e.key.toNat_prefixLen]
  exact le_of_lookup h hent' hst'

theorem held_eq_empty_iff : t.held query = ∅ ↔ (t.lookup query).1 = none := by
  rw [lookup_eq_none_iff, Set.eq_empty_iff_forall_notMem]
  constructor
  · intro h f e hent
    by_contra hst
    exact h _ ⟨f, e, hent, by simpa using hst, rfl⟩
  · rintro h n ⟨f, e, hent, hst, -⟩
    rw [h f e hent] at hst
    cases hst

end PrefixTable

namespace PrefixRuntime

section Sha

variable {sha256 : List UInt8 → Bytes 32} {rt : PrefixRuntime} {dir : Directory}
variable {query key : PrefixKey} {snapshot : StateSnapshot} {f : PrefixFingerprint}
variable {faults : StoreFaults}

/-- **The files are intact**: that of every entry of the index can be read, and
is that of its key. -/
def FilesIntact (sha256 : List UInt8 → Bytes 32) (faults : StoreFaults) (dir : Directory)
    (rt : PrefixRuntime) : Prop :=
  ∀ f e, rt.ssdIndex.entries.lookup f = some e →
    ∃ snapshot, readUnder sha256 faults dir f = .ok (e.key, snapshot)

/-- **What is found in the store overflows the memory**: there is room for it
by itself, but the total of the memory cannot be told. -/
def Overflows (sha256 : List UInt8 → Bytes 32) (faults : StoreFaults) (dir : Directory)
    (rt : PrefixRuntime) (query : PrefixKey) : Prop :=
  ∃ f e snapshot size, (rt.ssdIndex.lookup query).1 = some (f, e)
    ∧ readUnder sha256 faults dir f = .ok (e.key, snapshot)
    ∧ cacheEntryBytes sha256 e.key snapshot = .ok size ∧ size ≤ rt.config.ramCacheBytes
    ∧ ¬ PrefixTable.Fits rt.ramCache e.key size

/-- **What a lookup returns.** -/
structure TierLaw (rt : PrefixRuntime) (query : PrefixKey) (r : PrefixLookupResult) : Prop where
  hit_iff : r.hit = true ↔ (rt.ramCache.held query ∪ rt.ssdIndex.held query).Nonempty
  ram : (rt.ramCache.held query).Nonempty →
    r.ramHit = true ∧ IsGreatest (rt.ramCache.held query) r.prefixLen
  ssd : rt.ramCache.held query = ∅ → (rt.ssdIndex.held query).Nonempty →
    r.ssdHit = true ∧ IsGreatest (rt.ssdIndex.held query) r.prefixLen

/-- What has been read can be measured. -/
theorem measured_of_read (h : readUnder sha256 faults dir f = .ok (key, snapshot)) :
    ∃ size, cacheEntryBytes sha256 key snapshot = .ok size := by
  unfold readUnder at h
  split at h
  · cases h
  unfold readFor at h
  split at h
  · cases h
  · cases h
  · obtain ⟨entry, hrd, h⟩ := Result.bind_eq_ok.mp h
    split_ifs at h
    cases h
    obtain ⟨header, after, hsn⟩ := readFile_eq_ok.mp hrd
    obtain ⟨_, ⟨v, hc, -⟩, -⟩ := (reads_snapshot sha256 _ (header, key, snapshot) after).mp hsn
    have hbytes := (toBytes_eq_fromBytes sha256).mpr hc.payload
    exact ⟨_, cacheEntryBytes_of_toBytes sha256 hbytes⟩

/-- **What is read is found**, unless it overflows the memory. -/
theorem promote_eq (h : Balanced rt) (hst : key.isPrefixOf query = true) {size : ℕ}
    (hsiz : cacheEntryBytes sha256 key snapshot = .ok size) :
    (rt.promote sha256 query f key snapshot).1
        = .ok (.found false query.prefixLen.toNat key.prefixLen.toNat snapshot)
      ∨ (rt.promote sha256 query f key snapshot).1 = .error .panic
        ∧ size ≤ rt.config.ramCacheBytes ∧ ¬ PrefixTable.Fits rt.ramCache key size := by
  unfold promote
  rw [if_neg (by rw [hst]; decide), hsiz]
  dsimp only
  by_cases hle : size ≤ rt.config.ramCacheBytes
  · rw [if_pos hle]
    by_cases hfit : PrefixTable.Fits rt.ramCache key size
    · obtain ⟨-, u, hins, -⟩ := h.ram.ramInsert_eq snapshot (hle.trans_eq h.ramMax.symm) hfit
      rw [hins]
      exact Or.inl rfl
    · rw [h.ram.ramInsert_panics snapshot (hle.trans_eq h.ramMax.symm) hfit]
      exact Or.inr ⟨rfl, hle, hfit⟩
  · rw [if_neg hle]
    exact Or.inl rfl

/-- **A lookup over intact files** returns what the tiers hold, or overflows the
memory. -/
theorem tierLaw_lookup (h : Balanced rt) (hint : FilesIntact sha256 faults dir rt)
    (query : PrefixKey) :
    (∃ r, (rt.lookupPrefix sha256 faults dir query).1 = .ok r
        ∧ TierLaw rt (rt.effectiveKey sha256 query) r)
      ∨ (rt.lookupPrefix sha256 faults dir query).1 = .error .panic
        ∧ rt.ramCache.held (rt.effectiveKey sha256 query) = ∅
        ∧ Overflows sha256 faults dir rt (rt.effectiveKey sha256 query) := by
  unfold lookupPrefix
  generalize rt.effectiveKey sha256 query = query
  unfold lookupEffective
  have hram := lookup_snd rt.ramCache query
  cases hfnd : (rt.ramCache.lookup query).1 with
  | some found =>
    obtain ⟨g, e⟩ := found
    have hmax := isGreatest_of_lookup hfnd
    rw [show rt.ramCache.lookup query = (some (g, e), (rt.ramCache.lookup query).2) from
      Prod.ext hfnd rfl]
    refine Or.inl ⟨_, rfl, ?_, fun _ => ⟨rfl, hmax⟩, fun hnon => ?_⟩
    · exact iff_of_true rfl ⟨_, Or.inl hmax.1⟩
    · rw [hnon] at hmax
      exact absurd hmax.1 (Set.notMem_empty _)
  | none =>
    have hnon := held_eq_empty_iff.mpr hfnd
    rw [hfnd] at hram
    rw [show rt.ramCache.lookup query = (none, rt.ramCache) from Prod.ext hfnd hram]
    show (∃ r, (rt.lookupStore sha256 faults dir query).1 = .ok r ∧ TierLaw rt query r)
      ∨ (rt.lookupStore sha256 faults dir query).1 = .error .panic ∧ rt.ramCache.held query = ∅
        ∧ Overflows sha256 faults dir rt query
    unfold lookupStore
    cases hst : (rt.ssdIndex.lookup query).1 with
    | none =>
      have hemp := held_eq_empty_iff.mpr hst
      rw [show rt.ssdIndex.lookup query = (none, (rt.ssdIndex.lookup query).2) from
        Prod.ext hst rfl]
      refine Or.inl ⟨_, rfl, ?_, ?_, ?_⟩
      · rw [hnon, hemp, Set.union_empty]
        exact iff_of_false Bool.false_ne_true Set.not_nonempty_empty
      · rw [hnon]
        exact fun hsom => absurd hsom Set.not_nonempty_empty
      · rw [hemp]
        exact fun _ hsom => absurd hsom Set.not_nonempty_empty
    | some found =>
      obtain ⟨f, e⟩ := found
      obtain ⟨hent, hstr⟩ := (rt.ssdIndex.lookup_spec query).2 f e hst
      obtain ⟨snapshot, hrd⟩ := hint f e hent
      obtain ⟨size, hsiz⟩ := measured_of_read hrd
      have hmax := isGreatest_of_lookup hst
      have hsto : rt.hasStore = true := by
        by_contra hno
        rw [h.unused (by simpa using hno)] at hent
        cases hent
      have hkep := h.lookupIndex query
      rw [show rt.ssdIndex.lookup query = (some (f, e), (rt.ssdIndex.lookup query).2) from
        Prod.ext hst rfl]
      dsimp only
      rw [if_neg (by rw [hsto]; decide), hrd]
      rcases promote_eq hkep.balanced hstr hsiz with heq | ⟨heq, hle, hfit⟩
      · refine Or.inl ⟨_, heq, ?_, ?_, fun _ _ => ⟨rfl, hmax⟩⟩
        · exact iff_of_true rfl ⟨_, Or.inr hmax.1⟩
        · rw [hnon]
          exact fun hsom => absurd hsom Set.not_nonempty_empty
      · exact Or.inr ⟨heq, hnon, f, e, snapshot, size, hst, hrd, hsiz, hle, hfit⟩

end Sha

end PrefixRuntime

/-! ## Every runtime -/

namespace PrefixWorld

/-- **The law of the tiers**, for every runtime that can be reached, whatever
has failed: over intact files a lookup returns the longest entry of the memory
that is a prefix of the query, or else the longest of the store, or else
nothing, unless keeping what it has found overflows the memory. -/
theorem tier_law (sha256 : List UInt8 → Bytes 32) (dir : Directory) {ops : List PrefixOp}
    (hops : ∀ op ∈ ops, op.InRange) {rt : PrefixRuntime}
    (hrt : ((machine sha256).run (initial dir) ops).runtime = some rt) {faults : StoreFaults}
    (hintact : PrefixRuntime.FilesIntact sha256 faults
      ((machine sha256).run (initial dir) ops).directory rt) (query : PrefixKey) :
    (∃ r, (rt.lookupPrefix sha256 faults ((machine sha256).run (initial dir) ops).directory
          query).1 = .ok r ∧ PrefixRuntime.TierLaw rt (rt.effectiveKey sha256 query) r)
      ∨ (rt.lookupPrefix sha256 faults ((machine sha256).run (initial dir) ops).directory
          query).1 = .error .panic ∧ rt.ramCache.held (rt.effectiveKey sha256 query) = ∅
        ∧ PrefixRuntime.Overflows sha256 faults ((machine sha256).run (initial dir) ops).directory
          rt (rt.effectiveKey sha256 query) :=
  tierLaw_lookup (run_balanced dir hops hrt) hintact query

end PrefixWorld

/-! ## A longer prefix in the store -/

namespace PrefixRuntime

section Sha

variable {sha256 : List UInt8 → Bytes 32} {rt : PrefixRuntime} {key : PrefixKey}
variable {snapshot : StateSnapshot} {size : ℕ} {file : List UInt8}

/-- **What is cached comes into the store**, and into memory if there is room
for it by itself. -/
theorem cachePrefix_stores (h : Balanced rt) (dir : Directory) (hacc : rt.Accepts key snapshot)
    (hsal : rt.effectiveKey sha256 key = key)
    (hfil : writeSnapshot sha256 key snapshot = .ok file)
    (hsiz : cacheEntryBytes sha256 key snapshot = .ok size) (hst : rt.hasStore = true)
    (hram : rt.config.ramCacheBytes < usizeMax) (hssd : rt.config.ssdCacheBytes < usizeMax)
    (hle : size ≤ rt.config.ssdCacheBytes) :
    ∃ evicted index ram, rt.cachePrefix sha256 (.only none none) dir key snapshot
        = (.ok (), (removeAll sha256 dir evicted).insert
          (snapshotPath sha256 key.fingerprint) (some file),
          { rt with ramCache := ram, ssdIndex := index })
      ∧ PrefixTable.Admits rt.ssdIndex key () size evicted index
      ∧ (0 < rt.config.ramCacheBytes → size ≤ rt.config.ramCacheBytes →
        ∃ dropped, PrefixTable.Admits rt.ramCache key snapshot size dropped ram)
      ∧ (rt.config.ramCacheBytes < size → ram = rt.ramCache) := by
  obtain ⟨evicted, index, hins, -, hadm⟩ := h.ssd.indexInsert_eq
    (hle.trans_eq h.ssdMax.symm) (Or.inl (h.ssdMax.trans_lt hssd))
  have hstr (ram : RamPrefixCache StateSnapshot) :
      ({ rt with ramCache := ram } : PrefixRuntime).cacheStore sha256 (.only none none) dir key
          snapshot size
        = (.ok (), (removeAll sha256 dir evicted).insert
          (snapshotPath sha256 key.fingerprint) (some file),
          { rt with ramCache := ram, ssdIndex := index }) := by
    have hwr : writeFor sha256 (removeAll sha256 dir evicted)
        key snapshot none = .ok ((removeAll sha256 dir evicted).insert
          (snapshotPath sha256 key.fingerprint) (some file)) := by
      rw [writeFor, hfil]
      rfl
    unfold cacheStore
    rw [if_pos (Bool.and_eq_true_iff.mpr ⟨hst, decide_eq_true hle⟩)]
    rw [hins]
    dsimp only
    rw [removeUnder_of_deletes dir fun _ _ => rfl,
      show (StoreFaults.only none none).write = none from rfl, hwr]
  rw [cachePrefix_of_accepts hacc, hsal, cacheChecked, hsiz]
  dsimp only
  by_cases hrm : 0 < rt.config.ramCacheBytes ∧ size ≤ rt.config.ramCacheBytes
  · rw [if_pos (Bool.and_eq_true_iff.mpr ⟨decide_eq_true hrm.1, decide_eq_true hrm.2⟩)]
    obtain ⟨dropped, ram, hrmn, -, hkep⟩ := h.ram.ramInsert_eq snapshot
      (hrm.2.trans_eq h.ramMax.symm) (Or.inl (h.ramMax.trans_lt hram))
    rw [hrmn]
    exact ⟨evicted, index, ram, hstr ram, hadm, fun _ _ => ⟨dropped, hkep⟩,
      fun hlrg => absurd hrm.2 (not_le.mpr hlrg)⟩
  · rw [if_neg (fun hbot => hrm (by simpa using hbot))]
    exact ⟨evicted, index, rt.ramCache, hstr rt.ramCache, hadm,
      fun hpos hfit => absurd ⟨hpos, hfit⟩ hrm, fun _ => rfl⟩

end Sha

end PrefixRuntime

namespace PrefixWorld

section Sha

variable (sha256 : List UInt8 → Bytes 32)

/-- The key of two tokens, of which that of `forgedKey` is the first. -/
def longKey : PrefixKey :=
  new sha256 ⟨zeroDigest⟩ ⟨zeroDigest⟩ ⟨zeroDigest⟩ ⟨zeroDigest⟩ ⟨[7, 8], by decide⟩

/-- Memory for an entry of one token, and a store for one of two. -/
def tiersConfig : PrefixRuntimeConfig where
  ramCacheBytes := 94
  ssdCacheBytes := 98
  hasRoot := true
  minCacheTokens := 0
  writesEnabled := true
  salt := []

/-- One token is cached, and then two. -/
def tiersOps : List PrefixOp :=
  [.restart tiersConfig (.only none none),
    cacheOp sha256 (forgedKey sha256) none, cacheOp sha256 (longKey sha256) none]

/-- **The short one is in memory, and the long one in the store.** -/
theorem run_tiersOps : ∃ rt, ((machine sha256).run (initial ∅) (tiersOps sha256)).runtime = some rt
      ∧ PrefixRuntime.FilesIntact sha256 (.only none none)
        ((machine sha256).run (initial ∅) (tiersOps sha256)).directory rt
      ∧ rt.effectiveKey sha256 (longKey sha256) = longKey sha256
      ∧ IsGreatest (rt.ramCache.held (longKey sha256)) 1 ∧
        2 ∈ rt.ssdIndex.held (longKey sha256) := by
  have hfst : (empty tiersConfig).Balanced :=
    balanced_empty ⟨by decide, by decide⟩
  obtain ⟨file, hfil, hsiz⟩ := write_forgedSnapshot sha256 (forgedKey sha256) 1
  obtain ⟨file', hfil', hsiz'⟩ := write_forgedSnapshot sha256 (longKey sha256) 1
  change cacheEntryBytes sha256 _ _ = .ok 94 at hsiz
  change cacheEntryBytes sha256 _ _ = .ok 98 at hsiz'
  -- the short one
  obtain ⟨evicted, index, ram, hcac, hidx, hram, -⟩ := cachePrefix_stores hfst
    ∅ ⟨⟨Nat.zero_le _, rfl⟩, rfl, rfl⟩ rfl hfil hsiz rfl (by decide) (by decide)
    (by decide : 94 ≤ 98)
  obtain ⟨dropped, hram⟩ := hram (by decide : 0 < 94) (le_refl 94)
  have haft : (empty tiersConfig).Keeps ((empty
      tiersConfig).cachePrefix sha256 (.only none none) ∅ (forgedKey sha256)
        (forgedSnapshot sha256 (forgedKey sha256) 1)).2.2 := hfst.cachePrefix
  rw [hcac] at haft
  have hbal : ({ empty tiersConfig with
      ramCache := ram, ssdIndex := index } : PrefixRuntime).Balanced := haft.balanced
  have hsh (f : PrefixFingerprint) : index.entries.lookup f
      = if f = (forgedKey sha256).fingerprint then some ⟨forgedKey sha256, (), 94⟩ else none := by
    rw [hidx.lookup_eq f]
    refine if_congr Iff.rfl rfl ?_
    split_ifs <;> rfl
  have hlru : index.lru = [(forgedKey sha256).fingerprint] := by
    obtain ⟨rest, hres, hlru⟩ := hidx.split
    obtain ⟨-, rfl⟩ := append_eq_nil_iff.mp hres.symm
    exact hlru
  -- the long one, for which there is no room in memory, and none in the store beside the other
  obtain ⟨evicted', index', ram', hcac', hidx', -, hsam⟩ := cachePrefix_stores
    hbal ((removeAll sha256 ∅ evicted).insert
      (snapshotPath sha256 (forgedKey sha256).fingerprint) (some file))
    ⟨⟨Nat.zero_le _, rfl⟩, rfl, rfl⟩ rfl hfil' hsiz' rfl
    (by decide : 94 < usizeMax) (by decide : 98 < usizeMax) (le_refl 98)
  obtain rfl := (hsam (by decide : 94 < 98)).symm
  have hne : (forgedKey sha256).fingerprint ≠ (longKey sha256).fingerprint := fun heq =>
    absurd (congrArg PrefixFingerprint.prefixLen heq) (by decide : UInt64.ofNat 1 ≠ UInt64.ofNat 2)
  have hoth : index.lru.filter (fun f => decide (f ≠ (longKey sha256).fingerprint))
      = [(forgedKey sha256).fingerprint] := by
    rw [hlru]
    exact filter_cons_of_pos (decide_eq_true hne)
  have hgon : (forgedKey sha256).fingerprint ∈ evicted' := by
    obtain ⟨rest, hres, -⟩ := hidx'.split
    rw [show index.lru.filter (fun f => decide (f ≠ (longKey sha256).fingerprint)) = _ from hoth]
      at hres
    cases evicted' with
    | nil =>
      have hen : index.bytesOf ((index.lru.filter fun f =>
        decide (f ≠ (longKey sha256).fingerprint)).drop 0) + 98 ≤ index.maxBytes := hidx'.least.1
      have hmax : index.maxBytes = 98 := hbal.ssdMax
      rw [hoth, drop_zero, hmax] at hen
      have hszf : index.sizeOf (forgedKey sha256).fingerprint = 94 :=
        Table.weigh_of_lookup ((hsh _).trans (if_pos rfl))
      have hbytes : index.bytesOf [(forgedKey sha256).fingerprint] = 94 := by
        rw [bytesOf, map_singleton, sum_singleton, hszf]
      omega
    | cons =>
      rw [(List.cons.inj hres).1]
      exact mem_cons_self
  have hlong (f : PrefixFingerprint) : index'.entries.lookup f
      = if f = (longKey sha256).fingerprint then some ⟨longKey sha256, (), 98⟩ else none := by
    rw [hidx'.lookup_eq f]
    refine if_congr Iff.rfl rfl ?_
    by_cases hf : f = (forgedKey sha256).fingerprint
    · rw [if_pos (hf ▸ hgon)]
    · show (if f ∈ evicted' then none else index.entries.lookup f) = none
      rw [hsh f, if_neg hf]
      split_ifs <;> rfl
  have hrun : (machine sha256).run (initial ∅) (tiersOps sha256)
      = ⟨(removeAll sha256 ((removeAll sha256 ∅ evicted).insert
          (snapshotPath sha256 (forgedKey sha256).fingerprint) (some file))
            evicted').insert (snapshotPath sha256 (longKey sha256).fingerprint)
            (some file'),
        some { empty tiersConfig with ramCache := ram, ssdIndex := index' }⟩ := by
    show (step sha256 (step sha256 ⟨∅, some (empty tiersConfig)⟩
      (.cache _ _ _)).2 (.cache _ _ _)).2 = _
    simp only [step, hcac, answer, hcac']
  rw [hrun]
  have hram' (f : PrefixFingerprint) : ram.entries.lookup f = if f = (forgedKey sha256).fingerprint
        then some ⟨forgedKey sha256, forgedSnapshot sha256 (forgedKey sha256) 1, 94⟩ else none := by
    rw [hram.lookup_eq f]
    refine if_congr Iff.rfl rfl ?_
    split_ifs <;> rfl
  refine ⟨_, rfl, fun f e hent => ?_, rfl, ⟨?_, ?_⟩, ?_⟩
  · rw [show AList.lookup f index'.entries = _ from hlong f] at hent
    split_ifs at hent with hf
    cases hent
    refine ⟨forgedSnapshot sha256 (longKey sha256) 1, ?_⟩
    rw [hf]
    show readFor sha256 _ (longKey sha256).fingerprint = _
    unfold readFor
    rw [Table.lookup_insert_self]
    dsimp only
    rw [readFile_of_write sha256 rfl hfil']
    exact if_neg (not_not.mpr rfl)
  · refine ⟨(forgedKey sha256).fingerprint, _, (hram' _).trans (if_pos rfl), ?_, rfl⟩
    have hcon : (forgedKey sha256).sameContract (longKey sha256) = true :=
      sameContract_iff.mpr ⟨rfl, rfl, rfl, rfl⟩
    show ((forgedKey sha256).sameContract (longKey sha256) && List.isPrefixOf [7] [7, 8]) = true
    rw [hcon]
    rfl
  · rintro n ⟨f, e, hent, -, rfl⟩
    rw [show AList.lookup f ram.entries = _ from hram' f] at hent
    split_ifs at hent
    cases hent
    exact le_refl 1
  · exact ⟨(longKey sha256).fingerprint, _, (hlong _).trans (if_pos rfl), isPrefixOf_self _, rfl⟩

theorem tiersOps_inRange : ∀ op ∈ tiersOps sha256, op.InRange := by
  intro op hop
  simp only [tiersOps, mem_cons, not_mem_nil, or_false] at hop
  rcases hop with rfl | rfl | rfl
  · exact ⟨by decide, by decide⟩
  · trivial
  · trivial

/-- **The longest of both tiers**: what a lookup would return that compared
them. -/
structure LongestLaw (rt : PrefixRuntime) (query : PrefixKey) (r : PrefixLookupResult) : Prop where
  hit_iff : r.hit = true ↔ (rt.ramCache.held query ∪ rt.ssdIndex.held query).Nonempty
  longest : r.hit = true → IsGreatest (rt.ramCache.held query ∪ rt.ssdIndex.held query) r.prefixLen

/-- **The lookup finds the short one**, whatever the hash function is. -/
theorem longest_not_found :
    ¬ ∃ sha256 : List UInt8 → Bytes 32, ∀ dir ops, (∀ op ∈ ops, op.InRange) → ∀ rt,
      ((machine sha256).run (initial dir) ops).runtime = some rt →
      PrefixRuntime.FilesIntact sha256 (.only none none)
        ((machine sha256).run (initial dir) ops).directory rt →
      ∀ query, ∃ r, (rt.lookupPrefix sha256 (.only none none)
          ((machine sha256).run (initial dir) ops).directory query).1 = .ok r
        ∧ LongestLaw rt (rt.effectiveKey sha256 query) r := by
  rintro ⟨sha256, hlon⟩
  obtain ⟨rt, hrt, hint, hsal, hsh, hlong⟩ := run_tiersOps sha256
  have hrng := tiersOps_inRange sha256
  obtain ⟨r, hr, hlaw⟩ := hlon ∅ _ hrng rt hrt hint (longKey sha256)
  have hbal := run_balanced ∅ hrng hrt
  rcases tierLaw_lookup hbal hint (longKey sha256) with
    ⟨r', hr', htrs⟩ | ⟨hpan, -⟩
  · obtain rfl := Except.ok.inj (hr.symm.trans hr')
    rw [hsal] at hlaw htrs
    have hfnd := (htrs.ram ⟨1, hsh.1⟩).2.unique hsh
    have hle := (hlaw.longest (htrs.hit_iff.mpr ⟨1, Or.inl hsh.1⟩)).2 (Or.inr hlong)
    rw [hfnd] at hle
    exact absurd hle (by decide)
  · rw [hr] at hpan
    cases hpan

end Sha

/-- The lookup after one token has been cached, and then two. -/
theorem tier_law_of_two : ∃ w rt, w = (machine fun _ => zeroDigest).run (initial ∅)
        (tiersOps fun _ => zeroDigest) ∧ w.runtime = some rt
      ∧ ((∃ r, (rt.lookupPrefix (fun _ => zeroDigest) (.only none none) w.directory
            (longKey fun _ => zeroDigest)).1 = .ok r
          ∧ PrefixRuntime.TierLaw rt (rt.effectiveKey (fun _ => zeroDigest)
            (longKey fun _ => zeroDigest)) r)
        ∨ (rt.lookupPrefix (fun _ => zeroDigest) (.only none none) w.directory
            (longKey fun _ => zeroDigest)).1 = .error .panic
          ∧ rt.ramCache.held (rt.effectiveKey (fun _ => zeroDigest)
            (longKey fun _ => zeroDigest)) = ∅
          ∧ PrefixRuntime.Overflows (fun _ => zeroDigest) (.only none none) w.directory rt
            (rt.effectiveKey (fun _ => zeroDigest) (longKey fun _ => zeroDigest))) := by
  obtain ⟨rt, hrt, hint, -⟩ := run_tiersOps fun _ => zeroDigest
  exact ⟨_, rt, rfl, hrt, tier_law _ ∅ (tiersOps_inRange _) hrt hint _⟩

end PrefixWorld

end Logan
