import Logan.Format.Opened
import Logan.Format.Verify
import Logan.Util.Crc

/-!
# What is verified can be opened

The verifier has every check that `openPackage` has but one: that no two records
have the same name. With names that are all different, a package that passes the
verifier is opened, and has the records that the verifier has read; otherwise
it is refused.

Both notice whatever byte of a manifest has changed, by its checksum.
-/

namespace Logan

open List

namespace Format

open Result

variable {crc32c : List UInt8 → UInt32} {d : Directory} {manifest : List UInt8}
  {h : ManifestHeader}

/-! ## Strings -/

/-- **A string that is validated can be read.** -/
theorem exists_stringAt {stringTable : ℕ × ℕ} {count id : ℕ} {u : Unit}
    (hbnd : stringTable.2 ≤ manifest.length)
    (hval : validateStringId manifest stringTable count id = .ok u) :
    ∃ s, stringAt manifest stringTable count id = .ok s := by
  obtain ⟨_, hid, hval⟩ := bind_eq_ok.mp hval
  obtain ⟨offset, hoff, hval⟩ := bind_eq_ok.mp hval
  obtain ⟨bytes, hbytes, hval⟩ := bind_eq_ok.mp hval
  obtain ⟨dataStart, hst, hval⟩ := bind_eq_ok.mp hval
  obtain ⟨dataEnd, hend, hval⟩ := bind_eq_ok.mp hval
  simp only [refuse_eq_ok, not_or, not_lt] at hval
  obtain ⟨-, hins, htex, -⟩ := hval
  obtain ⟨hsum, -⟩ := checkedSum_eq_some.mp (okOr_eq_ok.mp hend)
  have hrng : range? manifest dataStart dataEnd = some (slice manifest dataStart bytes.toNat) := by
    rw [range?_of_le (by omega) (le_trans hins hbnd), ← hsum, Nat.add_sub_cancel_left]
  obtain ⟨s, hs⟩ := Option.ne_none_iff_exists'.mp htex
  exact ⟨s, bind_eq_ok.mpr ⟨(), hid, bind_eq_ok.mpr ⟨offset, hoff, bind_eq_ok.mpr ⟨bytes, hbytes,
    bind_eq_ok.mpr ⟨dataStart, hst, bind_eq_ok.mpr ⟨dataEnd, hend, bind_eq_ok.mpr ⟨_,
    okOr_eq_ok.mpr hrng, okOr_eq_ok.mpr hs⟩⟩⟩⟩⟩⟩⟩

theorem le_of_variableRegion {offsetField bytesField : ℕ} {label : String} {r : ℕ × ℕ}
    (hr : variableRegion manifest offsetField bytesField label = .ok r) :
    r.2 ≤ manifest.length := by
  obtain ⟨offset, -, hr⟩ := bind_eq_ok.mp hr
  obtain ⟨length, -, hr⟩ := bind_eq_ok.mp hr
  obtain ⟨-, -, hr⟩ := bind_eq_ok.mp hr
  obtain ⟨stop, -, hr⟩ := bind_eq_ok.mp hr
  obtain ⟨_, hst, hr⟩ := bind_eq_ok.mp hr
  rw [← Except.ok.inj hr]
  exact not_lt.mp (refuse_eq_ok.mp hst)

/-! ## Shards -/

/-- **A shard that is verified can be opened**, and its size is that of its file. -/
theorem openShard_of_verifyShard {shardId size : ℕ}
    (hver : verifyShard crc32c d manifest h shardId = .ok size) :
    ∃ file, openShard d manifest h shardId = .ok file ∧ file.length = size := by
  obtain ⟨id, hid, hver⟩ := bind_eq_ok.mp hver
  obtain ⟨_, hsam, hver⟩ := bind_eq_ok.mp hver
  obtain ⟨nameId, hnam, hver⟩ := bind_eq_ok.mp hver
  obtain ⟨_, hval, hver⟩ := bind_eq_ok.mp hver
  obtain ⟨bytes, hbytes, hver⟩ := bind_eq_ok.mp hver
  obtain ⟨_, -, hver⟩ := bind_eq_ok.mp hver
  obtain ⟨file, hfil, hver⟩ := bind_eq_ok.mp hver
  obtain ⟨_, hlen, hver⟩ := bind_eq_ok.mp hver
  obtain ⟨_, -, hver⟩ := bind_eq_ok.mp hver
  obtain ⟨_, -, hver⟩ := bind_eq_ok.mp hver
  refine ⟨file, bind_eq_ok.mpr ⟨id, hid, bind_eq_ok.mpr ⟨(), hsam, bind_eq_ok.mpr ⟨nameId, hnam,
    bind_eq_ok.mpr ⟨(), hval, bind_eq_ok.mpr ⟨bytes, hbytes, bind_eq_ok.mpr ⟨file, hfil,
    bind_eq_ok.mpr ⟨(), hlen, rfl⟩⟩⟩⟩⟩⟩⟩, ?_⟩
  rw [← Except.ok.inj hver]
  exact not_not.mp (refuse_eq_ok.mp hlen)

theorem exists_shardFiles {shards : List ℕ} {sizes : List ℕ}
    (hver : shards.mapM (verifyShard crc32c d manifest h) = .ok sizes) :
    ∃ files, shards.mapM (openShard d manifest h) = .ok files ∧ files.map List.length = sizes := by
  induction shards generalizing sizes with
  | nil =>
    rw [← Except.ok.inj (hver : Except.ok [] = Except.ok sizes)]
    exact ⟨[], rfl, rfl⟩
  | cons shardId shards ih =>
    obtain ⟨size, sizes', hsiz, hres, rfl⟩ :=
      List.forall₂_cons_left_iff.mp (mapM_eq_ok.mp hver)
    obtain ⟨file, hfil, hlen⟩ := openShard_of_verifyShard hsiz
    obtain ⟨files, hfls, hlens⟩ := ih (mapM_eq_ok.mpr hres)
    refine ⟨file :: files, mapM_eq_ok.mpr (List.Forall₂.cons hfil (mapM_eq_ok.mp hfls)), ?_⟩
    rw [map_cons, hlen, hlens]

/-! ## Records -/

/-- The name of record `index`, as the record table and the string table have it. -/
def nameAt (manifest : List UInt8) (h : ManifestHeader) (index : ℕ) : Option String :=
  (u32At? manifest (h.recordTable.1 + index * 96 + 24)).bind fun nameId =>
    if nameId.toNat = u32Max then none
    else (stringAt manifest h.stringTable h.strings nameId.toNat).toOption

/-- **The names of the records** of a package. -/
def recordNames (crc32c : List UInt8 → UInt32) (d : Directory) : List String :=
  match d.manifest with
  | none => []
  | some manifest =>
    match readHeader crc32c manifest with
    | .error _ => []
    | .ok h => (List.range h.records).filterMap (nameAt manifest h)

/-- **A record is as its descriptor says**: it has its identifier, its range and its name. -/
structure Describes (manifest : List UInt8) (h : ManifestHeader) (index : ℕ) (info : RecordInfo) :
    Prop where
  id : u64At manifest (h.recordTable.1 + index * 96) = .ok info.id
  shardId : u32At manifest (h.recordTable.1 + index * 96 + 20) = .ok info.shardId
  offset : u64At manifest (h.recordTable.1 + index * 96 + 40) = .ok info.offset
  stored : u64At manifest (h.recordTable.1 + index * 96 + 48) = .ok info.stored
  name : nameAt manifest h index = info.name

/-- What is opened is described. -/
theorem describes_of_openRecord {index : ℕ} {info : RecordInfo}
    (hop : openRecord manifest h index = .ok info) : Describes manifest h index info := by
  obtain ⟨id, hid, hop⟩ := bind_eq_ok.mp hop
  obtain ⟨_, -, hop⟩ := bind_eq_ok.mp hop
  obtain ⟨_, -, hop⟩ := bind_eq_ok.mp hop
  obtain ⟨_, -, hop⟩ := bind_eq_ok.mp hop
  obtain ⟨_, -, hop⟩ := bind_eq_ok.mp hop
  obtain ⟨nameId, hnam, hop⟩ := bind_eq_ok.mp hop
  obtain ⟨name, hnm, hop⟩ := bind_eq_ok.mp hop
  obtain ⟨_, -, hop⟩ := bind_eq_ok.mp hop
  obtain ⟨_, -, hop⟩ := bind_eq_ok.mp hop
  obtain ⟨_, -, hop⟩ := bind_eq_ok.mp hop
  obtain ⟨shardId, hsh, hop⟩ := bind_eq_ok.mp hop
  obtain ⟨_, -, hop⟩ := bind_eq_ok.mp hop
  obtain ⟨_, -, hop⟩ := bind_eq_ok.mp hop
  obtain ⟨offset, hoff, hop⟩ := bind_eq_ok.mp hop
  obtain ⟨stored, hst, hop⟩ := bind_eq_ok.mp hop
  obtain ⟨_, -, hop⟩ := bind_eq_ok.mp hop
  obtain ⟨_, -, hop⟩ := bind_eq_ok.mp hop
  obtain ⟨_, -, hop⟩ := bind_eq_ok.mp hop
  cases hop
  refine ⟨hid, hsh, hoff, hst, ?_⟩
  rw [nameAt, okOr_eq_ok.mp hnam, Option.bind_some]
  unfold openName at hnm
  split_ifs at hnm ⊢ with hnon
  · exact Except.ok.inj hnm
  · obtain ⟨_, -, hnm⟩ := bind_eq_ok.mp hnm
    obtain ⟨s, hs, rfl⟩ := map_eq_ok hnm
    rw [hs]
    rfl

/-- A name that is verified can be read. -/
theorem exists_openName {nameId : UInt32} {u : Unit} (hbnd : h.stringTable.2 ≤ manifest.length)
    (hver : verifyName manifest h nameId = .ok u) :
    ∃ name, openName manifest h nameId = .ok name := by
  by_cases hnon : nameId.toNat = u32Max
  · exact ⟨none, if_pos hnon⟩
  · rw [verifyName, if_pos hnon] at hver
    obtain ⟨s, hs⟩ := exists_stringAt hbnd hver
    rw [openName, if_neg hnon]
    exact ⟨some s, bind_eq_ok.mpr ⟨_, hver, by rw [hs]; rfl⟩⟩

/-- **A record that is verified can be opened** and placed, and its identifier is new. -/
theorem openRecord_of_verifyRecord {sizes : List ℕ} {soFar next : List UInt64 × ℕ} {index : ℕ}
    (hbnd : h.stringTable.2 ≤ manifest.length)
    (hver : verifyRecord crc32c d manifest h sizes soFar index = .ok next) :
    ∃ info, openRecord manifest h index = .ok info ∧ info.Placed h.alignment sizes ∧
      info.id ∉ soFar.1 ∧ next.1 = info.id :: soFar.1 := by
  obtain ⟨id, hid, hver⟩ := bind_eq_ok.mp hver
  obtain ⟨kind, hkin, hver⟩ := bind_eq_ok.mp hver
  obtain ⟨codec, hcod, hver⟩ := bind_eq_ok.mp hver
  obtain ⟨layout, hlay, hver⟩ := bind_eq_ok.mp hver
  obtain ⟨_, hreg, hver⟩ := bind_eq_ok.mp hver
  obtain ⟨flags, hfl, hver⟩ := bind_eq_ok.mp hver
  obtain ⟨shardId, hsh, hver⟩ := bind_eq_ok.mp hver
  obtain ⟨layer, hlyr, hver⟩ := bind_eq_ok.mp hver
  obtain ⟨expert, hexp, hver⟩ := bind_eq_ok.mp hver
  obtain ⟨offset, hoff, hver⟩ := bind_eq_ok.mp hver
  obtain ⟨stored, hst, hver⟩ := bind_eq_ok.mp hver
  obtain ⟨decoded, hdec, hver⟩ := bind_eq_ok.mp hver
  obtain ⟨storedCrc, hstr, hver⟩ := bind_eq_ok.mp hver
  obtain ⟨logicalCrc, hlog, hver⟩ := bind_eq_ok.mp hver
  obtain ⟨nameId, hnam, hver⟩ := bind_eq_ok.mp hver
  obtain ⟨_, hids, hver⟩ := bind_eq_ok.mp hver
  obtain ⟨_, hnm, hver⟩ := bind_eq_ok.mp hver
  obtain ⟨_, hrng, hver⟩ := bind_eq_ok.mp hver
  obtain ⟨_, -, hver⟩ := bind_eq_ok.mp hver
  obtain ⟨_, -, hver⟩ := bind_eq_ok.mp hver
  obtain ⟨_, -, hver⟩ := bind_eq_ok.mp hver
  obtain ⟨_, -, hver⟩ := bind_eq_ok.mp hver
  cases hver
  simp only [refuse_eq_ok, not_or, not_le] at hids
  -- the formats, which the verifier does not read, are between fields that it reads
  have hend := le_of_u32At hlog
  obtain ⟨mathFormat, hmat⟩ := exists_u16At
    (show h.recordTable.1 + index * 96 + 12 + 2 ≤ manifest.length by omega)
  obtain ⟨scaleFormat, hsc⟩ := exists_u16At
    (show h.recordTable.1 + index * 96 + 14 + 2 ≤ manifest.length by omega)
  obtain ⟨name, hop⟩ := exists_openName hbnd hnm
  refine ⟨⟨id, kind, codec, mathFormat, scaleFormat, layout, flags, shardId, name, layer, expert,
    offset, stored, decoded, storedCrc, logicalCrc⟩, ?_, ⟨hids.1, hids.2.2, hrng⟩, hids.2.1, rfl⟩
  exact bind_eq_ok.mpr ⟨id, hid, bind_eq_ok.mpr ⟨kind, hkin, bind_eq_ok.mpr ⟨codec, hcod,
    bind_eq_ok.mpr ⟨layout, hlay, bind_eq_ok.mpr ⟨(), hreg,
    bind_eq_ok.mpr ⟨nameId, hnam, bind_eq_ok.mpr ⟨name, hop,
    bind_eq_ok.mpr ⟨_, hmat, bind_eq_ok.mpr ⟨_, hsc,
    bind_eq_ok.mpr ⟨flags, hfl, bind_eq_ok.mpr ⟨shardId, hsh,
    bind_eq_ok.mpr ⟨layer, hlyr, bind_eq_ok.mpr ⟨expert, hexp,
    bind_eq_ok.mpr ⟨offset, hoff, bind_eq_ok.mpr ⟨stored, hst,
    bind_eq_ok.mpr ⟨decoded, hdec, bind_eq_ok.mpr ⟨storedCrc, hstr,
    bind_eq_ok.mpr ⟨logicalCrc, hlog, rfl⟩⟩⟩⟩⟩⟩⟩⟩⟩⟩⟩⟩⟩⟩⟩⟩⟩⟩

/-- **All records can be opened** and placed, and their identifiers are different. -/
theorem exists_records {sizes : List ℕ} {indices : List ℕ} {soFar next : List UInt64 × ℕ}
    (hbnd : h.stringTable.2 ≤ manifest.length)
    (hver : indices.foldlM (verifyRecord crc32c d manifest h sizes) soFar = .ok next)
    (hnd : soFar.1.Nodup) : ∃ infos, indices.mapM (openRecord manifest h) = .ok infos ∧
      (∀ info ∈ infos, info.Placed h.alignment sizes) ∧
      ((infos.map RecordInfo.id).reverse ++ soFar.1).Nodup := by
  induction indices generalizing soFar with
  | nil => exact ⟨[], rfl, fun _ hno => absurd hno not_mem_nil, hnd⟩
  | cons index indices ih =>
    rw [foldlM_cons, bind_eq_ok] at hver
    obtain ⟨soFar', hone, hres⟩ := hver
    obtain ⟨info, hinf, hpl, hnew, hids⟩ := openRecord_of_verifyRecord hbnd hone
    obtain ⟨infos, hinfos, hall, hdis⟩ := ih hres (by
      rw [hids]
      exact nodup_cons.mpr ⟨hnew, hnd⟩)
    refine ⟨info :: infos, mapM_eq_ok.mpr (List.Forall₂.cons hinf (mapM_eq_ok.mp hinfos)),
      forall_mem_cons.mpr ⟨hpl, hall⟩, ?_⟩
    rwa [map_cons, reverse_cons, append_assoc, singleton_append, ← hids]

/-! ## Packages -/

/-- **The package has the records that were verified**: as many of them, in as many shards,
and each as its descriptor says. -/
structure Exposes (crc32c : List UInt8 → UInt32) (summary : VerificationSummary) (p : Package) :
    Prop where
  shards : p.shardFiles.length = summary.shards
  records : p.records.length = summary.records
  described : ∃ h, readHeader crc32c p.manifest = .ok h ∧
    ∀ i (hi : i < p.records.length), Describes p.manifest h i p.records[i]

/-- The names of a package are those of the records that are read from its manifest. -/
theorem recordNames_eq {infos : List RecordInfo} (hman : d.manifest = some manifest)
    (hhdr : readHeader crc32c manifest = .ok h)
    (hinf : (List.range h.records).mapM (openRecord manifest h) = .ok infos) :
    recordNames crc32c d = infos.filterMap RecordInfo.name := by
  obtain ⟨hlen, hall⟩ := mapM_range_eq_ok.mp hinf
  have hnam : (List.range h.records).map (nameAt manifest h) = infos.map RecordInfo.name := by
    refine ext_getElem (by simp [hlen]) fun i _ hi => ?_
    rw [getElem_map, getElem_map, getElem_range]
    exact (describes_of_openRecord (hall i (by simpa using hi))).name
  have hid := congrArg (List.filterMap id) hnam
  rw [filterMap_map, filterMap_map] at hid
  unfold recordNames
  rw [hman]
  dsimp only
  rwa [hhdr]

/-- **A package that is verified is opened**, with the records that were verified, if
and only if no two of its records have the same name. -/
theorem openPackage_iff_of_verify {summary : VerificationSummary}
    (hverify : verifyPackage crc32c d = .ok summary) :
    (∃ p, openPackage crc32c d = .ok p ∧ Exposes crc32c summary p)
      ↔ (recordNames crc32c d).Nodup := by
  constructor
  · rintro ⟨p, hop, -⟩
    obtain ⟨h, ho⟩ := openPackage_eq_ok.mp hop
    rw [recordNames_eq ho.manifest ho.header ho.records]
    exact ho.distinct.names
  · intro hnam
    obtain ⟨manifest, hman, hverify⟩ := bind_eq_ok.mp hverify
    obtain ⟨h, hhdr, hverify⟩ := bind_eq_ok.mp hverify
    obtain ⟨profileId, hpr, hverify⟩ := bind_eq_ok.mp hverify
    obtain ⟨compilerId, hcom, hverify⟩ := bind_eq_ok.mp hverify
    obtain ⟨_, hprf, hverify⟩ := bind_eq_ok.mp hverify
    obtain ⟨_, hcmp, hverify⟩ := bind_eq_ok.mp hverify
    obtain ⟨_, hfl, hverify⟩ := bind_eq_ok.mp hverify
    obtain ⟨sizes, hsiz, hverify⟩ := bind_eq_ok.mp hverify
    obtain ⟨next, hrec, hverify⟩ := bind_eq_ok.mp hverify
    cases hverify
    have hbnd := le_of_variableRegion (readHeader_eq_ok.mp hhdr).stringTable
    obtain ⟨profile, hpro⟩ := exists_stringAt hbnd hprf
    obtain ⟨compiler, hcomp⟩ := exists_stringAt hbnd hcmp
    obtain ⟨files, hfil, rfl⟩ := exists_shardFiles hsiz
    obtain ⟨infos, hinf, hpl, hids⟩ := exists_records hbnd hrec nodup_nil
    rw [List.append_nil, nodup_reverse] at hids
    rw [recordNames_eq (okOr_eq_ok.mp hman) hhdr hinf] at hnam
    have ho : Opens crc32c d ⟨manifest, h.alignment, profile, compiler, fingerprintOf manifest,
        RecordIndex.ofRecords infos, files⟩ h :=
      ⟨okOr_eq_ok.mp hman, hhdr, rfl, ⟨profileId, hpr, hpro⟩,
        ⟨compilerId, hcom, hcomp⟩, hfl, rfl, hfil, hinf, hpl,
        ⟨hids, hnam⟩, rfl⟩
    exact ⟨_, openPackage_eq_ok.mpr ⟨h, ho⟩, ho.length_shardFiles, ho.length_records, h, hhdr,
      fun i hi => describes_of_openRecord ((mapM_range_eq_ok.mp hinf).2 i hi)⟩

/-! ## A package that is verified but not opened -/

/-- The file of an empty shard. -/
def emptyShard : List UInt8 :=
  let header := puts (List.replicate 128 0)
    [(0, dataMagic), (8, u16Bytes 1), (12, u32Bytes 128), (24, u32Bytes 4096), (32, u64Bytes 128)]
  put header 72 (u32Bytes (Logan.crc32c header))

/-- A manifest with one shard and two records, both of which are empty. The first one is named
`a`, which is the only string, and the second one has the name of this number. -/
def twinManifest (name : UInt32) : List UInt8 :=
  let manifest := puts (List.replicate 529 0)
    [(0, manifestMagic), (8, u16Bytes 1), (12, u32Bytes 256), (24, u32Bytes 4096),
     (28, u32Bytes 1), (32, u64Bytes 2), (40, u32Bytes 1), (48, u64Bytes 256),
     (56, u64Bytes 64), (64, u64Bytes 320), (72, u64Bytes 192), (80, u64Bytes 512),
     (88, u64Bytes 17),
     -- the shard
     (272, u64Bytes 128), (280, slice emptyShard 72 4),
     -- the records
     (320, u64Bytes 1), (416, u64Bytes 2), (440, u32Bytes name),
     -- the string
     (512, u64Bytes 16), (520, u32Bytes 1), (528, utf8 "a")]
  put manifest 144 (u32Bytes (Logan.crc32c manifest))

/-- A package with these records. -/
def twins (name : UInt32) : Directory :=
  ⟨some (twinManifest name), fun id => if id = 0 then some emptyShard else none⟩

set_option maxRecDepth 10000 in
theorem verifyPackage_twins {name : UInt32} (h : name = 0 ∨ name = 0xffffffff) :
    verifyPackage Logan.crc32c (twins name) = .ok ⟨1, 2⟩ := by
  rcases h with rfl | rfl <;> decide +kernel

set_option maxRecDepth 10000 in
theorem recordNames_twins : recordNames Logan.crc32c (twins 0) = ["a", "a"] ∧
    recordNames Logan.crc32c (twins 0xffffffff) = ["a"] := by decide +kernel

/-- If the second record has no name, the package is opened. -/
theorem openPackage_twins : ∃ p, openPackage Logan.crc32c (twins 0xffffffff) = .ok p ∧
    Exposes Logan.crc32c ⟨1, 2⟩ p := by
  refine (openPackage_iff_of_verify (verifyPackage_twins (Or.inr rfl))).mpr ?_
  rw [recordNames_twins.2]
  exact nodup_singleton _

/-- **The package is verified, but it is not opened.** -/
theorem verifyPackage_twins_not_open : verifyPackage Logan.crc32c (twins 0) = .ok ⟨1, 2⟩ ∧
      ¬∃ p, openPackage Logan.crc32c (twins 0) = .ok p := by
  refine ⟨verifyPackage_twins (Or.inl rfl), ?_⟩
  rintro ⟨p, hop⟩
  obtain ⟨h, ho⟩ := openPackage_eq_ok.mp hop
  have hnam := ho.distinct.names
  rw [← recordNames_eq ho.manifest ho.header ho.records, recordNames_twins.1] at hnam
  exact (nodup_cons.mp hnam).1 (mem_singleton_self _)

/-! ## A byte that has changed -/

/-- **A checksum notices a changed byte**, be it one of its own. -/
theorem set_eq_of_crc {m : List UInt8} {i k : ℕ} {b : UInt8} (hlen : k + 4 ≤ m.length)
    (h : u32At m k = .ok (Logan.crc32c (put m k [0, 0, 0, 0])))
    (h' : u32At (m.set i b) k = .ok (Logan.crc32c (put (m.set i b) k [0, 0, 0, 0]))) :
    m.set i b = m := by
  by_contra hne
  have hi : i < m.length := not_le.mp fun hge => hne (set_eq_of_length_le hge)
  have hlen' : k + 4 ≤ (m.set i b).length := by rwa [length_set]
  have hall : ∀ j ≠ i, (m.set i b)[j]? = m[j]? := fun j hj => getElem?_set_ne hj.symm
  have hput (j : ℕ) (hj : ¬ (k ≤ j ∧ j < k + 4) → (m.set i b)[j]? = m[j]?) :
      (put (m.set i b) k [0, 0, 0, 0])[j]? = (put m k [0, 0, 0, 0])[j]? := by
    rw [getElem?_put hlen', getElem?_put hlen]
    split_ifs with hin
    · rfl
    · exact hj hin
  have hsl := slice_of_u32At? (okOr_eq_ok.mp h)
  by_cases hin : k ≤ i ∧ i < k + 4
  · -- it is the checksum of the same, but another one
    rw [ext_getElem? fun j => hput j fun hj => hall j fun hji => hj (hji ▸ hin)] at h'
    have hget := congrArg (·[i - k]?) ((slice_of_u32At? (okOr_eq_ok.mp h')).trans hsl.symm)
    rw [getElem?_slice (by omega), getElem?_slice (by omega), Nat.add_sub_cancel' hin.1] at hget
    refine hne (ext_getElem? fun j => ?_)
    by_cases hj : j = i
    · rw [hj, hget]
    · exact hall j hj
  · -- it is the checksum of something else
    have hfld : slice (m.set i b) k 4 = slice m k 4 := by
      refine ext_getElem? fun j => ?_
      rw [slice, slice, List.getElem?_take, List.getElem?_take, List.getElem?_drop,
        List.getElem?_drop]
      split_ifs with hj
      · exact hall _ (by omega)
      · rfl
    have hcrc := (okOr_eq_ok.mp h').symm.trans (u32At?_of_slice (hfld.trans hsl))
    have hz {a : List UInt8} (ha : k + 4 ≤ a.length) : (put a k [0, 0, 0, 0])[i]? = a[i]? :=
      (getElem?_put ha).trans (if_neg hin)
    obtain ⟨l, r, hl, hr⟩ := exists_split (fun j hj => hput j fun _ => hall j hj)
      ((hz hlen').trans (getElem?_set_self hi)) ((hz hlen).trans (List.getElem?_eq_getElem hi))
    rw [hl, hr] at hcrc
    refine crc32c_ne (fun hb => hne ?_) l r (Option.some.inj hcrc)
    rw [hb, set_getElem_self]

/-- The package is opened, or it passes the verifier. -/
def Accepted (crc32c : List UInt8 → UInt32) (d : Directory) : Prop :=
  (∃ p, openPackage crc32c d = .ok p) ∨ ∃ s, verifyPackage crc32c d = .ok s

theorem Accepted.isHeader (h : Accepted crc32c d) (hman : d.manifest = some manifest) :
    ∃ hdr, IsHeader crc32c manifest hdr := by
  rcases h with ⟨_, hacc⟩ | ⟨_, hacc⟩
  all_goals
    obtain ⟨_, hm, hacc⟩ := bind_eq_ok.mp hacc
    obtain ⟨hdr, hhdr, -⟩ := bind_eq_ok.mp hacc
    cases hman.symm.trans (okOr_eq_ok.mp hm)
    exact ⟨hdr, readHeader_eq_ok.mp hhdr⟩

/-- **Of two manifests that differ in one byte, at most one is accepted**, by the reader or the
verifier, whatever the shards are, if the checksum is CRC-32C. -/
theorem not_accepted_set {d' : Directory} {i : ℕ} {b : UInt8}
    (hcrc : ∀ bytes, crc32c bytes = Logan.crc32c bytes) (hacc : Accepted crc32c d)
    (hman : d.manifest = some manifest) (hman' : d'.manifest = some (manifest.set i b))
    (hne : manifest.set i b ≠ manifest) : ¬ Accepted crc32c d' := by
  intro hacc'
  obtain rfl : crc32c = Logan.crc32c := funext hcrc
  obtain ⟨_, hhdr⟩ := hacc.isHeader hman
  obtain ⟨_, hhdr'⟩ := hacc'.isHeader hman'
  exact hne (set_eq_of_crc (le_of_u32At hhdr.crc) hhdr.crc hhdr'.crc)

/-- The flags of the verified package cannot be changed. -/
theorem not_accepted_set_twins :
    ¬ Accepted Logan.crc32c ⟨some ((twinManifest 0).set 16 1), (twins 0).shard⟩ := by
  have hne : (twinManifest 0).set 16 1 ≠ twinManifest 0 := fun heq => by
    have hflag := congrArg (fun manifest => manifest[16]?) heq
    revert hflag
    decide +kernel
  exact not_accepted_set (fun _ => rfl) (d := twins 0)
    (Or.inr ⟨_, verifyPackage_twins (Or.inl rfl)⟩) rfl rfl hne

end Format

end Logan
