import Logan.Format.Package

/-!
# Opened packages

What an opened package has is said in terms of its manifest, without the loops
of `openPackage`: the records are what is read from the descriptors, no two of
them have an identifier or a name in common, and a lookup finds the one record
that has what is looked for.
-/

namespace Logan

open List

namespace Format

open Result

variable {crc32c : List UInt8 → UInt32} {manifest : List UInt8} {h : ManifestHeader}

/-! ## The header -/

/-- A field of four bytes that is read as a number. -/
def U32Is (bytes : List UInt8) (offset n : ℕ) : Prop :=
  ∃ a, u32At bytes offset = .ok a ∧ a.toNat = n

/-- A field of eight bytes that is read as a number. -/
def U64Is (bytes : List UInt8) (offset n : ℕ) : Prop :=
  ∃ a, u64At bytes offset = .ok a ∧ a.toNat = n

/-- **The header of a manifest** that passes all checks. -/
structure IsHeader (crc32c : List UInt8 → UInt32) (manifest : List UInt8) (h : ManifestHeader) :
    Prop where
  length : manifestHeaderBytes ≤ manifest.length
  magic : slice manifest 0 8 = manifestMagic
  version : u16At manifest 8 = .ok 1 ∧ u16At manifest 10 = .ok 0
  headerBytes : U32Is manifest 12 manifestHeaderBytes
  flags : u32At manifest 16 = .ok h.flags ∧ h.flags &&& 0xffff0000 = 0
  crc : u32At manifest 144 = .ok (crc32c (put manifest 144 [0, 0, 0, 0]))
  alignment : U32Is manifest 24 h.alignment
  alignment_le : isPowerOfTwo h.alignment ∧ 4096 ≤ h.alignment ∧ h.alignment ≤ 1024 * 1024
  counts : U64Is manifest 32 h.records ∧ U32Is manifest 40 h.shards ∧ U32Is manifest 28 h.strings
  shardTable : region manifest 48 56 (h.shards * 64) "shard table" = .ok h.shardTable
  recordBytes : h.records * 96 ≤ usizeMax
  recordTable : region manifest 64 72 (h.records * 96) "record table" = .ok h.recordTable
  stringTable : variableRegion manifest 80 88 "string table" = .ok h.stringTable
  descriptors : h.strings * 16 ≤ usizeMax ∧ h.strings * 16 ≤ h.stringTable.2 - h.stringTable.1

/-- **What `readHeader` accepts.** -/
theorem readHeader_eq_ok : readHeader crc32c manifest = .ok h ↔ IsHeader crc32c manifest h := by
  constructor
  · intro hrd
    obtain ⟨_, hmag, hrd⟩ := bind_eq_ok.mp hrd
    obtain ⟨major, hmaj, hrd⟩ := bind_eq_ok.mp hrd
    obtain ⟨minor, hmin, hrd⟩ := bind_eq_ok.mp hrd
    obtain ⟨bytes, hbytes, hrd⟩ := bind_eq_ok.mp hrd
    obtain ⟨_, hver, hrd⟩ := bind_eq_ok.mp hrd
    obtain ⟨flags, hfl, hrd⟩ := bind_eq_ok.mp hrd
    obtain ⟨_, hkn, hrd⟩ := bind_eq_ok.mp hrd
    obtain ⟨crc, hcrc, hrd⟩ := bind_eq_ok.mp hrd
    obtain ⟨_, hcrcs, hrd⟩ := bind_eq_ok.mp hrd
    obtain ⟨alignment, hal, hrd⟩ := bind_eq_ok.mp hrd
    obtain ⟨_, hlim, hrd⟩ := bind_eq_ok.mp hrd
    obtain ⟨records, hrec, hrd⟩ := bind_eq_ok.mp hrd
    obtain ⟨shards, hsh, hrd⟩ := bind_eq_ok.mp hrd
    obtain ⟨strings, hstr, hrd⟩ := bind_eq_ok.mp hrd
    obtain ⟨shardTable, hshr, hrd⟩ := bind_eq_ok.mp hrd
    obtain ⟨recordBytes, hrcr, hrd⟩ := bind_eq_ok.mp hrd
    obtain ⟨recordTable, hrecor, hrd⟩ := bind_eq_ok.mp hrd
    obtain ⟨stringTable, hstrin, hrd⟩ := bind_eq_ok.mp hrd
    obtain ⟨descBytes, hdes, hrd⟩ := bind_eq_ok.mp hrd
    obtain ⟨_, hdsc, hrd⟩ := bind_eq_ok.mp hrd
    cases hrd
    rw [refuse_eq_ok] at hmag hver hkn hcrcs hlim hdsc
    rw [okOr_eq_ok, checkedProduct_eq_some] at hrcr hdes
    obtain ⟨rfl, hrcr⟩ := hrcr
    obtain ⟨rfl, hdes⟩ := hdes
    simp only [not_or, not_lt, not_not, ne_eq, Bool.not_eq_true'] at hmag hver hlim
    obtain ⟨rfl, rfl, hbyt⟩ := hver
    exact {
      length := hmag.1, magic := hmag.2, version := ⟨hmaj, hmin⟩
      headerBytes := ⟨bytes, hbytes, hbyt⟩
      flags := ⟨hfl, not_not.mp hkn⟩
      crc := by rw [hcrc, not_not.mp hcrcs]
      alignment := ⟨alignment, hal, rfl⟩
      alignment_le := ⟨by simpa using hlim.1, hlim.2⟩
      counts := ⟨⟨records, hrec, rfl⟩, ⟨shards, hsh, rfl⟩, strings, hstr, rfl⟩
      shardTable := hshr, recordBytes := hrcr, recordTable := hrecor
      stringTable := hstrin, descriptors := ⟨hdes, not_lt.mp hdsc⟩ }
  · intro hh
    obtain ⟨bytes, hbytes, hbyt⟩ := hh.headerBytes
    obtain ⟨alignment, hal, hali⟩ := hh.alignment
    obtain ⟨⟨records, hrec, hrecord⟩, ⟨shards, hsh, hsha⟩, strings, hstr, hstring⟩ := hh.counts
    have hlim := hh.alignment_le
    have hshr := hh.shardTable
    have hrcr := hh.recordBytes
    have hrecor := hh.recordTable
    have hdsc := hh.descriptors
    rw [← hali] at hlim
    rw [← hsha] at hshr
    rw [← hrecord] at hrcr hrecor
    rw [← hstring] at hdsc
    refine bind_eq_ok.mpr ⟨(), refuse_of_not ?_, bind_eq_ok.mpr ⟨1, hh.version.1,
      bind_eq_ok.mpr ⟨0, hh.version.2, bind_eq_ok.mpr ⟨bytes, hbytes,
      bind_eq_ok.mpr ⟨(), refuse_of_not ?_, bind_eq_ok.mpr ⟨h.flags, hh.flags.1,
      bind_eq_ok.mpr ⟨(), refuse_of_not (not_not.mpr hh.flags.2), bind_eq_ok.mpr ⟨_, hh.crc,
      bind_eq_ok.mpr ⟨(), refuse_of_not (not_not.mpr rfl), bind_eq_ok.mpr ⟨alignment, hal,
      bind_eq_ok.mpr ⟨(), refuse_of_not ?_, bind_eq_ok.mpr ⟨records, hrec,
      bind_eq_ok.mpr ⟨shards, hsh, bind_eq_ok.mpr ⟨strings, hstr,
      bind_eq_ok.mpr ⟨_, hshr, bind_eq_ok.mpr ⟨_, okOr_eq_ok.mpr (checkedProduct_of_le hrcr),
      bind_eq_ok.mpr ⟨_, hrecor, bind_eq_ok.mpr ⟨_, hh.stringTable,
      bind_eq_ok.mpr ⟨_, okOr_eq_ok.mpr (checkedProduct_of_le hdsc.1),
      bind_eq_ok.mpr ⟨(), refuse_of_not (not_lt.mpr hdsc.2), ?_⟩⟩⟩⟩⟩⟩⟩⟩⟩⟩⟩⟩⟩⟩⟩⟩⟩⟩⟩⟩
    · rintro (hno | hno)
      · exact absurd hh.length (not_le.mpr hno)
      · exact hno hh.magic
    · rintro (hno | hno | hno)
      · exact hno rfl
      · exact hno rfl
      · exact hno hbyt
    · rintro (hno | hno)
      · simp [hlim.1] at hno
      · exact hno hlim.2
    · rw [pure_eq, hali, hrecord, hsha, hstring]

/-! ## Ranges and names -/

/-- `checkRange` accepts the ranges that start at a multiple of the alignment and
end inside their shard. -/
theorem checkRange_eq_ok {alignment size offset stored : ℕ} {u : Unit} :
    checkRange alignment size offset stored = .ok u
      ↔ offset % alignment = 0 ∧ offset + stored ≤ usizeMax ∧ offset + stored ≤ size := by
  rw [checkRange, refuse_eq_ok, not_or, not_ne_iff]
  refine and_congr_right fun _ => ?_
  by_cases h : offset + stored ≤ usizeMax
  · rw [checkedSum_of_le h, Option.all_some, decide_eq_true_iff, not_lt, and_iff_right h]
  · rw [checkedSum, if_neg h]
    exact iff_of_false (fun hno => hno rfl) fun hle => h hle.1

/-- **A record that can be indexed**, as far as this does not depend on the others. -/
structure RecordInfo.Placed (info : RecordInfo) (alignment : ℕ) (sizes : List ℕ) : Prop where
  id_ne_zero : info.id ≠ 0
  shard_lt : info.shardId.toNat < sizes.length
  range : checkRange alignment (sizes.getD info.shardId.toNat 0) info.offset.toNat
    info.stored.toNat = .ok ()

/-- **No two records** have an identifier or a name in common. -/
structure Distinct (l : List RecordInfo) : Prop where
  ids : (l.map RecordInfo.id).Nodup
  names : (l.filterMap RecordInfo.name).Nodup

variable {l : List RecordInfo}

theorem Distinct.sublist {l' : List RecordInfo} (h : Distinct l) (hs : l'.Sublist l) :
    Distinct l' :=
  ⟨h.ids.sublist (hs.map _), h.names.sublist (hs.filterMap _)⟩

theorem distinct_append_singleton {info : RecordInfo} (h : Distinct l) :
    Distinct (l ++ [info])
      ↔ info.id ∉ l.map RecordInfo.id ∧ ∀ name ∈ info.name, name ∉ l.filterMap RecordInfo.name := by
  have hids : ((l ++ [info]).map RecordInfo.id).Nodup ↔ info.id ∉ l.map RecordInfo.id := by
    rw [List.map_append, map_singleton, ← concat_eq_append, nodup_concat]
    exact and_iff_left h.ids
  have hnam : ((l ++ [info]).filterMap RecordInfo.name).Nodup
      ↔ ∀ name ∈ info.name, name ∉ l.filterMap RecordInfo.name := by
    rw [filterMap_append]
    cases hnm : info.name with
    | none =>
      rw [filterMap_cons_none hnm, filterMap_nil, List.append_nil]
      exact iff_of_true h.names (by rintro _ ⟨⟩)
    | some name =>
      rw [filterMap_cons_some hnm, filterMap_nil, ← concat_eq_append,
        nodup_concat, and_iff_left h.names]
      exact ⟨fun hno _ hsom => Option.some.inj hsom ▸ hno, fun hall => hall name rfl⟩
  exact ⟨fun hd => ⟨hids.mp hd.ids, hnam.mp hd.names⟩, fun hd => ⟨hids.mpr hd.1, hnam.mpr hd.2⟩⟩

/-! ## The index -/

namespace RecordIndex

/-- **The index of some records.** -/
def ofRecords (l : List RecordInfo) : RecordIndex where
  records := l
  byId id := l.findIdx? fun info => info.id = id
  byName name := l.findIdx? fun info => info.name = some name
  byExpert key :=
    (l.zipIdx.filter fun x => x.1.kind = 2 ∧ (x.1.layer, x.1.expert) = key).map Prod.snd

theorem byId_isSome {id : UInt64} :
    ((ofRecords l).byId id).isSome ↔ id ∈ l.map RecordInfo.id := by
  rw [ofRecords, List.findIdx?_isSome, any_eq_true, mem_map]
  simp only [decide_eq_true_eq]

theorem byName_isSome {name : String} :
    ((ofRecords l).byName name).isSome ↔ name ∈ l.filterMap RecordInfo.name := by
  rw [ofRecords, List.findIdx?_isSome, any_eq_true, mem_filterMap]
  simp only [decide_eq_true_eq]

/-- A lookup among some records and one more, of which it was not found before. -/
theorem findIdx?_concat {info : RecordInfo} {p : RecordInfo → Bool}
    (hnot : p info = true → l.findIdx? p = none) :
    (l ++ [info]).findIdx? p = if p info then some l.length else l.findIdx? p := by
  rw [List.findIdx?_append, List.findIdx?_singleton]
  cases hp : p info with
  | true => simp [hnot hp]
  | false => simp

/-- **The index of one more record**, which has nothing in common with the others. -/
theorem push_ofRecords {info : RecordInfo} (h : Distinct (l ++ [info])) :
    (ofRecords l).push info = ofRecords (l ++ [info]) := by
  obtain ⟨hid, hnam⟩ :=
    (distinct_append_singleton (h.sublist (sublist_append_left _ _))).mp h
  rw [push, ofRecords, ofRecords]
  congr 1
  · funext id
    rw [findIdx?_concat fun hp => ?_, Function.update_apply]
    · by_cases heq : id = info.id
      · rw [if_pos heq, if_pos (decide_eq_true heq.symm)]
      · rw [if_neg heq, if_neg (by simpa using Ne.symm heq)]
    · rw [← Option.not_isSome_iff_eq_none]
      exact fun hsom => hid ((of_decide_eq_true hp) ▸ byId_isSome.mp hsom)
  · funext name
    rw [findIdx?_concat fun hp => ?_]
    · cases hcas : info.name with
      | none => simp
      | some own =>
        rw [Option.elim_some, Function.update_apply]
        by_cases heq : name = own
        · rw [if_pos heq, if_pos (decide_eq_true (congrArg some heq.symm))]
        · rw [if_neg heq, if_neg (by simpa using Ne.symm heq)]
    · rw [← Option.not_isSome_iff_eq_none]
      exact fun hsom => hnam name (of_decide_eq_true hp) (byName_isSome.mp hsom)
  · funext key
    rw [zipIdx_append, filter_append, List.map_append, zipIdx_singleton]
    by_cases hkin : info.kind = 2
    · by_cases hkey : (info.layer, info.expert) = key
      · simp [hkin, hkey]
      · simp [hkin, hkey, Ne.symm hkey]
    · simp [hkin]

/-- **What `add` does**: it indexes one more record, if that can be done. -/
theorem add_eq_ok {alignment : ℕ} {sizes : List ℕ} {info : RecordInfo} {ix : RecordIndex}
    (h : Distinct l) : add alignment sizes (ofRecords l) info = .ok ix
      ↔ info.Placed alignment sizes ∧ Distinct (l ++ [info]) ∧ ix = ofRecords (l ++ [info]) := by
  have hnam : (info.name.any fun name => ((ofRecords l).byName name).isSome) = true
      ↔ ∃ name ∈ info.name, name ∈ l.filterMap RecordInfo.name := by
    cases info.name with
    | none => simp
    | some => simpa using byName_isSome
  rw [add, bind_eq_ok]
  simp only [refuse_eq_ok, not_or, byId_isSome, bind_eq_ok, hnam, pure_eq, Except.ok.injEq,
    not_exists, not_and, not_le]
  constructor
  · rintro ⟨_, ⟨hzer, hid, hsh⟩, _, hrng, _, hfr, rfl⟩
    have hd := (distinct_append_singleton h).mpr ⟨hid, hfr⟩
    exact ⟨⟨hzer, hsh, hrng⟩, hd, push_ofRecords hd⟩
  · rintro ⟨hpl, hd, rfl⟩
    obtain ⟨hid, hfr⟩ := (distinct_append_singleton h).mp hd
    exact ⟨(), ⟨hpl.id_ne_zero, hid, hpl.shard_lt⟩, (), hpl.range, (), hfr, push_ofRecords hd⟩

/-- **What the loop over the records does**: it indexes them all, if they can be
placed and no two have an identifier or a name in common. -/
theorem foldlM_add_eq_ok {alignment : ℕ} {sizes : List ℕ} {infos : List RecordInfo}
    {ix : RecordIndex} (h : Distinct l) :
    infos.foldlM (add alignment sizes) (ofRecords l) = .ok ix
      ↔ (∀ info ∈ infos, info.Placed alignment sizes) ∧ Distinct (l ++ infos) ∧
        ix = ofRecords (l ++ infos) := by
  induction infos generalizing l with
  | nil =>
    rw [foldlM_nil, List.append_nil]
    exact ⟨fun hix => ⟨fun _ hno => absurd hno not_mem_nil, h, (Except.ok.inj hix).symm⟩,
      fun hix => congrArg _ hix.2.2.symm⟩
  | cons info infos ih =>
    rw [foldlM_cons, bind_eq_ok, forall_mem_cons]
    have happ : l ++ info :: infos = l ++ [info] ++ infos := append_cons _ _ _
    rw [happ]
    constructor
    · rintro ⟨_, hadd, hres⟩
      obtain ⟨hpl, hd, rfl⟩ := (add_eq_ok h).mp hadd
      obtain ⟨hall, hdis, hix⟩ := (ih hd).mp hres
      exact ⟨⟨hpl, hall⟩, hdis, hix⟩
    · rintro ⟨⟨hpl, hall⟩, hdis, hix⟩
      have hd := hdis.sublist (sublist_append_left (l ++ [info]) infos)
      exact ⟨_, (add_eq_ok h).mpr ⟨hpl, hd, rfl⟩, (ih hd).mpr ⟨hall, hdis, hix⟩⟩

end RecordIndex

/-! ## The package -/

/-- **What an opened package has**, in terms of its directory and of the header of
its manifest. -/
structure Opens (crc32c : List UInt8 → UInt32) (d : Directory) (p : Package)
    (h : ManifestHeader) : Prop where
  manifest : d.manifest = some p.manifest
  header : readHeader crc32c p.manifest = .ok h
  alignment : p.alignment = h.alignment
  profile : ∃ id, u32At p.manifest 148 = .ok id ∧
    stringAt p.manifest h.stringTable h.strings id.toNat = .ok p.profile
  compiler : ∃ id, u32At p.manifest 152 = .ok id ∧
    stringAt p.manifest h.stringTable h.strings id.toNat = .ok p.compiler
  flagged : checkFingerprint h p.manifest = .ok ()
  fingerprint : p.fingerprint = fingerprintOf p.manifest
  shards : (List.range h.shards).mapM (openShard d p.manifest h) = .ok p.shardFiles
  records : (List.range h.records).mapM (openRecord p.manifest h) = .ok p.records
  placed : ∀ info ∈ p.records, info.Placed h.alignment (p.shardFiles.map List.length)
  distinct : Distinct p.records
  index : p.index = RecordIndex.ofRecords p.records

/-- **What `openPackage` does.** -/
theorem openPackage_eq_ok {crc32c : List UInt8 → UInt32} {d : Directory} {p : Package} :
    openPackage crc32c d = .ok p ↔ ∃ h, Opens crc32c d p h := by
  have hemp : RecordIndex.empty = RecordIndex.ofRecords [] := rfl
  have hnil : Distinct [] := ⟨nodup_nil, nodup_nil⟩
  constructor
  · intro hop
    obtain ⟨manifest, hman, hop⟩ := bind_eq_ok.mp hop
    obtain ⟨h, hhdr, hop⟩ := bind_eq_ok.mp hop
    obtain ⟨pid, hpid, hop⟩ := bind_eq_ok.mp hop
    obtain ⟨profile, hpr, hop⟩ := bind_eq_ok.mp hop
    obtain ⟨cid, hcid, hop⟩ := bind_eq_ok.mp hop
    obtain ⟨compiler, hcom, hop⟩ := bind_eq_ok.mp hop
    obtain ⟨_, hfl, hop⟩ := bind_eq_ok.mp hop
    obtain ⟨shardFiles, hsh, hop⟩ := bind_eq_ok.mp hop
    obtain ⟨index, hidx, hop⟩ := bind_eq_ok.mp hop
    obtain ⟨infos, hinf, hadd⟩ := foldlM_bind_eq_ok.mp hidx
    rw [hemp, RecordIndex.foldlM_add_eq_ok hnil, nil_append] at hadd
    obtain ⟨hpl, hdis, rfl⟩ := hadd
    cases hop
    exact ⟨h, okOr_eq_ok.mp hman, hhdr, rfl, ⟨pid, hpid, hpr⟩,
      ⟨cid, hcid, hcom⟩, hfl, rfl, hsh, hinf, hpl, hdis, rfl⟩
  · rintro ⟨h, ho⟩
    obtain ⟨pid, hpid, hpr⟩ := ho.profile
    obtain ⟨cid, hcid, hcom⟩ := ho.compiler
    refine bind_eq_ok.mpr ⟨_, okOr_eq_ok.mpr ho.manifest, bind_eq_ok.mpr ⟨h, ho.header,
      bind_eq_ok.mpr ⟨pid, hpid, bind_eq_ok.mpr ⟨_, hpr, bind_eq_ok.mpr ⟨cid, hcid,
      bind_eq_ok.mpr ⟨_, hcom, bind_eq_ok.mpr ⟨(), ho.flagged, bind_eq_ok.mpr ⟨_, ho.shards,
      bind_eq_ok.mpr ⟨p.index, foldlM_bind_eq_ok.mpr ⟨_, ho.records, ?_⟩, ?_⟩⟩⟩⟩⟩⟩⟩⟩⟩
    · rw [hemp, RecordIndex.foldlM_add_eq_ok hnil, nil_append]
      exact ⟨ho.placed, ho.distinct, ho.index⟩
    · rw [pure_eq, ← ho.alignment, ← ho.fingerprint]

namespace Opens

variable {crc32c : List UInt8 → UInt32} {d : Directory} {p : Package} {h : ManifestHeader}

theorem length_records (ho : Opens crc32c d p h) : p.records.length = h.records :=
  (mapM_range_eq_ok.mp ho.records).1

theorem length_shardFiles (ho : Opens crc32c d p h) : p.shardFiles.length = h.shards :=
  (mapM_range_eq_ok.mp ho.shards).1

/-- **A lookup by identifier** finds the first record that has it, which is the only one. -/
theorem recordById (ho : Opens crc32c d p h) (id : UInt64) :
    p.recordById id = p.records.find? fun info => info.id = id := by
  rw [Package.recordById, ho.index]
  exact List.find?_eq_bind_findIdx?_getElem?.symm

end Opens

end Format

end Logan
