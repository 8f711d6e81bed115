import Logan.Format.Package
import Logan.Util.Align

/-!
# Placing records in shards

`plan_records` places records one after the other, each at a multiple of the
alignment. A record that would end outside the shard begins the next one, after
the place of the header. All sums are checked.

A run of the loop is compared with one in which sums have no bound: it goes on
as long as each record fits (`place_eq_ok`), and what it has placed so far is
**laid** properly (`Laid`), whatever comes after it.
-/

namespace Logan

open List

namespace Storage

open Result Rans256

/-- `DATA_SHARD_HEADER_BYTES` -/
def dataShardHeaderBytes : ℕ := 128

/-- `LoweredRecord` -/
structure LoweredRecord where
  id : ℕ
  kind : UInt16
  storedBytes : ℕ
  decodedBytes : ℕ
deriving DecidableEq

/-- `PlannedRecord` -/
structure PlannedRecord where
  record : LoweredRecord
  shardId : ℕ
  payloadOffset : ℕ
deriving DecidableEq

/-- `StoragePlan` -/
structure StoragePlan where
  recordAlignment : ℕ
  shardSizeLimit : ℕ
  shards : ℕ
  records : List PlannedRecord
  projectedStoredBytes : ℕ
  projectedPaddingBytes : ℕ
deriving DecidableEq

/-- Where a record ends. -/
def PlannedRecord.stop (p : PlannedRecord) : ℕ := p.payloadOffset + p.record.storedBytes

/-- `align_up` -/
def alignUp (value alignment : ℕ) : Except ColicError ℕ := do
  refuse (!Format.isPowerOfTwo alignment) (.usage "alignment must be a power of two")
  let sum ← okOr (checkedSum value (alignment - 1))
    (.usage "alignment calculation overflows u64")
  pure (UInt64.ofNat sum &&& ~~~(UInt64.ofNat (alignment - 1))).toNat

/-! ## The loop -/

/-- **The state of the loop**: the plan so far, and where the next record would be. -/
structure Placing where
  plan : StoragePlan
  previousId : ℕ
  shardId : ℕ
  offset : ℕ
deriving DecidableEq

/-- The next shard is begun. -/
def startShard (first : ℕ) (s : Placing) : Except ColicError Placing := do
  let shardId ← okOr (checkedSumU32 s.shardId 1) (.usage "shard count overflows u32")
  let shards ← okOr (checkedSumU32 shardId 1) (.usage "shard count overflows u32")
  let padding ← okOr (checkedSum s.plan.projectedPaddingBytes (first - dataShardHeaderBytes))
    (.usage "padding total overflows u64")
  pure { s with
    plan := { s.plan with shards := shards, projectedPaddingBytes := padding }
    shardId := shardId
    offset := first }

/-- A record is placed in the current shard. -/
def pushRecord (s : Placing) (record : LoweredRecord) : Except ColicError Placing := do
  let stop ← okOr (checkedSum s.offset record.storedBytes)
    (.usage s!"record {record.id} offset overflows u64")
  let next ← alignUp stop s.plan.recordAlignment
  let padding ← okOr (checkedSum s.plan.projectedPaddingBytes (next - stop))
    (.usage "padding total overflows u64")
  let stored ← okOr (checkedSum s.plan.projectedStoredBytes record.storedBytes)
    (.usage "stored-byte total overflows u64")
  pure { s with
    plan := { s.plan with
      records := s.plan.records ++ [⟨record, s.shardId, s.offset⟩]
      projectedStoredBytes := stored
      projectedPaddingBytes := padding }
    offset := next }

/-- One round of the loop. -/
def place (first : ℕ) (s : Placing) (record : LoweredRecord) : Except ColicError Placing := do
  refuse (record.id = 0 ∨ record.id ≤ s.previousId)
    (.usage "lowered records must have strictly increasing non-zero IDs")
  let s := { s with previousId := record.id }
  refuse (record.storedBytes > s.plan.shardSizeLimit - first)
    (.usage s!"record {record.id} exceeds the shard-size limit")
  let stop ← okOr (checkedSum s.offset record.storedBytes)
    (.usage s!"record {record.id} offset overflows u64")
  let s ← if stop > s.plan.shardSizeLimit then startShard first s else pure s
  pushRecord s record

/-- The state before the first record. -/
def emptyPlacing (alignment limit first : ℕ) : Placing where
  plan := ⟨alignment, limit, 1, [], 0, first - dataShardHeaderBytes⟩
  previousId := 0
  shardId := 0
  offset := first

/-- The alignments of the first version of the format. -/
def ValidAlignment (alignment : ℕ) : Prop :=
  Format.isPowerOfTwo alignment = true ∧ 4096 ≤ alignment ∧ alignment ≤ 1024 * 1024

instance (alignment : ℕ) : Decidable (ValidAlignment alignment) :=
  inferInstanceAs (Decidable (_ ∧ _))

/-- **`plan_records`**, for the alignment of the target. -/
def planRecords (records : List LoweredRecord) (alignment limit : ℕ) :
    Except ColicError StoragePlan := do
  refuse (¬ ValidAlignment alignment) (.usage "target record alignment is outside COLI v1 limits")
  let first ← alignUp dataShardHeaderBytes alignment
  refuse (limit < first) (.usage "shard size limit cannot hold a data-shard header")
  let s ← records.foldlM (place first) (emptyPlacing alignment limit first)
  pure s.plan

/-! ## The sizes of the shards -/

/-- The size of a shard that `encode_manifest_with_records` writes to the
manifest. -/
def fileBytes (plan : StoragePlan) (shardId : ℕ) : Except ColicError ℕ := do
  let first ← alignUp dataShardHeaderBytes plan.recordAlignment
  pure (((plan.records.filter (·.shardId = shardId)).map (·.stop)).max?.getD first)

/-- The size of the file that `write_data_shard` makes of the records of a shard. -/
def writtenBytes (plan : StoragePlan) (shardId : ℕ) : Except ColicError ℕ := do
  let first ← alignUp dataShardHeaderBytes plan.recordAlignment
  pure ((plan.records.filter (·.shardId = shardId)).foldl (fun bytes p => max bytes p.stop) first)

/-! ## Alignments -/

variable {alignment : ℕ}

theorem ValidAlignment.two_pow (h : ValidAlignment alignment) : ∃ k < 64, alignment = 2 ^ k := by
  refine ⟨alignment.log2, ?_, (of_decide_eq_true h.1).symm⟩
  have hle : alignment.log2 ≤ 20 := by
    rw [← Nat.pow_le_pow_iff_right (by decide : 1 < 2), of_decide_eq_true h.1]
    exact h.2.2
  exact hle.trans_lt (by decide)

/-- The next multiple of the alignment. -/
def roundUp (value alignment : ℕ) : ℕ := (value + (alignment - 1)) / alignment * alignment

theorem alignUp_eq_ok {value n : ℕ} (h : ValidAlignment alignment) :
    alignUp value alignment = .ok n ↔
      value + (alignment - 1) ≤ usizeMax ∧ n = roundUp value alignment := by
  have hpow : ¬ (!Format.isPowerOfTwo alignment) = true := by
    rw [h.1]
    decide
  obtain ⟨k, hk, rfl⟩ := h.two_pow
  unfold alignUp roundUp
  rw [refuse_of_not hpow, ok_bind]
  by_cases hsum : value + (2 ^ k - 1) ≤ usizeMax
  · have hlt : value + (2 ^ k - 1) < 2 ^ 64 := hsum.trans_lt (by decide)
    rw [checkedSum_of_le hsum, okOr_some, ok_bind, and_not_two_pow hlt hk]
    exact ⟨fun heq => ⟨hsum, (Except.ok.inj heq).symm⟩, fun heq => congrArg _ heq.2.symm⟩
  · refine iff_of_false (fun heq => ?_) fun heq => hsum heq.1
    obtain ⟨_, hok, -⟩ := bind_eq_ok.mp heq
    exact hsum (checkedSum_eq_some.mp (okOr_eq_ok.mp hok)).2

/-- The place of the first record of a shard. -/
theorem alignUp_header (h : ValidAlignment alignment) :
    alignUp dataShardHeaderBytes alignment = .ok alignment := by
  have hhdr : dataShardHeaderBytes = 128 := rfl
  have hmax : usizeMax = 2 ^ 64 - 1 := rfl
  obtain ⟨-, hlow, hhig⟩ := id h
  refine (alignUp_eq_ok h).mpr ⟨by omega, ?_⟩
  have hdiv : (dataShardHeaderBytes + (alignment - 1)) / alignment = 1 :=
    Nat.div_eq_of_lt_le (by omega) (by omega)
  rw [roundUp, hdiv, Nat.one_mul]

/-! ## Sums without a bound -/

/-- The record would end outside the shard. -/
def Rolls (s : Placing) (record : LoweredRecord) : Prop :=
  s.plan.shardSizeLimit < s.offset + record.storedBytes

instance (s : Placing) (record : LoweredRecord) : Decidable (Rolls s record) :=
  inferInstanceAs (Decidable (_ < _))

/-- Where the record is placed. -/
def slot (first : ℕ) (s : Placing) (record : LoweredRecord) : ℕ :=
  if Rolls s record then first else s.offset

/-- Where the record after it would be. -/
def after (first : ℕ) (s : Placing) (record : LoweredRecord) : ℕ :=
  roundUp (slot first s record + record.storedBytes) s.plan.recordAlignment

/-- The padding, with that of the record. -/
def padded (first : ℕ) (s : Placing) (record : LoweredRecord) : ℕ :=
  s.plan.projectedPaddingBytes + (if Rolls s record then first - dataShardHeaderBytes else 0)
    + (after first s record - (slot first s record + record.storedBytes))

/-- **The state with one more record.** -/
def placed (first : ℕ) (s : Placing) (record : LoweredRecord) : Placing where
  plan :=
    { s.plan with
      shards := if Rolls s record then s.shardId + 2 else s.plan.shards
      records := s.plan.records ++
        [⟨record, if Rolls s record then s.shardId + 1 else s.shardId, slot first s record⟩]
      projectedStoredBytes := s.plan.projectedStoredBytes + record.storedBytes
      projectedPaddingBytes := padded first s record }
  previousId := record.id
  shardId := if Rolls s record then s.shardId + 1 else s.shardId
  offset := after first s record

/-- **A sum is too large**, of those that are computed for the record. -/
def Overflows (first : ℕ) (s : Placing) (record : LoweredRecord) : Prop :=
  usizeMax < s.offset + record.storedBytes ∨ (Rolls s record ∧ u32Max < s.shardId + 2)
    ∨ usizeMax < slot first s record + record.storedBytes + (s.plan.recordAlignment - 1)
    ∨ usizeMax < padded first s record
    ∨ usizeMax < s.plan.projectedStoredBytes + record.storedBytes

/-- **The record fits.** -/
structure Fits (first : ℕ) (s : Placing) (record : LoweredRecord) : Prop where
  increasing : s.previousId < record.id
  small : record.storedBytes ≤ s.plan.shardSizeLimit - first
  sums : ¬ Overflows first s record

theorem checkedSumU32_eq_some {a b c : ℕ} :
    checkedSumU32 a b = some c ↔ a + b = c ∧ a + b ≤ u32Max := by
  unfold checkedSumU32
  split_ifs with h
  · rw [Option.some_inj, and_iff_left h]
  · exact iff_of_false nofun fun hc => h hc.2

/-- The state at the beginning of the next shard. -/
def begun (first : ℕ) (s : Placing) : Placing :=
  { s with
    plan := { s.plan with
      shards := s.shardId + 2
      projectedPaddingBytes := s.plan.projectedPaddingBytes + (first - dataShardHeaderBytes) }
    shardId := s.shardId + 1
    offset := first }

variable {first : ℕ} {s : Placing}

theorem startShard_eq_ok {s' : Placing} : startShard first s = .ok s' ↔ s.shardId + 2 ≤ u32Max ∧
      s.plan.projectedPaddingBytes + (first - dataShardHeaderBytes) ≤ usizeMax ∧
      s' = begun first s := by
  unfold startShard
  simp only [bind_eq_ok, okOr_eq_ok, checkedSumU32_eq_some, checkedSum_eq_some]
  constructor
  · rintro ⟨_, ⟨rfl, -⟩, _, ⟨rfl, hsh⟩, _, ⟨rfl, hpad⟩, heq⟩
    exact ⟨hsh, hpad, (Except.ok.inj heq).symm⟩
  · rintro ⟨hsh, hpad, rfl⟩
    exact ⟨_, ⟨rfl, by omega⟩, _, ⟨rfl, hsh⟩, _, ⟨rfl, hpad⟩, rfl⟩

theorem pushRecord_eq_ok {s' : Placing} (ha : ValidAlignment s.plan.recordAlignment)
    {record : LoweredRecord} {stop next : ℕ} (hst : stop = s.offset + record.storedBytes)
    (hnex : next = roundUp stop s.plan.recordAlignment) : pushRecord s record = .ok s' ↔
      stop + (s.plan.recordAlignment - 1) ≤ usizeMax ∧
      s.plan.projectedPaddingBytes + (next - stop) ≤ usizeMax ∧
      s.plan.projectedStoredBytes + record.storedBytes ≤ usizeMax ∧ s' = { s with
        plan := { s.plan with
          records := s.plan.records ++ [⟨record, s.shardId, s.offset⟩]
          projectedStoredBytes := s.plan.projectedStoredBytes + record.storedBytes
          projectedPaddingBytes := s.plan.projectedPaddingBytes + (next - stop) }
        offset := next } := by
  subst hst hnex
  unfold pushRecord
  simp only [bind_eq_ok, okOr_eq_ok, checkedSum_eq_some, alignUp_eq_ok ha]
  constructor
  · rintro ⟨_, ⟨rfl, -⟩, _, ⟨hsum, rfl⟩, _, ⟨rfl, hpad⟩, _, ⟨rfl, hstr⟩, heq⟩
    exact ⟨hsum, hpad, hstr, (Except.ok.inj heq).symm⟩
  · rintro ⟨hsum, hpad, hstr, rfl⟩
    exact ⟨_, ⟨rfl, by omega⟩, _, ⟨hsum, rfl⟩, _, ⟨rfl, hpad⟩, _, ⟨rfl, hstr⟩, rfl⟩

/-- **A round of the loop** goes well if the record fits, and then places it. -/
theorem place_eq_ok {s' : Placing} (ha : ValidAlignment s.plan.recordAlignment)
    {record : LoweredRecord} :
    place first s record = .ok s' ↔ Fits first s record ∧ s' = placed first s record := by
  have hfts : Fits first s record ↔ (¬ (record.id = 0 ∨ record.id ≤ s.previousId)) ∧
      (¬ record.storedBytes > s.plan.shardSizeLimit - first) ∧ ¬ Overflows first s record := by
    refine ⟨fun h => ⟨?_, not_lt.mpr h.small, h.sums⟩,
      fun h => ⟨not_le.mp (not_or.mp h.1).2, not_lt.mp h.2.1, h.2.2⟩⟩
    have := h.increasing
    omega
  unfold place
  simp only [bind_eq_ok, okOr_eq_ok, checkedSum_eq_some, refuse_eq_ok, exists_const]
  rw [hfts, and_assoc, and_assoc]
  refine and_congr_right fun _ => and_congr_right fun _ => ?_
  unfold Overflows placed padded slot
  by_cases hrol : Rolls s record
  · have hst : s.offset + record.storedBytes > s.plan.shardSizeLimit := hrol
    have hnex : after first s record
        = roundUp (first + record.storedBytes) s.plan.recordAlignment := by
      rw [after, slot, if_pos hrol]
    have hpus := fun s' => @pushRecord_eq_ok (begun first { s with previousId := record.id }) s'
      ha record _ _ rfl hnex
    simp only [if_pos hrol]
    constructor
    · rintro ⟨_, ⟨rfl, hfit⟩, h⟩
      rw [if_pos hst] at h
      obtain ⟨s₁, h₁, h⟩ := bind_eq_ok.mp h
      obtain ⟨hsh, -, rfl⟩ := startShard_eq_ok.mp h₁
      obtain ⟨hsum, hpad, hstr, rfl⟩ := (hpus s').mp h
      refine ⟨?_, rfl⟩
      simp only [not_or, not_and, not_lt]
      exact ⟨hfit, fun _ => hsh, hsum, hpad, hstr⟩
    · rintro ⟨hsms, rfl⟩
      simp only [not_or, not_and, not_lt] at hsms
      obtain ⟨hfit, hsh, hsum, hpad, hstr⟩ := hsms
      refine ⟨_, ⟨rfl, hfit⟩, ?_⟩
      rw [if_pos hst, bind_eq_ok]
      exact ⟨_, startShard_eq_ok.mpr ⟨hsh hrol, (Nat.le_add_right _ _).trans hpad, rfl⟩,
        (hpus _).mpr ⟨hsum, hpad, hstr, rfl⟩⟩
  · have hst : ¬ s.offset + record.storedBytes > s.plan.shardSizeLimit := hrol
    have hnex : after first s record
        = roundUp (s.offset + record.storedBytes) s.plan.recordAlignment := by
      rw [after, slot, if_neg hrol]
    have hpus := fun s' => @pushRecord_eq_ok { s with previousId := record.id } s' ha record _ _
      rfl hnex
    simp only [if_neg hrol, Nat.add_zero]
    constructor
    · rintro ⟨_, ⟨rfl, hfit⟩, h⟩
      rw [if_neg hst] at h
      obtain ⟨hsum, hpad, hstr, rfl⟩ := (hpus s').mp h
      refine ⟨?_, rfl⟩
      simp only [not_or, not_and, not_lt]
      exact ⟨hfit, fun h => absurd h hrol, hsum, hpad, hstr⟩
    · rintro ⟨hsms, rfl⟩
      simp only [not_or, not_and, not_lt] at hsms
      obtain ⟨hfit, -, hsum, hpad, hstr⟩ := hsms
      refine ⟨_, ⟨rfl, hfit⟩, ?_⟩
      rw [if_neg hst]
      exact (hpus _).mpr ⟨hsum, hpad, hstr, rfl⟩

variable {records : List LoweredRecord}

/-- **The loop** goes well if every record fits, after those before it. -/
theorem foldlM_place_eq_ok {s' : Placing} (ha : ValidAlignment s.plan.recordAlignment) :
    records.foldlM (place first) s = .ok s' ↔ (∀ before r rest, records = before ++ r :: rest →
        Fits first (before.foldl (placed first) s) r) ∧ s' = records.foldl (placed first) s := by
  induction records generalizing s with
  | nil =>
    refine ⟨fun h => ⟨fun before r rest heq => ?_, (Except.ok.inj h).symm⟩, fun h => ?_⟩
    · exact absurd heq.symm (append_ne_nil_of_right_ne_nil _ (cons_ne_nil _ _))
    · exact congrArg _ h.2.symm
  | cons record records ih =>
    rw [foldlM_cons, bind_eq_ok]
    constructor
    · rintro ⟨s₁, h₁, h⟩
      obtain ⟨hfit, rfl⟩ := (place_eq_ok ha).mp h₁
      obtain ⟨hall, rfl⟩ := (ih (s := placed first s record) ha).mp h
      refine ⟨fun before r rest heq => ?_, rfl⟩
      rcases cons_eq_append_iff.mp heq with ⟨rfl, hres⟩ | ⟨before', rfl, hres⟩
      · rwa [(List.cons.inj hres).1]
      · exact hall before' r rest hres
    · rintro ⟨hall, rfl⟩
      refine ⟨_, (place_eq_ok ha).mpr ⟨hall [] record records rfl, rfl⟩, ?_⟩
      exact (ih (s := placed first s record) ha).mpr
        ⟨fun before r rest heq => hall (record :: before) r rest (congrArg _ heq), rfl⟩

/-! ## Records are laid properly -/

/-- **Records that are placed** once, in their order, at multiples of the
alignment, apart from each other, in shards that follow one another. -/
structure Placed (first : ℕ) (records : List LoweredRecord) (plan : StoragePlan) : Prop where
  once : plan.records.map (·.record) = records
  aligned : ∀ p ∈ plan.records, plan.recordAlignment ∣ p.payloadOffset
  header : ∀ p ∈ plan.records, first ≤ p.payloadOffset
  inside : ∀ p ∈ plan.records, p.stop ≤ plan.shardSizeLimit
  apart : plan.records.Pairwise fun p q => p.shardId = q.shardId → p.stop ≤ q.payloadOffset
  ordered : plan.records.Pairwise fun p q => p.shardId ≤ q.shardId
  below : ∀ p ∈ plan.records, p.shardId < plan.shards
  covers : records ≠ [] → ∀ id < plan.shards, ∃ p ∈ plan.records, p.shardId = id
  one : records = [] → plan.shards = 1

/-- **The invariant of the loop**: what is placed, and that all of it is before the
next place. -/
structure Laid (first : ℕ) (records : List LoweredRecord) (s : Placing) : Prop
    extends Placed first records s.plan where
  shards : s.plan.shards = s.shardId + 1
  next : s.plan.recordAlignment ∣ s.offset
  start : first ≤ s.offset
  before : ∀ p ∈ s.plan.records, p.shardId = s.shardId → p.stop ≤ s.offset
  unused : records = [] → s.offset = first

theorem laid_empty {limit : ℕ} (hfst : alignment ∣ first) :
    Laid first [] (emptyPlacing alignment limit first) where
  once := rfl
  aligned := nofun
  header := nofun
  inside := nofun
  apart := List.Pairwise.nil
  ordered := List.Pairwise.nil
  below := nofun
  covers h := absurd rfl h
  one _ := rfl
  shards := rfl
  next := hfst
  start := le_rfl
  before := nofun
  unused _ := rfl

theorem dvd_roundUp {value : ℕ} : alignment ∣ roundUp value alignment :=
  Nat.dvd_mul_left _ _

/-- **A record that fits is laid properly.** -/
theorem Laid.placed (h : Laid first records s) (ha : 0 < s.plan.recordAlignment)
    (hfst : s.plan.recordAlignment ∣ first) (hlim : first ≤ s.plan.shardSizeLimit)
    {r : LoweredRecord} (hfit : Fits first s r) :
    Laid first (records ++ [r]) (placed first s r) := by
  have hsm := hfit.small
  have hsl : s.plan.recordAlignment ∣ slot first s r ∧ first ≤ slot first s r ∧
      slot first s r + r.storedBytes ≤ s.plan.shardSizeLimit := by
    unfold slot
    by_cases hrol : Rolls s r
    · rw [if_pos hrol]
      exact ⟨hfst, le_rfl, by omega⟩
    · rw [if_neg hrol]
      exact ⟨h.next, h.start, not_lt.mp hrol⟩
  obtain ⟨hdvd, hge, hst⟩ := hsl
  have haft : slot first s r + r.storedBytes ≤ after first s r := (roundUp_spec _ ha).2.1
  set t := Storage.placed first s r with ht
  have hsh : t.shardId = if Rolls s r then s.shardId + 1 else s.shardId := rfl
  have hshr : t.plan.shards = t.shardId + 1 := by
    show (if Rolls s r then s.shardId + 2 else s.plan.shards) = _
    rw [hsh, h.shards]
    split_ifs
    · rfl
    · rfl
  have hle : s.shardId ≤ t.shardId ∧ t.shardId ≤ s.shardId + 1 := by
    rw [hsh]
    split_ifs
    · exact ⟨Nat.le_succ _, le_rfl⟩
    · exact ⟨le_rfl, Nat.le_succ _⟩
  have hear : ∀ p ∈ s.plan.records, p.shardId ≤ s.shardId := fun p hp =>
    Nat.le_of_lt_succ ((h.below p hp).trans_eq h.shards)
  have hbef : ∀ p ∈ s.plan.records, p.shardId = t.shardId → p.stop ≤ slot first s r := by
    intro p hp hsam
    rw [hsh] at hsam
    unfold slot
    split_ifs at hsam ⊢
    · exact absurd (hear p hp) (by omega)
    · exact h.before p hp hsam
  have hrec : t.plan.records = s.plan.records ++ [⟨r, t.shardId, slot first s r⟩] := rfl
  -- the first record of all is in the first shard
  have hun : records = [] → t.shardId = 0 := by
    intro hnil
    have hone := h.one hnil
    have hrol : ¬ Rolls s r := by
      unfold Rolls
      rw [h.unused hnil]
      omega
    rw [hsh, if_neg hrol]
    have := h.shards
    omega
  refine
    { once := ?_, aligned := ?_, header := ?_, inside := ?_, apart := ?_, ordered := ?_,
      below := ?_, covers := ?_, one := ?_, shards := hshr, next := dvd_roundUp,
      start := (hge.trans (Nat.le_add_right _ _)).trans haft, before := ?_, unused := ?_ }
  · rw [hrec, List.map_append, h.once]
    rfl
  · rw [hrec, forall_mem_append, forall_mem_singleton]
    exact ⟨h.aligned, hdvd⟩
  · rw [hrec, forall_mem_append, forall_mem_singleton]
    exact ⟨h.header, hge⟩
  · rw [hrec, forall_mem_append, forall_mem_singleton]
    exact ⟨h.inside, hst⟩
  · rw [hrec]
    refine pairwise_append.mpr ⟨h.apart, pairwise_singleton _ _, fun p hp q hq => ?_⟩
    rw [mem_singleton.mp hq]
    exact hbef p hp
  · rw [hrec]
    refine pairwise_append.mpr ⟨h.ordered, pairwise_singleton _ _, fun p hp q hq => ?_⟩
    rw [mem_singleton.mp hq]
    exact (hear p hp).trans hle.1
  · rw [hrec, forall_mem_append, forall_mem_singleton, hshr]
    exact ⟨fun p hp => Nat.lt_succ_of_le ((hear p hp).trans hle.1), Nat.lt_succ_self _⟩
  · intro _ id hid
    rw [hrec]
    rw [hshr] at hid
    by_cases hlas : id = t.shardId
    · exact ⟨_, mem_append_right _ (mem_singleton_self _), hlas.symm⟩
    · have hne : records ≠ [] := fun hnil => by
        have := hun hnil
        omega
      obtain ⟨p, hp, hsam⟩ := h.covers hne id (by rw [h.shards]; omega)
      exact ⟨p, mem_append_left _ hp, hsam⟩
  · exact fun hnil => absurd hnil (append_ne_nil_of_right_ne_nil _ (cons_ne_nil _ _))
  · rw [hrec, forall_mem_append, forall_mem_singleton]
    refine ⟨fun p hp hsam => ?_, fun _ => haft⟩
    exact (hbef p hp hsam).trans ((Nat.le_add_right _ _).trans haft)
  · exact fun hnil => absurd hnil (append_ne_nil_of_right_ne_nil _ (cons_ne_nil _ _))

/-- **After every run**, what has been placed is laid properly. -/
theorem laid_foldl {limit : ℕ} (ha : 0 < alignment) (hfst : alignment ∣ first)
    (hlim : first ≤ limit) (hfit : ∀ before r rest, records = before ++ r :: rest →
      Fits first (before.foldl (placed first) (emptyPlacing alignment limit first)) r) :
    let s := records.foldl (placed first) (emptyPlacing alignment limit first)
    Laid first records s ∧ s.plan.recordAlignment = alignment ∧ s.plan.shardSizeLimit = limit := by
  induction records using List.reverseRecOn with
  | nil => exact ⟨laid_empty hfst, rfl, rfl⟩
  | append_singleton records r ih =>
    obtain ⟨hld, hal, hbnd⟩ := ih fun before r' rest heq => hfit before r' (rest ++ [r])
      (by rw [heq, append_assoc, cons_append])
    rw [foldl_append]
    refine ⟨hld.placed ?_ ?_ ?_ (hfit records r [] rfl), hal, hbnd⟩
    · rwa [hal]
    · rwa [hal]
    · rwa [hbnd]

/-! ## Sizes of shards -/

theorem foldl_max_le {A : Type} {f : A → ℕ} {l : List A} {start bound : ℕ}
    (hst : start ≤ bound) (hl : ∀ a ∈ l, f a ≤ bound) :
    l.foldl (fun m a => max m (f a)) start ≤ bound := by
  induction l generalizing start with
  | nil => exact hst
  | cons a l ih =>
    exact ih (max_le hst (hl a mem_cons_self)) fun b hb => hl b (mem_cons_of_mem a hb)

/-- **The size of a shard is where its last record ends**, both in the manifest and
in the file. -/
theorem Placed.sizes {plan : StoragePlan} (h : Placed first records plan)
    (hfst : alignUp dataShardHeaderBytes plan.recordAlignment = .ok first)
    {before rest : List PlannedRecord} {p : PlannedRecord}
    (hp : plan.records = before ++ p :: rest) (hlas : ∀ q ∈ rest, q.shardId ≠ p.shardId) :
    fileBytes plan p.shardId = .ok p.stop ∧ writtenBytes plan p.shardId = .ok p.stop := by
  have hfil : plan.records.filter (·.shardId = p.shardId)
      = before.filter (·.shardId = p.shardId) ++ [p] := by
    have hres : rest.filter (·.shardId = p.shardId) = [] :=
      filter_eq_nil_iff.mpr fun q hq => by simpa using hlas q hq
    rw [hp, filter_append, filter_cons_of_pos (by exact decide_eq_true rfl), hres]
  have hmem : p ∈ plan.records := by
    rw [hp]
    exact mem_append_right _ mem_cons_self
  have hle : ∀ q ∈ before.filter (·.shardId = p.shardId), q.stop ≤ p.stop := by
    intro q hq
    obtain ⟨hq, hsam⟩ := mem_filter.mp hq
    have hap := h.apart
    rw [hp] at hap
    exact ((pairwise_append.mp hap).2.2 q hq p mem_cons_self
      (of_decide_eq_true hsam)).trans (Nat.le_add_right _ _)
  have hst : first ≤ p.stop := (h.header p hmem).trans (Nat.le_add_right _ _)
  constructor
  · have hmax : ((before.filter (·.shardId = p.shardId) ++ [p]).map (·.stop)).max?
        = some p.stop := by
      refine List.max?_eq_some_iff.mpr ⟨?_, fun m hm => ?_⟩
      · exact mem_map_of_mem (mem_append_right _ (mem_singleton_self p))
      · obtain ⟨q, hq, rfl⟩ := mem_map.mp hm
        rcases mem_append.mp hq with hq | hq
        · exact hle q hq
        · rw [mem_singleton.mp hq]
    unfold fileBytes
    rw [hfst, ok_bind, hfil, hmax]
    rfl
  · unfold writtenBytes
    rw [hfst, ok_bind, hfil, foldl_append]
    exact congrArg Except.ok (max_eq_right (foldl_max_le hst hle))

/-! ## The plan -/

/-- The identifier before the next record. -/
theorem previousId_foldl (first : ℕ) (s : Placing) (records : List LoweredRecord) :
    (records.foldl (placed first) s).previousId ∈ s.previousId :: records.map (·.id) := by
  induction records using List.reverseRecOn with
  | nil => exact mem_cons_self
  | append_singleton records r _ =>
    rw [foldl_append, List.map_append]
    exact mem_cons_of_mem _ (mem_append_right _ (mem_singleton_self r.id))

/-- **Why a record does not fit**, while identifiers increase. -/
theorem exists_of_not_fits (hids : (s.previousId :: records.map (·.id)).Pairwise (· < ·))
    (h : ¬ ∀ before r rest, records = before ++ r :: rest →
      Fits first (before.foldl (placed first) s) r) :
    (∃ r ∈ records, s.plan.shardSizeLimit - first < r.storedBytes) ∨
      ∃ before r rest, records = before ++ r :: rest ∧
        Overflows first (before.foldl (placed first) s) r := by
  by_contra hnon
  obtain ⟨hsm, hsum⟩ := not_or.mp hnon
  refine h fun before r rest heq => ⟨?_, ?_, fun hov => hsum ⟨before, r, rest, heq, hov⟩⟩
  · rw [heq, List.map_append, map_cons, ← cons_append] at hids
    exact (pairwise_append.mp hids).2.2 _ (previousId_foldl first s before) _ mem_cons_self
  · have hlim : (before.foldl (placed first) s).plan.shardSizeLimit = s.plan.shardSizeLimit := by
      clear heq
      induction before using List.reverseRecOn with
      | nil => rfl
      | append_singleton before r ih =>
        rw [foldl_append]
        exact ih
    rw [hlim]
    refine not_lt.mp fun hlrg => hsm ⟨r, ?_, hlrg⟩
    rw [heq]
    exact mem_append_right _ mem_cons_self

/-- **The plan of a list of records**: if there is one, all records are placed, and
each shard is as long as it needs to be. There is none only if the alignment is not
one of the format, the header does not fit in a shard, the identifiers do not
increase, a record is larger than a shard, or a sum is too large. -/
theorem planRecords_places (records : List LoweredRecord) (alignment limit : ℕ) :
    (∀ plan, planRecords records alignment limit = .ok plan →
      plan.recordAlignment = alignment ∧ plan.shardSizeLimit = limit ∧
      ∃ first, alignUp dataShardHeaderBytes alignment = .ok first ∧ Placed first records plan ∧
        (∀ before p rest, plan.records = before ++ p :: rest → (∀ q ∈ rest, q.shardId ≠ p.shardId) →
          fileBytes plan p.shardId = .ok p.stop ∧ writtenBytes plan p.shardId = .ok p.stop) ∧
        (records = [] → fileBytes plan 0 = .ok first ∧ writtenBytes plan 0 = .ok first)) ∧
    ∀ e, planRecords records alignment limit = .error e → ¬ ValidAlignment alignment ∨
      ∃ first, alignUp dataShardHeaderBytes alignment = .ok first ∧
        (limit < first ∨ ¬ (0 :: records.map (·.id)).Pairwise (· < ·) ∨
          (∃ r ∈ records, limit - first < r.storedBytes) ∨
          ∃ before r rest, records = before ++ r :: rest ∧
            Overflows first (before.foldl (placed first) (emptyPlacing alignment limit first)) r) := by
  have hpl : ValidAlignment alignment → alignment ≤ limit → ∀ s,
      records.foldlM (place alignment) (emptyPlacing alignment limit alignment) = s →
      planRecords records alignment limit = s.map (·.plan) := by
    intro ha hlim s hs
    unfold planRecords
    rw [refuse_of_not (not_not.mpr ha), ok_bind, alignUp_header ha, ok_bind,
      refuse_of_not (not_lt.mpr hlim), ok_bind, hs]
    cases s with
    | ok | error => rfl
  by_cases ha : ValidAlignment alignment
  swap
  · refine ⟨fun plan h => ?_, fun e h => Or.inl ha⟩
    unfold planRecords at h
    rw [refuse_of ha] at h
    exact nomatch h
  by_cases hlim : alignment ≤ limit
  swap
  · refine ⟨fun plan h => ?_, fun e h => Or.inr ⟨_, alignUp_header ha, Or.inl (not_le.mp hlim)⟩⟩
    unfold planRecords at h
    rw [refuse_of_not (not_not.mpr ha), ok_bind, alignUp_header ha, ok_bind,
      refuse_of (not_le.mp hlim)] at h
    exact nomatch h
  have hpos : 0 < alignment := (by decide : 0 < 4096).trans_le ha.2.1
  cases hrun : records.foldlM (place alignment) (emptyPlacing alignment limit alignment) with
  | ok s =>
    rw [hpl ha hlim _ hrun]
    refine ⟨fun plan h => ?_, nofun⟩
    obtain rfl := Except.ok.inj h
    obtain ⟨hfit, rfl⟩ := (foldlM_place_eq_ok (s := emptyPlacing alignment limit alignment)
      ha).mp hrun
    obtain ⟨hld, hal, hbnd⟩ := laid_foldl hpos (dvd_refl alignment) hlim hfit
    have hfst := (congrArg _ hal).trans (alignUp_header ha)
    refine ⟨hal, hbnd, alignment, alignUp_header ha, hld.toPlaced,
      fun before p rest => hld.toPlaced.sizes hfst, ?_⟩
    rintro rfl
    unfold fileBytes writtenBytes
    rw [hfst]
    exact ⟨rfl, rfl⟩
  | error e =>
    refine ⟨fun plan h => ?_, fun e h => Or.inr ⟨_, alignUp_header ha, Or.inr ?_⟩⟩
    · rw [hpl ha hlim _ hrun] at h
      exact nomatch h
    · refine or_iff_not_imp_left.mpr fun hids => ?_
      refine exists_of_not_fits (s := emptyPlacing alignment limit alignment) (not_not.mp hids)
        fun hfit => ?_
      have hok := (foldlM_place_eq_ok (s := emptyPlacing alignment limit alignment) ha).mpr
        ⟨hfit, rfl⟩
      rw [hrun] at hok
      exact nomatch hok

/-- Without any record: a plan whose only shard has none, or no plan, since the
header does not fit. -/
theorem not_forall_covered : (∃ plan, planRecords [] 4096 8192 = .ok plan ∧ plan.shards = 1 ∧
      ¬ ∃ p ∈ plan.records, p.shardId = 0) ∧
    ValidAlignment 4096 ∧ alignUp dataShardHeaderBytes 4096 = .ok 4096 ∧ planRecords [] 4096 4095
      = .error (.usage "shard size limit cannot hold a data-shard header") :=
  ⟨⟨⟨4096, 8192, 1, [], 0, 3968⟩, by decide +kernel, rfl, nofun⟩, by decide +kernel,
    by decide +kernel, by decide +kernel⟩

end Storage

end Logan
