import Logan.Source.Safetensors

/-!
# Which headers are accepted

A header that is accepted is legal: the bytes of each tensor are in the data, as
many as its shape and type say, and no two tensors share a byte. For the ranges are
sorted by their starts, and each ends before the next one starts. A legal header is
accepted, too, but for one case: an empty range shares no byte with any other, and
yet it may come after a range that ends behind it. Then the two are neighbours that
overlap, or there is another empty range between them for which this is so.
-/

namespace Logan

open Option

namespace Source

open Json Result

/-! ## What a header says -/

/-- **A tensor**, as an entry of a header says it. -/
structure Tensor where
  name : String
  dtype : String
  shape : List UInt64
  start : UInt64
  stop : UInt64

/-- An entry is the description of a tensor. -/
def Tensor.Describes (entry : String × Value) (t : Tensor) : Prop :=
  ∃ descriptor, entry = (t.name, .object descriptor) ∧
    descriptor.lookup "dtype" = some (.string t.dtype) ∧
    descriptor.lookup "shape" = some (.array (t.shape.map fun d => .number (.posInt d))) ∧
    descriptor.lookup "data_offsets"
      = some (.array [.number (.posInt t.start), .number (.posInt t.stop)])

/-- **A header describes these tensors**, besides its metadata. -/
def Describes (header : Object) (tensors : List Tensor) : Prop :=
  List.Forall₂ Tensor.Describes (header.fields.filter fun entry => entry.1 ≠ "__metadata__") tensors

/-- **The bytes of a tensor are as they should be**: they are in the data, and as many as its shape
and its type say, which can be computed without an overflow. -/
structure Tensor.Sized (shard : Shard) (t : Tensor) : Prop where
  ordered : t.start.toNat ≤ t.stop.toNat
  inside : t.stop.toNat ≤ shard.dataLen
  computed : ∀ n, ((t.shape.take n).map UInt64.toNat).prod ≤ u64Max
  length : ∃ size, dtypeSize t.dtype = some size ∧
    t.stop.toNat - t.start.toNat = (t.shape.map UInt64.toNat).prod * size

/-- The bytes of a tensor in the data. -/
def Tensor.bytes (t : Tensor) : Set ℕ := Set.Ico t.start.toNat t.stop.toNat

/-- **Tensors are legal** if their bytes are as they should be, and no two of them share any. -/
structure Legal (shard : Shard) (tensors : List Tensor) : Prop where
  sized : ∀ t ∈ tensors, t.Sized shard
  disjoint : tensors.Pairwise fun a b => Disjoint a.bytes b.bytes

/-- The range of a tensor. -/
def Tensor.span (t : Tensor) : TensorSpan := ⟨t.start.toNat, t.stop.toNat, t.name⟩

/-- Where the bytes of a tensor are in the file. -/
def Tensor.ref (shard : Shard) (t : Tensor) : String × TensorRef :=
  (t.name, ⟨shard.path, shard.payloadStart + t.start.toNat, t.stop.toNat - t.start.toNat, t.dtype,
    t.shape⟩)

/-- **The header is accepted exactly if it is legal**, and then with the ranges that it says. -/
def Exact (sort : SortByStart) (shard : Shard) (header : Object) : Prop :=
  ∀ map, parseSafetensors sort shard header = .ok map ↔
    ∃ tensors, Describes header tensors ∧ Legal shard tensors ∧ map = tensors.map (Tensor.ref shard)

/-- **No empty range is hidden**: none comes, in the order of the sort, after a range that ends
behind it. -/
def Unhidden (sort : SortByStart) (tensors : List Tensor) : Prop :=
  (sort.sort (tensors.map Tensor.span)).Pairwise fun a b => b.start = b.stop → a.stop ≤ b.start

/-! ## One entry -/

/-- **A product is computed** if no part of it overflows. -/
theorem elementCount_eq_some {shape : List UInt64} {elements : ℕ} :
    elementCount shape = some elements ↔ (∀ n, ((shape.take n).map UInt64.toNat).prod ≤ u64Max) ∧
        (shape.map UInt64.toNat).prod = elements := by
  have hfol : ∀ (shape : List UInt64) (total : ℕ), total ≤ usizeMax →
      (shape.foldlM (fun total dimension => checkedProduct total dimension.toNat) total
          = some elements ↔
        (∀ n, total * ((shape.take n).map UInt64.toNat).prod ≤ usizeMax) ∧
          total * (shape.map UInt64.toNat).prod = elements) := by
    intro shape
    induction shape with
    | nil =>
      intro total htot
      simp only [List.take_nil, List.map_nil, List.prod_nil, Nat.mul_one]
      exact ⟨fun h => ⟨fun _ => htot, some.inj h⟩, fun h => congrArg some h.2⟩
    | cons dimension shape ih =>
      intro total htot
      rw [List.foldlM_cons, List.map_cons, List.prod_cons, ← Nat.mul_assoc]
      by_cases hle : total * dimension.toNat ≤ usizeMax
      · rw [checkedProduct_of_le hle]
        refine (ih _ hle).trans (and_congr_left' ⟨fun h n => ?_, fun h n => ?_⟩)
        · cases n with
          | zero => simpa only [List.take_zero, List.map_nil, List.prod_nil, Nat.mul_one]
          | succ n =>
            rw [List.take_succ_cons, List.map_cons, List.prod_cons, ← Nat.mul_assoc]
            exact h n
        · have hn := h (n + 1)
          rwa [List.take_succ_cons, List.map_cons, List.prod_cons, ← Nat.mul_assoc] at hn
      · rw [checkedProduct, if_neg hle]
        refine iff_of_false nofun fun h => hle ?_
        have hone := h.1 1
        rwa [List.take_succ_cons, List.take_zero, List.map_cons, List.map_nil, List.prod_cons,
          List.prod_nil, Nat.mul_one] at hone
  have hone := hfol shape 1 (by norm_num [usizeMax])
  simp only [Nat.one_mul] at hone
  exact hone

/-- A type is known if its size is. -/
theorem knownDtype_iff {dtype : String} :
    knownDtype dtype = true ↔ ∃ size, dtypeSize dtype = some size := by
  have hkn : ∀ dtype ∈ ["BOOL", "U8", "I8", "I16", "U16", "I32", "U32", "I64", "U64", "F16",
      "BF16", "F32", "F64", "F8_E4M3", "F8_E4M3FN", "F8_E4M3FNUZ", "F8_E5M2", "F8_E5M2FNUZ",
      "F8_E8M0", "F8_E8M0FNU"], (dtypeSize dtype).isSome = true := by decide +kernel
  constructor
  · intro h
    exact isSome_iff_exists.mp (hkn dtype (List.contains_iff_mem.mp h))
  · rintro ⟨size, hsiz⟩
    have hin (l : List String) (hl : ∀ dtype ∈ l, knownDtype dtype = true)
        (h : l.contains dtype = true) : knownDtype dtype = true :=
      hl dtype (List.contains_iff_mem.mp h)
    unfold dtypeSize at hsiz
    split_ifs at hsiz with h1 h2 h4 h8
    · exact hin _ (by decide +kernel) h1
    · exact hin _ (by decide +kernel) h2
    · exact hin _ (by decide +kernel) h4
    · exact hin _ (by decide +kernel) h8

theorem Shard.inside_iff (shard : Shard) {stop : ℕ} :
    (shard.payloadStart + stop ≤ usizeMax ∧ ¬ shard.fileLen < shard.payloadStart + stop)
      ↔ stop ≤ shard.dataLen := by
  have hpay := shard.payload
  have hfit := shard.fits
  unfold dataLen
  omega

theorem pair?_eq_some {values : List Value} {p : Value × Value} :
    pair? values = some p ↔ values = [p.1, p.2] := by
  constructor
  · intro h
    match values, h with
    | [first, second], h => rw [← some.inj h]
  · rintro rfl
    rfl

/-- **An entry is accepted** if it describes a tensor of which the bytes are as they should be. -/
theorem parseTensor_eq_ok {shard : Shard} {entry : String × Value}
    {result : TensorSpan × String × TensorRef} :
    parseTensor shard entry = .ok result ↔
      ∃ t : Tensor, t.Describes entry ∧ t.Sized shard ∧ result = (t.span, t.ref shard) := by
  constructor
  · intro h
    obtain ⟨descriptor, hobj, h⟩ := bind_eq_ok.mp h
    obtain ⟨dtype, hdty, h⟩ := bind_eq_ok.mp h
    obtain ⟨dimensions, hdim, h⟩ := bind_eq_ok.mp h
    obtain ⟨shape, hsh, h⟩ := bind_eq_ok.mp h
    obtain ⟨⟨first, second⟩, hoff, h⟩ := bind_eq_ok.mp h
    obtain ⟨start, hst, h⟩ := bind_eq_ok.mp h
    obtain ⟨stop, hstp, h⟩ := bind_eq_ok.mp h
    obtain ⟨⟨⟩, hord, h⟩ := bind_eq_ok.mp h
    obtain ⟨absoluteEnd, hend, h⟩ := bind_eq_ok.mp h
    obtain ⟨⟨⟩, hins, h⟩ := bind_eq_ok.mp h
    obtain ⟨elements, hel, h⟩ := bind_eq_ok.mp h
    obtain ⟨size, hsiz, h⟩ := bind_eq_ok.mp h
    obtain ⟨expected, hexp, h⟩ := bind_eq_ok.mp h
    obtain ⟨⟨⟩, hlen, hres⟩ := bind_eq_ok.mp h
    obtain ⟨hdty, -⟩ := filter_eq_some_iff.mp (okOr_eq_ok.mp hdty)
    obtain ⟨vdtype, hvdt, hdty⟩ := bind_eq_some_iff.mp hdty
    obtain ⟨vshape, hvsh, hdms⟩ := bind_eq_some_iff.mp (okOr_eq_ok.mp hdim)
    obtain ⟨offsets, hoff, hpr⟩ := bind_eq_some_iff.mp (okOr_eq_ok.mp hoff)
    obtain ⟨voffsets, hvof, hoff⟩ := bind_eq_some_iff.mp hoff
    have hsh : dimensions = shape.map fun d => .number (.posInt d) :=
      Value.forall₂_asU64.mp ((mapM_eq_ok.mp hsh).imp fun _ _ => okOr_eq_ok.mp)
    obtain rfl := Value.asStr_eq_some.mp hdty
    obtain rfl := Value.asArray_eq_some.mp hdms
    obtain rfl := Value.asArray_eq_some.mp hoff
    obtain rfl := pair?_eq_some.mp hpr
    obtain rfl := Value.asU64_eq_some.mp (okOr_eq_ok.mp hst)
    obtain rfl := Value.asU64_eq_some.mp (okOr_eq_ok.mp hstp)
    obtain ⟨rfl, habs⟩ := checkedSum_eq_some.mp (okOr_eq_ok.mp hend)
    obtain ⟨hcom, rfl⟩ := elementCount_eq_some.mp (okOr_eq_ok.mp hel)
    obtain ⟨rfl, -⟩ := checkedProduct_eq_some.mp (okOr_eq_ok.mp hexp)
    refine ⟨⟨entry.1, dtype, shape, start, stop⟩, ⟨descriptor, ?_, hvdt, ?_, hvof⟩,
      ⟨not_lt.mp (refuse_eq_ok.mp hord),
        shard.inside_iff.mp ⟨habs, refuse_eq_ok.mp hins⟩, hcom, size,
        okOr_eq_ok.mp hsiz, not_not.mp (refuse_eq_ok.mp hlen)⟩, (Except.ok.inj hres).symm⟩
    · exact Prod.ext rfl (Value.asObject_eq_some.mp (okOr_eq_ok.mp hobj))
    · rw [hvsh, hsh]
  · rintro ⟨t, ⟨descriptor, rfl, hdty, hsh, hoff⟩, ⟨hordered, hins, hcom, size, hsiz, hlen⟩, rfl⟩
    obtain ⟨habs, hins⟩ := shard.inside_iff.mpr hins
    have hstp : t.stop.toNat ≤ usizeMax := by
      have := t.stop.toNat_lt
      norm_num [usizeMax]
      omega
    have hexp : (t.shape.map UInt64.toNat).prod * size ≤ usizeMax :=
      hlen ▸ (Nat.sub_le _ _).trans hstp
    have hkn : (((descriptor.lookup "dtype").bind Value.asStr).filter knownDtype)
        = some t.dtype := by
      have hknw : knownDtype t.dtype = true := knownDtype_iff.mpr ⟨size, hsiz⟩
      rw [hdty]
      exact filter_eq_some_iff.mpr ⟨rfl, hknw⟩
    refine bind_eq_ok.mpr ⟨descriptor, rfl, bind_eq_ok.mpr ⟨t.dtype, okOr_eq_ok.mpr hkn, ?_⟩⟩
    refine bind_eq_ok.mpr ⟨_, okOr_eq_ok.mpr (by rw [hsh]; rfl), ?_⟩
    refine bind_eq_ok.mpr ⟨t.shape, mapM_eq_ok.mpr ((Value.forall₂_asU64.mpr rfl).imp
      fun _ _ => okOr_eq_ok.mpr), ?_⟩
    refine bind_eq_ok.mpr ⟨_, okOr_eq_ok.mpr (by rw [hoff]; rfl), ?_⟩
    refine bind_eq_ok.mpr ⟨t.start, rfl, bind_eq_ok.mpr ⟨t.stop, rfl, ?_⟩⟩
    refine bind_eq_ok.mpr ⟨(), refuse_of_not (not_lt.mpr hordered), ?_⟩
    refine bind_eq_ok.mpr ⟨_, okOr_eq_ok.mpr (checkedSum_of_le habs), ?_⟩
    refine bind_eq_ok.mpr ⟨(), refuse_of_not hins, ?_⟩
    refine bind_eq_ok.mpr ⟨_, okOr_eq_ok.mpr (elementCount_eq_some.mpr ⟨hcom, rfl⟩), ?_⟩
    refine bind_eq_ok.mpr ⟨size, okOr_eq_ok.mpr hsiz, ?_⟩
    refine bind_eq_ok.mpr ⟨_, okOr_eq_ok.mpr (checkedProduct_of_le hexp), ?_⟩
    exact bind_eq_ok.mpr ⟨(), refuse_of_not (not_not.mpr hlen), rfl⟩

/-- **Neighbours are compared**, and no others. -/
theorem checkOverlap_eq_ok {shard : Shard} {spans : List TensorSpan} :
    checkOverlap shard spans = .ok () ↔ spans.IsChain fun a b => a.stop ≤ b.start := by
  induction spans with
  | nil => exact iff_of_true rfl List.IsChain.nil
  | cons first rest ih =>
    cases rest with
    | nil => exact iff_of_true rfl (List.IsChain.singleton _)
    | cons =>
      rw [checkOverlap, bind_eq_ok, List.isChain_cons_cons, ← ih]
      constructor
      · rintro ⟨⟨⟩, hfst, hres⟩
        exact ⟨not_lt.mp (refuse_eq_ok.mp hfst), hres⟩
      · rintro ⟨hfst, hres⟩
        exact ⟨(), refuse_eq_ok.mpr (not_lt.mpr hfst), hres⟩

/-! ## The whole header -/

variable {sort : SortByStart} {shard : Shard} {header : Object} {tensors : List Tensor}

/-- The entries of a header are accepted if the tensors that they describe are as they should be. -/
theorem mapM_parseTensor_eq_ok {results : List (TensorSpan × String × TensorRef)} :
    (header.fields.filter fun entry => entry.1 ≠ "__metadata__").mapM (parseTensor shard)
        = .ok results ↔ ∃ tensors, Describes header tensors ∧ (∀ t ∈ tensors, t.Sized shard) ∧
        results = tensors.map fun t => (t.span, t.ref shard) := by
  rw [mapM_eq_ok]
  unfold Describes
  generalize header.fields.filter (fun entry => entry.1 ≠ "__metadata__") = entries
  induction entries generalizing results with
  | nil =>
    rw [List.forall₂_nil_left_iff]
    constructor
    · rintro rfl
      exact ⟨[], List.Forall₂.nil, fun t ht => absurd ht List.not_mem_nil, rfl⟩
    · rintro ⟨tensors, hten, -, rfl⟩
      rw [List.forall₂_nil_left_iff.mp hten, List.map_nil]
  | cons entry entries ih =>
    rw [List.forall₂_cons_left_iff]
    constructor
    · rintro ⟨result, rest, hres, hrst, rfl⟩
      obtain ⟨t, hdes, hsiz, rfl⟩ := parseTensor_eq_ok.mp hres
      obtain ⟨tensors, hall, hszs, rfl⟩ := ih.mp hrst
      exact ⟨t :: tensors, List.Forall₂.cons hdes hall, List.forall_mem_cons.mpr ⟨hsiz, hszs⟩, rfl⟩
    · rintro ⟨tensors, hall, hszs, rfl⟩
      obtain ⟨t, tensors, hdes, hrst, rfl⟩ := List.forall₂_cons_left_iff.mp hall
      obtain ⟨hsiz, hszs⟩ := List.forall_mem_cons.mp hszs
      exact ⟨_, _, parseTensor_eq_ok.mpr ⟨t, hdes, hsiz, rfl⟩,
        ih.mpr ⟨tensors, hrst, hszs, rfl⟩, rfl⟩

/-- **A header is accepted** if its tensors are as they should be, and in the order of the sort each
of them ends before the next one starts. -/
theorem parseSafetensors_eq_ok {map : List (String × TensorRef)} :
    parseSafetensors sort shard header = .ok map ↔
      ∃ tensors, Describes header tensors ∧ (∀ t ∈ tensors, t.Sized shard) ∧
        ((sort.sort (tensors.map Tensor.span)).IsChain fun a b => a.stop ≤ b.start) ∧
        map = tensors.map (Tensor.ref shard) := by
  unfold parseSafetensors
  rw [bind_eq_ok]
  constructor
  · rintro ⟨results, hres, h⟩
    obtain ⟨tensors, hdes, hsiz, rfl⟩ := mapM_parseTensor_eq_ok.mp hres
    obtain ⟨⟨⟩, hov, h⟩ := bind_eq_ok.mp h
    rw [List.map_map] at hov
    refine ⟨tensors, hdes, hsiz, checkOverlap_eq_ok.mp hov, ?_⟩
    rw [← Except.ok.inj h, List.map_map]
    rfl
  · rintro ⟨tensors, hdes, hsiz, hch, rfl⟩
    refine ⟨_, mapM_parseTensor_eq_ok.mpr ⟨tensors, hdes, hsiz, rfl⟩, ?_⟩
    refine bind_eq_ok.mpr ⟨(), ?_, ?_⟩
    · rw [List.map_map]
      exact checkOverlap_eq_ok.mpr hch
    · rw [List.map_map]
      rfl

/-- An entry describes one tensor only. -/
theorem Tensor.Describes.eq {entry : String × Value} {t u : Tensor} (ht : t.Describes entry)
    (hu : u.Describes entry) : t = u := by
  obtain ⟨descriptor, rfl, hdty, hsh, hoff⟩ := ht
  obtain ⟨descriptor', heq, hdty', hsh', hoff'⟩ := hu
  obtain ⟨hnam, hdes⟩ := Prod.mk.inj heq
  obtain rfl := Value.object.inj hdes
  have hdtyp := Value.string.inj (some.inj (hdty.symm.trans hdty'))
  have hshp := Value.array.inj (some.inj (hsh.symm.trans hsh'))
  have hbot := Value.array.inj (some.inj (hoff.symm.trans hoff'))
  obtain ⟨hst, hres⟩ := List.cons.inj hbot
  obtain ⟨hstp, -⟩ := List.cons.inj hres
  have hinj : Function.Injective fun d : UInt64 => (Value.number (.posInt d)) :=
    fun a b h => Number.posInt.inj (Value.number.inj h)
  obtain ⟨name, dtype, shape, start, stop⟩ := t
  obtain ⟨name', dtype', shape', start', stop'⟩ := u
  obtain rfl := (hnam : name = name')
  obtain rfl := (hdtyp : dtype = dtype')
  obtain rfl := hinj hst
  obtain rfl := hinj hstp
  obtain rfl := List.map_injective_iff.mpr hinj hshp
  rfl

theorem Describes.eq {others : List Tensor} (h : Describes header tensors)
    (hoth : Describes header others) : tensors = others := by
  unfold Describes at h hoth
  generalize header.fields.filter (fun entry => entry.1 ≠ "__metadata__") = entries at h hoth
  induction h generalizing others with
  | nil => exact (List.forall₂_nil_left_iff.mp hoth).symm
  | cons hfst _ ih =>
    obtain ⟨t, rest, ht, hres, rfl⟩ := List.forall₂_cons_left_iff.mp hoth
    rw [hfst.eq ht, ih hres]

/-- **Neighbours do not overlap** if no two tensors share bytes, and no empty range is hidden. -/
theorem isChain_sort_iff (hsiz : ∀ t ∈ tensors, t.Sized shard) :
    ((sort.sort (tensors.map Tensor.span)).IsChain fun a b => a.stop ≤ b.start) ↔
      (tensors.Pairwise fun a b => Disjoint a.bytes b.bytes) ∧ Unhidden sort tensors := by
  have hval : ∀ a ∈ sort.sort (tensors.map Tensor.span), a.start ≤ a.stop := by
    intro a ha
    obtain ⟨t, ht, rfl⟩ := List.mem_map.mp ((sort.perm _).mem_iff.mp ha)
    exact (hsiz t ht).ordered
  rw [Intervals.isChain_iff_disjoint hval (sort.sorted _),
    (sort.perm _).pairwise_iff fun h => h.symm, List.pairwise_map]
  rfl

/-- **Acceptance is exact if and only if no empty range is hidden** in a header that is legal. -/
theorem exact_iff_unhidden (sort : SortByStart) (shard : Shard) (header : Object) :
    Exact sort shard header ↔
      ∀ tensors, Describes header tensors → Legal shard tensors → Unhidden sort tensors := by
  constructor
  · intro hex tensors hdes hleg
    obtain ⟨others, hoth, hsiz, hch, -⟩ :=
      parseSafetensors_eq_ok.mp ((hex _).mpr ⟨tensors, hdes, hleg, rfl⟩)
    obtain rfl := hdes.eq hoth
    exact ((isChain_sort_iff hsiz).mp hch).2
  · intro hunh map
    rw [parseSafetensors_eq_ok]
    constructor
    · rintro ⟨tensors, hdes, hsiz, hch, rfl⟩
      exact ⟨tensors, hdes, ⟨hsiz, ((isChain_sort_iff hsiz).mp hch).1⟩, rfl⟩
    · rintro ⟨tensors, hdes, hleg, rfl⟩
      exact ⟨tensors, hdes, hleg.sized, (isChain_sort_iff hleg.sized).mpr
        ⟨hleg.disjoint, hunh tensors hdes hleg⟩, rfl⟩

/-! ## An empty tensor inside another one -/

/-- The description of a tensor of bytes, of one dimension. -/
def bytesEntry (name : String) (dimension start stop : UInt64) : String × Value :=
  (name, .object [("data_offsets", .array [.number (.posInt start), .number (.posInt stop)]),
    ("dtype", .string "U8"), ("shape", .array [.number (.posInt dimension)])])

/-- A file with eight bytes of data. -/
def eightBytes : Shard := ⟨"model.safetensors", 108, 116, by decide, by norm_num [usizeMax]⟩

/-- Two tensors of four bytes, and an empty one between them. -/
def plainHeader : Object where
  fields := [bytesEntry "a" 4 0 4, bytesEntry "b" 0 4 4, bytesEntry "c" 4 4 8]
  distinct := by decide

/-- The merge sort does not hide it. -/
theorem exact_plainHeader : Exact .mergeSort eightBytes plainHeader := by
  refine (exact_iff_unhidden _ _ _).mpr fun tensors hdes _ => ?_
  have hpln : Describes plainHeader [⟨"a", "U8", [4], 0, 4⟩, ⟨"b", "U8", [0], 4, 4⟩,
      ⟨"c", "U8", [4], 4, 8⟩] :=
    List.Forall₂.cons ⟨_, rfl, rfl, rfl, rfl⟩ (List.Forall₂.cons ⟨_, rfl, rfl, rfl, rfl⟩
      (List.Forall₂.cons ⟨_, rfl, rfl, rfl, rfl⟩ List.Forall₂.nil))
  obtain rfl := hdes.eq hpln
  show (List.mergeSort _ _).Pairwise _
  rw [List.mergeSort_of_pairwise (by decide)]
  decide

/-- A tensor of eight bytes, and an empty one in the middle of it. -/
def hiddenHeader : Object where
  fields := [bytesEntry "a" 8 0 8, bytesEntry "b" 0 4 4]
  distinct := by decide

/-- **An empty tensor in the middle of another one is refused**, by any sort, though the header is
legal. -/
theorem not_exact_hiddenHeader :
    (∃ tensors, Describes hiddenHeader tensors ∧ Legal eightBytes tensors) ∧
      ¬ ∃ sort : SortByStart, Exact sort eightBytes hiddenHeader := by
  have hdes : Describes hiddenHeader [⟨"a", "U8", [8], 0, 8⟩, ⟨"b", "U8", [0], 4, 4⟩] :=
    List.Forall₂.cons ⟨_, rfl, rfl, rfl, rfl⟩
      (List.Forall₂.cons ⟨_, rfl, rfl, rfl, rfl⟩ List.Forall₂.nil)
  have hcom : ∀ d : UInt64, d.toNat ≤ u64Max →
      ∀ n, ((([d] : List UInt64).take n).map UInt64.toNat).prod ≤ u64Max := by
    intro d hd n
    cases n with
    | zero => norm_num [u64Max]
    | succ =>
      rwa [List.take_succ_cons, List.take_nil, List.map_singleton, List.prod_singleton]
  have hleg : Legal eightBytes [⟨"a", "U8", [8], 0, 8⟩, ⟨"b", "U8", [0], 4, 4⟩] := by
    refine ⟨?_, List.pairwise_pair.mpr ?_⟩
    · rintro t ht
      rcases List.mem_pair.mp ht with rfl | rfl
      · refine ⟨by decide, by decide, hcom _ (by decide), 1, by decide, by decide⟩
      · refine ⟨by decide, by decide, hcom _ (by decide), 1, by decide, by decide⟩
    · exact Set.disjoint_of_subset_right (Set.Ico_self _).subset (Set.disjoint_empty _)
  refine ⟨⟨_, hdes, hleg⟩, ?_⟩
  rintro ⟨sort, hex⟩
  have hunh := (exact_iff_unhidden sort _ _).mp hex _ hdes hleg
  -- in whatever order the two are, the second one is behind the first and starts inside of it
  have hbot := ((sort.sorted _).and hunh).imp fun {a b} h =>
    (Or.inl h : (a.start ≤ b.start ∧ (b.start = b.stop → a.stop ≤ b.start)) ∨
      (b.start ≤ a.start ∧ (a.start = a.stop → b.stop ≤ a.start)))
  have hpr := ((sort.perm _).pairwise_iff fun h => h.symm).mp hbot
  exact absurd (List.pairwise_pair.mp hpr) (by decide)

end Source

end Logan
