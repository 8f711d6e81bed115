import Logan.Llama.KvState

/-!
# Which bytes can be trusted as the state of a cache

A state that has been written is read back as it was (`Reachable.restores`): in all
caches that a new one can become, each layer has as many keys as values, of whole
rows (`Regular`).

Bytes of another origin do harm in two ways. Memory is reserved for as many numbers
as a layer says to have, before it is known whether they are there; and nothing
ties the number of keys to the number of tokens. Bytes can be trusted (`Trusted`)
if neither happens, and then they are read as they should be, and only then
(`decodes_iff_trusted`).
-/

namespace Logan

open List ByteCursor Metered Reader

namespace Llama

open Reads

variable {data : Vec 1 UInt8} {numLayers kvWidth : ℕ}

/-! ## What a new cache can become -/

/-- **All layers have as many keys as values**, of whole rows, and so have those of the history. The
number of tokens is a `usize`. -/
structure KvCache.Regular (numLayers kvWidth : ℕ) (cache : KvCache UInt32) : Prop where
  room : 48 * numLayers ≤ isizeMax
  widthFits : kvWidth ≤ usizeMax
  width : cache.keyWidth = kvWidth
  count : cache.layers.length = numLayers
  even : ∀ layer ∈ cache.layers, layer.Even kvWidth
  tokens : cache.processedTokens ≤ usizeMax
  past : ∀ s ∈ cache.history, s.checkpoint.processedTokens ≤ usizeMax ∧
    ∀ lengths ∈ s.layerLengths, lengths.1 = lengths.2 ∧ kvWidth ∣ lengths.1

/-- Layers that are cut to as many keys as values. -/
theorem even_truncateLayers {layers : List (LayerKv UInt32)} {lengths : List (ℕ × ℕ)}
    (hlay : ∀ layer ∈ layers, layer.Even kvWidth)
    (hlens : ∀ l ∈ lengths, l.1 = l.2 ∧ kvWidth ∣ l.1) :
    (truncateLayers layers lengths).2.length = layers.length ∧
      ∀ layer ∈ (truncateLayers layers lengths).2, layer.Even kvWidth := by
  induction layers generalizing lengths with
  | nil => exact ⟨rfl, hlay⟩
  | cons layer layers ih =>
    cases lengths with
    | nil => exact ⟨rfl, hlay⟩
    | cons l =>
      obtain ⟨keys, values⟩ := l
      obtain ⟨⟨heq, hdvd⟩, hlens⟩ := forall_mem_cons.mp hlens
      obtain ⟨hlyr, hres⟩ := forall_mem_cons.mp hlay
      rw [truncateLayers]
      split_ifs with hsh
      · exact ⟨rfl, hlay⟩
      · obtain ⟨hlen, hev⟩ := ih hres hlens
        refine ⟨congrArg Nat.succ hlen, forall_mem_cons.mpr ⟨⟨?_, ?_⟩, hev⟩⟩
        · obtain ⟨hk, hv⟩ := not_or.mp hsh
          rw [LayerKv.truncate, length_take, length_take,
            Nat.min_eq_left (not_lt.mp hk), Nat.min_eq_left (not_lt.mp hv)]
          exact heq
        · rwa [LayerKv.truncate, length_take, Nat.min_eq_left (not_lt.mp (not_or.mp hsh).1)]

namespace KvCache

variable {cache other : KvCache UInt32}

theorem regular_new (hlay : 48 * numLayers ≤ isizeMax) (hwid : kvWidth ≤ usizeMax) :
    (new numLayers kvWidth).Regular numLayers kvWidth where
  room := hlay
  widthFits := hwid
  width := rfl
  count := length_replicate
  even layer hlyr := by
    rw [eq_of_mem_replicate hlyr]
    exact ⟨rfl, dvd_zero _⟩
  tokens := Nat.zero_le _
  past s hs := absurd hs not_mem_nil

section

variable (h : cache.Regular numLayers kvWidth)

include h

theorem Regular.committed {keys values : List (List UInt32)}
    {rows : ℕ} (hacc : cache.Accepts keys values rows) :
    (cache.committed keys values rows).Regular numLayers kvWidth := by
  obtain ⟨⟨hkey, hval, -, -, hk, hv⟩, hcount⟩ := hacc
  refine ⟨h.room, h.widthFits, h.width, (length_extendLayers hkey hval).trans h.count, ?_, hcount,
    ?_⟩
  · intro layer hlay
    obtain ⟨l, hl, k, hkm, v, hvm, rfl⟩ := mem_extendLayers hkey hval hlay
    obtain ⟨hev, hdvd⟩ := h.even l hl
    refine ⟨?_, ?_⟩
    · rw [LayerKv.extend, length_append, length_append, hev, hk k hkm, hv v hvm]
    · rw [LayerKv.extend, length_append, hk k hkm, h.width]
      exact dvd_add hdvd (Nat.dvd_mul_left _ _)
  · intro s hs
    rcases mem_append.mp hs with hs | hs
    · exact h.past s hs
    · rw [mem_singleton.mp hs]
      refine ⟨h.tokens, fun lengths hlens => ?_⟩
      obtain ⟨layer, hlay, rfl⟩ := mem_map.mp hlens
      exact h.even layer hlay

theorem Regular.restore (checkpoint : KvCheckpoint) :
    (cache.restore checkpoint).2.Regular numLayers kvWidth := by
  unfold KvCache.restore
  split_ifs with hcur
  · exact h
  · cases hfin : cache.find checkpoint with
    | none => exact h
    | some s =>
      obtain ⟨hs, rfl⟩ := find_eq_some hfin
      obtain ⟨htok, hlens⟩ := h.past s hs
      obtain ⟨hlen, hev⟩ := even_truncateLayers h.even hlens
      dsimp only
      split_ifs with hcount
      · exact h
      · rcases htr : truncateLayers cache.layers s.layerLengths with ⟨e | ⟨⟩, layers⟩
        all_goals rw [htr] at hlen hev
        · exact ⟨h.room, h.widthFits, h.width, hlen.trans h.count, hev, h.tokens, h.past⟩
        · exact ⟨h.room, h.widthFits, h.width, hlen.trans h.count, hev, htok,
            fun s' hs' => h.past s' (mem_of_mem_filter hs')⟩

theorem Regular.call (call : KvCall UInt32) (hpan : (cache.call call).1 ≠ .error .panicked) :
    (cache.call call).2.Regular numLayers kvWidth := by
  cases call with
  | commit keys values rows =>
    rcases cache.commit_cases keys values rows with href | hpnc | hacc
    · rwa [KvCache.call, href]
    · refine absurd ?_ hpan
      rw [KvCache.call, hpnc]
      rfl
    · rw [KvCache.call, commit_of_accepts hacc]
      exact h.committed hacc
  | restore checkpoint => exact h.restore checkpoint
  | retainVerified checkpoint =>
    rw [KvCache.call, retainVerified]
    split_ifs
    · exact h
    · exact h.restore checkpoint
  | clear =>
    refine ⟨h.room, h.widthFits, h.width, (length_map _).trans h.count, ?_, Nat.zero_le _,
      fun s hs => absurd hs not_mem_nil⟩
    intro layer hlay
    obtain ⟨l, -, rfl⟩ := mem_map.mp hlay
    exact ⟨rfl, dvd_zero _⟩

/-- **What has been read**: the bytes are those of the layers, the generation and the number of
tokens. -/
theorem Regular.readState_eq_ok (hwid : kvWidth ≠ 0)
    {layers : List (LayerKv UInt32)} {generation processed : UInt64} :
    (cache.readState data).result = .ok (layers, generation, processed) ↔
      layers.length = numLayers ∧
        (∀ layer ∈ layers, layer.Even kvWidth ∧ 8 * layer.keys.length ≤ isizeMax) ∧
        data.toList = headerBytes numLayers kvWidth generation processed
          ++ layers.flatMap layerBytes := by
  have hwid' : cache.keyWidth ≠ 0 := h.width ▸ hwid
  have hle : cache.keyWidth ≤ usizeMax := h.width ▸ h.widthFits
  rw [readState, Reads.complete_eq_ok isDone_iff (reads_stateAt hwid' hle),
    rest_start, h.count, h.width]
  exact and_iff_right h.room

theorem Regular.deserializeState (hwid : kvWidth ≠ 0)
    (data : Vec 1 UInt8) : (cache.deserializeState data).2.Regular numLayers kvWidth := by
  unfold KvCache.deserializeState
  cases hrd : (cache.readState data).result with
  | error => exact h
  | ok state =>
    obtain ⟨layers, generation, processed⟩ := state
    obtain ⟨hlen, hev, -⟩ := (h.readState_eq_ok hwid).mp hrd
    refine ⟨h.room, h.widthFits, h.width, hlen, fun layer hlay => (hev layer hlay).1, ?_,
      fun s hs => absurd hs not_mem_nil⟩
    have hlt := processed.toNat_lt
    norm_num [usizeMax]
    omega

end

/-- **Every cache that a new one can become is regular.** -/
theorem Reachable.regular (hwid : kvWidth ≠ 0) (h : Reachable numLayers kvWidth cache) :
    cache.Regular numLayers kvWidth := by
  induction h with
  | new hlay hfit => exact regular_new hlay hfit
  | call _ call hpan ih => exact ih.call call hpan
  | deserializeState _ data _ ih => exact ih.deserializeState hwid data

/-! ## The round trip -/

theorem length_layerBytes {layer : LayerKv UInt32} (h : layer.Even kvWidth) :
    (layerBytes layer).length = 8 + 8 * layer.keys.length := by
  rw [layerBytes, length_append, length_u64Bytes, length_wordsBytes, length_append, ← h.1]
  omega

theorem keys_le_of_mem {layers : List (LayerKv UInt32)} {layer : LayerKv UInt32}
    (hmem : layer ∈ layers) (hev : layer.Even kvWidth) :
    8 * layer.keys.length ≤ (layers.flatMap layerBytes).length := by
  have hle : (layerBytes layer).length ≤ (layers.flatMap layerBytes).length := by
    rw [length_flatMap]
    exact single_le_sum (fun _ _ => Nat.zero_le _) _ (mem_map_of_mem hmem)
  rw [length_layerBytes hev] at hle
  exact (Nat.le_add_left _ _).trans hle

theorem fits_of_mem {l r : List UInt8} {layers : List (LayerKv UInt32)}
    (hdat : data.toList = l ++ layers.flatMap layerBytes ++ r)
    (hev : ∀ layer ∈ layers, layer.Even kvWidth) :
    ∀ layer ∈ layers, layer.Even kvWidth ∧ 8 * layer.keys.length ≤ isizeMax := by
  intro layer hlay
  refine ⟨hev layer hlay, (keys_le_of_mem hlay (hev layer hlay)).trans ?_⟩
  refine le_trans ?_ (length_lt_usize data)
  rw [hdat, length_append, length_append]
  omega

/-- **A cache has the state of another one**: its rows, its generation and its number of tokens. -/
def Restores (next cache : KvCache UInt32) : Prop :=
  next.layers = cache.layers ∧ next.generation = cache.generation ∧
    next.processedTokens = cache.processedTokens

/-- **The state of a cache is read back** into any cache of the same geometry, if there is a vector
that holds its bytes. -/
theorem Regular.restores (h : cache.Regular numLayers kvWidth)
    (hoth : other.Regular numLayers kvWidth) (hwid : kvWidth ≠ 0)
    (hdat : cache.serializeState = .ok data) : (other.deserializeState data).1.result = .ok () ∧
      (other.deserializeState data).2.Restores cache := by
  have hbytes : cache.stateBytes = data.toList := Vec.ofList_eq_ok.mp hdat
  unfold stateBytes at hbytes
  rw [h.count, h.width] at hbytes
  have hrd : (other.readState data).result
      = .ok (cache.layers, cache.generation, UInt64.ofNat cache.processedTokens) :=
    (hoth.readState_eq_ok hwid).mpr ⟨h.count,
      fits_of_mem (hbytes.symm.trans (List.append_nil _).symm) h.even, hbytes.symm⟩
  unfold KvCache.deserializeState
  rw [hrd]
  refine ⟨?_, rfl, rfl, toNat_ofNat_of_le h.tokens⟩
  rw [bind_result, hrd]
  rfl

/-! ## What is asked for -/

variable {n : ℕ}

theorem frugal_take (k : ℕ) : Frugal n (take k : Reader (ByteCursor data) KvError _) :=
  (frugal_takeOr _ _ k).mapError

theorem frugal_u64At : Frugal n (u64At : Reader (ByteCursor data) KvError _) :=
  (frugal_u64From frugal_arrayOr).mapError

theorem frugal_f32At : Frugal n (f32At : Reader (ByteCursor data) KvError _) :=
  (frugal_u32From frugal_arrayOr).mapError

theorem harmless_splitRows {values : List UInt32} {keyLen : ℕ}
    (hfit : 4 * values.length ≤ isizeMax) (hle : 4 * values.length ≤ n) :
    (splitRows values keyLen).Harmless n := by
  have htak : 4 * (values.take keyLen).length ≤ 4 * values.length :=
    Nat.mul_le_mul_left 4 (length_take_le' _ _)
  have hdr : 4 * (values.drop keyLen).length ≤ 4 * values.length := by
    rw [length_drop]
    exact Nat.mul_le_mul_left 4 (Nat.sub_le _ _)
  refine harmless_bind.mpr ⟨harmless_collect (htak.trans hfit) (htak.trans hle),
    fun _ _ => harmless_bind.mpr ⟨?_, fun _ _ => harmless_pure _⟩⟩
  exact harmless_collect (hdr.trans hfit) (hdr.trans hle)

/-- The numbers of a layer are read without harm, if there is room for them. -/
theorem harmless_numbers {keyLen : ℕ} {c : ByteCursor data} : Metered.Harmless n ((do
      let values ← vec 4 (keyLen * 2) f32At
      if values.toList.length < keyLen then panic
      else lift (splitRows values.toList keyLen) : Reader (ByteCursor data) KvError _) c)
      ↔ 8 * keyLen ≤ isizeMax ∧ 8 * keyLen ≤ n := by
  have hsiz : 4 * (keyLen * 2) = 8 * keyLen := by omega
  rw [harmless_bind_reader, frugal_f32At.harmless_vec, hsiz]
  refine and_iff_left_of_imp fun hrm values t hrd => ?_
  obtain ⟨_, ⟨hlen, rfl⟩, -⟩ := (Reads.vec reads_f32At (keyLen * 2) c values t).mp hrd
  rw [if_neg (by omega)]
  refine Frugal.lift (harmless_splitRows ?_ ?_) t
  · rw [hlen, hsiz]
    exact hrm.1
  · rw [hlen, hsiz]
    exact hrm.2

/-- **A layer is read without harm** if there is room for the numbers that it says to have. -/
theorem harmless_layerAt {width : ℕ} (hwid : width ≠ 0) {c : ByteCursor data} :
    (layerAt width c).Harmless n ↔ ∀ (keyLen : UInt64) (t : ByteCursor data),
      rest c = u64Bytes keyLen ++ rest t → width ∣ keyLen.toNat → keyLen.toNat * 2 ≤ usizeMax →
        8 * keyLen.toNat ≤ isizeMax ∧ 8 * keyLen.toNat ≤ n := by
  unfold layerAt
  rw [frugal_u64At.harmless_bind_reads reads_u64At]
  simp only [if_neg hwid]
  constructor
  · intro h keyLen t hres hdvd hpr
    have hnex := h keyLen _ t rfl hres
    rw [if_neg (not_not.mpr (Nat.mod_eq_zero_of_dvd hdvd)), checkedProduct_of_le hpr] at hnex
    exact harmless_numbers.mp hnex
  · rintro h keyLen _ t rfl hres
    split_ifs with hdvd
    · exact harmless_fail _
    · by_cases hpr : keyLen.toNat * 2 ≤ usizeMax
      · rw [checkedProduct_of_le hpr]
        exact harmless_numbers.mpr (h keyLen t hres (Nat.dvd_of_mod_eq_zero (not_not.mp hdvd)) hpr)
      · rw [checkedProduct, if_neg hpr]
        exact harmless_fail _

theorem harmless_rowsAt {c : ByteCursor data} : (rowsAt numLayers kvWidth c).Harmless n ↔
      ∀ (generation processed : UInt64) (t : ByteCursor data),
        rest c = u64Bytes generation ++ (u64Bytes processed ++ rest t) →
          (vec 48 numLayers (layerAt kvWidth) t).Harmless n := by
  have hres : ∀ (generation processed : UInt64) (t : ByteCursor data), ((do
        let restored ← vec 48 numLayers (layerAt kvWidth)
        pure (restored.toList, generation, processed) : Reader (ByteCursor data) KvError _)
          t).Harmless n ↔ (vec 48 numLayers (layerAt kvWidth) t).Harmless n :=
    fun generation processed t =>
      harmless_bind_reader.trans (and_iff_left fun _ _ _ => harmless_pure _)
  unfold rowsAt
  rw [frugal_u64At.harmless_bind_reads reads_u64At]
  constructor
  · intro h generation processed t hrst
    obtain ⟨u, hu⟩ := Source.advance c _ _ hrst
    have hnex := h generation _ u rfl (hrst.trans (congrArg _ hu.symm))
    rw [frugal_u64At.harmless_bind_reads reads_u64At] at hnex
    exact (hres _ _ _).mp (hnex processed _ t rfl hu)
  · rintro h generation _ u rfl hu
    rw [frugal_u64At.harmless_bind_reads reads_u64At]
    rintro processed _ t rfl ht
    exact (hres _ _ _).mpr (h generation processed t (hu.trans (congrArg _ ht)))

/-- **A state is read without harm** if its layers are. -/
theorem Regular.harmless_readState (h : cache.Regular numLayers kvWidth) :
    (cache.readState data).Harmless n ↔ ∀ (generation processed : UInt64) (t : ByteCursor data),
      data.toList = headerBytes numLayers kvWidth generation processed ++ rest t →
        (vec 48 numLayers (layerAt kvWidth) t).Harmless n := by
  have hlay : (UInt64.ofNat numLayers).toNat = numLayers := by
    have hrm := h.room
    refine toNat_ofNat_of_le ?_
    norm_num [isizeMax, usizeMax] at hrm ⊢
    omega
  have hwid : (UInt64.ofNat kvWidth).toNat = kvWidth := toNat_ofNat_of_le h.widthFits
  rw [readState, harmless_complete, stateAt, (frugal_take 8).harmless_bind_reads (reads_take 8),
    rest_start, h.count, h.width]
  constructor
  · intro hrd generation processed t hdat
    unfold headerBytes at hdat
    rw [append_assoc, append_assoc, append_assoc, append_assoc] at hdat
    obtain ⟨c, hc⟩ := Source.advance (start data) _ _ hdat
    obtain ⟨d, hd⟩ := Source.advance c _ _ hc
    obtain ⟨e, he⟩ := Source.advance d _ _ hd
    have haft := hrd kvMagic kvMagic c ⟨rfl, rfl⟩ (hdat.trans (congrArg _ hc.symm))
    rw [if_neg (not_not.mpr rfl), frugal_u64At.harmless_bind_reads reads_u64At] at haft
    have hnex := haft (UInt64.ofNat numLayers) _ d rfl (hc.trans (congrArg _ hd.symm))
    rw [frugal_u64At.harmless_bind_reads reads_u64At] at hnex
    have hrow := hnex (UInt64.ofNat kvWidth) _ e rfl (hd.trans (congrArg _ he.symm))
    rw [hlay, hwid, if_neg (not_or.mpr ⟨not_not.mpr rfl, not_not.mpr rfl⟩)] at hrow
    exact harmless_rowsAt.mp hrow generation processed t he
  · rintro hvec magic _ c ⟨-, rfl⟩ hc
    split_ifs with hmag
    · exact harmless_fail _
    · rw [frugal_u64At.harmless_bind_reads reads_u64At]
      rintro layers _ d rfl hd
      rw [frugal_u64At.harmless_bind_reads reads_u64At]
      rintro width _ e rfl he
      split_ifs with hgmt
      · exact harmless_fail _
      · obtain ⟨hl, hw⟩ := not_or.mp hgmt
        rw [not_not.mp hl, not_not.mp hw]
        refine harmless_rowsAt.mpr fun generation processed t ht => hvec generation processed t ?_
        unfold headerBytes
        rw [hc, hd, he, ht, not_not.mp hmag, ← not_not.mp hl, ← not_not.mp hw, UInt64.ofNat_toNat,
          UInt64.ofNat_toNat, append_assoc, append_assoc, append_assoc,
          append_assoc]

/-! ## Which bytes can be trusted -/

/-- **Bytes are decoded as they should be**, below a multiple of their number: there is a result, and
no more memory has been asked for; what is accepted is the state of a cache with a row for each token
in each layer; and if nothing is accepted, nothing changes. -/
structure Decodes (factor : ℕ) (cache : KvCache UInt32) (data : Vec 1 UInt8) : Prop where
  harmless : (cache.deserializeState data).1.Harmless (factor * data.toList.length)
  legal : (cache.deserializeState data).1.result = .ok () →
    ∃ saved : KvCache UInt32, saved.keyWidth = cache.keyWidth ∧ saved.processedTokens ≤ usizeMax ∧
      saved.RowsMatch cache.layers.length cache.keyWidth ∧ saved.serializeState = .ok data
  unchanged : ∀ e, (cache.deserializeState data).1.result = .error e →
    (cache.deserializeState data).2 = cache

/-- **Bytes can be trusted**, for a geometry and a limit of memory. After a header, the table of the
layers must not be larger than the limit; nor must the numbers be that the next layer says to have,
after layers that are as they should be and if they are a whole number of rows. And if the bytes are a
header and all layers, these have a key row for each token. -/
structure Trusted (factor numLayers kvWidth : ℕ) (bytes : List UInt8) : Prop where
  table : ∀ (generation processed : UInt64) (t : List UInt8),
    bytes = headerBytes numLayers kvWidth generation processed ++ t →
      48 * numLayers ≤ factor * bytes.length
  lengths : ∀ (generation processed : UInt64) (layers : List (LayerKv UInt32)) (keyLen : UInt64)
    (t : List UInt8),
    bytes = headerBytes numLayers kvWidth generation processed
        ++ layers.flatMap layerBytes ++ (u64Bytes keyLen ++ t) →
      layers.length < numLayers → (∀ layer ∈ layers, layer.Even kvWidth) →
        kvWidth ∣ keyLen.toNat → keyLen.toNat * 2 ≤ usizeMax →
          8 * keyLen.toNat ≤ isizeMax ∧ 8 * keyLen.toNat ≤ factor * bytes.length
  tokens : ∀ (generation processed : UInt64) (layers : List (LayerKv UInt32)),
    bytes = headerBytes numLayers kvWidth generation processed ++ layers.flatMap layerBytes →
      layers.length = numLayers → (∀ layer ∈ layers, layer.Even kvWidth) →
        ∀ layer ∈ layers, layer.keys.length = processed.toNat * kvWidth

/-- **No harm is done** if the table of the layers and the numbers of each of them are in the
limit. -/
theorem Regular.harmless_iff (h : cache.Regular numLayers kvWidth) (hwid : kvWidth ≠ 0) :
    (cache.readState data).Harmless n ↔ (∀ (generation processed : UInt64) (t : List UInt8),
        data.toList = headerBytes numLayers kvWidth generation processed ++ t →
          48 * numLayers ≤ n) ∧
      ∀ (generation processed : UInt64) (layers : List (LayerKv UInt32)) (keyLen : UInt64)
        (t : List UInt8), data.toList = headerBytes numLayers kvWidth generation processed
            ++ layers.flatMap layerBytes ++ (u64Bytes keyLen ++ t) →
          layers.length < numLayers → (∀ layer ∈ layers, layer.Even kvWidth) →
            kvWidth ∣ keyLen.toNat → keyLen.toNat * 2 ≤ usizeMax →
              8 * keyLen.toNat ≤ isizeMax ∧ 8 * keyLen.toNat ≤ n := by
  rw [h.harmless_readState]
  constructor
  · intro hvec
    refine ⟨fun generation processed t hdat => ?_,
      fun generation processed layers keyLen t hdat hlt hev => ?_⟩
    · obtain ⟨c, rfl⟩ := Source.advance (start data) _ _ hdat
      exact (harmless_vec_of.mp (hvec generation processed c hdat)).1.2
    · have hall := fits_of_mem hdat hev
      rw [append_assoc] at hdat
      obtain ⟨c, hc⟩ := Source.advance (start data) _ _ hdat
      obtain ⟨d, hd⟩ := Source.advance c _ _ hc
      obtain ⟨e, rfl⟩ := Source.advance d _ _ hd
      have htim := (harmless_vec_of.mp (hvec generation processed c (hdat.trans
        (congrArg _ hc.symm)))).2
      have hlay := (harmless_times (reads_layerAt hwid)).mp htim layers d hlt hall
        (hc.trans (congrArg _ hd.symm))
      exact (harmless_layerAt hwid).mp hlay keyLen e hd
  · rintro ⟨htab, hlens⟩ generation processed c hc
    refine harmless_vec_of.mpr ⟨⟨h.room, htab generation processed _ hc⟩,
      (harmless_times (reads_layerAt hwid)).mpr fun layers d hlt hall hd => ?_⟩
    refine (harmless_layerAt hwid).mpr fun keyLen e he => ?_
    refine hlens generation processed layers keyLen (rest e) ?_ hlt fun layer hlay =>
      (hall layer hlay).1
    rw [hc, hd, he, append_assoc]

/-- Nothing is asked for after all has been read. -/
theorem harmless_deserializeState :
    (cache.deserializeState data).1.Harmless n ↔ (cache.readState data).Harmless n :=
  harmless_bind.trans (and_iff_left fun _ _ => harmless_pure _)

theorem deserializeState_eq_ok : (cache.deserializeState data).1.result = .ok ()
      ↔ ∃ state, (cache.readState data).result = .ok state :=
  bind_eq_ok.trans (exists_congr fun _ => and_iff_left rfl)

/-- If nothing is accepted, nothing changes. -/
theorem deserializeState_of_error {e : Failure KvError}
    (he : (cache.deserializeState data).1.result = .error e) :
    (cache.deserializeState data).2 = cache := by
  unfold KvCache.deserializeState at he ⊢
  cases hrd : (cache.readState data).result with
  | error => rfl
  | ok =>
    rw [bind_result, hrd] at he
    cases he

/-- **What is accepted is legal** if all layers have a key row for each token. -/
theorem Regular.legal_iff (h : cache.Regular numLayers kvWidth) (hwid : kvWidth ≠ 0) :
    ((cache.deserializeState data).1.result = .ok () →
      ∃ saved : KvCache UInt32, saved.keyWidth = cache.keyWidth ∧ saved.processedTokens ≤ usizeMax ∧
        saved.RowsMatch cache.layers.length cache.keyWidth ∧ saved.serializeState = .ok data) ↔
      ∀ (generation processed : UInt64) (layers : List (LayerKv UInt32)),
        data.toList = headerBytes numLayers kvWidth generation processed
            ++ layers.flatMap layerBytes →
          layers.length = numLayers → (∀ layer ∈ layers, layer.Even kvWidth) →
            ∀ layer ∈ layers, layer.keys.length = processed.toNat * kvWidth := by
  rw [h.count, h.width]
  constructor
  · intro hleg generation processed layers hdat hlen hev
    have hrd : (cache.readState data).result = .ok (layers, generation, processed) :=
      (h.readState_eq_ok hwid).mpr ⟨hlen, fits_of_mem (hdat.trans (List.append_nil _).symm)
        hev, hdat⟩
    obtain ⟨saved, hsav, htok, ⟨hcount, hrow⟩, hbytes⟩ :=
      hleg (deserializeState_eq_ok.mpr ⟨_, hrd⟩)
    -- the bytes are read in one way only, so they are read as the saved cache
    have hbytes : saved.stateBytes = data.toList := Vec.ofList_eq_ok.mp hbytes
    unfold stateBytes at hbytes
    rw [hcount, hsav] at hbytes
    have hsvd : ∀ layer ∈ saved.layers, layer.Even kvWidth := fun layer hlay =>
      ⟨(hrow layer hlay).1.trans (hrow layer hlay).2.symm,
        (hrow layer hlay).1 ▸ Nat.dvd_mul_left _ _⟩
    have hsavedR : (cache.readState data).result
        = .ok (saved.layers, saved.generation, UInt64.ofNat saved.processedTokens) :=
      (h.readState_eq_ok hwid).mpr ⟨hcount, fits_of_mem (hbytes.symm.trans
        (List.append_nil _).symm) hsvd, hbytes.symm⟩
    obtain ⟨rfl, hres⟩ := Prod.mk.inj (Except.ok.inj (hrd.symm.trans hsavedR))
    cases hres
    intro layer hlay
    rw [toNat_ofNat_of_le htok]
    exact (hrow layer hlay).1
  · intro hkey hok
    obtain ⟨⟨layers, generation, processed⟩, hrd⟩ := deserializeState_eq_ok.mp hok
    obtain ⟨hlen, hall, hdat⟩ := (h.readState_eq_ok hwid).mp hrd
    have hrow := hkey generation processed layers hdat hlen fun layer hlay =>
      (hall layer hlay).1
    have hlt := processed.toNat_lt
    refine ⟨⟨layers, kvWidth, generation, processed.toNat, []⟩, rfl, ?_, ⟨hlen, ?_⟩, ?_⟩
    · norm_num [usizeMax]
      omega
    · exact fun layer hlay =>
        ⟨hrow layer hlay, (hall layer hlay).1.1 ▸ hrow layer hlay⟩
    · refine Vec.ofList_eq_ok.mpr ?_
      rw [stateBytes, hdat, hlen, UInt64.ofNat_toNat]

/-- **Serialized states**, of any cache that a new one can become. Its own bytes are read back, into
any other of the geometry, if there is a vector that holds them. Bytes of any origin are decoded as
they should be if and only if they can be trusted. -/
theorem decodes_iff_trusted (hwidth : 1 ≤ kvWidth) (h : Reachable numLayers kvWidth cache) :
    (cache.stateBytes.length ≤ isizeMax ↔ ∃ data, cache.serializeState = .ok data ∧
      ∀ other, Reachable numLayers kvWidth other → (other.deserializeState data).1.result = .ok () ∧
          (other.deserializeState data).2.Restores cache) ∧ ∀ (factor : ℕ) (data : Vec 1 UInt8),
        cache.Decodes factor data ↔ Trusted factor numLayers kvWidth data.toList := by
  have hpos : kvWidth ≠ 0 := Nat.one_le_iff_ne_zero.mp hwidth
  have hreg := h.regular hpos
  refine ⟨⟨fun hfit => ?_, ?_⟩, fun factor data => ?_⟩
  · have hdat : cache.serializeState = .ok ⟨cache.stateBytes, by rwa [Nat.one_mul]⟩ :=
      Vec.ofList_eq_ok.mpr rfl
    exact ⟨_, hdat, fun other hoth => hreg.restores (hoth.regular hpos) hpos hdat⟩
  · rintro ⟨data, hdat, -⟩
    rw [Vec.ofList_eq_ok.mp hdat]
    exact length_lt_usize data
  · constructor
    · rintro ⟨hhar, hleg, -⟩
      obtain ⟨htab, hlens⟩ :=
        (hreg.harmless_iff hpos).mp (harmless_deserializeState.mp hhar)
      exact ⟨htab, hlens, (hreg.legal_iff hpos).mp hleg⟩
    · rintro ⟨htab, hlens, htok⟩
      exact ⟨harmless_deserializeState.mpr ((hreg.harmless_iff hpos).mpr ⟨htab, hlens⟩),
        (hreg.legal_iff hpos).mpr htok, fun e => deserializeState_of_error⟩

/-! ## Bytes that cannot be trusted -/

/-- A state of one layer that claims a token, but has no row. -/
def tokenWithoutRow : Vec 1 UInt8 :=
  ⟨headerBytes 1 1 0 1 ++ u64Bytes 0, by decide⟩

/-- A state of one layer that claims to have 2⁶¹ keys. -/
def endlessLayer : Vec 1 UInt8 :=
  ⟨headerBytes 1 1 0 0 ++ u64Bytes 0x2000000000000000, by decide⟩

theorem reachable_one : Reachable 1 1 (new 1 1) :=
  Reachable.new (by norm_num [isizeMax]) (by norm_num [usizeMax])

/-- **A token without a row is accepted**, and a number of keys that no vector can have is a panic,
whatever the limit of memory. So not all bytes are decoded as they should be. -/
theorem not_decodes_tokenWithoutRow :
    ((new 1 1).deserializeState tokenWithoutRow).1.result = .ok () ∧
      ((new 1 1).deserializeState tokenWithoutRow).2.layers = [⟨[], []⟩] ∧
      ((new 1 1).deserializeState tokenWithoutRow).2.processedTokens = 1 ∧
      ((new 1 1).deserializeState endlessLayer).1.result = .error .panic ∧
      ¬ ∃ factor, ∀ (numLayers kvWidth : ℕ) (cache : KvCache UInt32) (data : Vec 1 UInt8),
        1 ≤ kvWidth → Reachable numLayers kvWidth cache → cache.Decodes factor data := by
  refine ⟨by decide +kernel, by decide +kernel, by decide +kernel, by decide +kernel, ?_⟩
  rintro ⟨factor, hall⟩
  have hdec := hall 1 1 (new 1 1) tokenWithoutRow le_rfl reachable_one
  have htok := ((reachable_one.regular one_ne_zero).legal_iff one_ne_zero).mp hdec.legal
  have hkey := htok 0 1 [⟨[], []⟩] (by decide) rfl (by decide) ⟨[], []⟩ (by decide)
  exact absurd hkey (by decide)

/-- The state of a cache with a row in its one layer is read back; bytes that cannot be trusted are
not decoded as they should be. -/
theorem decodes_iff_trusted_one :
    (∃ data, (committed (new 1 1) [[5]] [[6]] 1).serializeState = .ok data ∧
        ∀ other, Reachable 1 1 other → (other.deserializeState data).1.result = .ok () ∧
          (other.deserializeState data).2.Restores (committed (new 1 1) [[5]] [[6]] 1)) ∧
      ¬ (new 1 1).Decodes 64 tokenWithoutRow := by
  have hcom : Reachable 1 1 (committed (new 1 1) [[5]] [[6]] 1) :=
    Reachable.call reachable_one (.commit [[5]] [[6]] 1) (by decide)
  refine ⟨(decodes_iff_trusted le_rfl hcom).1.mp (by decide +kernel), fun h => ?_⟩
  have htr := ((decodes_iff_trusted le_rfl reachable_one).2 64 tokenWithoutRow).mp h
  exact absurd (htr.tokens 0 1 [⟨[], []⟩] (by decide) rfl (by decide) ⟨[], []⟩ (by decide))
    (by decide)

end KvCache

end Llama

end Logan
