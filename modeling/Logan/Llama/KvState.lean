import Logan.Llama.Kv
import Logan.State.ByteCursor

/-!
# The state of a cache as bytes

For a persistent snapshot, the rows of a cache are written as bytes
(`KvCache.serializeState`): a header, and for each layer the number of its keys,
the keys and the values. They are read back (`KvCache.deserializeState`) into a
cache with as many layers of the same width, of which nothing is changed unless
all bytes could be read.

A row is a list of numbers, of which the bits are read and written. The memory
that is asked for while bytes are read is kept track of.
-/

namespace Logan

open List ByteCursor Reader
open UInt64 (ofNat ofNat_toNat)

namespace Llama

open Reads

/-- `b"LOGANKV1"` -/
def kvMagic : List UInt8 := [0x4c, 0x4f, 0x47, 0x41, 0x4e, 0x4b, 0x56, 0x31]

/-- The bytes of a layer: the number of keys, the keys and the values. -/
def layerBytes (layer : LayerKv UInt32) : List UInt8 :=
  u64Bytes (ofNat layer.keys.length) ++ wordsBytes (layer.keys ++ layer.values)

/-- The bytes before the layers. -/
def headerBytes (numLayers kvWidth : ℕ) (generation processed : UInt64) : List UInt8 :=
  kvMagic ++ (u64Bytes (ofNat numLayers) ++ (u64Bytes (ofNat kvWidth) ++
    (u64Bytes generation ++ u64Bytes processed)))

namespace KvCache

variable (cache : KvCache UInt32)

/-- The bytes of a cache. -/
def stateBytes : List UInt8 :=
  headerBytes cache.layers.length cache.keyWidth cache.generation
    (ofNat cache.processedTokens) ++ cache.layers.flatMap layerBytes

/-- `serialize_state` -/
def serializeState : Except (Failure KvError) (Vec 1 UInt8) :=
  Vec.ofList 1 cache.stateBytes

/-! ## Reading -/

variable {data : Vec 1 UInt8}

/-- `take`: there is one error for an offset that overflows and for one that is beyond the end. -/
def take (n : ℕ) : Reader (ByteCursor data) KvError (List UInt8) :=
  (takeOr "overflow" "truncated" n).mapError fun _ => .invalidShape

/-- `u64_at` -/
def u64At : Reader (ByteCursor data) KvError UInt64 :=
  (u64From (arrayOr "overflow" "truncated" (fail "length"))).mapError fun _ => .invalidShape

/-- `f32::from_le_bytes` of four bytes, by its bits. -/
def f32At : Reader (ByteCursor data) KvError UInt32 :=
  (u32From (arrayOr "overflow" "truncated" (fail "length"))).mapError fun _ => .invalidShape

/-- The keys and the values of a layer, out of all its numbers. -/
def splitRows (values : List UInt32) (keyLen : ℕ) : Metered KvError (LayerKv UInt32) := do
  let keys ← Metered.collect 4 (values.take keyLen)
  let vals ← Metered.collect 4 (values.drop keyLen)
  pure ⟨keys.toList, vals.toList⟩

/-- The body of the loop over the layers. To take the remainder of a division by zero is a panic,
and so is a slice beyond the end of a vector. -/
def layerAt (width : ℕ) : Reader (ByteCursor data) KvError (LayerKv UInt32) := do
  let keyLen ← u64At
  if width = 0 then panic
  else if keyLen.toNat % width ≠ 0 then fail .invalidShape
  else match checkedProduct keyLen.toNat 2 with
    | none => fail .invalidShape
    | some floatCount => do
      let values ← vec 4 floatCount f32At
      if values.toList.length < keyLen.toNat then panic
      else lift (splitRows values.toList keyLen.toNat)

/-- What is read after the geometry: the layers, the generation and the number of tokens. A layer
takes 48 bytes in a vector, without its rows. -/
def rowsAt (numLayers width : ℕ) :
    Reader (ByteCursor data) KvError (List (LayerKv UInt32) × UInt64 × UInt64) := do
  let generation ← u64At
  let processed ← u64At
  let restored ← vec 48 numLayers (layerAt width)
  pure (restored.toList, generation, processed)

/-- What is read from the bytes, if they are of the geometry of the cache. -/
def stateAt :
    Reader (ByteCursor data) KvError (List (LayerKv UInt32) × UInt64 × UInt64) := do
  let magic ← take 8
  if magic ≠ kvMagic then fail .invalidShape
  else do
    let layers ← u64At
    let width ← u64At
    if layers.toNat ≠ cache.layers.length ∨ width.toNat ≠ cache.keyWidth then
      fail .invalidShape
    else rowsAt layers.toNat width.toNat

/-- The same, and no bytes are left. -/
def readState (data : Vec 1 UInt8) :
    Metered KvError (List (LayerKv UInt32) × UInt64 × UInt64) :=
  (stateAt cache).complete isDone .invalidShape (start data)

/-- `deserialize_state`: what has been read takes the place of the state, and the history is
cleared. -/
def deserializeState (cache : KvCache UInt32) (data : Vec 1 UInt8) :
    Metered KvError Unit × KvCache UInt32 :=
  (cache.readState data >>= fun _ => pure (),
    match (cache.readState data).result with
    | .ok (layers, generation, processed) => { cache with
        layers := layers
        generation := generation
        processedTokens := processed.toNat
        history := [] }
    | .error _ => cache)

/-- **The caches that a new one can become**, by calls and by bytes that are read into it. The
vector of its layers has been made. -/
inductive Reachable (numLayers kvWidth : ℕ) : KvCache UInt32 → Prop
  | new (hlayers : 48 * numLayers ≤ isizeMax) (hwidth : kvWidth ≤ usizeMax) :
    Reachable numLayers kvWidth (new numLayers kvWidth)
  | call {cache : KvCache UInt32} (h : Reachable numLayers kvWidth cache) (call : KvCall UInt32)
    (hpanic : (cache.call call).1 ≠ .error .panicked) :
    Reachable numLayers kvWidth (cache.call call).2
  | deserializeState {cache : KvCache UInt32} (h : Reachable numLayers kvWidth cache)
    (data : Vec 1 UInt8) (hreturns : (cache.deserializeState data).1.Returns) :
    Reachable numLayers kvWidth (cache.deserializeState data).2

end KvCache

/-! ## What is read -/

/-- **As many keys as values**, of whole rows. -/
def LayerKv.Even (kvWidth : ℕ) (layer : LayerKv UInt32) : Prop :=
  layer.keys.length = layer.values.length ∧ kvWidth ∣ layer.keys.length

instance LayerKv.decidableEven (kvWidth : ℕ) (layer : LayerKv UInt32) :
    Decidable (layer.Even kvWidth) :=
  inferInstanceAs (Decidable (_ ∧ _))

namespace KvCache

theorem reads_take (n : ℕ) :
    Reads (take n : Reader (ByteCursor data) KvError _) (fun l w => l.length = n ∧ w = l) :=
  (reads_takeOr _ _ n).mapError

theorem reads_u64At :
    Reads (u64At : Reader (ByteCursor data) KvError _) (fun x w => w = u64Bytes x) :=
  (reads_u64From (reads_arrayOr (Reads.fail _))).mapError

theorem reads_f32At :
    Reads (f32At : Reader (ByteCursor data) KvError _) (fun x w => w = u32Bytes x) :=
  (reads_u32From (reads_arrayOr (Reads.fail _))).mapError

/-- The numbers are split after the keys, and there is room for both parts. -/
theorem splitRows_eq_ok {values : List UInt32} {keyLen : ℕ} (hfit : 4 * values.length ≤ isizeMax)
    {layer : LayerKv UInt32} :
    (splitRows values keyLen).result = .ok layer
      ↔ layer = ⟨values.take keyLen, values.drop keyLen⟩ := by
  have htak : 4 * (values.take keyLen).length ≤ isizeMax :=
    (Nat.mul_le_mul_left 4 (length_take_le' _ _)).trans hfit
  have hdr : 4 * (values.drop keyLen).length ≤ isizeMax := by
    rw [length_drop]
    exact (Nat.mul_le_mul_left 4 (Nat.sub_le _ _)).trans hfit
  unfold splitRows
  rw [Metered.bind_eq_ok]
  constructor
  · rintro ⟨keys, hkey, h⟩
    obtain ⟨vals, hval, h⟩ := Metered.bind_eq_ok.mp h
    rw [Metered.collect_eq_ok.mp hkey, Metered.collect_eq_ok.mp hval]
    exact (Except.ok.inj h).symm
  · rintro rfl
    exact ⟨⟨_, htak⟩, Metered.collect_eq_ok.mpr rfl,
      Metered.bind_eq_ok.mpr ⟨⟨_, hdr⟩, Metered.collect_eq_ok.mpr rfl, rfl⟩⟩

/-- What is read after a product that does not overflow. -/
theorem reads_checkedProduct {A : Type} {a b : ℕ} {e : KvError}
    {r : ℕ → Reader (ByteCursor data) KvError A} {W : A → List UInt8 → Prop}
    (hr : Reads (r (a * b)) W) : Reads (match checkedProduct a b with
        | none => fail e
        | some c => r c) (fun x w => a * b ≤ usizeMax ∧ W x w) := by
  by_cases hle : a * b ≤ usizeMax
  · rw [checkedProduct_of_le hle]
    exact hr.congr fun x w => (and_iff_right hle).symm
  · rw [checkedProduct, if_neg hle]
    exact (Reads.fail e).congr fun x w => iff_of_false id fun h => hle h.1

theorem toNat_ofNat_of_le {n : ℕ} (h : n ≤ usizeMax) : (ofNat n).toNat = n := by
  rw [UInt64.toNat_ofNat']
  refine Nat.mod_eq_of_lt (h.trans_lt ?_)
  norm_num [usizeMax]

/-- **A layer is read** that has as many keys as values, of whole rows. -/
theorem reads_layerAt {width : ℕ} (hwid : width ≠ 0) :
    Reads (layerAt width : Reader (ByteCursor data) KvError _)
      (fun layer w => (layer.Even width ∧ 8 * layer.keys.length ≤ isizeMax)
        ∧ w = layerBytes layer) := by
  unfold layerAt
  simp only [if_neg hwid]
  refine (Reads.bind_written reads_u64At fun keyLen => Reads.guard (reads_checkedProduct
    (Reads.bind (Reads.vec reads_f32At (keyLen.toNat * 2)) fun values =>
      Reads.guard_panic Reads.lift))).congr fun layer w => ?_
  constructor
  · rintro ⟨keyLen, _, ⟨hdvd, -, values, _, _, ⟨hlen, rfl⟩, ⟨-, hspl, rfl⟩, rfl⟩, rfl⟩
    obtain rfl := (splitRows_eq_ok values.fits).mp hspl
    have hfit := values.fits
    have hkey : (values.toList.take keyLen.toNat).length = keyLen.toNat := by
      rw [length_take, hlen]
      exact Nat.min_eq_left (Nat.le_mul_of_pos_right _ Nat.two_pos)
    refine ⟨⟨⟨?_, ?_⟩, ?_⟩, ?_⟩
    · rw [hkey, length_drop, hlen, Nat.mul_two, Nat.add_sub_cancel]
    · rw [hkey]
      exact Nat.dvd_of_mod_eq_zero (not_not.mp hdvd)
    · rw [hkey]
      omega
    · unfold layerBytes
      rw [hkey, ofNat_toNat, take_append_drop, List.append_nil]
      rfl
  · rintro ⟨⟨⟨hev, hdvd⟩, hfit⟩, rfl⟩
    have hlen : (layer.keys ++ layer.values).length = layer.keys.length * 2 := by
      rw [length_append, ← hev, Nat.mul_two]
    have hle : layer.keys.length * 2 ≤ usizeMax := by
      norm_num [isizeMax, usizeMax] at hfit ⊢
      omega
    have hnat : (ofNat layer.keys.length).toNat = layer.keys.length :=
      toNat_ofNat_of_le ((Nat.le_mul_of_pos_right _ Nat.two_pos).trans hle)
    have hall : 4 * (layer.keys ++ layer.values).length ≤ isizeMax := by
      rw [hlen]
      omega
    refine ⟨ofNat layer.keys.length, _, ⟨?_, ?_, ⟨layer.keys ++ layer.values, hall⟩, _, [],
      ⟨?_, rfl⟩, ⟨?_, ?_, rfl⟩, (List.append_nil _).symm⟩, rfl⟩
    · rw [hnat]
      exact not_not.mpr (Nat.mod_eq_zero_of_dvd hdvd)
    · rwa [hnat]
    · rw [hnat]
      exact hlen
    · rw [hnat, hlen]
      exact Nat.not_lt.mpr (Nat.le_mul_of_pos_right _ Nat.two_pos)
    · refine (splitRows_eq_ok hall).mpr ?_
      rw [hnat, take_left, drop_left]

/-- **The layers are read** in their vector. -/
theorem reads_layers {numLayers width : ℕ} (hwid : width ≠ 0) :
    Reads (vec 48 numLayers (layerAt width) : Reader (ByteCursor data) KvError _)
      (fun v w => v.toList.length = numLayers ∧
        (∀ layer ∈ v.toList, layer.Even width ∧ 8 * layer.keys.length ≤ isizeMax)
        ∧ w = v.toList.flatMap layerBytes) :=
  Reads.vec_of (reads_layerAt hwid) numLayers

/-- The rows of a state are read for a given geometry. -/
theorem reads_rowsAt {numLayers width : ℕ} (hwid : width ≠ 0) :
    Reads (rowsAt numLayers width : Reader (ByteCursor data) KvError _)
      (fun state w => 48 * numLayers ≤ isizeMax ∧ state.1.length = numLayers ∧
        (∀ layer ∈ state.1, layer.Even width ∧ 8 * layer.keys.length ≤ isizeMax) ∧
        w = u64Bytes state.2.1 ++ (u64Bytes state.2.2 ++ state.1.flatMap layerBytes)) := by
  refine (Reads.bind_written reads_u64At fun generation => Reads.bind_written reads_u64At
    fun processed => Reads.bind (reads_layers hwid) fun restored => Reads.pure _).congr
      fun state w => ?_
  constructor
  · rintro ⟨generation, _, ⟨processed, _, ⟨restored, _, _, ⟨rfl, hall, rfl⟩, ⟨rfl, rfl⟩, rfl⟩, rfl⟩,
      rfl⟩
    exact ⟨restored.fits, rfl, hall, by rw [List.append_nil]⟩
  · obtain ⟨layers, generation, processed⟩ := state
    rintro ⟨hrm, rfl, hall, rfl⟩
    exact ⟨generation, _, ⟨processed, _, ⟨⟨layers, hrm⟩, _, [], ⟨rfl, hall, rfl⟩, ⟨rfl, rfl⟩,
      (List.append_nil _).symm⟩, rfl⟩, rfl⟩

/-- **A state is read** that is of the geometry of the cache. -/
theorem reads_stateAt {cache : KvCache UInt32} (hwid : cache.keyWidth ≠ 0)
    (hle : cache.keyWidth ≤ usizeMax) : Reads (stateAt cache : Reader (ByteCursor data) KvError _)
      (fun state w => 48 * cache.layers.length ≤ isizeMax ∧ state.1.length = cache.layers.length ∧
        (∀ layer ∈ state.1, layer.Even cache.keyWidth ∧ 8 * layer.keys.length ≤ isizeMax) ∧
        w = headerBytes cache.layers.length cache.keyWidth state.2.1 state.2.2
          ++ state.1.flatMap layerBytes) := by
  refine (Reads.bind (reads_take 8) fun magic => Reads.guard
    (Reads.bind_written reads_u64At fun layers => Reads.bind_written reads_u64At fun width =>
      Reads.guard_of fun hgmt => reads_rowsAt ?_)).congr fun state w => ?_
  · rwa [not_not.mp (not_or.mp hgmt).2]
  · constructor
    · rintro ⟨magic, _, _, ⟨-, rfl⟩, ⟨hmag, layers, _, ⟨width, _, ⟨hgmt, hrm, hlen, hall,
        rfl⟩, rfl⟩, rfl⟩, rfl⟩
      obtain ⟨hlay, hwdt⟩ := not_or.mp hgmt
      rw [not_not.mp hlay] at hrm hlen
      rw [not_not.mp hwdt] at hall
      refine ⟨hrm, hlen, hall, ?_⟩
      unfold headerBytes
      rw [not_not.mp hmag, ← not_not.mp hlay, ← not_not.mp hwdt, ofNat_toNat,
        ofNat_toNat, append_assoc, append_assoc, append_assoc,
        append_assoc]
    · rintro ⟨hrm, hlen, hall, rfl⟩
      have hlay : (ofNat cache.layers.length).toNat = cache.layers.length := by
        refine toNat_ofNat_of_le ?_
        norm_num [isizeMax, usizeMax] at hrm ⊢
        omega
      have hwdt := toNat_ofNat_of_le hle
      refine ⟨kvMagic, kvMagic, _, ⟨rfl, rfl⟩, ⟨not_not.mpr rfl, ofNat cache.layers.length, _,
        ⟨ofNat cache.keyWidth, _, ⟨?_, ?_, ?_, ?_, rfl⟩, rfl⟩, rfl⟩, ?_⟩
      · rw [hlay, hwdt]
        exact not_or.mpr ⟨not_not.mpr rfl, not_not.mpr rfl⟩
      · rwa [hlay]
      · rw [hlay]
        exact hlen
      · rwa [hwdt]
      · unfold headerBytes
        rw [append_assoc, append_assoc, append_assoc, append_assoc]

end KvCache

end Llama

end Logan
