import Logan.Util.Nearest
import Logan.Util.Single

/-!
# Four bits for a number

A group of numbers is quantised with one scale, a power of two, and four bits
for each: the sign, and which of eight magnitudes comes nearest to the number in
units of the scale. Numbers are given by their bits in single precision, and
quotients and differences are exact.

The scale is the smallest for which no number is above the largest magnitude:
its exponent is that of the greatest number, less two, unless the greatest
number is in the last quarter before the next power of two, and never below
the smallest that is decoded. Then a number is never clipped, so that the
error is at most half of the gap between two magnitudes, in units of the scale.
-/

namespace Logan

namespace Mxfp4

open Single

/-! ## The model -/

/-- `GROUP_SIZE` -/
def groupSize : ℕ := 32

/-- `MAX_E2M1` -/
def maxE2m1 : ℚ := 6

/-- `E2M1_MAGNITUDES` -/
def e2m1Magnitudes : List ℚ := [0, 1 / 2, 1, 3 / 2, 2, 3, 4, 6]

/-- `u32::leading_zeros` -/
def leadingZeros (n : UInt32) : ℕ := if n = 0 then 32 else 31 - n.toNat.log2

/-- `runtime_e8m0_to_f32` -/
def runtimeE8m0ToF32 (code : UInt8) : UInt32 := code.toUInt32 <<< 23

/-- `(exp + 127) as u8` -/
def scaleCode (exp : ℤ) : UInt8 := UInt8.ofNat (exp + 127).toNat

/-- `choose_scale_from_max`: the code of the scale, and the scale. -/
def chooseScaleFromMax (maxAbs : UInt32) : UInt8 × UInt32 :=
  if value maxAbs = 0 then (127, 0x3f800000)
  else
    let biased : ℤ := ((maxAbs >>> 23) &&& 0xff).toNat
    let maxExp : ℤ :=
      if biased = 0 then (31 - (leadingZeros (maxAbs &&& 0x007fffff) : ℤ)) - 149
      else biased - 127
    let scaleExp := max (-126) (min (maxExp - 2) 127)
    if value maxAbs > maxE2m1 * value (runtimeE8m0ToF32 (scaleCode scaleExp)) ∧ scaleExp < 127 then
      (scaleCode (scaleExp + 1), runtimeE8m0ToF32 (scaleCode (scaleExp + 1)))
    else (scaleCode scaleExp, runtimeE8m0ToF32 (scaleCode scaleExp))

/-- `choose_scale` -/
def chooseScale (values : List UInt32) : UInt8 × UInt32 :=
  chooseScaleFromMax (values.foldl (fun acc value => fmax acc (fabs value)) 0)

/-- One round of the loop of `quantize_value`, over the best code and its error. -/
def searchStep (magnitude : ℚ) (best : ℕ × WithTop ℚ) (candidate : ℚ × ℕ) : ℕ × WithTop ℚ :=
  let error : WithTop ℚ := (|magnitude - candidate.1| : ℚ)
  if error < best.2 ∨ (error = best.2 ∧ candidate.2 % 2 = 0 ∧ best.1 % 2 ≠ 0) then
    (candidate.2, error)
  else best

/-- `quantize_value` -/
def quantizeValue (bits scale : UInt32) : UInt8 :=
  let magnitude := min (value (fabs bits) / value scale) maxE2m1
  let best := (e2m1Magnitudes.zipIdx.foldl (searchStep magnitude) (0, ⊤)).1
  if isSignNegative bits then UInt8.ofNat best ||| 0x8 else UInt8.ofNat best

/-- `decode_nibble` -/
def decodeNibble (code scale : UInt8) : ℚ :=
  let magnitude := e2m1Magnitudes.getD (code &&& 0x7).toNat 0
  (if code &&& 0x8 ≠ 0 then -magnitude else magnitude) * value (runtimeE8m0ToF32 scale)

/-! ## Scales -/

theorem toNat_runtimeE8m0ToF32 (code : UInt8) :
    (runtimeE8m0ToF32 code).toNat = code.toNat * 2 ^ 23 := by
  have hlt := code.toNat_lt
  unfold runtimeE8m0ToF32
  rw [UInt32.toNat_shiftLeft, UInt8.toNat_toUInt32]
  show code.toNat <<< 23 % 2 ^ 32 = _
  rw [Nat.shiftLeft_eq, Nat.mod_eq_of_lt (by omega)]

/-- **The value of a scale.** -/
theorem value_runtimeE8m0ToF32 {code : UInt8} (h : code ≠ 0) :
    value (runtimeE8m0ToF32 code) = 2 ^ ((code.toNat : ℤ) - 127) := by
  have hlt := code.toNat_lt
  have hne : code.toNat ≠ 0 := fun hzer => h (UInt8.toNat_inj.mp hzer)
  have htnt := toNat_runtimeE8m0ToF32 code
  rw [value_of_lt (by omega), htnt, magnitude_two_pow hne]

theorem toNat_scaleCode {exp : ℤ} (hlow : -126 ≤ exp) (hhig : exp ≤ 127) :
    ((scaleCode exp).toNat : ℤ) = exp + 127 := by
  unfold scaleCode
  rw [UInt8.toNat_ofNat', Nat.mod_eq_of_lt (by omega), Int.toNat_of_nonneg (by omega)]

theorem value_scaleCode {exp : ℤ} (hlow : -126 ≤ exp) (hhig : exp ≤ 127) :
    value (runtimeE8m0ToF32 (scaleCode exp)) = 2 ^ exp := by
  have htnt := toNat_scaleCode hlow hhig
  have hne : scaleCode exp ≠ 0 := fun hzer => by
    rw [hzer] at htnt
    have : (0 : ℤ) = exp + 127 := htnt
    omega
  rw [value_runtimeE8m0ToF32 hne, htnt, add_sub_cancel_right]

/-- **The smallest scale for a magnitude**, of those that are decoded. -/
structure SmallestScale (greatest : ℚ) (code : ℕ) : Prop where
  one_le : 1 ≤ code
  le : code ≤ 254
  holds : greatest ≤ 6 * 2 ^ ((code : ℤ) - 127)
  smallest : ∀ c : ℕ, 1 ≤ c → c ≤ 254 → greatest ≤ 6 * 2 ^ ((c : ℤ) - 127) → code ≤ c

/-- The exponent that `choose_scale_from_max` computes. -/
theorem exponent_eq {bits : UInt32} (h : bits.toNat < 2 ^ 31) (hne : bits ≠ 0) :
    (if (((bits >>> 23) &&& 0xff).toNat : ℤ) = 0 then
      (31 - (leadingZeros (bits &&& 0x007fffff) : ℤ)) - 149
      else (((bits >>> 23) &&& 0xff).toNat : ℤ) - 127) = exponent bits.toNat := by
  have hexp : ((bits >>> 23) &&& 0xff).toNat = bits.toNat / 2 ^ 23 := by
    rw [toNat_exponent, Nat.mod_eq_of_lt (by omega)]
  unfold exponent
  rw [hexp]
  by_cases hzer : bits.toNat / 2 ^ 23 = 0
  · rw [if_pos (Nat.cast_eq_zero.mpr hzer), if_pos hzer]
    have hsig := toNat_significand bits
    have hpos : bits.toNat ≠ 0 := fun hz => hne (UInt32.toNat_inj.mp hz)
    have hne' : bits &&& 0x007fffff ≠ 0 := fun hz => by
      rw [hz] at hsig
      have : (0 : ℕ) = bits.toNat % 2 ^ 23 := hsig
      omega
    have hlog : (bits.toNat % 2 ^ 23).log2 < 23 :=
      (Nat.log2_lt (by omega)).mpr (Nat.mod_lt _ (by decide))
    unfold leadingZeros
    rw [if_neg hne', hsig, Nat.cast_sub (by omega)]
    ring
  · rw [if_neg (Nat.cast_eq_zero.not.mpr hzer), if_neg hzer]

/-- **The smallest exponent**: the magnitude fits, and it does not with half of the scale, or
there is no smaller scale. -/
theorem smallestScale_of_exponent {greatest : ℚ} {exp : ℤ} (hlow : -126 ≤ exp) (hhig : exp ≤ 127)
    (hhol : greatest ≤ 6 * 2 ^ exp) (hsm : exp = -126 ∨ 6 * 2 ^ (exp - 1) < greatest) :
    SmallestScale greatest (scaleCode exp).toNat ∧
      value (runtimeE8m0ToF32 (scaleCode exp)) = 2 ^ (((scaleCode exp).toNat : ℤ) - 127) := by
  have htnt := toNat_scaleCode hlow hhig
  refine ⟨⟨by omega, by omega, ?_, fun c hc _ hfit => ?_⟩, ?_⟩
  · rwa [htnt, add_sub_cancel_right]
  · by_contra hlt
    have hgr := hsm.resolve_left (by omega)
    have hle : (2 : ℚ) ^ ((c : ℤ) - 127) ≤ 2 ^ (exp - 1) :=
      zpow_le_zpow_right₀ one_le_two (by omega)
    linarith
  · rw [value_scaleCode hlow hhig, htnt, add_sub_cancel_right]

/-- **The scale of a magnitude** that is not zero is the smallest. -/
theorem chooseScaleFromMax_spec {maxAbs : UInt32} (hfin : maxAbs.toNat < 255 * 2 ^ 23)
    (hne : maxAbs ≠ 0) : SmallestScale (value maxAbs) (chooseScaleFromMax maxAbs).1.toNat ∧
      value (chooseScaleFromMax maxAbs).2
        = 2 ^ (((chooseScaleFromMax maxAbs).1.toNat : ℤ) - 127) := by
  have hlt : maxAbs.toNat < 2 ^ 31 := by omega
  have hne' : maxAbs.toNat ≠ 0 := fun hzer => hne (UInt32.toNat_inj.mp hzer)
  have hval : value maxAbs ≠ 0 := by
    rw [value_of_lt hlt]
    exact magnitude_eq_zero.not.mpr hne'
  obtain ⟨hlow, hhig⟩ := magnitude_bounds hne'
  rw [← value_of_lt hlt] at hlow hhig
  have hexp : -149 ≤ exponent maxAbs.toNat ∧ exponent maxAbs.toNat ≤ 127 := by
    unfold exponent
    split_ifs
    · have hlog : (maxAbs.toNat % 2 ^ 23).log2 ≤ 22 := by
        by_cases hz : maxAbs.toNat % 2 ^ 23 = 0
        · rw [hz]
          decide
        · exact Nat.le_of_lt_succ ((Nat.log2_lt hz).mpr (Nat.mod_lt _ (by decide)))
      omega
    · omega
  unfold chooseScaleFromMax
  rw [if_neg hval]
  dsimp only
  rw [exponent_eq hlt hne]
  set e := exponent maxAbs.toNat
  have hcl : max (-126) (min (e - 2) 127) = max (-126) (e - 2) := by
    rw [min_eq_left (by omega)]
  rw [hcl]
  set k := max (-126) (e - 2) with hk
  have hkle : -126 ≤ k ∧ k ≤ 125 ∧ e - 2 ≤ k := ⟨le_max_left _ _, by omega, le_max_right _ _⟩
  have hpos : (0 : ℚ) < 2 ^ k := zpow_pos two_pos _
  rw [value_scaleCode hkle.1 (by omega), maxE2m1]
  by_cases hlrg : value maxAbs > 6 * 2 ^ k
  · -- the last quarter before the next power of two
    rw [if_pos ⟨hlrg, by omega⟩]
    refine smallestScale_of_exponent (by omega) (by omega) ?_ (Or.inr ?_)
    · have hle : (2 : ℚ) ^ (e + 1) ≤ 2 ^ (k + 3) := zpow_le_zpow_right₀ one_le_two (by omega)
      rw [zpow_add₀ two_ne_zero k 3] at hle
      rw [zpow_add_one₀ two_ne_zero]
      norm_num at hle
      linarith
    · rwa [add_sub_cancel_right]
  · rw [if_neg fun h => hlrg h.1]
    refine smallestScale_of_exponent (by omega) (by omega) (not_lt.mp hlrg) ?_
    rcases max_choice (-126) (e - 2) with hmax | hmax
    · exact Or.inl (hk.trans hmax)
    · refine Or.inr (lt_of_lt_of_le ?_ hlow)
      rw [hk, hmax, show e = (e - 2 - 1) + 3 by ring, zpow_add₀ two_ne_zero (e - 2 - 1) 3,
        show e - 2 - 1 + 3 - 2 - 1 = e - 2 - 1 by ring]
      have hsm : (0 : ℚ) < 2 ^ (e - 2 - 1) := zpow_pos two_pos _
      norm_num
      linarith

/-! ## The greatest magnitude -/

/-- The fold of `choose_scale`. -/
def greatestAbs (values : List UInt32) : UInt32 :=
  values.foldl (fun acc value => fmax acc (fabs value)) 0

variable {values : List UInt32}

/-- **The greatest magnitude is below what all magnitudes are below.** -/
theorem greatestAbs_le_iff {n : ℕ} :
    (greatestAbs values).toNat ≤ n ↔ ∀ v ∈ values, (fabs v).toNat ≤ n :=
  (foldl_fmax_le (by decide) fun v _ => toNat_fabs_lt v).trans (and_iff_right (Nat.zero_le n))

/-- A finite number is below all that are not. -/
theorem toNat_fabs_lt_of_isFinite {bits : UInt32} (h : isFinite bits = true) :
    (fabs bits).toNat < 255 * 2 ^ 23 := by
  have hexp := isFinite_iff.mp h
  have hlt := bits.toNat_lt
  rw [toNat_fabs]
  omega

theorem greatestAbs_lt (hfin : ∀ v ∈ values, isFinite v = true) :
    (greatestAbs values).toNat < 255 * 2 ^ 23 :=
  Nat.lt_of_le_pred (by decide) (greatestAbs_le_iff.mpr fun v hv =>
    Nat.le_pred_of_lt (toNat_fabs_lt_of_isFinite (hfin v hv)))

/-- **No magnitude is greater.** -/
theorem absValue_le_greatestAbs (hfin : ∀ v ∈ values, isFinite v = true)
    {v : UInt32} (hv : v ∈ values) : absValue v ≤ value (greatestAbs values) := by
  rw [value_of_lt ((greatestAbs_lt hfin).trans (by decide)), absValue,
    magnitude_strictMono.le_iff_le]
  exact greatestAbs_le_iff.mp le_rfl v hv

/-- **The greatest magnitude is that of a number**, if there are any. -/
theorem exists_eq_greatestAbs (hfin : ∀ v ∈ values, isFinite v = true)
    (hne : greatestAbs values ≠ 0) : ∃ v ∈ values, value (greatestAbs values) = absValue v := by
  have hpos : 0 < (greatestAbs values).toNat :=
    Nat.pos_of_ne_zero fun hzer => hne (UInt32.toNat_inj.mp hzer)
  by_contra hnon
  -- all are below the greatest, and so is the greatest
  have hbel : (greatestAbs values).toNat ≤ (greatestAbs values).toNat - 1 := by
    refine greatestAbs_le_iff.mpr fun v hv => Nat.le_sub_one_of_lt ?_
    refine lt_of_le_of_ne (greatestAbs_le_iff.mp le_rfl v hv) fun heq => hnon ⟨v, hv, ?_⟩
    rw [value_of_lt ((greatestAbs_lt hfin).trans (by decide)), absValue, heq]
  omega

/-! ## Codes -/

/-- The magnitude of a code. -/
def e2m1 (c : ℕ) : ℚ := e2m1Magnitudes.getD c 0

theorem e2m1_strictMonoOn : StrictMonoOn e2m1 (Set.Iic 7) := by
  have hfin : ∀ a b : Fin 8, a < b → e2m1 a < e2m1 b := by decide +kernel
  intro a ha b hb hab
  exact hfin ⟨a, Nat.lt_succ_of_le ha⟩ ⟨b, Nat.lt_succ_of_le hb⟩ hab

theorem zipIdx_e2m1Magnitudes :
    e2m1Magnitudes.zipIdx = (List.range 8).map fun c => (e2m1 c, c) := rfl

theorem searchStep_eq (x : ℚ) (c d : ℕ) :
    searchStep x (c, ((|x - e2m1 c| : ℚ) : WithTop ℚ)) (e2m1 d, d)
      = (better e2m1 x c d, ((|x - e2m1 (better e2m1 x c d)| : ℚ) : WithTop ℚ)) := by
  unfold searchStep better
  dsimp only
  by_cases h : |x - e2m1 d| < |x - e2m1 c| ∨
      |x - e2m1 d| = |x - e2m1 c| ∧ d % 2 = 0 ∧ c % 2 ≠ 0
  · rw [if_pos (h.imp WithTop.coe_lt_coe.mpr fun h => ⟨WithTop.coe_eq_coe.mpr h.1, h.2⟩), if_pos h]
  · rw [if_neg fun h' => h (h'.imp WithTop.coe_lt_coe.mp fun h => ⟨WithTop.coe_eq_coe.mp h.1, h.2⟩),
      if_neg h]

/-- **The search finds the nearest magnitude**, of those it has looked at. -/
theorem search_nearest (x : ℚ) {n : ℕ} (hn : n ≤ 7) : ∃ c, Nearest e2m1 n x c ∧
      ((List.range (n + 1)).map fun c => (e2m1 c, c)).foldl (searchStep x) (0, ⊤)
        = (c, ((|x - e2m1 c| : ℚ) : WithTop ℚ)) := by
  induction n with
  | zero =>
    refine ⟨0, nearest_zero, ?_⟩
    show searchStep x (0, ⊤) (e2m1 0, 0) = _
    unfold searchStep
    dsimp only
    rw [if_pos (Or.inl (WithTop.coe_lt_top _))]
  | succ n ih =>
    obtain ⟨c, hc, heq⟩ := ih (Nat.le_of_succ_le hn)
    refine ⟨_, hc.better (x := x) (e2m1_strictMonoOn.mono (Set.Iic_subset_Iic.mpr hn)), ?_⟩
    rw [List.range_succ, List.map_append, List.foldl_append, heq]
    exact searchStep_eq x c (n + 1)

theorem toNat_signed {c : ℕ} (hc : c ≤ 7) (negative : Bool) :
    (if negative then UInt8.ofNat c ||| 0x8 else UInt8.ofNat c).toNat
      = c + if negative then 8 else 0 := by
  have hfin : ∀ (c : Fin 8) (negative : Bool),
      (if negative then UInt8.ofNat c.val ||| 0x8 else UInt8.ofNat c.val).toNat
        = c.val + if negative then 8 else 0 := by decide
  exact hfin ⟨c, Nat.lt_succ_of_le hc⟩ negative

/-- **The code of a number**: of the nearest magnitude, and its sign. -/
theorem quantizeValue_nearest (bits scale : UInt32) :
    ∃ c, Nearest e2m1 7 (min (value (fabs bits) / value scale) maxE2m1) c ∧
      (quantizeValue bits scale).toNat = c + if isSignNegative bits then 8 else 0 := by
  obtain ⟨c, hc, heq⟩ := search_nearest (min (value (fabs bits) / value scale) maxE2m1) (le_refl 7)
  refine ⟨c, hc, ?_⟩
  rw [← toNat_signed hc.le]
  unfold quantizeValue
  dsimp only
  rw [zipIdx_e2m1Magnitudes, heq]

/-! ## Decoding -/

theorem value_fabs (bits : UInt32) : value (fabs bits) = absValue bits :=
  value_of_lt (toNat_fabs_lt bits)

theorem abs_value (bits : UInt32) : |value bits| = absValue bits := by
  have hnon : 0 ≤ absValue bits := magnitude_nonneg _
  unfold value
  split_ifs
  · rw [abs_neg, abs_of_nonneg hnon]
  · exact abs_of_nonneg hnon

theorem e2m1_nonneg (c : ℕ) : 0 ≤ e2m1 c := by
  rcases Nat.lt_or_ge c 8 with hlt | hge
  · have hfin : ∀ c : Fin 8, 0 ≤ e2m1 c := by decide +kernel
    exact hfin ⟨c, hlt⟩
  · rw [e2m1, List.getD_eq_default _ _ hge]

/-- The scale is that of its code. -/
theorem chooseScaleFromMax_scale (maxAbs : UInt32) :
    (chooseScaleFromMax maxAbs).2 = runtimeE8m0ToF32 (chooseScaleFromMax maxAbs).1 := by
  unfold chooseScaleFromMax
  dsimp only
  split_ifs
  all_goals rfl

/-- **What is decoded has the magnitude of its code.** -/
theorem abs_decodeNibble (code : UInt8) {scale : UInt8} (hscale : scale ≠ 0) :
    ∃ d ≤ 7, |decodeNibble code scale| = e2m1 d * value (runtimeE8m0ToF32 scale) := by
  have hpos : 0 < value (runtimeE8m0ToF32 scale) := by
    rw [value_runtimeE8m0ToF32 hscale]
    exact zpow_pos two_pos _
  refine ⟨(code &&& 0x7).toNat, ?_, ?_⟩
  · rw [UInt8.toNat_and]
    exact Nat.and_le_right
  · unfold decodeNibble
    dsimp only
    rw [abs_mul, abs_of_pos hpos]
    refine congrArg (· * _) ?_
    have hnon := e2m1_nonneg (code &&& 0x7).toNat
    unfold e2m1 at hnon ⊢
    split_ifs
    · rw [abs_neg, abs_of_nonneg hnon]
    · exact abs_of_nonneg hnon

/-- The four bits of a code and a sign are decoded. -/
theorem decodeNibble_of_toNat {q scale : UInt8} {c : ℕ} (hc : c ≤ 7) {negative : Bool}
    (hq : q.toNat = c + if negative then 8 else 0) : decodeNibble q scale
      = (if negative then -e2m1 c else e2m1 c) * value (runtimeE8m0ToF32 scale) := by
  have hbit : ∀ (c : Fin 8) (negative : Bool) (q : UInt8),
      q = UInt8.ofNat (c + if negative then 8 else 0) →
        (q &&& 0x7).toNat = c ∧ (q &&& 0x8 ≠ 0 ↔ negative = true) := by
    intro c negative q hq
    subst hq
    revert c negative
    decide
  obtain ⟨hcod, hsig⟩ := hbit ⟨c, Nat.lt_succ_of_le hc⟩ negative q (by
    rw [← hq, UInt8.ofNat_toNat])
  unfold decodeNibble
  dsimp only
  rw [hcod]
  cases negative with
  | true => rw [if_pos (hsig.mpr rfl), if_pos rfl]; rfl
  | false => rw [if_neg fun h => Bool.false_ne_true (hsig.mp h), if_neg Bool.false_ne_true]; rfl

/-! ## Quantisation is optimal -/

/-- **A number that is quantised well**: its code is that of the nearest magnitude, of even
number if there are two, with the sign; nothing that can be decoded is nearer to the
number, which is off by at most half of the gap that it is in. -/
structure Quantized (v : UInt32) (scale : UInt8 × UInt32) : Prop where
  code : ∃ c, Nearest e2m1 7 (|value v| / value scale.2) c ∧
    (quantizeValue v scale.2).toNat = c + if isSignNegative v then 8 else 0
  nearest : ∀ code : UInt8, |decodeNibble (quantizeValue v scale.2) scale.1 - value v|
    ≤ |decodeNibble code scale.1 - value v|
  gap : ∃ i < 7, e2m1 i * value scale.2 ≤ |value v| ∧ |value v| ≤ e2m1 (i + 1) * value scale.2
  error : ∀ i < 7, e2m1 i * value scale.2 ≤ |value v| → |value v| ≤ e2m1 (i + 1) * value scale.2 →
    |decodeNibble (quantizeValue v scale.2) scale.1 - value v|
      ≤ (e2m1 (i + 1) - e2m1 i) * value scale.2 / 2

/-- **A number that is not clipped is quantised well.** -/
theorem quantized_of_le {v : UInt32} {scale : UInt8} (hscale : scale ≠ 0)
    (hle : |value v| ≤ 6 * value (runtimeE8m0ToF32 scale)) :
    Quantized v (scale, runtimeE8m0ToF32 scale) := by
  have hpos : 0 < value (runtimeE8m0ToF32 scale) := by
    rw [value_runtimeE8m0ToF32 hscale]
    exact zpow_pos two_pos _
  obtain ⟨c, hc, hq⟩ := quantizeValue_nearest v (runtimeE8m0ToF32 scale)
  have hdec := @decodeNibble_of_toNat _ scale c hc.le _ hq
  rw [value_fabs, ← abs_value, maxE2m1, min_eq_left ((div_le_iff₀ hpos).mpr hle)] at hc
  set s := value (runtimeE8m0ToF32 scale) with hs
  have hcan : |value v| / s * s = |value v| := div_mul_cancel₀ _ (ne_of_gt hpos)
  have hlow : e2m1 0 ≤ |value v| / s := div_nonneg (abs_nonneg _) (le_of_lt hpos)
  have hhig : |value v| / s ≤ e2m1 7 := (div_le_iff₀ hpos).mpr hle
  set x := |value v| / s with hx
  -- differences are those of the magnitudes, in units of the scale
  have hsc : ∀ d, |x - e2m1 d| * s = |(x * s) - (e2m1 d * s)| := fun d => by
    rw [← sub_mul, abs_mul, abs_of_pos hpos]
  have herr : |decodeNibble (quantizeValue v (runtimeE8m0ToF32 scale)) scale - value v|
      = |x - e2m1 c| * s := by
    rw [hsc, hcan, hdec, abs_value]
    unfold value
    split_ifs
    · rw [neg_mul, neg_sub_neg]
    · rw [abs_sub_comm]
  refine ⟨⟨c, hc, hq⟩, fun code => ?_, ?_, fun i hi hlow hhig => ?_⟩
  · obtain ⟨d, hd, habs⟩ := abs_decodeNibble code hscale
    rw [herr]
    calc |x - e2m1 c| * s ≤ |x - e2m1 d| * s :=
          mul_le_mul_of_nonneg_right (hc.near d hd) (le_of_lt hpos)
      _ = abs (|value v| - |decodeNibble code scale|) := by rw [hsc, hcan, habs]
      _ ≤ |decodeNibble code scale - value v| := by
        rw [abs_sub_comm (decodeNibble code scale)]
        exact abs_abs_sub_abs_le _ _
  · obtain ⟨i, hi, hlow, hhig⟩ := exists_gap (m := e2m1) (n := 7) (by decide) hlow hhig
    exact ⟨i, hi, (le_div_iff₀ hpos).mp hlow, (div_le_iff₀ hpos).mp hhig⟩
  · rw [herr]
    have hgap := hc.abs_sub_le hi ((le_div_iff₀ hpos).mpr hlow) ((div_le_iff₀ hpos).mpr hhig)
    calc |x - e2m1 c| * s ≤ (e2m1 (i + 1) - e2m1 i) / 2 * s :=
          mul_le_mul_of_nonneg_right hgap (le_of_lt hpos)
      _ = (e2m1 (i + 1) - e2m1 i) * s / 2 := by ring

/-- **Quantisation is optimal**: the scale of a group of finite numbers is decoded, and is the
smallest for which none of them is clipped (or one, if all of them are zero); with it,
each number is quantised well. -/
theorem quantize_optimal {values : List UInt32} (hfin : ∀ v ∈ values, isFinite v = true) :
    1 ≤ (chooseScale values).1.toNat ∧ (chooseScale values).1.toNat ≤ 254 ∧
    value (chooseScale values).2 = 2 ^ (((chooseScale values).1.toNat : ℤ) - 127) ∧
    ((∀ v ∈ values, value v = 0) → value (chooseScale values).2 = 1) ∧
    (∀ v ∈ values, |value v| ≤ 6 * value (chooseScale values).2) ∧
    ((∃ v ∈ values, value v ≠ 0) → ∀ code : ℕ, 1 ≤ code → code ≤ 254 →
      (∀ v ∈ values, |value v| ≤ 6 * 2 ^ ((code : ℤ) - 127)) →
        (chooseScale values).1.toNat ≤ code) ∧
    ∀ v ∈ values, Quantized v (chooseScale values) := by
  have hlt := greatestAbs_lt hfin
  have hle : ∀ v ∈ values, |value v| ≤ value (greatestAbs values) := fun v hv =>
    (abs_value v).trans_le (absValue_le_greatestAbs hfin hv)
  have hscale : chooseScale values = ((chooseScaleFromMax (greatestAbs values)).1,
        runtimeE8m0ToF32 (chooseScaleFromMax (greatestAbs values)).1) :=
    Prod.ext rfl (chooseScaleFromMax_scale _)
  by_cases hzer : greatestAbs values = 0
  · -- all are zero
    have hval : value 0 = 0 := (@value_of_lt 0 (by decide)).trans (by
      rw [magnitude_eq_zero]
      rfl)
    have hone : chooseScaleFromMax (greatestAbs values) = (127, 0x3f800000) := by
      rw [hzer]
      unfold chooseScaleFromMax
      rw [if_pos hval]
    rw [hzer, hval] at hle
    have hcod : value (runtimeE8m0ToF32 127) = 1 :=
      (value_runtimeE8m0ToF32 (by decide)).trans (zpow_zero 2)
    rw [hscale, hone]
    refine ⟨by decide, by decide, value_runtimeE8m0ToF32 (by decide), fun _ => hcod,
      fun v hv => ?_, fun hne => ?_, fun v hv => quantized_of_le (by decide) ?_⟩
    · rw [hcod]
      exact (hle v hv).trans (by norm_num)
    · obtain ⟨v, hv, hne⟩ := hne
      exact absurd (abs_nonpos_iff.mp (hle v hv)) hne
    · rw [hcod]
      exact (hle v hv).trans (by norm_num)
  · obtain ⟨hsm, hval⟩ := chooseScaleFromMax_spec hlt hzer
    have hhol : ∀ v ∈ values, |value v| ≤ 6 * value (chooseScale values).2 := fun v hv => by
      rw [show (chooseScale values).2 = (chooseScaleFromMax (greatestAbs values)).2 from rfl, hval]
      exact (hle v hv).trans hsm.holds
    have hne : (chooseScaleFromMax (greatestAbs values)).1 ≠ 0 := fun h => by
      have := hsm.one_le
      rw [h] at this
      exact absurd this (by decide)
    refine ⟨hsm.one_le, hsm.le, hval, fun hall => ?_, hhol,
      fun _ code hlow hhig hfit => ?_, fun v hv => ?_⟩
    · obtain ⟨v, hv, heq⟩ := exists_eq_greatestAbs hfin hzer
      rw [← abs_value, hall v hv, abs_zero, value_of_lt (hlt.trans (by decide)),
        magnitude_eq_zero] at heq
      exact absurd (UInt32.toNat_inj.mp heq) hzer
    · obtain ⟨v, hv, heq⟩ := exists_eq_greatestAbs hfin hzer
      refine hsm.smallest code hlow hhig ?_
      rw [heq, ← abs_value]
      exact hfit v hv
    · have hth := hhol v hv
      rw [hscale] at hth ⊢
      exact quantized_of_le hne hth

/-- One, and a number of the other sign that is three times as large. -/
theorem quantize_optimal_pair : Quantized 0x3f800000 (chooseScale [0x3f800000, 0xc0400000]) ∧
    Quantized 0xc0400000 (chooseScale [0x3f800000, 0xc0400000]) := by
  have hfin : ∀ v ∈ [0x3f800000, 0xc0400000], isFinite v = true :=
    List.forall_mem_cons.mpr ⟨by decide, List.forall_mem_singleton.mpr (by decide)⟩
  have hall := (quantize_optimal hfin).2.2.2.2.2.2
  exact ⟨hall _ List.mem_cons_self, hall _ (List.mem_cons_of_mem _ List.mem_cons_self)⟩

end Mxfp4

end Logan
