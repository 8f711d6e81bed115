import Mathlib.Data.List.GetD
import Logan.Coding.Rans256

/-!
# Nibbles and their streams

A byte string is its nibbles, and the nibbles are dealt out to 256 streams in
turn. Dealing out is `gather`, and putting the symbols back is `scatter`: when
each stream has been put back, each nibble is that of its stream.
-/

namespace Logan

open List

namespace Rans256

/-! ## The nibbles of a byte -/

theorem toNat_eq (byte : UInt8) : byte.toNat = (high byte).val * 16 + (low byte).val :=
  (Nat.div_add_mod' byte.toNat 16).symm

theorem eq_of_nibbles {byte byte' : UInt8} (hlow : low byte = low byte')
    (hhig : high byte = high byte') : byte = byte' :=
  UInt8.toNat_inj.mp (by rw [toNat_eq, toNat_eq byte', hlow, hhig])

theorem toNat_pack (s s' : Nibble) :
    (UInt8.ofNat (s.val * 16 + s'.val)).toNat = s.val * 16 + s'.val := by
  have hs' := s'.isLt
  rw [UInt8.toNat_ofNat', Nat.mod_eq_of_lt]
  omega

@[simp] theorem low_pack (s s' : Nibble) : low (UInt8.ofNat (s.val * 16 + s'.val)) = s' := by
  refine Fin.ext ?_
  show (UInt8.ofNat (s.val * 16 + s'.val)).toNat % 16 = s'.val
  rw [toNat_pack]
  omega

@[simp] theorem high_pack (s s' : Nibble) : high (UInt8.ofNat (s.val * 16 + s'.val)) = s := by
  refine Fin.ext ?_
  show (UInt8.ofNat (s.val * 16 + s'.val)).toNat / 16 = s.val
  rw [toNat_pack]
  omega

/-! ## The nibbles of a byte string -/

@[simp] theorem length_setNibble (bytes : List UInt8) (i : ℕ) (s : Nibble) :
    (setNibble bytes i s).length = bytes.length := length_set

/-- **One nibble is written**, and the others are kept. -/
theorem nibbleAt_setNibble {bytes : List UInt8} {i : ℕ} (h : i < bytes.length * 2) (s : Nibble)
    (j : ℕ) : nibbleAt (setNibble bytes i s) j = if j = i then s else nibbleAt bytes j := by
  have hlt : i / 2 < bytes.length := by omega
  by_cases hbyt : j / 2 = i / 2
  · -- the byte that is written: its new half, or the other one
    have hget : (setNibble bytes i s).getD (j / 2) 0 = if i % 2 = 0 then
          UInt8.ofNat ((high (bytes.getD (i / 2) 0)).val * 16 + s.val)
        else UInt8.ofNat (s.val * 16 + (low (bytes.getD (i / 2) 0)).val) := by
      rw [hbyt, getD_eq_getElem?_getD, setNibble, List.getElem?_set_self hlt, Option.getD_some]
    unfold nibbleAt
    rw [hget, hbyt]
    rcases Nat.mod_two_eq_zero_or_one i with hi | hi
    · rcases Nat.mod_two_eq_zero_or_one j with hj | hj
      · rw [if_pos hi, if_pos hj, if_pos (show j = i by omega), low_pack]
      · rw [if_pos hi, if_neg (by omega), if_neg (show j ≠ i by omega), if_neg (by omega),
          high_pack]
    · rcases Nat.mod_two_eq_zero_or_one j with hj | hj
      · rw [if_neg (show ¬ i % 2 = 0 by omega), if_pos hj, if_neg (show j ≠ i by omega),
          if_pos hj, low_pack]
      · rw [if_neg (show ¬ i % 2 = 0 by omega), if_neg (show ¬ j % 2 = 0 by omega),
          if_pos (show j = i by omega), high_pack]
  · have hget : (setNibble bytes i s).getD (j / 2) 0 = bytes.getD (j / 2) 0 := by
      rw [getD_eq_getElem?_getD, setNibble, List.getElem?_set_ne (Ne.symm hbyt),
        ← getD_eq_getElem?_getD]
    unfold nibbleAt
    rw [hget, if_neg (show j ≠ i from fun hji => hbyt (by rw [hji]))]

/-- **A byte string is its nibbles.** -/
theorem eq_of_nibbleAt {a b : List UInt8} (hlen : a.length = b.length)
    (h : ∀ i < 2 * a.length, nibbleAt a i = nibbleAt b i) : a = b := by
  refine ext_getElem hlen fun i ha hb => ?_
  have hlow := h (2 * i) (by omega)
  have hhig := h (2 * i + 1) (by omega)
  unfold nibbleAt at hlow hhig
  dsimp only at hlow hhig
  rw [if_pos (by omega), if_pos (by omega), show 2 * i / 2 = i by omega,
    getD_eq_getElem _ _ ha, getD_eq_getElem _ _ hb] at hlow
  rw [if_neg (by omega), if_neg (by omega), show (2 * i + 1) / 2 = i by omega,
    getD_eq_getElem _ _ ha, getD_eq_getElem _ _ hb] at hhig
  exact eq_of_nibbles hlow hhig

/-! ## The streams -/

theorem streamSymbolCount_add {n i : ℕ} :
    streamSymbolCount n i = if i < n then streamSymbolCount n (i + nStreams) + 1 else 0 := by
  unfold streamSymbolCount nStreams
  split_ifs <;> omega

variable (input : List UInt8)

theorem gather_eq_of_fuel (n fuel i : ℕ) (h : streamSymbolCount n i ≤ fuel) : gather input n fuel i
      = (List.range (streamSymbolCount n i)).map fun j => nibbleAt input (i + j * nStreams) := by
  induction fuel generalizing i with
  | zero =>
    rw [Nat.le_zero.mp h]
    rfl
  | succ fuel ih =>
    rw [streamSymbolCount_add] at h ⊢
    rw [gather]
    by_cases hi : i < n
    · rw [if_pos hi] at h ⊢
      rw [if_pos hi, ih _ (Nat.le_of_succ_le_succ h), range_succ_eq_map, map_cons,
        map_map, Nat.zero_mul, Nat.add_zero]
      refine congrArg _ (map_congr_left fun j _ => ?_)
      show nibbleAt input (i + nStreams + j * nStreams) = nibbleAt input (i + (j + 1) * nStreams)
      congr 1
      ring
    · rw [if_neg hi, if_neg hi]
      rfl

theorem streamSymbolCount_le (n i : ℕ) : streamSymbolCount n i ≤ n := by
  unfold streamSymbolCount nStreams
  split_ifs <;> omega

/-- **The symbols of a stream**: the nibbles whose places leave the number of
the stream. -/
theorem gather_eq (n i : ℕ) : gather input n n i
    = (List.range (streamSymbolCount n i)).map fun j => nibbleAt input (i + j * nStreams) :=
  gather_eq_of_fuel input n n i (streamSymbolCount_le n i)

@[simp] theorem length_gather (n i : ℕ) : (gather input n n i).length = streamSymbolCount n i := by
  rw [gather_eq, length_map, length_range]

theorem div_lt_streamSymbolCount {n k : ℕ} (h : k < n) :
    k / nStreams < streamSymbolCount n (k % nStreams) := by
  unfold streamSymbolCount nStreams
  split_ifs <;> omega

theorem lt_of_lt_streamSymbolCount {n i j : ℕ} (h : j < streamSymbolCount n i) :
    i + j * nStreams < n := by
  unfold streamSymbolCount nStreams at h
  unfold nStreams
  split_ifs at h <;> omega

/-- **The symbols of all streams are the byte string.** -/
theorem eq_of_gather {a b : List UInt8} {n : ℕ} (hn : n = a.length * 2)
    (hlen : a.length = b.length) (h : ∀ i < nStreams, gather a n n i = gather b n n i) :
    a = b := by
  refine eq_of_nibbleAt hlen fun k hk => ?_
  have hj := div_lt_streamSymbolCount (hk.trans_eq ((Nat.mul_comm _ _).trans hn.symm))
  have heq := congrArg (fun l => l[k / nStreams]?) (h (k % nStreams) (Nat.mod_lt _ (by decide)))
  simp only [gather_eq, List.getElem?_map, List.getElem?_range hj, Option.map_some,
    Option.some.injEq] at heq
  rwa [show k % nStreams + k / nStreams * nStreams = k from Nat.mod_add_div' _ _] at heq

/-! ## Putting symbols back -/

@[simp] theorem length_scatter (output : List UInt8) (i : ℕ) (decoded : List Nibble) :
    (scatter output i decoded).length = output.length := by
  unfold scatter
  generalize decoded.zipIdx = l
  induction l generalizing output with
  | nil => rfl
  | cons p l ih => exact (ih _).trans (length_setNibble _ _ _)

variable {decoded : List Nibble} {output : List UInt8}

/-- **A stream is put back**: its places have its symbols, and the others are
kept. -/
theorem nibbleAt_scatter {i : ℕ}
    (h : ∀ j < decoded.length, i + j * nStreams < output.length * 2) (k : ℕ) :
    (∀ j, k ≠ i + j * nStreams) ∧ nibbleAt (scatter output i decoded) k = nibbleAt output k ∨
      ∃ j, k = i + j * nStreams ∧
        nibbleAt (scatter output i decoded) k = decoded.getD j (nibbleAt output k) := by
  -- the induction is on the symbols, from the last: the last one is written on the others
  induction decoded using List.reverseRecOn with
  | nil =>
    by_cases hk : ∃ j, k = i + j * nStreams
    · obtain ⟨j, hj⟩ := hk
      exact Or.inr ⟨j, hj, rfl⟩
    · exact Or.inl ⟨fun j hj => hk ⟨j, hj⟩, rfl⟩
  | append_singleton decoded s ih =>
    have hlas : i + decoded.length * nStreams < (scatter output i decoded).length * 2 := by
      rw [length_scatter]
      exact h _ (by rw [length_append]; exact Nat.lt_succ_self _)
    have hst : scatter output i (decoded ++ [s])
        = setNibble (scatter output i decoded) (i + decoded.length * nStreams) s := by
      unfold scatter
      rw [zipIdx_append, foldl_append, Nat.zero_add]
      rfl
    have hwr := nibbleAt_setNibble hlas s k
    rw [hst, hwr]
    rcases ih fun j hj => h j (by rw [length_append]; omega) with ⟨hne, heq⟩ | ⟨j, rfl, heq⟩
    · exact Or.inl ⟨hne, by rw [if_neg (hne _), heq]⟩
    · refine Or.inr ⟨j, rfl, ?_⟩
      by_cases hj : j = decoded.length
      · rw [if_pos (by rw [hj]), hj, getD_append_right _ _ _ _ le_rfl, Nat.sub_self]
        rfl
      · have hpos : 0 < nStreams := by decide
        rw [if_neg fun he => hj (Nat.eq_of_mul_eq_mul_right hpos (Nat.add_left_cancel he)), heq]
        rcases lt_or_gt_of_ne hj with hlt | hgt
        · rw [getD_append _ _ _ _ hlt]
        · rw [getD_eq_default _ _ (le_of_lt hgt), getD_eq_default]
          rwa [length_append]

/-- The symbols of a stream that has been put back. -/
theorem gather_scatter_self {i n : ℕ}
    (hn : n = output.length * 2) (hlen : decoded.length = streamSymbolCount n i) :
    gather (scatter output i decoded) n n i = decoded := by
  refine ext_getElem (by rw [length_gather, hlen]) fun j hj hj' => ?_
  have hbnd : ∀ j < decoded.length, i + j * nStreams < output.length * 2 := fun j hj =>
    hn ▸ lt_of_lt_streamSymbolCount (hlen ▸ hj)
  simp only [gather_eq, getElem_map, getElem_range]
  rcases nibbleAt_scatter hbnd (i + j * nStreams) with ⟨hne, -⟩ | ⟨j', hjj', heq⟩
  · exact absurd rfl (hne j)
  · have hpos : 0 < nStreams := by decide
    obtain rfl := Nat.eq_of_mul_eq_mul_right hpos (Nat.add_left_cancel hjj')
    rw [heq, getD_eq_getElem _ _ hj']

/-- The symbols of the other streams are kept. -/
theorem gather_scatter_of_ne {i i' n : ℕ}
    (hn : n = output.length * 2) (hlen : decoded.length = streamSymbolCount n i)
    (hi : i < nStreams) (hi' : i' < nStreams) (hne : i' ≠ i) :
    gather (scatter output i decoded) n n i' = gather output n n i' := by
  have hbnd : ∀ j < decoded.length, i + j * nStreams < output.length * 2 := fun j hj =>
    hn ▸ lt_of_lt_streamSymbolCount (hlen ▸ hj)
  rw [gather_eq, gather_eq]
  refine map_congr_left fun j _ => ?_
  rcases nibbleAt_scatter hbnd (i' + j * nStreams) with ⟨-, heq⟩ | ⟨j', hjj', -⟩
  · exact heq
  · -- the number of a stream is what its places leave
    refine absurd ?_ hne
    rw [← Nat.mod_eq_of_lt hi, ← Nat.mod_eq_of_lt hi', ← Nat.add_mul_mod_self_right i' j,
      hjj', Nat.add_mul_mod_self_right]

end Rans256

end Logan
