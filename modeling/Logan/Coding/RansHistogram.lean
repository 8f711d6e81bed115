import Logan.Coding.RansShares

/-!
# Tables of a histogram

A table is made from the histogram of the nibbles of a byte string: it has the
shares of sixteen symbols, computed in double precision. It is always found, and
it is valid.
-/

namespace Logan

open List Function

namespace Rans256

open Result

/-! ## Counting -/

/-- `hist[symbol].checked_add(1)` -/
def countNibble (hist : Nibble → ℕ) (s : Nibble) : Except ColicError (Nibble → ℕ) := do
  let count ← okOr (checkedSum (hist s) 1) (.usage "rANS histogram overflows u64")
  pure (update hist s count)

/-- `histogram_bytes` -/
def histogramBytes (chunks : List (List UInt8)) : Except ColicError (Nibble → ℕ) :=
  chunks.foldlM (fun hist bytes => bytes.foldlM (fun hist byte => do
    let hist ← countNibble hist (low byte)
    countNibble hist (high byte)) hist) fun _ => 0

/-! ## The table -/

/-- `Table::from_histogram` -/
def Table.fromHistogram (hist : Nibble → ℕ) : Except (Failure ColicError) Table := do
  let shares ← sharesOf .double 16 hist
  pure ⟨shares.freq, shares.start⟩

/-- The places of the symbols make a table that is valid. -/
theorem validateFrom_of_placeFrom {t : Table} {l : List Nibble} {cursor stop : ℕ}
    {starts : List ℕ} (h : placeFrom t.freq l cursor = .ok (starts, stop))
    (hst : l.map t.start = starts) : t.validateFrom l cursor = .ok stop := by
  induction l generalizing cursor starts with
  | nil =>
    obtain ⟨-, rfl⟩ := Prod.mk.inj (Except.ok.inj h)
    rfl
  | cons s rest ih =>
    obtain ⟨next, hnex, h⟩ := bind_eq_ok.mp h
    obtain ⟨⟨starts', stop'⟩, hres, heq⟩ := bind_eq_ok.mp h
    cases heq
    obtain ⟨hstr, hst⟩ := List.cons.inj hst
    rw [Table.validateFrom, refuse_of_not (not_not.mpr hstr), ok_bind, okOr_eq_ok.mp hnex,
      okOr_some, ok_bind]
    exact ih hres hst

/-! ## Tables are valid -/

theorem length_of_placeFrom {freq : Nibble → ℕ} {l : List Nibble} {cursor stop : ℕ}
    {starts : List ℕ} (h : placeFrom freq l cursor = .ok (starts, stop)) :
    starts.length = l.length := by
  induction l generalizing cursor starts with
  | nil => exact congrArg List.length (Prod.mk.inj (Except.ok.inj h)).1.symm
  | cons s rest ih =>
    obtain ⟨next, -, h⟩ := bind_eq_ok.mp h
    obtain ⟨⟨starts', stop'⟩, hres, heq⟩ := bind_eq_ok.mp h
    cases heq
    rw [length_cons, ih hres, length_cons]

/-- **The table of a histogram is valid.** -/
theorem Table.validate_of_fromHistogram {hist : Nibble → ℕ} {t : Table}
    (h : Table.fromHistogram hist = .ok t) : t.validate = .ok () := by
  obtain ⟨shares, h, heq⟩ := bind_eq_ok.mp h
  obtain ⟨total, -, h⟩ := bind_eq_ok.mp h
  obtain ⟨_, -, h⟩ := bind_eq_ok.mp h
  obtain ⟨_, -, h⟩ := bind_eq_ok.mp h
  obtain ⟨freq, -, h⟩ := bind_eq_ok.mp h
  obtain ⟨placed, hst, h⟩ := bind_eq_ok.mp h
  obtain ⟨_, hscale, h⟩ := bind_eq_ok.mp h
  have hst := mapError_eq_ok.mp hst
  have hlen := length_of_placeFrom hst
  have hmap : (List.finRange 16).map (fun s => placed.1.getD s.val 0) = placed.1 := by
    refine ext_getElem ?_ fun i hi hi' => ?_
    · rw [length_map, hlen]
    · rw [getElem_map, getElem_finRange, getD_eq_getElem _ _ (by simpa using hi')]
      rfl
  rw [← Except.ok.inj heq, ← Except.ok.inj h]
  unfold Table.validate
  rw [validateFrom_of_placeFrom hst hmap, ok_bind, refuse_of_not (refuse_eq_ok.mp hscale)]

/-- **Every histogram has a table**, in which each symbol that occurs has a
slot. -/
theorem Table.fromHistogram_eq_ok {hist : Nibble → ℕ} (htot : 0 < sumShares hist)
    (hmax : sumShares hist ≤ usizeMax) : ∃ t, Table.fromHistogram hist = .ok t ∧
      t.validate = .ok () ∧ ∀ s, hist s ≠ 0 → t.freq s ≠ 0 := by
  obtain ⟨t, heq, -, hmar, -⟩ :=
    sharesOf_of_enough Arithmetic.enough_double (by decide) htot hmax
  have htab : Table.fromHistogram hist = .ok ⟨t.freq, t.start⟩ := by
    unfold Table.fromHistogram
    rw [heq 16 le_rfl]
    rfl
  exact ⟨_, htab, Table.validate_of_fromHistogram htab, fun s => (hmar s).mpr⟩

/-! ## The histogram of a byte string -/

theorem countNibble_eq_ok {hist : Nibble → ℕ} {s : Nibble} (h : hist s + 1 ≤ usizeMax) :
    countNibble hist s = .ok (update hist s (hist s + 1)) := by
  unfold countNibble
  rw [checkedSum_of_le h]
  rfl

/-- **A byte counts twice**, and what has been counted stays so. -/
theorem countByte_eq_ok {hist : Nibble → ℕ} {byte : UInt8}
    (h : sumShares hist + 2 ≤ usizeMax) : ∃ hist', (countNibble hist (low byte) >>= fun hist =>
        countNibble hist (high byte)) = .ok hist' ∧ sumShares hist' = sumShares hist + 2 ∧
      hist' (low byte) ≠ 0 ∧ hist' (high byte) ≠ 0 ∧ ∀ s, hist s ≤ hist' s := by
  have hlow := le_sumShares hist (low byte)
  set mid := update hist (low byte) (hist (low byte) + 1) with hmid
  have hsum : sumShares mid + hist (low byte) = sumShares hist + (hist (low byte) + 1) :=
    sumShares_update _ _ _
  have hhig := le_sumShares mid (high byte)
  have hsum' := sumShares_update mid (high byte) (mid (high byte) + 1)
  have hgr : ∀ (f : Nibble → ℕ) (s s' : Nibble), f s' ≤ update f s (f s + 1) s' := by
    intro f s s'
    by_cases hs : s' = s
    · rw [hs, update_self]
      exact Nat.le_succ _
    · rw [update_of_ne hs]
  have hmdl : 1 ≤ mid (low byte) := by
    rw [hmid, update_self]
    exact Nat.succ_le_succ (Nat.zero_le _)
  refine ⟨update mid (high byte) (mid (high byte) + 1), ?_, by omega, ?_, ?_,
    fun s => (hgr hist _ s).trans (hgr mid _ s)⟩
  · rw [countNibble_eq_ok (by omega), ok_bind, ← hmid, countNibble_eq_ok (by omega)]
  · exact Nat.pos_iff_ne_zero.mp (hmdl.trans (hgr mid _ _))
  · rw [update_self]
    exact Nat.succ_ne_zero _

/-- **Every byte is counted**, whatever has been counted before. -/
theorem countBytes_eq_ok {input : List UInt8} {hist : Nibble → ℕ}
    (h : sumShares hist + input.length * 2 ≤ usizeMax) :
    ∃ hist', input.foldlM (fun hist byte => countNibble hist (low byte) >>= fun hist =>
        countNibble hist (high byte)) hist = .ok hist' ∧
      sumShares hist' = sumShares hist + input.length * 2 ∧
      (∀ byte ∈ input, hist' (low byte) ≠ 0 ∧ hist' (high byte) ≠ 0) ∧ ∀ s, hist s ≤ hist' s := by
  induction input generalizing hist with
  | nil => exact ⟨hist, rfl, (Nat.add_zero _).symm, fun _ hb => absurd hb not_mem_nil,
      fun _ => le_rfl⟩
  | cons byte rest ih =>
    rw [length_cons] at h ⊢
    obtain ⟨mid, hmid, hsum, hlow, hhig, hgr⟩ :=
      @countByte_eq_ok hist byte (by omega)
    obtain ⟨hist', heq, hsum', hall, hgr'⟩ := @ih mid (by omega)
    refine ⟨hist', ?_, by omega, fun b hb => ?_, fun s => (hgr s).trans (hgr' s)⟩
    · rw [foldlM_cons, hmid, ok_bind]
      exact heq
    · rcases mem_cons.mp hb with rfl | hb
      · have hle := hgr' (low b)
        have hle' := hgr' (high b)
        omega
      · exact hall b hb

/-- **The histogram of a byte string** counts each of its nibbles. -/
theorem histogramBytes_eq_ok {input : List UInt8} (h : input.length * 2 ≤ usizeMax) :
    ∃ hist, histogramBytes [input] = .ok hist ∧ sumShares hist = input.length * 2 ∧
      ∀ i < input.length * 2, hist (nibbleAt input i) ≠ 0 := by
  have hzer : sumShares (fun _ : Nibble => 0) = 0 := by decide
  obtain ⟨hist, heq, hsum, hall, -⟩ := @countBytes_eq_ok input (fun _ => 0) (by
    rw [hzer, Nat.zero_add]
    exact h)
  refine ⟨hist, ?_, by rw [hsum, hzer, Nat.zero_add], fun i hi => ?_⟩
  · unfold histogramBytes
    rw [foldlM_cons, heq]
    rfl
  · have hlt : i / 2 < input.length := by omega
    have hmem := hall _ (getElem_mem hlt)
    unfold nibbleAt
    rw [getD_eq_getElem _ _ hlt]
    split_ifs
    · exact hmem.1
    · exact hmem.2

end Rans256

end Logan
