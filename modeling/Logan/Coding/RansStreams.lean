import Logan.Coding.Rans256

/-!
# Streams

A table that has been validated divides the slots among the nibbles, and so
it is a coder: a stream is the state of this coder, with the bytes that it has
spilled. What is encoded is decoded, and a stream that is decoded is the
encoding of its symbols exactly if its state is one that the encoder has.
-/

namespace Logan

open List

namespace Rans256

open Result

/-! ## What validation finds -/

/-- **Symbols own the slots one after the other**, from one slot to another. -/
structure Divides (t : Table) (l : List Nibble) (lo hi : ℕ) : Prop where
  le : lo ≤ hi
  within : ∀ s ∈ l, lo ≤ t.start s ∧ t.start s + t.freq s ≤ hi
  ordered : l.Pairwise fun s s' => t.start s + t.freq s ≤ t.start s'
  covered : ∀ i, lo ≤ i → i < hi → ∃ s ∈ l, t.start s ≤ i ∧ i < t.start s + t.freq s

variable {l : List Nibble}

theorem divides_of_validateFrom {t : Table} {lo hi : ℕ}
    (h : t.validateFrom l lo = .ok hi) : Divides t l lo hi := by
  induction l generalizing lo with
  | nil =>
    obtain rfl := Except.ok.inj h
    exact ⟨le_rfl, fun s hs => absurd hs not_mem_nil, List.Pairwise.nil,
      fun i hlo hhi => absurd hhi (not_lt.mpr hlo)⟩
  | cons s l ih =>
    obtain ⟨_, hst, h⟩ := bind_eq_ok.mp h
    obtain ⟨cursor, hcur, h⟩ := bind_eq_ok.mp h
    have hst : t.start s = lo := not_not.mp (refuse_eq_ok.mp hst)
    have hcur : lo + t.freq s = cursor := by
      have hsom := okOr_eq_ok.mp hcur
      unfold checkedSumU32 at hsom
      split_ifs at hsom
      exact Option.some.inj hsom
    obtain ⟨hle, hwit, hord, hcov⟩ := ih h
    refine ⟨by omega, fun s' hs' => ?_, pairwise_cons.mpr ⟨fun s' hs' => ?_, hord⟩,
      fun i hlo hhi => ?_⟩
    · rcases mem_cons.mp hs' with rfl | hs'
      · omega
      · have := hwit s' hs'
        omega
    · have := hwit s' hs'
      omega
    · by_cases hi : i < cursor
      · exact ⟨s, mem_cons_self, by omega, by omega⟩
      · obtain ⟨s', hs', hi'⟩ := hcov i (not_lt.mp hi) hhi
        exact ⟨s', mem_cons_of_mem _ hs', hi'⟩

theorem divides_of_validate {t : Table} (h : t.validate = .ok ()) :
    Divides t (List.finRange 16) 0 scale := by
  obtain ⟨cursor, hcur, h⟩ := bind_eq_ok.mp h
  obtain rfl : cursor = scale := not_not.mp (refuse_eq_ok.mp h)
  exact divides_of_validateFrom hcur

/-- No slot has two owners. -/
theorem Divides.unique {t : Table} {lo hi i : ℕ} (h : Divides t l lo hi) {s s' : Nibble}
    (hs : s ∈ l) (hs' : s' ∈ l) (hi : t.start s ≤ i ∧ i < t.start s + t.freq s)
    (hi' : t.start s' ≤ i ∧ i < t.start s' + t.freq s') : s = s' := by
  by_contra hne
  have hpr : l.Pairwise fun a b => ¬ ((t.start a ≤ i ∧ i < t.start a + t.freq a) ∧
      (t.start b ≤ i ∧ i < t.start b + t.freq b)) :=
    h.ordered.imp fun hle ⟨ha, hb⟩ => by omega
  have hsym : Std.Symm fun a b : Nibble => ¬ ((t.start a ≤ i ∧ i < t.start a + t.freq a) ∧
      (t.start b ≤ i ∧ i < t.start b + t.freq b)) := ⟨fun a b hab hba => hab ⟨hba.2, hba.1⟩⟩
  exact hpr.forall hs hs' hne ⟨hi, hi'⟩

/-- A slot that has one owner only is filled with it. -/
theorem foldl_owner {t : Table} {i : ℕ} {s : Nibble}
    (hun : ∀ s' ∈ l, t.start s' ≤ i ∧ i < t.start s' + t.freq s' → s' = s) (init : Nibble)
    (h : s ∈ l ∧ (t.start s ≤ i ∧ i < t.start s + t.freq s) ∨ init = s) :
    l.foldl (fun symbol s' => if t.start s' ≤ i ∧ i < t.start s' + t.freq s' then s' else symbol)
      init = s := by
  induction l generalizing init with
  | nil =>
    rcases h with ⟨hs, -⟩ | h
    · exact absurd hs not_mem_nil
    · exact h
  | cons a l ih =>
    refine ih (fun s' hs' => hun s' (mem_cons_of_mem _ hs')) _ ?_
    by_cases ha : t.start a ≤ i ∧ i < t.start a + t.freq a
    · exact Or.inr ((if_pos ha).trans (hun a mem_cons_self ha))
    · dsimp only
      rw [if_neg ha]
      rcases h with ⟨hs, hown⟩ | h
      · rcases mem_cons.mp hs with rfl | hs
        · exact absurd hown ha
        · exact Or.inl ⟨hs, hown⟩
      · exact Or.inr h

theorem scale_pos : 0 < scale := by decide

theorem lowest_pos : 0 < 512 * scale := by decide

theorem scale_le : scale ≤ 256 ^ 4 := by decide

theorem ransL_eq : 512 * scale = ransL := by decide

theorem ransHigh_eq : 256 * (512 * scale) = 2 ^ 31 := by decide

/-- **The states of the encoder** have 31 bits, and the highest byte is not
empty. -/
theorem inRange_iff {x : ℕ} : Slots.InRange 512 scale x ↔ ransL ≤ x ∧ x < 2 ^ 31 := by
  rw [Slots.InRange, ransHigh_eq, ransL_eq]

section Valid

variable {t : Table} (h : t.validate = .ok ())

include h

/-- **A slot holds the nibble that owns it.** -/
theorem slotSymbol_of_mem {s : Nibble} {i : ℕ} (hlo : t.start s ≤ i)
    (hhi : i < t.start s + t.freq s) : t.slotSymbol i = s :=
  foldl_owner (fun _ hs' hown => (divides_of_validate h).unique hs' (mem_finRange s) hown
    ⟨hlo, hhi⟩) 0 (Or.inl ⟨mem_finRange s, hlo, hhi⟩)

/-- **The coder of a table.** -/
def slots : Slots Nibble where
  scale := scale
  freq := t.freq
  start := t.start
  symbolAt := t.slotSymbol
  inside s := ((divides_of_validate h).within s (mem_finRange s)).2
  symbolAt_of_mem _ _ := slotSymbol_of_mem h
  mem_symbolAt i hi := by
    obtain ⟨s, -, howns⟩ := (divides_of_validate h).covered i (Nat.zero_le _) hi
    rwa [slotSymbol_of_mem h howns.1 howns.2]

theorem freq_le (s : Nibble) : t.freq s ≤ scale :=
  le_trans (Nat.le_add_left _ _) ((slots h).inside s)

/-! ## Encoding -/

theorem encodeSymbol_eq {s : Nibble} (hs : t.freq s ≠ 0) (p : ℕ × List UInt8) :
    encodeSymbol t p s = .ok ((slots h).encodeStep 512 4 s p) := by
  have hle := freq_le h s
  have hmax : ¬ 2 ^ 17 * t.freq s > u32Max := by
    refine not_lt.mpr (le_trans (Nat.mul_le_mul_left _ hle) (by decide))
  unfold encodeSymbol
  dsimp only
  rw [refuse_of_not hs, ok_bind, refuse_of_not hmax, ok_bind]
  rfl

/-- Symbols are pushed as the coder does it, if they all own slots. -/
theorem foldlM_encodeSymbol (l : List Nibble) : l.reverse.foldlM (encodeSymbol t) (ransL, [])
      = if ∀ s ∈ l, t.freq s ≠ 0 then .ok ((slots h).encode 512 4 l)
        else .error (.usage "rANS input contains a symbol absent from its table") := by
  induction l with
  | nil => rfl
  | cons s l ih =>
    rw [reverse_cons, foldlM_append, ih]
    by_cases hl : ∀ s' ∈ l, t.freq s' ≠ 0
    · rw [if_pos hl, ok_bind]
      show (encodeSymbol t _ s >>= fun p => pure p) = _
      by_cases hs : t.freq s = 0
      · rw [if_neg fun hall => hall s mem_cons_self hs]
        unfold encodeSymbol
        rw [refuse_of hs]
        rfl
      · rw [if_pos fun s' hs' => (mem_cons.mp hs').elim (fun he => he ▸ hs) (hl s'),
          encodeSymbol_eq h hs]
        rfl
    · rw [if_neg hl, if_neg fun hall => hl fun s' hs' => hall s' (mem_cons_of_mem _ hs')]
      rfl

variable {stream : List UInt8}

/-- **A stream is encoded** if all its symbols own slots: it is the state, and
the bytes that have been spilled. -/
theorem encodeStream_eq_ok : encodeStream t l = .ok stream ↔ (∀ s ∈ l, t.freq s ≠ 0) ∧
      stream = (leBytes 4 ((slots h).encode 512 4 l).1).reverse ++
        ((slots h).encode 512 4 l).2 := by
  unfold encodeStream
  rw [foldlM_encodeSymbol h]
  split_ifs with hl
  · exact ⟨fun heq => ⟨hl, (Except.ok.inj heq).symm⟩, fun heq => congrArg Except.ok heq.2.symm⟩
  · exact ⟨fun heq => (by cases heq), fun heq => absurd heq.1 hl⟩

theorem encode_inRange (hl : ∀ s ∈ l, t.freq s ≠ 0) :
    Slots.InRange 512 scale ((slots h).encode 512 4 l).1 :=
  (slots h).encode_inRange scale_le lowest_pos fun s hs => Nat.pos_of_ne_zero (hl s hs)

/-- The state is the first four bytes of the stream. -/
theorem initialState_encodeStream (hstream : encodeStream t l = .ok stream) :
    4 ≤ stream.length ∧ initialState stream = ((slots h).encode 512 4 l).1 ∧
      stream.drop 4 = ((slots h).encode 512 4 l).2 := by
  obtain ⟨hl, rfl⟩ := (encodeStream_eq_ok h).mp hstream
  have hlen : (leBytes 4 ((slots h).encode 512 4 l).1).reverse.length = 4 := by
    rw [length_reverse, length_leBytes]
  have hst : ((slots h).encode 512 4 l).1 < 256 ^ 4 :=
    lt_trans (inRange_iff.mp (encode_inRange h hl)).2 (by norm_num)
  refine ⟨by rw [length_append, hlen]; omega, ?_, ?_⟩
  · rw [initialState, take_append_of_le_length (le_of_eq hlen.symm),
      take_of_length_le (le_of_eq hlen), reverse_reverse, leNat_leBytes hst]
  · rw [drop_append_of_le_length (le_of_eq hlen.symm), drop_of_length_le (le_of_eq hlen),
      nil_append]

/-! ## Decoding -/

theorem decodeSymbols_eq (n x : ℕ) (bytes : List UInt8) : decodeSymbols t t.slotSymbol n x bytes
      = (((slots h).decode 512 n (x, bytes)).1, ((slots h).decode 512 n (x, bytes)).2.1,
        ((slots h).decode 512 n (x, bytes)).2.2) := by
  induction n generalizing x bytes with
  | zero => rfl
  | succ n ih =>
    have hst : (slots h).decodeStep 512 (x, bytes)
        = (t.slotSymbol (x % scale), Slots.refill ransL (t.freq (t.slotSymbol (x % scale)) *
            (x / scale) + x % scale - t.start (t.slotSymbol (x % scale))) bytes) := rfl
    rw [decodeSymbols, Slots.decode, hst]
    dsimp only
    rw [ih]

/-- **A stream is decoded** if its state is not too small, and the coder ends
with the lowest state and without a byte left. -/
theorem decodeStreamChecked_eq_ok {n : ℕ} :
    decodeStreamChecked stream n t t.slotSymbol = .ok l ↔ 4 ≤ stream.length ∧
      ransL ≤ initialState stream ∧
      (slots h).decode 512 n (initialState stream, stream.drop 4) = (l, (ransL, [])) := by
  unfold decodeStreamChecked
  rw [decodeSymbols_eq h]
  simp only [bind_eq_ok, refuse_eq_ok, not_lt, not_not]
  generalize (slots h).decode 512 n (initialState stream, stream.drop 4) = q
  obtain ⟨symbols, state, bytes⟩ := q
  constructor
  · rintro ⟨-, hlen, -, hlow, -, hbytes, -, hst, heq⟩
    obtain rfl := Except.ok.inj heq
    exact ⟨hlen, hlow, Prod.ext rfl (Prod.ext hst hbytes)⟩
  · rintro ⟨hlen, hlow, heq⟩
    obtain ⟨rfl, hres⟩ := Prod.mk.inj heq
    cases hres
    exact ⟨(), hlen, (), hlow, (), rfl, (), rfl, rfl⟩

/-- **What has been encoded is decoded.** -/
theorem decodeStream_encodeStream (hstream : encodeStream t l = .ok stream) :
    decodeStreamChecked stream l.length t t.slotSymbol = .ok l := by
  obtain ⟨hl, -⟩ := (encodeStream_eq_ok h).mp hstream
  obtain ⟨hlen, hst, hres⟩ := initialState_encodeStream h hstream
  refine (decodeStreamChecked_eq_ok h).mpr ⟨hlen, ?_, ?_⟩
  · rw [hst]
    exact (inRange_iff.mp (encode_inRange h hl)).1
  · rw [hst, hres, Prod.mk.eta]
    exact (slots h).decode_encode scale_le lowest_pos fun s hs => Nat.pos_of_ne_zero (hl s hs)

/-- The symbols that are decoded own slots. -/
theorem freq_ne_zero_of_decode {n : ℕ}
    (hdec : decodeStreamChecked stream n t t.slotSymbol = .ok l) :
    l.length = n ∧ ∀ s ∈ l, t.freq s ≠ 0 := by
  obtain ⟨-, -, heq⟩ := (decodeStreamChecked_eq_ok h).mp hdec
  have hl : l = ((slots h).decode 512 n (initialState stream, stream.drop 4)).1 := by rw [heq]
  subst hl
  exact ⟨(slots h).length_decode n, fun s hs =>
    Nat.pos_iff_ne_zero.mp ((slots h).freq_pos_of_decode scale_pos n s hs)⟩

/-- **What has been decoded is its own encoding** exactly if its state is one
of the encoder's. -/
theorem encodeStream_iff_of_decode {n : ℕ}
    (hdec : decodeStreamChecked stream n t t.slotSymbol = .ok l) :
    encodeStream t l = .ok stream ↔ initialState stream < 2 ^ 31 := by
  obtain ⟨hlen, hlow, heq⟩ := (decodeStreamChecked_eq_ok h).mp hdec
  obtain ⟨-, hl⟩ := freq_ne_zero_of_decode h hdec
  constructor
  · intro henc
    obtain ⟨-, hst, -⟩ := initialState_encodeStream h henc
    rw [hst]
    exact (inRange_iff.mp (encode_inRange h hl)).2
  · intro hhig
    have henc : (slots h).encode 512 4 l = (initialState stream, stream.drop 4) :=
      (slots h).encode_of_decode scale_pos scale_le (inRange_iff.mpr ⟨hlow, hhig⟩)
        (heq.trans (by rw [← ransL_eq]; rfl))
    refine (encodeStream_eq_ok h).mpr ⟨hl, ?_⟩
    have htak : (stream.take 4).reverse.length = 4 := by
      rw [length_reverse, length_take]
      omega
    have hbytes := leBytes_leNat (stream.take 4).reverse
    rw [htak] at hbytes
    rw [henc]
    show stream = (leBytes 4 (initialState stream)).reverse ++ stream.drop 4
    rw [initialState, hbytes, reverse_reverse, take_append_drop]

/-! ## How long a stream is -/

/-- **A stream of symbols that do not own every slot** takes a byte for every
2^18 of them. -/
theorem length_lt_encodeStream (hstream : encodeStream t l = .ok stream)
    (hl : ∀ s ∈ l, t.freq s ≠ scale) : l.length + 1 < 2 ^ 18 * stream.length := by
  obtain ⟨hpos, rfl⟩ := (encodeStream_eq_ok h).mp hstream
  have hdbl : 512 * scale ≤ 16417 * (512 - 1) := by decide
  have hlt : l.length < 8 * 16417 * (((slots h).encode 512 4 l).2.length + 1) :=
    (slots h).length_lt_encode scale_le lowest_pos hdbl fun s hs =>
      ⟨Nat.pos_of_ne_zero (hpos s hs), lt_of_le_of_ne (freq_le h s) (hl s hs)⟩
  rw [length_append, length_reverse, length_leBytes]
  omega

end Valid

end Rans256

end Logan
