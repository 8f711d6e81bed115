import Mathlib.Tactic

/-!
# Range coding with a numeral system

A symbol `s` owns `freq s` of the `scale` slots, from slot `start s` on. The
coder has a state, a number, and pushes a symbol into it: a state `y` becomes
`(y / freq s) * scale + start s + y % freq s`, which tells the symbol by its
slot, its remainder modulo `scale`. So the symbol is popped, and `y` with it.
The state is kept between `low = factor * scale` and `256 * low`: before a
symbol is pushed, low bytes are spilled until there is room for it, and after
one is popped the state is refilled with bytes.

Pushing and popping undo each other, in both directions: what is decoded is
what has been encoded, and what decodes to some symbols – from a state in the
range, down to the initial one – is their encoding. A symbol adds to the
state at least its share of it, so that a state which has room for symbols
without end is that of a symbol that owns every slot.
-/

namespace Logan

open List
open Nat (div_add_mod mod_lt mul_le_mul_left mul_succ zero_le)

/-- **The slots of a coder**, each of which belongs to one symbol. -/
structure Slots (S : Type) where
  scale : ℕ
  freq : S → ℕ
  start : S → ℕ
  /-- The symbol that a slot belongs to. -/
  symbolAt : ℕ → S
  /-- The slots of a symbol are slots. -/
  inside : ∀ s, start s + freq s ≤ scale
  /-- A slot of a symbol belongs to it. -/
  symbolAt_of_mem : ∀ s i, start s ≤ i → i < start s + freq s → symbolAt i = s
  /-- A slot belongs to a symbol that owns it. -/
  mem_symbolAt : ∀ i < scale, start (symbolAt i) ≤ i ∧ i < start (symbolAt i) + freq (symbolAt i)

namespace Slots

variable {S : Type} (m : Slots S)

/-! ## Bytes out of the state, and back -/

/-- Low bytes leave the state as long as it is not below the limit: at most `fuel` of them. -/
def spill (limit : ℕ) : ℕ → ℕ → List UInt8 → ℕ × List UInt8
  | 0, x, out => (x, out)
  | fuel + 1, x, out =>
    if limit ≤ x then spill limit fuel (x / 256) (UInt8.ofNat x :: out) else (x, out)

/-- Bytes enter the state as long as it is below `low`, and there are any. -/
def refill (low : ℕ) : ℕ → List UInt8 → ℕ × List UInt8
  | x, [] => (x, [])
  | x, b :: rest => if x < low then refill low (x * 256 + b.toNat) rest else (x, b :: rest)

variable {limit low fuel x y z : ℕ} {out rest bytes : List UInt8}

theorem refill_of_le (h : low ≤ x) : refill low x bytes = (x, bytes) := by
  cases bytes with
  | nil => rfl
  | cons => rw [refill, if_neg (not_lt.mpr h)]

theorem spill_of_lt (h : x < limit) : spill limit fuel x out = (x, out) := by
  cases fuel with
  | zero => rfl
  | succ => rw [spill, if_neg (not_le.mpr h)]

theorem div_mul_add_ofNat (x : ℕ) : x / 256 * 256 + (UInt8.ofNat x).toNat = x := by
  rw [UInt8.toNat_ofNat', mul_comm]
  exact div_add_mod x 256

/-- **What has been spilled is refilled.** -/
theorem refill_spill (h : x < 256 * low) :
    refill low (spill limit fuel x out).1 (spill limit fuel x out).2 = refill low x out := by
  induction fuel generalizing x out with
  | zero => rfl
  | succ fuel ih =>
    rw [spill]
    split_ifs with hlim
    · have hdiv : x / 256 < low := Nat.div_lt_of_lt_mul h
      rw [ih (by omega), refill, if_pos hdiv, div_mul_add_ofNat]
    · rfl

theorem spill_lt (h : x < limit * 256 ^ fuel) : (spill limit fuel x out).1 < limit := by
  induction fuel generalizing x out with
  | zero => rwa [pow_zero, mul_one] at h
  | succ fuel ih =>
    rw [spill]
    split_ifs with hlim
    · refine ih (Nat.div_lt_of_lt_mul ?_)
      rw [pow_succ, ← mul_assoc] at h
      rwa [mul_comm]
    · exact not_le.mp hlim

/-- No more bytes are spilled than needed. -/
theorem le_spill {least : ℕ} (h : least ≤ x) (hlim : 256 * least ≤ limit) :
    least ≤ (spill limit fuel x out).1 := by
  induction fuel generalizing x out with
  | zero => exact h
  | succ fuel ih =>
    rw [spill]
    split_ifs with hx
    · refine ih ((Nat.le_div_iff_mul_le (by decide)).mpr ?_)
      rw [mul_comm]
      exact le_trans hlim hx
    · exact h

/-- More fuel than needed makes no difference. -/
theorem spill_succ (h : x < limit * 256 ^ fuel) :
    spill limit (fuel + 1) x out = spill limit fuel x out := by
  induction fuel generalizing x out with
  | zero =>
    rw [pow_zero, mul_one] at h
    exact spill_of_lt h
  | succ fuel ih =>
    by_cases hlim : limit ≤ x
    · have hdiv : x / 256 < limit * 256 ^ fuel := by
        refine Nat.div_lt_of_lt_mul ?_
        rw [pow_succ, ← mul_assoc] at h
        rwa [mul_comm]
      calc spill limit (fuel + 2) x out
          = spill limit (fuel + 1) (x / 256) (UInt8.ofNat x :: out) := if_pos hlim
        _ = spill limit fuel (x / 256) (UInt8.ofNat x :: out) := ih hdiv
        _ = spill limit (fuel + 1) x out := (if_pos hlim).symm
    · rw [spill_of_lt (not_le.mp hlim), spill_of_lt (not_le.mp hlim)]

theorem le_refill (low x : ℕ) (bytes : List UInt8) : x ≤ (refill low x bytes).1 := by
  induction bytes generalizing x with
  | nil => exact le_rfl
  | cons b rest ih =>
    rw [refill]
    split_ifs
    · exact le_trans (by omega) (ih _)
    · exact le_rfl

theorem refill_lt (h : x < 256 * low) : (refill low x bytes).1 < 256 * low := by
  induction bytes generalizing x with
  | nil => exact h
  | cons b rest ih =>
    have hb := b.toNat_lt
    rw [refill]
    split_ifs
    · exact ih (by omega)
    · exact h

/-- **What has been refilled is spilled**, if the state was not so small that
a byte was already missing. -/
theorem spill_refill {least : ℕ} (hlim : limit = 256 * least) (hlst : least ≤ z)
    (h : refill low z bytes = (x, rest)) (hx : x < limit * 256 ^ fuel) :
    spill limit fuel x rest = spill limit fuel z bytes := by
  induction bytes generalizing z with
  | nil =>
    obtain ⟨rfl, rfl⟩ := Prod.mk.inj h
    rfl
  | cons b bytes ih =>
    rw [refill] at h
    split_ifs at h with hz
    · have hle : z * 256 + b.toNat ≤ x := by
        have href := le_refill low (z * 256 + b.toNat) bytes
        rwa [h] at href
      rw [ih (by omega) h]
      have hb := b.toNat_lt
      have hdiv : (z * 256 + b.toNat) / 256 = z := by omega
      have hbyt : UInt8.ofNat (z * 256 + b.toNat) = b := by
        refine UInt8.toNat_inj.mp ?_
        rw [UInt8.toNat_ofNat']
        omega
      have hge : limit ≤ z * 256 + b.toNat := by omega
      cases fuel with
      | zero =>
        rw [pow_zero, mul_one] at hx
        omega
      | succ =>
        rw [spill, if_pos hge, hdiv, hbyt, spill_succ]
        refine Nat.lt_of_mul_lt_mul_right (a := 256) ?_
        rw [mul_assoc, ← pow_succ]
        omega
    · cases h
      rfl

/-! ## Pushing and popping a symbol -/

variable {factor : ℕ} {s : S}

/-- A symbol goes into a state that has room for it. -/
def push (s : S) (y : ℕ) : ℕ := y / m.freq s * m.scale + y % m.freq s + m.start s

/-- The symbol of a state. -/
def top (x : ℕ) : S := m.symbolAt (x % m.scale)

/-- What is left of a state without its symbol. -/
def pop (x : ℕ) : ℕ :=
  m.freq (m.top x) * (x / m.scale) + x % m.scale - m.start (m.top x)

/-- Where a symbol is in the scale after it has been pushed. -/
theorem push_slot (hs : 0 < m.freq s) :
    m.push s y % m.scale = m.start s + y % m.freq s ∧ m.push s y / m.scale = y / m.freq s := by
  have hmod := mod_lt y hs
  have hins := m.inside s
  have hlt : y % m.freq s + m.start s < m.scale := by omega
  have hpos : 0 < m.scale := by omega
  rw [push, add_assoc, mul_comm]
  constructor
  · rw [Nat.mul_add_mod, Nat.mod_eq_of_lt hlt, add_comm]
  · rw [Nat.mul_add_div hpos, Nat.div_eq_of_lt hlt, add_zero]

/-- **The symbol that has been pushed is on top.** -/
theorem top_push (hs : 0 < m.freq s) : m.top (m.push s y) = s := by
  have hmod := mod_lt y hs
  rw [top, (m.push_slot hs).1]
  exact m.symbolAt_of_mem s _ (Nat.le_add_right _ _) (by omega)

/-- **What has been pushed is popped.** -/
theorem pop_push (hs : 0 < m.freq s) : m.pop (m.push s y) = y := by
  rw [pop, m.top_push hs, (m.push_slot hs).1, (m.push_slot hs).2, ← add_assoc,
    Nat.add_right_comm, Nat.add_sub_cancel]
  exact div_add_mod y (m.freq s)

section Pop

variable (hscale : 0 < m.scale)

include hscale

theorem freq_top_pos (x : ℕ) : 0 < m.freq (m.top x) := by
  have h := m.mem_symbolAt _ (mod_lt x hscale)
  have htop : m.top x = m.symbolAt (x % m.scale) := rfl
  rw [← htop] at h
  omega

/-- What is popped, by the quotient and the remainder that it is made of. -/
theorem pop_eq (x : ℕ) : ∃ r < m.freq (m.top x), m.pop x = m.freq (m.top x) * (x / m.scale) + r ∧
    x % m.scale = m.start (m.top x) + r := by
  have h := m.mem_symbolAt _ (mod_lt x hscale)
  have htop : m.top x = m.symbolAt (x % m.scale) := rfl
  rw [← htop] at h
  refine ⟨x % m.scale - m.start (m.top x), by omega, ?_, by omega⟩
  rw [pop]
  omega

/-- **What has been popped is pushed.** -/
theorem push_pop (x : ℕ) : m.push (m.top x) (m.pop x) = x := by
  obtain ⟨r, hr, hpop, hmod⟩ := m.pop_eq hscale x
  have hpos := m.freq_top_pos hscale x
  rw [push, hpop, Nat.mul_add_div hpos, Nat.div_eq_of_lt hr, add_zero, Nat.mul_add_mod,
    Nat.mod_eq_of_lt hr, add_assoc, add_comm r, ← hmod, mul_comm]
  exact div_add_mod x m.scale

theorem pop_le (x : ℕ) : m.pop x ≤ x := by
  obtain ⟨r, hr, hpop, hmod⟩ := m.pop_eq hscale x
  have hins := m.inside (m.top x)
  have hle : m.freq (m.top x) * (x / m.scale) ≤ m.scale * (x / m.scale) :=
    Nat.mul_le_mul_right _ (by omega)
  have hx := div_add_mod x m.scale
  omega

/-- A state in the range has room for its symbol when it is popped. -/
theorem pop_bounds {x : ℕ} (hlow : factor * m.scale ≤ x) : factor * m.freq (m.top x) ≤ m.pop x ∧
      (x < 256 * (factor * m.scale) → m.pop x < 256 * factor * m.freq (m.top x)) := by
  obtain ⟨r, hr, hpop, -⟩ := m.pop_eq hscale x
  rw [hpop]
  constructor
  · have hq : factor ≤ x / m.scale := (Nat.le_div_iff_mul_le hscale).mpr hlow
    rw [mul_comm factor]
    exact le_trans (mul_le_mul_left _ hq) (Nat.le_add_right _ _)
  · intro hhig
    have hq : x / m.scale < 256 * factor := by
      refine (Nat.div_lt_iff_lt_mul hscale).mpr ?_
      rwa [mul_assoc]
    calc m.freq (m.top x) * (x / m.scale) + r
        < m.freq (m.top x) * (x / m.scale) + m.freq (m.top x) := by omega
      _ = m.freq (m.top x) * (x / m.scale + 1) := by rw [mul_succ]
      _ ≤ m.freq (m.top x) * (256 * factor) := mul_le_mul_left _ hq
      _ = 256 * factor * m.freq (m.top x) := mul_comm _ _

end Pop

/-- **Pushing keeps the state in its range.** -/
theorem push_bounds (hs : 0 < m.freq s) (hlow : factor * m.freq s ≤ y)
    (hhig : y < 256 * factor * m.freq s) :
    factor * m.scale ≤ m.push s y ∧ m.push s y < 256 * (factor * m.scale) := by
  have hq : factor ≤ y / m.freq s := (Nat.le_div_iff_mul_le hs).mpr hlow
  have hq' : y / m.freq s < 256 * factor := (Nat.div_lt_iff_lt_mul hs).mpr hhig
  have hmod := mod_lt y hs
  have hins := m.inside s
  rw [push]
  constructor
  · exact le_trans (Nat.mul_le_mul_right _ hq) (by omega)
  · calc y / m.freq s * m.scale + y % m.freq s + m.start s
        < y / m.freq s * m.scale + m.scale := by omega
      _ = (y / m.freq s + 1) * m.scale := by rw [Nat.succ_mul]
      _ ≤ 256 * factor * m.scale := Nat.mul_le_mul_right _ hq'
      _ = 256 * (factor * m.scale) := mul_assoc _ _ _

/-! ## Encoding and decoding -/

/-- One symbol is encoded, in front of what is encoded already. -/
def encodeStep (factor fuel : ℕ) (s : S) (p : ℕ × List UInt8) : ℕ × List UInt8 :=
  let q := spill (256 * factor * m.freq s) fuel p.1 p.2
  (m.push s q.1, q.2)

/-- **Symbols are encoded**, the last one first, from the lowest state on. -/
def encode (factor fuel : ℕ) (l : List S) : ℕ × List UInt8 :=
  l.foldr (m.encodeStep factor fuel) (factor * m.scale, [])

/-- One symbol is decoded. -/
def decodeStep (factor : ℕ) (p : ℕ × List UInt8) : S × (ℕ × List UInt8) :=
  (m.top p.1, refill (factor * m.scale) (m.pop p.1) p.2)

/-- **`n` symbols are decoded**, the first one first. -/
def decode (factor : ℕ) : ℕ → ℕ × List UInt8 → List S × (ℕ × List UInt8)
  | 0, p => ([], p)
  | n + 1, p =>
    let q := decode factor n (m.decodeStep factor p).2
    ((m.decodeStep factor p).1 :: q.1, q.2)

variable {p : ℕ × List UInt8} {l : List S}

/-- The states between symbols. -/
def InRange (factor scale x : ℕ) : Prop := factor * scale ≤ x ∧ x < 256 * (factor * scale)

section Steps

variable (hfuel : m.scale ≤ 256 ^ fuel)

include hfuel

/-- Before a symbol is pushed there is room for it. -/
theorem spill_bounds (hs : 0 < m.freq s) (hp : InRange factor m.scale p.1) :
    factor * m.freq s ≤ (spill (256 * factor * m.freq s) fuel p.1 p.2).1 ∧
      (spill (256 * factor * m.freq s) fuel p.1 p.2).1 < 256 * factor * m.freq s := by
  have hins := m.inside s
  constructor
  · refine le_spill (le_trans (mul_le_mul_left _ (by omega)) hp.1) ?_
    rw [mul_assoc]
  · refine spill_lt (lt_of_lt_of_le hp.2 ?_)
    rw [← mul_assoc]
    exact Nat.mul_le_mul (Nat.le_mul_of_pos_right _ hs) hfuel

theorem encodeStep_inRange (hs : 0 < m.freq s) (hp : InRange factor m.scale p.1) :
    InRange factor m.scale (m.encodeStep factor fuel s p).1 :=
  have h := m.spill_bounds hfuel hs hp
  m.push_bounds hs h.1 h.2

omit hfuel in
/-- **A symbol that has been encoded is decoded.** -/
theorem decodeStep_encodeStep (hs : 0 < m.freq s) (hp : InRange factor m.scale p.1) :
    m.decodeStep factor (m.encodeStep factor fuel s p) = (s, p) := by
  rw [decodeStep, encodeStep]
  rw [m.top_push hs, m.pop_push hs, refill_spill hp.2, refill_of_le hp.1]

/-- **A symbol that has been decoded is encoded**, if the state was and is in
its range. -/
theorem encodeStep_decodeStep (hscale : 0 < m.scale) (hp : InRange factor m.scale p.1)
    (hlow : factor * m.scale ≤ (m.decodeStep factor p).2.1) :
    m.encodeStep factor fuel (m.decodeStep factor p).1 (m.decodeStep factor p).2 = p := by
  obtain ⟨x, bytes⟩ := p
  have hbnd := m.pop_bounds hscale hp.1
  have hpos := m.freq_top_pos hscale x
  have hhig : (m.decodeStep factor (x, bytes)).2.1 < 256 * (factor * m.scale) :=
    refill_lt (lt_of_le_of_lt (m.pop_le hscale x) hp.2)
  have hrm : (m.decodeStep factor (x, bytes)).2.1
      < 256 * factor * m.freq (m.top x) * 256 ^ fuel := by
    refine lt_of_lt_of_le hhig ?_
    rw [← mul_assoc]
    exact Nat.mul_le_mul (Nat.le_mul_of_pos_right _ hpos) hfuel
  have hsp := spill_refill (mul_assoc _ _ _) hbnd.1 rfl hrm
  rw [spill_of_lt (hbnd.2 hp.2)] at hsp
  unfold encodeStep decodeStep
  dsimp only
  rw [hsp, m.push_pop hscale]

theorem encode_inRange (hpos : 0 < factor * m.scale) (hl : ∀ s ∈ l, 0 < m.freq s) :
    InRange factor m.scale (m.encode factor fuel l).1 := by
  induction l with
  | nil => exact ⟨le_rfl, by show factor * m.scale < _; omega⟩
  | cons s l ih =>
    exact m.encodeStep_inRange hfuel (hl s mem_cons_self)
      (ih fun t ht => hl t (mem_cons_of_mem _ ht))

/-- **What has been encoded is decoded**, down to the lowest state and without
a byte left. -/
theorem decode_encode (hpos : 0 < factor * m.scale) (hl : ∀ s ∈ l, 0 < m.freq s) :
    m.decode factor l.length (m.encode factor fuel l) = (l, (factor * m.scale, [])) := by
  induction l with
  | nil => rfl
  | cons s l ih =>
    have hl' : ∀ t ∈ l, 0 < m.freq t := fun t ht => hl t (mem_cons_of_mem _ ht)
    have hst : m.decodeStep factor (m.encodeStep factor fuel s (m.encode factor fuel l))
        = (s, m.encode factor fuel l) :=
      m.decodeStep_encodeStep (hl s mem_cons_self) (m.encode_inRange hfuel hpos hl')
    have hcon : m.encode factor fuel (s :: l)
        = m.encodeStep factor fuel s (m.encode factor fuel l) := rfl
    rw [length_cons, decode, hcon, hst, ih hl']

end Steps

/-! ## Canonicity -/

theorem length_decode (n : ℕ) : (m.decode factor n p).1.length = n := by
  induction n generalizing p with
  | zero => rfl
  | succ n ih => exact congrArg Nat.succ ih

theorem refill_nil (h : (refill low x bytes).1 < low) : (refill low x bytes).2 = [] := by
  induction bytes generalizing x with
  | nil => rfl
  | cons b rest ih =>
    rw [refill] at h ⊢
    split_ifs at h ⊢ with hx
    · exact ih h
    · exact absurd h hx

section Canonical

variable (hscale : 0 < m.scale)

include hscale

/-- What is decoded owns slots. -/
theorem freq_pos_of_decode (n : ℕ) : ∀ s ∈ (m.decode factor n p).1, 0 < m.freq s := by
  induction n generalizing p with
  | zero => exact fun s hs => absurd hs not_mem_nil
  | succ n ih =>
    intro s hs
    rcases mem_cons.mp hs with rfl | hs
    · exact m.freq_top_pos hscale p.1
    · exact ih s hs

/-- Without a byte left the state does not grow any more. -/
theorem decode_nil_le (n : ℕ) : (m.decode factor n (x, [])).2.1 ≤ x := by
  induction n generalizing x with
  | zero => exact le_rfl
  | succ n ih => exact le_trans (ih (x := m.pop x)) (m.pop_le hscale x)

/-- **What decodes to some symbols is their encoding**, if its state is in the
range: the induction is on the symbols, and a state that fell below the range
would never come back to it. -/
theorem encode_of_decode {n : ℕ} (hfuel : m.scale ≤ 256 ^ fuel) (hp : InRange factor m.scale p.1)
    (h : m.decode factor n p = (l, (factor * m.scale, []))) : m.encode factor fuel l = p := by
  induction n generalizing p l with
  | zero =>
    obtain ⟨rfl, rfl⟩ := Prod.mk.inj h
    rfl
  | succ n ih =>
    obtain ⟨rfl, hres⟩ := Prod.mk.inj h
    have hlow : factor * m.scale ≤ (m.decodeStep factor p).2.1 := by
      by_contra hlt
      have hnil := refill_nil (not_le.mp hlt)
      have hle : (m.decode factor n ((m.decodeStep factor p).2.1, [])).2.1
          ≤ (m.decodeStep factor p).2.1 := m.decode_nil_le hscale n
      have hpr : (m.decodeStep factor p).2 = ((m.decodeStep factor p).2.1, []) :=
        Prod.ext rfl hnil
      rw [← hpr, hres] at hle
      exact hlt hle
    have hrng : InRange factor m.scale (m.decodeStep factor p).2.1 :=
      ⟨hlow, refill_lt (lt_of_le_of_lt (m.pop_le hscale p.1) hp.2)⟩
    have henc := ih hrng (Prod.ext rfl hres)
    show m.encodeStep factor fuel _ (m.encode factor fuel _) = p
    rw [henc]
    exact m.encodeStep_decodeStep hfuel hscale hp hlow

end Canonical

/-! ## How long an encoding is -/

/-- A spill leaves everything as it is, or emits a byte. -/
theorem spill_cases (limit fuel x : ℕ) (out : List UInt8) :
    spill limit fuel x out = (x, out) ∨ out.length < (spill limit fuel x out).2.length := by
  induction fuel generalizing x out with
  | zero => exact Or.inl rfl
  | succ fuel ih =>
    rw [spill]
    split_ifs
    · refine Or.inr ?_
      rcases ih (x / 256) (UInt8.ofNat x :: out) with h | h
      · rw [h]
        exact Nat.lt_succ_self _
      · exact lt_trans (Nat.lt_succ_self _) h
    · exact Or.inl rfl

/-- **Rare symbols take a byte each**: there is no room for them in any state
of the range. -/
theorem length_le_encode (hfuel : m.scale ≤ 256 ^ fuel) (hpos : 0 < factor * m.scale)
    (hl : ∀ s ∈ l, 0 < m.freq s ∧ 256 * m.freq s ≤ m.scale) :
    l.length ≤ (m.encode factor fuel l).2.length := by
  induction l with
  | nil => exact zero_le _
  | cons s l ih =>
    have hl' : ∀ t ∈ l, 0 < m.freq t ∧ 256 * m.freq t ≤ m.scale := fun t ht =>
      hl t (mem_cons_of_mem _ ht)
    have hrng := m.encode_inRange hfuel hpos fun t ht => (hl' t ht).1
    obtain ⟨hs, hrar⟩ := hl s mem_cons_self
    have hbnd := m.spill_bounds hfuel hs hrng
    rcases spill_cases (256 * factor * m.freq s) fuel (m.encode factor fuel l).1
      (m.encode factor fuel l).2 with h | h
    · rw [h] at hbnd
      have hle : 256 * factor * m.freq s ≤ factor * m.scale := by
        rw [mul_comm 256, mul_assoc]
        exact mul_le_mul_left _ hrar
      have hlow := hrng.1
      omega
    · rw [length_cons]
      exact lt_of_le_of_lt (ih hl') h

/-- **A symbol adds its share** to the state, unless it owns every slot. -/
theorem push_growth (hs : 0 < m.freq s) (hlt : m.freq s < m.scale) (hy : factor * m.scale ≤ y) :
    y * (factor * m.scale + (factor - 1)) ≤ m.push s y * (factor * m.scale) := by
  have hscale : 0 < m.scale := lt_of_le_of_lt (zero_le _) hlt
  rcases Nat.eq_zero_or_pos factor with rfl | hfac
  · simp
  have hpus : y + y / m.scale ≤ m.push s y := by
    have hdiv := div_add_mod y (m.freq s)
    have hsh : y / m.scale ≤ y / m.freq s := Nat.div_le_div_left (le_of_lt hlt) hs
    have hmul : m.freq s * (y / m.freq s) + y / m.freq s ≤ y / m.freq s * m.scale := by
      rw [mul_comm, ← mul_succ]
      exact mul_le_mul_left _ hlt
    rw [push]
    omega
  have hfl : (factor - 1) * y ≤ y / m.scale * (factor * m.scale) := by
    have hmod := mod_lt y hscale
    have hdiv := div_add_mod y m.scale
    have hmul : factor * (y % m.scale) ≤ y :=
      le_trans (mul_le_mul_left _ (le_of_lt hmod)) hy
    have hsum : factor * y = y / m.scale * (factor * m.scale) + factor * (y % m.scale) := by
      conv_lhs => rw [← hdiv]
      ring
    rw [Nat.sub_mul, one_mul]
    omega
  calc y * (factor * m.scale + (factor - 1))
      = y * (factor * m.scale) + (factor - 1) * y := by rw [Nat.mul_add, mul_comm y (factor - 1)]
    _ ≤ y * (factor * m.scale) + y / m.scale * (factor * m.scale) :=
      Nat.add_le_add_left hfl _
    _ = (y + y / m.scale) * (factor * m.scale) := by rw [Nat.add_mul]
    _ ≤ m.push s y * (factor * m.scale) := Nat.mul_le_mul_right _ hpus

/-- By what a state grows at least when a symbol is pushed that does not own every slot. -/
def growth (factor scale : ℕ) : ℚ := 1 + (factor - 1 : ℕ) / (factor * scale : ℕ)

/-- A state does not grow by 256 in its range: `r` symbols take fewer than
eight times as many steps as double it. -/
theorem lt_of_growth {r R x : ℕ} (hpos : 0 < factor * m.scale)
    (hR : factor * m.scale ≤ R * (factor - 1)) (hx : x < 256 * (factor * m.scale))
    (h : (factor * m.scale : ℕ) * growth factor m.scale ^ r ≤ (x : ℚ)) : r < 8 * R := by
  have hd : (0 : ℚ) < (factor * m.scale : ℕ) := Nat.cast_pos.mpr hpos
  have hone : 1 ≤ growth factor m.scale := by
    unfold growth
    have : (0 : ℚ) ≤ (factor - 1 : ℕ) / (factor * m.scale : ℕ) := by positivity
    linarith
  have hdbl : (2 : ℚ) ≤ growth factor m.scale ^ R := by
    have hsh : (0 : ℚ) ≤ (factor - 1 : ℕ) / (factor * m.scale : ℕ) := by positivity
    have hber : 1 + R * ((factor - 1 : ℕ) / (factor * m.scale : ℕ) : ℚ)
        ≤ growth factor m.scale ^ R := one_add_mul_le_pow (by linarith) R
    refine le_trans ?_ hber
    have hrat : (1 : ℚ) ≤ R * ((factor - 1 : ℕ) / (factor * m.scale : ℕ)) := by
      rw [← mul_div_assoc, le_div_iff₀ hd, one_mul]
      exact_mod_cast hR
    linarith
  by_contra hr
  have h256 : (256 : ℚ) ≤ growth factor m.scale ^ r := by
    calc (256 : ℚ) = 2 ^ 8 := by norm_num
      _ ≤ (growth factor m.scale ^ R) ^ 8 := pow_le_pow_left₀ (by norm_num) hdbl 8
      _ = growth factor m.scale ^ (8 * R) := by rw [← pow_mul, mul_comm]
      _ ≤ growth factor m.scale ^ r := pow_le_pow_right₀ hone (not_lt.mp hr)
  have hlt : (x : ℚ) < 256 * (factor * m.scale : ℕ) := by exact_mod_cast hx
  have hle := mul_le_mul_of_nonneg_left h256 (le_of_lt hd)
  linarith

/-- **Symbols that do not own every slot take bytes**: at least one for every
so many of them. The induction carries how far the state has grown since the
last byte was spilled. -/
theorem length_lt_encode {R : ℕ} (hfuel : m.scale ≤ 256 ^ fuel) (hpos : 0 < factor * m.scale)
    (hR : factor * m.scale ≤ R * (factor - 1)) (hl : ∀ s ∈ l, 0 < m.freq s ∧ m.freq s < m.scale) :
    l.length < 8 * R * ((m.encode factor fuel l).2.length + 1) := by
  have hd : (0 : ℚ) < (factor * m.scale : ℕ) := Nat.cast_pos.mpr hpos
  have hgr : ∃ r, l.length ≤ 8 * R * (m.encode factor fuel l).2.length + r ∧
      (factor * m.scale : ℕ) * growth factor m.scale ^ r ≤ ((m.encode factor fuel l).1 : ℚ) := by
    induction l with
    | nil => exact ⟨0, zero_le _, by rw [pow_zero, mul_one]; exact le_rfl⟩
    | cons s l ih =>
      have hl' : ∀ t ∈ l, 0 < m.freq t ∧ m.freq t < m.scale := fun t ht =>
        hl t (mem_cons_of_mem _ ht)
      obtain ⟨hs, hlt⟩ := hl s mem_cons_self
      obtain ⟨r, hlen, hgrw⟩ := ih hl'
      have hrng := m.encode_inRange hfuel hpos fun t ht => (hl' t ht).1
      have hst := m.encodeStep_inRange hfuel hs hrng
      have hr := m.lt_of_growth hpos hR hrng.2 hgrw
      have hcon : m.encode factor fuel (s :: l)
          = m.encodeStep factor fuel s (m.encode factor fuel l) := rfl
      rw [hcon, length_cons]
      rcases spill_cases (256 * factor * m.freq s) fuel (m.encode factor fuel l).1
        (m.encode factor fuel l).2 with h | h
      · -- no byte is spilled, and the state grows
        refine ⟨r + 1, ?_, ?_⟩
        · rw [encodeStep, h]
          show l.length + 1 ≤ 8 * R * (m.encode factor fuel l).2.length + (r + 1)
          omega
        · rw [encodeStep, h]
          have hpus := m.push_growth hs hlt hrng.1
          have hcas : ((m.encode factor fuel l).1 : ℚ) * growth factor m.scale
              ≤ (m.push s (m.encode factor fuel l).1 : ℚ) := by
            unfold growth
            rw [mul_add, mul_one, ← mul_div_assoc, ← le_sub_iff_add_le', div_le_iff₀ hd, sub_mul]
            have hpus' : ((m.encode factor fuel l).1 : ℚ) *
                ((factor * m.scale : ℕ) + (factor - 1 : ℕ))
                ≤ (m.push s (m.encode factor fuel l).1 : ℚ) * (factor * m.scale : ℕ) := by
              exact_mod_cast hpus
            linarith
          have hgro : (0 : ℚ) ≤ growth factor m.scale := by
            unfold growth
            positivity
          calc ((factor * m.scale : ℕ) : ℚ) * growth factor m.scale ^ (r + 1)
              = (factor * m.scale : ℕ) * growth factor m.scale ^ r * growth factor m.scale := by
                rw [pow_succ, mul_assoc]
            _ ≤ (m.encode factor fuel l).1 * growth factor m.scale :=
              mul_le_mul_of_nonneg_right hgrw hgro
            _ ≤ _ := hcas
      · -- a byte is spilled, and the count starts anew
        refine ⟨0, ?_, ?_⟩
        · have hbytes : (m.encode factor fuel l).2.length + 1
              ≤ (m.encodeStep factor fuel s (m.encode factor fuel l)).2.length := h
          calc l.length + 1 ≤ 8 * R * (m.encode factor fuel l).2.length + r + 1 := by omega
            _ ≤ 8 * R * (m.encode factor fuel l).2.length + 8 * R := by omega
            _ = 8 * R * ((m.encode factor fuel l).2.length + 1) := by rw [mul_succ]
            _ ≤ _ := mul_le_mul_left _ hbytes
        · rw [pow_zero, mul_one]
          exact_mod_cast hst.1
  obtain ⟨r, hlen, hgrw⟩ := hgr
  have hrng := m.encode_inRange hfuel hpos fun t ht => (hl t ht).1
  have hr := m.lt_of_growth hpos hR hrng.2 hgrw
  rw [mul_succ]
  omega

end Slots

end Logan
