import Logan.Util.Bytes

/-!
# The bytes of a text

The bytes of a text are those of its characters, one after the other. They can be cut
where a text ends, and only there: what comes after the bytes of a text are the bytes of a
text if all of it is one (`fromUtf8_append`).

A character below 128 is a single byte, and all bytes of the others are at least 128. So
the ASCII bytes of a text are its ASCII characters (`mem_encode_iff`), and a word of such
characters occurs in the bytes exactly where it occurs in the text (`infix_of_encode`).
-/

namespace Logan

open List

/-- The bytes of some characters. -/
def encode (cs : List Char) : List UInt8 := cs.flatMap String.utf8EncodeChar

@[simp] theorem encode_nil : encode [] = [] := rfl

@[simp] theorem encode_cons (c : Char) (cs : List Char) :
    encode (c :: cs) = String.utf8EncodeChar c ++ encode cs := rfl

@[simp] theorem encode_append (cs ds : List Char) : encode (cs ++ ds) = encode cs ++ encode ds :=
  flatMap_append

theorem toByteArray_toList (l : List UInt8) : l.toByteArray.data.toList = l := by
  have h : ∀ (l : List UInt8) (b : ByteArray),
      (List.toByteArray.loop l b).data.toList = b.data.toList ++ l := by
    intro l
    induction l with
    | nil => exact fun b => (List.append_nil _).symm
    | cons x l ih =>
      intro b
      show (List.toByteArray.loop l (b.push x)).data.toList = _
      rw [ih]
      show (b.data.push x).toList ++ l = _
      rw [Array.toList_push, append_assoc]
      rfl
  exact (h l ByteArray.empty).trans (nil_append l)

/-- **The bytes of a text** are those of its characters. -/
theorem utf8_eq_encode (s : String) : utf8 s = encode s.toList := by
  rw [utf8, ← String.utf8Encode_toList]
  exact toByteArray_toList _

theorem utf8_ofList (cs : List Char) : utf8 (String.ofList cs) = encode cs := by
  rw [utf8_eq_encode, String.toList_ofList]

theorem utf8_append (s t : String) : utf8 (s ++ t) = utf8 s ++ utf8 t := by
  rw [utf8_eq_encode, utf8_eq_encode, utf8_eq_encode, String.toList_append, encode_append]

theorem fromUtf8_utf8 (s : String) : fromUtf8 (utf8 s) = some s := fromUtf8_eq_some.mpr rfl

theorem fromUtf8_encode (cs : List Char) : fromUtf8 (encode cs) = some (String.ofList cs) := by
  rw [← utf8_ofList, fromUtf8_utf8]

theorem utf8_eq_nil {s : String} : utf8 s = [] ↔ s = "" := by
  constructor
  · exact fun h => utf8_injective (h.trans (by rfl))
  · rintro rfl
    rfl

/-- **Bytes are cut where a text ends.** -/
theorem fromUtf8_append (s : String) (b : List UInt8) :
    fromUtf8 (utf8 s ++ b) = (fromUtf8 b).map (s ++ ·) := by
  cases h : fromUtf8 b with
  | some =>
    rw [fromUtf8_eq_some.mp h, ← utf8_append, fromUtf8_utf8]
    rfl
  | none =>
    by_contra hne
    obtain ⟨u, hu⟩ := Option.ne_none_iff_exists'.mp hne
    have hbytes := fromUtf8_eq_some.mp hu
    have harr : s.toList.utf8Encode ++ b.toByteArray = u.toList.utf8Encode := by
      refine ByteArray.ext (Array.toList_inj.mp ?_)
      rw [ByteArray.data_append, Array.toList_append, toByteArray_toList, String.utf8Encode_toList,
        String.utf8Encode_toList]
      exact hbytes
    obtain ⟨cs, hcs⟩ := isPrefix_of_utf8Encode_append_eq_utf8Encode _ harr
    rw [utf8_eq_encode, utf8_eq_encode, ← hcs, encode_append] at hbytes
    rw [append_cancel_left hbytes, fromUtf8_encode] at h
    cases h

/-! ## ASCII -/

theorem encodeChar_of_lt {c : Char} (h : c.toNat < 128) :
    String.utf8EncodeChar c = [UInt8.ofNat c.toNat] := by
  exact if_pos (Nat.le_of_lt_succ h)

/-- The bytes of any other character are at least 128. -/
theorem le_of_mem_encodeChar {c : Char} (h : 128 ≤ c.toNat) {b : UInt8}
    (hb : b ∈ String.utf8EncodeChar c) : 128 ≤ b.toNat := by
  have hbyt : ∀ {n : ℕ}, 128 ≤ n → n < 256 → b = UInt8.ofNat n → 128 ≤ b.toNat := by
    rintro n hle hlt rfl
    rwa [UInt8.toNat_ofNat', Nat.mod_eq_of_lt hlt]
  unfold String.utf8EncodeChar at hb
  dsimp only at hb
  rw [if_neg (not_le.mpr h)] at hb
  split_ifs at hb <;> simp only [mem_cons, not_mem_nil, or_false] at hb
  · rcases hb with hb | hb <;> exact hbyt (by omega) (by omega) hb
  · rcases hb with hb | hb | hb <;> exact hbyt (by omega) (by omega) hb
  · rcases hb with hb | hb | hb | hb <;> exact hbyt (by omega) (by omega) hb

/-- **The ASCII bytes of a text** are its ASCII characters. -/
theorem mem_encode_iff {c : Char} (hc : c.toNat < 128) {cs : List Char} :
    UInt8.ofNat c.toNat ∈ encode cs ↔ c ∈ cs := by
  have hbyt : (UInt8.ofNat c.toNat).toNat = c.toNat := by
    rw [UInt8.toNat_ofNat']
    exact Nat.mod_eq_of_lt (by omega)
  unfold encode
  rw [mem_flatMap]
  constructor
  · rintro ⟨d, hd, hmem⟩
    by_cases hlt : d.toNat < 128
    · rw [encodeChar_of_lt hlt, mem_singleton] at hmem
      have heq : c.toNat = d.toNat := by
        rw [← hbyt, hmem, UInt8.toNat_ofNat']
        exact Nat.mod_eq_of_lt (by omega)
      exact Char.toNat_inj.mp heq ▸ hd
    · have hle := le_of_mem_encodeChar (not_lt.mp hlt) hmem
      omega
  · exact fun hmem => ⟨c, hmem, by rw [encodeChar_of_lt hc]; exact mem_singleton_self _⟩

/-- ASCII characters. -/
def IsAscii (cs : List Char) : Prop := ∀ c ∈ cs, c.toNat < 128

instance (cs : List Char) : Decidable (IsAscii cs) := List.decidableBAll _ cs

/-- `b"…"`, a word of ASCII characters. -/
def ascii (s : String) : List UInt8 := s.toList.map fun c => UInt8.ofNat c.toNat

theorem encode_eq_map {cs : List Char} (h : IsAscii cs) :
    encode cs = cs.map fun c => UInt8.ofNat c.toNat := by
  induction cs with
  | nil => rfl
  | cons c cs ih =>
    rw [encode_cons, encodeChar_of_lt (h c mem_cons_self),
      ih fun d hd => h d (mem_cons_of_mem c hd)]
    rfl

theorem ascii_eq_encode {s : String} (h : IsAscii s.toList) :
    ascii s = encode s.toList := (encode_eq_map h).symm

/-- A word of ASCII characters at the front of the bytes of a text is at its front. -/
theorem prefix_of_encode {pat cs : List Char} (hpat : IsAscii pat)
    (h : encode pat <+: encode cs) : pat <+: cs := by
  induction pat generalizing cs with
  | nil => exact nil_prefix
  | cons c pat ih =>
    have hc := hpat c mem_cons_self
    rw [encode_cons, encodeChar_of_lt hc] at h
    cases cs with
    | nil => cases prefix_nil.mp h
    | cons d =>
      have hbyt : UInt8.ofNat c.toNat ∈ encode [d] := by
        rw [encode_cons] at h
        obtain ⟨b, bs, hb⟩ := exists_cons_of_ne_nil (String.utf8EncodeChar_ne_nil (c := d))
        rw [hb, singleton_append, cons_append, cons_prefix_cons] at h
        rw [encode_cons, hb, h.1]
        exact mem_cons_self
      obtain rfl := mem_singleton.mp ((mem_encode_iff hc).mp hbyt)
      rw [encode_cons, encodeChar_of_lt hc, prefix_append_right_inj] at h
      exact cons_prefix_cons.mpr ⟨rfl, ih (fun d hd => hpat d (mem_cons_of_mem c hd)) h⟩

/-- **A word of ASCII characters** that occurs in the bytes of a text occurs in it. -/
theorem infix_of_encode {pat cs : List Char} (hpat : IsAscii pat) (hne : pat ≠ [])
    (h : encode pat <:+: encode cs) : pat <:+: cs := by
  induction cs with
  | nil =>
    rw [encode_nil, infix_nil] at h
    obtain ⟨c, pat, rfl⟩ := exists_cons_of_ne_nil hne
    exact absurd (append_eq_nil_iff.mp h).1 String.utf8EncodeChar_ne_nil
  | cons d cs ih =>
    obtain ⟨s, t, hst⟩ := h
    rw [append_assoc, encode_cons] at hst
    rcases append_eq_append_iff.mp hst with ⟨s', hs, hres⟩ | ⟨s', hs, hres⟩
    · -- the word starts in the bytes of the first character
      cases s with
      | nil =>
        refine (prefix_of_encode hpat ⟨t, ?_⟩).isInfix
        rwa [encode_cons]
      | cons b =>
        obtain ⟨c, pat, rfl⟩ := exists_cons_of_ne_nil hne
        have hc := hpat c mem_cons_self
        cases s' with
        | nil =>
          rw [nil_append] at hres
          exact (ih ⟨[], t, by rw [nil_append]; exact hres⟩).trans
            (suffix_cons d cs).isInfix
        | cons x =>
          -- such a byte is not that of an ASCII character
          rw [encode_cons, encodeChar_of_lt hc, append_assoc, singleton_append, cons_append] at hres
          obtain ⟨hx, -⟩ := cons_eq_cons.mp hres
          by_cases hd : d.toNat < 128
          · rw [encodeChar_of_lt hd] at hs
            have hlen := congrArg List.length hs
            simp only [length_cons, length_append, length_nil] at hlen
            omega
          · have hle := le_of_mem_encodeChar (not_lt.mp hd) (b := x) (hs ▸
              mem_append_right _ mem_cons_self)
            rw [← hx, UInt8.toNat_ofNat', Nat.mod_eq_of_lt (by omega)] at hle
            omega
    · refine (ih ⟨s', t, ?_⟩).trans (suffix_cons d cs).isInfix
      rw [append_assoc]
      exact hres.symm

end Logan
