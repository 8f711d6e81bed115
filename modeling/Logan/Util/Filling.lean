import Logan.Util.Buffer

/-!
# Buffers that a loop fills

A loop over a matrix writes a few elements in each round, at places that it
computes. Where every write agrees with one function of the places, the
**target**, it does not matter in which order the rounds come nor whether they
overlap: what has been written is that function, and the rest is as before.
`Filled` says so of a buffer between two rounds, and a loop adds to what is
done what each of its rounds adds.
-/

namespace Logan

open List

variable {A B E : Type}

/-- **A buffer on its way to a target**: the elements that are done are those of the target, the
others are those that the buffer has begun with. -/
structure Filled (start : List A) (target : ℕ → A) (done : ℕ → Prop) (b : List A) : Prop where
  length_eq : b.length = start.length
  of_done : ∀ i < b.length, done i → b[i]? = some (target i)
  of_not_done : ∀ i, ¬ done i → b[i]? = start[i]?

/-- `bytes[start..start + v.len()].copy_from_slice(v)`, unless this is beyond the end. -/
def putAt? (b : List A) (start : ℕ) (v : List A) : Option (List A) :=
  if start + v.length ≤ b.length then some (put b start v) else none

namespace Filled

variable {start b : List A} {target : ℕ → A} {done done' : ℕ → Prop}

theorem refl (start : List A) (target : ℕ → A) : Filled start target (fun _ => False) start :=
  ⟨rfl, fun _ _ h => h.elim, fun _ _ => rfl⟩

section

variable (h : Filled start target done b)

include h

theorem congr (hdon : ∀ i, done i ↔ done' i) : Filled start target done' b :=
  ⟨h.length_eq, fun i hi hd => h.of_done i hi ((hdon i).mpr hd),
    fun i hd => h.of_not_done i fun hd' => hd ((hdon i).mp hd')⟩

/-- **A write that agrees with the target.** -/
theorem put {place : ℕ} {v : List A} (hfit : place + v.length ≤ b.length)
    (hv : ∀ j < v.length, v[j]? = some (target (place + j))) :
    Filled start target (fun i => done i ∨ place ≤ i ∧ i < place + v.length)
      (Logan.put b place v) := by
  have hlen : (Logan.put b place v).length = b.length := length_put hfit
  -- an element outside of the write is the one that the buffer had
  have hold : ∀ i, ¬ (place ≤ i ∧ i < place + v.length) → (Logan.put b place v)[i]? = b[i]? := by
    intro i hi
    have hsl : slice (Logan.put b place v) i 1 = slice b i 1 :=
      slice_put_of_apart hfit (by omega)
    have hget := congrArg (fun l => l[0]?) hsl
    simpa only [getElem?_slice Nat.one_pos, Nat.add_zero] using hget
  refine ⟨hlen.trans h.length_eq, fun i hi hdon => ?_, fun i hdon => ?_⟩
  · by_cases hin : place ≤ i ∧ i < place + v.length
    · have hget := congrArg (fun l => l[i - place]?) (slice_put_self hfit)
      rwa [getElem?_slice (by omega), hv _ (by omega), Nat.add_sub_cancel' hin.1] at hget
    · rw [hold i hin]
      exact h.of_done i (hlen ▸ hi) (hdon.resolve_right hin)
  · rw [hold i fun hin => hdon (Or.inr hin)]
    exact h.of_not_done i fun hd => hdon (Or.inl hd)

theorem putAt? {place : ℕ} {v : List A} (hfit : place + v.length ≤ start.length)
    (hv : ∀ j < v.length, v[j]? = some (target (place + j))) :
    ∃ b', Logan.putAt? b place v = some b' ∧
      Filled start target (fun i => done i ∨ place ≤ i ∧ i < place + v.length) b' :=
  ⟨_, if_pos (h.length_eq ▸ hfit), h.put (h.length_eq ▸ hfit) hv⟩

theorem set (place : ℕ) :
    Filled start target (fun i => done i ∨ i = place) (b.set place (target place)) := by
  refine ⟨length_set.trans h.length_eq, fun i hi hdon => ?_, fun i hdon => ?_⟩
  · rw [length_set] at hi
    rw [List.getElem?_set]
    split_ifs with heq
    · rw [heq]
    · exact absurd (heq ▸ hi) (by assumption)
    · exact h.of_done i hi (hdon.resolve_right fun hip => heq hip.symm)
  · rw [List.getElem?_set_ne fun hip => hdon (Or.inr hip.symm)]
    exact h.of_not_done i fun hd => hdon (Or.inl hd)

end

/-- **A loop** does what all of its rounds do. -/
theorem foldl {f : List A → B → List A} {l : List B} {round : B → ℕ → Prop}
    (hrnd : ∀ a ∈ l, ∀ done b, Filled start target done b →
      Filled start target (fun i => done i ∨ round a i) (f b a))
    (h : Filled start target done b) :
    Filled start target (fun i => done i ∨ ∃ a ∈ l, round a i) (l.foldl f b) := by
  induction l generalizing done b with
  | nil => exact h.congr fun i => by simp only [not_mem_nil, false_and, exists_false, or_false]
  | cons a l ih =>
    have hfst := hrnd a mem_cons_self done b h
    have hres := ih (fun a' ha' => hrnd a' (mem_cons_of_mem _ ha')) hfst
    exact hres.congr fun i => by simp only [exists_mem_cons_iff, or_assoc]

/-- **A loop whose rounds all succeed** does so as well, and does what all of its rounds do. -/
theorem foldlM {f : List A → B → Except E (List A)} {l : List B} {round : B → ℕ → Prop}
    (hrnd : ∀ a ∈ l, ∀ done b, Filled start target done b →
      ∃ b', f b a = .ok b' ∧ Filled start target (fun i => done i ∨ round a i) b')
    (h : Filled start target done b) : ∃ b', l.foldlM f b = .ok b' ∧
      Filled start target (fun i => done i ∨ ∃ a ∈ l, round a i) b' := by
  induction l generalizing done b with
  | nil =>
    exact ⟨b, rfl, h.congr fun i => by
      simp only [not_mem_nil, false_and, exists_false, or_false]⟩
  | cons a l ih =>
    obtain ⟨b₁, hb₁, hfst⟩ := hrnd a mem_cons_self done b h
    obtain ⟨b', hb', hres⟩ := ih (fun a' ha' => hrnd a' (mem_cons_of_mem _ ha')) hfst
    refine ⟨b', ?_, hres.congr fun i => by simp only [exists_mem_cons_iff, or_assoc]⟩
    rwa [foldlM_cons, hb₁]

/-- **What a buffer is filled to**, when everything that differs from its beginning is done. -/
theorem getElem?_eq (h : Filled start target done b)
    (hres : ∀ i < start.length, ¬ done i → start[i]? = some (target i)) {i : ℕ}
    (hi : i < start.length) : b[i]? = some (target i) := by
  by_cases hdon : done i
  · exact h.of_done i (h.length_eq ▸ hi) hdon
  · rw [h.of_not_done i hdon]
    exact hres i hi hdon

/-- **A buffer that is all done** is a list, if the target is that of the list. -/
theorem eq_of_done {l : List A} {default : A} (h : Filled start (fun i => l.getD i default) done b)
    (hlen : l.length = start.length) (hdon : ∀ i < start.length, done i) : b = l := by
  refine ext_getElem? fun i => ?_
  rcases Nat.lt_or_ge i start.length with hi | hi
  · rw [h.of_done i (h.length_eq ▸ hi) (hdon i hi), getD_eq_getElem?_getD,
      List.getElem?_eq_getElem (hlen ▸ hi), Option.getD_some]
  · rw [List.getElem?_eq_none (h.length_eq.trans_le hi), List.getElem?_eq_none (hlen.trans_le hi)]

end Filled

end Logan
