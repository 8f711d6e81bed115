import Logan.Util.Result

/-!
# Vectors, and the memory that is asked for

A vector has at most `isize::MAX` bytes. A program that asks for more –
`Vec::with_capacity`, `vec![0; n]` – is stopped by a panic; one that asks for
less may still be stopped, when the system has no memory left, and this is
why it matters how much is asked for. A **metered** computation tells: it
has a result, as any computation that may fail, and it lists the sizes of
the allocations that it requested.

A computation is **harmless** below a bound if it returns – a value, or an
error of its own – and has never requested more than the bound.
-/

namespace Logan

/-- `isize::MAX` -/
def isizeMax : ℕ := 2 ^ 63 - 1

/-- `usize::MAX` -/
def usizeMax : ℕ := 2 ^ 64 - 1

/-- `u64::MAX` -/
def u64Max : ℕ := 2 ^ 64 - 1

/-- `saturating_add` on an unsigned integer with the given largest value. -/
def saturatingAdd (max a b : ℕ) : ℕ := min (a + b) max

/-- **A vector** of elements of `size` bytes. -/
@[ext]
structure Vec (size : ℕ) (A : Type) where
  toList : List A
  fits : size * toList.length ≤ isizeMax
deriving DecidableEq

/-- **How a computation can fail**: with an error that it returns, with a
panic, or – a loop that is given a bound in the model – by not returning. -/
inductive Failure (E : Type) where
  | error (e : E)
  | panic
  | endless
deriving DecidableEq

/-- An error under another name. -/
def Failure.map {E F : Type} (f : E → F) : Failure E → Failure F
  | error e => error (f e)
  | panic => panic
  | endless => endless

/-- A vector of what is in the list, if a vector can hold that much. -/
def Vec.ofList {E A : Type} (size : ℕ) (l : List A) : Except (Failure E) (Vec size A) :=
  if h : size * l.length ≤ isizeMax then .ok ⟨l, h⟩ else .error .panic

variable {size : ℕ}

/-- **A vector is made** of all that it can hold. -/
theorem Vec.ofList_eq_ok {E A : Type} {l : List A} {v : Vec size A} :
    (Vec.ofList size l : Except (Failure E) (Vec size A)) = .ok v ↔ l = v.toList := by
  unfold Vec.ofList
  constructor
  · intro h
    split at h
    · rw [← Except.ok.inj h]
    · cases h
  · intro h
    subst h
    rw [dif_pos v.fits]

theorem Vec.ofList_of_le {E A : Type} {l : List A} (h : size * l.length ≤ isizeMax) :
    (Vec.ofList size l : Except (Failure E) (Vec size A)) = .ok ⟨l, h⟩ :=
  dif_pos h

/-- **A metered computation**: its result, and the allocations it
requested, in bytes. -/
structure Metered (E A : Type) where
  result : Except (Failure E) A
  requests : List ℕ
deriving DecidableEq

namespace Metered

variable {E F A B : Type}

/-- What is computed next, after what has been. -/
def bind (x : Metered E A) (f : A → Metered E B) : Metered E B :=
  ⟨x.result >>= fun a => (f a).result, x.requests ++ match x.result with
      | .ok a => (f a).requests
      | .error _ => []⟩

instance : Monad (Metered E) where
  pure a := ⟨.ok a, []⟩
  bind := bind

/-- An error that is returned. -/
def fail (e : E) : Metered E A := ⟨.error (.error e), []⟩

def panic : Metered E A := ⟨.error .panic, []⟩

/-- A computation that requests nothing. -/
def lift (x : Except (Failure E) A) : Metered E A := ⟨x, []⟩

/-- **`Vec::with_capacity`** of a size in bytes. -/
def reserve (bytes : ℕ) : Metered E Unit :=
  if bytes ≤ isizeMax then ⟨.ok (), [bytes]⟩ else panic

/-- A new vector with these elements: `to_vec`, `collect`. -/
def collect (size : ℕ) (l : List A) : Metered E (Vec size A) := do
  reserve (size * l.length)
  lift (Vec.ofList size l)

/-- `map_err` -/
def mapError (f : E → F) (x : Metered E A) : Metered F A :=
  ⟨x.result.mapError (Failure.map f), x.requests⟩

/-! ## Results -/

@[simp] theorem pure_result (a : A) : (pure a : Metered E A).result = .ok a := rfl

@[simp] theorem bind_result (x : Metered E A) (f : A → Metered E B) :
    (x >>= f).result = x.result >>= fun a => (f a).result := rfl

variable {x : Metered E A} {f : A → Metered E B}

/-- **A chain returns** if all of it does. -/
theorem bind_eq_ok {b : B} :
    (x >>= f).result = .ok b ↔ ∃ a, x.result = .ok a ∧ (f a).result = .ok b := by
  rw [bind_result]
  exact Result.bind_eq_ok

/-- What a chain requests: what its first part does, and, once that has
returned, what the rest does. -/
theorem mem_bind_requests {k : ℕ} :
    k ∈ (x >>= f).requests ↔ k ∈ x.requests ∨ ∃ a, x.result = .ok a ∧ k ∈ (f a).requests := by
  show k ∈ (bind x f).requests ↔ _
  unfold bind
  rw [List.mem_append]
  refine or_congr_right ?_
  cases x.result with
  | ok a =>
    constructor
    · exact fun h => ⟨a, rfl, h⟩
    · rintro ⟨_, heq, h⟩
      exact Except.ok.inj heq ▸ h
  | error =>
    constructor
    · exact fun h => absurd h List.not_mem_nil
    · rintro ⟨_, heq, -⟩
      cases heq

/-- What comes next matters for what has been computed only. -/
theorem bind_congr {g : A → Metered E B}
    (h : ∀ a, x.result = .ok a → f a = g a) : (x >>= f) = (x >>= g) := by
  show bind x f = bind x g
  unfold bind
  cases hx : x.result with
  | ok a => simp only [Result.ok_bind, h a hx]
  | error => rfl

theorem reserve_eq_ok {bytes : ℕ} :
    (reserve bytes : Metered E Unit).result = .ok () ↔ bytes ≤ isizeMax := by
  unfold reserve
  split
  · exact iff_of_true rfl ‹_›
  · exact iff_of_false nofun ‹_›

theorem mem_reserve_requests {bytes k : ℕ} :
    k ∈ (reserve bytes : Metered E Unit).requests ↔ bytes ≤ isizeMax ∧ k = bytes := by
  unfold reserve
  split
  · rw [List.mem_singleton, and_iff_right ‹_›]
  · exact iff_of_false List.not_mem_nil (fun h => ‹¬ _› h.1)

/-- **A vector is collected** of all that it can hold. -/
theorem collect_eq_ok {l : List A} {v : Vec size A} :
    (collect size l : Metered E (Vec size A)).result = .ok v ↔ l = v.toList := by
  unfold collect
  rw [bind_eq_ok]
  constructor
  · rintro ⟨-, -, h⟩
    exact Vec.ofList_eq_ok.mp h
  · intro h
    exact ⟨(), reserve_eq_ok.mpr (h ▸ v.fits), Vec.ofList_eq_ok.mpr h⟩

theorem mapError_eq_ok {f : E → F} {a : A} : (x.mapError f).result = .ok a ↔ x.result = .ok a := by
  unfold mapError
  rcases x.result with e | b
  · exact iff_of_false nofun nofun
  · exact ⟨fun h => congrArg _ (Except.ok.inj h), fun h => congrArg _ (Except.ok.inj h)⟩

@[simp] theorem mapError_requests (f : E → F) (x : Metered E A) :
    (x.mapError f).requests = x.requests := rfl

/-! ## Harmless computations -/

/-- The computation returns a value or an error. -/
def Returns (x : Metered E A) : Prop :=
  (∃ a, x.result = .ok a) ∨ ∃ e, x.result = .error (.error e)

/-- **A harmless computation** returns, and has never requested more than
`n` bytes at once. -/
def Harmless (n : ℕ) (x : Metered E A) : Prop :=
  x.Returns ∧ ∀ k ∈ x.requests, k ≤ n

variable {n : ℕ}

theorem Harmless.mono {m : ℕ} (h : x.Harmless n) (hle : n ≤ m) : x.Harmless m :=
  ⟨h.1, fun k hk => (h.2 k hk).trans hle⟩

theorem harmless_pure (a : A) : Harmless n (pure a : Metered E A) :=
  ⟨Or.inl ⟨a, rfl⟩, fun _ h => absurd h List.not_mem_nil⟩

theorem harmless_fail (e : E) : Harmless n (fail e : Metered E A) :=
  ⟨Or.inr ⟨e, rfl⟩, fun _ h => absurd h List.not_mem_nil⟩

/-- **A chain is harmless** if its first part is, and the rest is whenever it
is reached. -/
theorem harmless_bind :
    Harmless n (x >>= f) ↔ Harmless n x ∧ ∀ a, x.result = .ok a → Harmless n (f a) := by
  unfold Harmless Returns
  constructor
  · rintro ⟨hret, hreq⟩
    have hfst : ∀ k ∈ x.requests, k ≤ n :=
      fun k hk => hreq k (mem_bind_requests.mpr (Or.inl hk))
    rw [bind_result] at hret
    cases hx : x.result with
    | ok a =>
      rw [hx] at hret
      refine ⟨⟨Or.inl ⟨a, rfl⟩, hfst⟩, ?_⟩
      intro a' ha'
      cases ha'
      exact ⟨hret, fun k hk => hreq k (mem_bind_requests.mpr (Or.inr ⟨a, hx, hk⟩))⟩
    | error =>
      rw [hx] at hret
      refine ⟨⟨?_, hfst⟩, fun _ h => by cases h⟩
      rcases hret with ⟨_, h⟩ | ⟨e', h⟩
      · cases h
      · exact Or.inr ⟨e', congrArg _ (Except.error.inj h)⟩
  · rintro ⟨⟨hret, hfst⟩, hres⟩
    refine ⟨?_, fun k hk => ?_⟩
    · rw [bind_result]
      rcases hret with ⟨a, ha⟩ | ⟨e, he⟩
      · rw [ha]
        exact (hres a ha).1
      · exact Or.inr ⟨e, by rw [he, Result.error_bind]⟩
    · rcases mem_bind_requests.mp hk with hk | ⟨a, ha, hk⟩
      · exact hfst k hk
      · exact (hres a ha).2 k hk

/-- **A reservation is harmless** if it is of a size that a vector can have,
and below the bound. -/
theorem harmless_reserve {bytes : ℕ} :
    Harmless n (reserve bytes : Metered E Unit) ↔ bytes ≤ isizeMax ∧ bytes ≤ n := by
  constructor
  · rintro ⟨hret, hreq⟩
    by_cases hfit : bytes ≤ isizeMax
    · exact ⟨hfit, hreq _ (mem_reserve_requests.mpr ⟨hfit, rfl⟩)⟩
    · rw [reserve, if_neg hfit] at hret
      rcases hret with ⟨_, h⟩ | ⟨_, h⟩ <;> cases h
  · rintro ⟨hfit, hn⟩
    refine ⟨Or.inl ⟨(), reserve_eq_ok.mpr hfit⟩, fun k hk => ?_⟩
    rwa [(mem_reserve_requests.mp hk).2]

theorem harmless_lift_ofList {l : List A} (h : size * l.length ≤ isizeMax) :
    Harmless n (lift (Vec.ofList size l) : Metered E (Vec size A)) :=
  ⟨Or.inl ⟨_, Vec.ofList_of_le h⟩, fun _ h => absurd h List.not_mem_nil⟩

theorem harmless_collect {l : List A} (hfit : size * l.length ≤ isizeMax)
    (hn : size * l.length ≤ n) : Harmless n (collect size l : Metered E (Vec size A)) :=
  harmless_bind.mpr ⟨harmless_reserve.mpr ⟨hfit, hn⟩, fun _ _ => harmless_lift_ofList hfit⟩

theorem harmless_mapError {f : E → F} : Harmless n (x.mapError f) ↔ Harmless n x := by
  unfold Harmless
  rw [mapError_requests]
  refine and_congr_left' ?_
  unfold Returns mapError
  rcases x.result with (e | - | -) | a
  · exact iff_of_true (Or.inr ⟨_, rfl⟩) (Or.inr ⟨_, rfl⟩)
  · simp [Except.mapError, Failure.map]
  · simp [Except.mapError, Failure.map]
  · exact iff_of_true (Or.inl ⟨_, rfl⟩) (Or.inl ⟨_, rfl⟩)

end Metered

end Logan
