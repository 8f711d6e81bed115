import Logan.Util.Fault
import Logan.Util.Fields

/-!
# Metered computations that follow plain ones

A program is modelled twice: as a plain computation, which returns a value or an
error, and with everything that could stop it, as a metered one – a sum that is
too large, an index out of its range, the memory that it asks for. The metered
computation **follows** the plain one below a bound if it has the same result
and never requests more than the bound. This is shown along the two, step by
step: an operation that could panic is passed because of what the plain
computation has checked before.
-/

namespace Logan

open List

namespace Metered

variable {E A B : Type} {n : ℕ}

/-- A plain computation: it requests nothing, and does not panic. -/
def returns (x : Except E A) : Metered E A := lift (x.mapError Failure.error)

/-- An operation that panics if it has no result. -/
def orPanic (x : Option A) : Metered E A := x.elim panic pure

/-- A computation that may panic, but requests nothing. -/
def ofFault (x : Except (Fault E) A) : Metered E A :=
  lift (x.mapError fun fault => match fault with
    | .failed e => .error e
    | .panicked => .panic)

/-- A metered computation, when nobody asks what it requested. One that does not
return is as bad as a panic. -/
def toFault (x : Metered E A) : Except (Fault E) A :=
  x.result.mapError fun failure => match failure with
    | .error e => .failed e
    | .panic | .endless => .panicked

/-- **A metered computation follows a plain one**: it has the same result, and
requests no more than `n` bytes at once. -/
structure Follows (n : ℕ) (x : Metered E A) (y : Except E A) : Prop where
  result : x.result = y.mapError Failure.error
  requests : ∀ k ∈ x.requests, k ≤ n

variable {x : Metered E A} {y : Except E A}

/-- Who follows returns, with a value of its own. -/
theorem Follows.eq_ok (h : Follows n x y) {a : A} : x.result = .ok a ↔ y = .ok a := by
  rw [h.result]
  cases y with
  | ok => exact ⟨fun h => congrArg _ (Except.ok.inj h), fun h => congrArg _ (Except.ok.inj h)⟩
  | error => exact iff_of_false nofun nofun

/-- **Who follows does not panic.** -/
theorem Follows.toFault (h : Follows n x y) : x.toFault = Fault.lift y := by
  unfold Metered.toFault
  rw [h.result]
  cases y <;> rfl

/-- **Who follows is harmless.** -/
theorem Follows.harmless (h : Follows n x y) : x.Harmless n := by
  refine ⟨?_, h.requests⟩
  unfold Returns
  rw [h.result]
  cases y with
  | ok a => exact Or.inl ⟨a, rfl⟩
  | error e => exact Or.inr ⟨e, rfl⟩

theorem follows_pure (a : A) : Follows n (pure a : Metered E A) (.ok a) :=
  ⟨rfl, fun _ h => absurd h not_mem_nil⟩

theorem follows_returns (x : Except E A) : Follows n (returns x) x :=
  ⟨rfl, fun _ h => absurd h not_mem_nil⟩

variable {f : A → Metered E B}

/-- **A chain follows a chain** step by step. A step may rely on what has
succeeded before. -/
theorem Follows.bind {g : A → Except E B} (h : Follows n x y)
    (hres : ∀ a, y = .ok a → Follows n (f a) (g a)) : Follows n (x >>= f) (y >>= g) := by
  refine ⟨?_, fun k hk => ?_⟩
  · rw [bind_result, h.result]
    cases y with
    | ok a => exact (hres a rfl).result
    | error => rfl
  · rcases mem_bind_requests.mp hk with hk | ⟨a, ha, hk⟩
    · exact h.requests k hk
    · exact (hres a (h.eq_ok.mp ha)).requests k hk

theorem Follows.returns_bind {x : Except E A} {g : A → Except E B}
    (hres : ∀ a, x = .ok a → Follows n (f a) (g a)) : Follows n (returns x >>= f) (x >>= g) :=
  (follows_returns x).bind hres

/-- **An operation that has a result** is passed. -/
theorem Follows.orPanic_bind {x : Option A} {a : A} (hx : x = some a) {y : Except E B}
    (h : Follows n (f a) y) : Follows n (orPanic x >>= f) y := by
  rw [hx]
  exact (follows_pure a).bind fun b hb => Except.ok.inj hb ▸ h

/-- **A reservation** within the bound is passed. -/
theorem Follows.reserve_bind {bytes : ℕ} (hfit : bytes ≤ isizeMax) (hn : bytes ≤ n)
    {f : Unit → Metered E B} {y : Except E B} (h : Follows n (f ()) y) :
    Follows n (reserve bytes >>= f) y := by
  have hres : Follows n (reserve bytes : Metered E Unit) (.ok ()) :=
    ⟨reserve_eq_ok.mpr hfit, (harmless_reserve.mpr ⟨hfit, hn⟩).2⟩
  exact hres.bind fun _ _ => h

theorem Follows.map (f : A → B) (h : Follows n x y) : Follows n (f <$> x) (f <$> y) := by
  have hbin : Follows n (x >>= fun a => pure (f a)) (y >>= fun a => .ok (f a)) :=
    h.bind fun a _ => follows_pure (f a)
  cases y <;> exact hbin

/-- A vector is collected within the bound. -/
theorem Follows.collect_bind {size : ℕ} {l : List A} (hfit : size * l.length ≤ isizeMax)
    (hn : size * l.length ≤ n) {f : Vec size A → Metered E B} {y : Except E B}
    (h : ∀ v : Vec size A, v.toList = l → Follows n (f v) y) :
    Follows n (collect size l >>= f) y := by
  have hcol : Follows n (collect size l : Metered E (Vec size A)) (.ok ⟨l, hfit⟩) :=
    ⟨collect_eq_ok.mpr rfl, (harmless_collect hfit hn).2⟩
  exact hcol.bind fun v hv => h v (congrArg Vec.toList (Except.ok.inj hv).symm)

theorem Follows.ofFault {x : Except (Fault E) A} (h : x = Fault.lift y) :
    Follows n (ofFault x) y := by
  rw [h]
  refine ⟨?_, fun _ h => absurd h not_mem_nil⟩
  cases y <;> rfl

/-- **A loop follows a loop**, with an invariant of its state. -/
theorem Follows.foldlM {f : B → A → Metered E B} {g : B → A → Except E B} {l : List A}
    (inv : B → Prop) (hst : ∀ b, inv b → ∀ a ∈ l, Follows n (f b a) (g b a))
    (hinv : ∀ b, inv b → ∀ a ∈ l, ∀ b', g b a = .ok b' → inv b') {b : B} (hb : inv b) :
    Follows n (l.foldlM f b) (l.foldlM g b) := by
  induction l generalizing b with
  | nil => exact follows_pure b
  | cons a l ih =>
    rw [foldlM_cons, foldlM_cons]
    refine (hst b hb a mem_cons_self).bind fun b' hb' => ?_
    exact ih (fun c hc a' ha' => hst c hc a' (mem_cons_of_mem _ ha'))
      (fun c hc a' ha' => hinv c hc a' (mem_cons_of_mem _ ha'))
      (hinv b hb a mem_cons_self b' hb')

/-- **A loop whose steps all have results** has one, with an invariant of its state. -/
theorem foldlM_eq_some {f : B → A → Option B} {g : B → A → B} {l : List A} (inv : B → Prop)
    (hst : ∀ b, inv b → ∀ a ∈ l, f b a = some (g b a) ∧ inv (g b a)) {b : B} (hb : inv b) :
    l.foldlM f b = some (l.foldl g b) := by
  induction l generalizing b with
  | nil => rfl
  | cons a l ih =>
    obtain ⟨hf, hinv⟩ := hst b hb a mem_cons_self
    rw [foldlM_cons, hf, foldl_cons]
    exact ih (fun c hc a' ha' => hst c hc a' (mem_cons_of_mem _ ha')) hinv

/-! ## What is requested, and in which order -/

/-- **Nothing is requested but the first of `l`**, in their order. -/
def Asks (l : List ℕ) (x : Metered E A) : Prop := x.requests <+: l

theorem asks_pure (l : List ℕ) (a : A) : Asks l (pure a : Metered E A) := List.nil_prefix

theorem asks_returns_bind {l : List ℕ} {x : Except E A}
    (h : ∀ a, x = .ok a → Asks l (f a)) : Asks l (returns x >>= f) := by
  cases x with
  | ok a => exact h a rfl
  | error => exact List.nil_prefix

theorem mem_returns_bind {k : ℕ} {x : Except E A} {a : A} (h : x = .ok a)
    (hk : k ∈ (f a).requests) : k ∈ (returns x >>= f).requests := by
  rw [h]
  exact mem_bind_requests.mpr (Or.inr ⟨a, rfl, hk⟩)

theorem asks_orPanic_bind {l : List ℕ} {x : Option A}
    (h : ∀ a, x = some a → Asks l (f a)) : Asks l (orPanic x >>= f) := by
  cases x with
  | some a => exact h a rfl
  | none => exact List.nil_prefix

/-- A chain that ends with its first part. -/
theorem Asks.bind_of_ne {l : List ℕ} (h : Asks l x)
    (hx : ∀ a, x.result ≠ .ok a) : Asks l (x >>= f) := by
  have hreq : (x >>= f).requests = x.requests := by
    show (bind x f).requests = x.requests
    unfold bind
    cases hres : x.result with
    | ok a => exact absurd hres (hx a)
    | error => exact List.append_nil _
  unfold Asks
  rwa [hreq]

/-- **A chain that begins with a reservation.** -/
theorem asks_reserve_bind {bytes : ℕ} {l : List ℕ} {f : Unit → Metered E B}
    (h : Asks l (f ())) : Asks (bytes :: l) (reserve bytes >>= f) := by
  unfold reserve
  split_ifs
  · exact cons_prefix_cons.mpr ⟨rfl, h⟩
  · exact List.nil_prefix

end Metered

end Logan
