import Logan.State.Transaction

/-!
# A checkpoint takes effect at most once

The number of a manager tells it from the others, its generation grows with
everything that takes effect, and its transactions are numbered. As long as
none of these counters has come round – which takes 2^64 operations – a
checkpoint is accepted only by the manager that issued it, and in the
generation in which it was issued: once the generation is over, the
checkpoint is **dead**, and it stays so.
-/

namespace Logan

open List Option
open Or (inl inr)

/-! ## What one operation does -/

variable {cp : TransactionCheckpoint}

namespace TransactionManager

theorem validate_eq_ok {m : TransactionManager} {index : ℕ} (h : m.validate cp = .ok index) :
    cp.managerId = m.managerId ∧ cp.generation = m.currentGeneration ∧
      ∃ info ∈ m.active, m.active[index]? = some info ∧ info.checkpoint = cp := by
  unfold validate at h
  split_ifs at h with hid hgen
  rw [not_or, not_not, not_not] at hid
  rw [not_not] at hgen
  cases hfin : m.active.findIdx? (fun info => info.checkpoint = cp) with
  | none => rw [hfin] at h; cases h
  | some k =>
    rw [hfin] at h
    obtain rfl := Except.ok.inj h
    obtain ⟨hlt, hcp, -⟩ := List.findIdx?_eq_some_iff_getElem.mp hfin
    exact ⟨hid.1, hgen, m.active[k], getElem_mem hlt, List.getElem?_eq_getElem hlt,
      of_decide_eq_true hcp⟩

/-- The results that refuse a checkpoint. -/
def Refusal (r : TransactionResult) : Prop := r = .staleCheckpoint ∨ r = .wrongSession

theorem validate_eq_error {m : TransactionManager} {r : TransactionResult}
    (h : m.validate cp = .error r) : Refusal r := by
  unfold validate at h
  split_ifs at h with hid hgen
  · exact inr (Except.error.inj h).symm
  · exact inl (Except.error.inj h).symm
  · cases hfin : m.active.findIdx? (fun info => info.checkpoint = cp) with
    | none => rw [hfin] at h; exact inl (Except.error.inj h).symm
    | some => rw [hfin] at h; cases h

/-- The answer to an operation whose checkpoint is refused. -/
def refusedAnswer (r : TransactionResult) : ManagerOp → TransactionAnswer
  | .rollback _ state => .restored r state
  | _ => .finished r

/-- The answer to an operation whose checkpoint is accepted, with the state
captured for it. -/
def acceptedAnswer (state : CausalState) : ManagerOp → TransactionAnswer
  | .rollback _ _ => .restored .rolledBack state
  | _ => .finished .committed

/-- **What an operation can do**: issue a checkpoint; accept one, and move on
to the next generation; refuse one, and change nothing; or cancel. -/
theorem operate_cases (m : TransactionManager) (op : ManagerOp) :
    (∃ state, op = .begin state ∧ m.operate op = (.issued m.nextCheckpoint, { m with
        nextTransactionId := max (m.nextTransactionId + 1) 1
        active := m.active ++ [{ checkpoint := m.nextCheckpoint, state := state }] })) ∨
    (∃ info ∈ m.active, op.presents = some info.checkpoint ∧
      info.checkpoint.managerId = m.managerId ∧
      info.checkpoint.generation = m.currentGeneration ∧
      m.operate op = (acceptedAnswer info.state op, m.advanceGeneration)) ∨
    (∃ cp r, op.presents = some cp ∧ Refusal r ∧ m.operate op = (refusedAnswer r op, m)) ∨
    (op = .cancel ∧ m.operate op = (.finished .cancelled, m.advanceGeneration)) := by
  cases op with
  | begin state => exact inl ⟨state, rfl, rfl⟩
  | commit cp =>
    cases h : m.validate cp with
    | ok =>
      obtain ⟨hid, hgen, info, hmem, -, rfl⟩ := validate_eq_ok h
      refine inr (inl ⟨info, hmem, rfl, hid, hgen, ?_⟩)
      simp only [operate, commit, h]
      rfl
    | error r =>
      refine inr (inr (inl ⟨cp, r, rfl, validate_eq_error h, ?_⟩))
      simp only [operate, commit, h]
      rfl
  | rollback cp =>
    cases h : m.validate cp with
    | ok =>
      obtain ⟨hid, hgen, info, hmem, hidx, rfl⟩ := validate_eq_ok h
      refine inr (inl ⟨info, hmem, rfl, hid, hgen, ?_⟩)
      simp only [operate, rollback, h, captured, hidx]
      rfl
    | error r =>
      refine inr (inr (inl ⟨cp, r, rfl, validate_eq_error h, ?_⟩))
      simp only [operate, rollback, h]
      rfl
  | cancel => exact inr (inr (inr ⟨rfl, rfl⟩))

end TransactionManager

namespace TransactionManagers

open TransactionManager

/-! ## The counters -/

/-- **The state of the system after `n` operations**, none of whose counters
has come round. -/
structure Sound (n : ℕ) (S : TransactionManagers) : Prop where
  counter : S.nextManagerId.toNat = S.managers.length + 1
  few : S.managers.length ≤ n
  managerId : ∀ (i : ℕ) (m : TransactionManager), S.managers[i]? = some m →
    m.managerId.toNat = i + 1
  generation : ∀ (i : ℕ) (m : TransactionManager), S.managers[i]? = some m →
    m.currentGeneration.toNat ≤ n
  transactionId : ∀ (i : ℕ) (m : TransactionManager), S.managers[i]? = some m →
    m.nextTransactionId.toNat ≤ n

theorem sound_initial : Sound 0 initial where
  counter := rfl
  few := le_rfl
  managerId := fun _ _ h => by cases h
  generation := fun _ _ h => by cases h
  transactionId := fun _ _ h => by cases h

theorem toNat_add_one {x : UInt64} (h : x.toNat + 1 < 2 ^ 64) : (x + 1).toNat = x.toNat + 1 := by
  rw [UInt64.toNat_add, UInt64.toNat_one, Nat.mod_eq_of_lt h]

theorem max_one_eq {x : UInt64} (h : 1 ≤ x.toNat) : max x 1 = x := by
  show (if x ≤ 1 then 1 else x) = x
  split
  · rename_i hle
    rw [UInt64.le_iff_toNat_le, UInt64.toNat_one] at hle
    exact UInt64.toNat_inj.mp (by rw [UInt64.toNat_one]; omega)
  · rfl

/-- **A manager, and the same one later**: its counters have not gone back,
and each has been increased once at most. -/
structure Later (m m' : TransactionManager) : Prop where
  managerId : m'.managerId = m.managerId
  generation : m.currentGeneration.toNat ≤ m'.currentGeneration.toNat
  generation_le : m'.currentGeneration.toNat ≤ m.currentGeneration.toNat + 1
  transactionId : m.nextTransactionId.toNat ≤ m'.nextTransactionId.toNat
  transactionId_le : m'.nextTransactionId.toNat ≤ m.nextTransactionId.toNat + 1

theorem Later.refl (m : TransactionManager) : Later m m :=
  ⟨rfl, le_rfl, Nat.le_succ _, le_rfl, Nat.le_succ _⟩

variable {m : TransactionManager}

theorem later_advanceGeneration
    (h : m.currentGeneration.toNat + 1 < 2 ^ 64) : Later m m.advanceGeneration := by
  have hnex : m.advanceGeneration.currentGeneration.toNat = m.currentGeneration.toNat + 1 :=
    toNat_add_one h
  exact ⟨rfl, by omega, by omega, le_rfl, Nat.le_succ _⟩

/-- The counters of a manager, before and after an operation. -/
theorem later_operate (op : ManagerOp)
    (hgen : m.currentGeneration.toNat + 1 < 2 ^ 64)
    (htx : m.nextTransactionId.toNat + 1 < 2 ^ 64) : Later m (m.operate op).2 := by
  rcases m.operate_cases op with ⟨state, -, h⟩ | ⟨info, -, -, -, -, h⟩ | ⟨cp, r, -, -, h⟩ | ⟨-, h⟩
  · rw [h]
    have hdr := toNat_add_one htx
    have hmax : max (m.nextTransactionId + 1) 1 = m.nextTransactionId + 1 :=
      max_one_eq (by omega)
    rw [hmax]
    exact ⟨rfl, le_rfl, Nat.le_succ _, hdr ▸ Nat.le_succ _, hdr.le⟩
  · rw [h]
    exact later_advanceGeneration hgen
  · rw [h]
    exact Later.refl m
  · rw [h]
    exact later_advanceGeneration hgen

/-- **What the system can do**: create a manager, with the next number;
operate on one; or nothing. -/
theorem next_cases (S : TransactionManagers) (op : TransactionOp) :
    (∃ schemaId, op = .create schemaId ∧ machine.next S op = S.create schemaId) ∨
    (∃ i mop m, op = .on i mop ∧ S.managers[i]? = some m ∧
      machine.out S op = (m.operate mop).1 ∧ machine.next S op = S.put i (m.operate mop).2) ∨
    (∃ i mop, op = .on i mop ∧ S.managers[i]? = none ∧ machine.out S op = .absent ∧
      machine.next S op = S) := by
  cases op with
  | create schemaId => exact inl ⟨schemaId, rfl, rfl⟩
  | on i mop =>
    cases h : S.managers[i]? with
    | some m =>
      refine inr (inl ⟨i, mop, m, rfl, h, ?_, ?_⟩)
      · simp only [Machine.out, machine, step, h]
      · simp only [Machine.next, machine, step, h]
    | none =>
      refine inr (inr ⟨i, mop, rfl, h, ?_, ?_⟩)
      · simp only [Machine.out, machine, step, h]
      · simp only [Machine.next, machine, step, h]

variable {S : TransactionManagers} {j : ℕ}

variable {i : ℕ}

/-- The manager at a place, after one has been replaced: that one, or one
that has not been. -/
theorem getElem?_put {m m' : TransactionManager} (h : (S.put i m').managers[j]? = some m) :
    S.managers[j]? = some m ∧ j ≠ i ∨ j = i ∧ m = m' := by
  unfold put at h
  rw [List.getElem?_set] at h
  split_ifs at h with hij hlt
  · exact inr ⟨hij.symm, (some.inj h).symm⟩
  · exact inl ⟨h, fun heq => hij heq.symm⟩

theorem getElem?_put_self (hi : S.managers[i]? = some m)
    (m' : TransactionManager) : (S.put i m').managers[i]? = some m' := by
  unfold put
  rw [List.getElem?_set_self (List.getElem?_eq_some_iff.mp hi).1]

theorem getElem?_put_ne (h : j ≠ i) (m' : TransactionManager) :
    (S.put i m').managers[j]? = S.managers[j]? := by
  exact List.getElem?_set_ne (Ne.symm h)

/-- The manager at a place, after one has been created: that one, or one that
has been there. -/
theorem getElem?_create {schemaId : StateSchemaId}
    (h : (S.create schemaId).managers[j]? = some m) : S.managers[j]? = some m ∨
      j = S.managers.length ∧ m = TransactionManager.new S.nextManagerId schemaId := by
  unfold create at h
  rcases Nat.lt_trichotomy j S.managers.length with hlt | heq | hgt
  · rw [List.getElem?_append_left hlt] at h
    exact inl h
  · subst heq
    rw [List.getElem?_concat_length] at h
    exact inr ⟨rfl, (some.inj h).symm⟩
  · rw [List.getElem?_eq_none (by rw [length_append, length_singleton]; omega)] at h
    cases h

theorem getElem?_create_of_some (schemaId : StateSchemaId)
    (h : S.managers[j]? = some m) : (S.create schemaId).managers[j]? = some m := by
  unfold create
  rwa [List.getElem?_append_left (List.getElem?_eq_some_iff.mp h).1]

variable {n : ℕ}

/-- **No counter comes round** in one more operation. -/
theorem Sound.step (h : Sound n S) (hn : n + 2 < 2 ^ 64)
    (op : TransactionOp) : Sound (n + 1) (machine.next S op) := by
  have hfew := h.few
  rcases next_cases S op with ⟨schemaId, -, hnex⟩ | ⟨i, mop, m, -, hi, -, hnex⟩ |
    ⟨i, mop, -, -, -, hnex⟩
  · rw [hnex]
    have hcnt := h.counter
    have hdr : (S.nextManagerId + 1).toNat = S.nextManagerId.toNat + 1 :=
      toNat_add_one (by omega)
    refine ⟨?_, ?_, ?_, ?_, ?_⟩
    · simp only [create, length_append, length_singleton]
      omega
    · simp only [create, length_append, length_singleton]
      omega
    · intro j m hj
      rcases getElem?_create hj with hj | ⟨rfl, rfl⟩
      · exact h.managerId j m hj
      · rwa [TransactionManager.new, max_one_eq (by omega)]
    · intro j m hj
      rcases getElem?_create hj with hj | ⟨rfl, rfl⟩
      · exact (h.generation j m hj).trans (Nat.le_succ n)
      · exact Nat.zero_le _
    · intro j m hj
      rcases getElem?_create hj with hj | ⟨rfl, rfl⟩
      · exact (h.transactionId j m hj).trans (Nat.le_succ n)
      · exact Nat.succ_le_succ (Nat.zero_le n)
  · rw [hnex]
    have hgen := h.generation i m hi
    have htx := h.transactionId i m hi
    have hlat := later_operate (m := m) mop (by omega) (by omega)
    refine ⟨?_, ?_, ?_, ?_, ?_⟩
    · simp only [put, length_set]
      exact h.counter
    · simp only [put, length_set]
      omega
    · intro j m' hj
      rcases getElem?_put hj with ⟨hj, -⟩ | ⟨rfl, rfl⟩
      · exact h.managerId j m' hj
      · rw [hlat.managerId]
        exact h.managerId j m hi
    · intro j m' hj
      rcases getElem?_put hj with ⟨hj, -⟩ | ⟨rfl, rfl⟩
      · exact (h.generation j m' hj).trans (Nat.le_succ n)
      · exact hlat.generation_le.trans (by omega)
    · intro j m' hj
      rcases getElem?_put hj with ⟨hj, -⟩ | ⟨rfl, rfl⟩
      · exact (h.transactionId j m' hj).trans (Nat.le_succ n)
      · exact hlat.transactionId_le.trans (by omega)
  · rw [hnex]
    exact ⟨h.counter, hfew.trans (Nat.le_succ n), h.managerId,
      fun j m hj => (h.generation j m hj).trans (Nat.le_succ n),
      fun j m hj => (h.transactionId j m hj).trans (Nat.le_succ n)⟩

/-- Two managers with the same number are the same. -/
theorem Sound.manager_unique (h : Sound n S) {m m' : TransactionManager}
    (hi : S.managers[i]? = some m) (hj : S.managers[j]? = some m')
    (heq : m.managerId = m'.managerId) : i = j := by
  have h₁ := h.managerId i m hi
  have h₂ := h.managerId j m' hj
  rw [heq] at h₁
  omega

/-- Every manager is still there after an operation, later. -/
theorem Sound.later (h : Sound n S) (hn : n + 2 < 2 ^ 64) (op : TransactionOp)
    (hj : S.managers[j]? = some m) :
    ∃ m', (machine.next S op).managers[j]? = some m' ∧ Later m m' := by
  rcases next_cases S op with ⟨schemaId, -, hnex⟩ | ⟨i, mop, m', -, hi, -, hnex⟩ |
    ⟨i, mop, -, -, -, hnex⟩
  · rw [hnex]
    exact ⟨m, getElem?_create_of_some schemaId hj, Later.refl m⟩
  · rw [hnex]
    by_cases hij : j = i
    · subst hij
      obtain rfl : m = m' := some.inj (hj.symm.trans hi)
      have hgen := h.generation j m hi
      have htx := h.transactionId j m hi
      exact ⟨_, getElem?_put_self hi _, later_operate mop (by omega) (by omega)⟩
    · exact ⟨m, (getElem?_put_ne hij _).trans hj, Later.refl m⟩
  · rw [hnex]
    exact ⟨m, hj, Later.refl m⟩

/-! ## Dead checkpoints -/

/-- **A dead checkpoint** is of an earlier generation of its manager. -/
def Dead (S : TransactionManagers) (cp : TransactionCheckpoint) : Prop :=
  ∃ (i : ℕ) (m : TransactionManager), S.managers[i]? = some m ∧ cp.managerId = m.managerId ∧
    cp.generation.toNat < m.currentGeneration.toNat

/-- **A checkpoint that has been issued** by a manager is of its current
generation or of an earlier one, and its transaction has been numbered. -/
def Known (S : TransactionManagers) (i : ℕ) (cp : TransactionCheckpoint) : Prop :=
  ∃ m : TransactionManager, S.managers[i]? = some m ∧ cp.managerId = m.managerId ∧
    cp.generation.toNat ≤ m.currentGeneration.toNat ∧
    cp.transactionId.toNat < m.nextTransactionId.toNat

theorem Dead.next (h : S.Dead cp) (hS : Sound n S) (hn : n + 2 < 2 ^ 64) (op : TransactionOp) :
    (machine.next S op).Dead cp := by
  obtain ⟨i, m, hi, hid, hgen⟩ := h
  obtain ⟨m', hi', hlat⟩ := hS.later hn op hi
  exact ⟨i, m', hi', hid.trans hlat.managerId.symm, hgen.trans_le hlat.generation⟩

theorem Known.next (h : S.Known i cp) (hS : Sound n S) (hn : n + 2 < 2 ^ 64)
    (op : TransactionOp) : (machine.next S op).Known i cp := by
  obtain ⟨m, hi, hid, hgen, htx⟩ := h
  obtain ⟨m', hi', hlat⟩ := hS.later hn op hi
  exact ⟨m', hi', hid.trans hlat.managerId.symm, hgen.trans hlat.generation,
    htx.trans_le hlat.transactionId⟩

theorem not_takesEffect_refusedAnswer {r : TransactionResult} (h : Refusal r) (op : ManagerOp) :
    ¬ (refusedAnswer r op).TakesEffect := by
  rcases h with rfl | rfl <;> cases op <;> exact id

theorem not_endsGeneration_refusedAnswer {r : TransactionResult} (h : Refusal r)
    (op : ManagerOp) : ¬ (refusedAnswer r op).EndsGeneration := by
  rcases h with rfl | rfl <;> cases op <;> exact id

variable {mop : ManagerOp}

/-- **What has taken effect** is an active checkpoint of the manager. -/
theorem accepted_of_takesEffect (h : (machine.out S (.on i mop)).TakesEffect) :
    ∃ m, S.managers[i]? = some m ∧ ∃ info ∈ m.active, mop.presents = some info.checkpoint ∧
      info.checkpoint.managerId = m.managerId ∧ info.checkpoint.generation = m.currentGeneration ∧
      m.operate mop = (acceptedAnswer info.state mop, m.advanceGeneration) := by
  rcases next_cases S (.on i mop) with ⟨_, heq, -⟩ | ⟨i', mop', m, heq, hi, hout, -⟩ |
    ⟨_, _, _, -, hout, -⟩
  · cases heq
  · cases heq
    rw [hout] at h
    refine ⟨m, hi, ?_⟩
    rcases m.operate_cases mop with ⟨state, -, hop⟩ | hop | ⟨cp, r, -, hr, hop⟩ | ⟨-, hop⟩
    · rw [hop] at h
      exact h.elim
    · exact hop
    · rw [hop] at h
      exact absurd h (not_takesEffect_refusedAnswer hr mop)
    · rw [hop] at h
      exact h.elim
  · rw [hout] at h
    exact h.elim

/-- **A dead checkpoint is refused** by every manager. -/
theorem Dead.refused (h : S.Dead cp) (hS : Sound n S)
    (hcp : mop.presents = some cp) : ¬ (machine.out S (.on i mop)).TakesEffect := by
  intro heff
  obtain ⟨m, hi, info, -, hpr, hid, hgen, -⟩ := accepted_of_takesEffect heff
  obtain rfl := some.inj (hcp.symm.trans hpr)
  obtain ⟨j, m', hj, hid', hgen'⟩ := h
  obtain rfl := hS.manager_unique hi hj (hid.symm.trans hid')
  obtain rfl := some.inj (hi.symm.trans hj)
  rw [hgen] at hgen'
  exact lt_irrefl _ hgen'

/-- **What ends a generation** leaves all checkpoints of the manager dead. -/
theorem Known.dead_of_ends (h : S.Known i cp) (hS : Sound n S) (hn : n + 2 < 2 ^ 64)
    (hend : (machine.out S (.on i mop)).EndsGeneration) :
    (machine.next S (.on i mop)).Dead cp := by
  obtain ⟨m, hi, hid, hgen, -⟩ := h
  rcases next_cases S (.on i mop) with ⟨_, heq, -⟩ | ⟨i', mop', m', heq, hi', hout, hnex⟩ |
    ⟨_, _, _, -, hout, -⟩
  · cases heq
  · cases heq
    obtain rfl := some.inj (hi.symm.trans hi')
    have hadv : (m.operate mop).2 = m.advanceGeneration := by
      rcases m.operate_cases mop with ⟨state, -, hop⟩ | ⟨_, _, _, _, _, hop⟩ |
        ⟨cp, r, -, hr, hop⟩ | ⟨-, hop⟩
      · rw [hout, hop] at hend
        exact hend.elim
      · rw [hop]
      · rw [hout, hop] at hend
        exact absurd hend (not_endsGeneration_refusedAnswer hr mop)
      · rw [hop]
    have hbnd := hS.generation i m hi
    have hinc : m.advanceGeneration.currentGeneration.toNat =
        m.currentGeneration.toNat + 1 := toNat_add_one (by omega)
    rw [hnex, hadv]
    exact ⟨i, _, getElem?_put_self hi _, hid, by omega⟩
  · rw [hout] at hend
    exact hend.elim

/-! ## Runs -/

/-- A run from the beginning of the process. -/
def after (ops : List TransactionOp) : TransactionManagers := machine.run initial ops

theorem after_append_singleton (ops : List TransactionOp) (op : TransactionOp) :
    after (ops ++ [op]) = machine.next (after ops) op := machine.run_append initial ops [op]

variable {ops : List TransactionOp}

/-- No counter has come round in a run that is short enough. -/
theorem sound_after (h : ops.length + 1 < 2 ^ 64) : Sound ops.length (after ops) := by
  induction ops using List.reverseRecOn with
  | nil => exact sound_initial
  | append_singleton ops op ih =>
    rw [length_append, length_singleton] at h ⊢
    rw [after_append_singleton]
    exact (ih (by omega)).step (by omega) op

/-- **A checkpoint that is dead stays so.** -/
theorem Dead.after_append {more : List TransactionOp} (h : (after ops).Dead cp)
    (hlen : (ops ++ more).length + 1 < 2 ^ 64) : (after (ops ++ more)).Dead cp := by
  induction more using List.reverseRecOn with
  | nil => rwa [List.append_nil]
  | append_singleton more op ih =>
    rw [← append_assoc, length_append, length_singleton] at hlen
    rw [← append_assoc, after_append_singleton]
    exact (ih (by omega)).next (sound_after (by omega)) (by omega) op

/-- **In a run, a manager has issued a checkpoint** of a state. -/
def Issued (ops : List TransactionOp) (i : ℕ) (cp : TransactionCheckpoint)
    (state : CausalState) : Prop :=
  ∃ before more, ops = before ++ .on i (.begin state) :: more ∧
    machine.out (after before) (.on i (.begin state)) = .issued cp

variable {state : CausalState}

/-- What has been issued has been so before the last operation, or by it. -/
theorem issued_append_singleton {op : TransactionOp} :
    Issued (ops ++ [op]) i cp state ↔ Issued ops i cp state ∨
      op = .on i (.begin state) ∧ machine.out (after ops) op = .issued cp := by
  constructor
  · rintro ⟨before, more, heq, hout⟩
    rcases eq_nil_or_concat more with rfl | ⟨more, last, rfl⟩
    · obtain ⟨rfl, hop⟩ := append_inj' heq rfl
      obtain rfl := singleton_inj.mp hop
      exact inr ⟨rfl, hout⟩
    · rw [concat_eq_append, ← cons_append, ← append_assoc] at heq
      obtain ⟨rfl, -⟩ := append_inj' heq rfl
      exact inl ⟨before, more, rfl, hout⟩
  · rintro (⟨before, more, rfl, hout⟩ | ⟨rfl, hout⟩)
    · exact ⟨before, more ++ [op], by rw [append_assoc, cons_append], hout⟩
    · exact ⟨ops, [], rfl, hout⟩

/-- The checkpoint that is issued, and the manager after it. -/
theorem issued_begin (h : machine.out S (.on i (.begin state)) = .issued cp) :
    ∃ m, S.managers[i]? = some m ∧ cp = m.nextCheckpoint ∧
      machine.next S (.on i (.begin state)) = S.put i (m.begin state).2 := by
  rcases next_cases S (.on i (.begin state)) with ⟨_, heq, -⟩ | ⟨_, _, m, heq, hi, hout, hnex⟩ |
    ⟨_, _, _, -, hout, -⟩
  · cases heq
  · cases heq
    rw [hout] at h
    exact ⟨m, hi, (TransactionAnswer.issued.inj h).symm, hnex⟩
  · rw [hout] at h
    cases h

theorem known_of_begin (hS : Sound n S) (hn : n + 2 < 2 ^ 64)
    (h : machine.out S (.on i (.begin state)) = .issued cp) :
    (machine.next S (.on i (.begin state))).Known i cp := by
  obtain ⟨m, hi, rfl, hnex⟩ := issued_begin h
  have hbnd := hS.transactionId i m hi
  have hdr : (m.nextTransactionId + 1).toNat = m.nextTransactionId.toNat + 1 :=
    toNat_add_one (by omega)
  have hmax : max (m.nextTransactionId + 1) 1 = m.nextTransactionId + 1 := max_one_eq (by omega)
  refine ⟨(m.begin state).2, hnex ▸ getElem?_put_self hi _, rfl, le_rfl, ?_⟩
  show m.nextTransactionId.toNat < (max (m.nextTransactionId + 1) 1).toNat
  rw [hmax, hdr]
  exact Nat.lt_succ_self _

/-- **Every checkpoint that has been issued is known.** -/
theorem Issued.known (h : Issued ops i cp state) (hlen : ops.length + 1 < 2 ^ 64) :
    (after ops).Known i cp := by
  induction ops using List.reverseRecOn with
  | nil =>
    obtain ⟨before, more, heq, -⟩ := h
    cases before <;> cases heq
  | append_singleton ops op ih =>
    rw [length_append, length_singleton] at hlen
    rw [after_append_singleton]
    have hS : Sound ops.length (after ops) := sound_after (by omega)
    rcases issued_append_singleton.mp h with h | ⟨rfl, hout⟩
    · exact (ih h (by omega)).next hS (by omega) op
    · exact known_of_begin hS (by omega) hout

/-- A new checkpoint has not been issued before. -/
theorem not_known_of_begin (hS : Sound n S)
    (h : machine.out S (.on i (.begin state)) = .issued cp) : ¬ S.Known j cp := by
  rintro ⟨m', hj, hid, -, htx⟩
  obtain ⟨m, hi, rfl, -⟩ := issued_begin h
  obtain rfl := hS.manager_unique hi hj hid
  obtain rfl := some.inj (hi.symm.trans hj)
  exact lt_irrefl _ htx

/-- **A checkpoint is issued once**, by one manager, for one state. -/
theorem Issued.unique {state' : CausalState} (h : Issued ops i cp state)
    (h' : Issued ops j cp state') (hlen : ops.length < 2 ^ 64) : i = j ∧ state = state' := by
  induction ops using List.reverseRecOn with
  | nil =>
    obtain ⟨before, more, heq, -⟩ := h
    cases before <;> cases heq
  | append_singleton ops op ih =>
    rw [length_append, length_singleton] at hlen
    have hS : Sound ops.length (after ops) := sound_after hlen
    rcases issued_append_singleton.mp h with hold | ⟨heq, hout⟩ <;>
      rcases issued_append_singleton.mp h' with hold' | ⟨heq', hout'⟩
    · exact ih hold hold' (by omega)
    · rw [heq'] at hout'
      exact absurd (hold.known hlen) (not_known_of_begin hS hout')
    · rw [heq] at hout
      exact absurd (hold'.known hlen) (not_known_of_begin hS hout)
    · cases heq.symm.trans heq'
      exact ⟨rfl, rfl⟩

/-- **An active checkpoint has been issued** by its manager, for the state
that is kept with it. -/
theorem issued_of_active {info : TransactionInfo}
    (hi : (after ops).managers[i]? = some m) (hinf : info ∈ m.active) :
    Issued ops i info.checkpoint info.state := by
  induction ops using List.reverseRecOn generalizing m with
  | nil => cases hi
  | append_singleton ops op ih =>
    rw [after_append_singleton] at hi
    rw [issued_append_singleton]
    rcases next_cases (after ops) op with ⟨schemaId, -, hnex⟩ |
      ⟨j, mop, m', rfl, hj, hout, hnex⟩ | ⟨_, _, -, -, -, hnex⟩
    · rw [hnex] at hi
      rcases getElem?_create hi with hi | ⟨-, rfl⟩
      · exact inl (ih hi hinf)
      · cases hinf
    · rw [hnex] at hi
      rcases getElem?_put hi with ⟨hi, -⟩ | ⟨rfl, rfl⟩
      · exact inl (ih hi hinf)
      · rcases m'.operate_cases mop with ⟨state, rfl, hop⟩ | ⟨_, _, _, _, _, hop⟩ |
          ⟨cp, r, -, -, hop⟩ | ⟨-, hop⟩
        · rw [hop] at hinf hout
          rcases mem_append.mp hinf with hinf | hinf
          · exact inl (ih hj hinf)
          · obtain rfl := mem_singleton.mp hinf
            exact inr ⟨rfl, hout⟩
        · rw [hop] at hinf
          cases hinf
        · rw [hop] at hinf
          exact inl (ih hj hinf)
        · rw [hop] at hinf
          cases hinf
    · rw [hnex] at hi
      exact inl (ih hi hinf)

/-! ## Transactions -/

/-- What has been accepted was issued, and is dead from then on. -/
theorem dead_of_takesEffect (hlen : ops.length + 2 < 2 ^ 64)
    (hcp : mop.presents = some cp) (h : (machine.out (after ops) (.on i mop)).TakesEffect) :
    (after (ops ++ [.on i mop])).Dead cp := by
  have hS : Sound ops.length (after ops) := sound_after (by omega)
  obtain ⟨m, hi, info, hinf, hpr, -, -, -⟩ := accepted_of_takesEffect h
  obtain rfl := some.inj (hcp.symm.trans hpr)
  have hkn := (issued_of_active hi hinf).known (by omega)
  rw [after_append_singleton]
  refine hkn.dead_of_ends hS (by omega) ?_
  cases hout : machine.out (after ops) (.on i mop) with
  | finished r => rw [hout] at h; cases r <;> trivial
  | restored r => rw [hout] at h; cases r <;> trivial
  | created | issued | absent => rw [hout] at h; exact h.elim

/-- A dead checkpoint is refused in the rest of the run. -/
theorem refused_of_dead {before more rest : List TransactionOp}
    (hdd : (after before).Dead cp) (hlen : (before ++ more ++ .on i mop :: rest).length < 2 ^ 64)
    (hcp : mop.presents = some cp) :
    ¬ (machine.out (after (before ++ more)) (.on i mop)).TakesEffect := by
  rw [length_append, length_cons] at hlen
  exact (hdd.after_append (by omega)).refused (sound_after (by omega)) hcp

/-- What does not take effect changes nothing, and says so. -/
theorem unchanged_of_refused (hcp : mop.presents = some cp)
    (h : ¬ (machine.out S (.on i mop)).TakesEffect) : machine.next S (.on i mop) = S ∧
      (machine.out S (.on i mop) = .absent ∨
        ∃ r, Refusal r ∧ machine.out S (.on i mop) = refusedAnswer r mop) := by
  rcases next_cases S (.on i mop) with ⟨_, heq, -⟩ | ⟨_, _, m, heq, hi, hout, hnex⟩ |
    ⟨_, _, _, -, hout, hnex⟩
  · cases heq
  · cases heq
    rcases m.operate_cases mop with ⟨state, rfl, -⟩ | ⟨info, -, -, -, -, hop⟩ |
      ⟨_, r, -, hr, hop⟩ | ⟨rfl, -⟩
    · cases hcp
    · rw [hout, hop] at h
      cases mop with
      | begin | cancel => cases hcp
      | commit | rollback => exact absurd trivial h
    · refine ⟨?_, inr ⟨r, hr, by rw [hout, hop]⟩⟩
      obtain ⟨hlt, rfl⟩ := List.getElem?_eq_some_iff.mp hi
      rw [hnex, hop]
      unfold put
      rw [set_getElem_self hlt]
    · cases hcp
  · exact ⟨hnex, inl hout⟩

/-- **Transactions are safe**, in every run of fewer than 2^64 operations of
any managers. A checkpoint takes effect at most once. A rollback that takes
effect leaves the state for which the checkpoint was issued – and it was
issued once, by the same manager. What does not take effect is answered by
an error, and changes neither a manager nor the state; and so it goes for a
checkpoint of another manager. After anything that ends a generation of a
manager, no checkpoint that it has issued before is accepted again. -/
theorem transactions_safe (ops : List TransactionOp) (hlen : ops.length < 2 ^ 64) :
    (∀ l₁ i op l₂ j op' l₃ cp,
      ops = l₁ ++ TransactionOp.on i op :: l₂ ++ TransactionOp.on j op' :: l₃ →
      op.presents = some cp → op'.presents = some cp →
      (machine.out (after l₁) (.on i op)).TakesEffect →
      ¬ (machine.out (after (l₁ ++ .on i op :: l₂)) (.on j op')).TakesEffect) ∧
    (∀ l₁ i cp live l₂ state, ops = l₁ ++ TransactionOp.on i (.rollback cp live) :: l₂ →
      machine.out (after l₁) (.on i (.rollback cp live)) = .restored .rolledBack state →
      Issued l₁ i cp state ∧ ∀ j state', Issued l₁ j cp state' → j = i ∧ state' = state) ∧
    (∀ l₁ i op l₂ cp, ops = l₁ ++ TransactionOp.on i op :: l₂ → op.presents = some cp →
      ¬ (machine.out (after l₁) (.on i op)).TakesEffect → after (l₁ ++ [.on i op]) = after l₁ ∧
      (machine.out (after l₁) (.on i op) = .absent ∨
        ∃ r, Refusal r ∧ machine.out (after l₁) (.on i op) = refusedAnswer r op)) ∧
    (∀ l₁ i op l₂ j cp state, ops = l₁ ++ TransactionOp.on i op :: l₂ → op.presents = some cp →
      Issued l₁ j cp state → j ≠ i → ¬ (machine.out (after l₁) (.on i op)).TakesEffect) ∧
    (∀ l₁ i op l₂ j op' l₃ cp state,
      ops = l₁ ++ TransactionOp.on i op :: l₂ ++ TransactionOp.on j op' :: l₃ →
      (machine.out (after l₁) (.on i op)).EndsGeneration → Issued l₁ i cp state →
      op'.presents = some cp →
      ¬ (machine.out (after (l₁ ++ .on i op :: l₂)) (.on j op')).TakesEffect) := by
  have hsh : ∀ (l₁ l₂ : List TransactionOp) op, ops = l₁ ++ op :: l₂ → l₁.length + 1 < 2 ^ 64 := by
    intro l₁ l₂ op heq
    rw [heq, length_append, length_cons] at hlen
    omega
  refine ⟨?_, ?_, ?_, ?_, ?_⟩
  · intro l₁ i op l₂ j op' l₃ cp heq hcp hcp' heff
    have hspl : l₁ ++ .on i op :: l₂ = (l₁ ++ [.on i op]) ++ l₂ := by
      rw [append_assoc, singleton_append]
    rw [heq, hspl] at hlen
    rw [hspl]
    refine refused_of_dead (dead_of_takesEffect ?_ hcp heff) hlen hcp'
    simp only [length_append, length_cons, length_nil] at hlen
    omega
  · intro l₁ i cp live l₂ state heq hout
    have hsh := hsh l₁ l₂ _ heq
    have heff : (machine.out (after l₁) (.on i (.rollback cp live))).TakesEffect := by
      rw [hout]
      trivial
    obtain ⟨m, hi, info, hinf, hpr, -, -, hop⟩ := accepted_of_takesEffect heff
    cases hpr
    have hst : info.state = state := by
      have hans : machine.out (after l₁) (.on i (.rollback info.checkpoint live)) =
          (m.operate (.rollback info.checkpoint live)).1 := by
        simp only [Machine.out, machine, step, hi]
      rw [hans, hop] at hout
      exact (TransactionAnswer.restored.inj hout).2
    have hiss := issued_of_active hi hinf
    rw [hst] at hiss
    exact ⟨hiss, fun j state' h => h.unique hiss (by omega)⟩
  · intro l₁ i op l₂ cp heq hcp href
    rw [after_append_singleton]
    exact unchanged_of_refused hcp href
  · intro l₁ i op l₂ j cp state heq hcp hiss hij heff
    have hsh := hsh l₁ l₂ _ heq
    obtain ⟨m, hi, info, hinf, hpr, -, -, -⟩ := accepted_of_takesEffect heff
    obtain rfl := some.inj (hcp.symm.trans hpr)
    exact hij (hiss.unique (issued_of_active hi hinf) (by omega)).1
  · intro l₁ i op l₂ j op' l₃ cp state heq hend hiss hcp'
    have hspl : l₁ ++ .on i op :: l₂ = (l₁ ++ [.on i op]) ++ l₂ := by
      rw [append_assoc, singleton_append]
    rw [heq, hspl] at hlen
    have hlen' := hlen
    simp only [length_append, length_cons, length_nil] at hlen'
    rw [hspl]
    refine refused_of_dead ?_ hlen hcp'
    rw [after_append_singleton]
    exact (hiss.known (by omega)).dead_of_ends (sound_after (by omega)) (by omega) hend

/-- A manager, a transaction, and its rollback, twice. -/
theorem transactions_safe_of_rollback :
    ¬ (machine.out (after [.create ⟨"llama", 1, 0⟩, .on 0 (.begin (.opaqueData ⟨[7], by decide⟩)),
        .on 0 (.rollback ⟨1, 0, 1, ⟨"llama", 1, 0⟩⟩ (.opaqueData ⟨[], by decide⟩))])
      (.on 0 (.rollback ⟨1, 0, 1, ⟨"llama", 1, 0⟩⟩ (.opaqueData ⟨[], by decide⟩)))).TakesEffect :=
  (transactions_safe [.create ⟨"llama", 1, 0⟩, .on 0 (.begin (.opaqueData ⟨[7], by decide⟩)),
      .on 0 (.rollback ⟨1, 0, 1, ⟨"llama", 1, 0⟩⟩ (.opaqueData ⟨[], by decide⟩)),
      .on 0 (.rollback ⟨1, 0, 1, ⟨"llama", 1, 0⟩⟩ (.opaqueData ⟨[], by decide⟩))]
    (by decide)).1
    [.create ⟨"llama", 1, 0⟩, .on 0 (.begin (.opaqueData ⟨[7], by decide⟩))] 0 _ [] 0 _ [] _
    rfl rfl rfl trivial

end TransactionManagers

end Logan
