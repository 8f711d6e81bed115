import Logan.Qwen.Plan
import Logan.Sched.Accel

/-!
# The residency bridge

The engine keeps the expert weights itself. Beside it the driver of
scheduled decoding keeps a `ResidencyManager`, which only says what the
scheduler believes to be loaded: the **view**. The `ResidencyBridge` turns
the experts that the engine reports as missing into loads of the view, and
publishes each of them when the engine has carried it out.

The engine may drop an expert that the view holds and report it again. The
view has no eviction of its own – its pool has room for the whole plan – and
answers such a report with a hit, without starting a load.

`ResidencyBridge.Holds` says what the view is between two actions: a set of
experts is resident, nothing else is known, and the counters of the pool are
those of the set. `Holds.requestLoad_new` and `Holds.requestLoad_known` are
the two ways a report goes; neither of them is an error.
-/

namespace Logan

open Table Finset

/-! ## Devices -/

/-- Invalid registry operations. -/
inductive DeviceError where
  | duplicateDevice (device : DeviceId)
deriving DecidableEq

namespace DeviceRegistry

/-- A registry without targets. -/
def new : DeviceRegistry := ⟨∅⟩

/-- Register a target under its device. -/
def register (r : DeviceRegistry) (target : ExecutionTarget) :
    Except DeviceError DeviceRegistry :=
  match r.targets.lookup target.device with
  | some _ => .error (.duplicateDevice target.device)
  | none => .ok ⟨r.targets.insert target.device target⟩

end DeviceRegistry

/-! ## The texts of errors -/

/-- The `Debug` text of an action kind. -/
def ActionKind.toText : ActionKind → String
  | .io => "Io"
  | .cpu => "Cpu"
  | .accelerator => "Accelerator"

/-- The `Debug` text of a memory pool. -/
def MemoryPoolId.toText (id : MemoryPoolId) : String :=
  "MemoryPoolId(" ++ toString id.val ++ ")"

/-- The `Debug` text of a device. -/
def DeviceId.toText (id : DeviceId) : String := "DeviceId(" ++ toString id.val ++ ")"

/-- The `Debug` text of a registry error. -/
def DeviceError.toText : DeviceError → String
  | .duplicateDevice device => "DuplicateDevice(" ++ device.toText ++ ")"

/-- The `Debug` text of a residency error. -/
def ResidencyError.toText : ResidencyError → String
  | .duplicatePool pool => "DuplicatePool(" ++ pool.toText ++ ")"
  | .duplicateDevice device => "DuplicateDevice(" ++ device.toText ++ ")"
  | .unknownPool pool => "UnknownPool(" ++ pool.toText ++ ")"
  | .unknownDevice device => "UnknownDevice(" ++ device.toText ++ ")"
  | .unknownKey => "UnknownKey"
  | .unknownLease lease => "UnknownLease(LeaseId(" ++ toString lease.val ++ "))"
  | .staleGeneration => "StaleGeneration"
  | .sizeMismatch expected requested =>
    "SizeMismatch \x7b expected: " ++ toString expected ++ ", requested: " ++ toString requested
      ++ " \x7d"
  | .budgetExceeded pool requested available =>
    "BudgetExceeded \x7b pool: " ++ pool.toText ++ ", requested: " ++ toString requested
      ++ ", available: " ++ toString available ++ " \x7d"

namespace Qwen

open Plan

/-! ## The bridge -/

/-- **The residency bridge**: the view, and the target that every action is
checked against. -/
structure ResidencyBridge where
  residency : ResidencyManager
  registry : DeviceRegistry
  target : ExecutionTarget
  plan : Plan

namespace ResidencyBridge

/-- The target of the run. -/
def gpuTarget : ExecutionTarget := ⟨⟨0⟩, .gpu, [.accelerator, .io]⟩

/-- The one memory pool. -/
def pool : MemoryPoolId := ⟨0⟩

/-- `ResidencyBridge::new`. The sum of the slots is a plain sum of `usize`:
it panics where it overflows. -/
def new (plan : Plan) : Except (Failure String) ResidencyBridge :=
  match DeviceRegistry.new.register gpuTarget with
  | .error e => .error (.error ("execution target registration: " ++ e.toText))
  | .ok registry =>
    if usizeMax < plan.totalBytes then .error .panic
    else
      match ResidencyManager.new.addPool pool plan.totalBytes with
      | (.error e, _) => .error (.error ("residency pool: " ++ e.toText))
      | (.ok (), residency) =>
        match residency.addDevice ⟨0⟩ [pool] with
        | (.error e, _) => .error (.error ("residency device: " ++ e.toText))
        | (.ok (), residency) => .ok ⟨residency, registry, gpuTarget, plan⟩

/-- The planned representation of one expert: layout 1, kernel ABI 1 and
quantization 1. -/
def key (layer expert : UInt32) : ExpertKey :=
  ⟨1, 1, layer.toNat, expert.toNat, ⟨1, 1, 1⟩, pool⟩

/-- Dispatch validation: the target must be the registered target of its
device and must accept the action. -/
def checkTarget (b : ResidencyBridge) (kind : ActionKind) : Except String Unit :=
  match b.registry.get b.target.device with
  | none => .error "execution target not registered"
  | some registered =>
    if registered ≠ b.target then .error "registered execution target mismatch"
    else if registered.accepts kind = false then
      .error ("execution target " ++ kind.toText ++ " is not accepted")
    else .ok ()

/-- **Reserve the memory of an expert** and start its load. `none` is the
answer for an expert that the view already holds, or is loading: the caller
still has it loaded, but there is nothing to publish. -/
def requestLoad (b : ResidencyBridge) (session : SessionId) (layer expert : UInt32) :
    Except (Failure String) (Option LoadId) × ResidencyBridge :=
  match b.residency.beginLoad (key layer expert) (b.plan.slotBytesOf (layer, expert)) session with
  | (.error e, m) =>
    (.error (.error ("residency begin_load: " ++ e.toText)), { b with residency := m })
  | (.ok (.started loadId), m) => (.ok (some loadId), { b with residency := m })
  | (.ok (.alreadyResident _), m) | (.ok (.joined _), m) => (.ok none, { b with residency := m })

/-- Release the leases of the waiters that were woken, and ignore whether
that succeeds. -/
def releaseWakes (m : ResidencyManager) (wakes : List LoadWake) : ResidencyManager :=
  wakes.foldl (fun m wake =>
    match wake.result with
    | .inl lease => (m.release lease).2
    | .inr _ => m) m

/-- **Publish a successful load** into the view. -/
def publish (b : ResidencyBridge) (loadId : LoadId) :
    Except (Failure String) Unit × ResidencyBridge :=
  match b.residency.completeLoad ⟨loadId, .success⟩ with
  | (.error e, m) =>
    (.error (.error ("residency publish: " ++ e.toText)), { b with residency := m })
  | (.ok (.published _ wakes), m) => (.ok (), { b with residency := releaseWakes m wakes })
  | (.ok (.failed _), m) | (.ok .stale, m) => (.ok (), { b with residency := m })

/-- `ResidencyBridge::state` -/
def state (b : ResidencyBridge) (layer expert : UInt32) : ResidencyState :=
  b.residency.state (key layer expert)

/-! ## What the view holds -/

/-- **The view between two actions** of a run with this plan: exactly the
experts of the set are resident, each of them published once, and the pool
counts them. -/
structure Holds (plan : Plan) (held : Finset ExpertNumber) (b : ResidencyBridge) : Prop where
  registry : b.registry.get ⟨0⟩ = some gpuTarget
  target : b.target = gpuTarget
  planned : b.plan = plan
  /-- A resident expert is in the view at its first generation. -/
  resident : ∀ n ∈ held, ∃ entry, b.residency.entries.lookup (key n.1 n.2) = some entry
    ∧ entry.state = .resident ⟨0⟩
  /-- An expert outside of the set has never been asked for. -/
  unknown : ∀ n ∉ held, b.residency.entries.lookup (key n.1 n.2) = none
    ∧ b.residency.nextGeneration.lookup (key n.1 n.2) = none
  counted : ∃ stats, b.residency.pools.lookup pool = some stats
    ∧ stats.budgetBytes = plan.totalBytes ∧ stats.reservedLoadingBytes = 0
    ∧ stats.loadsStarted = held.card
    ∧ stats.residentBytes = ∑ n ∈ held, plan.slotBytesOf n

variable {plan : Plan} {held : Finset ExpertNumber} {b : ResidencyBridge}

theorem key_injective {n n' : ExpertNumber} (h : key n.1 n.2 = key n'.1 n'.2) : n = n' := by
  have hlay : n.1.toNat = n'.1.toNat := congrArg ExpertKey.layer h
  have hexp : n.2.toNat = n'.2.toNat := congrArg ExpertKey.expert h
  exact Prod.ext (UInt32.toNat_inj.mp hlay) (UInt32.toNat_inj.mp hexp)

theorem holds_new (h : new plan = .ok b) : Holds plan ∅ b := by
  have hreg : DeviceRegistry.new.register gpuTarget
      = .ok ⟨(∅ : Table DeviceId ExecutionTarget).insert ⟨0⟩ gpuTarget⟩ := rfl
  unfold new at h
  rw [hreg] at h
  dsimp only at h
  by_cases hbig : usizeMax < plan.totalBytes
  · rw [if_pos hbig] at h
    cases h
  · rw [if_neg hbig] at h
    cases h
    refine ⟨lookup_insert_self _ _ _, rfl, rfl, fun n hn => absurd hn (notMem_empty n),
      fun n _ => ⟨rfl, rfl⟩, ?_⟩
    exact ⟨_, lookup_insert_self _ _ _, rfl, rfl, rfl, rfl⟩

/-- Every dispatch of the driver is accepted. -/
theorem Holds.checkTarget (h : Holds plan held b) {kind : ActionKind} (hkin : kind ≠ .cpu) :
    b.checkTarget kind = .ok () := by
  unfold ResidencyBridge.checkTarget
  rw [h.target, show b.registry.get gpuTarget.device = some gpuTarget from h.registry]
  refine (if_neg (not_not_intro rfl)).trans ?_
  cases kind with
  | io | accelerator => rfl
  | cpu => exact absurd rfl hkin

/-- **One entry of the view is rewritten**, and is resident at its first
generation afterwards. -/
theorem Holds.rewrite (h : Holds plan held b) (n₀ : ExpertNumber) {m : ResidencyManager}
    {entry : Entry} {stats : PoolStats}
    (hent : m.entries.lookup (key n₀.1 n₀.2) = some entry) (hst : entry.state = .resident ⟨0⟩)
    (hoth : ∀ k ≠ key n₀.1 n₀.2, m.entries.lookup k = b.residency.entries.lookup k
      ∧ m.nextGeneration.lookup k = b.residency.nextGeneration.lookup k)
    (hs : m.pools.lookup pool = some stats) (hbud : stats.budgetBytes = plan.totalBytes)
    (hres : stats.reservedLoadingBytes = 0) (hstr : stats.loadsStarted = (insert n₀ held).card)
    (hbytes : stats.residentBytes = ∑ n ∈ insert n₀ held, plan.slotBytesOf n) :
    Holds plan (insert n₀ held) { b with residency := m } where
  registry := h.registry
  target := h.target
  planned := h.planned
  resident n hn := by
    by_cases hkey : n = n₀
    · rw [hkey]
      exact ⟨entry, hent, hst⟩
    · obtain ⟨entry', he', hst'⟩ := h.resident n (mem_of_mem_insert_of_ne hn hkey)
      exact ⟨entry', ((hoth _ fun hk => hkey (key_injective hk)).1).trans he', hst'⟩
  unknown n hn := by
    obtain ⟨hne, hn⟩ := not_or.mp fun h => hn (mem_insert.mpr h)
    obtain ⟨hents, hgen⟩ := hoth _ fun hk => hne (key_injective hk)
    obtain ⟨he, hgnr⟩ := h.unknown n hn
    exact ⟨hents.trans he, hgen.trans hgnr⟩
  counted := ⟨stats, hs, hbud, hres, hstr, hbytes⟩

/-- **An expert that the view holds is a hit**: there is nothing to publish,
and the view holds what it did. -/
theorem Holds.requestLoad_known (h : Holds plan held b) (session : SessionId)
    {layer expert : UInt32} (hn : (layer, expert) ∈ held) :
    ∃ b', b.requestLoad session layer expert = (.ok none, b') ∧ Holds plan held b' := by
  obtain ⟨entry, he, hst⟩ := h.resident _ hn
  obtain ⟨stats, hs, hbud, hres, hstr, hbytes⟩ := h.counted
  have hld := ResidencyManager.beginLoad_of_resident
    (b.plan.slotBytesOf (layer, expert)) session he hst hs
  refine ⟨{ b with residency := b.residency.hit (key layer expert) entry stats }, ?_, ?_⟩
  · unfold requestLoad
    rw [hld]
  · have hins : insert (layer, expert) held = held := insert_eq_of_mem hn
    have hrew := h.rewrite (layer, expert) (m := b.residency.hit (key layer expert) entry stats)
      (lookup_insert_self _ _ _) hst
      (fun k hk => ⟨lookup_insert_ne _ _ hk, rfl⟩) (lookup_insert_self _ _ _)
      hbud hres (hins.symm ▸ hstr) (hins.symm ▸ hbytes)
    rwa [hins] at hrew

/-- **A key was loaded**: the manager afterwards has it resident, and has
counted one load of its bytes. -/
structure Loaded (m : ResidencyManager) (k : ExpertKey) (bytes : ℕ) (stats : PoolStats)
    (m' : ResidencyManager) : Prop where
  resident : ∃ entry, m'.entries.lookup k = some entry ∧ entry.state = .resident (m.upcoming k)
  other : ∀ j ≠ k, m'.entries.lookup j = m.entries.lookup j
    ∧ m'.nextGeneration.lookup j = m.nextGeneration.lookup j
  counted : ∃ stats', m'.pools.lookup k.pool = some stats' ∧ stats'.budgetBytes = stats.budgetBytes
    ∧ stats'.reservedLoadingBytes = stats.reservedLoadingBytes
    ∧ stats'.loadsStarted = stats.loadsStarted + 1
    ∧ stats'.residentBytes = stats.residentBytes + bytes

/-- **One load of a key without an entry**, from its start to the release of
the one lease it leaves. -/
theorem load_round {m : ResidencyManager} {k : ExpertKey} {stats : PoolStats} (bytes : ℕ)
    (waiter : SessionId) (he : m.entries.lookup k = none)
    (hs : m.pools.lookup k.pool = some stats)
    (hrm : stats.residentBytes + stats.reservedLoadingBytes + bytes ≤ stats.budgetBytes) :
    ∃ started published wakes, m.beginLoad k bytes waiter = (.ok (.started ⟨m.nextLoad⟩), started)
      ∧ started.completeLoad ⟨⟨m.nextLoad⟩, .success⟩
        = (.ok (.published (m.upcoming k) wakes), published)
      ∧ Loaded m k bytes stats (releaseWakes published wakes) := by
  have hpub : (m.started k bytes waiter stats).completeLoad ⟨⟨m.nextLoad⟩, .success⟩ = _ :=
    ResidencyManager.completeLoad_of_success (lookup_insert_self _ _ _)
      (lookup_insert_self _ _ _) rfl (lookup_insert_self _ _ _)
  refine ⟨_, _, _, ResidencyManager.beginLoad_of_vacant bytes waiter he hs hrm, hpub, ?_⟩
  -- the one waiter has the one lease, which is released at once
  rw [releaseWakes, ResidencyManager.granted, ResidencyManager.grant, List.foldl_cons]
  dsimp only
  rw [ResidencyManager.release_of_resident (lookup_insert_self _ _ _)
    (lookup_insert_self _ _ _) rfl (lookup_insert_self _ _ _)]
  refine ⟨⟨_, lookup_insert_self _ _ _, rfl⟩, fun j hj => ⟨?_, ?_⟩,
    ⟨_, lookup_insert_self _ _ _, rfl, Nat.add_sub_cancel _ _, rfl, rfl⟩⟩
  · exact (lookup_insert_ne _ _ hj).trans
      ((lookup_insert_ne _ _ hj).trans (lookup_insert_ne _ _ hj))
  · exact lookup_insert_ne _ _ hj

/-- **An expert that the view does not know starts a load**, and once the
load is published the view holds it. -/
theorem Holds.requestLoad_new (h : Holds plan held b) (session : SessionId)
    {layer expert : UInt32} (hn : (layer, expert) ∉ held) :
    ∃ loadId b' b'', b.requestLoad session layer expert = (.ok (some loadId), b')
      ∧ b'.publish loadId = (.ok (), b'') ∧ Holds plan (insert (layer, expert) held) b'' := by
  obtain ⟨he, hgnr⟩ := h.unknown _ hn
  obtain ⟨stats, hs, hbud, hres, hst, hbytes⟩ := h.counted
  have hpl : b.plan = plan := h.planned
  have hsum : ∑ n ∈ insert (layer, expert) held, plan.slotBytesOf n
      = plan.slotBytesOf (layer, expert) + ∑ n ∈ held, plan.slotBytesOf n :=
    sum_insert hn
  have hfit := plan.sum_slotBytesOf_le (insert (layer, expert) held)
  have hgen : b.residency.upcoming (key layer expert) = ⟨0⟩ :=
    congrArg (fun g : Option ℕ => (⟨g.getD 0⟩ : Generation)) hgnr
  -- the pool has room for the whole plan, so nothing is evicted
  obtain ⟨started, published, wakes, hld, hpub, hldd⟩ :=
    load_round (b.plan.slotBytesOf (layer, expert)) session he hs (by rw [hpl]; omega)
  obtain ⟨entry, hent, hstt⟩ := hldd.resident
  obtain ⟨stats', hs', hbud', hres', hst', hbyt'⟩ := hldd.counted
  rw [hgen] at hstt
  refine ⟨⟨b.residency.nextLoad⟩, { b with residency := started },
    { b with residency := releaseWakes published wakes }, ?_, ?_, ?_⟩
  · unfold requestLoad
    rw [hld]
  · unfold publish
    rw [hpub]
  · refine h.rewrite (layer, expert) hent hstt hldd.other hs' (hbud'.trans hbud)
      (hres'.trans hres) ?_ ?_
    · rw [hst', hst, card_insert_of_notMem hn]
    · rw [hbyt', hbytes, hsum, hpl, Nat.add_comm]

end ResidencyBridge

end Qwen

end Logan
