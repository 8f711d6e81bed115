import Logan.Format.Payload

/-!
# The run plan

The scheduled driver never looks a record up while it runs: the record of
every routed expert is resolved once, into a `Plan`, and what a run needs
of it – how many bytes the expert takes, and how many all of them take – is
read off the plan.

A package numbers layers and experts by 32 bits, and `Plan::resolve` casts
its loop variables to them. Two layers of a plan whose numbers agree in
these bits are therefore one layer of the package, with the same experts:
this is `Plan.wraps`, which a plan carries. The driver casts a layer once
more, when it turns it into a residency key, and that the key still names
the expert that is meant is this property.
-/

namespace Logan

open Finset

namespace Qwen

open Result Format

/-- **One planned expert load**: the record, and the regions of its shard
file – offset and bytes – that hold the gate, up and down matrices. -/
structure PlannedExpert where
  shardId : UInt32
  regions : Vector (ℕ × ℕ) 3
  dims : Vector (ℕ × ℕ) 3
deriving DecidableEq

/-- Bytes the slot must hold (gate, up and down packed): what `Plan.resolve`
plans is in range, and the driver checks the total. -/
def PlannedExpert.slotBytes (p : PlannedExpert) : ℕ :=
  (p.regions.toList.map Prod.snd).sum

/-- The planned expert in a table of layers, if there is one. -/
def plannedIn (layers : List (List PlannedExpert)) (layer expert : ℕ) : Option PlannedExpert :=
  layers[layer]?.bind fun experts => experts[expert]?

/-- **The routed experts of a package**, resolved once for a run. -/
structure Plan where
  layers : List (List PlannedExpert)
  /-- The largest slot of a single expert. -/
  maxSlotBytes : ℕ
  /-- Layers with the same 32 bits are the same. -/
  wraps : ∀ layer expert p, plannedIn layers layer expert = some p →
    plannedIn layers (layer % 2 ^ 32) expert = some p

namespace Plan

/-- `Plan::planned` -/
def planned (plan : Plan) (layer expert : ℕ) : Option PlannedExpert :=
  plannedIn plan.layers layer expert

/-- The bytes of all planned experts together: the view never evicts, so the
pool must admit any of them. -/
def totalBytes (plan : Plan) : ℕ :=
  (plan.layers.flatten.map PlannedExpert.slotBytes).sum

/-! ## Resolving a plan -/

/-- The first three of a list that has at least three. -/
def firstThree : List (ℕ × ℕ) → Option (Vector (ℕ × ℕ) 3)
  | gate :: up :: down :: _ => some #v[gate, up, down]
  | _ => none

/-- What is planned for a record, or why it is not: `name` is what the errors
call the expert. A sum of the sizes that is out of range is a panic. -/
def planRecord (pkg : Package) (name : String) (record : RecordInfo) :
    Except (Fault String) PlannedExpert :=
  match findRegions pkg record with
  | .error .panicked => .error .panicked
  | .error (.failed _) => .error (.failed (name ++ " is not raw Apple8 MetalIO"))
  | .ok found =>
    match firstThree found.regions, firstThree found.dims with
    | some regions, some dims =>
      if usizeMax < PlannedExpert.slotBytes ⟨record.shardId, regions, dims⟩ then .error .panicked
      else .ok ⟨record.shardId, regions, dims⟩
    | _, _ => .error (.failed (name ++ " has malformed regions"))

/-- The body of the inner loop of `Plan::resolve`. -/
def resolveExpert (pkg : Package) (layer expert : ℕ) : Except (Fault String) PlannedExpert :=
  let name := "planned expert (" ++ toString layer ++ "," ++ toString expert ++ ")"
  match (pkg.expertRecords (.ofNat layer) (.ofNat expert)).head? with
  | none => .error (.failed (name ++ " has no record"))
  | some record => planRecord pkg name record

/-- The two loops of `Plan::resolve`. -/
def resolveLayers (pkg : Package) (layers experts : ℕ) :
    Except (Fault String) (List (List PlannedExpert)) :=
  (List.range layers).mapM fun layer => (List.range experts).mapM (resolveExpert pkg layer)

/-- Elementwise, what a fallible traversal of a range returns. -/
theorem getElem?_of_mapM_range {E A : Type} {f : ℕ → Except E A} {n : ℕ} {l : List A}
    (h : (List.range n).mapM f = .ok l) (i : ℕ) (a : A) :
    l[i]? = some a ↔ i < n ∧ f i = .ok a := by
  obtain ⟨rfl, hall⟩ := mapM_range_eq_ok.mp h
  rw [List.getElem?_eq_some_iff]
  constructor
  · rintro ⟨hi, rfl⟩
    exact ⟨hi, hall i hi⟩
  · rintro ⟨hi, ha⟩
    exact ⟨hi, Except.ok.inj ((hall i hi).symm.trans ha)⟩

/-- What is planned in the resolved layers. -/
theorem plannedIn_resolveLayers {pkg : Package} {layers experts : ℕ}
    {table : List (List PlannedExpert)} (h : resolveLayers pkg layers experts = .ok table)
    (layer expert : ℕ) (p : PlannedExpert) : plannedIn table layer expert = some p
      ↔ layer < layers ∧ expert < experts ∧ resolveExpert pkg layer expert = .ok p := by
  unfold plannedIn
  rw [Option.bind_eq_some_iff]
  constructor
  · rintro ⟨row, hrow, hp⟩
    obtain ⟨hlay, hrow⟩ := (getElem?_of_mapM_range h layer row).mp hrow
    exact ⟨hlay, (getElem?_of_mapM_range hrow expert p).mp hp⟩
  · rintro ⟨hlay, hexp, hp⟩
    have hlen : layer < table.length := by
      rwa [← (mapM_eq_ok.mp h).length_eq, List.length_range]
    have hrow := List.getElem?_eq_getElem hlen
    obtain ⟨-, hrow'⟩ := (getElem?_of_mapM_range h layer _).mp hrow
    exact ⟨_, hrow, (getElem?_of_mapM_range hrow' expert p).mpr ⟨hexp, hp⟩⟩

/-- What is planned does not depend on the name. -/
theorem planRecord_name {pkg : Package} {name : String} {record : RecordInfo} {p : PlannedExpert}
    (h : planRecord pkg name record = .ok p) (name' : String) :
    planRecord pkg name' record = .ok p := by
  revert h
  unfold planRecord
  cases findRegions pkg record with
  | error e => cases e <;> exact nofun
  | ok found =>
    dsimp only
    cases firstThree found.regions <;> cases firstThree found.dims
    case some.some => exact id
    all_goals exact nofun

/-- Two layers with the same 32 bits are resolved alike. -/
theorem resolveExpert_mod {pkg : Package} {layer expert : ℕ} {p : PlannedExpert}
    (h : resolveExpert pkg layer expert = .ok p) :
    resolveExpert pkg (layer % 2 ^ 32) expert = .ok p := by
  have hbit : UInt32.ofNat (layer % 2 ^ 32) = UInt32.ofNat layer := by
    rw [← UInt32.toNat_inj, UInt32.toNat_ofNat', UInt32.toNat_ofNat', Nat.mod_mod]
  revert h
  unfold resolveExpert
  rw [hbit]
  cases (pkg.expertRecords (.ofNat layer) (.ofNat expert)).head? with
  | none => exact nofun
  | some record => exact fun h => planRecord_name h _

/-- The layers of a package wrap around. -/
theorem wraps_resolveLayers {pkg : Package} {layers experts : ℕ}
    {table : List (List PlannedExpert)} (h : resolveLayers pkg layers experts = .ok table)
    (layer expert : ℕ) (p : PlannedExpert) (hp : plannedIn table layer expert = some p) :
    plannedIn table (layer % 2 ^ 32) expert = some p := by
  obtain ⟨hlay, hexp, hres⟩ := (plannedIn_resolveLayers h layer expert p).mp hp
  exact (plannedIn_resolveLayers h _ expert p).mpr
    ⟨(Nat.mod_le _ _).trans_lt hlay, hexp, resolveExpert_mod hres⟩

/-- `Plan::resolve` -/
def resolve (pkg : Package) (layers experts : ℕ) : Except (Fault String) Plan :=
  match h : resolveLayers pkg layers experts with
  | .error e => .error e
  | .ok table => .ok
    { layers := table
      maxSlotBytes := table.flatten.foldl (fun most p => max most p.slotBytes) 0
      wraps := wraps_resolveLayers h }

/-! ## The experts as the package numbers them -/

/-- **A planned expert, as the package numbers it**: the 32 bits of its
layer, and its number in the layer. -/
abbrev ExpertNumber : Type := UInt32 × UInt32

/-- The bytes of an expert by its number, none if it is not planned. -/
def slotBytesOf (plan : Plan) (n : ExpertNumber) : ℕ :=
  ((plan.planned n.1.toNat n.2.toNat).map PlannedExpert.slotBytes).getD 0

/-- What any positions of a list add up to is at most the sum over it. -/
theorem sum_range_getElem?_le {A : Type} (f : A → ℕ) (l : List A) (n : ℕ) :
    ∑ i ∈ range n, (l[i]?.map f).getD 0 ≤ (l.map f).sum := by
  induction l generalizing n with
  | nil => exact (sum_eq_zero fun _ _ => rfl).le
  | cons a l ih =>
    cases n with
    | zero => exact Nat.zero_le _
    | succ n =>
      rw [sum_range_succ', List.map_cons, List.sum_cons, Nat.add_comm]
      exact Nat.add_le_add_left (ih n) _

variable (plan : Plan)

theorem totalBytes_eq : plan.totalBytes
      = (plan.layers.map fun experts => (experts.map PlannedExpert.slotBytes).sum).sum := by
  unfold totalBytes
  rw [List.map_flatten, List.sum_flatten, List.map_map]
  rfl

/-- The bytes at a position of the plan. -/
def bytesAt (plan : Plan) (i : ℕ × ℕ) : ℕ :=
  ((plan.planned i.1 i.2).map PlannedExpert.slotBytes).getD 0

/-- The bytes of some experts of one layer are at most those of the layer. -/
theorem sum_bytesAt_row_le (layer n : ℕ) : ∑ expert ∈ range n, plan.bytesAt (layer, expert)
      ≤ (plan.layers[layer]?.map fun experts =>
          (experts.map PlannedExpert.slotBytes).sum).getD 0 := by
  unfold bytesAt planned plannedIn
  dsimp only
  cases plan.layers[layer]? with
  | none => exact (sum_eq_zero fun _ _ => rfl).le
  | some experts => exact sum_range_getElem?_le _ experts n

/-- **The pool admits any subset of the plan.** -/
theorem sum_bytesAt_le (s : Finset (ℕ × ℕ)) : ∑ i ∈ s, plan.bytesAt i ≤ plan.totalBytes := by
  have hbox : s ⊆ range (s.sup Prod.fst + 1) ×ˢ range (s.sup Prod.snd + 1) := by
    intro i hi
    rw [mem_product, mem_range, mem_range, Nat.lt_succ_iff, Nat.lt_succ_iff]
    exact ⟨le_sup (f := Prod.fst) hi, le_sup (f := Prod.snd) hi⟩
  calc ∑ i ∈ s, plan.bytesAt i
      ≤ ∑ i ∈ range (s.sup Prod.fst + 1) ×ˢ range (s.sup Prod.snd + 1),
          plan.bytesAt i := sum_le_sum_of_subset hbox
    _ = ∑ layer ∈ range (s.sup Prod.fst + 1),
          ∑ expert ∈ range (s.sup Prod.snd + 1), plan.bytesAt (layer, expert) :=
        sum_product _ _ _
    _ ≤ ∑ layer ∈ range (s.sup Prod.fst + 1), (plan.layers[layer]?.map fun experts =>
            (experts.map PlannedExpert.slotBytes).sum).getD 0 :=
        sum_le_sum fun layer _ => sum_bytesAt_row_le plan layer _
    _ ≤ plan.totalBytes := by
        rw [totalBytes_eq]
        exact sum_range_getElem?_le _ plan.layers _

/-- **The pool admits any experts of the package.** -/
theorem sum_slotBytesOf_le (s : Finset ExpertNumber) :
    ∑ n ∈ s, plan.slotBytesOf n ≤ plan.totalBytes := by
  have hinj : Function.Injective fun n : ExpertNumber => (n.1.toNat, n.2.toNat) := by
    intro n n' h
    obtain ⟨hl, he⟩ := Prod.mk.inj h
    exact Prod.ext (UInt32.toNat_inj.mp hl) (UInt32.toNat_inj.mp he)
  calc ∑ n ∈ s, plan.slotBytesOf n
      = ∑ i ∈ s.map ⟨_, hinj⟩, plan.bytesAt i := by
        rw [sum_map]
        rfl
    _ ≤ plan.totalBytes := plan.sum_bytesAt_le _

end Plan

end Qwen

end Logan
