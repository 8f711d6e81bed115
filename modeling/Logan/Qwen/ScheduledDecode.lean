import Logan.Qwen.ScheduledTickets

/-!
# Scheduled decoding decodes directly

Without a scheduler, an engine is fed the prompt and then its own tokens, and
each forward returns at once (`DirectModel.run`). Behind the scheduler, a
forward may stop any number of times because experts are cold, and is
resumed when they have been loaded. The theorem `runSessionInner_eq` says
that this makes no difference to the tokens.

What it asks of the worker (`Serves`) is what an engine that stops and
resumes provides: a report leaves the model as it is, a load leaves the
model as it is, and in the end the forward has its direct result. Which
experts are reported, how often, and whether the view holds them already is
left open; only the number of reports of one forward must be finite.

What the run consists of is read off the log of the worker (`ServedAll`):
the direct actions in order, each preceded by its reports, each of these
followed by one load for every expert it lists.
-/

namespace Logan

open List

namespace Qwen

/-! ## Decoding without a scheduler -/

/-- **An engine whose forwards return at once.** -/
structure DirectModel (S : Type) where
  prefill : S → UInt64 → ℕ → S
  decode : S → UInt64 → ℕ → UInt32 × S

namespace DirectModel

variable {S : Type} (M : DirectModel S)

/-- One forward, as an action: a prefill has no token. -/
def forward (op : UInt8) (token : UInt64) (pos : ℕ) (s : S) : Option UInt32 × S :=
  if op = opPrefill then (none, M.prefill s token pos)
  else (some (M.decode s token pos).1, (M.decode s token pos).2)

/-- Feed tokens, from a position on. -/
def prefillAll : List UInt32 → ℕ → S → S
  | [], _, s => s
  | token :: tokens, pos, s => prefillAll tokens (pos + 1) (M.prefill s token.toUInt64 pos)

/-- Decode a number of tokens, each from the one before it. -/
def decodeAll : ℕ → UInt32 → ℕ → S → List UInt32 × S
  | 0, _, _, s => ([], s)
  | n + 1, last, pos, s =>
    let next := M.decode s last.toUInt64 pos
    let rest := decodeAll n next.1 (pos + 1) next.2
    (next.1 :: rest.1, rest.2)

/-- **The plain loop**: the prompt without its last token is prefilled, and
the last token is the first to be decoded from. -/
def run (prompt : List UInt32) (maxNew : ℕ) (s : S) : List UInt32 × S :=
  match prompt.getLast? with
  | none => ([], s)
  | some last =>
    if maxNew = 0 then ([], s)
    else M.decodeAll maxNew last (prompt.length - 1) (M.prefillAll prompt.dropLast 0 s)

end DirectModel

/-- The actions of a prefill, with their results. -/
def prefillActions : List UInt32 → ℕ → List (List UInt8 × Option UInt32)
  | [], _ => []
  | token :: tokens, pos =>
    (encodeOp opPrefill token.toUInt64 (.ofNat pos), none) :: prefillActions tokens (pos + 1)

/-- The actions that decode some tokens, with their results. -/
def decodeActions : UInt32 → ℕ → List UInt32 → List (List UInt8 × Option UInt32)
  | _, _, [] => []
  | last, pos, next :: rest =>
    (encodeOp opDecode last.toUInt64 (.ofNat pos), some next) :: decodeActions next (pos + 1) rest

/-- **The actions of the plain loop**, with their results: the prompt
positions up to the last one are prefilled, and what is decoded is the last
prompt token and then each generated token, at the next position. -/
def plainActions (prompt tokens : List UInt32) : List (List UInt8 × Option UInt32) :=
  match prompt.getLast? with
  | none => []
  | some last =>
    if tokens = [] then []
    else prefillActions prompt.dropLast 0 ++ decodeActions last (prompt.length - 1) tokens

/-! ## What the worker carries out -/

/-- The loads that follow a report: one for each expert. -/
def LoadsOf (layer : UInt64) : List Answered → List UInt32 → Prop :=
  List.Forall₂ fun load expert => load.payload = encodeOp opLoad layer expert.toUInt64
    ∧ ∃ token, load.result = .ok (.token token)

/-- **One action is completed**: it may be reported cold any number of
times; each report is followed by one load for every expert that it lists,
and then by the same action again. -/
inductive Served (payload : List UInt8) : List Answered → Option UInt32 → Prop
  | completed {a : Answered} {token : Option UInt32} (hpayload : a.payload = payload)
    (hresult : a.result = .ok (.token token)) : Served payload [a] token
  | resumed {a : Answered} {layer : UInt64} {experts : List UInt32} {loads rest : List Answered}
    {token : Option UInt32} (hpayload : a.payload = payload)
    (hresult : a.result = .ok (.needExperts layer experts))
    (hloads : LoadsOf layer loads experts)
    (hrest : Served payload rest token) : Served payload (a :: (loads ++ rest)) token

/-- **Actions are completed one after another**, with these results. -/
inductive ServedAll : List (List UInt8 × Option UInt32) → List Answered → Prop
  | nil : ServedAll [] []
  | cons {op : List UInt8 × Option UInt32} {ops : List (List UInt8 × Option UInt32)}
    {block log : List Answered} (hblock : Served op.1 block op.2) (hlog : ServedAll ops log) :
    ServedAll (op :: ops) (block ++ log)

/-- The experts that an answer reports, as the package numbers them. -/
def Answered.cold (a : Answered) : List Plan.ExpertNumber :=
  match a.result with
  | .ok (.needExperts layer experts) => experts.map fun expert => (layer.toUInt32, expert)
  | _ => []

/-- **The distinct experts that were requested.** -/
def requested (log : List Answered) : Finset Plan.ExpertNumber :=
  (log.flatMap Answered.cold).toFinset

/-! ## The worker -/

section Worker

variable {W S : Type} (answer : W → List UInt8 → Except String SchedOutcome × W)

/-- A worker once it has answered the loads that follow a report. -/
def afterLoads (layer : UInt64) (experts : List UInt32) (w : W) : W :=
  experts.foldl (fun w expert => (answer w (encodeOp opLoad layer expert.toUInt64)).2) w

/-- **An action is reported cold finitely often.** -/
inductive Settles (payload : List UInt8) : W → Prop
  | completes {w w' : W} {token : Option UInt32}
    (h : answer w payload = (.ok (.token token), w')) : Settles payload w
  | resumes {w w' : W} {layer : UInt64} {experts : List UInt32}
    (h : answer w payload = (.ok (.needExperts layer experts), w'))
    (hnext : Settles payload (afterLoads answer layer experts w')) : Settles payload w

/-- The answer to an action is a report of planned experts, which leaves the
model as it is. -/
def ReportsCold (plan : Plan) (model : W → S) (w : W) (payload : List UInt8) : Prop :=
  ∃ layer experts w', answer w payload = (.ok (.needExperts layer experts), w')
    ∧ experts ≠ [] ∧ (∀ expert ∈ experts, (plan.planned layer.toNat expert.toNat).isSome)
    ∧ model w' = model w

/-- **A worker that serves a plan** with a model: a forward has its direct
result or is reported cold, finitely often, and the load of a planned expert
succeeds. -/
structure Serves (plan : Plan) (M : DirectModel S) (model : W → S) : Prop where
  forward : ∀ w payload op token pos, decodeOp payload = .ok (op, token, pos) →
    op = opPrefill ∨ op = opDecode →
    (∃ w', answer w payload = (.ok (.token (M.forward op token pos.toNat (model w)).1), w')
      ∧ model w' = (M.forward op token pos.toNat (model w)).2)
    ∨ ReportsCold answer plan model w payload
  load : ∀ w payload layer expert, decodeOp payload = .ok (opLoad, layer, expert) →
    (plan.planned layer.toNat expert.toNat).isSome →
    ∃ token w', answer w payload = (.ok (.token token), w') ∧ model w' = model w
  settles : ∀ w payload op token pos, decodeOp payload = .ok (op, token, pos) →
    op = opPrefill ∨ op = opDecode → Settles answer payload w

end Worker

/-! ## Logs -/

theorem requested_append (log log' : List Answered) :
    requested (log ++ log') = requested log ∪ requested log' := by
  unfold requested
  rw [flatMap_append, toFinset_append]

/-- Actions that are completed at once request nothing. -/
theorem requested_of_tokens {log : List Answered}
    (h : ∀ a ∈ log, ∃ token, a.result = .ok (.token token)) : requested log = ∅ := by
  have hnil : log.flatMap Answered.cold = [] := by
    rw [flatMap_eq_nil_iff]
    intro a ha
    obtain ⟨token, htok⟩ := h a ha
    unfold Answered.cold
    rw [htok]
  rw [requested, hnil, toFinset_nil]

theorem requested_token {a : Answered} {token : Option UInt32}
    (h : a.result = .ok (.token token)) : requested [a] = ∅ :=
  requested_of_tokens fun b hb => ⟨token, by rw [mem_singleton.mp hb, h]⟩

theorem requested_report {a : Answered} (layer : UInt64) (experts : List UInt32)
    (h : a.result = .ok (.needExperts layer experts)) :
    requested [a] = (experts.map fun expert => (layer.toUInt32, expert)).toFinset := by
  unfold requested
  rw [flatMap_singleton]
  unfold Answered.cold
  rw [h]

theorem requested_loads {layer : UInt64} {loads : List Answered} {experts : List UInt32}
    (h : LoadsOf layer loads experts) : requested loads = ∅ := by
  refine requested_of_tokens ?_
  induction h with
  | nil => exact fun a ha => absurd ha not_mem_nil
  | cons hld _ ih => exact forall_mem_cons.mpr ⟨hld.2, ih⟩

/-! ## One action -/

section Driver

variable {W S : Type} {answer : W → List UInt8 → Except String SchedOutcome × W}
  (schedule : ℕ → Bool) {session : SessionId} {plan : Plan} {M : DirectModel S} {model : W → S}
  {d : Driver W} {held : Finset Plan.ExpertNumber}

/-- **An expert is loaded**, and held by the view afterwards, whether the
view held it before or not. -/
theorem loadExpert_spec (hser : Serves answer plan M model)
    (hrdy : System.Ready session d.system) (hhol : ResidencyBridge.Holds plan held d.bridge)
    {layer : UInt64} {expert : UInt32}
    (hpl : (plan.planned layer.toNat expert.toNat).isSome) :
    ∃ d' load, loadExpert answer schedule session layer expert d = (.ok (), d')
      ∧ System.Ready session d'.system
      ∧ ResidencyBridge.Holds plan (insert (layer.toUInt32, expert) held) d'.bridge
      ∧ d'.system.worker = (answer d.system.worker (encodeOp opLoad layer expert.toUInt64)).2
      ∧ model d'.system.worker = model d.system.worker ∧ d'.system.log = d.system.log ++ [load]
      ∧ load.payload = encodeOp opLoad layer expert.toUInt64
      ∧ ∃ token, load.result = .ok (.token token) := by
  have hexp : expert.toUInt64.toNat = expert.toNat := UInt32.toNat_toUInt64 expert
  obtain ⟨token, w', hans, hmod⟩ := hser.load d.system.worker
    (encodeOp opLoad layer expert.toUInt64) layer expert.toUInt64 (decodeOp_encodeOp _ _ _)
    (by rw [hexp]; exact hpl)
  obtain ⟨system, hsub, hrdy', rfl, ticket, hlog⟩ :=
    hrdy.submitAndComplete schedule .io hans
  unfold loadExpert
  by_cases hkn : (layer.toUInt32, expert) ∈ held
  · obtain ⟨bridge, hreq, hhol'⟩ := hhol.requestLoad_known session hkn
    refine ⟨⟨system, bridge⟩, _, ?_, hrdy', ?_, ?_, hmod, hlog, rfl, token, rfl⟩
    · rw [hreq]
      rw [hsub]
    · rwa [Finset.insert_eq_of_mem hkn]
    · rw [hans]
  · obtain ⟨loadId, bridge, bridge', hreq, hpub, hhol'⟩ :=
      hhol.requestLoad_new session hkn
    refine ⟨⟨system, bridge'⟩, _, ?_, hrdy', hhol', ?_, hmod, hlog, rfl, token, rfl⟩
    · rw [hreq]
      rw [hsub]
      dsimp only
      rw [hpub]
    · rw [hans]

/-- **The experts of a report are loaded**, one load for each of them. -/
theorem loadExperts_spec (hser : Serves answer plan M model) (layer : UInt64)
    (experts : List UInt32) (hrdy : System.Ready session d.system)
    (hhol : ResidencyBridge.Holds plan held d.bridge)
    (hpl : ∀ expert ∈ experts, (plan.planned layer.toNat expert.toNat).isSome) :
    ∃ d' loads, loadExperts answer schedule session layer experts d = (.ok (), d')
      ∧ System.Ready session d'.system ∧ ResidencyBridge.Holds plan
        (held ∪ (experts.map fun expert => (layer.toUInt32, expert)).toFinset) d'.bridge
      ∧ d'.system.worker = afterLoads answer layer experts d.system.worker
      ∧ model d'.system.worker = model d.system.worker ∧ d'.system.log = d.system.log ++ loads
      ∧ LoadsOf layer loads experts := by
  induction experts generalizing d held with
  | nil =>
    refine ⟨d, [], rfl, hrdy, ?_, rfl, rfl, (List.append_nil _).symm, List.Forall₂.nil⟩
    rwa [map_nil, toFinset_nil, Finset.union_empty]
  | cons expert experts ih =>
    obtain ⟨hexp, hres⟩ := forall_mem_cons.mp hpl
    obtain ⟨d', load, hld, hrdy', hhol', hwor, hmod, hlog, hpay, hrsl⟩ :=
      loadExpert_spec schedule hser hrdy hhol hexp
    obtain ⟨d'', loads, hlds, hrdy'', hhol'', hwor', hmod', hlog', hall⟩ :=
      ih hrdy' hhol' hres
    refine ⟨d'', load :: loads, ?_, hrdy'', ?_, ?_, hmod'.trans hmod, ?_,
      List.Forall₂.cons ⟨hpay, hrsl⟩ hall⟩
    · rwa [loadExperts, hld]
    · rw [map_cons, toFinset_cons, Finset.union_insert, ← Finset.insert_union]
      exact hhol''
    · rw [hwor', hwor]
      rfl
    · rw [hlog', hlog, append_assoc]
      rfl

/-- **The driver between two forwards**: the scheduler is ready, and the view
holds exactly the experts that have been requested. -/
structure Running (session : SessionId) (plan : Plan) (d : Driver W) : Prop where
  ready : System.Ready session d.system
  holds : ResidencyBridge.Holds plan (requested d.system.log) d.bridge

/-- A forward is accepted by its target and goes through the scheduler. -/
theorem dispatchOp_spec (h : Running session plan d) {op : UInt8} {token pos : UInt64}
    (hop : op = opPrefill ∨ op = opDecode) {outcome : SchedOutcome} {worker : W}
    (hans : answer d.system.worker (encodeOp op token pos) = (.ok outcome, worker)) :
    ∃ system, dispatchOp answer schedule session (encodeOp op token pos) d
        = (.ok outcome, ⟨system, d.bridge⟩) ∧ System.Ready session system ∧ system.worker = worker
      ∧ ∃ ticket, system.log = d.system.log ++ [⟨ticket, encodeOp op token pos, .ok outcome⟩] := by
  obtain ⟨system, hsub, hrdy, hwor, hlog⟩ :=
    h.ready.submitAndComplete schedule .accelerator hans
  refine ⟨system, ?_, hrdy, hwor, hlog⟩
  have hkin : opKind op = .ok .accelerator := if_pos hop
  unfold dispatchOp encodeOp
  dsimp only
  rw [hkin]
  dsimp only
  rw [h.holds.checkTarget (by simp)]
  exact congrArg (fun r : Except (Failure String) SchedOutcome × System W =>
    (r.1, (⟨r.2, d.bridge⟩ : Driver W))) hsub

/-- **One forward is completed**, with its direct result, however often it is
reported cold. -/
theorem stepOp_spec (hser : Serves answer plan M model) {op : UInt8} (token pos : UInt64)
    (hop : op = opPrefill ∨ op = opDecode) (h : Running session plan d) :
    ∃ d' block, (∃ n, ∀ fuel, n ≤ fuel →
        stepOp answer schedule session fuel (encodeOp op token pos) d
          = (.ok (M.forward op token pos.toNat (model d.system.worker)).1, d'))
      ∧ Running session plan d' ∧ d'.system.log = d.system.log ++ block
      ∧ Served (encodeOp op token pos) block
        (M.forward op token pos.toNat (model d.system.worker)).1
      ∧ model d'.system.worker = (M.forward op token pos.toNat (model d.system.worker)).2 := by
  have hdec := decodeOp_encodeOp op token pos
  have hset := hser.settles d.system.worker _ op token pos hdec hop
  generalize hw : d.system.worker = w at hset ⊢
  -- the reports that are still to come
  induction hset generalizing d with
  | @completes w w' result hans =>
    subst hw
    obtain ⟨system, hdis, hrdy, rfl, ticket, hlog⟩ :=
      dispatchOp_spec schedule h hop hans
    rcases hser.forward _ _ op token pos hdec hop with ⟨w'', hdir, hmod⟩ | hcol
    · rw [hans] at hdir
      obtain ⟨hres, rfl⟩ := Prod.mk.inj hdir
      obtain rfl := SchedOutcome.token.inj (Except.ok.inj hres)
      refine ⟨⟨system, d.bridge⟩, _, ⟨1, fun fuel hfuel => ?_⟩, ⟨hrdy, ?_⟩, hlog,
        .completed rfl rfl, hmod⟩
      · obtain ⟨fuel, rfl⟩ := Nat.exists_eq_add_of_le' hfuel
        rw [stepOp, hdis]
      · show ResidencyBridge.Holds plan (requested system.log) d.bridge
        rw [hlog, requested_append, requested_token (a := ⟨ticket, _, _⟩) rfl, Finset.union_empty]
        exact h.holds
    · obtain ⟨layer, experts, w'', hrep, -⟩ := hcol
      rw [hans] at hrep
      cases (Prod.mk.inj hrep).1
  | @resumes w w' layer experts hans hnex ih =>
    subst hw
    obtain ⟨system, hdis, hrdy, rfl, ticket, hlog⟩ :=
      dispatchOp_spec schedule h hop hans
    rcases hser.forward _ _ op token pos hdec hop with ⟨w'', hdir, -⟩ | hcol
    · rw [hans] at hdir
      cases (Prod.mk.inj hdir).1
    · obtain ⟨layer', experts', w'', hrep, -, hpl, hmod⟩ := hcol
      rw [hans] at hrep
      obtain ⟨hsam, rfl⟩ := Prod.mk.inj hrep
      obtain ⟨rfl, rfl⟩ := SchedOutcome.needExperts.inj (Except.ok.inj hsam)
      obtain ⟨d', loads, hlds, hrdy', hhol', hwor', hmod', hlog', hall⟩ :=
        loadExperts_spec (d := ⟨system, d.bridge⟩) schedule hser layer experts hrdy h.holds hpl
      have hrun : Running session plan d' := by
        refine ⟨hrdy', ?_⟩
        rw [hlog', hlog, requested_append, requested_append, requested_loads hall,
          Finset.union_empty, requested_report layer experts rfl]
        exact hhol'
      obtain ⟨d'', block, ⟨n, hst⟩, hrun'', hlog'', hsrv, hmod''⟩ := ih hrun hwor'
      rw [← hwor', hmod', hmod] at hst hsrv hmod''
      refine ⟨d'', _, ⟨n + 1, fun fuel hfuel => ?_⟩, hrun'', ?_,
        .resumed (a := ⟨ticket, _, _⟩) rfl rfl hall hsrv, hmod''⟩
      · obtain ⟨fuel, rfl⟩ := Nat.exists_eq_add_of_le' ((Nat.le_add_left 1 n).trans hfuel)
        rw [stepOp, hdis]
        dsimp only
        rw [hlds]
        exact hst fuel (Nat.le_of_add_le_add_right hfuel)
      · rw [hlog'', hlog', hlog, append_assoc, append_assoc]
        rfl

/-! ## A session -/

/-- Two loops one after another. -/
theorem ServedAll.append {ops ops' : List (List UInt8 × Option UInt32)} {log log' : List Answered}
    (h : ServedAll ops log) (h' : ServedAll ops' log') : ServedAll (ops ++ ops') (log ++ log') := by
  induction h with
  | nil => exact h'
  | cons hbl _ ih =>
    rw [cons_append, append_assoc]
    exact .cons hbl ih

/-- **The prompt is prefilled**, position by position. -/
theorem prefillPrompt_spec (hser : Serves answer plan M model) (tokens : List UInt32)
    (pos : ℕ) (hpos : pos + tokens.length ≤ 2 ^ 64) (h : Running session plan d) :
    ∃ d' block, (∃ n, ∀ fuel, n ≤ fuel →
        prefillPrompt answer schedule session fuel tokens pos d = (.ok (), d'))
      ∧ Running session plan d' ∧ d'.system.log = d.system.log ++ block
      ∧ ServedAll (prefillActions tokens pos) block
      ∧ model d'.system.worker = M.prefillAll tokens pos (model d.system.worker) := by
  induction tokens generalizing pos d with
  | nil =>
    exact ⟨d, [], ⟨0, fun _ _ => rfl⟩, h, (List.append_nil _).symm, .nil, rfl⟩
  | cons token tokens ih =>
    rw [length_cons] at hpos
    have hnat : (UInt64.ofNat pos).toNat = pos := by
      rw [UInt64.toNat_ofNat', Nat.mod_eq_of_lt (by omega)]
    obtain ⟨d', block, ⟨n, hst⟩, h', hlog, hsrv, hmod⟩ :=
      stepOp_spec schedule hser token.toUInt64 (.ofNat pos) (Or.inl rfl) h
    obtain ⟨d'', rest, ⟨n', hlp⟩, h'', hlog', hser', hmod'⟩ := ih (pos + 1) (by omega) h'
    refine ⟨d'', block ++ rest, ⟨max n n', fun fuel hfuel => ?_⟩, h'', ?_, .cons hsrv hser', ?_⟩
    · rw [prefillPrompt, hst fuel ((le_max_left _ _).trans hfuel)]
      exact hlp fuel ((le_max_right _ _).trans hfuel)
    · rw [hlog', hlog, append_assoc]
    · rw [hmod', hmod, hnat]
      rfl

/-- **The new tokens are decoded**, each from the one before it. -/
theorem decodeTokens_spec (hser : Serves answer plan M model) (n : ℕ) (last : UInt32)
    (pos : ℕ) (hpos : pos + n ≤ 2 ^ 64) (h : Running session plan d) :
    ∃ d' block, (∃ enough, ∀ fuel, enough ≤ fuel →
        decodeTokens answer schedule session fuel n last pos d
          = (.ok (M.decodeAll n last pos (model d.system.worker)).1, d'))
      ∧ Running session plan d' ∧ d'.system.log = d.system.log ++ block
      ∧ ServedAll (decodeActions last pos (M.decodeAll n last pos (model d.system.worker)).1) block
      ∧ model d'.system.worker = (M.decodeAll n last pos (model d.system.worker)).2 := by
  induction n generalizing last pos d with
  | zero => exact ⟨d, [], ⟨0, fun _ _ => rfl⟩, h, (List.append_nil _).symm, .nil, rfl⟩
  | succ n ih =>
    have hnat : (UInt64.ofNat pos).toNat = pos := by
      rw [UInt64.toNat_ofNat', Nat.mod_eq_of_lt (by omega)]
    obtain ⟨d', block, ⟨m, hst⟩, h', hlog, hsrv, hmod⟩ :=
      stepOp_spec schedule hser last.toUInt64 (.ofNat pos) (Or.inr rfl) h
    rw [hnat] at hst hsrv hmod
    have hfor : M.forward opDecode last.toUInt64 pos (model d.system.worker)
        = (some (M.decode (model d.system.worker) last.toUInt64 pos).1,
          (M.decode (model d.system.worker) last.toUInt64 pos).2) := rfl
    rw [hfor] at hst hsrv hmod
    obtain ⟨d'', rest, ⟨m', hlp⟩, h'', hlog', hser', hmod'⟩ :=
      ih (M.decode (model d.system.worker) last.toUInt64 pos).1 (pos + 1) (by omega) h'
    rw [hmod] at hlp hser' hmod'
    refine ⟨d'', block ++ rest, ⟨max m m', fun fuel hfuel => ?_⟩, h'', ?_,
      .cons hsrv hser', hmod'⟩
    · rw [decodeTokens, hst fuel ((le_max_left _ _).trans hfuel)]
      dsimp only
      rw [hlp fuel ((le_max_right _ _).trans hfuel)]
      rfl
    · rw [hlog', hlog, append_assoc]

/-- **What a session leaves behind**, when its worker has started at `w`. -/
structure SessionReport (plan : Plan) (M : DirectModel S) (model : W → S) (prompt : List UInt32)
    (maxNew : ℕ) (w : W) (d : Driver W) : Prop where
  /-- The model is where the plain loop leaves it. -/
  reached : model d.system.worker = (M.run prompt maxNew (model w)).2
  /-- The worker has carried out the actions of the plain loop, in order,
  each of them completed once, with its direct result. -/
  served : ServedAll (plainActions prompt (M.run prompt maxNew (model w)).1) d.system.log
  /-- Every action had a ticket of its own, and none of these is live. -/
  tickets : (d.system.log.map Answered.ticket).Nodup
    ∧ ∀ t, d.system.runtime.loop.core.inflight.lookup t = none
  /-- Every expert that was requested is resident, and has been published
  once. -/
  resident : ∀ n ∈ requested d.system.log, d.bridge.state n.1 n.2 = .resident ⟨0⟩
  /-- One load was started for each of them, and the view counts their
  bytes. -/
  counted : ∃ stats, d.bridge.residency.pools.lookup ResidencyBridge.pool = some stats
    ∧ stats.loadsStarted = (requested d.system.log).card
    ∧ stats.residentBytes = ∑ n ∈ requested d.system.log, plan.slotBytesOf n

/-- A driver between two forwards has left behind what it should. -/
theorem Running.report {prompt : List UInt32} {maxNew : ℕ} {w : W} (h : Running session plan d)
    (hmod : model d.system.worker = (M.run prompt maxNew (model w)).2)
    (hser : ServedAll (plainActions prompt (M.run prompt maxNew (model w)).1) d.system.log) :
    SessionReport plan M model prompt maxNew w d where
  reached := hmod
  served := hser
  tickets := by
    refine ⟨?_, fun t => (h.ready.serving.inflight t).trans (if_neg nofun)⟩
    rw [h.ready.tickets]
    exact nodup_range.map fun _ _ ht => congrArg Ticket.val ht
  resident n hn := by
    obtain ⟨entry, hent, hst⟩ := h.holds.resident n hn
    unfold ResidencyBridge.state ResidencyManager.state
    rwa [hent]
  counted := by
    obtain ⟨stats, hs, -, -, hstr, hbytes⟩ := h.holds.counted
    exact ⟨stats, hs, hstr, hbytes⟩

/-- **Scheduled decoding decodes directly.** With a worker that serves the
plan, and whatever the order in which the threads get to the scheduler, the
session returns – with fuel enough – the tokens of the plain loop, and never
an error. -/
theorem runSessionInner_eq {bridge : ResidencyBridge}
    (hbridge : ResidencyBridge.new plan = .ok bridge)
    (hserves : Serves answer plan M model) (w : W) (prompt : Vec 4 UInt32)
    {maxNew : ℕ} (hcapacity : 4 * maxNew ≤ isizeMax) :
    ∃ d, (∃ enough, ∀ fuel, enough ≤ fuel →
        runSessionInner answer schedule ⟨0⟩ fuel prompt maxNew ⟨.opened w, bridge⟩
          = (.ok (M.run prompt.toList maxNew (model w)).1, d))
      ∧ SessionReport plan M model prompt.toList maxNew w d := by
  have hst : Running ⟨0⟩ plan (⟨.opened w, bridge⟩ : Driver W) :=
    ⟨System.ready_opened w, ResidencyBridge.holds_new hbridge⟩
  have hfit := prompt.fits
  unfold isizeMax at hcapacity hfit
  cases hlas : prompt.toList.getLast? with
  | none =>
    have hrun : M.run prompt.toList maxNew (model w) = ([], model w) := by
      rw [DirectModel.run, hlas]
    refine ⟨_, ⟨0, fun fuel _ => ?_⟩, hst.report ?_ ?_⟩
    · rw [runSessionInner, hlas, hrun]
    · rw [hrun]
      rfl
    · rw [hrun, plainActions, hlas]
      exact .nil
  | some last =>
    by_cases hzer : maxNew = 0
    · have hrun : M.run prompt.toList maxNew (model w) = ([], model w) := by
        rw [DirectModel.run, hlas]
        exact if_pos hzer
      refine ⟨_, ⟨0, fun fuel _ => ?_⟩, hst.report ?_ ?_⟩
      · rw [runSessionInner, hlas, hrun]
        exact if_pos hzer
      · rw [hrun]
        rfl
      · rw [hrun, plainActions, hlas]
        exact .nil
    · have hrun : M.run prompt.toList maxNew (model w)
          = M.decodeAll maxNew last (prompt.toList.length - 1)
            (M.prefillAll prompt.toList.dropLast 0 (model w)) := by
        rw [DirectModel.run, hlas]
        exact if_neg hzer
      obtain ⟨d, block, ⟨n, hpr⟩, hmid, hlog, hser, hmod⟩ :=
        prefillPrompt_spec schedule hserves prompt.toList.dropLast 0
          (by rw [length_dropLast]; omega) hst
      obtain ⟨d', block', ⟨n', hdec⟩, hend, hlog', hser', hmod'⟩ :=
        decodeTokens_spec schedule hserves maxNew last (prompt.toList.length - 1) (by omega) hmid
      rw [hmod] at hdec hser' hmod'
      change model d.system.worker = M.prefillAll prompt.toList.dropLast 0 (model w) at hmod
      refine ⟨d', ⟨max n n', fun fuel hfuel => ?_⟩, hend.report ?_ ?_⟩
      · rw [runSessionInner, hlas]
        refine (if_neg hzer).trans ?_
        rw [hpr fuel ((le_max_left _ _).trans hfuel)]
        refine (if_neg (by unfold isizeMax; omega)).trans ?_
        rw [hdec fuel ((le_max_right _ _).trans hfuel), hrun]
        rfl
      · rwa [hrun]
      · have hne : (M.run prompt.toList maxNew (model w)).1 ≠ [] := by
          obtain ⟨k, rfl⟩ := Nat.exists_eq_succ_of_ne_zero hzer
          rw [hrun]
          exact cons_ne_nil _ _
        rw [plainActions, hlas]
        dsimp only
        rw [if_neg hne, hrun, hlog', hlog]
        exact hser.append hser'

end Driver

/-! ## A worker that keeps nothing

The engine below has room for one expert of one layer, needs it for every
forward, and drops it afterwards: all its forwards are reported cold, and the
view holds the expert from the second report on. -/

/-- A plan of two experts. -/
def tinyPlan : Plan where
  layers := [[⟨0, #v[(0, 100), (100, 100), (200, 100)], #v[(1, 1), (1, 1), (1, 1)]⟩,
    ⟨1, #v[(300, 100), (400, 100), (500, 100)], #v[(1, 1), (1, 1), (1, 1)]⟩]]
  maxSlotBytes := 300
  wraps layer expert p h := by
    cases layer with
    | zero => exact h
    | succ => cases h

/-- A model that counts. -/
def counting : DirectModel ℕ where
  prefill s _ _ := s
  decode s _ _ := (.ofNat (42 + s), s + 1)

/-- The worker: the state of its model, and whether the expert is there. -/
def forgetful (w : ℕ × Bool) (payload : List UInt8) : Except String SchedOutcome × ℕ × Bool :=
  match decodeOp payload with
  | .error e => (.error e, w)
  | .ok (op, token, pos) =>
    if op = opLoad then (.ok (.token none), (w.1, true))
    else if w.2 then
      (.ok (.token (counting.forward op token pos.toNat w.1).1),
        ((counting.forward op token pos.toNat w.1).2, false))
    else (.ok (.needExperts 0 [1]), w)

theorem forgetful_true {payload : List UInt8} {op : UInt8} {token pos : UInt64} (s : ℕ)
    (h : decodeOp payload = .ok (op, token, pos)) (hop : op ≠ opLoad) :
    forgetful (s, true) payload = (.ok (.token (counting.forward op token pos.toNat s).1),
      ((counting.forward op token pos.toNat s).2, false)) := by
  unfold forgetful
  rw [h]
  exact if_neg hop

theorem forgetful_false {payload : List UInt8} {op : UInt8} {token pos : UInt64} (s : ℕ)
    (h : decodeOp payload = .ok (op, token, pos)) (hop : op ≠ opLoad) :
    forgetful (s, false) payload = (.ok (.needExperts 0 [1]), (s, false)) := by
  unfold forgetful
  rw [h]
  exact if_neg hop

/-- **The worker serves the plan.** -/
theorem forgetful_serves : Serves forgetful tinyPlan counting Prod.fst where
  forward w payload op token pos h hop := by
    have hne : op ≠ opLoad := by
      rcases hop with rfl | rfl <;> decide
    obtain ⟨s, there⟩ := w
    cases there with
    | true => exact Or.inl ⟨_, forgetful_true s h hne, rfl⟩
    | false =>
      refine Or.inr ⟨0, [1], _, forgetful_false s h hne, cons_ne_nil _ _, fun e he => ?_, rfl⟩
      rw [mem_singleton.mp he]
      rfl
  load w payload layer expert h _ := by
    refine ⟨none, (w.1, true), ?_, rfl⟩
    unfold forgetful
    rw [h]
    exact if_pos rfl
  settles w payload op token pos h hop := by
    have hne : op ≠ opLoad := by
      rcases hop with rfl | rfl <;> decide
    obtain ⟨s, there⟩ := w
    cases there with
    | true => exact .completes (forgetful_true s h hne)
    | false => exact .resumes (forgetful_false s h hne) (.completes (forgetful_true s h hne))

/-- Two tokens decoded from a prompt of three, with the worker's completions
ahead of the driver's. -/
theorem runSessionInner_eq_forgetful : ∃ bridge, ResidencyBridge.new tinyPlan = .ok bridge ∧
      ∃ d, (∃ enough, ∀ fuel, enough ≤ fuel →
          runSessionInner forgetful (fun _ => true) ⟨0⟩ fuel ⟨[5, 7, 9], by decide⟩ 2
            ⟨.opened (0, false), bridge⟩ = (.ok [42, 43], d))
        ∧ SessionReport tinyPlan counting Prod.fst [5, 7, 9] 2 ((0, false) : ℕ × Bool) d :=
  have hnew : ∃ bridge, ResidencyBridge.new tinyPlan = .ok bridge := ⟨_, rfl⟩
  hnew.elim fun bridge hbr => ⟨bridge, hbr,
    runSessionInner_eq (fun _ => true) hbr forgetful_serves (0, false) ⟨[5, 7, 9], by decide⟩
      (by decide)⟩

end Qwen

end Logan
