import Logan.Util.Result
import Mathlib.Data.List.Destutter
import Mathlib.Data.List.Sort

/-!
# Searching a sequence of choices, with pruning

A search takes one option of each group, in order. It keeps a list of
states – one for each choice of options that it has not given up yet – and
prunes this list after every group. What it finds is compared with the
**paths** of the search, along which nothing is pruned.

A pruning loses nothing that matters if whatever it drops is *simulated* by
something that it keeps: if what is kept can take every step that the dropped
one could take, and is at least as good after it. Then for every path there
is a state at the end that is at least as good as the end of the path
(`Search.explore_of_rounds`).

The pruning itself is by dominance: a state is dropped if another one
dominates it. The second part is about that, and about the elements of a
list that no other one dominates (`exists_nondominated_iff`).
-/

namespace Logan

open List Result

/-! ## Collecting results -/

section Collect

variable {A B E : Type}

/-- The results for the elements of a list, without those that are none, up
to the first error. -/
def tryFilterMap (f : A → Except E (Option B)) : List A → Except E (List B)
  | [] => .ok []
  | a :: as => do
    let b ← f a
    let bs ← tryFilterMap f as
    pure (b.toList ++ bs)

variable {f : A → Except E (Option B)} {l : List A}

theorem mem_of_tryFilterMap {bs : List B}
    (h : tryFilterMap f l = .ok bs) {b : B} :
    b ∈ bs ↔ ∃ a ∈ l, f a = .ok (some b) := by
  induction l generalizing bs with
  | nil =>
    obtain rfl := Except.ok.inj h
    exact iff_of_false not_mem_nil (by rintro ⟨_, hmem, -⟩; cases hmem)
  | cons a l ih =>
    obtain ⟨b', hb', h⟩ := bind_eq_ok.mp h
    obtain ⟨bs', hbs', h⟩ := bind_eq_ok.mp h
    cases h
    rw [mem_append, ih hbs', exists_mem_cons_iff, hb', Option.mem_toList]
    refine or_congr_left ?_
    rw [Except.ok.injEq]

theorem ok_of_tryFilterMap {bs : List B}
    (h : tryFilterMap f l = .ok bs) {a : A} (ha : a ∈ l) : ∃ b, f a = .ok b := by
  induction l generalizing bs with
  | nil => cases ha
  | cons a' l ih =>
    obtain ⟨b, hb, h⟩ := bind_eq_ok.mp h
    obtain ⟨bs', hbs', -⟩ := bind_eq_ok.mp h
    rcases mem_cons.mp ha with rfl | hmem
    · exact ⟨b, hb⟩
    · exact ih hbs' hmem

/-- The first error is that of an element. -/
theorem error_of_tryFilterMap {e : E}
    (h : tryFilterMap f l = .error e) : ∃ a ∈ l, f a = .error e := by
  induction l with
  | nil => cases h
  | cons a l ih =>
    rcases bind_eq_error.mp h with h | ⟨b, -, h⟩
    · exact ⟨a, mem_cons_self, h⟩
    · rcases bind_eq_error.mp h with h | ⟨bs, -, h⟩
      · obtain ⟨a', ha', h⟩ := ih h
        exact ⟨a', mem_cons_of_mem a ha', h⟩
      · cases h

/-- No element has a result. -/
theorem tryFilterMap_eq_nil
    (h : ∀ a ∈ l, f a = .ok none) : tryFilterMap f l = .ok [] := by
  induction l with
  | nil => rfl
  | cons a l ih =>
    rw [tryFilterMap, h a mem_cons_self, ok_bind,
      ih fun a ha => h a (mem_cons_of_mem _ ha), ok_bind]
    rfl

/-- Results for all elements are all collected. -/
theorem tryFilterMap_eq_map {g : A → B}
    (h : ∀ a ∈ l, f a = .ok (some (g a))) : tryFilterMap f l = .ok (l.map g) := by
  induction l with
  | nil => rfl
  | cons a l ih =>
    rw [tryFilterMap, h a mem_cons_self, ok_bind,
      ih fun a ha => h a (mem_cons_of_mem _ ha), ok_bind]
    rfl

theorem tryFilterMap_map {C : Type} (f : B → Except E (Option C)) (g : A → B) (l : List A) :
    tryFilterMap f (l.map g) = tryFilterMap (fun a => f (g a)) l := by
  induction l with
  | nil => rfl
  | cons a l ih => rw [map_cons, tryFilterMap, tryFilterMap, ih]

end Collect

/-! ## The search -/

/-- **A search** for states `S` by options `O` in groups `G`. -/
structure Search (S O G E : Type) where
  options : G → List O
  /-- The state with one more option, of the given index; or none, if the
  option does not fit. -/
  extend : S → O → ℕ → Except E (Option S)
  prune : List S → List S
  /-- The error when no state is left after a group. -/
  dead : G → E

namespace Search

variable {S O G E : Type} (F : Search S O G E)

/-- The states with one more option of the group, not yet pruned. -/
def round (states : List S) (g : G) : Except E (List S) :=
  tryFilterMap (fun p => F.extend p.1 p.2.1 p.2.2)
    (states.flatMap fun s => (F.options g).zipIdx.map fun o => (s, o))

/-- **All groups**, one after the other. -/
def explore : List S → List G → Except E (List S)
  | states, [] => .ok states
  | states, g :: gs => do
    let next ← F.round states g
    if (F.prune next).isEmpty then .error (F.dead g) else explore (F.prune next) gs

/-- Every round of the search returns, and its states meet a condition before
they are pruned. -/
def Rounds (P : List S → Prop) : List S → List G → Prop
  | _, [] => True
  | states, g :: gs => ∃ next, F.round states g = .ok next ∧ P next ∧ Rounds P (F.prune next) gs

/-- No round of the search ends in an error of some kind, and if a round
returns, its states meet a condition before they are pruned. -/
def RoundsIf (P : List S → Prop) (bad : E → Prop) : List S → List G → Prop
  | _, [] => True
  | states, g :: gs => (∀ e, F.round states g = .error e → ¬ bad e) ∧
      ∀ next, F.round states g = .ok next → P next ∧ RoundsIf P bad (F.prune next) gs

/-- If there are no errors of another kind, every round returns. -/
theorem RoundsIf.rounds {P : List S → Prop} {bad : E → Prop} {states : List S} {gs : List G}
    (h : F.RoundsIf P bad states gs)
    (hbad : ∀ g ∈ gs, ∀ o ∈ F.options g, ∀ s i e, F.extend s o i = .error e → bad e) :
    F.Rounds P states gs := by
  induction gs generalizing states with
  | nil => trivial
  | cons g gs ih =>
    obtain ⟨hnot, hth⟩ := h
    cases hnex : F.round states g with
    | ok next =>
      obtain ⟨hP, hres⟩ := hth next hnex
      exact ⟨next, hnex, hP, ih hres fun g' hg' => hbad g' (mem_cons_of_mem g hg')⟩
    | error e =>
      obtain ⟨p, hp, hext⟩ := error_of_tryFilterMap hnex
      obtain ⟨s, -, hp⟩ := mem_flatMap.mp hp
      obtain ⟨o, ho, rfl⟩ := mem_map.mp hp
      refine absurd ?_ (hnot e hnex)
      exact hbad g mem_cons_self o.1 (fst_mem_of_mem_zipIdx ho) s o.2 e hext

/-- Two conditions on the rounds, one on each side. -/
theorem RoundsIf.and {P Q : List S → Prop} {bad bad' : E → Prop} {states : List S} {gs : List G}
    (h : F.RoundsIf P bad states gs) (h' : F.RoundsIf Q bad' states gs) :
    F.RoundsIf (fun next => P next ∧ Q next) (fun e => bad e ∨ bad' e) states gs := by
  induction gs generalizing states with
  | nil => trivial
  | cons g gs ih =>
    refine ⟨fun e he => not_or.mpr ⟨h.1 e he, h'.1 e he⟩, fun next hnex => ?_⟩
    obtain ⟨hP, hres⟩ := h.2 next hnex
    obtain ⟨hQ, hres'⟩ := h'.2 next hnex
    exact ⟨⟨hP, hQ⟩, ih hres hres'⟩

theorem mem_round {states next : List S} {g : G} (h : F.round states g = .ok next) {s' : S} :
    s' ∈ next ↔ ∃ s ∈ states, ∃ o i, (F.options g)[i]? = some o ∧
      F.extend s o i = .ok (some s') := by
  rw [mem_of_tryFilterMap h]
  constructor
  · rintro ⟨p, hp, hext⟩
    obtain ⟨s, hs, hp⟩ := mem_flatMap.mp hp
    obtain ⟨o, ho, rfl⟩ := mem_map.mp hp
    exact ⟨s, hs, o.1, o.2, mk_mem_zipIdx_iff_getElem?.mp ho, hext⟩
  · rintro ⟨s, hs, o, i, ho, hext⟩
    exact ⟨(s, o, i), mem_flatMap.mpr ⟨s, hs, mem_map.mpr
      ⟨(o, i), mk_mem_zipIdx_iff_getElem?.mpr ho, rfl⟩⟩, hext⟩

/-- Every state can be extended by every option, or found not to be able. -/
theorem ok_of_round {states next : List S} {g : G} (h : F.round states g = .ok next) {s : S}
    (hs : s ∈ states) {o : O} {i : ℕ} (ho : (F.options g)[i]? = some o) :
    ∃ s', F.extend s o i = .ok s' :=
  ok_of_tryFilterMap (a := (s, o, i)) h (mem_flatMap.mpr ⟨s, hs, mem_map.mpr
    ⟨(o, i), mk_mem_zipIdx_iff_getElem?.mpr ho, rfl⟩⟩)

/-! ## Paths -/

section Paths

variable (step : S → O → ℕ → Option S)

/-- **A path**: from a state, through the groups, by the given options. -/
def Path : S → List G → List O → S → Prop
  | s, [], [], t => t = s
  | s, g :: gs, o :: os, t =>
    ∃ i s', (F.options g)[i]? = some o ∧ step s o i = some s' ∧ Path s' gs os t
  | _, _, _, _ => False

variable {F step}

/-- A path with one more option. -/
theorem Path.snoc {s t t' : S} {gs : List G} {os : List O} (h : F.Path step s gs os t) {g : G}
    {o : O} {i : ℕ} (ho : (F.options g)[i]? = some o) (ht' : step t o i = some t') :
    F.Path step s (gs ++ [g]) (os ++ [o]) t' := by
  induction gs generalizing s os with
  | nil =>
    cases os with
    | nil =>
      obtain rfl := h
      exact ⟨i, t', ho, ht', rfl⟩
    | cons => cases h
  | cons g' gs ih =>
    cases os with
    | nil => cases h
    | cons =>
      obtain ⟨j, s', ho', hs', h⟩ := h
      exact ⟨j, s', ho', hs', ih h⟩

/-- What every option can do in one way of stepping, it can do in another. -/
theorem Path.mono {step' : S → O → ℕ → Option S}
    (hst : ∀ s o i s', step s o i = some s' → step' s o i = some s')
    {s t : S} {gs : List G} {os : List O} (h : F.Path step s gs os t) : F.Path step' s gs os t := by
  induction gs generalizing s os with
  | nil =>
    cases os with
    | nil => exact h
    | cons => cases h
  | cons g gs ih =>
    cases os with
    | nil => cases h
    | cons o =>
      obtain ⟨i, s', ho, hs', h⟩ := h
      exact ⟨i, s', ho, hst s o i s' hs', ih h⟩

/-- **What is found is at the end of a path.** -/
theorem exists_path_of_explore (hst : ∀ s o i s', F.extend s o i = .ok s' → step s o i = s')
    (hpr : ∀ l, ∀ s ∈ F.prune l, s ∈ l) {states finals : List S} {gs : List G}
    (h : F.explore states gs = .ok finals) {t : S} (ht : t ∈ finals) :
    ∃ s ∈ states, ∃ os, F.Path step s gs os t := by
  induction gs generalizing states with
  | nil =>
    obtain rfl := Except.ok.inj h
    exact ⟨t, ht, [], rfl⟩
  | cons g gs ih =>
    obtain ⟨next, hnex, h⟩ := bind_eq_ok.mp h
    split_ifs at h
    obtain ⟨s', hs', os, hpat⟩ := ih h
    obtain ⟨s, hs, o, i, ho, hext⟩ := (F.mem_round hnex).mp (hpr next s' hs')
    exact ⟨s, hs, o :: os, i, s', ho, hst s o i _ hext, hpat⟩

/-- In every round the states are at the ends of paths, through the groups so
far. -/
theorem Rounds.with_paths {P : List S → Prop}
    (hst : ∀ s o i s', F.extend s o i = .ok s' → step s o i = s')
    (hpr : ∀ l, ∀ s ∈ F.prune l, s ∈ l) (s₀ : S) (before : List G) {gs : List G}
    {states : List S} (h : F.Rounds P states gs)
      (hs : ∀ s ∈ states, ∃ os, F.Path step s₀ before os s) :
    F.Rounds (fun next => P next ∧ ∃ done rest, before ++ gs = done ++ rest ∧
      ∀ s ∈ next, ∃ os, F.Path step s₀ done os s) states gs := by
  induction gs generalizing before states with
  | nil => trivial
  | cons g gs ih =>
    obtain ⟨next, hnex, hP, hres⟩ := h
    have hpat : ∀ s ∈ next, ∃ os, F.Path step s₀ (before ++ [g]) os s := by
      intro s' hs'
      obtain ⟨s, hmem, o, i, ho, hext⟩ := (F.mem_round hnex).mp hs'
      obtain ⟨os, hpth⟩ := hs s hmem
      exact ⟨os ++ [o], hpth.snoc ho (hst s o i _ hext)⟩
    have hspl : before ++ g :: gs = before ++ [g] ++ gs := by
      rw [append_assoc]
      rfl
    rw [hspl]
    exact ⟨next, hnex, ⟨hP, before ++ [g], gs, rfl, hpat⟩,
      ih (before ++ [g]) hres fun s hmem => hpat s (hpr next s hmem)⟩

/-! ### What a path chooses -/

/-- The options of the given indices, one for each group. -/
inductive Picks (options : G → List O) : List G → List ℕ → List O → Prop where
  | nil : Picks options [] [] []
  | cons {g : G} {i : ℕ} {o : O} {gs : List G} {is : List ℕ} {os : List O}
      (ho : (options g)[i]? = some o) (rest : Picks options gs is os) :
      Picks options (g :: gs) (i :: is) (o :: os)

/-- A state with more options. -/
def growAll (grow : S → O → ℕ → S) : S → List O → List ℕ → S
  | s, o :: os, i :: is => growAll grow (grow s o i) os is
  | s, _, _ => s

theorem picks_of_path {grow : S → O → ℕ → S} (hgr :
    ∀ s o i s', step s o i = some s' → grow s o i = s')
    {s t : S} {gs : List G} {os : List O} (h : F.Path step s gs os t) :
    ∃ is, Picks F.options gs is os ∧ t = growAll grow s os is := by
  induction gs generalizing os s with
  | nil =>
    cases os with
    | nil => exact ⟨[], Picks.nil, h⟩
    | cons => cases h
  | cons g gs ih =>
    cases os with
    | nil => cases h
    | cons o =>
      obtain ⟨i, s', ho, hs', hpat⟩ := h
      obtain rfl := hgr s o i s' hs'
      obtain ⟨is, his, rfl⟩ := ih hpat
      exact ⟨i :: is, Picks.cons ho his, rfl⟩

section Picks

variable {options : G → List O} {gs : List G} {is : List ℕ} {os : List O}

theorem exists_picks (h : List.Forall₂ (fun g o => o ∈ options g) gs os) :
    ∃ is, Picks options gs is os := by
  induction h with
  | nil => exact ⟨[], Picks.nil⟩
  | cons ho hres ih =>
    obtain ⟨is, his⟩ := ih
    obtain ⟨i, hi⟩ := List.getElem?_of_mem ho
    exact ⟨i :: is, Picks.cons hi his⟩

theorem forall₂_of_picks (h : Picks options gs is os) :
    List.Forall₂ (fun g o => o ∈ options g) gs os := by
  induction h with
  | nil => exact List.Forall₂.nil
  | cons ho hres ih => exact List.Forall₂.cons (mem_of_getElem? ho) ih

theorem length_of_picks (h : Picks options gs is os) : is.length = gs.length := by
  induction h with
  | nil => rfl
  | cons _ _ ih => rw [length_cons, length_cons, ih]

/-- What is decided for the options of the indices. -/
theorem decisions_of_picks {D K : Type} {decide : G → ℕ → Option D} {chosen : D → O}
    {group : D → K} {key : G → K}
    (hd : ∀ g i o, (options g)[i]? = some o → ∃ d, decide g i = some d ∧ chosen d = o ∧ group d = key g)
    (h : Picks options gs is os) :
    ((gs.zip is).filterMap fun g => decide g.1 g.2).map chosen = os ∧
      ((gs.zip is).filterMap fun g => decide g.1 g.2).map group = gs.map key := by
  induction h with
  | nil => exact ⟨rfl, rfl⟩
  | @cons g i o gs is os ho hres ih =>
    obtain ⟨hch, hgr⟩ := ih
    obtain ⟨d, hd, hdo, hdg⟩ := hd g i o ho
    rw [zip_cons_cons, filterMap_cons_some (by exact hd), map_cons, map_cons, hch, hgr, hdo, hdg]
    exact ⟨rfl, rfl⟩

end Picks

section Simulation

variable {R : List G → S → S → Prop} {P : List S → Prop}

/-- One round, and its pruning: what could take a step still has somebody who
is as good after it. -/
theorem simulated_of_round {g : G} {rest : List G}
    (hst : ∀ s o i s', F.extend s o i = .ok s' → step s o i = s')
    (hsim : ∀ o ∈ F.options g, ∀ a b i b', R (g :: rest) a b → step b o i = some b' →
      ∃ a', step a o i = some a' ∧ R rest a' b')
    (hpr : ∀ rest l, P l → ∀ s ∈ l, ∀ b, R rest s b → ∃ t ∈ F.prune l, R rest t b)
    {states next : List S} (hnex : F.round states g = .ok next) (hP : P next)
    {b b' : S} {o : O} {i : ℕ} (ho : (F.options g)[i]? = some o) (hb' : step b o i = some b')
    (hb : ∃ a ∈ states, R (g :: rest) a b) : ∃ a ∈ F.prune next, R rest a b' := by
  obtain ⟨a, ha, hab⟩ := hb
  obtain ⟨a', ha', hab'⟩ := hsim o (mem_of_getElem? ho) a b i b' hab hb'
  obtain ⟨r, hr⟩ := F.ok_of_round hnex ha ho
  have hmem : a' ∈ next := by
    refine (F.mem_round hnex).mpr ⟨a, ha, o, i, ho, ?_⟩
    rw [hr, ← hst a o i r hr, ha']
  exact hpr rest next hP a' hmem b' hab'

/-- **Nothing that matters is lost.** If every round returns and meets the
condition under which a pruning is harmless, then either the search finds,
for every path, a state that is at least as good as the end of it; or it ends
after some group, and there is no path. What is as good as another one may
depend on the groups that are to come. -/
theorem explore_of_rounds {gs : List G} (hst :
    ∀ s o i s', F.extend s o i = .ok s' → step s o i = s')
    (hsim : ∀ g ∈ gs, ∀ rest, ∀ o ∈ F.options g, ∀ a b i b', R (g :: rest) a b →
      step b o i = some b' → ∃ a', step a o i = some a' ∧ R rest a' b')
    (hpr : ∀ rest l, P l → ∀ s ∈ l, ∀ b, R rest s b → ∃ t ∈ F.prune l, R rest t b)
    {states : List S} (h : F.Rounds P states gs) :
    (∃ finals, F.explore states gs = .ok finals ∧
      ∀ b os t, (∃ a ∈ states, R gs a b) → F.Path step b gs os t → ∃ a ∈ finals, R [] a t) ∨
    ∃ g ∈ gs, F.explore states gs = .error (F.dead g) ∧
      ∀ b os t, (∃ a ∈ states, R gs a b) → ¬ F.Path step b gs os t := by
  induction gs generalizing states with
  | nil =>
    refine Or.inl ⟨states, rfl, fun b os t hb hpat => ?_⟩
    cases os with
    | nil =>
      obtain rfl := hpat
      exact hb
    | cons => cases hpat
  | cons g gs ih =>
    obtain ⟨next, hnex, hP, hres⟩ := h
    -- the first step of a path leads to somebody who has not been pruned
    have hfst : ∀ b os t, (∃ a ∈ states, R (g :: gs) a b) → F.Path step b (g :: gs) os t →
        ∃ b' os', (∃ a ∈ F.prune next, R gs a b') ∧ F.Path step b' gs os' t := by
      intro b os t hb hpat
      cases os with
      | nil => cases hpat
      | cons o os =>
        obtain ⟨i, b', ho, hb', hpat⟩ := hpat
        exact ⟨b', os, simulated_of_round hst (hsim g mem_cons_self gs) hpr hnex hP ho hb' hb, hpat⟩
    have hexp : F.explore states (g :: gs) = if (F.prune next).isEmpty then
        .error (F.dead g) else F.explore (F.prune next) gs := by
      rw [explore, hnex, ok_bind]
    by_cases hemp : (F.prune next).isEmpty = true
    · refine Or.inr ⟨g, mem_cons_self, by rw [hexp, if_pos hemp], ?_⟩
      intro b os t hb hpat
      obtain ⟨b', -, ⟨a, ha, -⟩, -⟩ := hfst b os t hb hpat
      rw [List.isEmpty_iff.mp hemp] at ha
      cases ha
    · rw [hexp, if_neg hemp]
      rcases ih (fun g' hg' => hsim g' (mem_cons_of_mem g hg')) hres with ⟨finals, hfin, hfnd⟩
        | ⟨g', hg', hdd, hnon⟩
      · refine Or.inl ⟨finals, hfin, fun b os t hb hpat => ?_⟩
        obtain ⟨b', os', hb', hpat'⟩ := hfst b os t hb hpat
        exact hfnd b' os' t hb' hpat'
      · refine Or.inr ⟨g', mem_cons_of_mem g hg', hdd, fun b os t hb hpat => ?_⟩
        obtain ⟨b', os', hb', hpat'⟩ := hfst b os t hb hpat
        exact hnon b' os' t hb' hpat'

end Simulation

end Paths

end Search

/-! ## Dominance -/

section Dominance

variable {A : Type} (dom : A → A → Bool)

/-- One more element: it is dropped if something that is kept dominates it,
and drops whatever it dominates. -/
def sweep (kept : List A) (a : A) : List A :=
  if kept.any fun b => dom b a then kept else kept.filter (fun b => !dom a b) ++ [a]

/-- **The elements that are left** when dominated ones are dropped, one after
the other. -/
def undominated (l : List A) : List A := l.foldl (sweep dom) []

/-- Whether a list holds, of every two elements, neither that one dominates
the other. -/
def Apart (l : List A) : Prop := l.Pairwise fun a b => dom a b = false ∧ dom b a = false

variable {dom}

theorem mem_of_sweep {kept : List A} {a b : A} (h : b ∈ sweep dom kept a) : b ∈ kept ∨ b = a := by
  unfold sweep at h
  split_ifs at h
  · exact Or.inl h
  · rcases mem_append.mp h with h | h
    · exact Or.inl (mem_of_mem_filter h)
    · exact Or.inr (mem_singleton.mp h)

theorem length_undominated_le (l : List A) : (undominated dom l).length ≤ l.length := by
  have hfol (kept : List A) : (l.foldl (sweep dom) kept).length ≤ kept.length + l.length := by
    induction l generalizing kept with
    | nil => exact le_rfl
    | cons a l ih =>
      have hsw : (sweep dom kept a).length ≤ kept.length + 1 := by
        unfold sweep
        split_ifs
        · exact Nat.le_succ _
        · rw [length_append]
          exact Nat.add_le_add_right (length_filter_le _ _) 1
      rw [foldl_cons, length_cons]
      exact (ih _).trans (by omega)
  exact (hfol []).trans_eq (Nat.zero_add _)

variable {l : List A} {a : A}

theorem mem_of_mem_undominated (h : a ∈ undominated dom l) : a ∈ l := by
  have hfol : ∀ kept : List A, a ∈ l.foldl (sweep dom) kept → a ∈ kept ∨ a ∈ l := by
    clear h
    intro kept h
    induction l generalizing kept with
    | nil => exact Or.inl h
    | cons b l ih =>
      rcases ih (sweep dom kept b) h with h | h
      · refine (mem_of_sweep h).imp_right ?_
        rintro rfl
        exact mem_cons_self
      · exact Or.inr (mem_cons_of_mem b h)
  exact (hfol [] h).resolve_left not_mem_nil

/-- Whatever is kept, or comes now, is afterwards kept or dominated. -/
theorem exists_mem_sweep {kept : List A} {a b : A}
    (htr : ∀ c ∈ kept, dom a c = true → dom c b = true → dom a b = true)
    (h : b = a ∨ ∃ c ∈ kept, c = b ∨ dom c b = true) :
    ∃ c ∈ sweep dom kept a, c = b ∨ dom c b = true := by
  unfold sweep
  by_cases hany : (kept.any fun b => dom b a) = true
  · rw [if_pos hany]
    rcases h with rfl | h
    · obtain ⟨c, hc, hdom⟩ := any_eq_true.mp hany
      exact ⟨c, hc, Or.inr hdom⟩
    · exact h
  · rw [if_neg hany]
    have hlas : a ∈ kept.filter (fun b => !dom a b) ++ [a] :=
      mem_append_right _ (mem_singleton_self a)
    rcases h with rfl | ⟨c, hc, h⟩
    · exact ⟨b, hlas, Or.inl rfl⟩
    · by_cases hdom : dom a c = true
      · refine ⟨a, hlas, Or.inr ?_⟩
        rcases h with rfl | h
        · exact hdom
        · exact htr c hc hdom h
      · refine ⟨c, mem_append_left _ (mem_filter.mpr ⟨hc, ?_⟩), h⟩
        rw [Bool.not_eq_true] at hdom
        rw [hdom]
        rfl

/-- **Whatever is dropped is dominated** by something that is left. -/
theorem exists_mem_undominated
    (htr : ∀ a ∈ l, ∀ b ∈ l, ∀ c ∈ l, dom a b = true → dom b c = true → dom a c = true)
    (h : a ∈ l) : ∃ b ∈ undominated dom l, b = a ∨ dom b a = true := by
  -- everything that is kept comes from the list
  have hfol : ∀ (rest kept : List A), (∀ b ∈ kept, b ∈ l) → (∀ b ∈ rest, b ∈ l) →
      (a ∈ rest ∨ ∃ c ∈ kept, c = a ∨ dom c a = true) →
      ∃ b ∈ rest.foldl (sweep dom) kept, b = a ∨ dom b a = true := by
    intro rest
    induction rest with
    | nil => exact fun kept _ _ hkep => hkep.resolve_left not_mem_nil
    | cons b rest ih =>
      intro kept hkep hres hcov
      have hb := hres b mem_cons_self
      have hsw : ∀ c ∈ sweep dom kept b, c ∈ l := by
        intro c hc
        rcases mem_of_sweep hc with hc | rfl
        · exact hkep c hc
        · exact hb
      refine ih (sweep dom kept b) hsw (fun c hc => hres c (mem_cons_of_mem b hc)) ?_
      have htr' : ∀ c ∈ kept, dom b c = true → dom c a = true → dom b a = true :=
        fun c hc => htr b hb c (hkep c hc) a h
      rcases hcov with hcov | hcov
      · rcases mem_cons.mp hcov with rfl | hcov
        · exact Or.inr (exists_mem_sweep htr' (Or.inl rfl))
        · exact Or.inl hcov
      · exact Or.inr (exists_mem_sweep htr' (Or.inr hcov))
  exact hfol l [] (by rintro _ ⟨⟩) (fun _ hb => hb) (Or.inl h)

/-- Elements that are apart are all left, in order. -/
theorem undominated_of_apart (h : Apart dom l) : undominated dom l = l := by
  have hfol : ∀ kept : List A, Apart dom (kept ++ l) → l.foldl (sweep dom) kept = kept ++ l := by
    clear h
    intro kept h
    induction l generalizing kept with
    | nil => exact (List.append_nil kept).symm
    | cons a l ih =>
      have hkep : ∀ b ∈ kept, dom b a = false ∧ dom a b = false :=
        fun b hb => (pairwise_append.mp h).2.2 b hb a mem_cons_self
      have hsw : sweep dom kept a = kept ++ [a] := by
        unfold sweep
        rw [if_neg, filter_eq_self.mpr]
        · intro b hb
          rw [(hkep b hb).2]
          rfl
        · rw [any_eq_true]
          rintro ⟨b, hb, hdom⟩
          rw [(hkep b hb).1] at hdom
          cases hdom
      have happ : kept ++ a :: l = kept ++ [a] ++ l := by
        rw [append_assoc]
        rfl
      rw [foldl_cons, hsw, happ]
      exact ih (kept ++ [a]) (happ ▸ h)
  exact hfol [] h

/-! ### Pruning -/

/-- Whether a key does not come after another: keys are compared item by
item. -/
def keyLe (k l : List ℕ) : Bool := !List.lex l k

/-- **A stable sort** by keys. -/
def sortBy (key : A → List ℕ) (l : List A) : List A :=
  l.insertionSort fun a b => keyLe (key a) (key b) = true

theorem mem_sortBy {key : A → List ℕ} : a ∈ sortBy key l ↔ a ∈ l :=
  (perm_insertionSort _ l).mem_iff

/-- **The order of keys is that of lists.** -/
theorem keyLe_iff {k l : List ℕ} : keyLe k l = true ↔ k ≤ l := by
  unfold keyLe
  rw [Bool.not_eq_true', ← Bool.not_eq_true, lex_eq_true_iff_lt, not_lt]

theorem pairwise_sortBy {key : A → List ℕ} :
    (sortBy key l).Pairwise fun a b => keyLe (key a) (key b) = true := by
  have htot : Std.Total fun a b => keyLe (key a) (key b) = true :=
    ⟨fun a b => by rw [keyLe_iff, keyLe_iff]; exact le_total _ _⟩
  have htr : IsTrans A fun a b => keyLe (key a) (key b) = true := by
    refine ⟨fun a b c hab hbc => ?_⟩
    rw [keyLe_iff] at hab hbc ⊢
    exact hab.trans hbc
  exact pairwise_insertionSort _ l

/-- Elements that differ in their keys are sorted alike, in whatever order
they come. -/
theorem sortBy_perm {key : A → List ℕ} {l l' : List A}
    (hkey : ∀ a ∈ l, ∀ b ∈ l, key a = key b → a = b) (h : l.Perm l') :
    sortBy key l = sortBy key l' := by
  have hper : (sortBy key l).Perm (sortBy key l') :=
    ((perm_insertionSort _ l).trans h).trans (perm_insertionSort _ l').symm
  refine hper.eq_of_pairwise (fun a b ha hb hab hba => ?_) pairwise_sortBy pairwise_sortBy
  rw [keyLe_iff] at hab hba
  exact hkey a (mem_sortBy.mp ha) b (h.mem_iff.mpr (mem_sortBy.mp hb)) (le_antisymm hab hba)

theorem sortBy_map {B : Type} (key : B → List ℕ) (f : A → B) (l : List A) :
    sortBy key (l.map f) = (sortBy (key ∘ f) l).map f :=
  (map_insertionSort _ _ f l fun _ _ _ _ => Iff.rfl).symm

theorem sortBy_of_pairwise {key : A → List ℕ}
    (h : l.Pairwise fun a b => keyLe (key a) (key b) = true) : sortBy key l = l :=
  List.Pairwise.insertionSort_eq h

variable (dom)

/-- **A pruning by dominance**, in the order of one key; if too many elements
are left, only the first ones by another key stay. -/
def pruneBy (sortKey trimKey : A → List ℕ) (limit : ℕ) (l : List A) : List A :=
  if limit < (undominated dom (sortBy sortKey l)).length then
    (sortBy trimKey (undominated dom (sortBy sortKey l))).take limit
  else undominated dom (sortBy sortKey l)

variable {dom} {sortKey trimKey : A → List ℕ} {limit : ℕ}

theorem mem_of_mem_pruneBy (h : a ∈ pruneBy dom sortKey trimKey limit l) :
    a ∈ l := by
  have hmem : a ∈ undominated dom (sortBy sortKey l) := by
    unfold pruneBy at h
    split_ifs at h
    · exact mem_sortBy.mp (mem_of_mem_take h)
    · exact h
  exact mem_sortBy.mp (mem_of_mem_undominated hmem)

/-- A pruning without trimming keeps, for everything, something that equals
or dominates it. -/
theorem exists_mem_pruneBy (trimKey : A → List ℕ)
    (htr : ∀ a ∈ l, ∀ b ∈ l, ∀ c ∈ l, dom a b = true → dom b c = true → dom a c = true)
    (hlim : (undominated dom (sortBy sortKey l)).length ≤ limit) (h : a ∈ l) :
    ∃ b ∈ pruneBy dom sortKey trimKey limit l, b = a ∨ dom b a = true := by
  unfold pruneBy
  rw [if_neg (Nat.not_lt.mpr hlim)]
  refine exists_mem_undominated (fun a ha b hb c hc => ?_) (mem_sortBy.mpr h)
  exact htr a (mem_sortBy.mp ha) b (mem_sortBy.mp hb) c (mem_sortBy.mp hc)

/-! ### Points that nothing dominates -/

variable (dom)

/-- **The elements that no other one dominates**, all at once. -/
def nondominated {X : Type} (l : List (A × X)) : List (A × X) :=
  (l.zipIdx.filter fun c =>
    !l.zipIdx.any fun o => o.2 != c.2 && dom o.1.1 c.1.1).map Prod.fst

variable {dom}

theorem mem_of_mem_nondominated {X : Type} {l : List (A × X)} {p : A × X}
    (h : p ∈ nondominated dom l) : p ∈ l := by
  obtain ⟨c, hc, rfl⟩ := mem_map.mp h
  exact fst_mem_of_mem_zipIdx (mem_filter.mp hc).1

/-- The elements are those that nothing dominates, also not themselves. -/
theorem nondominated_eq_filter {X : Type} {l : List (A × X)} (hirr : ∀ p ∈ l, dom p.1 p.1 = false) :
    nondominated dom l = l.filter fun p => !l.any fun q => dom q.1 p.1 := by
  have hdmn : ∀ c ∈ l.zipIdx, (l.zipIdx.any fun o => o.2 != c.2 && dom o.1.1 c.1.1) =
      l.any fun q => dom q.1 c.1.1 := by
    intro c hc
    rw [Bool.eq_iff_iff, any_eq_true, any_eq_true]
    constructor
    · rintro ⟨o, ho, hdom⟩
      exact ⟨o.1, fst_mem_of_mem_zipIdx ho, (Bool.and_eq_true_iff.mp hdom).2⟩
    · rintro ⟨q, hq, hdom⟩
      obtain ⟨i, hi⟩ := List.getElem?_of_mem hq
      refine ⟨(q, i), mk_mem_zipIdx_iff_getElem?.mpr hi, ?_⟩
      rw [hdom, Bool.and_true, bne_iff_ne]
      -- an element does not dominate itself
      rintro rfl
      have hsam : q = c.1 := by
        rw [mem_zipIdx_iff_getElem?] at hc
        exact Option.some.inj (hi.symm.trans hc)
      rw [hsam, hirr c.1 (hsam ▸ hq)] at hdom
      cases hdom
  have hfil : (l.zipIdx.map Prod.fst).filter (fun p => !l.any fun q => dom q.1 p.1) =
      (l.zipIdx.filter fun c => !l.any fun q => dom q.1 c.1.1).map Prod.fst := filter_map
  rw [zipIdx_map_fst] at hfil
  rw [hfil, nondominated, filter_congr fun c hc => congrArg Bool.not (hdmn c hc)]

theorem mem_nondominated {X : Type} {l : List (A × X)} (hirr : ∀ p ∈ l, dom p.1 p.1 = false)
    {p : A × X} : p ∈ nondominated dom l ↔ p ∈ l ∧ ∀ q ∈ l, dom q.1 p.1 = false := by
  rw [nondominated_eq_filter hirr, mem_filter, Bool.not_eq_true', any_eq_false]
  simp only [Bool.not_eq_true]

/-- **The front of a list is that of all the points it stands for**, if it
holds some of these points, and for every point one that equals or dominates
it. -/
theorem exists_nondominated_iff {X : Type} (Point : A → Prop)
    (hirr : ∀ a, Point a → dom a a = false) (htr : ∀ a b c, Point a → Point b → Point c →
      dom a b = true → dom b c = true → dom a c = true) {l : List (A × X)}
    (hsnd : ∀ p ∈ l, Point p.1)
    (hcov : ∀ a, Point a → ∃ p ∈ l, p.1 = a ∨ dom p.1 a = true) :
    (∃ p ∈ nondominated dom l, p.1 = a) ↔ Point a ∧ ∀ b, Point b → dom b a = false := by
  have hsel : ∀ p ∈ l, dom p.1 p.1 = false := fun p hp => hirr p.1 (hsnd p hp)
  constructor
  · rintro ⟨p, hp, rfl⟩
    obtain ⟨hmem, hfr⟩ := (mem_nondominated hsel).mp hp
    refine ⟨hsnd p hmem, fun b hb => ?_⟩
    obtain ⟨q, hq, hqb⟩ := hcov b hb
    rw [← Bool.not_eq_true]
    intro hdom
    have hqp : dom q.1 p.1 = true := by
      rcases hqb with heq | hqb
      · rwa [heq]
      · exact htr q.1 b p.1 (hsnd q hq) hb (hsnd p hmem) hqb hdom
    rw [hfr q hq] at hqp
    cases hqp
  · rintro ⟨ha, hfr⟩
    obtain ⟨p, hp, hpa⟩ := hcov a ha
    have heq : p.1 = a := by
      refine hpa.resolve_right fun hdom => ?_
      rw [hfr p.1 (hsnd p hp)] at hdom
      cases hdom
    refine ⟨p, (mem_nondominated hsel).mpr ⟨hp, fun q hq => ?_⟩, heq⟩
    rw [heq]
    exact hfr q.1 (hsnd q hq)

end Dominance

/-! ## Neighbours with the same key -/

section Dedup

variable {A K : Type} [DecidableEq K] (key : A → K)

/-- **`dedup_by`**: of neighbours with the same key, the first one is left. -/
def dedupBy (l : List A) : List A := l.destutter fun a b => key a ≠ key b

variable {key}

theorem mem_of_mem_dedupBy {l : List A} {a : A} (h : a ∈ dedupBy key l) : a ∈ l :=
  (destutter_sublist _ l).subset h

/-- For whatever is dropped, something with the same key is left. -/
theorem exists_mem_dedupBy {l : List A} {a : A} (h : a ∈ l) :
    ∃ b ∈ dedupBy key l, key b = key a := by
  have hfr : ∀ (l : List A) (c : A), key a = key c ∨ a ∈ l →
      ∃ b ∈ l.destutter' (fun a b => key a ≠ key b) c, key b = key a := by
    intro l
    induction l with
    | nil =>
      intro c h
      exact ⟨c, mem_singleton_self c, (h.resolve_right not_mem_nil).symm⟩
    | cons d l ih =>
      intro c h
      have hres : a ∈ d :: l → key a = key d ∨ a ∈ l := by
        intro h
        rcases mem_cons.mp h with rfl | h
        · exact Or.inl rfl
        · exact Or.inr h
      by_cases hkey : key c ≠ key d
      · rw [List.destutter'_cons_pos l hkey]
        rcases h with h | h
        · exact ⟨c, mem_cons_self, h.symm⟩
        · obtain ⟨b, hb, hba⟩ := ih d (hres h)
          exact ⟨b, mem_cons_of_mem c hb, hba⟩
      · rw [List.destutter'_cons_neg l hkey]
        rw [not_not] at hkey
        exact ih c (h.elim Or.inl fun h => (hres h).imp_left fun h => h.trans hkey.symm)
  cases l with
  | nil => cases h
  | cons c l =>
    refine hfr l c ?_
    rcases mem_cons.mp h with rfl | h
    · exact Or.inl rfl
    · exact Or.inr h

end Dedup

end Logan
