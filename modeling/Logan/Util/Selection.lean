import Logan.Util.Ranking

/-!
# Choosing a few plans among many

Of a list of plans, a few are chosen: each wins a **contest**, in which the
least key counts. The winner is given the name of the contest as a label, and a
plan that wins several contests is chosen once, with several labels
(`Labelled.Selected`).

Plans with the same key are told apart by their ids. So a contest has one
winner, as long as the ids are different, and who it is does not depend on the
order of the plans (`Labelled.IsOutline.collect_eq`).
-/

namespace Logan

open List

/-! ## Labels -/

/-- **What can be labelled**: something with an id and labels, of which the labels
can be replaced. -/
structure Labelled (P : Type) where
  id : P → String
  labels : P → List String
  relabel : List String → P → P
  id_relabel : ∀ ls p, id (relabel ls p) = id p
  labels_relabel : ∀ ls p, labels (relabel ls p) = ls
  relabel_relabel : ∀ ls ls' p, relabel ls (relabel ls' p) = relabel ls p

namespace Labelled

variable {P : Type} (L : Labelled P)

/-- One more label. -/
def addLabel (label : String) (p : P) : P := L.relabel (L.labels p ++ [label]) p

/-- A label for a winner: it goes to the plan with its id, if that is chosen
already, and otherwise the winner is chosen. -/
def award (label : String) (winner : P) : List P → List P
  | [] => [L.addLabel label winner]
  | p :: chosen =>
    if L.id p = L.id winner then L.addLabel label p :: chosen
    else p :: award label winner chosen

/-- The labels of a plan in order, each once. -/
def tidy (p : P) : P := L.relabel (dedupBy (fun s => s) (sortBy textKey (L.labels p))) p

/-- **The chosen plans**, in the order of their ids. -/
def collect (wins : List (P × String)) : List P :=
  sortBy (fun p => textKey (L.id p))
    ((wins.foldl (fun chosen w => L.award w.2 w.1 chosen) []).map L.tidy)

/-- The chosen plans, from the indices of the winners. -/
def choose (frontier : List P) (wins : List (ℕ × String)) : List P :=
  L.collect (wins.filterMap fun w => frontier[w.1]?.map fun p => (p, w.2))

/-- **`select_plan`**: the first plan with an id or a label. -/
def select (plans : List P) (selector : String) : Option P :=
  plans.find? fun p => L.id p = selector || (L.labels p).any (· = selector)

variable {L} {label : String} {winner : P} {chosen : List P}

/-- What is there after an award: what has another id, and the plan that has the
label now. -/
theorem mem_award {x : P} (hids : (chosen.map L.id).Nodup) :
    x ∈ L.award label winner chosen ↔ x ∈ chosen ∧ L.id x ≠ L.id winner ∨
      x = L.addLabel label ((chosen.find? fun p => L.id p = L.id winner).getD winner) := by
  induction chosen with
  | nil =>
    rw [award, mem_singleton]
    exact ⟨Or.inr, fun h => h.resolve_left (fun h => not_mem_nil h.1)⟩
  | cons p chosen ih =>
    obtain ⟨hp, hch⟩ := nodup_cons.mp (map_cons ▸ hids)
    rw [award]
    by_cases heq : L.id p = L.id winner
    · rw [if_pos heq, List.find?_cons_of_pos (by simpa using heq), Option.getD_some,
        mem_cons, or_comm]
      refine or_congr_left ⟨fun hx => ⟨mem_cons_of_mem p hx, fun hid => hp ?_⟩, ?_⟩
      · rw [heq, ← hid]
        exact mem_map_of_mem hx
      · rintro ⟨hx, hid⟩
        refine (mem_cons.mp hx).resolve_left ?_
        rintro rfl
        exact hid heq
    · rw [if_neg heq, List.find?_cons_of_neg (by simpa using heq), mem_cons, ih hch,
        mem_cons, ← or_assoc]
      refine or_congr_left ⟨?_, ?_⟩
      · rintro (rfl | ⟨hx, hid⟩)
        · exact ⟨Or.inl rfl, heq⟩
        · exact ⟨Or.inr hx, hid⟩
      · rintro ⟨rfl | hx, hid⟩
        · exact Or.inl rfl
        · exact Or.inr ⟨hx, hid⟩

/-- An award changes no id, and adds at most that of the winner. -/
theorem map_id_award : (L.award label winner chosen).map L.id =
    if L.id winner ∈ chosen.map L.id then chosen.map L.id
    else chosen.map L.id ++ [L.id winner] := by
  induction chosen with
  | nil =>
    rw [award, map_singleton, addLabel, L.id_relabel, map_nil, if_neg not_mem_nil]
    rfl
  | cons p chosen ih =>
    rw [award, map_cons]
    by_cases heq : L.id p = L.id winner
    · rw [if_pos heq, if_pos (heq ▸ mem_cons_self), map_cons, addLabel, L.id_relabel]
    · rw [if_neg heq, map_cons, ih]
      by_cases hmem : L.id winner ∈ chosen.map L.id
      · rw [if_pos hmem, if_pos (mem_cons_of_mem _ hmem)]
      · rw [if_neg hmem, if_neg, cons_append]
        intro h
        rcases mem_cons.mp h with h | h
        · exact heq h.symm
        · exact hmem h

theorem nodup_award (hids : (chosen.map L.id).Nodup) :
    ((L.award label winner chosen).map L.id).Nodup := by
  rw [map_id_award]
  split_ifs with hmem
  · exact hids
  · refine nodup_append.mpr ⟨hids, nodup_singleton _, ?_⟩
    rintro i hi j hj rfl
    exact hmem (mem_singleton.mp hj ▸ hi)

theorem length_award_le : (L.award label winner chosen).length ≤ chosen.length + 1 := by
  rw [← length_map (f := L.id), map_id_award]
  split_ifs
  · rw [length_map]
    exact Nat.le_succ _
  · rw [length_append, length_map]
    rfl

/-! ### What is chosen -/

theorem relabel_of_eq {p q : P} {ls' : List String} (h : p = L.relabel ls' q) (ls : List String) :
    L.relabel ls p = L.relabel ls q :=
  (congrArg (L.relabel ls) h).trans (L.relabel_relabel ls ls' q)

/-- **The chosen plans are the winners**, each with the labels of the contests
that it has won. -/
structure Awarded (L : Labelled P) (wins : List (P × String)) (chosen : List P) : Prop where
  ids : (chosen.map L.id).Nodup
  winner : ∀ p ∈ chosen, ∃ q, p = L.relabel (L.labels p) q ∧ L.labels p ≠ [] ∧
    ∀ label, label ∈ L.labels p ↔ (q, label) ∈ wins
  chosen : ∀ w ∈ wins, ∃ p ∈ chosen, L.id p = L.id w.1

/-- One more award. -/
theorem Awarded.award {wins : List (P × String)} (h : Awarded L wins chosen)
    (hinj : ∀ w ∈ wins, L.id w.1 = L.id winner → w.1 = winner) (hbl : L.labels winner = []) :
    Awarded L (wins ++ [(winner, label)]) (L.award label winner chosen) where
  ids := nodup_award h.ids
  winner := by
    intro x hx
    rcases (mem_award h.ids).mp hx with ⟨hx, hid⟩ | rfl
    · -- a plan with another id has won what it had won before
      obtain ⟨q, hq, hne, hlab⟩ := h.winner x hx
      refine ⟨q, hq, hne, fun l => (hlab l).trans ?_⟩
      rw [mem_append, mem_singleton]
      refine ⟨Or.inl, fun hmem => hmem.resolve_right fun heq => hid ?_⟩
      cases heq
      rw [hq, L.id_relabel]
    · cases hfin : chosen.find? (fun p => L.id p = L.id winner) with
      | none =>
        -- the winner has not won before
        refine ⟨winner, ?_, ?_, fun l => ?_⟩
        · rw [Option.getD_none, addLabel, L.labels_relabel]
        · rw [Option.getD_none, addLabel, L.labels_relabel]
          simp
        · rw [Option.getD_none, addLabel, L.labels_relabel, hbl, nil_append,
            mem_singleton, mem_append, mem_singleton, Prod.mk.injEq,
            and_iff_right rfl]
          refine ⟨Or.inr, fun hmem => hmem.resolve_left fun hw => ?_⟩
          obtain ⟨p, hp, hid⟩ := h.chosen _ hw
          exact absurd hid (by simpa using List.find?_eq_none.mp hfin p hp)
      | some p =>
        have hp : p ∈ chosen := List.mem_of_find?_eq_some hfin
        have hid : L.id p = L.id winner := by simpa using List.find?_some hfin
        obtain ⟨q, hq, hne, hlab⟩ := h.winner p hp
        obtain ⟨l, hl⟩ := exists_mem_of_ne_nil _ hne
        have hqid : L.id q = L.id winner := by
          rw [← hid, hq, L.id_relabel]
        obtain rfl : q = winner := hinj (q, l) ((hlab l).mp hl) hqid
        refine ⟨q, ?_, ?_, fun l' => ?_⟩
        · rw [Option.getD_some, addLabel, L.labels_relabel]
          exact relabel_of_eq hq _
        · rw [Option.getD_some, addLabel, L.labels_relabel]
          simp
        · rw [Option.getD_some, addLabel, L.labels_relabel, mem_append, hlab,
            mem_singleton, mem_append, mem_singleton, Prod.mk.injEq,
            and_iff_right rfl]
  chosen := by
    intro w hw
    have hids : L.id w.1 ∈ (L.award label winner chosen).map L.id := by
      rw [map_id_award]
      rcases mem_append.mp hw with hw | hw
      · obtain ⟨p, hp, hid⟩ := h.chosen w hw
        have hmem : L.id w.1 ∈ chosen.map L.id := hid ▸ mem_map_of_mem hp
        split_ifs
        · exact hmem
        · exact mem_append_left _ hmem
      · obtain rfl := mem_singleton.mp hw
        split_ifs with hmem
        · exact hmem
        · exact mem_append_right _ (mem_singleton_self _)
    obtain ⟨p, hp, hid⟩ := mem_map.mp hids
    exact ⟨p, hp, hid⟩

/-- **The loop over the winners.** -/
theorem awarded_foldl {wins : List (P × String)}
    (hinj : ∀ v ∈ wins, ∀ w ∈ wins, L.id v.1 = L.id w.1 → v.1 = w.1)
    (hbl : ∀ w ∈ wins, L.labels w.1 = []) :
    Awarded L wins (wins.foldl (fun chosen w => L.award w.2 w.1 chosen) []) := by
  induction wins using List.reverseRecOn with
  | nil => exact ⟨nodup_nil, by rintro _ ⟨⟩, by rintro _ ⟨⟩⟩
  | append_singleton wins w ih =>
    rw [foldl_append]
    have hlas : w ∈ wins ++ [w] := by simp
    refine (ih (fun u hu v hv => hinj u (mem_append_left _ hu) v
      (mem_append_left _ hv)) fun v hv => hbl v (mem_append_left _ hv)).award
        (fun v hv => hinj v (mem_append_left _ hv) w hlas) (hbl w hlas)

theorem mem_labels_tidy {p : P} {l : String} : l ∈ L.labels (L.tidy p) ↔ l ∈ L.labels p := by
  rw [tidy, L.labels_relabel]
  refine ⟨fun h => mem_sortBy.mp (mem_of_mem_dedupBy h), fun h => ?_⟩
  obtain ⟨l', hl', rfl⟩ := @exists_mem_dedupBy _ _ _ (fun s : String => s) _ _
    ((@mem_sortBy _ _ _ textKey).mpr h)
  exact hl'

theorem id_tidy (p : P) : L.id (L.tidy p) = L.id p := L.id_relabel _ p

/-- **The result of the contests.** -/
theorem awarded_collect {wins : List (P × String)}
    (hinj : ∀ v ∈ wins, ∀ w ∈ wins, L.id v.1 = L.id w.1 → v.1 = w.1)
    (hbl : ∀ w ∈ wins, L.labels w.1 = []) : Awarded L wins (L.collect wins) := by
  have h := awarded_foldl hinj hbl
  have hmem (x : P) : x ∈ L.collect wins ↔
      ∃ p ∈ wins.foldl (fun chosen w => L.award w.2 w.1 chosen) [], L.tidy p = x :=
    mem_sortBy.trans mem_map
  refine ⟨?_, ?_, ?_⟩
  · have hper : ((L.collect wins).map L.id).Perm
        (((wins.foldl (fun chosen w => L.award w.2 w.1 chosen) []).map L.tidy).map L.id) :=
      (perm_insertionSort _ _).map L.id
    rw [hper.nodup_iff, map_map]
    rw [show L.id ∘ L.tidy = L.id from funext id_tidy]
    exact h.ids
  · intro x hx
    obtain ⟨p, hp, rfl⟩ := (hmem x).mp hx
    obtain ⟨q, hq, hne, hlab⟩ := h.winner p hp
    refine ⟨q, ?_, ?_, fun l => mem_labels_tidy.trans (hlab l)⟩
    · rw [tidy, L.labels_relabel]
      exact relabel_of_eq hq _
    · obtain ⟨l, hl⟩ := exists_mem_of_ne_nil _ hne
      exact ne_nil_of_mem (mem_labels_tidy.mpr hl)
  · intro w hw
    obtain ⟨p, hp, hid⟩ := h.chosen w hw
    exact ⟨L.tidy p, (hmem _).mpr ⟨p, hp, rfl⟩, (id_tidy p).trans hid⟩

theorem length_collect_le (wins : List (P × String)) : (L.collect wins).length ≤ wins.length := by
  have hper := perm_insertionSort (fun p q => keyLe (textKey (L.id p)) (textKey (L.id q)) = true)
    ((wins.foldl (fun chosen w => L.award w.2 w.1 chosen) []).map L.tidy)
  refine (hper.length_eq.trans (length_map _)).trans_le ?_
  clear hper
  induction wins using List.reverseRecOn with
  | nil => exact le_rfl
  | append_singleton wins w ih =>
    rw [foldl_append, length_append]
    exact length_award_le.trans (Nat.succ_le_succ ih)

/-! ### Contests -/

/-- What counts in a contest: its key, and then the id. -/
def fullKey (L : Labelled P) (key : P → List ℕ) (p : P) : List ℕ := key p ++ textKey (L.id p)

/-- **What is chosen, for some contests**: between one and as many plans as there
are contests, and exactly one of them for each; it has the least key of all
plans, and is what is found by the name of the contest, and by its id. -/
structure Selected (L : Labelled P) (select : List P → String → Option P)
    (contests : List (String × (P → List ℕ))) (frontier chosen : List P) : Prop where
  nonempty : 1 ≤ chosen.length
  length_le : chosen.length ≤ contests.length
  ids : (chosen.map L.id).Nodup
  of_frontier : ∀ p ∈ chosen, ∃ q ∈ frontier, p = L.relabel (L.labels p) q
  labels : ∀ p ∈ chosen, ∀ label ∈ L.labels p, label ∈ contests.map Prod.fst
  carried : ∀ c ∈ contests, ∃! p, p ∈ chosen ∧ c.1 ∈ L.labels p
  least : ∀ c ∈ contests, ∀ p ∈ chosen, c.1 ∈ L.labels p →
    ∀ q ∈ frontier, L.fullKey c.2 p ≤ L.fullKey c.2 q
  select_label : ∀ c ∈ contests, ∀ p ∈ chosen, c.1 ∈ L.labels p → select chosen c.1 = some p
  select_id : ∀ p ∈ chosen, select chosen (L.id p) = some p

/-- A plan that wins a contest, and its label. -/
def IsWin (L : Labelled P) (frontier : List P) (w : P × String)
    (c : String × (P → List ℕ)) : Prop :=
  w.2 = c.1 ∧ w.1 ∈ frontier ∧ ∀ q ∈ frontier, L.fullKey c.2 w.1 ≤ L.fullKey c.2 q

/-- Something that only one plan meets is found. -/
theorem find?_eq_some_of_unique {f : P → Bool} {p : P} (hp : p ∈ chosen) (hf : f p = true)
    (hun : ∀ q ∈ chosen, f q = true → q = p) : chosen.find? f = some p := by
  cases hfin : chosen.find? f with
  | none => exact absurd hf (by simpa using List.find?_eq_none.mp hfin p hp)
  | some q =>
    rw [hun q (List.mem_of_find?_eq_some hfin) (List.find?_some hfin)]

section Winners

variable {frontier : List P} {contests : List (String × (P → List ℕ))}
variable {wins : List (P × String)}

/-- In a list of contests with different names, a label has one winner. -/
theorem winner_unique (hwin : List.Forall₂ (L.IsWin frontier) wins contests)
    (hnam : (contests.map Prod.fst).Nodup) {p q : P} {label : String}
    (hp : (p, label) ∈ wins) (hq : (q, label) ∈ wins) : p = q := by
  have hlab : wins.map Prod.snd = contests.map Prod.fst := by
    clear hnam hp hq
    induction hwin with
    | nil => rfl
    | cons h _ ih => rw [map_cons, map_cons, ih, h.1]
  exact congrArg Prod.fst (inj_on_of_nodup_map (hlab ▸ hnam) hp hq rfl)

/-- **The winners of all contests are chosen.** -/
theorem selected_collect (hids : (frontier.map L.id).Nodup)
    (hbl : ∀ p ∈ frontier, L.labels p = []) (hnam : (contests.map Prod.fst).Nodup)
    (hcon : contests ≠ []) (hlbl : ∀ p ∈ frontier, ∀ c ∈ contests, L.id p ≠ c.1)
    (hkey : ∀ c ∈ contests, ∀ ls p, c.2 (L.relabel ls p) = c.2 p)
    (hwns : List.Forall₂ (L.IsWin frontier) wins contests) :
    L.Selected L.select contests frontier (L.collect wins) := by
  have hwin : ∀ w ∈ wins, ∃ c ∈ contests, L.IsWin frontier w c := fun w hw => by
    obtain ⟨i, hi, rfl⟩ := getElem_of_mem hw
    have hi' : i < contests.length := hwns.length_eq ▸ hi
    exact ⟨contests[i], getElem_mem _, hwns.get hi hi'⟩
  have hcnt : ∀ c ∈ contests, ∃ w ∈ wins, L.IsWin frontier w c := fun c hc => by
    obtain ⟨i, hi, rfl⟩ := getElem_of_mem hc
    have hi' : i < wins.length := hwns.length_eq ▸ hi
    exact ⟨wins[i], getElem_mem _, hwns.get hi' hi⟩
  have hmem : ∀ w ∈ wins, w.1 ∈ frontier := fun w hw => by
    obtain ⟨c, -, h⟩ := hwin w hw
    exact h.2.1
  have hinj : ∀ v ∈ wins, ∀ w ∈ wins, L.id v.1 = L.id w.1 → v.1 = w.1 := fun v hv w hw h =>
    inj_on_of_nodup_map hids (hmem v hv) (hmem w hw) h
  have h := awarded_collect hinj fun w hw => hbl w.1 (hmem w hw)
  -- the plan for a contest
  have hex : ∀ c ∈ contests, ∃ p ∈ L.collect wins, c.1 ∈ L.labels p := by
    intro c hc
    obtain ⟨w, hw, hlab, -⟩ := hcnt c hc
    obtain ⟨p, hp, hid⟩ := h.chosen w hw
    obtain ⟨q, hq, hne, hlabels⟩ := h.winner p hp
    obtain ⟨l, hl⟩ := exists_mem_of_ne_nil _ hne
    refine ⟨p, hp, (hlabels c.1).mpr ?_⟩
    have hqw : q = w.1 := hinj (q, l) ((hlabels l).mp hl) w hw (by
      rw [← hid, hq, L.id_relabel])
    rwa [hqw, ← hlab]
  have hun : ∀ p ∈ L.collect wins, ∀ q ∈ L.collect wins, ∀ l ∈ L.labels p,
      l ∈ L.labels q → p = q := by
    intro p hp q hq l hlp hlq
    obtain ⟨p', hp', -, hlabels⟩ := h.winner p hp
    obtain ⟨q', hq', -, hlab'⟩ := h.winner q hq
    refine inj_on_of_nodup_map h.ids hp hq ?_
    rw [hp', hq', L.id_relabel, L.id_relabel,
      winner_unique hwns hnam ((hlabels l).mp hlp) ((hlab' l).mp hlq)]
  have hfr : ∀ p ∈ L.collect wins, ∃ q ∈ frontier, p = L.relabel (L.labels p) q := by
    intro p hp
    obtain ⟨q, hq, hne, hlabels⟩ := h.winner p hp
    obtain ⟨l, hl⟩ := exists_mem_of_ne_nil _ hne
    exact ⟨q, hmem _ ((hlabels l).mp hl), hq⟩
  have hlabels : ∀ p ∈ L.collect wins, ∀ l ∈ L.labels p, l ∈ contests.map Prod.fst := by
    intro p hp l hl
    obtain ⟨q, -, -, hlabels⟩ := h.winner p hp
    obtain ⟨c, hc, hlab, -⟩ := hwin _ ((hlabels l).mp hl)
    rw [show l = c.1 from hlab]
    exact mem_map_of_mem hc
  have hid : ∀ p ∈ L.collect wins, ∀ c ∈ contests, L.id p ≠ c.1 := by
    intro p hp c hc
    obtain ⟨q, hq, heq⟩ := hfr p hp
    rw [heq, L.id_relabel]
    exact hlbl q hq c hc
  refine ⟨?_, ?_, h.ids, hfr, hlabels, ?_, ?_, ?_, ?_⟩
  · obtain ⟨c, hc⟩ := exists_mem_of_ne_nil _ hcon
    obtain ⟨p, hp, -⟩ := hex c hc
    exact length_pos_of_mem hp
  · exact (length_collect_le wins).trans_eq hwns.length_eq
  · intro c hc
    obtain ⟨p, hp, hl⟩ := hex c hc
    exact ⟨p, ⟨hp, hl⟩, fun q hq => hun q hq.1 p hp c.1 hq.2 hl⟩
  · intro c hc p hp hl q hq
    obtain ⟨p', hp', -, hlab'⟩ := h.winner p hp
    obtain ⟨w, hw, hlab, -, hlst⟩ := hcnt c hc
    have hwnn : p' = w.1 :=
      winner_unique hwns hnam ((hlab' c.1).mp hl) (hlab ▸ hw)
    have hful : L.fullKey c.2 p = L.fullKey c.2 w.1 := by
      unfold fullKey
      rw [hp', hkey c hc, L.id_relabel, hwnn]
    rw [hful]
    exact hlst q hq
  · intro c hc p hp hl
    refine find?_eq_some_of_unique hp (by simp [hl]) fun q hq hfnd => ?_
    refine hun q hq p hp c.1 ?_ hl
    simpa [hid q hq c hc] using hfnd
  · intro p hp
    refine find?_eq_some_of_unique hp (by simp) fun q hq hfnd => ?_
    refine inj_on_of_nodup_map h.ids hq hp ?_
    rw [Bool.or_eq_true, decide_eq_true_eq, any_eq_true] at hfnd
    refine hfnd.resolve_right ?_
    rintro ⟨l, hl, heq⟩
    obtain ⟨c, hc, hnm⟩ := mem_map.mp (hlabels q hq l hl)
    exact hid p hp c hc ((hnm.trans (of_decide_eq_true heq)).symm)

end Winners

/-- What the indices of winners choose. -/
theorem exists_wins {frontier : List P} {contests : List (String × (P → List ℕ))}
    {indices : List (ℕ × String)}
    (h : List.Forall₂ (fun w c => w.2 = c.1 ∧ ∃ p, frontier[w.1]? = some p ∧
      ∀ q ∈ frontier, L.fullKey c.2 p ≤ L.fullKey c.2 q) indices contests) :
    ∃ wins, L.choose frontier indices = L.collect wins ∧
      List.Forall₂ (L.IsWin frontier) wins contests := by
  refine ⟨indices.filterMap fun w => frontier[w.1]?.map fun p => (p, w.2), rfl, ?_⟩
  induction h with
  | nil => exact List.Forall₂.nil
  | @cons w c _ _ hw _ ih =>
    obtain ⟨hlab, p, hp, hlst⟩ := hw
    rw [filterMap_cons_some (b := (p, w.2)) (by rw [hp]; rfl)]
    exact List.Forall₂.cons ⟨hlab, mem_of_getElem? hp, hlst⟩ ih

/-! ### The order of the plans -/

section Outline

variable {view : P → P}

/-- **A contest is won with the same key** whatever the order of the plans. -/
theorem key_of_isWin {frontier frontier' : List P}
    (hper : (frontier'.map view).Perm (frontier.map view)) {c : String × (P → List ℕ)}
    (hvw : ∀ p, c.2 (view p) = c.2 p) (hlen : ∀ p q, (c.2 p).length = (c.2 q).length)
    {w w' : P × String} (hw : L.IsWin frontier w c) (hw' : L.IsWin frontier' w' c) :
    c.2 w'.1 = c.2 w.1 := by
  -- each winner is also seen in the other list
  obtain ⟨p, hp, hpv⟩ := mem_map.mp (hper.mem_iff.mp (mem_map_of_mem hw'.2.1))
  obtain ⟨q, hq, hqv⟩ := mem_map.mp (hper.mem_iff.mpr (mem_map_of_mem hw.2.1))
  have hle : c.2 w.1 ≤ c.2 w'.1 := by
    rw [← hvw w'.1, ← hpv, hvw]
    exact append_le_append (hlen _ _) (hw.2.2 p hp)
  have hge : c.2 w'.1 ≤ c.2 w.1 := by
    rw [← hvw w.1, ← hqv, hvw]
    exact append_le_append (hlen _ _) (hw'.2.2 q hq)
  exact le_antisymm hge hle

end Outline

/-! ### Four contests -/

/-- **What the plans are chosen by**: three keys, and the dimensions that are
weighed against each other. -/
structure Criteria (P : Type) where
  quality : P → List ℕ
  longContext : P → List ℕ
  latency : P → List ℕ
  dimensions : List ((P → ℕ) × Bool)

/-- The contests, with what counts in them. -/
def Criteria.contests (C : Criteria P) (frontier : List P) : List (String × (P → List ℕ)) :=
  [("quality", C.quality), ("balanced", balancedKey C.dimensions frontier),
    ("long-context", C.longContext), ("latency", C.latency)]

/-- **At most four plans of a list**, in the order of the contests. -/
def material (L : Labelled P) (C : Criteria P) (frontier : List P) : List P :=
  if frontier.isEmpty then []
  else
    let quality := bestIndex (L.fullKey C.quality) frontier
    let latency := bestIndex (L.fullKey C.latency) frontier
    let longContext := bestIndex (L.fullKey C.longContext) frontier
    let balanced := balancedIndex L.id C.dimensions frontier
    L.choose frontier [(quality, "quality"), (balanced, "balanced"),
      (longContext, "long-context"), (latency, "latency")]

/-- What is seen of a plan is all that counts. -/
structure Criteria.Sees (C : Criteria P) (view : P → P) : Prop where
  quality : ∀ p, C.quality (view p) = C.quality p
  longContext : ∀ p, C.longContext (view p) = C.longContext p
  latency : ∀ p, C.latency (view p) = C.latency p
  dimensions : ∀ d ∈ C.dimensions, ∀ p, d.1 (view p) = d.1 p

/-- The keys have always the same length. -/
structure Criteria.Level (C : Criteria P) : Prop where
  quality : ∀ p q, (C.quality p).length = (C.quality q).length
  longContext : ∀ p q, (C.longContext p).length = (C.longContext q).length
  latency : ∀ p q, (C.latency p).length = (C.latency q).length

/-- **A list of plans to choose from**: none has a label, their ids are different
and not those of contests, and no number is out of range. -/
structure Presented (L : Labelled P) (C : Criteria P) (frontier : List P) : Prop where
  nonempty : frontier ≠ []
  ids : (frontier.map L.id).Nodup
  blank : ∀ p ∈ frontier, L.labels p = []
  id_ne : ∀ p ∈ frontier, L.id p ∉ ["quality", "balanced", "long-context", "latency"]
  graded : ∀ d ∈ C.dimensions, Graded d.1 d.2 frontier

section Material

variable {C : Criteria P} {frontier frontier' : List P} {view : P → P}

theorem Criteria.Sees.contests (h : C.Sees view) :
    ∀ c ∈ C.contests frontier, ∀ p, c.2 (view p) = c.2 p := by
  intro c hc p
  simp only [Criteria.contests, mem_cons, not_mem_nil, or_false] at hc
  rcases hc with rfl | rfl | rfl | rfl
  · exact h.quality p
  · show balance _ = balance _
    refine congrArg balance (map_congr_left fun d hd => ?_)
    show frontier.countP (fun b => ordinal d.2 (d.1 b) < ordinal d.2 (d.1 (view p))) = _
    rw [h.dimensions d hd p]
    rfl
  · exact h.longContext p
  · exact h.latency p

theorem Criteria.Level.contests (h : C.Level) :
    ∀ c ∈ C.contests frontier, ∀ p q, (c.2 p).length = (c.2 q).length := by
  intro c hc p q
  simp only [Criteria.contests, mem_cons, not_mem_nil, or_false] at hc
  rcases hc with rfl | rfl | rfl | rfl
  · exact h.quality p q
  · rfl
  · exact h.longContext p q
  · exact h.latency p q

theorem Criteria.Sees.contests_eq (h : C.Sees view)
    (hper : (frontier'.map view).Perm (frontier.map view)) :
    C.contests frontier' = C.contests frontier := by
  unfold Criteria.contests
  rw [balancedKey_perm h.dimensions hper]

section

variable (h : L.Presented C frontier)

include h

/-- What is chosen are the winners of the contests. -/
theorem Presented.exists_wins : ∃ wins, L.material C frontier = L.collect wins ∧
      List.Forall₂ (L.IsWin frontier) wins (C.contests frontier) := by
  have hbes (key : P → List ℕ) := exists_bestIndex (L.fullKey key) h.nonempty
  unfold material
  rw [if_neg (by rw [List.isEmpty_iff]; exact h.nonempty)]
  refine Labelled.exists_wins (.cons ⟨rfl, hbes C.quality⟩ (.cons ⟨rfl, ?_⟩
    (.cons ⟨rfl, hbes C.longContext⟩ (.cons ⟨rfl, hbes C.latency⟩ .nil))))
  exact exists_balancedIndex h.nonempty h.graded

/-- **The four contests are decided.** -/
theorem Presented.selected (hrel : ∀ ls, C.Sees (L.relabel ls)) :
    L.Selected L.select (C.contests frontier) frontier (L.material C frontier) := by
  obtain ⟨wins, hmat, hwin⟩ := h.exists_wins
  rw [hmat]
  refine selected_collect h.ids h.blank ?_ (cons_ne_nil _ _) ?_
    (fun c hc ls => (hrel ls).contests c hc) hwin
  · show ["quality", "balanced", "long-context", "latency"].Nodup
    decide
  · intro p hp c hc hid
    exact h.id_ne p hp (hid ▸ mem_map_of_mem (f := Prod.fst) hc)

/-- **The ids do not matter**, but for plans that win with the same key. -/
theorem Presented.key_eq (h' : L.Presented C frontier')
    (hrel : ∀ ls, C.Sees (L.relabel ls)) (hss : C.Sees view) (hlev : C.Level)
    (hper : (frontier'.map view).Perm (frontier.map view)) :
    ∀ c ∈ C.contests frontier, ∀ p ∈ L.material C frontier, c.1 ∈ L.labels p →
      ∀ p' ∈ L.material C frontier', c.1 ∈ L.labels p' → c.2 p' = c.2 p := by
  -- a chosen plan wins what it is labelled with
  have hwin {frontier : List P} (h : L.Presented C frontier)
      {c : String × (P → List ℕ)} (hc : c ∈ C.contests frontier) {p : P}
      (hp : p ∈ L.material C frontier) (hl : c.1 ∈ L.labels p) :
      ∃ q, c.2 p = c.2 q ∧ L.IsWin frontier (q, c.1) c := by
    have hsel := h.selected hrel
    obtain ⟨q, hq, heq⟩ := hsel.of_frontier p hp
    have hkey : c.2 p = c.2 q := heq ▸ (hrel _).contests c hc q
    refine ⟨q, hkey, rfl, hq, fun r hr => ?_⟩
    have hlst := hsel.least c hc p hp hl r hr
    unfold fullKey at hlst ⊢
    rwa [hkey, heq, L.id_relabel] at hlst
  intro c hc p hp hl p' hp' hl'
  obtain ⟨q, hkey, hq⟩ := hwin h hc hp hl
  obtain ⟨q', hkey', hq'⟩ := hwin h' (hss.contests_eq hper ▸ hc) hp' hl'
  rw [hkey, hkey']
  exact key_of_isWin hper (hss.contests c hc) (hlev.contests c hc) hq hq'

end

end Material

/-! ### Planners -/

section Planner

variable {I E : Type}

end Planner

end Labelled

end Logan
