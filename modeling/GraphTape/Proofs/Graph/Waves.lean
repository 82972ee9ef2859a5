import GraphTape.Proofs.Graph.Order

/-!
# Waves

Scheduling assigns set after set and counts down, for every node, the predecessors that are not
yet assigned. The counts never leave the truth (`Layering.Counting`), so the sets are the ones that
can be read off the graph: those of the remaining nodes none of whose predecessors remains.

* `Graph.waves`: the waves of the nodes that remain, without counting.
* `Graph.map_waves_layer`: counting finds the same waves.
* `Schedule.Filed`: the table of the nodes says in which set a node is (`Graph.filed_of_schedule`).
* `Graph.linearizes_of_schedule`: the order of a schedule linearizes the edges.
-/

namespace GraphTape

/-- Fewer entries are left when some are taken out. -/
theorem length_filter_not_lt {ι : Type} {p : ι → Bool} {is : List ι} (h : is.filter p ≠ []) :
    (is.filter fun i => !p i).length < is.length := by
  have hpos := List.length_pos_iff.2 h
  have hsplit := List.length_eq_countP_add_countP p (l := is)
  simp only [← List.countP_eq_length_filter, Bool.not_eq_true, Bool.decide_eq_false] at *
  omega

/-- Entries of a table that are set one after the other, each to a value of its own. -/
theorem getElem?_foldl_set {τ : Type} (f : Nat → τ) (is : List Nat) (table : List τ) (k : Nat) :
    (is.foldl (fun table i => table.set i (f i)) table)[k]? =
      if k ∈ is then table[k]?.map fun _ => f k else table[k]? := by
  induction is generalizing table with
  | nil => rfl
  | cons i is ih =>
    rw [List.foldl_cons, ih, List.getElem?_set']
    by_cases hi : i = k
    · subst hi
      simp [Function.const_def]
    · simp [hi, Ne.symm hi]

namespace Graph

variable {α : Type} (g : Graph α)

/-- Whether no predecessor of a node is among the remaining nodes. -/
def isReady (remaining : List Nat) (n : Nat) : Bool :=
  (g.predecessors n).all fun p => decide (p ∉ remaining)

/-- The remaining nodes that can be evaluated now. -/
def ready (remaining : List Nat) : List Nat := remaining.filter (g.isReady remaining)

/-- The remaining nodes that have to wait. -/
def blocked (remaining : List Nat) : List Nat := remaining.filter fun n => !g.isReady remaining n

/-- The waves of the nodes that remain, or the report of a cycle among them. -/
def waves (remaining : List Nat) : Except (Error α) (List (List Nat)) :=
  if _hr : remaining = [] then .ok []
  else if _h : g.ready remaining = [] then
    .error (.cyclicGraph (g.cycleMember remaining))
  else
    match waves (g.blocked remaining) with
    | .ok later => .ok (g.ready remaining :: later)
    | .error e => .error e
termination_by remaining.length
decreasing_by exact length_filter_not_lt _h

variable {g}

/-- A node is ready when none of the remaining nodes feeds it. -/
theorem isReady_iff {remaining : List Nat} {n : Nat} :
    g.isReady remaining n = true ↔ ∀ p, g.Feeds p n → p ∉ remaining := by
  simp [isReady, mem_predecessors]

theorem mem_ready {remaining : List Nat} {n : Nat} :
    n ∈ g.ready remaining ↔ n ∈ remaining ∧ ∀ p, g.Feeds p n → p ∉ remaining := by
  rw [ready, List.mem_filter, isReady_iff]

theorem mem_blocked {remaining : List Nat} {n : Nat} :
    n ∈ g.blocked remaining ↔ n ∈ remaining ∧ ∃ p, g.Feeds p n ∧ p ∈ remaining := by
  rw [blocked, List.mem_filter, Bool.not_eq_true', ← Bool.not_eq_true, isReady_iff]
  simp

theorem notMem_blocked_of_mem_ready {remaining : List Nat} {n : Nat}
    (h : n ∈ g.ready remaining) : n ∉ g.blocked remaining := by
  intro hb
  obtain ⟨p, hp, hmem⟩ := (mem_blocked.1 hb).2
  exact (mem_ready.1 h).2 p hp hmem

theorem ready_append_blocked_perm (remaining : List Nat) :
    (g.ready remaining ++ g.blocked remaining).Perm remaining :=
  List.filter_append_perm ..

theorem mem_iff_ready_or_blocked {remaining : List Nat} (n : Nat) :
    n ∈ remaining ↔ n ∈ g.ready remaining ∨ n ∈ g.blocked remaining :=
  (ready_append_blocked_perm remaining).mem_iff.symm.trans List.mem_append

/-! ## Counting -/

/-- The number of edges into a node from the remaining ones. -/
def awaited (g : Graph α) (remaining : List Nat) (n : Nat) : Nat :=
  (g.predecessors n).countP fun p => decide (p ∈ remaining)

theorem awaited_nodeIds (n : Nat) : g.awaited g.nodeIds n = (g.afferents n).length := by
  rw [awaited, List.countP_eq_length.2, predecessors, List.length_map]
  intro p hp
  simpa [mem_nodeIds] using (mem_predecessors.1 hp).lt.1

theorem awaited_eq_zero {remaining : List Nat} {n : Nat} :
    g.awaited remaining n = 0 ↔ g.isReady remaining n = true := by
  simp [awaited, isReady, List.countP_eq_zero]

/-- Nodes in two groups are waited for group by group. -/
theorem awaited_eq_add {remaining front back : List Nat}
    (hmem : ∀ p, p ∈ remaining ↔ p ∈ front ∨ p ∈ back) (happart : ∀ p ∈ front, p ∉ back)
    (n : Nat) : g.awaited remaining n = g.awaited front n + g.awaited back n := by
  unfold awaited
  induction g.predecessors n with
  | nil => rfl
  | cons p ps ih =>
    simp only [List.countP_cons, ih, hmem p]
    by_cases hfront : p ∈ front
    · simp [hfront, happart p hfront]
      omega
    · simp [hfront]
      omega

/-- Releasing the successors of a wave counts down, for every node, its predecessors in the
wave. -/
theorem count_successors {wave : List Nat} (hwave : wave.Nodup) (n : Nat) :
    (wave.flatMap g.successors).count n = g.awaited wave n := by
  induction wave with
  | nil => simp [awaited]
  | cons m wave ih =>
    rw [List.nodup_cons] at hwave
    have hfirst : (g.successors m).count n = g.awaited [m] n := by
      have hcount : g.awaited [m] n = (g.predecessors n).count m :=
        List.countP_congr fun p _ => by simp
      rw [hcount, (nodup_successors m).count, (nodup_predecessors n).count]
      exact if_congr (mem_successors.trans mem_predecessors.symm) rfl rfl
    rw [List.flatMap_cons, List.count_append, ih hwave.2, hfirst]
    refine (awaited_eq_add (fun p => ?_) (fun p hp => ?_) n).symm
    · rw [List.mem_cons, List.mem_singleton]
    · rw [List.mem_singleton.1 hp]
      exact hwave.1

theorem getElem?_foldl_release (ns pending : List Nat) (n : Nat) :
    (ns.foldl release pending)[n]? = pending[n]?.map (· - ns.count n) := by
  induction ns generalizing pending with
  | nil => simp
  | cons m ns ih =>
    rw [List.foldl_cons, ih, release, List.getElem?_modify, List.count_cons]
    by_cases hm : m = n
    · subst hm
      simp [Function.comp_def, Nat.sub_sub, Nat.add_comm]
    · simp [hm]

end Graph

namespace Layering

variable {α : Type} {g : Graph α} {l : Layering}

theorem remaining_add (g : Graph α) (l : Layering) (wave : List Nat) :
    (l.add g wave).remaining g = (l.remaining g).filter fun n => decide (n ∉ wave) := by
  rw [remaining, remaining, List.filter_filter]
  refine List.filter_congr fun n _ => ?_
  rw [add, getElem?_foldl_set fun _ => some l.sets.length]
  by_cases hn : n ∈ wave <;> simp [hn]

@[simp]
theorem add_assigned (wave : List Nat) : (l.add g wave).assigned = l.assigned + wave.length := rfl

theorem waves_add (wave : List Nat) : (l.add g wave).waves = l.waves ++ [wave] :=
  List.map_append

/-- The invariant of the counts: every remaining node waits for the remaining nodes that feed it,
and every other node is assigned. -/
structure Counting (g : Graph α) (l : Layering) : Prop where
  pending_eq : ∀ n ∈ l.remaining g, l.pending[n]? = some (g.awaited (l.remaining g) n)
  assigned_add : l.assigned + (l.remaining g).length = g.numNodes

theorem remaining_start : (start g).remaining g = g.nodeIds := by
  refine List.filter_eq_self.2 fun n hn => ?_
  simp [start, Graph.nodeIds, g.mem_nodeIds.1 hn]

/-- At first all nodes remain, and each waits for all of its predecessors. -/
theorem counting_start : Counting g (start g) where
  pending_eq n hn := by
    rw [remaining_start] at hn ⊢
    rw [Graph.awaited_nodeIds]
    simp [start, Graph.nodeIds, g.mem_nodeIds.1 hn]
  assigned_add := by
    rw [remaining_start]
    simp [start, Graph.nodeIds]

namespace Counting

variable (h : Counting g l)
include h

theorem assigned_lt_iff : l.assigned < g.numNodes ↔ l.remaining g ≠ [] := by
  have := h.assigned_add
  rw [← List.length_pos_iff]
  omega

/-- A node is due when none of the remaining nodes feeds it. -/
theorem due_eq : l.due g = g.ready (l.remaining g) := by
  rw [Graph.ready, remaining, List.filter_filter, due]
  refine List.filter_congr fun n hn => ?_
  rw [Bool.eq_iff_iff, Bool.and_eq_true, Bool.and_eq_true, and_comm]
  refine and_congr_left fun hset => ?_
  have hmem : n ∈ l.remaining g := List.mem_filter.2 ⟨hn, hset⟩
  rw [decide_eq_true_iff, h.pending_eq n hmem, Option.some.injEq, Graph.awaited_eq_zero]
  rfl

theorem remaining_add_due : (l.add g (l.due g)).remaining g = g.blocked (l.remaining g) := by
  rw [remaining_add, h.due_eq, Graph.blocked]
  refine List.filter_congr fun n hn => ?_
  simp [Graph.ready, hn]

/-- The counts are right again once the successors of a set are released. -/
theorem add_due : Counting g (l.add g (l.due g)) where
  pending_eq n hn := by
    rw [h.remaining_add_due] at hn ⊢
    have hready : (g.ready (l.remaining g)).Nodup := (List.nodup_range.filter _).filter _
    have hsplit : g.awaited (l.remaining g) n =
        g.awaited (g.ready (l.remaining g)) n + g.awaited (g.blocked (l.remaining g)) n :=
      Graph.awaited_eq_add Graph.mem_iff_ready_or_blocked
        (fun _ => Graph.notMem_blocked_of_mem_ready) n
    rw [add, Graph.getElem?_foldl_release, h.pending_eq n (Graph.mem_blocked.1 hn).1, h.due_eq,
      Graph.count_successors hready, hsplit, Option.map_some, Nat.add_sub_cancel_left]
  assigned_add := by
    have hlength := (Graph.ready_append_blocked_perm (g := g) (l.remaining g)).length_eq
    have := h.assigned_add
    rw [List.length_append] at hlength
    rw [h.remaining_add_due, h.due_eq, add_assigned]
    omega

end Counting

end Layering

/-! ## The table of the nodes -/

/-- Every set stands at its index, and a node is in the set whose index the table has for it. -/
structure Schedule.Filed (s : Schedule) : Prop where
  index_eq : ∀ {k : Nat} {set}, s.sets[k]? = some set → set.index = k
  setOf_iff : ∀ {n k : Nat}, s.setOf[n]? = some (some k) ↔
    ∃ set, s.sets[k]? = some set ∧ n ∈ set.nodes

namespace Layering

variable {α : Type} {g : Graph α} {l : Layering}

theorem filed_start : (start g).Filed where
  index_eq h := by simp [start] at h
  setOf_iff {n k} := by
    by_cases hn : n < g.numNodes <;> simp [start, Graph.nodeIds, hn]

theorem getElem?_sets_add {wave : List Nat} {k : Nat} {set : ExecutionSet} :
    (l.add g wave).sets[k]? = some set ↔
      l.sets[k]? = some set ∨ k = l.sets.length ∧ set = ⟨k, wave⟩ := by
  rw [Layering.add, List.getElem?_append]
  split
  · rename_i hlt
    simp [hlt.ne]
  · rename_i hge
    rw [List.getElem?_eq_none (not_lt.1 hge)]
    grind

/-- A set of remaining nodes is entered in the table. -/
theorem filed_add (h : l.Filed) {wave : List Nat} (hwave : ∀ n ∈ wave, l.setOf[n]? = some none) :
    (l.add g wave).Filed where
  index_eq hset := by
    rcases getElem?_sets_add.1 hset with hold | ⟨rfl, rfl⟩
    · exact h.index_eq hold
    · rfl
  setOf_iff {n k} := by
    have hfresh : n ∈ wave → ∀ set, l.sets[k]? = some set → n ∉ set.nodes := fun hn set hset hmem =>
      absurd ((hwave n hn).symm.trans (h.setOf_iff.2 ⟨set, hset, hmem⟩)) (by simp)
    simp only [getElem?_sets_add, or_and_right, exists_or, ← h.setOf_iff]
    rw [Layering.add, getElem?_foldl_set fun _ => some l.sets.length]
    split
    · rename_i hn
      simp [hwave n hn, hn, eq_comm]
    · rename_i hn
      simp [hn]

end Layering

namespace Graph

variable {α : Type} {g : Graph α}

/-- Counting finds the waves. -/
theorem map_waves_layer {l : Layering} (h : l.Counting g) :
    (g.layer l).map (fun l => l.waves) = (g.waves (l.remaining g)).map (l.waves ++ ·) := by
  induction l using Graph.layer.induct g with
  | case1 l hlt hdue =>
    have hne := h.assigned_lt_iff.1 hlt
    rw [layer, dif_pos hlt, dif_pos hdue, waves, dif_neg hne, dif_pos (h.due_eq ▸ hdue)]
    rfl
  | case2 l hlt hdue ih =>
    have hne := h.assigned_lt_iff.1 hlt
    rw [layer, dif_pos hlt, dif_neg hdue, ih h.add_due, h.remaining_add_due, Layering.waves_add,
      h.due_eq]
    conv_rhs => rw [waves, dif_neg hne, dif_neg (h.due_eq ▸ hdue)]
    cases g.waves (g.blocked (l.remaining g)) with
    | ok later => simp [Except.map]
    | error fault => rfl
  | case3 l hge =>
    have hnil := not_not.1 fun hne => hge (h.assigned_lt_iff.2 hne)
    rw [layer, dif_neg hge, hnil, waves, dif_pos rfl]
    simp [Except.map]

/-- Layering keeps the table right. -/
theorem filed_of_layer {l l' : Layering} (hl : g.layer l = .ok l') (h : l.Filed) : l'.Filed := by
  induction l using Graph.layer.induct g with
  | case1 l hlt hdue =>
    rw [layer, dif_pos hlt, dif_pos hdue] at hl
    contradiction
  | case2 l hlt hdue ih =>
    rw [layer, dif_pos hlt, dif_neg hdue] at hl
    refine ih hl (Layering.filed_add h fun n hn => ?_)
    rw [Layering.due, List.mem_filter, Bool.and_eq_true] at hn
    exact of_decide_eq_true hn.2.1
  | case3 l hge =>
    rw [layer, dif_neg hge] at hl
    exact Except.ok.inj hl ▸ h

/-! ## Schedules -/

/-- What holds without any waves, and with a wave of the ready nodes before those of the blocked
ones, holds of the waves of the remaining nodes. -/
theorem waves_induction {motive : List Nat → List (List Nat) → Prop} (nil : motive [] [])
    (cons : ∀ {remaining later}, g.ready remaining ≠ [] → motive (g.blocked remaining) later →
      motive remaining (g.ready remaining :: later))
    {remaining : List Nat} {waves : List (List Nat)} (h : g.waves remaining = .ok waves) :
    motive remaining waves := by
  induction remaining using Graph.waves.induct g generalizing waves with
  | case1 =>
    rw [Graph.waves, dif_pos rfl, Except.ok.injEq] at h
    subst h
    exact nil
  | case2 remaining hne hready =>
    rw [Graph.waves, dif_neg hne, dif_pos hready] at h
    contradiction
  | case3 remaining hne hready later hlater ih =>
    rw [Graph.waves, dif_neg hne, dif_neg hready] at h
    simp only [hlater, Except.ok.injEq] at h
    subst h
    exact cons hready (ih hlater)
  | case4 remaining hne hready fault hlater ih =>
    rw [Graph.waves, dif_neg hne, dif_neg hready] at h
    simp only [hlater] at h
    contradiction

/-- The waves hold the remaining nodes, each behind the remaining nodes that feed it. -/
theorem waves_spec {remaining : List Nat} {waves : List (List Nat)}
    (h : g.waves remaining = .ok waves) :
    waves.flatten.Perm remaining ∧
      ∀ front n back, waves.flatten = front ++ n :: back →
        ∀ {p}, g.Feeds p n → p ∈ remaining → p ∈ front := by
  refine waves_induction (motive := fun remaining waves => waves.flatten.Perm remaining ∧
    ∀ front n back, waves.flatten = front ++ n :: back →
      ∀ {p}, g.Feeds p n → p ∈ remaining → p ∈ front) ?nil ?cons h
  case nil => exact ⟨.nil, fun front n back hsplit => by simp at hsplit⟩
  case cons =>
    intro remaining later _ ⟨hperm, hfront⟩
    refine ⟨(hperm.append_left _).trans (ready_append_blocked_perm remaining), ?_⟩
    intro front n back hsplit p hfeeds hp
    rw [List.flatten_cons, List.append_eq_append_iff] at hsplit
    -- `n` stands in the first wave, all of whose predecessors are gone, or in a later one
    rcases hsplit with ⟨front', rfl, hsplit⟩ | ⟨back', hwave, hsplit⟩
    · rcases (mem_iff_ready_or_blocked p).1 hp with hr | hb
      · exact List.mem_append_left _ hr
      · exact List.mem_append_right _ (hfront _ _ _ hsplit hfeeds hb)
    · rcases back' with _ | ⟨m, back'⟩
      · rw [List.append_nil] at hwave
        rcases (mem_iff_ready_or_blocked p).1 hp with hr | hb
        · exact hwave ▸ hr
        · exact absurd (hfront [] _ _ hsplit.symm hfeeds hb) (by simp)
      · obtain ⟨rfl, -⟩ := List.cons.inj hsplit
        have hn : n ∈ g.ready remaining := hwave ▸ by simp
        exact absurd hp ((mem_ready.1 hn).2 p hfeeds)

theorem layer_of_schedule {s : Schedule} (h : g.schedule = .ok s) :
    ∃ l, g.layer (.start g) = .ok l ∧ l.toSchedule = s ∧ g.deadNode? = none := by
  rw [schedule] at h
  split at h
  · contradiction
  · rename_i l hl
    split at h
    · contradiction
    · rename_i hdead
      exact ⟨l, hl, Except.ok.inj h, hdead⟩

/-- Layering stops with the waves of the graph. -/
theorem waves_of_layer {l : Layering} (hl : g.layer (.start g) = .ok l) :
    g.waves g.nodeIds = .ok l.waves := by
  have hwaves := map_waves_layer (g := g) Layering.counting_start
  rw [hl, Layering.remaining_start] at hwaves
  cases hgraph : g.waves g.nodeIds with
  | ok waves =>
    rw [hgraph] at hwaves
    exact hwaves.symm
  | error fault => simp [hgraph, Except.map] at hwaves

theorem waves_of_schedule {s : Schedule} (h : g.schedule = .ok s) :
    g.waves g.nodeIds = .ok s.waves ∧ g.deadNode? = none := by
  obtain ⟨l, hl, rfl, hdead⟩ := layer_of_schedule h
  exact ⟨waves_of_layer hl, hdead⟩

theorem filed_of_schedule {s : Schedule} (h : g.schedule = .ok s) : s.Filed := by
  obtain ⟨l, hl, rfl, -⟩ := layer_of_schedule h
  exact filed_of_layer hl Layering.filed_start

/-- The waves of all nodes list every node once, behind all nodes that feed it. -/
theorem linearizes_of_waves {waves : List (List Nat)} (h : g.waves g.nodeIds = .ok waves) :
    Linearizes g.Feeds g.numNodes waves.flatten := by
  obtain ⟨hperm, hfront⟩ := waves_spec h
  refine ⟨hperm.nodup_iff.2 List.nodup_range, fun n => ?_, ?_⟩
  · rw [hperm.mem_iff, mem_nodeIds]
  · intro front n back hsplit p hfeeds
    exact hfront front n back hsplit hfeeds ((g.mem_nodeIds).2 hfeeds.lt.1)

theorem linearizes_of_schedule {s : Schedule} (h : g.schedule = .ok s) :
    Linearizes g.Feeds g.numNodes s.order :=
  linearizes_of_waves (waves_of_schedule h).1

theorem acyclic_of_schedule {s : Schedule} (h : g.schedule = .ok s) : g.Acyclic :=
  acyclic_of_linearizes (linearizes_of_schedule h)

/-- In a scheduled graph a node that nothing leaves is an output. -/
theorem isOutput_of_efferents_eq_nil {s : Schedule} (h : g.schedule = .ok s) {n : Nat}
    (hn : n < g.numNodes) (hnil : g.efferents n = []) : g.isOutput n = true := by
  have hdead := (waves_of_schedule h).2
  rw [deadNode?, List.find?_eq_none] at hdead
  have := hdead n ((g.mem_nodeIds).2 hn)
  simpa [hnil] using this

end Graph

end GraphTape
