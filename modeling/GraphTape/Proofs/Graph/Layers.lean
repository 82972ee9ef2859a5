import GraphTape.Proofs.Graph.Waves
import GraphTape.Proofs.Scalar.Exact
import Mathlib.Order.Bounds.Defs

/-!
# Layers

The waves of a schedule are layers: no node could be assigned earlier than it is. A node stands
behind all of its predecessors, and right behind one of them unless it stands in the first wave,
so the position of its wave is the length of the longest path that ends in it. A graph has a
schedule exactly if it has no cycle and every node that nothing leaves is an output.

* `Graph.Path`: paths along the edges, with their lengths.
* `Graph.Layered`: waves that are as early as the edges allow (`Graph.layered_waves`).
* `Graph.exists_schedule_iff`: the graphs that have a schedule.
* `Graph.schedule_layers_by_longest_path`: the layers of a schedule.
-/

namespace GraphTape

namespace Graph

variable {α : Type}

/-- A path along `k` edges leads from `p` to `n`. -/
inductive Path (g : Graph α) (p : Nat) : Nat → Nat → Prop
  | nil : Path g p p 0
  | concat {m n k : Nat} (hpath : Path g p m k) (hfeeds : g.Feeds m n) : Path g p n (k + 1)

variable {g : Graph α}

/-! ## Waves as early as possible -/

/-- Waves of some remaining nodes. Every node stands behind the remaining nodes that feed it, and
right behind one of them unless it stands in the first wave. -/
structure Layered (g : Graph α) (remaining : List Nat) (waves : List (List Nat)) : Prop where
  ne_nil : ∀ wave ∈ waves, wave ≠ []
  sublist : ∀ wave ∈ waves, wave.Sublist remaining
  behind : ∀ {k : Nat} {wave}, waves[k]? = some wave → ∀ n ∈ wave, ∀ p, g.Feeds p n →
    p ∈ remaining → ∃ j < k, ∃ front, waves[j]? = some front ∧ p ∈ front
  tight : ∀ {k : Nat} {wave}, waves[k + 1]? = some wave → ∀ n ∈ wave,
    ∃ front, waves[k]? = some front ∧ ∃ p ∈ front, g.Feeds p n

/-- The ready nodes come as one more wave before those of the blocked nodes. -/
theorem Layered.cons {remaining : List Nat} {later : List (List Nat)}
    (h : Layered g (g.blocked remaining) later) (hready : g.ready remaining ≠ []) :
    Layered g remaining (g.ready remaining :: later) where
  ne_nil wave hwave := by
    rcases List.mem_cons.1 hwave with rfl | hwave
    · exact hready
    · exact h.ne_nil wave hwave
  sublist wave hwave := by
    rcases List.mem_cons.1 hwave with rfl | hwave
    · exact List.filter_sublist
    · exact (h.sublist wave hwave).trans List.filter_sublist
  behind {k wave} hk n hn p hp hmem := by
    cases k with
    | zero =>
      obtain rfl := Option.some.inj hk
      exact absurd hmem ((mem_ready.1 hn).2 p hp)
    | succ k =>
      by_cases hpready : p ∈ g.ready remaining
      · exact ⟨0, Nat.succ_pos k, _, rfl, hpready⟩
      · have hblocked : p ∈ g.blocked remaining :=
          ((mem_iff_ready_or_blocked p).1 hmem).resolve_left hpready
        obtain ⟨j, hj, front, hfront, hpfront⟩ := h.behind hk n hn p hp hblocked
        exact ⟨j + 1, Nat.succ_lt_succ hj, front, hfront, hpfront⟩
  tight {k wave} hk n hn := by
    cases k with
    | zero =>
      -- a blocked node of the second wave is blocked by the first wave alone
      have hmem := (h.sublist wave (List.mem_of_getElem? hk)).subset hn
      obtain ⟨-, p, hp, hpmem⟩ := mem_blocked.1 hmem
      rcases (mem_iff_ready_or_blocked p).1 hpmem with hpready | hpblocked
      · exact ⟨_, rfl, p, hpready, hp⟩
      · obtain ⟨j, hj, -⟩ := h.behind hk n hn p hp hpblocked
        exact absurd hj (Nat.not_lt_zero j)
    | succ k => exact h.tight hk n hn

theorem layered_waves {remaining : List Nat} {waves : List (List Nat)}
    (h : g.waves remaining = .ok waves) : Layered g remaining waves :=
  waves_induction ⟨by simp, by simp, by simp, by simp⟩ (fun hready hlater => hlater.cons hready) h

/-! ## Graphs that have a schedule -/

/-- Among remaining nodes of an acyclic graph there is one that none of the others feeds. -/
theorem Acyclic.ready_ne_nil (hg : g.Acyclic) {remaining : List Nat} (hne : remaining ≠ []) :
    g.ready remaining ≠ [] := by
  obtain ⟨n, hn, hmin⟩ := hg.wellFounded.has_min {n | n ∈ remaining}
    (List.exists_mem_of_ne_nil remaining hne)
  exact List.ne_nil_of_mem (mem_ready.2 ⟨hn, fun p hp hmem => hmin p hmem hp⟩)

theorem Acyclic.exists_waves (hg : g.Acyclic) (remaining : List Nat) :
    ∃ waves, g.waves remaining = .ok waves := by
  induction remaining using Graph.waves.induct g with
  | case1 => exact ⟨[], by rw [Graph.waves, dif_pos rfl]⟩
  | case2 remaining hne hready => exact absurd hready (hg.ready_ne_nil hne)
  | case3 remaining hne hready later hlater ih =>
    exact ⟨_, by rw [Graph.waves, dif_neg hne, dif_neg hready, hlater]⟩
  | case4 remaining hne hready fault hlater ih =>
    obtain ⟨waves, hwaves⟩ := ih
    rw [hwaves] at hlater
    contradiction

theorem exists_schedule_iff : (∃ s, g.schedule = .ok s) ↔
    g.Acyclic ∧ ∀ n < g.numNodes, g.efferents n = [] → g.isOutput n = true := by
  constructor
  · rintro ⟨s, hs⟩
    exact ⟨acyclic_of_schedule hs, fun n hn => isOutput_of_efferents_eq_nil hs hn⟩
  · rintro ⟨hg, houtput⟩
    have hdead : g.deadNode? = none := by
      rw [deadNode?, List.find?_eq_none]
      intro n hn
      have := houtput n (g.mem_nodeIds.1 hn)
      simpa [imp_not_comm] using this
    obtain ⟨waves, hwaves⟩ := hg.exists_waves g.nodeIds
    have hlayer := map_waves_layer (g := g) Layering.counting_start
    rw [Layering.remaining_start, hwaves] at hlayer
    cases hl : g.layer (.start g) with
    | ok l => exact ⟨l.toSchedule, by rw [schedule, hl, hdead]⟩
    | error fault => simp [hl, Except.map] at hlayer

/-! ## The wave of a node -/

section Waves

variable {s : Schedule} (hs : g.schedule = .ok s)
include hs

/-- The table of the nodes has the position of the wave that holds a node. -/
theorem getElem?_setOf {k n : Nat} {wave : List Nat} (hk : s.waves[k]? = some wave)
    (hn : n ∈ wave) : s.setOf[n]? = some (some k) := by
  rw [Schedule.waves, List.getElem?_map] at hk
  obtain ⟨set, hset, rfl⟩ := Option.map_eq_some_iff.1 hk
  exact (filed_of_schedule hs).setOf_iff.2 ⟨set, hset, hn⟩

theorem waveOf_eq {k n : Nat} {wave : List Nat} (hk : s.waves[k]? = some wave) (hn : n ∈ wave) :
    s.waveOf n = k := by
  rw [Schedule.waveOf, getElem?_setOf hs hk hn]
  rfl

theorem exists_wave {n : Nat} (hn : n < g.numNodes) :
    ∃ wave, s.waves[s.waveOf n]? = some wave ∧ n ∈ wave := by
  have hmem := ((linearizes_of_schedule hs).mem_iff n).2 hn
  obtain ⟨wave, hwave, hnwave⟩ := List.mem_flatten.1 hmem
  obtain ⟨k, hk⟩ := List.getElem?_of_mem hwave
  exact ⟨wave, by rw [waveOf_eq hs hk hnwave, hk], hnwave⟩

theorem waveOf_lt_of_feeds {p n : Nat} (h : g.Feeds p n) : s.waveOf p < s.waveOf n := by
  obtain ⟨wave, hwave, hn⟩ := exists_wave hs h.lt.2
  obtain ⟨j, hj, front, hfront, hp⟩ := (layered_waves (waves_of_schedule hs).1).behind hwave n hn p
    h (g.mem_nodeIds.2 h.lt.1)
  rwa [waveOf_eq hs hfront hp]

theorem exists_feeds_of_waveOf {n k : Nat} (hn : n < g.numNodes) (hk : s.waveOf n = k + 1) :
    ∃ p, g.Feeds p n ∧ s.waveOf p = k := by
  obtain ⟨wave, hwave, hmem⟩ := exists_wave hs hn
  rw [hk] at hwave
  obtain ⟨front, hfront, p, hp, hfeeds⟩ :=
    (layered_waves (waves_of_schedule hs).1).tight hwave n hmem
  exact ⟨p, hfeeds, waveOf_eq hs hfront hp⟩

/-- Along a path the waves go up with every edge. -/
theorem waveOf_add_le_of_path {p n k : Nat} (h : g.Path p n k) :
    s.waveOf p + k ≤ s.waveOf n := by
  induction h with
  | nil => exact Nat.le_refl _
  | concat _ hfeeds ih =>
    have := waveOf_lt_of_feeds hs hfeeds
    omega

/-- From the first wave a path leads to a node that takes in every wave in between. -/
theorem exists_path {n k : Nat} (hn : n < g.numNodes) (hk : s.waveOf n = k) :
    ∃ p, g.Path p n k := by
  induction k generalizing n with
  | zero => exact ⟨n, .nil⟩
  | succ k ih =>
    obtain ⟨m, hfeeds, hm⟩ := exists_feeds_of_waveOf hs hn hk
    obtain ⟨p, hpath⟩ := ih hfeeds.lt.1 hm
    exact ⟨p, hpath.concat hfeeds⟩

end Waves

/-- **A schedule layers a graph by its longest paths.** A graph has a schedule exactly if it has
no cycle and every node that nothing leaves is an output. The table of a schedule has for each node
the index of the set that it is in, which is the length of the longest path that ends in the node.
The sets have their positions as indices. No set is empty, a set lists its nodes by ascending id,
and behind the first set each of them has a predecessor in the set before. The order of the schedule
lists every node once, the source of an edge before its destination. -/
theorem schedule_layers_by_longest_path (g : Graph α) :
    ((∃ s, g.schedule = .ok s) ↔
      g.Acyclic ∧ ∀ n < g.numNodes, g.efferents n = [] → g.isOutput n = true) ∧
    ∀ s, g.schedule = .ok s →
      (∀ n < g.numNodes, s.setOf[n]? = some (some (s.waveOf n)) ∧ s.waveOf n < s.length ∧
        IsGreatest {k | ∃ p, g.Path p n k} (s.waveOf n)) ∧
      (∀ (k : Nat) set, s.sets[k]? = some set →
        set.index = k ∧ set.nodes ≠ [] ∧ set.nodes.Pairwise (· < ·) ∧
        (∀ n, n ∈ set.nodes ↔ n < g.numNodes ∧ s.waveOf n = k) ∧
        (0 < k → ∀ n ∈ set.nodes, ∃ p, g.Feeds p n ∧ s.waveOf p = k - 1)) ∧
      s.order.Nodup ∧ (∀ n, n ∈ s.order ↔ n < g.numNodes) ∧
      ∀ e < g.numEdges, s.order.idxOf (g.src e) < s.order.idxOf (g.dst e) := by
  refine ⟨exists_schedule_iff, fun s hs => ?_⟩
  have hlinear := linearizes_of_schedule hs
  have hlayered := layered_waves (waves_of_schedule hs).1
  refine ⟨fun n hn => ?_, fun k set hset => ?_, hlinear.nodup, hlinear.mem_iff, fun e he => ?_⟩
  · obtain ⟨wave, hwave, hmem⟩ := exists_wave hs hn
    refine ⟨getElem?_setOf hs hwave hmem, ?_, exists_path hs hn rfl, ?_⟩
    · have hlt := (List.getElem?_eq_some_iff.1 hwave).1
      rwa [Schedule.waves, List.length_map] at hlt
    · rintro k ⟨p, hpath⟩
      exact (Nat.le_add_left _ _).trans (waveOf_add_le_of_path hs hpath)
  · have hk : s.waves[k]? = some set.nodes := by rw [Schedule.waves, List.getElem?_map, hset]; rfl
    have hwave := List.mem_of_getElem? hk
    have hmem : ∀ n, n ∈ set.nodes ↔ n < g.numNodes ∧ s.waveOf n = k := fun n => by
      constructor
      · intro hn
        exact ⟨g.mem_nodeIds.1 ((hlayered.sublist _ hwave).subset hn), waveOf_eq hs hk hn⟩
      · rintro ⟨hn, rfl⟩
        obtain ⟨wave, hother, hn⟩ := exists_wave hs hn
        obtain rfl := Option.some.inj (hother.symm.trans hk)
        exact hn
    refine ⟨(filed_of_schedule hs).index_eq hset, hlayered.ne_nil _ hwave,
      List.pairwise_lt_range.sublist (hlayered.sublist _ hwave), hmem, fun hpos n hn => ?_⟩
    obtain ⟨hlt, hwaveOf⟩ := (hmem n).1 hn
    exact exists_feeds_of_waveOf hs hlt (by omega)
  · exact hlinear.idxOf_lt (g.dst_lt he) ⟨e, he, rfl, rfl⟩

/-! ## A graph against the order of its ids -/

/-- Three nodes whose ids run against the edges. The last node feeds the other two, and the
second one feeds the first. -/
def descent : Graph ℚ where
  nodes :=
    #[{ name := "out", width := 1, activation := .identity, isOutput := true,
        bias := some ⟨.vector 1, 3⟩ },
      { name := "hidden", width := 3, activation := .identity, bias := some ⟨.vector 3, 4⟩ },
      { name := "in", width := 2, activation := .identity }]
  edges :=
    #[⟨1, 0, ⟨.matrix 3 1, 0⟩⟩, ⟨2, 1, ⟨.matrix 2 3, 1⟩⟩, ⟨2, 0, ⟨.matrix 2 1, 2⟩⟩]
  nodes_pos := by simp
  width_pos := by simp
  ends_lt := by simp
  ends_inj := ends_inj_of_nodup (by decide)

end Graph

/-- The nodes of `Graph.descent` by descending id, one set for each. -/
def Schedule.descent : Schedule where
  sets := [⟨0, [2]⟩, ⟨1, [1]⟩, ⟨2, [0]⟩]
  setOf := [some 2, some 1, some 0]

namespace Graph

theorem schedule_descent : descent.schedule = .ok .descent := by cbv

theorem schedule_layers_by_longest_path_descent :
    ∃ s, descent.schedule = .ok s ∧ s.waves = [[2], [1], [0]] ∧
      IsGreatest {k | ∃ p, descent.Path p 0 k} 2 ∧ s.order.idxOf 2 < s.order.idxOf 0 := by
  obtain ⟨hlongest, -, -, -, hedges⟩ :=
    (schedule_layers_by_longest_path descent).2 _ schedule_descent
  exact ⟨_, schedule_descent, rfl, (hlongest 0 (by decide)).2.2, hedges 2 (by decide)⟩

end Graph

end GraphTape
