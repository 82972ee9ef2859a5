import GraphTape.Proofs.Graph.Layers

/-!
# Cycles

When scheduling comes to a halt, every remaining node has a remaining predecessor, so a walk from
node to predecessor cannot end before it meets a node for the second time. That node leads back to
itself, and it is the one that is reported: whatever else remains may only lie behind a cycle.

* `Graph.Trail`: the walk, with the nodes that it visits. It has no way to break off.
* `Graph.exists_trail`, `Graph.Trail.transGen`: the walk is such a trail, and ends on a cycle.
* `Layering.Stalled`: the states from which a cycle is reported.
* `Graph.transGen_of_layer`, `Graph.acyclic_of_layer`: layering reports a node on a cycle, and
  without a report there is no cycle.
* `Graph.schedule_reports_cycles`: which graphs are reported to have a cycle, and how.
-/

namespace GraphTape

namespace Graph

variable {α : Type} {g : Graph α} {remaining unvisited trail : List Nat} {m n : Nat}

/-! ## The walk back -/

/-- The walk back from `n` visits the nodes of the trail, each for the first time, and ends at a
node `m` that it has visited. Every node of the trail is left for its first remaining
predecessor. -/
inductive Trail (g : Graph α) (remaining : List Nat) : List Nat → Nat → List Nat → Nat → Prop
  | met {unvisited : List Nat} {n : Nat} (hn : n ∉ unvisited) : Trail g remaining unvisited n [] n
  | back {unvisited trail : List Nat} {m n p : Nat} (hn : n ∈ unvisited)
      (hp : (g.predecessors n).find? (fun p => decide (p ∈ remaining)) = some p)
      (hrest : Trail g remaining (unvisited.erase n) p trail m) :
      Trail g remaining unvisited n (n :: trail) m

/-- If every remaining node has a remaining predecessor, the walk does not break off. -/
theorem exists_trail (hback : ∀ m ∈ remaining, ∃ p ∈ remaining, g.Feeds p m)
    (hn : n ∈ remaining) (unvisited : List Nat) :
    ∃ trail, g.Trail remaining unvisited n trail (g.walkBack remaining unvisited n) := by
  induction unvisited, n using Graph.walkBack.induct g remaining with
  | case1 unvisited n hmem p hp ih =>
    rw [walkBack, dif_pos hmem, hp]
    obtain ⟨trail, htrail⟩ := ih (by simpa using List.find?_some hp)
    exact ⟨n :: trail, .back hmem hp htrail⟩
  | case2 unvisited n hmem hnone =>
    obtain ⟨p, hp, hfeeds⟩ := hback n hn
    exact absurd hp (by simpa using List.find?_eq_none.1 hnone p (mem_predecessors.2 hfeeds))
  | case3 unvisited n hmem =>
    rw [walkBack, dif_neg hmem]
    exact ⟨[], .met hmem⟩

namespace Trail

/-- The walk visits every node at most once. -/
theorem length_le (h : g.Trail remaining unvisited n trail m) :
    trail.length ≤ unvisited.length := by
  induction h with
  | met => exact Nat.zero_le _
  | back hn _ _ ih =>
    have hpos := List.length_pos_of_mem hn
    rw [List.length_erase_of_mem hn] at ih
    rw [List.length_cons]
    omega

/-- The walk ends on a cycle. Its invariant is that every node that has come up can be reached
from the current one. -/
theorem transGen (h : g.Trail remaining unvisited n trail m) (hn : n < g.numNodes)
    (hnodup : unvisited.Nodup)
    (hvisited : ∀ m < g.numNodes, m ∉ unvisited → Relation.TransGen g.Feeds n m) :
    Relation.TransGen g.Feeds m m := by
  induction h with
  | @met unvisited n hmem => exact hvisited n hn hmem
  | @back unvisited trail m n p hmem hp _ ih =>
    have hfeeds : g.Feeds p n := mem_predecessors.1 (List.mem_of_find?_eq_some hp)
    refine ih hfeeds.lt.1 (hnodup.erase n) fun q hq hout => ?_
    by_cases hqn : q = n
    · exact hqn ▸ .single hfeeds
    · exact .head hfeeds (hvisited q hq fun h => hout ((List.mem_erase_of_ne hqn).2 h))

end Trail

/-- When no remaining node is ready, a trail leads from the first of them to the node that is
reported. -/
theorem exists_trail_cycleMember (hne : remaining ≠ []) (hready : g.ready remaining = []) :
    ∃ first trail, remaining.head? = some first ∧
      g.Trail remaining g.nodeIds first trail (g.cycleMember remaining) := by
  have hback : ∀ m ∈ remaining, ∃ p ∈ remaining, g.Feeds p m := by
    intro m hm
    by_contra hnone
    push Not at hnone
    have hmem : m ∈ g.ready remaining := mem_ready.2 ⟨hm, fun p hfeeds hp => hnone p hp hfeeds⟩
    rw [hready] at hmem
    exact absurd hmem List.not_mem_nil
  cases remaining with
  | nil => exact absurd rfl hne
  | cons first rest =>
    obtain ⟨trail, htrail⟩ := exists_trail hback List.mem_cons_self g.nodeIds
    exact ⟨first, trail, rfl, htrail⟩

theorem acyclic_of_layer {l : Layering} (hl : g.layer (.start g) = .ok l) : g.Acyclic :=
  acyclic_of_linearizes (linearizes_of_waves (waves_of_layer hl))

end Graph

/-! ## Where scheduling comes to a halt -/

namespace Layering

variable {α : Type} {g : Graph α} {l : Layering}

/-- The states that layering goes through, one for each set that is added. -/
inductive Reached (g : Graph α) : Layering → Prop
  | start : Reached g (.start g)
  | add {l : Layering} (h : Reached g l) (hlt : l.assigned < g.numNodes) (hdue : l.due g ≠ []) :
      Reached g (l.add g (l.due g))

/-- Layering has come to a state in which nodes are left and none of them is due. -/
structure Stalled (g : Graph α) (l : Layering) : Prop where
  reached : Reached g l
  assigned_lt : l.assigned < g.numNodes
  due_eq : l.due g = []

theorem Reached.counting (h : Reached g l) : Counting g l := by
  induction h with
  | start => exact counting_start
  | add _ _ _ ih => exact ih.add_due

theorem Reached.layer_eq (h : Reached g l) : g.layer (.start g) = g.layer l := by
  induction h with
  | start => rfl
  | @add l _ hlt hdue ih => rw [ih, Graph.layer, dif_pos hlt, dif_neg hdue]

namespace Stalled

variable (h : Stalled g l)
include h

theorem layer_eq : g.layer (.start g) = .error (.cyclicGraph (g.cycleMember (l.remaining g))) := by
  rw [h.reached.layer_eq, Graph.layer, dif_pos h.assigned_lt, dif_pos h.due_eq]

/-- Nodes remain, and none of them is ready. -/
theorem ready_eq : l.remaining g ≠ [] ∧ g.ready (l.remaining g) = [] :=
  ⟨h.reached.counting.assigned_lt_iff.1 h.assigned_lt,
    h.reached.counting.due_eq.symm.trans h.due_eq⟩

end Stalled

theorem exists_stalled {fault : Error α} (hl : g.layer (.start g) = .error fault) :
    ∃ l, Stalled g l ∧ fault = .cyclicGraph (g.cycleMember (l.remaining g)) := by
  have hrun : ∀ l, Reached g l → g.layer l = .error fault →
      ∃ l, Stalled g l ∧ fault = .cyclicGraph (g.cycleMember (l.remaining g)) := by
    intro l
    induction l using Graph.layer.induct g with
    | case1 l hlt hdue =>
      intro hreached hlayer
      rw [Graph.layer, dif_pos hlt, dif_pos hdue] at hlayer
      exact ⟨l, ⟨hreached, hlt, hdue⟩, (Except.error.inj hlayer).symm⟩
    | case2 l hlt hdue ih =>
      intro hreached hlayer
      rw [Graph.layer, dif_pos hlt, dif_neg hdue] at hlayer
      exact ih (hreached.add hlt hdue) hlayer
    | case3 l hge =>
      intro _ hlayer
      rw [Graph.layer, dif_neg hge] at hlayer
      contradiction
  exact hrun _ .start hl

end Layering

namespace Graph

variable {α : Type} {g : Graph α}

/-- In a stalled state a trail leads from the first remaining node to the one that is reported. -/
theorem exists_trail_of_stalled {l : Layering} (h : Layering.Stalled g l) :
    ∃ first trail, (l.remaining g).head? = some first ∧
      g.Trail (l.remaining g) g.nodeIds first trail (g.cycleMember (l.remaining g)) :=
  exists_trail_cycleMember h.ready_eq.1 h.ready_eq.2

theorem transGen_of_stalled {l : Layering} (h : Layering.Stalled g l) :
    Relation.TransGen g.Feeds (g.cycleMember (l.remaining g)) (g.cycleMember (l.remaining g)) := by
  obtain ⟨first, trail, hfirst, htrail⟩ := exists_trail_of_stalled h
  have hlt : first < g.numNodes :=
    g.mem_nodeIds.1 (List.mem_of_mem_filter (List.mem_of_mem_head? hfirst))
  exact htrail.transGen hlt List.nodup_range fun m hm hout => absurd (g.mem_nodeIds.2 hm) hout

/-- Layering reports nothing but a node on a cycle. -/
theorem transGen_of_layer {fault : Error α} (hl : g.layer (.start g) = .error fault) :
    ∃ n, fault = .cyclicGraph n ∧ Relation.TransGen g.Feeds n n := by
  obtain ⟨l, hstalled, rfl⟩ := Layering.exists_stalled hl
  exact ⟨_, rfl, transGen_of_stalled hstalled⟩

/-- A cycle is reported where layering comes to a halt, whatever else is wrong with the graph. -/
theorem schedule_eq_cyclicGraph_iff {n : Nat} : g.schedule = .error (.cyclicGraph n) ↔
    ∃ l, Layering.Stalled g l ∧ g.cycleMember (l.remaining g) = n := by
  constructor
  · intro hs
    rw [schedule] at hs
    split at hs
    · rename_i fault hl
      obtain rfl := Except.error.inj hs
      obtain ⟨l, hstalled, heq⟩ := Layering.exists_stalled hl
      exact ⟨l, hstalled, (Error.cyclicGraph.inj heq).symm⟩
    · split at hs <;> simp at hs
  · rintro ⟨l, hstalled, rfl⟩
    rw [schedule, hstalled.layer_eq]

/-- A dead node is reported only if layering has come to its end. -/
theorem acyclic_of_schedule_eq_deadNode {n : Nat} {name : String}
    (hs : g.schedule = .error (.deadNode n name)) : g.Acyclic := by
  rw [schedule] at hs
  split at hs
  · rename_i fault hl
    obtain ⟨m, rfl, -⟩ := transGen_of_layer hl
    simp at hs
  · rename_i l hl
    exact acyclic_of_layer hl

/-- **Scheduling reports a cycle exactly if there is one.** A graph is reported to have a cycle
exactly if some path along its edges comes back to where it started, and a dead node is reported
only of graphs without a cycle. The report comes from the state in which layering is stalled. In
that state a node remains, and the walk back from the first one that does follows a trail of
distinct nodes, at most as many as the graph has, to the node that is reported: it always finds a
remaining predecessor, until it meets a node for the second time. That node lies on a cycle. -/
theorem schedule_reports_cycles (g : Graph α) :
    ((∃ n, g.schedule = .error (.cyclicGraph n)) ↔ ∃ n, Relation.TransGen g.Feeds n n) ∧
    (∀ n name, g.schedule = .error (.deadNode n name) → g.Acyclic) ∧
    (∀ n, g.schedule = .error (.cyclicGraph n) ↔
      ∃ l, Layering.Stalled g l ∧ g.cycleMember (l.remaining g) = n) ∧
    ∀ l, Layering.Stalled g l → ∃ first trail n, (l.remaining g).head? = some first ∧
      g.Trail (l.remaining g) g.nodeIds first trail n ∧ trail.length ≤ g.numNodes ∧
      g.cycleMember (l.remaining g) = n ∧ Relation.TransGen g.Feeds n n := by
  refine ⟨⟨fun ⟨n, hs⟩ => ?_, fun ⟨n, hcycle⟩ => ?_⟩,
    fun n name => acyclic_of_schedule_eq_deadNode, fun n => schedule_eq_cyclicGraph_iff,
    fun l hstalled => ?_⟩
  · obtain ⟨l, hstalled, rfl⟩ := schedule_eq_cyclicGraph_iff.1 hs
    exact ⟨_, transGen_of_stalled hstalled⟩
  · cases hl : g.layer (.start g) with
    | ok l => exact absurd hcycle (acyclic_of_layer hl n)
    | error fault =>
      obtain ⟨l, hstalled, -⟩ := Layering.exists_stalled hl
      exact ⟨_, schedule_eq_cyclicGraph_iff.2 ⟨l, hstalled, rfl⟩⟩
  · obtain ⟨first, trail, hfirst, htrail⟩ := exists_trail_of_stalled hstalled
    have hlength := htrail.length_le
    rw [nodeIds, List.length_range] at hlength
    exact ⟨first, trail, _, hfirst, htrail, hlength, rfl, transGen_of_stalled hstalled⟩

/-- A graph with a cycle of the nodes 1 and 2. Node 0 lies behind the cycle and is dead, and node 3
stands before it. -/
def whirl : Graph ℚ where
  nodes :=
    #[{ name := "behind", width := 1, activation := .identity },
      { name := "first", width := 1, activation := .identity },
      { name := "second", width := 1, activation := .identity, isOutput := true },
      { name := "in", width := 1, activation := .identity }]
  edges :=
    #[⟨3, 1, ⟨.matrix 1 1, 0⟩⟩, ⟨1, 2, ⟨.matrix 1 1, 1⟩⟩, ⟨2, 1, ⟨.matrix 1 1, 2⟩⟩,
      ⟨2, 0, ⟨.matrix 1 1, 3⟩⟩]
  nodes_pos := by simp
  width_pos := by simp
  ends_lt := by simp
  ends_inj := ends_inj_of_nodup (by decide)

theorem schedule_reports_cycles_whirl :
    whirl.schedule = .error (.cyclicGraph 2) ∧ whirl.deadNode? = some 0 ∧
      Relation.TransGen whirl.Feeds 2 2 := by
  have hs : whirl.schedule = .error (.cyclicGraph 2) := by cbv
  obtain ⟨-, -, hiff, hwalk⟩ := schedule_reports_cycles whirl
  obtain ⟨l, hstalled, hmember⟩ := (hiff 2).1 hs
  obtain ⟨-, -, n, -, -, -, hn, hcycle⟩ := hwalk l hstalled
  obtain rfl := hn.symm.trans hmember
  exact ⟨hs, by decide, hcycle⟩

end Graph

end GraphTape
