import GraphTape.Proofs.Graph.Order
import GraphTape.Tape.Reverse

/-!
# The order of a reverse sweep

A reverse sweep takes nodes from a queue that a node joins when its last successor settles. The
invariant of the queue is `Settling`: the counts are those of the edges that lead to an unsettled
node, and the nodes whose count is zero are the settled ones and those in the queue. When all
nodes have settled, each has done so after all of its successors (`linearizes_settle`), and without
a cycle all nodes do settle (`Acyclic.length_settle`). No count is taken below zero on the way
(`settle?_eq`).
-/

namespace GraphTape.Graph

variable {α : Type} {g : Graph α}

/-- The number of edges from a node to those that are not yet settled. -/
def waiting (g : Graph α) (done : List Nat) (p : Nat) : Nat :=
  (g.efferents p).countP fun e => decide (g.dst e ∉ done)

theorem waiting_nil (p : Nat) : g.waiting [] p = (g.efferents p).length :=
  List.countP_eq_length.2 (by simp)

theorem waiting_eq_zero {done : List Nat} {p : Nat} :
    g.waiting done p = 0 ↔ ∀ q, g.Feeds p q → q ∈ done := by
  rw [waiting, List.countP_eq_zero]
  constructor
  · rintro h q ⟨e, he, hsrc, rfl⟩
    simpa using h e (g.mem_efferents.2 ⟨he, hsrc⟩)
  · intro h e he
    simpa using h _ (feeds_of_mem_efferents he)

/-- At most one edge leads from `p` to `n`. -/
theorem countP_dst (p n : Nat) : ((g.efferents p).countP fun e => decide (g.dst e = n)) =
    if p ∈ g.predecessors n then 1 else 0 := by
  have hnodup : ((g.efferents p).filter fun e => decide (g.dst e = n)).Nodup :=
    (nodup_efferents p).filter _
  have hmem : ∀ e, e ∈ (g.efferents p).filter (fun e => decide (g.dst e = n)) ↔
      e < g.numEdges ∧ g.src e = p ∧ g.dst e = n := by
    intro e
    rw [List.mem_filter, mem_efferents, decide_eq_true_iff, and_assoc]
  rw [List.countP_eq_length_filter]
  split
  · rename_i hp
    obtain ⟨e, he, hsrc, hdst⟩ := mem_predecessors.1 hp
    have hall : ∀ f, f ∈ (g.efferents p).filter (fun e => decide (g.dst e = n)) ↔ f ∈ [e] := by
      intro f
      rw [hmem, List.mem_singleton]
      constructor
      · rintro ⟨hf, hfsrc, hfdst⟩
        exact eq_of_src_eq_of_dst_eq hf he (hfsrc.trans hsrc.symm) (hfdst.trans hdst.symm)
      · rintro rfl
        exact ⟨he, hsrc, hdst⟩
    exact ((List.perm_ext_iff_of_nodup hnodup (List.nodup_singleton e)).2 hall).length_eq
  · rename_i hp
    refine List.length_eq_zero_iff.2 (List.eq_nil_iff_forall_not_mem.2 fun e he => hp ?_)
    obtain ⟨hlt, hsrc, hdst⟩ := (hmem e).1 he
    exact mem_predecessors.2 ⟨e, hlt, hsrc, hdst⟩

/-- When one more node settles, each of its predecessors waits for one edge less. -/
theorem waiting_concat {done : List Nat} {n : Nat} (hn : n ∉ done) (p : Nat) :
    g.waiting done p = g.waiting (done ++ [n]) p + if p ∈ g.predecessors n then 1 else 0 := by
  rw [← countP_dst, waiting, waiting]
  induction g.efferents p with
  | nil => rfl
  | cons e es ih =>
    simp only [List.countP_cons, ih, List.mem_append, List.mem_singleton]
    by_cases hdst : g.dst e = n
    · simp [hdst, hn]
      omega
    · simp [hdst]
      omega

theorem countDown_of_pos {pending queue : List Nat} {p k : Nat} (h : pending[p]? = some (k + 1)) :
    countDown (pending, queue) p =
      (pending.set p k, if k = 0 then queue ++ [p] else queue) := by
  cases k with
  | zero => simp [countDown, h]
  | succ k => simp [countDown, h]

/-- Counting down distinct nodes lowers each count by one and queues those that reach zero. -/
theorem foldl_countDown {ps : List Nat} (hnodup : ps.Nodup) (pending queue : List Nat)
    (hpos : ∀ p ∈ ps, ∃ k, pending[p]? = some (k + 1)) :
    (∀ p, (ps.foldl countDown (pending, queue)).1[p]? =
      if p ∈ ps then pending[p]?.map (· - 1) else pending[p]?) ∧
    (ps.foldl countDown (pending, queue)).2 =
      queue ++ ps.filter fun p => decide (pending[p]? = some 1) := by
  induction ps generalizing pending queue with
  | nil => simp
  | cons p ps ih =>
    obtain ⟨k, hk⟩ := hpos p List.mem_cons_self
    rw [List.nodup_cons] at hnodup
    have hother : ∀ q, q ≠ p → (pending.set p k)[q]? = pending[q]? :=
      fun q hq => List.getElem?_set_ne hq.symm
    have hne : ∀ q ∈ ps, q ≠ p := fun q hq heq => hnodup.1 (heq ▸ hq)
    obtain ⟨hcounts, hqueue⟩ := ih hnodup.2 (pending.set p k)
      (if k = 0 then queue ++ [p] else queue)
      fun q hq => hother q (hne q hq) ▸ hpos q (List.mem_cons_of_mem p hq)
    rw [List.foldl_cons, countDown_of_pos hk]
    refine ⟨fun q => ?_, ?_⟩
    · rw [hcounts]
      by_cases hq : q = p
      · subst hq
        have hlt := (List.getElem?_eq_some_iff.1 hk).1
        rw [if_neg hnodup.1, if_pos List.mem_cons_self, hk, List.getElem?_set_self hlt]
        rfl
      · simp only [List.mem_cons, hq, false_or, hother q hq]
    · have hfilter : ps.filter (fun q => decide ((pending.set p k)[q]? = some 1)) =
          ps.filter fun q => decide (pending[q]? = some 1) :=
        List.filter_congr fun q hq => by rw [hother q (hne q hq)]
      rw [hqueue, hfilter, List.filter_cons]
      cases k with
      | zero => simp [hk]
      | succ k => simp [hk]

/-- The invariant of the queue, once the nodes `done` have settled in this order. -/
structure Settling (g : Graph α) (done pending queue : List Nat) : Prop where
  nodup : (done ++ queue).Nodup
  pending_eq : ∀ p < g.numNodes, pending[p]? = some (g.waiting done p)
  mem_iff : ∀ p, p ∈ done ++ queue ↔ p < g.numNodes ∧ g.waiting done p = 0
  mem_front : ∀ {front n back}, done = front ++ n :: back → ∀ {q}, g.Feeds n q → q ∈ front

/-- At first nothing has settled, and the queue holds the nodes that nothing leaves. -/
theorem settling_start : Settling g [] (g.nodeIds.map fun n => (g.efferents n).length)
    (g.nodeIds.filter fun n => (g.efferents n).isEmpty) where
  nodup := List.nodup_range.filter _
  pending_eq p hp := by
    rw [waiting_nil]
    simp [nodeIds, hp]
  mem_iff p := by
    rw [waiting_nil, List.nil_append, List.mem_filter, mem_nodeIds, List.isEmpty_iff,
      List.length_eq_zero_iff]
  mem_front hsplit := by simp at hsplit

/-- The first node of the queue has not settled. -/
theorem Settling.notMem {done pending rest : List Nat} {n : Nat}
    (h : Settling g done pending (n :: rest)) : n ∉ done := by
  have := (List.nodup_append.1 h.nodup).2.2
  exact fun hmem => this n hmem n List.mem_cons_self rfl

/-- What feeds the first node of the queue waits for it at least. -/
theorem Settling.pos {done pending rest : List Nat} {n : Nat}
    (h : Settling g done pending (n :: rest)) :
    ∀ p ∈ g.predecessors n, ∃ k, pending[p]? = some (k + 1) := by
  intro p hp
  rw [h.pending_eq p (mem_predecessors.1 hp).lt.1, waiting_concat h.notMem, if_pos hp]
  exact ⟨_, rfl⟩

/-- The invariant holds after the first node of the queue has settled. -/
theorem Settling.step {done pending rest : List Nat} {n : Nat}
    (h : Settling g done pending (n :: rest)) :
    Settling g (done ++ [n]) ((g.predecessors n).foldl countDown (pending, rest)).1
      ((g.predecessors n).foldl countDown (pending, rest)).2 := by
  have hn := h.notMem
  have hdown := waiting_concat (g := g) hn
  have hlt : ∀ {p}, p ∈ g.predecessors n → p < g.numNodes := fun hp => (mem_predecessors.1 hp).lt.1
  obtain ⟨hcounts, hqueue⟩ := foldl_countDown (nodup_predecessors n) pending rest h.pos
  rw [hqueue]
  -- a predecessor joins the queue when the edge to `n` was the last it waited for
  have hnew : ∀ p, p ∈ (g.predecessors n).filter (fun p => decide (pending[p]? = some 1)) ↔
      p ∈ g.predecessors n ∧ g.waiting done p = 1 := by
    intro p
    rw [List.mem_filter, decide_eq_true_iff]
    refine and_congr_right fun hp => ?_
    rw [h.pending_eq p (hlt hp), Option.some.injEq]
  have hold : ∀ p, p ∈ done ++ [n] ++ (rest ++ (g.predecessors n).filter
      fun p => decide (pending[p]? = some 1)) ↔
      p ∈ done ++ n :: rest ∨ (p ∈ g.predecessors n ∧ g.waiting done p = 1) := by
    intro p
    rw [← hnew, List.append_assoc, ← List.append_assoc [n], ← List.append_assoc,
      List.mem_append, List.singleton_append]
  refine ⟨?_, fun p hp => ?_, fun p => ?_, ?_⟩
  · have hsplit : done ++ [n] ++ (rest ++ (g.predecessors n).filter
        fun p => decide (pending[p]? = some 1)) =
        done ++ n :: rest ++ (g.predecessors n).filter fun p => decide (pending[p]? = some 1) := by
      simp
    rw [hsplit, List.nodup_append]
    refine ⟨h.nodup, (nodup_predecessors n).filter _, fun p hp q hq heq => ?_⟩
    have hzero := ((h.mem_iff p).1 hp).2
    have hone := ((hnew q).1 hq).2
    rw [heq] at hzero
    omega
  · rw [hcounts, h.pending_eq p hp, hdown p]
    split <;> simp
  · rw [hold, h.mem_iff, hdown p]
    by_cases hp : p ∈ g.predecessors n
    · simp [hp, hlt hp]
    · simp [hp]
  · intro front m back hsplit q hq
    rcases List.eq_nil_or_concat back with rfl | ⟨back', m', rfl⟩
    · obtain ⟨rfl, hm⟩ := List.append_inj' hsplit rfl
      obtain rfl := (List.cons.inj hm).1
      have hzero := ((h.mem_iff n).1 (by simp)).2
      exact waiting_eq_zero.1 hzero q hq
    · rw [List.concat_eq_append, ← List.cons_append, ← List.append_assoc] at hsplit
      exact h.mem_front (List.append_inj' hsplit rfl).1 hq

/-- The invariant holds when the queue is empty at last. -/
theorem Settling.drain {done pending queue : List Nat} (h : Settling g done pending queue) :
    Settling g (done ++ (g.drain pending queue).1) (g.drain pending queue).2 [] := by
  induction pending, queue using Graph.drain.induct g generalizing done with
  | case1 pending =>
    rw [Graph.drain, List.append_nil]
    exact h
  | case2 pending n rest state order left hdrain =>
    rename_i ih
    have hlast := ih h.step
    rw [hdrain, List.append_assoc, List.singleton_append] at hlast
    rw [Graph.drain, hdrain]
    exact hlast

/-- The invariant at the end of a sweep. -/
theorem settling_settle : Settling g g.settle.1 g.settle.2 [] := settling_start.drain

/-- If all nodes settle, each of them does so after its successors. -/
theorem linearizes_settle (h : g.settle.1.length = g.numNodes) :
    Linearizes (Function.swap g.Feeds) g.numNodes g.settle.1 := by
  have hend := settling_settle (g := g)
  have hnodup : g.settle.1.Nodup := by simpa using hend.nodup
  have hlt : ∀ n ∈ g.settle.1, n < g.numNodes :=
    fun n hn => ((hend.mem_iff n).1 (List.mem_append_left _ hn)).1
  refine ⟨hnodup, fun n => ⟨hlt n, fun hn => ?_⟩, hend.mem_front⟩
  have hsub : g.settle.1.Subperm (List.range g.numNodes) :=
    hnodup.subperm fun n hn => List.mem_range.2 (hlt n hn)
  have hperm := hsub.perm_of_length_le (by rw [h, List.length_range])
  exact hperm.mem_iff.2 (List.mem_range.2 hn)

/-- Without a cycle all nodes settle: a node would have to wait for a successor that does not
settle either, and so on without end. -/
theorem Acyclic.length_settle (hg : g.Acyclic) : g.settle.1.length = g.numNodes := by
  have hend := settling_settle (g := g)
  have hnodup : g.settle.1.Nodup := by simpa using hend.nodup
  have hsettled : ∀ n, n < g.numNodes → n ∈ g.settle.1 := by
    intro n
    induction n using hg.wellFounded_swap.induction with
    | _ n ih =>
      intro hn
      have hzero : g.waiting g.settle.1 n = 0 :=
        waiting_eq_zero.2 fun q hfeeds => ih q hfeeds hfeeds.lt.2
      simpa using (hend.mem_iff n).2 ⟨hn, hzero⟩
  have hperm : g.settle.1.Perm (List.range g.numNodes) :=
    (List.perm_ext_iff_of_nodup hnodup List.nodup_range).2 fun n =>
      ⟨fun hn => List.mem_range.2 ((hend.mem_iff n).1 (List.mem_append_left _ hn)).1,
        fun hn => hsettled n (List.mem_range.1 hn)⟩
  rw [hperm.length_eq, List.length_range]

/-! ## Counts that must not fall below zero -/

/-- Counts down as `countDown` does, unless node `p` has no count or waits for nothing. -/
def countDown? (state : List Nat × List Nat) (p : Nat) : Option (List Nat × List Nat) :=
  match state.1[p]? with
  | some (_ + 1) => some (countDown state p)
  | _ => none

theorem foldl_countDown_of_foldlM {ps : List Nat} {state state' : List Nat × List Nat}
    (h : ps.foldlM countDown? state = some state') : ps.foldl countDown state = state' := by
  induction ps generalizing state with
  | nil => exact Option.some.inj h
  | cons p ps ih =>
    obtain ⟨next, hnext, hrest⟩ := Option.bind_eq_some_iff.1 h
    rw [List.foldl_cons, ← ih hrest]
    congr 1
    unfold countDown? at hnext
    split at hnext
    · exact Option.some.inj hnext
    · contradiction

variable (g) in
/-- The settling of the nodes of a queue as `drain` does it, unless a count falls below zero. -/
def drain? (pending queue : List Nat) : Option (List Nat × List Nat) :=
  match queue with
  | [] => some ([], pending)
  | n :: rest =>
    match _h : (g.predecessors n).foldlM countDown? (pending, rest) with
    | none => none
    | some state => (drain? state.1 state.2).map fun settled => (n :: settled.1, settled.2)
termination_by unsettled (pending, queue)
decreasing_by
  have hkept := unsettled_foldl_countDown (g.predecessors n) (pending, rest)
  rw [foldl_countDown_of_foldlM _h] at hkept
  simp only [unsettled, List.length_cons] at *
  omega

variable (g) in
/-- The order in which the nodes settle, unless a count falls below zero on the way. -/
def settle? : Option (List Nat × List Nat) :=
  g.drain? (g.nodeIds.map fun n => (g.efferents n).length)
    (g.nodeIds.filter fun n => (g.efferents n).isEmpty)

/-- Counting down distinct nodes is safe while each of them waits for something. -/
theorem foldlM_countDown? {ps : List Nat} (hnodup : ps.Nodup) (pending queue : List Nat)
    (hpos : ∀ p ∈ ps, ∃ k, pending[p]? = some (k + 1)) :
    ps.foldlM countDown? (pending, queue) = some (ps.foldl countDown (pending, queue)) := by
  induction ps generalizing pending queue with
  | nil => rfl
  | cons p ps ih =>
    obtain ⟨k, hk⟩ := hpos p List.mem_cons_self
    rw [List.nodup_cons] at hnodup
    have hstep : countDown? (pending, queue) p = some (countDown (pending, queue) p) := by
      simp only [countDown?, hk]
    have hkept : ∀ q ∈ ps, ∃ j, (pending.set p k)[q]? = some (j + 1) := by
      intro q hq
      have hne : p ≠ q := fun heq => hnodup.1 (heq ▸ hq)
      rw [List.getElem?_set_ne hne]
      exact hpos q (List.mem_cons_of_mem p hq)
    rw [List.foldlM_cons, hstep, Option.bind_eq_bind, Option.bind_some, List.foldl_cons,
      countDown_of_pos hk]
    exact ih hnodup.2 _ _ hkept

theorem Settling.drain? {done pending queue : List Nat} (h : Settling g done pending queue) :
    g.drain? pending queue = some (g.drain pending queue) := by
  induction pending, queue using Graph.drain.induct g generalizing done with
  | case1 pending => rw [Graph.drain?, Graph.drain]
  | case2 pending n rest state order left hdrain =>
    rename_i ih
    have hrest := ih h.step
    have hfold := foldlM_countDown? (nodup_predecessors n) pending rest h.pos
    rw [Graph.drain?, Graph.drain, hdrain]
    split
    · rename_i hnone
      rw [hfold] at hnone
      contradiction
    · rename_i state' hsome
      obtain rfl := Option.some.inj (hfold.symm.trans hsome)
      rw [hrest, hdrain]
      rfl

/-- No count ever falls below zero, whether or not there is a cycle. -/
theorem settle?_eq : g.settle? = some g.settle := settling_start.drain?

end GraphTape.Graph
