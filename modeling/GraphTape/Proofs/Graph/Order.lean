import GraphTape.Graph.Schedule
import Mathlib.Data.Finset.Card
import Mathlib.Data.Finset.Range
import Mathlib.Logic.Relation
import Mathlib.Order.WellFounded

/-!
# Orders of evaluation

Nodes can be evaluated in any order that has each of them behind all nodes that feed it, and a
graph that has such an order is acyclic. Acyclicity is the absence of a path from a node to
itself; as the nodes are finitely many, it lets us recurse along the edges in both directions.

* `Linearizes`: a list of all nodes, each behind those that a relation puts before it.
* `Graph.acyclic_of_linearizes`: an order of the edges shows that there is no cycle.
* `Graph.Acyclic.wellFounded`, `Graph.Acyclic.wellFounded_swap`: recursion along the edges.
-/

namespace GraphTape

/-- A list of the numbers below `size`, each once, and each behind all that `R` puts before it. -/
structure Linearizes (R : Nat → Nat → Prop) (size : Nat) (order : List Nat) : Prop where
  nodup : order.Nodup
  mem_iff : ∀ n, n ∈ order ↔ n < size
  mem_front : ∀ {front n back}, order = front ++ n :: back → ∀ {p}, R p n → p ∈ front

namespace Linearizes

variable {R : Nat → Nat → Prop} {size : Nat} {order : List Nat}

/-- A relation moves forward in a list that linearizes it. -/
theorem idxOf_lt (h : Linearizes R size order) {p n : Nat} (hn : n < size) (hR : R p n) :
    order.idxOf p < order.idxOf n := by
  obtain ⟨front, back, hsplit⟩ := List.append_of_mem ((h.mem_iff n).2 hn)
  have hp : p ∈ front := h.mem_front hsplit hR
  have hnf : n ∉ front := by
    have := h.nodup
    rw [hsplit, List.nodup_append] at this
    exact fun hmem => this.2.2 n hmem n (by simp) rfl
  rw [hsplit, List.idxOf_append_of_mem hp, List.idxOf_append_of_notMem hnf, List.idxOf_cons_self]
  exact Nat.lt_of_lt_of_le (List.idxOf_lt_length_of_mem hp) (Nat.le_add_right _ _)

/-- What holds of no number and still holds after one more number, behind all that come before
it, holds of the whole list. -/
theorem induction {motive : List Nat → Prop} (h : Linearizes R size order) (nil : motive [])
    (concat : ∀ done n, (∀ m ∈ done, m < size) → n < size → n ∉ done →
      (∀ p, R p n → p ∈ done) → motive done → motive (done ++ [n])) : motive order := by
  have hprefix : ∀ back front, order = front ++ back → motive front → motive order := by
    intro back
    induction back with
    | nil =>
      intro front hsplit hfront
      rw [hsplit, List.append_nil]
      exact hfront
    | cons n back ih =>
      intro front hsplit hfront
      have hlt : ∀ m, m ∈ front ++ n :: back → m < size :=
        fun m hm => (h.mem_iff m).1 (hsplit ▸ hm)
      have hnodup := h.nodup
      rw [hsplit, List.nodup_append] at hnodup
      refine ih (front ++ [n]) (by rw [hsplit, List.append_assoc, List.singleton_append]) ?_
      exact concat front n (fun m hm => hlt m (List.mem_append_left _ hm)) (hlt n (by simp))
        (fun hn => hnodup.2.2 n hn n List.mem_cons_self rfl) (fun p hp => h.mem_front hsplit hp)
        hfront
  exact hprefix order [] rfl nil

/-- A relation that can be linearized has no cycle. -/
theorem not_transGen (h : Linearizes R size order) (hR : ∀ p n, R p n → n < size) (n : Nat) :
    ¬ Relation.TransGen R n n := by
  have forward : ∀ {a b}, Relation.TransGen R a b → order.idxOf a < order.idxOf b := by
    intro a b hab
    induction hab with
    | single hstep => exact h.idxOf_lt (hR _ _ hstep) hstep
    | tail _ hstep ih => exact ih.trans (h.idxOf_lt (hR _ _ hstep) hstep)
  exact fun hcycle => Nat.lt_irrefl _ (forward hcycle)

end Linearizes

/-- A relation on finitely many numbers without a cycle is well-founded: the number of those from
which a number can be reached goes up along the relation. -/
theorem wellFounded_of_not_transGen {R : Nat → Nat → Prop} {size : Nat}
    (hR : ∀ p n, R p n → p < size) (hcycle : ∀ n, ¬ Relation.TransGen R n n) : WellFounded R := by
  classical
  let rank : Nat → Nat := fun n =>
    ((Finset.range size).filter fun p => Relation.TransGen R p n).card
  refine Subrelation.wf (r := InvImage (· < ·) rank) ?_ (InvImage.wf rank Nat.lt_wfRel.wf)
  intro p n hpn
  refine Finset.card_lt_card (Finset.ssubset_iff_of_subset ?_ |>.2 ⟨p, ?_, ?_⟩)
  · intro q hq
    rw [Finset.mem_filter] at hq ⊢
    exact ⟨hq.1, hq.2.tail hpn⟩
  · exact Finset.mem_filter.2 ⟨Finset.mem_range.2 (hR p n hpn), .single hpn⟩
  · exact fun hp => hcycle p (Finset.mem_filter.1 hp).2

namespace Graph

variable {α : Type} (g : Graph α)

/-- An edge leads from `p` to `n`. -/
def Feeds (p n : Nat) : Prop := ∃ e < g.numEdges, g.src e = p ∧ g.dst e = n

/-- No path along the edges comes back to where it started. -/
def Acyclic : Prop := ∀ n, ¬ Relation.TransGen g.Feeds n n

variable {g}

theorem mem_predecessors {p n : Nat} : p ∈ g.predecessors n ↔ g.Feeds p n := by
  simp only [predecessors, List.mem_map, mem_afferents, Feeds]
  exact ⟨fun ⟨e, ⟨he, hdst⟩, hsrc⟩ => ⟨e, he, hsrc, hdst⟩,
    fun ⟨e, he, hsrc, hdst⟩ => ⟨e, ⟨he, hdst⟩, hsrc⟩⟩

theorem mem_successors {p n : Nat} : n ∈ g.successors p ↔ g.Feeds p n := by
  simp only [successors, List.mem_map, mem_efferents, Feeds]
  exact ⟨fun ⟨e, ⟨he, hsrc⟩, hdst⟩ => ⟨e, he, hsrc, hdst⟩,
    fun ⟨e, he, hsrc, hdst⟩ => ⟨e, ⟨he, hsrc⟩, hdst⟩⟩

theorem Feeds.lt {p n : Nat} (h : g.Feeds p n) : p < g.numNodes ∧ n < g.numNodes := by
  obtain ⟨e, he, rfl, rfl⟩ := h
  exact ⟨g.src_lt he, g.dst_lt he⟩

theorem feeds_of_mem_afferents {n e : Nat} (h : e ∈ g.afferents n) : g.Feeds (g.src e) n := by
  rw [mem_afferents] at h
  exact ⟨e, h.1, rfl, h.2⟩

theorem feeds_of_mem_efferents {n e : Nat} (h : e ∈ g.efferents n) : g.Feeds n (g.dst e) := by
  rw [mem_efferents] at h
  exact ⟨e, h.1, h.2, rfl⟩

/-- A node with an incoming edge is no source. -/
theorem isSource_of_feeds {p n : Nat} (h : g.Feeds p n) : g.isSource n = false := by
  obtain ⟨e, he, -, hdst⟩ := h
  rw [isSource, List.isEmpty_eq_false_iff]
  exact List.ne_nil_of_mem (g.mem_afferents.2 ⟨he, hdst⟩)

theorem Acyclic.wellFounded (h : g.Acyclic) : WellFounded g.Feeds :=
  wellFounded_of_not_transGen (fun _ _ hpn => hpn.lt.1) h

theorem Acyclic.wellFounded_swap (h : g.Acyclic) : WellFounded (Function.swap g.Feeds) :=
  wellFounded_of_not_transGen (fun _ _ hpn => hpn.lt.2) fun n hn =>
    h n (Relation.transGen_swap.1 hn)

theorem Acyclic.src_ne_dst (h : g.Acyclic) {e : Nat} (he : e < g.numEdges) :
    g.src e ≠ g.dst e := fun heq => h (g.src e) (.single ⟨e, he, rfl, heq.symm⟩)

/-- A linearization of the edges is evidence of acyclicity. -/
theorem acyclic_of_linearizes {order : List Nat} (h : Linearizes g.Feeds g.numNodes order) :
    g.Acyclic :=
  h.not_transGen fun _ _ hpn => hpn.lt.2

/-! ## Parallel edges -/

/-- Edges with distinct ends can be edges of a graph. -/
theorem ends_inj_of_nodup {edges : Array Edge} (h : (edges.toList.map Edge.ends).Nodup)
    (i j : Nat) (e f : Edge) (hi : edges[i]? = some e) (hj : edges[j]? = some f)
    (hends : e.ends = f.ends) : i = j := by
  have hlt : i < (edges.toList.map Edge.ends).length := by
    simpa using (Array.getElem?_eq_some_iff.1 hi).1
  refine (List.getElem?_inj hlt h).1 ?_
  simp [hi, hj, hends]

/-- No two edges join the same nodes. -/
theorem eq_of_src_eq_of_dst_eq {e f : Nat} (he : e < g.numEdges) (hf : f < g.numEdges)
    (hsrc : g.src e = g.src f) (hdst : g.dst e = g.dst f) : e = f := by
  have hget : ∀ {e : Nat} (he : e < g.numEdges), g.edges[e]? = some g.edges[e] :=
    fun he => Array.getElem?_eq_getElem he
  have hends : ∀ {e : Nat} (he : e < g.numEdges), g.edges[e].ends = (g.src e, g.dst e) := by
    intro e he
    rw [src, dst, hget he]
    rfl
  exact g.ends_inj e f _ _ (hget he) (hget hf) (by rw [hends he, hends hf, hsrc, hdst])

theorem nodup_afferents (n : Nat) : (g.afferents n).Nodup := List.nodup_range.filter _

theorem nodup_efferents (n : Nat) : (g.efferents n).Nodup := List.nodup_range.filter _

theorem nodup_predecessors (n : Nat) : (g.predecessors n).Nodup := by
  refine (nodup_afferents n).map_on fun e he f hf hsrc => ?_
  rw [mem_afferents] at he hf
  exact eq_of_src_eq_of_dst_eq he.1 hf.1 hsrc (he.2.trans hf.2.symm)

theorem nodup_successors (p : Nat) : (g.successors p).Nodup := by
  refine (nodup_efferents p).map_on fun e he f hf hdst => ?_
  rw [mem_efferents] at he hf
  exact eq_of_src_eq_of_dst_eq he.1 hf.1 (he.2.trans hf.2.symm) hdst

end Graph

end GraphTape
