import GraphTape.Graph.Basic

/-!
# Building graphs

A `Draft` is any list of nodes and edges. It has to have a node, and no node of width zero; then
its edges are taken in one after the other. Each needs a source, a destination, and a pair of ends
that no edge before it has, which is looked up among the edges into the destination so far.

* `Draft.link`: the edges into and out of every node, or the first rule that a draft breaks.
* `Draft.Linked`: what has been found out when some edges are taken in.
* `Draft.build`: the graph of a draft that breaks no rule.
-/

namespace GraphTape

/-- A list of nodes and a list of edges, not yet checked. -/
structure Draft (α : Type) where
  nodes : Array (Node α) := #[]
  edges : Array Edge := #[]

/-- The edges into and out of every node, by node id, as far as edges are taken in. -/
structure Links where
  afferents : List (List Nat)
  efferents : List (List Nat)

namespace Links

/-- No edge is taken in. -/
def start (numNodes : Nat) : Links where
  afferents := List.replicate numNodes []
  efferents := List.replicate numNodes []

/-- Takes in an edge, behind all edges before it. -/
def add (links : Links) (edge : Edge) (e : Nat) : Links where
  afferents := links.afferents.modify edge.dst (· ++ [e])
  efferents := links.efferents.modify edge.src (· ++ [e])

end Links

namespace Draft

variable {α : Type}

/-- Adds a node. Its id is the number of nodes before it. -/
def addNode (d : Draft α) (n : Node α) : Draft α := { d with nodes := d.nodes.push n }

/-- Adds an edge. Its id is the number of edges before it. -/
def addEdge (d : Draft α) (e : Edge) : Draft α := { d with edges := d.edges.push e }

/-- The report of a node of width zero. -/
def nodeFault? (d : Draft α) (n : Nat) : Option (Error α) :=
  match d.nodes[n]? with
  | some node => if node.width = 0 then some (.zeroWidthNode n node.name) else none
  | none => none

/-- The first edge into the same destination, among those taken in, that has the same source. -/
def twin? (d : Draft α) (links : Links) (edge : Edge) : Option Nat :=
  (links.afferents.getD edge.dst []).find? fun e => (d.edges[e]?).any (·.src == edge.src)

/-- Takes in one more edge, or reports the first rule that it breaks. -/
def join (d : Draft α) (links : Links) : Edge × Nat → Except (Error α) Links
  | (edge, e) =>
    if d.nodes.size ≤ edge.src then .error (.danglingEdge e edge.src)
    else if d.nodes.size ≤ edge.dst then .error (.danglingEdge e edge.dst)
    else
      match d.twin? links edge with
      | some first => .error (.duplicateEdge first e edge.src edge.dst)
      | none => .ok (links.add edge e)

/-- The edges into and out of every node, or the first rule that a draft breaks. -/
def link (d : Draft α) : Except (Error α) Links :=
  if d.nodes.isEmpty then .error .emptyGraph
  else
    match (List.range d.nodes.size).findSome? d.nodeFault? with
    | some fault => .error fault
    | none => d.edges.toList.zipIdx.foldlM d.join (.start d.nodes.size)

/-! ## Taking in edges -/

/-- Edge `e` leads to node `n`. -/
def Enters (d : Draft α) (n e : Nat) : Prop := (d.edges[e]?).map Edge.dst = some n

/-- Edge `e` comes from node `n`. -/
def Leaves (d : Draft α) (n e : Nat) : Prop := (d.edges[e]?).map Edge.src = some n

instance (d : Draft α) (n e : Nat) : Decidable (d.Enters n e) :=
  inferInstanceAs (Decidable (_ = _))

instance (d : Draft α) (n e : Nat) : Decidable (d.Leaves n e) :=
  inferInstanceAs (Decidable (_ = _))

/-- The first `k` edges are taken in: they join existing nodes, no two of them the same, and are
listed with both, in their order. -/
structure Linked (d : Draft α) (k : Nat) (links : Links) : Prop where
  length_afferents : links.afferents.length = d.nodes.size
  length_efferents : links.efferents.length = d.nodes.size
  afferents : ∀ n < d.nodes.size,
    links.afferents[n]? = some ((List.range k).filter fun e => d.Enters n e)
  efferents : ∀ n < d.nodes.size,
    links.efferents[n]? = some ((List.range k).filter fun e => d.Leaves n e)
  ends_lt : ∀ i < k, ∀ edge, d.edges[i]? = some edge →
    edge.src < d.nodes.size ∧ edge.dst < d.nodes.size
  ends_ne : ∀ j < k, ∀ i < j, ∀ edge other, d.edges[j]? = some edge → d.edges[i]? = some other →
    other.ends ≠ edge.ends

variable {d : Draft α} {k : Nat} {links links' : Links} {edge : Edge}

theorem linked_start (d : Draft α) : d.Linked 0 (.start d.nodes.size) where
  length_afferents := List.length_replicate
  length_efferents := List.length_replicate
  afferents _ hn := List.getElem?_replicate_of_lt hn
  efferents _ hn := List.getElem?_replicate_of_lt hn
  ends_lt i hi := absurd hi i.not_lt_zero
  ends_ne j hj := absurd hj j.not_lt_zero

namespace Linked

/-- The edges taken in that the search for a twin goes through. -/
theorem mem_getD_afferents (h : d.Linked k links) {n e : Nat} (hn : n < d.nodes.size) :
    e ∈ links.afferents.getD n [] ↔ e < k ∧ d.Enters n e := by
  rw [List.getD_eq_getElem?_getD, h.afferents n hn, Option.getD_some, List.mem_filter,
    List.mem_range, decide_eq_true_iff]

/-- A twin is an edge taken in with the same ends. -/
theorem ends_eq_of_twin? (h : d.Linked k links) (hdst : edge.dst < d.nodes.size) {first : Nat}
    (ht : d.twin? links edge = some first) :
    first < k ∧ ∃ other, d.edges[first]? = some other ∧ other.ends = edge.ends := by
  obtain ⟨hlt, henters⟩ := (h.mem_getD_afferents hdst).1 (List.mem_of_find?_eq_some ht)
  obtain ⟨other, hother, hsame⟩ := Option.map_eq_some_iff.1 henters
  have hsrc := List.find?_some ht
  rw [hother, Option.any_some, beq_iff_eq] at hsrc
  exact ⟨hlt, other, hother, by rw [Edge.ends, Edge.ends, hsrc, hsame]⟩

theorem ends_ne_of_twin? (h : d.Linked k links) (hdst : edge.dst < d.nodes.size)
    (ht : d.twin? links edge = none) {i : Nat} (hi : i < k) {other : Edge}
    (hother : d.edges[i]? = some other) : other.ends ≠ edge.ends := by
  intro hends
  obtain ⟨hsrc, hsame⟩ := Prod.mk.inj hends
  have henters : d.Enters edge.dst i := by rw [Enters, hother, Option.map_some, hsame]
  have hnot := List.find?_eq_none.1 ht i ((h.mem_getD_afferents hdst).2 ⟨hi, henters⟩)
  rw [hother, Option.any_some, beq_iff_eq] at hnot
  exact hnot hsrc

/-- Adding edge `k` to the list of node `n` makes it the list of the first `k + 1` edges. -/
theorem getElem?_modify_concat {lists : List (List Nat)} {p : Nat → Nat → Prop}
    [∀ n e, Decidable (p n e)] {n m : Nat}
    (hlists : lists[n]? = some ((List.range k).filter fun e => p n e)) (hm : p n k ↔ m = n) :
    (lists.modify m (· ++ [k]))[n]? = some ((List.range (k + 1)).filter fun e => p n e) := by
  rw [List.getElem?_modify, hlists, List.range_succ, List.filter_append]
  by_cases heq : m = n
  · simp [heq, hm.2 heq]
  · simp [heq, mt hm.1 heq]

/-- One more edge without a fault is taken in. -/
theorem add (h : d.Linked k links) (he : d.edges[k]? = some edge)
    (hsrc : edge.src < d.nodes.size) (hdst : edge.dst < d.nodes.size)
    (ht : d.twin? links edge = none) : d.Linked (k + 1) (links.add edge k) where
  length_afferents := (List.length_modify ..).trans h.length_afferents
  length_efferents := (List.length_modify ..).trans h.length_efferents
  afferents n hn := getElem?_modify_concat (p := d.Enters) (h.afferents n hn) (by
    rw [Enters, he, Option.map_some, Option.some.injEq])
  efferents n hn := getElem?_modify_concat (p := d.Leaves) (h.efferents n hn) (by
    rw [Leaves, he, Option.map_some, Option.some.injEq])
  ends_lt i hi other hother := by
    rcases Nat.lt_succ_iff_lt_or_eq.1 hi with hlt | rfl
    · exact h.ends_lt i hlt other hother
    · obtain rfl := Option.some.inj (he.symm.trans hother)
      exact ⟨hsrc, hdst⟩
  ends_ne j hj i hij new other hnew hother := by
    rcases Nat.lt_succ_iff_lt_or_eq.1 hj with hlt | rfl
    · exact h.ends_ne j hlt i hij new other hnew hother
    · obtain rfl := Option.some.inj (he.symm.trans hnew)
      exact h.ends_ne_of_twin? hdst ht hij hother

/-- An edge is taken in exactly if it joins existing nodes and has no twin. -/
theorem join_eq_ok_iff : d.join links (edge, k) = .ok links' ↔
    (edge.src < d.nodes.size ∧ edge.dst < d.nodes.size ∧ d.twin? links edge = none) ∧
      links.add edge k = links' := by
  rw [join]
  split
  · simp
    omega
  · split
    · simp
      omega
    · split
      · rename_i first ht
        simp [ht]
      · rename_i hsrc hdst ht
        simp [ht]
        omega

/-- Edges are taken in up to the first one that breaks a rule. -/
theorem foldlM_join {front back : List Edge} (hsplit : d.edges.toList = front ++ back)
    (h : d.Linked front.length links) :
    (∃ links', (back.zipIdx front.length).foldlM d.join links = .ok links' ∧
      d.Linked d.edges.size links') ∨
    ∃ e edge links' fault, (back.zipIdx front.length).foldlM d.join links = .error fault ∧
      d.edges[e]? = some edge ∧ d.Linked e links' ∧ d.join links' (edge, e) = .error fault := by
  induction back generalizing front links with
  | nil =>
    have hsize : front.length = d.edges.size := by
      rw [← Array.length_toList, hsplit, List.append_nil]
    exact .inl ⟨links, rfl, hsize ▸ h⟩
  | cons edge back ih =>
    have he : d.edges[front.length]? = some edge := by
      rw [← Array.getElem?_toList, hsplit, List.getElem?_append_right (Nat.le_refl _),
        Nat.sub_self, List.getElem?_cons_zero]
    rw [List.zipIdx_cons, List.foldlM_cons]
    cases hjoin : d.join links (edge, front.length) with
    | error fault => exact .inr ⟨front.length, edge, links, fault, rfl, he, h, hjoin⟩
    | ok next =>
      obtain ⟨⟨hsrc, hdst, ht⟩, rfl⟩ := join_eq_ok_iff.1 hjoin
      have hsplit' : d.edges.toList = (front ++ [edge]) ++ back := by
        rw [hsplit, List.append_assoc, List.singleton_append]
      have hlength : (front ++ [edge]).length = front.length + 1 := by
        rw [List.length_append, List.length_singleton]
      have hnext : d.Linked (front ++ [edge]).length (links.add edge front.length) :=
        hlength ▸ h.add he hsrc hdst ht
      exact hlength ▸ ih hsplit' hnext

end Linked

/-! ## A draft that can be linked is legal -/

theorem nodes_of_link (h : d.link = .ok links) :
    d.nodes.isEmpty = false ∧ (List.range d.nodes.size).findSome? d.nodeFault? = none ∧
      d.edges.toList.zipIdx.foldlM d.join (.start d.nodes.size) = .ok links := by
  rw [link] at h
  split at h
  · contradiction
  · rename_i hne
    split at h
    · contradiction
    · rename_i hwide
      exact ⟨Bool.eq_false_iff.2 hne, hwide, h⟩

theorem linked_of_link (h : d.link = .ok links) : d.Linked d.edges.size links := by
  have hfold := (nodes_of_link h).2.2
  rcases Linked.foldlM_join (List.nil_append _).symm d.linked_start with
    ⟨links', hfold', hlinked⟩ | ⟨_, _, _, fault, hfold', -⟩
  · obtain rfl := Except.ok.inj (hfold.symm.trans hfold')
    exact hlinked
  · exact absurd (hfold.symm.trans hfold') (by simp)

theorem nodes_pos_of_link (h : d.link = .ok links) : 0 < d.nodes.size := by
  have hne := (nodes_of_link h).1
  simpa [Nat.pos_iff_ne_zero] using hne

theorem width_pos_of_nodeFault?
    (h : (List.range d.nodes.size).findSome? d.nodeFault? = none) : ∀ n ∈ d.nodes, 0 < n.width := by
  intro n hn
  obtain ⟨i, hi, rfl⟩ := Array.mem_iff_getElem.1 hn
  have hwide := List.findSome?_eq_none_iff.1 h i (List.mem_range.2 hi)
  simp only [nodeFault?, Array.getElem?_eq_getElem hi] at hwide
  split at hwide
  · contradiction
  · omega

theorem width_pos_of_link (h : d.link = .ok links) : ∀ n ∈ d.nodes, 0 < n.width :=
  width_pos_of_nodeFault? (nodes_of_link h).2.1

theorem ends_lt_of_link (h : d.link = .ok links) :
    ∀ e ∈ d.edges, e.src < d.nodes.size ∧ e.dst < d.nodes.size := by
  intro e he
  obtain ⟨i, hi, rfl⟩ := Array.mem_iff_getElem.1 he
  exact (linked_of_link h).ends_lt i hi _ (Array.getElem?_eq_getElem hi)

theorem ends_inj_of_link (h : d.link = .ok links) (i j : Nat) (e f : Edge)
    (hi : d.edges[i]? = some e) (hj : d.edges[j]? = some f) (hends : e.ends = f.ends) : i = j := by
  have hne := (linked_of_link h).ends_ne
  have hlt := (Array.getElem?_eq_some_iff.1 hi).1
  have hlt' := (Array.getElem?_eq_some_iff.1 hj).1
  rcases Nat.lt_trichotomy i j with hij | heq | hji
  · exact absurd hends (hne j hlt' i hij f e hj hi)
  · exact heq
  · exact absurd hends.symm (hne i hlt j hji e f hi hj)

/-- The graph of a draft that breaks no rule, or the first rule it breaks. -/
def build (d : Draft α) : Except (Error α) (Graph α) :=
  match h : d.link with
  | .error fault => .error fault
  | .ok _ =>
    .ok
      { nodes := d.nodes
        edges := d.edges
        nodes_pos := nodes_pos_of_link h
        width_pos := width_pos_of_link h
        ends_lt := ends_lt_of_link h
        ends_inj := ends_inj_of_link h }

end Draft

end GraphTape
