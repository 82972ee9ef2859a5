import GraphTape.Graph.Build
import GraphTape.Proofs.Graph.Order
import GraphTape.Proofs.Memory.Sharing

/-!
# What can be built

Edges are taken in by a loop that looks for the twin of an edge in the lists that it is still
filling. Whatever nodes and edges were added, and in which order, it accepts exactly the legal
ones; the lists that it leaves are those of the graph; and what it reports is the first rule that is
broken, with the one edge that stood in the way of a duplicate.

* `Draft.Legal`: a draft that breaks no rule.
* `Draft.EdgeBreaks`, `Draft.Breaks`: the first rule that is broken, and its report.
* `Draft.ListsAt`: lists of the edges into and out of a node.
* `Draft.build_accepts_exactly_legal`: what is built, and what is reported.
-/

namespace GraphTape

namespace Draft

variable {α : Type} {d : Draft α} {links : Links}

/-! ## Calls -/

/-- What can be added to a draft. -/
inductive Call (α : Type) where
  | node (n : Node α)
  | edge (e : Edge)

namespace Call

/-- Adds to a draft. -/
def onto (d : Draft α) : Call α → Draft α
  | node n => d.addNode n
  | edge e => d.addEdge e

/-- The node that is added, if it is one. -/
def node? : Call α → Option (Node α)
  | node n => some n
  | edge _ => none

/-- The edge that is added, if it is one. -/
def edge? : Call α → Option Edge
  | node _ => none
  | edge e => some e

end Call

/-- The draft that calls lead to. -/
def drafted (calls : List (Call α)) : Draft α := calls.foldl Call.onto {}

theorem lists_foldl_onto (calls : List (Call α)) (d : Draft α) :
    (calls.foldl Call.onto d).nodes.toList = d.nodes.toList ++ calls.filterMap Call.node? ∧
      (calls.foldl Call.onto d).edges.toList = d.edges.toList ++ calls.filterMap Call.edge? := by
  induction calls generalizing d with
  | nil => simp
  | cons call calls ih =>
    obtain ⟨hnodes, hedges⟩ := ih (call.onto d)
    rw [List.foldl_cons, hnodes, hedges, List.filterMap_cons, List.filterMap_cons]
    cases call <;> simp [Call.onto, addNode, addEdge, Call.node?, Call.edge?]

/-- Nodes and edges are numbered apart, each in the order of the calls. -/
theorem lists_drafted (calls : List (Call α)) :
    (drafted calls).nodes.toList = calls.filterMap Call.node? ∧
      (drafted calls).edges.toList = calls.filterMap Call.edge? := by
  simpa [drafted] using lists_foldl_onto calls {}

/-! ## Rules -/

/-- A draft that breaks no rule. Edges may lead back to where they come from. -/
structure Legal (d : Draft α) : Prop where
  nodes : d.nodes ≠ #[]
  width : ∀ node ∈ d.nodes, 0 < node.width
  ends : ∀ edge ∈ d.edges, edge.src < d.nodes.size ∧ edge.dst < d.nodes.size
  distinct : ∀ (i j : Nat) (edge other : Edge), d.edges[i]? = some edge →
    d.edges[j]? = some other → edge.ends = other.ends → i = j

/-- The first rule that edge `e` breaks: it needs a source, then a destination, then ends that no
earlier edge has. An edge that has them is reported with the only one before it that does. -/
inductive EdgeBreaks (d : Draft α) (e : Nat) : Error α → Prop
  | source {edge : Edge} (he : d.edges[e]? = some edge) (hsrc : d.nodes.size ≤ edge.src) :
      EdgeBreaks d e (.danglingEdge e edge.src)
  | destination {edge : Edge} (he : d.edges[e]? = some edge) (hsrc : edge.src < d.nodes.size)
      (hdst : d.nodes.size ≤ edge.dst) : EdgeBreaks d e (.danglingEdge e edge.dst)
  | duplicate {edge other : Edge} {first : Nat} (he : d.edges[e]? = some edge)
      (hsrc : edge.src < d.nodes.size) (hdst : edge.dst < d.nodes.size) (hlt : first < e)
      (hfirst : d.edges[first]? = some other) (hends : other.ends = edge.ends)
      (honly : ∀ i < e, ∀ earlier, d.edges[i]? = some earlier → earlier.ends = edge.ends →
        i = first) : EdgeBreaks d e (.duplicateEdge first e edge.src edge.dst)

/-- The first rule that a draft breaks: it needs a node, then a width for every node, and then
comes the first edge that breaks a rule. -/
inductive Breaks (d : Draft α) : Error α → Prop
  | empty (hnodes : d.nodes = #[]) : Breaks d .emptyGraph
  | width {n : Nat} {node : Node α} (hn : d.nodes[n]? = some node) (hzero : node.width = 0)
      (hleast : ∀ m < n, ∀ other, d.nodes[m]? = some other → 0 < other.width) :
      Breaks d (.zeroWidthNode n node.name)
  | edge {e : Nat} {fault : Error α} (hnodes : d.nodes ≠ #[])
      (hwidth : ∀ node ∈ d.nodes, 0 < node.width) (hedge : d.EdgeBreaks e fault)
      (hleast : ∀ f < e, ∀ other, ¬ d.EdgeBreaks f other) : Breaks d fault

/-- An edge is reported in one way. -/
theorem EdgeBreaks.unique {e : Nat} {fault fault' : Error α} (h : d.EdgeBreaks e fault)
    (h' : d.EdgeBreaks e fault') : fault = fault' := by
  cases h with
  | source he hsrc =>
    cases h' with
    | source he' => rw [Option.some.inj (he.symm.trans he')]
    | destination he' hsrc' | duplicate he' hsrc' =>
      obtain rfl := Option.some.inj (he.symm.trans he')
      omega
  | destination he hsrc hdst =>
    cases h' with
    | destination he' => rw [Option.some.inj (he.symm.trans he')]
    | source he' hsrc' =>
      obtain rfl := Option.some.inj (he.symm.trans he')
      omega
    | duplicate he' _ hdst' =>
      obtain rfl := Option.some.inj (he.symm.trans he')
      omega
  | duplicate he hsrc hdst hlt hfirst hends honly =>
    cases h' with
    | source he' hsrc' =>
      obtain rfl := Option.some.inj (he.symm.trans he')
      omega
    | destination he' _ hdst' =>
      obtain rfl := Option.some.inj (he.symm.trans he')
      omega
    | duplicate he' _ _ hlt' hfirst' hends' =>
      obtain rfl := Option.some.inj (he.symm.trans he')
      rw [honly _ hlt' _ hfirst' hends']

/-- A draft is reported in one way. -/
theorem Breaks.unique {fault fault' : Error α} (h : d.Breaks fault) (h' : d.Breaks fault') :
    fault = fault' := by
  have hsome : ∀ {n : Nat} {node : Node α}, d.nodes[n]? = some node → d.nodes ≠ #[] := by
    rintro n node hn hnil
    simp [hnil] at hn
  cases h with
  | empty hnil =>
    cases h' with
    | empty => rfl
    | width hn => exact absurd hnil (hsome hn)
    | edge hnodes => exact absurd hnil hnodes
  | width hn hzero hleast =>
    cases h' with
    | empty hnil => exact absurd hnil (hsome hn)
    | width hn' hzero' hleast' =>
      rename_i n node n' node'
      rcases Nat.lt_trichotomy n n' with hlt | rfl | hlt
      · exact absurd hzero (hleast' n hlt node hn).ne'
      · rw [Option.some.inj (hn.symm.trans hn')]
      · exact absurd hzero' (hleast n' hlt node' hn').ne'
    | edge _ hwidth => exact absurd hzero (hwidth _ (Array.mem_of_getElem? hn)).ne'
  | edge hnodes hwidth hedge hleast =>
    rename_i e
    cases h' with
    | empty hnil => exact absurd hnil hnodes
    | width hn hzero => exact absurd hzero (hwidth _ (Array.mem_of_getElem? hn)).ne'
    | edge _ _ hedge' hleast' =>
      rename_i e' _ _
      rcases Nat.lt_trichotomy e e' with hlt | rfl | hlt
      · exact absurd hedge (hleast' e hlt _)
      · exact hedge.unique hedge'
      · exact absurd hedge' (hleast e' hlt _)

theorem Legal.not_edgeBreaks (h : d.Legal) {e : Nat} {fault : Error α} :
    ¬ d.EdgeBreaks e fault := by
  intro hbreaks
  cases hbreaks with
  | source he hsrc =>
    have hlt := (h.ends _ (Array.mem_of_getElem? he)).1
    omega
  | destination he _ hdst =>
    have hlt := (h.ends _ (Array.mem_of_getElem? he)).2
    omega
  | duplicate he _ _ hlt hfirst hends =>
    have heq := h.distinct _ _ _ _ hfirst he hends
    omega

theorem Legal.not_breaks (h : d.Legal) {fault : Error α} : ¬ d.Breaks fault := by
  intro hbreaks
  cases hbreaks with
  | empty hnil => exact h.nodes hnil
  | width hn hzero => exact (h.width _ (Array.mem_of_getElem? hn)).ne' hzero
  | edge _ _ hedge => exact h.not_edgeBreaks hedge

/-! ## What the loop finds -/

/-- An edge that is taken in breaks no rule. -/
theorem Linked.not_edgeBreaks {k : Nat} (h : d.Linked k links) {e : Nat} (he : e < k)
    {fault : Error α} : ¬ d.EdgeBreaks e fault := by
  intro hbreaks
  cases hbreaks with
  | source hedge hsrc =>
    have hlt := (h.ends_lt e he _ hedge).1
    omega
  | destination hedge _ hdst =>
    have hlt := (h.ends_lt e he _ hedge).2
    omega
  | duplicate hedge _ _ hlt hfirst hends => exact h.ends_ne e he _ hlt _ _ hedge hfirst hends

/-- An edge that is not taken in breaks the rule that is reported. Its twin is the only earlier
edge with its ends, as no two of the edges taken in have the same. -/
theorem Linked.edgeBreaks_of_join {e : Nat} {edge : Edge} {fault : Error α} (h : d.Linked e links)
    (he : d.edges[e]? = some edge) (hjoin : d.join links (edge, e) = .error fault) :
    d.EdgeBreaks e fault := by
  rw [join] at hjoin
  split at hjoin
  · rename_i hsrc
    obtain rfl := Except.error.inj hjoin
    exact .source he hsrc
  · rename_i hsrc
    split at hjoin
    · rename_i hdst
      obtain rfl := Except.error.inj hjoin
      exact .destination he (Nat.lt_of_not_le hsrc) hdst
    · rename_i hdst
      split at hjoin
      · rename_i first ht
        obtain rfl := Except.error.inj hjoin
        obtain ⟨hlt, other, hfirst, hends⟩ := h.ends_eq_of_twin? (Nat.lt_of_not_le hdst) ht
        refine .duplicate he (Nat.lt_of_not_le hsrc) (Nat.lt_of_not_le hdst) hlt hfirst hends ?_
        intro i hi earlier hearlier hsame
        rcases Nat.lt_trichotomy i first with hbefore | heq | hbehind
        · exact absurd (hsame.trans hends.symm)
            (h.ends_ne first hlt i hbefore _ _ hfirst hearlier)
        · exact heq
        · exact absurd (hends.trans hsame.symm) (h.ends_ne i hi first hbehind _ _ hearlier hfirst)
      · contradiction

/-- The search over the nodes finds the least one of width zero. -/
theorem breaks_of_nodeFault? {fault : Error α}
    (h : (List.range d.nodes.size).findSome? d.nodeFault? = some fault) : d.Breaks fault := by
  have hat : ∀ {m : Nat}, m < d.nodes.size → (List.range d.nodes.size)[m]? = some m :=
    fun hm => by rw [List.getElem?_range hm]
  obtain ⟨n, n', hn, hfault, hleast⟩ := exists_first_of_findSome? h
  obtain ⟨hlt, rfl⟩ : n < d.nodes.size ∧ n = n' := by
    simpa [List.getElem?_eq_some_iff] using hn
  have hget : d.nodes[n]? = some d.nodes[n] := Array.getElem?_eq_getElem hlt
  simp only [nodeFault?, hget, Option.ite_none_right_eq_some, Option.some.injEq] at hfault
  obtain ⟨hzero, rfl⟩ := hfault
  refine .width hget hzero fun m hm other hother => Nat.pos_of_ne_zero fun hwidth => ?_
  have hnone := hleast m hm m (hat (hm.trans hlt))
  simp [nodeFault?, hother, hwidth] at hnone

/-- A draft can be linked, or it is reported for the first rule that it breaks. -/
theorem link_cases (d : Draft α) :
    (∃ links, d.link = .ok links) ∨ ∃ fault, d.link = .error fault ∧ d.Breaks fault := by
  rw [link]
  split
  · rename_i hempty
    exact .inr ⟨_, rfl, .empty (Array.isEmpty_iff.1 hempty)⟩
  · rename_i hempty
    have hnodes : d.nodes ≠ #[] := fun hnil => hempty (Array.isEmpty_iff.2 hnil)
    split
    · rename_i fault hfault
      exact .inr ⟨fault, rfl, breaks_of_nodeFault? hfault⟩
    · rename_i hwide
      rcases Linked.foldlM_join (List.nil_append _).symm d.linked_start with
        ⟨links, hfold, -⟩ | ⟨e, edge, links, fault, hfold, he, hlinked, hjoin⟩
      · exact .inl ⟨links, hfold⟩
      · exact .inr ⟨fault, hfold, .edge hnodes (width_pos_of_nodeFault? hwide)
          (hlinked.edgeBreaks_of_join he hjoin) fun f hf other => hlinked.not_edgeBreaks hf⟩

theorem legal_of_link (h : d.link = .ok links) : d.Legal where
  nodes hnil := by
    have hpos := nodes_pos_of_link h
    simp [hnil] at hpos
  width := width_pos_of_link h
  ends := ends_lt_of_link h
  distinct := ends_inj_of_link h

/-! ## What is built -/

theorem build_eq_error_iff {fault : Error α} : d.build = .error fault ↔ d.link = .error fault := by
  unfold build
  split
  · rename_i hlink
    simp [hlink]
  · rename_i hlink
    simp [hlink]

theorem build_eq_ok {g : Graph α} (h : d.build = .ok g) :
    g.nodes = d.nodes ∧ g.edges = d.edges ∧ ∃ links, d.link = .ok links := by
  unfold build at h
  split at h
  · contradiction
  · rename_i links hlink
    obtain rfl := Except.ok.inj h
    exact ⟨rfl, rfl, links, hlink⟩

theorem build_eq_error_iff_breaks {fault : Error α} :
    d.build = .error fault ↔ d.Breaks fault := by
  rw [build_eq_error_iff]
  rcases d.link_cases with ⟨links, hlink⟩ | ⟨fault', hlink, hbreaks⟩
  · simp [hlink, (legal_of_link hlink).not_breaks]
  · rw [hlink, Except.error.injEq]
    exact ⟨fun heq => heq ▸ hbreaks, fun h => hbreaks.unique h⟩

theorem exists_build_iff : (∃ g, d.build = .ok g) ↔ d.Legal := by
  constructor
  · rintro ⟨g, hg⟩
    obtain ⟨-, -, links, hlink⟩ := build_eq_ok hg
    exact legal_of_link hlink
  · intro hlegal
    cases hbuild : d.build with
    | ok g => exact ⟨g, rfl⟩
    | error fault => exact absurd (build_eq_error_iff_breaks.1 hbuild) hlegal.not_breaks

/-! ## Adjacency -/

/-- Two lists hold the edges into and out of node `n`: each of them once, by ascending id, and no
two into the node from the same source. -/
structure ListsAt (d : Draft α) (n : Nat) (afferents efferents : List Nat) : Prop where
  mem_afferents : ∀ e, e ∈ afferents ↔ ∃ edge, d.edges[e]? = some edge ∧ edge.dst = n
  mem_efferents : ∀ e, e ∈ efferents ↔ ∃ edge, d.edges[e]? = some edge ∧ edge.src = n
  ascending_afferents : afferents.Pairwise (· < ·)
  ascending_efferents : efferents.Pairwise (· < ·)
  src_ne : ∀ e ∈ afferents, ∀ f ∈ afferents, e ≠ f → ∀ edge other, d.edges[e]? = some edge →
    d.edges[f]? = some other → edge.src ≠ other.src

/-- The lists that the loop leaves are those that the graph is read by. -/
theorem Linked.getElem?_eq {g : Graph α} (h : d.Linked d.edges.size links)
    (hedges : g.edges = d.edges) {n : Nat} (hn : n < d.nodes.size) :
    links.afferents[n]? = some (g.afferents n) ∧ links.efferents[n]? = some (g.efferents n) := by
  have hids : g.edgeIds = List.range d.edges.size := by rw [Graph.edgeIds, Graph.numEdges, hedges]
  rw [h.afferents n hn, h.efferents n hn, Graph.afferents, Graph.efferents, hids]
  constructor
  · refine congrArg some (List.filter_congr fun e he => ?_)
    have he' : e < d.edges.size := List.mem_range.1 he
    simp [Enters, Graph.dst, hedges, he']
  · refine congrArg some (List.filter_congr fun e he => ?_)
    have he' : e < d.edges.size := List.mem_range.1 he
    simp [Leaves, Graph.src, hedges, he']

theorem listsAt_of_edges {g : Graph α} (hedges : g.edges = d.edges) (n : Nat) :
    d.ListsAt n (g.afferents n) (g.efferents n) where
  mem_afferents e := by
    rw [Graph.mem_afferents, Graph.numEdges, Graph.dst, hedges]
    by_cases he : e < d.edges.size
    · simp [he]
    · simp [he]
  mem_efferents e := by
    rw [Graph.mem_efferents, Graph.numEdges, Graph.src, hedges]
    by_cases he : e < d.edges.size
    · simp [he]
    · simp [he]
  ascending_afferents := List.pairwise_lt_range.filter _
  ascending_efferents := List.pairwise_lt_range.filter _
  src_ne e he f hf hne edge other hedge hother hsrc := by
    have hends : ∀ {i : Nat} {x : Edge}, d.edges[i]? = some x → g.src i = x.src := by
      intro i x hx
      rw [Graph.src, hedges, hx, Option.elim_some]
    rw [Graph.mem_afferents] at he hf
    refine hne (Graph.eq_of_src_eq_of_dst_eq he.1 hf.1 ?_ (he.2.trans hf.2.symm))
    rw [hends hedge, hends hother, hsrc]

theorem isSource_iff_of_edges {g : Graph α} (hedges : g.edges = d.edges) (n : Nat) :
    g.isSource n = true ↔ ∀ edge ∈ d.edges, edge.dst ≠ n := by
  rw [Graph.isSource, List.isEmpty_iff, List.eq_nil_iff_forall_not_mem]
  simp only [(listsAt_of_edges hedges n).mem_afferents]
  constructor
  · intro h edge hedge hdst
    obtain ⟨e, he⟩ := Array.getElem?_of_mem hedge
    exact h e ⟨edge, he, hdst⟩
  · rintro h e ⟨edge, he, hdst⟩
    exact h edge (Array.mem_of_getElem? he) hdst

/-- **Exactly the legal drafts are built, with exact adjacency.** Whatever calls were made, and in
which order, a draft becomes a graph of its nodes and edges exactly if it is legal. The loop over
the edges has then left a pair of lists for every node, and they are the ones that the graph is read
by: all edges into the node and all edges out of it, each once and by ascending id, no two of the
former from the same source. A source is a node that no edge enters. Otherwise the first rule that
is broken is reported. -/
theorem build_accepts_exactly_legal (calls : List (Call α)) :
    ((drafted calls).nodes.toList = calls.filterMap Call.node? ∧
      (drafted calls).edges.toList = calls.filterMap Call.edge?) ∧
    ((∃ g, (drafted calls).build = .ok g) ↔ (drafted calls).Legal) ∧
    (∀ fault, (drafted calls).build = .error fault ↔ (drafted calls).Breaks fault) ∧
    ∀ g, (drafted calls).build = .ok g →
      (g.nodes = (drafted calls).nodes ∧ g.edges = (drafted calls).edges) ∧
      (∃ links, (drafted calls).link = .ok links ∧
        links.afferents.length = g.numNodes ∧ links.efferents.length = g.numNodes ∧
        ∀ n < g.numNodes, links.afferents[n]? = some (g.afferents n) ∧
          links.efferents[n]? = some (g.efferents n)) ∧
      ∀ n < g.numNodes, (drafted calls).ListsAt n (g.afferents n) (g.efferents n) ∧
        (g.isSource n = true ↔ ∀ edge ∈ (drafted calls).edges, edge.dst ≠ n) := by
  refine ⟨lists_drafted calls, exists_build_iff, fun fault => build_eq_error_iff_breaks,
    fun g hg => ?_⟩
  obtain ⟨hnodes, hedges, links, hlink⟩ := build_eq_ok hg
  have hsize : (drafted calls).nodes.size = g.numNodes := by rw [← hnodes, Graph.numNodes]
  have hlinked := linked_of_link hlink
  refine ⟨⟨hnodes, hedges⟩, ⟨links, hlink, hlinked.length_afferents.trans hsize,
    hlinked.length_efferents.trans hsize, fun n hn => hlinked.getElem?_eq hedges (hsize ▸ hn)⟩,
    fun n _ => ⟨listsAt_of_edges hedges n, isSource_iff_of_edges hedges n⟩⟩

/-- Calls in which an edge comes before the nodes that it joins, and another one leads back to where
it comes from. -/
def loop : List (Call Nat) :=
  [.edge ⟨1, 0, ⟨.matrix 1 1, 0⟩⟩,
    .node { name := "to", width := 1, activation := .linear 1 0, isOutput := true },
    .edge ⟨0, 0, ⟨.matrix 1 1, 1⟩⟩,
    .node { name := "from", width := 1, activation := .linear 1 0 }]

/-- These calls build a graph; after the first two of them, the edge has no source yet. -/
theorem build_accepts_exactly_legal_loop :
    (∃ g, (drafted loop).build = .ok g ∧
      (drafted loop).ListsAt 0 (g.afferents 0) (g.efferents 0) ∧ g.isSource 1 = true) ∧
    (drafted (loop.take 2)).build = .error (.danglingEdge 0 1) := by
  have hlegal : (drafted loop).Legal :=
    ⟨by simp [drafted, loop, Call.onto, addNode, addEdge],
      by simp [drafted, loop, Call.onto, addNode, addEdge],
      by simp [drafted, loop, Call.onto, addNode, addEdge], Graph.ends_inj_of_nodup (by decide)⟩
  obtain ⟨-, hok, -, hbuilt⟩ := build_accepts_exactly_legal loop
  obtain ⟨g, hg⟩ := hok.2 hlegal
  obtain ⟨⟨hnodes, -⟩, -, hlists⟩ := hbuilt g hg
  have hsize : g.numNodes = 2 := congrArg Array.size hnodes
  refine ⟨⟨g, hg, (hlists 0 (by omega)).1, (hlists 1 (by omega)).2.2 ?_⟩, ?_⟩
  · simp [drafted, loop, Call.onto, addNode, addEdge]
  · have hbreaks : (drafted (loop.take 2)).EdgeBreaks 0
        (.danglingEdge 0 (Edge.mk 1 0 ⟨.matrix 1 1, 0⟩).src) := .source rfl (Nat.le_refl 1)
    refine ((build_accepts_exactly_legal (loop.take 2)).2.2.1 _).2 (.edge ?_ ?_ hbreaks ?_)
    · simp [drafted, loop, Call.onto, addNode, addEdge]
    · simp [drafted, loop, Call.onto, addNode, addEdge]
    · exact fun f hf => absurd hf f.not_lt_zero

end Draft

end GraphTape
