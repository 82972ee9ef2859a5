import GraphTape.Proofs.Buffer.Fill
import GraphTape.Proofs.Memory.Layout
import GraphTape.Proofs.Memory.Sharing

/-!
# What a store promises

A store that serves a graph holds an element for every element of every parameter, and changing
one parameter leaves the others alone. Which of the two kinds of store it is cannot be told from
what is said here.

* `Store.Serves`: a store, in the slots of a layout and next to the host tensors of a graph.
* `Store.Serves.update`, `Store.Serves.sync`, `Store.Serves.reload`: the three ways in which
  elements move.
* `Store.serves_of_compile`: the store of a compiled graph, which starts with the elements of the
  host tensors.
-/

namespace GraphTape

variable {α : Type}

/-- In a fold whose steps keep what `I` says, every step makes `Q` true of its own entry, and none
makes it false of another one: in the end `Q` is true of all entries. -/
theorem foldl_forall {σ ι : Type} (step : σ → ι → σ) (I : σ → Prop) (Q : σ → ι → Prop)
    (xs : List ι) (hI : ∀ s, I s → ∀ x ∈ xs, I (step s x))
    (hset : ∀ s, I s → ∀ x ∈ xs, Q (step s x) x)
    (hkeep : ∀ s, I s → ∀ x ∈ xs, ∀ y ∈ xs, y ≠ x → Q s y → Q (step s x) y) {s : σ} (hs : I s) :
    I (xs.foldl step s) ∧ ∀ x ∈ xs, Q (xs.foldl step s) x := by
  induction xs using List.reverseRecOn with
  | nil => exact ⟨hs, fun x hx => by simp at hx⟩
  | append_singleton xs x ih =>
    have hmem : ∀ y ∈ xs, y ∈ xs ++ [x] := fun y hy => List.mem_append_left _ hy
    have hlast : x ∈ xs ++ [x] := List.mem_append_right _ (List.mem_singleton_self x)
    obtain ⟨hinv, hdone⟩ := ih (fun s hs y hy => hI s hs y (hmem y hy))
      (fun s hs y hy => hset s hs y (hmem y hy))
      fun s hs y hy z hz => hkeep s hs y (hmem y hy) z (hmem z hz)
    rw [List.foldl_append, List.foldl_cons, List.foldl_nil]
    refine ⟨hI _ hinv x hlast, fun y hy => ?_⟩
    by_cases heq : y = x
    · exact heq ▸ hset _ hinv x hlast
    · have hy' : y ∈ xs := by simpa [heq] using hy
      exact hkeep _ hinv x hlast y hy heq (hdone y hy')

/-! ## Host tensors -/

/-- The tensors of a graph are allocated, each with as many elements as its shape asks for. A
tensor is never allocated with more or fewer, and none can be added or removed afterwards. -/
structure Graph.HostedBy (g : Graph α) (h : Host α) : Prop where
  cell_lt : ∀ o t, g.tensor? o = some t → t.cell < h.cells.size
  size : ∀ o t, g.tensor? o = some t → (h.read t).size = t.count

theorem Graph.hostedBy_of_parameters {g : Graph α} {h : Host α}
    (hh : ∀ p ∈ g.parameters, p.2.cell < h.cells.size ∧ (h.read p.2).size = p.2.count) :
    g.HostedBy h :=
  ⟨fun o t ho => (hh (o, t) (mem_parameters.2 ho)).1,
    fun o t ho => (hh (o, t) (mem_parameters.2 ho)).2⟩

theorem Host.read_modify (h : Host α) {t u : Tensor} (f : Buffer α → Buffer α)
    (hu : u.cell < h.cells.size) :
    (h.modify t f).read u = if t.cell = u.cell then f (h.read u) else h.read u := by
  split
  · rename_i heq
    exact h.read_modify_of_eq f heq hu
  · rename_i hne
    exact h.read_modify_of_ne f hne

theorem Host.size_read_modify (h : Host α) {t u : Tensor} {f : Buffer α → Buffer α}
    (hu : u.cell < h.cells.size) (hf : (f (h.read t)).size = (h.read t).size) :
    ((h.modify t f).read u).size = (h.read u).size := by
  rw [h.read_modify f hu]
  split
  · rename_i heq
    have hread : h.read t = h.read u := by rw [Host.read, Host.read, heq]
    rw [← hread, hf]
  · rfl

/-- A write that keeps the number of elements keeps all tensors of a graph. -/
theorem Graph.HostedBy.modify {g : Graph α} {h : Host α} (hh : g.HostedBy h) (t : Tensor)
    {f : Buffer α → Buffer α} (hf : (f (h.read t)).size = (h.read t).size) :
    g.HostedBy (h.modify t f) where
  cell_lt o u hu := by
    rw [Host.modify, Array.size_modify]
    exact hh.cell_lt o u hu
  size o u hu := (h.size_read_modify (hh.cell_lt o u hu) hf).trans (hh.size o u hu)

/-- No two parameters of a graph share their storage. -/
def Graph.Apart (g : Graph α) : Prop :=
  ∀ o p t u, g.tensor? o = some t → g.tensor? p = some u → t.cell = u.cell → o = p

namespace Store

theorem apart_of_sharedPair? {g : Graph α}
    (h : sharedPair? (g.parameters.map Prod.snd) = none) : g.Apart := by
  intro o p t u ho hp heq
  have hnodup := nodup_of_sharedPair? h
  rw [List.map_map] at hnodup
  exact congrArg Prod.fst (List.inj_on_of_nodup_map hnodup (Graph.mem_parameters.2 ho)
    (Graph.mem_parameters.2 hp) heq)

/-- How a store holds the parameters of a graph in the slots of a layout: end to end in one
buffer, or each in the host tensor itself. -/
inductive Backs (g : Graph α) (l : Layout) : Store α → Prop
  | owned {buffer : Buffer α} (hsize : buffer.size = l.paramLen)
      (hoffset : ∀ o, (g.tensor? o).isSome = true → (l.slotOf o).offset = (l.slotOf o).flat) :
      Backs g l (.owned buffer (g.parameters.map fun p => (p.2, (l.slotOf p.1).flat)))
  | shared {tensors : List Tensor} (htensors : ∀ o t, g.tensor? o = some t →
      tensors[(l.slotOf o).buffer]? = some t ∧ (l.slotOf o).offset = 0) :
      Backs g l (.shared tensors)

/-- A store holds the parameters of a graph next to the host tensors of the graph. -/
structure Serves (g : Graph α) (l : Layout) (st : Store α) (h : Host α) : Prop where
  backs : st.Backs g l
  hosted : g.HostedBy h
  apart : g.Apart
  count : ∀ o t, g.tensor? o = some t → t.count = g.extent o

variable [Zero α] {g : Graph α} {l : Layout} {st : Store α} {h : Host α}

/-- The live parameters are the elements of the host tensors. -/
def Current (g : Graph α) (l : Layout) (st : Store α) (h : Host α) : Prop :=
  ∀ o t, g.tensor? o = some t → ∀ i < g.extent o, st.view h (l.slotOf o) i = (h.read t).view 0 i

/-- Copying to the host leaves the live parameters as they are. -/
theorem view_sync (st : Store α) (h : Host α) (slot : Slot) :
    st.view (st.sync h) slot = st.view h slot := by
  cases st <;> rfl

namespace Serves

omit [Zero α] in
theorem size_read (hs : st.Serves g l h) {o : Owner} {t : Tensor} (ht : g.tensor? o = some t) :
    (h.read t).size = g.extent o :=
  (hs.hosted.size o t ht).trans (hs.count o t ht)

/-- A change of one parameter reaches all of its elements, and no other parameter. -/
theorem update (hs : st.Serves g l h) (hl : l.Fits g) {o : Owner}
    (ho : (g.tensor? o).isSome = true) (f : Nat → α → α) :
    (st.update h (l.slotOf o) f).1.Serves g l (st.update h (l.slotOf o) f).2 ∧
      (∀ i < g.extent o, (st.update h (l.slotOf o) f).1.view (st.update h (l.slotOf o) f).2
          (l.slotOf o) i = f i (st.view h (l.slotOf o) i)) ∧
      ∀ p, (g.tensor? p).isSome = true → p ≠ o → ∀ i < g.extent p,
        (st.update h (l.slotOf o) f).1.view (st.update h (l.slotOf o) f).2 (l.slotOf p) i =
          st.view h (l.slotOf p) i := by
  have hlen := hl.len_eq ho
  obtain ⟨hbacks, hhosted, hapart, hcount⟩ := hs
  cases hbacks with
  | owned hsize hoffset =>
    rename_i buffer
    have hle := hl.flat_le o ho
    rw [hlen] at hle
    have hfills := Buffer.update_fills (hsize ▸ hle) f
    refine ⟨⟨?_, hhosted, hapart, hcount⟩, fun i hi => ?_, fun p hp hne i hi => ?_⟩
    · exact Backs.owned ((Buffer.size_update ..).trans hsize) hoffset
    · simp only [Store.update, Store.view, hoffset o ho, hlen]
      exact hfills.view_eq i hi
    · have hdisjoint := hl.flat_disjoint p o hp ho hne
      rw [hlen, hl.len_eq hp] at hdisjoint
      simp only [Store.update, Store.view, hoffset o ho, hoffset p hp, hlen]
      exact hfills.view_of_disjoint hdisjoint hi
  | shared htensors =>
    obtain ⟨t, ht⟩ := Option.isSome_iff_exists.1 ho
    obtain ⟨hget, hoffset⟩ := htensors o t ht
    have hroom : 0 + g.extent o ≤ (h.read t).size := by
      rw [hhosted.size o t ht, hcount o t ht, Nat.zero_add]
    have hfills := Buffer.update_fills hroom f
    simp only [Store.update, hget]
    refine ⟨⟨Backs.shared htensors, hhosted.modify t (Buffer.size_update ..), hapart, hcount⟩,
      fun i hi => ?_, fun p hp hne i hi => ?_⟩
    · simp only [Store.view, hget, hoffset, hlen]
      rw [h.read_modify_of_eq _ rfl (hhosted.cell_lt o t ht)]
      exact hfills.view_eq i hi
    · obtain ⟨u, hu⟩ := Option.isSome_iff_exists.1 hp
      obtain ⟨hgetp, -⟩ := htensors p u hu
      simp only [Store.view, hgetp]
      rw [h.read_modify_of_ne _ fun heq => hne (hapart o p t u ht hu heq).symm]

/-- Copying to the host makes the host tensors equal to the live parameters. -/
theorem sync (hs : st.Serves g l h) :
    st.Serves g l (st.sync h) ∧ st.Current g l (st.sync h) := by
  obtain ⟨hbacks, hhosted, hapart, hcount⟩ := hs
  cases hbacks with
  | owned hsize hoffset =>
    rename_i buffer
    obtain ⟨hsynced, hread⟩ := foldl_forall
      (fun h p => h.modify p.2 fun b => b.write 0 p.2.count (buffer.view (l.slotOf p.1).flat))
      g.HostedBy
      (fun h p => ∀ i < p.2.count, (h.read p.2).view 0 i = buffer.view (l.slotOf p.1).flat i)
      g.parameters
      (fun h hh p hp => hh.modify p.2 (Buffer.size_write ..))
      (fun h hh p hp i hi => by
        have hp := Graph.mem_parameters.1 hp
        rw [h.read_modify_of_eq _ rfl (hh.cell_lt p.1 p.2 hp)]
        exact (Buffer.write_fills (by rw [hh.size p.1 p.2 hp]; omega) _).view_eq i hi)
      (fun h hh p hmem q hmem' hne hdone i hi => by
        have hp := Graph.mem_parameters.1 hmem
        have hq := Graph.mem_parameters.1 hmem'
        rw [h.read_modify_of_ne, hdone i hi]
        exact fun heq => hne (Graph.eq_of_owner_eq hmem' hmem (hapart _ _ _ _ hq hp heq.symm)))
      hhosted
    have hfold :
        (Store.owned buffer (g.parameters.map fun p => (p.2, (l.slotOf p.1).flat))).sync h =
          g.parameters.foldl (fun h p => h.modify p.2 fun b =>
            b.write 0 p.2.count (buffer.view (l.slotOf p.1).flat)) h := by
      rw [Store.sync, List.foldl_map]
    rw [hfold]
    refine ⟨⟨.owned hsize hoffset, hsynced, hapart, hcount⟩, fun o t ht i hi => ?_⟩
    rw [hread (o, t) (Graph.mem_parameters.2 ht) i (by rw [hcount o t ht]; exact hi), Store.view,
      hoffset o (by rw [ht, Option.isSome_some])]
  | shared htensors =>
    refine ⟨⟨.shared htensors, hhosted, hapart, hcount⟩, fun o t ht i hi => ?_⟩
    obtain ⟨hget, hoffset⟩ := htensors o t ht
    simp only [Store.sync, Store.view, hget, hoffset]

/-- Reading the host tensors makes the live parameters equal to them. -/
theorem reload (hs : st.Serves g l h) (hl : l.Fits g) :
    (st.reload h).Serves g l h ∧ (st.reload h).Current g l h := by
  obtain ⟨hbacks, hhosted, hapart, hcount⟩ := hs
  cases hbacks with
  | owned hsize hoffset =>
    rename_i buffer
    have hlen : ∀ p ∈ g.parameters, (g.tensor? p.1).isSome = true ∧
        (h.read p.2).size = g.extent p.1 ∧ (l.slotOf p.1).len = g.extent p.1 := by
      intro p hp
      have hp := Graph.mem_parameters.1 hp
      have hsome : (g.tensor? p.1).isSome = true := by rw [hp, Option.isSome_some]
      exact ⟨hsome, (hhosted.size _ _ hp).trans (hcount _ _ hp), hl.len_eq hsome⟩
    obtain ⟨hsize', hread⟩ := foldl_forall
      (fun (b : Buffer α) p =>
        b.write (l.slotOf p.1).flat (h.read p.2).size ((h.read p.2).view 0))
      (fun b => b.size = l.paramLen)
      (fun b p => ∀ i < g.extent p.1, b.view (l.slotOf p.1).flat i = (h.read p.2).view 0 i)
      g.parameters
      (fun b hb p hp => (Buffer.size_write ..).trans hb)
      (fun b hb p hp i hi => by
        obtain ⟨hsome, hread, hslot⟩ := hlen p hp
        have hle := hl.flat_le p.1 hsome
        exact (Buffer.write_fills (by omega) _).view_eq i (by omega))
      (fun b hb p hp q hq hne hdone i hi => by
        obtain ⟨hsome, hread, hslot⟩ := hlen p hp
        obtain ⟨hsome', -, hslot'⟩ := hlen q hq
        have howner : q.1 ≠ p.1 := fun heq => hne (Graph.eq_of_owner_eq hq hp heq)
        have hle := hl.flat_le p.1 hsome
        have hdisjoint := hl.flat_disjoint q.1 p.1 hsome' hsome howner
        rw [(Buffer.write_fills (by omega) _).view_of_disjoint (n := g.extent q.1) (by omega) hi,
          hdone i hi])
      hsize
    have hfold : (Store.owned buffer
        (g.parameters.map fun p => (p.2, (l.slotOf p.1).flat))).reload h =
        .owned (g.parameters.foldl (fun b p =>
          b.write (l.slotOf p.1).flat (h.read p.2).size ((h.read p.2).view 0)) buffer)
          (g.parameters.map fun p => (p.2, (l.slotOf p.1).flat)) := by
      rw [Store.reload, List.foldl_map]
    rw [hfold]
    refine ⟨⟨.owned hsize' hoffset, hhosted, hapart, hcount⟩, fun o t ht i hi => ?_⟩
    rw [Store.view, hoffset o (by rw [ht, Option.isSome_some])]
    exact hread (o, t) (Graph.mem_parameters.2 ht) i hi
  | shared htensors =>
    refine ⟨⟨.shared htensors, hhosted, hapart, hcount⟩, fun o t ht i hi => ?_⟩
    obtain ⟨hget, hoffset⟩ := htensors o t ht
    simp only [Store.reload, Store.view, hget, hoffset]

end Serves

/-! ## Compiled stores -/

section Place

variable {f : Tensor → Buffer α}

omit [Zero α] in
theorem exists_foldl_append (f : Tensor → Buffer α) (b : Buffer α) (ts : List Tensor) :
    ∃ c, ts.foldl (fun b t => b ++ f t) b = b ++ c := by
  induction ts generalizing b with
  | nil => exact ⟨#[], by simp⟩
  | cons t ts ih =>
    obtain ⟨c, hc⟩ := ih (b ++ f t)
    exact ⟨f t ++ c, by rw [List.foldl_cons, hc, Array.append_assoc]⟩

omit [Zero α] in
/-- Copies of tensors take up as many elements as their shapes ask for. -/
theorem size_foldl_append {ts : List Tensor} (hsize : ∀ t ∈ ts, (f t).size = t.count)
    (b : Buffer α) :
    (ts.foldl (fun b t => b ++ f t) b).size = b.size + packedLength Tensor.count ts := by
  induction ts generalizing b with
  | nil => rfl
  | cons t ts ih =>
    rw [List.foldl_cons, ih fun u hu => hsize u (List.mem_cons_of_mem t hu), Array.size_append,
      hsize t List.mem_cons_self, packedLength, Nat.add_assoc]

/-- The copy of a tensor stands after the copies of the tensors before it. -/
theorem view_foldl_append {before after : List Tensor} {t : Tensor}
    (hsize : ∀ u ∈ before ++ t :: after, (f u).size = u.count) {i : Nat} (hi : i < t.count) :
    ((before ++ t :: after).foldl (fun b u => b ++ f u) #[]).view
      (packedLength Tensor.count before) i = (f t).view 0 i := by
  have hbefore := size_foldl_append (fun u hu => hsize u (List.mem_append_left _ hu)) #[]
  have ht := hsize t (by simp)
  rw [List.foldl_append, List.foldl_cons]
  generalize before.foldl (fun b u => b ++ f u) #[] = b at hbefore ⊢
  obtain ⟨c, hc⟩ := exists_foldl_append f (b ++ f t) after
  rw [hc]
  simp only [Array.size_empty, Nat.zero_add] at hbefore
  simp only [Buffer.view, Array.getD_eq_getD_getElem?, ← hbefore, Nat.zero_add]
  rw [Array.getElem?_append_left (by rw [Array.size_append]; omega),
    Array.getElem?_append_right (by omega), Nat.add_sub_cancel_left]

end Place

/-- The store of a compiled graph holds its parameters, with the elements of the host tensors. -/
theorem serves_of_compile {s : Schedule} {ownership : Ownership} {aux : Nat}
    (hc : Layout.compile g h ownership aux = .ok (s, l, st)) (hh : g.HostedBy h) :
    st.Serves g l h ∧ st.Current g l h := by
  obtain ⟨-, hshape, hplace, hl⟩ := Layout.compile_spec hc
  obtain ⟨hnone, howned, hshared⟩ := place_spec hplace
  have hcount : ∀ o t, g.tensor? o = some t → t.count = g.extent o :=
    fun o t ht => Layout.count_eq_extent hshape ht
  have hsize : ∀ t ∈ g.parameters.map Prod.snd, (h.read t).size = t.count := by
    intro t ht
    obtain ⟨p, hp, rfl⟩ := List.mem_map.1 ht
    exact hh.size p.1 p.2 (Graph.mem_parameters.1 hp)
  cases ownership with
  | copy =>
    have hoffset : ∀ o, (g.tensor? o).isSome = true → (l.slotOf o).offset = (l.slotOf o).flat := by
      intro o ho
      obtain ⟨t, ht⟩ := Option.isSome_iff_exists.1 ho
      obtain ⟨before, after, -, -, hcopy, -⟩ := hl.split_slotOf ht
      exact hcopy rfl
    rw [howned rfl, hl.packed_parameters]
    refine ⟨⟨.owned ?_ hoffset, hh, apart_of_sharedPair? hnone, hcount⟩, fun o t ht i hi => ?_⟩
    · rw [size_foldl_append hsize, hl.paramLen_eq, totalCount_eq_packedLength, Array.size_empty,
        Nat.zero_add]
    · obtain ⟨before, after, hsplit, hflat, -, -⟩ := hl.split_slotOf ht
      rw [hsplit, List.map_append, List.map_cons] at hsize
      rw [Store.view, hoffset o (by rw [ht, Option.isSome_some]), hflat,
        totalCount_eq_packedLength, hsplit, List.map_append, List.map_cons]
      exact view_foldl_append hsize (by rw [hcount o t ht]; exact hi)
  | reference =>
    have htensors : ∀ o t, g.tensor? o = some t →
        (g.parameters.map Prod.snd)[(l.slotOf o).buffer]? = some t ∧ (l.slotOf o).offset = 0 := by
      intro o t ht
      obtain ⟨before, after, hsplit, -, -, hreference⟩ := hl.split_slotOf ht
      obtain ⟨hbuffer, hoffset⟩ := hreference rfl
      exact ⟨by simp [hsplit, hbuffer], hoffset⟩
    rw [hshared rfl]
    refine ⟨⟨.shared htensors, hh, apart_of_sharedPair? hnone, hcount⟩, fun o t ht i hi => ?_⟩
    obtain ⟨hget, hoffset⟩ := htensors o t ht
    simp only [Store.view, hget, hoffset]

end Store

end GraphTape
