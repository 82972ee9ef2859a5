import GraphTape.Proofs.Engine.Forward
import Mathlib.Data.String.Basic

/-!
# The outputs of an evaluation

The values of the output nodes are returned under the names of the nodes, and nothing keeps two
output nodes from having one name. What is returned under a name is the value of the last output
node that has it; the values of the others are lost, and when all output nodes have one name the
outputs pass for a single one. Nothing is lost exactly when the names are different.

* `Outputs.get?_insert`, `Outputs.sorted_insert`: outputs as a map with ordered keys.
* `Engine.forward_keeps_last_of_each_name`: what an evaluation returns.
* `Engine.forward_loses_an_output`: two output nodes of one name.
-/

namespace GraphTape

namespace Outputs

variable {α ι : Type}

/-! ## Outputs as a map -/

theorem find?_insertEntry (name : String) (values : List α) (entries : List (String × List α))
    (key : String) : (insertEntry name values entries).find? (fun entry => entry.1 == key) =
      if key = name then some (name, values) else entries.find? fun entry => entry.1 == key := by
  induction entries with
  | nil =>
    rw [insertEntry, List.find?_cons]
    grind
  | cons entry entries ih =>
    obtain ⟨other, old⟩ := entry
    rw [insertEntry]
    by_cases hname : name = other
    · subst hname
      rw [if_pos rfl, List.find?_cons, List.find?_cons]
      grind
    · rw [if_neg hname]
      split
      · rw [List.find?_cons]
        grind
      · rw [List.find?_cons, List.find?_cons, ih]
        grind

theorem get?_insert (o : Outputs α) (name : String) (values : List α) (key : String) :
    (o.insert name values).get? key = if key = name then some values else o.get? key := by
  rw [get?, insert, find?_insertEntry]
  split <;> rfl

/-- The names in ascending order, each of them once. -/
def Sorted (o : Outputs α) : Prop := (o.entries.map Prod.fst).Pairwise (· < ·)

theorem mem_keys_iff (o : Outputs α) (key : String) :
    key ∈ o.entries.map Prod.fst ↔ (o.get? key).isSome = true := by
  rw [get?, Option.isSome_map, List.find?_isSome, List.mem_map]
  simp

theorem sorted_insertEntry {entries : List (String × List α)}
    (h : (entries.map Prod.fst).Pairwise (· < ·)) (name : String) (values : List α) :
    ((insertEntry name values entries).map Prod.fst).Pairwise (· < ·) ∧
      ∀ key ∈ (insertEntry name values entries).map Prod.fst,
        key = name ∨ key ∈ entries.map Prod.fst := by
  induction entries with
  | nil => simp [insertEntry]
  | cons entry entries ih =>
    obtain ⟨other, old⟩ := entry
    rw [List.map_cons, List.pairwise_cons] at h
    obtain ⟨hrest, hkeys⟩ := ih h.2
    rw [insertEntry]
    split
    · rename_i heq
      subst heq
      exact ⟨List.pairwise_cons.2 h, fun key hkey => .inr hkey⟩
    · rename_i hne
      split
      · rename_i hlt
        refine ⟨List.pairwise_cons.2 ⟨fun key hkey => ?_, List.pairwise_cons.2 h⟩, fun key hkey =>
          List.mem_cons.1 hkey⟩
        rcases List.mem_cons.1 hkey with rfl | hkey
        · exact hlt
        · exact hlt.trans (h.1 key hkey)
      · rename_i hge
        have hlt : other < name := lt_of_le_of_ne (not_lt.1 hge) (Ne.symm hne)
        refine ⟨List.pairwise_cons.2 ⟨fun key hkey => ?_, hrest⟩, fun key hkey => ?_⟩
        · rcases hkeys key hkey with rfl | hkey
          · exact hlt
          · exact h.1 key hkey
        · rcases List.mem_cons.1 hkey with rfl | hkey
          · exact .inr List.mem_cons_self
          · exact (hkeys key hkey).imp id (List.mem_cons_of_mem _)

theorem sorted_insert {o : Outputs α} (h : o.Sorted) (name : String) (values : List α) :
    (o.insert name values).Sorted := (sorted_insertEntry h name values).1

/-- Outputs pass for a single one if there is one name in all. -/
theorem isSome_sole?_iff {o : Outputs α} (h : o.Sorted) :
    o.sole?.isSome = true ↔ ∃ name, ∀ key, (o.get? key).isSome = true ↔ key = name := by
  simp only [← mem_keys_iff]
  rw [Sorted] at h
  rw [sole?]
  generalize o.entries = entries at h ⊢
  rcases entries with - | ⟨⟨name, values⟩, - | ⟨⟨other, others⟩, rest⟩⟩
  · simp
  · simp
  · -- two names that stand one after the other are not the same
    refine iff_of_false (by simp) ?_
    rintro ⟨only, honly⟩
    have hlt : name < other := (List.pairwise_cons.1 h).1 other List.mem_cons_self
    have hname := (honly name).1 (by simp)
    have hother := (honly other).1 (by simp)
    exact hlt.ne (hname.trans hother.symm)

/-- Vectors that are put under names one after the other. -/
def named (name : ι → String) (values : ι → List α) (is : List ι) : Outputs α :=
  is.foldl (fun o i => o.insert (name i) (values i)) {}

section Named

variable (name : ι → String) (values : ι → List α) (is : List ι)

theorem named_append_singleton (i : ι) :
    named name values (is ++ [i]) = (named name values is).insert (name i) (values i) := by
  rw [named, List.foldl_append]
  rfl

/-- Of the vectors that are put under one name the last one remains. -/
theorem get?_named (key : String) : (named name values is).get? key =
    ((is.filter fun i => name i == key).getLast?).map values := by
  induction is using List.reverseRecOn with
  | nil => rfl
  | append_singleton is i ih =>
    rw [named_append_singleton, get?_insert, ih, List.filter_append]
    by_cases hkey : key = name i
    · simp [hkey]
    · simp [hkey, Ne.symm hkey]

theorem sorted_named : (named name values is).Sorted := by
  induction is using List.reverseRecOn with
  | nil => exact .nil
  | append_singleton is i ih => exact named_append_singleton name values is i ▸ sorted_insert ih ..

theorem isSome_get?_named (key : String) :
    ((named name values is).get? key).isSome = true ↔ ∃ i ∈ is, name i = key := by
  rw [get?_named, Option.isSome_map, Option.isSome_iff_ne_none, Ne, List.getLast?_eq_none_iff,
    List.filter_eq_nil_iff]
  simp

/-- Vectors that are put under names pass for a single one if all names are the same. -/
theorem isSome_sole?_named :
    (named name values is).sole?.isSome = true ↔
      is ≠ [] ∧ ∀ i ∈ is, ∀ j ∈ is, name i = name j := by
  rw [isSome_sole?_iff (sorted_named name values is)]
  simp only [isSome_get?_named]
  constructor
  · rintro ⟨only, honly⟩
    obtain ⟨i, hi, -⟩ := (honly only).2 rfl
    refine ⟨List.ne_nil_of_mem hi, fun i hi j hj => ?_⟩
    rw [(honly _).1 ⟨i, hi, rfl⟩, (honly _).1 ⟨j, hj, rfl⟩]
  · rintro ⟨hne, hsame⟩
    obtain ⟨i, hi⟩ := List.exists_mem_of_ne_nil is hne
    refine ⟨name i, fun key => ⟨?_, fun hkey => ⟨i, hi, hkey.symm⟩⟩⟩
    rintro ⟨j, hj, rfl⟩
    exact hsame j hj i hi

variable {name is}

/-- Under different names nothing is lost. -/
theorem get?_named_of_nodup (h : (is.map name).Nodup) {i : ι} (hi : i ∈ is) :
    (named name values is).get? (name i) = some (values i) := by
  have hmem : i ∈ is.filter fun j => name j == name i := List.mem_filter.2 ⟨hi, beq_self_eq_true _⟩
  obtain ⟨j, hj⟩ := Option.ne_none_iff_exists'.1 fun hnone =>
    List.ne_nil_of_mem hmem (List.getLast?_eq_none_iff.1 hnone)
  have hlast := List.mem_filter.1 (List.mem_of_getLast? hj)
  obtain rfl := List.inj_on_of_nodup_map h hlast.1 hi (eq_of_beq hlast.2)
  rw [get?_named, hj, Option.map_some]

theorem isSome_sole?_named_of_nodup (h : (is.map name).Nodup) :
    (named name values is).sole?.isSome = true ↔
      is.length = 1 := by
  rw [isSome_sole?_named]
  rcases is with - | ⟨i, - | ⟨j, is⟩⟩
  · simp
  · simp
  · refine iff_of_false (fun hsame => ?_) (by simp)
    have hne := (List.nodup_cons.1 h).1
    rw [hsame.2 i (by simp) j (by simp)] at hne
    exact hne (by simp)

end Named

end Outputs

namespace Engine

variable {α : Type} [Scalar α] {g : Graph α} {s : Schedule} {options : Options α} {train : Bool}
  {e e₁ : Engine α} {h : Host α}

/-! ## The outputs of a graph -/

namespace Sound

/-- The values of the output nodes are put under their names one after the other. -/
theorem collect_eq_named (he : e.Sound g s options) (values : Buffer α) :
    e.collect values =
      .named g.name (fun n => values.slice (e.layout.dataAt n) (g.width n)) g.outputs := by
  rw [collect, Outputs.named, he.outputs]
  refine List.foldl_ext _ _ _ fun o n hn => ?_
  have hlt : n < g.numNodes := g.mem_nodeIds.1 (List.mem_of_mem_filter hn)
  have hname : e.names[n]? = some (g.name n) := by
    simp [he.names, Graph.nodeIds, hlt]
  rw [he.fits.node n hlt, hname]
  rfl

theorem value_of_forward (he : e.Sound g s options) {sample : Sample α} {outputs : Outputs α}
    (hf : e.forward h sample = (.ok outputs, e₁)) :
    ∃ values : Buffer α, outputs = e.collect values ∧ ∀ n < g.numNodes,
      e₁.value n = .ok (values.slice (e.layout.dataAt n) (g.width n)) := by
  obtain ⟨input, banks, rfl, rfl, -⟩ := he.forward_spec hf
  refine ⟨banks.value, rfl, fun n hn => ?_⟩
  rw [Engine.value]
  simp only [he.fits.node n hn]
  rfl

end Sound

/-- **Of several output nodes with one name the last one is returned.** Under a name an evaluation
returns the value of the last output node that has it, and nothing under any other name. The
outputs pass for a single one if all output nodes have the same name. So every output is returned
if the names of the output nodes are different, and the outputs pass for a single one only if they
are. -/
theorem forward_keeps_last_of_each_name (he : Reachable g options train e) {sample : Sample α}
    {outputs : Outputs α} (hf : e.forward h sample = (.ok outputs, e₁)) :
    (∀ n ∈ g.outputs, ∃ values, e₁.value n = .ok values) ∧
    (∀ name, outputs.get? name =
      ((g.outputs.filter fun n => g.name n == name).getLast?).bind fun n =>
        (e₁.value n).toOption) ∧
    (outputs.sole?.isSome = true ↔
      g.outputs ≠ [] ∧ ∀ m ∈ g.outputs, ∀ n ∈ g.outputs, g.name m = g.name n) ∧
    ((g.outputs.map g.name).Nodup →
      (∀ n ∈ g.outputs, outputs.get? (g.name n) = (e₁.value n).toOption) ∧
      (outputs.sole?.isSome = true ↔ g.outputs.length = 1)) := by
  obtain ⟨s, hs⟩ := sound_of_reachable he
  obtain ⟨values, rfl, hvalue⟩ := hs.value_of_forward hf
  have hvalue : ∀ n ∈ g.outputs,
      e₁.value n = .ok (values.slice (e.layout.dataAt n) (g.width n)) := fun n hn =>
    hvalue n (g.mem_nodeIds.1 (List.mem_of_mem_filter hn))
  rw [hs.collect_eq_named]
  refine ⟨fun n hn => ⟨_, hvalue n hn⟩, fun name => ?_, Outputs.isSome_sole?_named ..,
    fun hnodup => ⟨fun n hn => ?_, Outputs.isSome_sole?_named_of_nodup _ hnodup⟩⟩
  · rw [Outputs.get?_named, Option.map_eq_bind]
    refine Option.bind_congr fun n hn => ?_
    rw [hvalue n (List.mem_of_mem_filter (List.mem_of_getLast? hn))]
    rfl
  · rw [Outputs.get?_named_of_nodup _ hnodup hn, hvalue n hn]
    rfl

theorem forward_keeps_last_of_each_name_chain :
    ∃ (e e₁ : Engine ℚ) (outputs : Outputs ℚ),
      compile (.chain 0) .chain .chain true = .ok e ∧
      e.forward .chain .chain = (.ok outputs, e₁) ∧
      outputs.get? "out" = (e₁.value 1).toOption ∧ outputs.sole?.isSome = true := by
  obtain ⟨e, hc, hok⟩ := exists_eq_ok (x := compile (.chain 0) .chain .chain true)
    (f := fun e => (e.forward .chain .chain).1.toOption.isSome) (c := true) (by decide +kernel)
  rcases hf : e.forward .chain .chain with ⟨result, e₁⟩
  cases result with
  | error fault => simp [hf, Except.toOption] at hok
  | ok outputs =>
    obtain ⟨-, -, -, hdistinct⟩ := forward_keeps_last_of_each_name (.compile hc) hf
    obtain ⟨hget, hsole⟩ := hdistinct (by decide)
    exact ⟨e, e₁, outputs, hc, hf, hget 1 (by decide), hsole.2 (by decide)⟩

end Engine

/-- One number in, and two numbers out under one name. -/
def Graph.namesakes : Graph ℚ where
  nodes :=
    #[{ name := "x", width := 1, activation := .identity },
      { name := "y", width := 1, activation := .identity, isOutput := true },
      { name := "y", width := 1, activation := .identity, isOutput := true }]
  edges := #[⟨0, 1, ⟨.matrix 1 1, 0⟩⟩, ⟨0, 2, ⟨.matrix 1 1, 1⟩⟩]
  nodes_pos := by simp
  width_pos := by simp
  ends_lt := by simp
  ends_inj := ends_inj_of_nodup (by decide)

/-- Of two output nodes with one name the first is lost, and the outputs pass for a single one. -/
theorem Engine.forward_loses_an_output :
    ∃ (e e₁ : Engine ℚ) (outputs : Outputs ℚ),
      Engine.compile .namesakes .chain .chain false = .ok e ∧
      e.forward .chain { inputs := [(0, #[1])] } = (.ok outputs, e₁) ∧
      Graph.namesakes.outputs = [1, 2] ∧ Graph.namesakes.name 1 = "y" ∧
      e₁.value 1 = .ok [2] ∧ outputs.get? "y" ≠ some [2] ∧ outputs.sole?.isSome = true := by
  obtain ⟨e, hc, hrun⟩ := exists_eq_ok (x := Engine.compile .namesakes .chain .chain false)
    (f := fun e => ((e.forward .chain { inputs := [(0, #[1])] }).1.toOption.map fun outputs =>
        (outputs.get? "y", outputs.sole?.isSome),
      ((e.forward .chain { inputs := [(0, #[1])] }).2.value 1).toOption))
    (c := (some (some [3], true), some [2])) (by decide +kernel)
  rcases hf : e.forward .chain { inputs := [(0, #[1])] } with ⟨result, e₁⟩
  rw [hf] at hrun
  obtain ⟨houtputs, hvalue⟩ := Prod.mk.inj hrun
  cases result with
  | error fault => simp [Except.toOption] at houtputs
  | ok outputs =>
    obtain ⟨hget, hsole⟩ := Prod.mk.inj (Option.some.inj houtputs)
    cases hlost : e₁.value 1 with
    | error fault => simp [hlost, Except.toOption] at hvalue
    | ok values =>
      obtain rfl : values = [2] := by simpa [hlost, Except.toOption] using hvalue
      exact ⟨e, e₁, outputs, hc, hf, by decide, by decide, hlost, by rw [hget]; decide, hsole⟩

end GraphTape
