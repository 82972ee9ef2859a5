import GraphTape.Memory.Store
import Mathlib.Data.List.Nodup

/-!
# Shared storage

The search that placement makes before anything else. It goes through the positions in order and
looks for an earlier tensor in the same storage, so it reports the least position that repeats an
earlier one, and of those the first.

* `Store.FirstRepeat`: what is reported of tensors that share their storage.
* `Store.sharedPair?_eq_some_iff`, `Store.sharedPair?_eq_none_iff`: what the search finds.
* `Store.place_eq_error_iff`: when placement fails, and how.
-/

namespace GraphTape

/-- A search that succeeds does so at a first place. -/
theorem exists_first_of_findSome? {ι τ : Type} {f : ι → Option τ} {xs : List ι} {y : τ}
    (h : xs.findSome? f = some y) :
    ∃ (k : Nat) (x : ι), xs[k]? = some x ∧ f x = some y ∧
      ∀ j < k, ∀ z, xs[j]? = some z → f z = none := by
  obtain ⟨front, x, back, rfl, hx, hfront⟩ := List.findSome?_eq_some_iff.1 h
  refine ⟨front.length, x, by simp, hx, fun j hj z hz => hfront z ?_⟩
  rw [List.getElem?_append_left hj] at hz
  exact List.mem_of_getElem? hz

namespace Store

/-- The twin of a tensor is the first one before it in the same cell. -/
theorem twin?_eq_some {tensors : List Tensor} {i j : Nat} {t : Tensor} :
    twin? tensors j t = some i ↔ i < j ∧ (∃ u, tensors[i]? = some u ∧ u.cell = t.cell) ∧
      ∀ k < i, ∀ u, tensors[k]? = some u → u.cell ≠ t.cell := by
  rw [twin?, List.findIdx?_eq_some_iff_getElem]
  constructor
  · rintro ⟨hi, hcell, hfirst⟩
    rw [List.length_take] at hi
    refine ⟨by omega, ⟨tensors[i], by simp [show i < tensors.length by omega], ?_⟩, ?_⟩
    · simpa [Tensor.sameStorage] using hcell
    · intro k hk u hu
      obtain ⟨hlt, rfl⟩ := List.getElem?_eq_some_iff.1 hu
      simpa [Tensor.sameStorage] using hfirst k hk
  · rintro ⟨hij, ⟨u, hu, hcell⟩, hfirst⟩
    obtain ⟨hlt, rfl⟩ := List.getElem?_eq_some_iff.1 hu
    refine ⟨by rw [List.length_take]; omega, by simpa [Tensor.sameStorage] using hcell, ?_⟩
    intro k hk
    simpa [Tensor.sameStorage] using hfirst k hk _ (List.getElem?_eq_getElem (by omega))

/-- The tensors at two positions share their storage. -/
def Shares (ts : List Tensor) (i j : Nat) : Prop :=
  ∃ t u, ts[i]? = some t ∧ ts[j]? = some u ∧ t.sameStorage u = true

/-- Position `i` is the least one that repeats the storage of an earlier position, and `first` is
the first position that it repeats. -/
structure FirstRepeat (ts : List Tensor) (first i : Nat) : Prop where
  lt : first < i
  shares : Shares ts first i
  earliest : ∀ k < first, ¬ Shares ts k i
  least : ∀ j < i, ∀ k < j, ¬ Shares ts k j

variable {ts : List Tensor} {first i : Nat}

theorem FirstRepeat.unique {first' i' : Nat} (h : FirstRepeat ts first i)
    (h' : FirstRepeat ts first' i') : first = first' ∧ i = i' := by
  obtain rfl : i = i' := by
    rcases Nat.lt_trichotomy i i' with hlt | heq | hlt
    · exact absurd h.shares (h'.least i hlt first h.lt)
    · exact heq
    · exact absurd h'.shares (h.least i' hlt first' h'.lt)
  refine ⟨?_, rfl⟩
  rcases Nat.lt_trichotomy first first' with hlt | heq | hlt
  · exact absurd h.shares (h'.earliest first hlt)
  · exact heq
  · exact absurd h'.shares (h.earliest first' hlt)

theorem twin?_eq_none {j : Nat} {u : Tensor} (hu : ts[j]? = some u) :
    twin? ts j u = none ↔ ∀ k < j, ¬ Shares ts k j := by
  constructor
  · rintro h k hk ⟨t, u', ht, hu', hsame⟩
    obtain rfl := Option.some.inj (hu.symm.trans hu')
    rw [twin?, List.findIdx?_eq_none_iff] at h
    have hmem : t ∈ ts.take j := List.mem_of_getElem? (by rwa [List.getElem?_take_of_lt hk])
    exact absurd hsame (Bool.eq_false_iff.1 (h t hmem))
  · intro h
    rw [Option.eq_none_iff_forall_ne_some]
    intro k hk
    obtain ⟨hlt, ⟨t, ht, hcell⟩, -⟩ := twin?_eq_some.1 hk
    exact h k hlt ⟨t, u, ht, hu, beq_iff_eq.2 hcell⟩

theorem firstRepeat_of_sharedPair? (h : sharedPair? ts = some (first, i)) :
    FirstRepeat ts first i := by
  obtain ⟨k, ⟨u, j⟩, hx, hpair, hearlier⟩ := exists_first_of_findSome? h
  obtain ⟨m, hm, hmi⟩ := Option.map_eq_some_iff.1 hpair
  obtain ⟨rfl, rfl⟩ := Prod.mk.inj hmi
  have hat : ∀ {k : Nat} {v : Tensor}, ts[k]? = some v → ts.zipIdx[k]? = some (v, k) := by
    intro k v hv
    rw [List.getElem?_zipIdx, hv, Option.map_some, Nat.zero_add]
  rw [List.getElem?_zipIdx, Option.map_eq_some_iff] at hx
  obtain ⟨u', hu, huj⟩ := hx
  obtain ⟨rfl, rfl⟩ := Prod.mk.inj huj
  rw [Nat.zero_add] at hm ⊢
  obtain ⟨hlt, ⟨t, ht, hcell⟩, hfirst⟩ := twin?_eq_some.1 hm
  refine ⟨hlt, ⟨t, u', ht, hu, beq_iff_eq.2 hcell⟩, ?_, ?_⟩
  · rintro n hn ⟨v, w, hv, hw, hsame⟩
    obtain rfl := Option.some.inj (hu.symm.trans hw)
    exact hfirst n hn v hv (beq_iff_eq.1 hsame)
  · rintro n hn l hl ⟨v, w, hv, hw, hsame⟩
    have hnone := Option.map_eq_none_iff.1 (hearlier n hn _ (hat hw))
    exact (twin?_eq_none hw).1 hnone l hl ⟨v, w, hv, hw, hsame⟩

/-- The search finds nothing exactly if no two positions share their storage. -/
theorem sharedPair?_eq_none_iff : sharedPair? ts = none ↔ ∀ i j, i < j → ¬ Shares ts i j := by
  constructor
  · rintro h i j hlt ⟨t, u, ht, hu, hsame⟩
    rw [sharedPair?, List.findSome?_eq_none_iff] at h
    have hmem : (u, j) ∈ ts.zipIdx := List.mk_mem_zipIdx_iff_getElem?.2 hu
    have hnone := Option.map_eq_none_iff.1 (h _ hmem)
    exact (twin?_eq_none hu).1 hnone i hlt ⟨t, u, ht, hu, hsame⟩
  · intro h
    rw [Option.eq_none_iff_forall_ne_some]
    rintro ⟨first, i⟩ hpair
    have hfirst := firstRepeat_of_sharedPair? hpair
    exact h first i hfirst.lt hfirst.shares

theorem sharedPair?_eq_some_iff :
    sharedPair? ts = some (first, i) ↔ FirstRepeat ts first i := by
  refine ⟨firstRepeat_of_sharedPair?, fun h => ?_⟩
  cases hpair : sharedPair? ts with
  | none => exact absurd h.shares (sharedPair?_eq_none_iff.1 hpair first i h.lt)
  | some pair =>
    obtain ⟨rfl, rfl⟩ := h.unique (firstRepeat_of_sharedPair? hpair)
    rfl

/-- Tensors without a shared pair are in different cells. -/
theorem nodup_of_sharedPair? (h : sharedPair? ts = none) : (ts.map Tensor.cell).Nodup := by
  rw [List.Nodup, List.pairwise_map, List.pairwise_iff_getElem]
  intro i j hi hj hlt heq
  exact sharedPair?_eq_none_iff.1 h i j hlt
    ⟨ts[i], ts[j], List.getElem?_eq_getElem hi, List.getElem?_eq_getElem hj, beq_iff_eq.2 heq⟩

section Place

variable {α : Type} {h : Host α}

/-- Placement fails with the first repetition of a storage, and for no other reason. -/
theorem place_eq_error_iff {ownership : Ownership} {e : Error α} :
    place ownership h ts = .error e ↔
      ∃ first i, e = .sharedStorage first i ∧ FirstRepeat ts first i := by
  unfold place
  constructor
  · intro hp
    split at hp
    · rename_i first i hpair
      exact ⟨first, i, (Except.error.inj hp).symm, firstRepeat_of_sharedPair? hpair⟩
    · cases ownership <;> contradiction
  · rintro ⟨first, i, rfl, hfirst⟩
    rw [sharedPair?_eq_some_iff.2 hfirst]

/-- What a placed store was checked for, and what it is. -/
theorem place_spec {ownership : Ownership} {st : Store α}
    (hp : place ownership h ts = .ok st) :
    sharedPair? ts = none ∧
      (ownership = .copy →
        st = owned (ts.foldl (fun b t => b ++ h.read t) #[]) (packed Tensor.count 0 ts)) ∧
      (ownership = .reference → st = shared ts) := by
  unfold place at hp
  split at hp
  · contradiction
  · rename_i hnone
    refine ⟨hnone, ?_, ?_⟩ <;> rintro rfl <;> exact (Except.ok.inj hp).symm

theorem exists_place (hnone : sharedPair? ts = none) (ownership : Ownership) (h : Host α) :
    ∃ st, place ownership h ts = .ok st := by
  unfold place
  rw [hnone]
  cases ownership <;> exact ⟨_, rfl⟩

/-- Placement succeeds exactly if no two positions share their storage. -/
theorem exists_place_iff {ownership : Ownership} :
    (∃ st, place ownership h ts = .ok st) ↔ ∀ i j, i < j → ¬ Shares ts i j := by
  rw [← sharedPair?_eq_none_iff]
  exact ⟨fun ⟨_, hp⟩ => (place_spec hp).1, fun hnone => exists_place hnone ownership h⟩

end Place

end Store

end GraphTape
