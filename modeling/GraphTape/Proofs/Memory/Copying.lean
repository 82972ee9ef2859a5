import GraphTape.Memory.Store

/-!
# Copies to the host

A store that has copied its values to the host tensors writes the same places when it copies
again: of two copies the second one counts, whatever the values. The state of the host between
the two does not matter, as far as it comes from the first copy.

* `Store.sync_sync`: two copies in a row.
* `Store.Hides`: states of the host that a copy makes equal.
-/

namespace GraphTape

variable {α : Type}

namespace Host

theorem modify_modify_of_eq (h : Host α) {t u : Tensor} (f k : Buffer α → Buffer α)
    (heq : t.cell = u.cell) : (h.modify t f).modify u k = h.modify u fun b => k (f b) := by
  rw [modify, modify, modify, heq]
  congr 1
  apply Array.ext_getElem?
  intro i
  simp only [Array.getElem?_modify]
  split
  · rw [Option.map_map]
    rfl
  · rfl

theorem modify_comm (h : Host α) {t u : Tensor} (f k : Buffer α → Buffer α)
    (hne : t.cell ≠ u.cell) : (h.modify t f).modify u k = (h.modify u k).modify t f := by
  rw [modify, modify, modify, modify]
  congr 1
  apply Array.ext_getElem?
  intro i
  simp only [Array.getElem?_modify]
  split <;> split
  · omega
  · rfl
  · rfl
  · rfl

end Host

theorem Buffer.write_write (b : Buffer α) (n : Nat) (f k : Nat → α) :
    (b.write 0 n f).write 0 n k = b.write 0 n k := by
  apply Array.ext_getElem?
  intro i
  simp only [getElem?_write]
  grind

/-- Two writes from the start on can be made in the other order if the values are adjusted. -/
theorem Buffer.write_comm (b : Buffer α) (m n : Nat) (f k : Nat → α) :
    (b.write 0 m f).write 0 n k =
      (b.write 0 n k).write 0 m fun i => if i < n then k i else f i := by
  apply Array.ext_getElem?
  intro i
  simp only [getElem?_write]
  grind

/-- Two writes to tensors can be made in the other order. What the first one writes has to be
adjusted if the tensors share their cell. -/
theorem Host.exists_write_comm (h : Host α) (t u : Tensor) (f k : Nat → α) : ∃ f',
    ((h.modify t fun b => b.write 0 t.count f).modify u fun b => b.write 0 u.count k) =
      (h.modify u fun b => b.write 0 u.count k).modify t fun b => b.write 0 t.count f' := by
  by_cases heq : t.cell = u.cell
  · refine ⟨fun i => if i < u.count then k i else f i, ?_⟩
    rw [h.modify_modify_of_eq _ _ heq, h.modify_modify_of_eq _ _ heq.symm, modify, modify, heq]
    simp only [Buffer.write_comm _ t.count u.count]
  · exact ⟨f, h.modify_comm _ _ heq⟩

namespace Store

variable [Zero α]

/-- What was written to a tensor is lost once the store has copied its values to the host. -/
theorem sync_modify_write (buffer : Buffer α) {hosts : List (Tensor × Nat)} {p : Tensor × Nat}
    (hp : p ∈ hosts) (f : Nat → α) (h : Host α) :
    (owned buffer hosts).sync (h.modify p.1 fun b => b.write 0 p.1.count f) =
      (owned buffer hosts).sync h := by
  induction hosts generalizing f h with
  | nil => simp at hp
  | cons q hosts ih =>
    simp only [sync, List.foldl_cons] at ih ⊢
    rcases List.mem_cons.1 hp with rfl | hp
    · rw [h.modify_modify_of_eq _ _ rfl]
      simp only [Buffer.write_write]
    · -- the write to `p` is moved behind the one to `q`, where the other copies hide it
      obtain ⟨f', hcomm⟩ := h.exists_write_comm p.1 q.1 f (buffer.view q.2)
      rw [hcomm, ih hp]

/-- Of two copies to the same tensors the second one counts. -/
theorem sync_sync (buffer buffer' : Buffer α) (hosts : List (Tensor × Nat)) (h : Host α) :
    (owned buffer' hosts).sync ((owned buffer hosts).sync h) = (owned buffer' hosts).sync h := by
  suffices hlost : ∀ (copied : List (Tensor × Nat)) (h : Host α), (∀ p ∈ copied, p ∈ hosts) →
      (owned buffer' hosts).sync ((owned buffer copied).sync h) = (owned buffer' hosts).sync h from
    hlost hosts h fun _ => id
  intro copied
  induction copied with
  | nil => exact fun h _ => rfl
  | cons p copied ih =>
    intro h hmem
    have hhead : (owned buffer (p :: copied)).sync h = (owned buffer copied).sync
        (h.modify p.1 fun b => b.write 0 p.1.count (buffer.view p.2)) := rfl
    rw [hhead, ih _ fun q hq => hmem q (List.mem_cons_of_mem p hq),
      sync_modify_write buffer' (hmem p List.mem_cons_self)]

/-- The states `h` and `h'` of the host are equal once the store has copied its values, whatever
these are by then. A store without values of its own hides nothing. -/
inductive Hides : Store α → Host α → Host α → Prop
  | owned {buffer : Buffer α} {hosts : List (Tensor × Nat)} {h h' : Host α}
      (hsync : ∀ values, (Store.owned values hosts).sync h' = (Store.owned values hosts).sync h) :
      Hides (.owned buffer hosts) h h'
  | shared {tensors : List Tensor} {h : Host α} : Hides (.shared tensors) h h

namespace Hides

variable {st : Store α} {h h' h'' : Host α}

theorem refl (st : Store α) (h : Host α) : st.Hides h h := by
  cases st with
  | owned => exact .owned fun _ => rfl
  | shared => exact .shared

theorem trans (hh : st.Hides h h') (hh' : st.Hides h' h'') : st.Hides h h'' := by
  cases hh with
  | owned hsync =>
    cases hh' with
    | owned hsync' => exact .owned fun values => (hsync' values).trans (hsync values)
  | shared => exact hh'

/-- A copy to the host is hidden by the next one. -/
theorem sync (st : Store α) (h : Host α) : st.Hides h (st.sync h) := by
  cases st with
  | owned buffer hosts => exact .owned fun values => sync_sync buffer values hosts h
  | shared => exact .shared

theorem sync_eq (hh : st.Hides h h') : st.sync h' = st.sync h := by
  cases hh with
  | owned hsync => exact hsync _
  | shared => rfl

/-- A change of the values of a store is the same from hosts that the store hides. -/
theorem update (hh : st.Hides h h') (slot : Slot) (f : Nat → α → α) :
    (st.update h' slot f).1 = (st.update h slot f).1 ∧
      (st.update h slot f).1.Hides (st.update h slot f).2 (st.update h' slot f).2 := by
  cases hh with
  | owned hsync => exact ⟨rfl, .owned hsync⟩
  | shared => exact ⟨rfl, .refl _ _⟩

end Hides

end Store

end GraphTape
