import GraphTape.Proofs.Memory.Vectors
import Mathlib.Algebra.Order.Field.Rat

/-!
# Stores implement independent cells

A private buffer keeps the parameters end to end, a shared store reads and writes the cells of the
host themselves. In either case a client sees one live vector and one host vector for each
parameter, and no parameter is touched by what is done to another one. This rests on placement,
which refuses tensors in the same storage, and on lengths, which never change.

* `Store.answer`: what a store and a host answer to a request.
* `Store.Keeps`: what stays true of a store that was placed. `Store.Keeps.answer` is the step.
* `Store.Keeps.eq_of_cells`: the vectors tell a store and a host.
* `Store.place_implements_cells`: when placement fails, and what a placed store answers.
-/

namespace GraphTape.Store

variable {α : Type} {ts : List Tensor}

/-- A store as placement leaves it, whatever the values. -/
inductive Lays (ts : List Tensor) : Store α → Prop
  | owned {buffer : Buffer α} (hsize : buffer.size = packedLength Tensor.count ts) :
      Lays ts (.owned buffer (packed Tensor.count 0 ts))
  | shared : Lays ts (.shared ts)

/-- What stays true of a store that was placed, and of the host. -/
structure Keeps (ts : List Tensor) (st : Store α) (h : Host α) : Prop where
  lays : st.Lays ts
  distinct : (ts.map Tensor.cell).Nodup
  hosted : h.HasTensors ts

variable [Zero α]

/-- What a store and a host answer to a request, and what becomes of them. -/
def answer (s : Store α × Host α) : Cells.Request α ts → Cells.Answer α × (Store α × Host α)
  | .read stretch => (.ok (s.1.read s.2 (stretch.slot s.1.ownership)), s)
  | .write stretch f => (.ok [], s.1.update s.2 (stretch.slot s.1.ownership) f)
  | .sync => (.ok [], (s.1, s.1.sync s.2))
  | .reload => (.ok [], (s.1.reload s.2, s.2))
  | .hostRead t => (.ok (s.2.read t).toList, s)
  | .assign t values =>
    match s.2.assign t values with
    | .ok h => (.ok [], (s.1, h))
    | .error e => (.error e, s)

/-! ## One request -/

namespace Keeps

variable {st : Store α} {h : Host α}

/-- The live vectors of the cells are the values of the store, whoever owns them. -/
theorem live_cells (hk : st.Keeps ts h) : (st.cells ts h).live = st.live h := by
  obtain ⟨hlays, -, hh⟩ := hk
  cases hlays with
  | owned => rfl
  | shared => exact funext fun p => (live_shared hh p).symm

theorem host_cells (st : Store α) (h : Host α) : (st.cells ts h).host = h.behind := by
  cases st <;> rfl

theorem read_eq (hk : st.Keeps ts h) (s : Stretch ts) :
    st.read h (s.slot st.ownership) = (st.cells ts h).read s := by
  rw [Cells.read, hk.live_cells, read, Buffer.slice, Stretch.slot_len]
  exact List.map_congr_left fun i hi => view_slot st h s (List.mem_range.1 hi)

theorem update (hk : st.Keeps ts h) (s : Stretch ts) (f : Nat → α → α) :
    (st.update h (s.slot st.ownership) f).1.Keeps ts (st.update h (s.slot st.ownership) f).2 ∧
      (st.update h (s.slot st.ownership) f).1.cells ts (st.update h (s.slot st.ownership) f).2 =
        (st.cells ts h).write s f := by
  obtain ⟨hlays, hdistinct, hh⟩ := hk
  cases hlays with
  | @owned buffer hsize =>
    rw [ownership, Stretch.slot_copy]
    refine ⟨⟨.owned ((Buffer.size_update ..).trans hsize), hdistinct, hh⟩, ?_⟩
    exact congrArg (Cells.apart · h.behind) (live_update_owned hsize s f)
  | shared =>
    rw [ownership, Stretch.slot_reference]
    simp only [Store.update, Stretch.getElem?_param]
    refine ⟨⟨.shared, hdistinct, hh.modify (Buffer.size_update ..)⟩, ?_⟩
    have hbehind := h.behind_modify hdistinct (t := ts.get s.param)
      (f := fun b => b.update s.start s.len f) (Buffer.size_update ..)
    rw [Site.of_get hdistinct] at hbehind
    exact congrArg Cells.joint hbehind

theorem sync (hk : st.Keeps ts h) :
    st.Keeps ts (st.sync h) ∧ st.cells ts (st.sync h) = (st.cells ts h).sync ∧
      (st.sync h).cells.size = h.cells.size := by
  obtain ⟨hlays, hdistinct, hh⟩ := hk
  cases hlays with
  | @owned buffer hsize =>
    obtain ⟨hhas, hcells, hothers, hread⟩ := sync_owned buffer hdistinct hh rfl
    refine ⟨⟨.owned hsize, hdistinct, hhas⟩, ?_, hcells⟩
    refine congrArg (Cells.apart _) (funext fun site => ?_)
    cases site with
    | param p => exact hread p
    | other c hc => exact hothers ⟨default, c⟩ hc
  | shared => exact ⟨⟨.shared, hdistinct, hh⟩, rfl, rfl⟩

theorem reload (hk : st.Keeps ts h) :
    (st.reload h).Keeps ts h ∧ (st.reload h).cells ts h = (st.cells ts h).reload := by
  obtain ⟨hlays, hdistinct, hh⟩ := hk
  cases hlays with
  | @owned buffer hsize =>
    obtain ⟨buffer', hreload, hsize', hlive⟩ := reload_owned hsize hh rfl
    rw [hreload]
    refine ⟨⟨.owned hsize', hdistinct, hh⟩, ?_⟩
    exact congrArg (Cells.apart · h.behind) (funext hlive)
  | shared => exact ⟨⟨.shared, hdistinct, hh⟩, rfl⟩

theorem assign (hk : st.Keeps ts h) (t : Tensor) (values : Buffer α) :
    (st.cells ts h).assign t values = (h.assign t values).map (st.cells ts) ∧
      ∀ h', h.assign t values = .ok h' → st.Keeps ts h' := by
  rw [Cells.assign, host_cells, h.behind_of, Host.assign]
  split
  · rename_i hsize
    refine ⟨?_, ?_⟩
    · have hbehind := h.behind_modify hk.distinct (t := t) (f := fun _ => values) hsize
      rw [Except.map]
      refine congrArg Except.ok ?_
      cases st with
      | owned => exact (congrArg (Cells.apart _) hbehind).symm
      | shared => exact (congrArg Cells.joint hbehind).symm
    · intro h' hassign
      obtain rfl := Except.ok.inj hassign
      exact ⟨hk.lays, hk.distinct, hk.hosted.modify hsize⟩
  · exact ⟨rfl, fun h' hassign => by contradiction⟩

/-- Every single request is answered as by independent cells. -/
theorem answer {s : Store α × Host α} (hk : s.1.Keeps ts s.2) (r : Cells.Request α ts) :
    (Store.answer s r).2.1.Keeps ts (Store.answer s r).2.2 ∧
      (s.1.cells ts s.2).answer r =
        ((Store.answer s r).1, (Store.answer s r).2.1.cells ts (Store.answer s r).2.2) := by
  cases r with
  | read stretch => exact ⟨hk, by rw [Cells.answer, Store.answer, hk.read_eq]⟩
  | write stretch f =>
    obtain ⟨hkeeps, hcells⟩ := hk.update stretch f
    exact ⟨hkeeps, by rw [Cells.answer, Store.answer, hcells]⟩
  | sync =>
    obtain ⟨hkeeps, hcells, -⟩ := hk.sync
    exact ⟨hkeeps, by rw [Cells.answer, Store.answer, hcells]⟩
  | reload =>
    obtain ⟨hkeeps, hcells⟩ := hk.reload
    exact ⟨hkeeps, by rw [Cells.answer, Store.answer, hcells]⟩
  | hostRead t => exact ⟨hk, by rw [Cells.answer, Store.answer, host_cells, Host.behind_of]⟩
  | assign t values =>
    obtain ⟨hassign, hkeeps⟩ := hk.assign t values
    rw [Cells.answer, Store.answer, hassign]
    cases hresult : s.2.assign t values with
    | error e => exact ⟨hk, rfl⟩
    | ok h' => exact ⟨hkeeps h' hresult, rfl⟩

/-- Stores of the same tensors that stand for the same vectors are equal, and so are the hosts. -/
theorem eq_of_cells {st' : Store α} {h' : Host α} (hk : st.Keeps ts h) (hk' : st'.Keeps ts h')
    (hcells : st'.cells ts h' = st.cells ts h) (hsize : h'.cells.size = h.cells.size) :
    st' = st ∧ h' = h := by
  have hbehind : (h'.behind : Site ts → Buffer α) = h.behind := by
    rw [← host_cells st' h', hcells, host_cells]
  have hlive := congrArg Cells.live hcells
  rw [hk.live_cells, hk'.live_cells] at hlive
  refine ⟨?_, h.eq_of_behind hsize hbehind⟩
  obtain ⟨hlays, -, -⟩ := hk
  obtain ⟨hlays', -, -⟩ := hk'
  cases hlays with
  | @owned buffer hbuffer =>
    cases hlays' with
    | @owned buffer' hbuffer' =>
      refine congrArg (owned · _) (Buffer.ext_view (hbuffer'.trans hbuffer.symm) fun k hk => ?_)
      -- every element of the buffer belongs to a parameter
      obtain ⟨p, i, hi, rfl⟩ := Stretch.exists_first_add (hbuffer' ▸ hk)
      have hview := congrArg (Buffer.view · 0 i) (congrFun hlive p)
      simp only [view_live_owned hi] at hview
      simpa only [Buffer.view, Nat.zero_add] using hview
    | shared => cases hcells
  | shared =>
    cases hlays' with
    | owned => cases hcells
    | shared => rfl

end Keeps

theorem keeps_of_place {ownership : Ownership} {h : Host α} {st : Store α}
    (hp : place ownership h ts = .ok st) (hh : h.HasTensors ts) :
    st.Keeps ts h ∧ st.cells ts h = .start ownership h.behind := by
  obtain ⟨hnone, howned, hshared⟩ := place_spec hp
  have hdistinct := nodup_of_sharedPair? hnone
  cases ownership with
  | copy =>
    obtain rfl := howned rfl
    have hsize := size_foldl_append (fun t ht => (hh t ht).2) (#[] : Buffer α)
    rw [Array.size_empty, Nat.zero_add] at hsize
    refine ⟨⟨.owned hsize, hdistinct, hh⟩, ?_⟩
    exact congrArg (Cells.apart · h.behind) (funext (live_placed hh))
  | reference =>
    obtain rfl := hshared rfl
    exact ⟨⟨.shared, hdistinct, hh⟩, rfl⟩

/-! ## All requests -/

/-- The parameters of a store do not get in each other's way: their slots exist and address
elements of their own, a write stays within its stretch, and copying in one direction leaves
nothing to copy in the other. -/
structure Independent (ts : List Tensor) (st : Store α) (h : Host α) : Prop where
  holds : ∀ s : Stretch ts, st.Holds h (s.slot st.ownership)
  within : ∀ (s : Stretch ts) home k, st.Covers (s.slot st.ownership) home k →
    st.Covers ((Stretch.whole s.param).slot st.ownership) home k
  disjoint : ∀ (s s' : Stretch ts) home k, st.Covers (s.slot st.ownership) home k →
    st.Covers (s'.slot st.ownership) home k → s.param = s'.param
  write : ∀ (s : Stretch ts) (f : Nat → α → α) (p : Fin ts.length), ∀ i < (ts.get p).count,
    (st.update h (s.slot st.ownership) f).1.view (st.update h (s.slot st.ownership) f).2
        ((Stretch.whole p).slot st.ownership) i =
      if s.Has p i then f (i - s.start) (st.view h ((Stretch.whole p).slot st.ownership) i)
      else st.view h ((Stretch.whole p).slot st.ownership) i
  write_host : ∀ (s : Stretch ts) (f : Nat → α → α) (u : Tensor),
    st.ownership = .copy ∨ u.cell ≠ (ts.get s.param).cell →
      (st.update h (s.slot st.ownership) f).2.read u = h.read u
  reload_sync : st.reload (st.sync h) = st
  sync_reload : (st.reload h).sync h = h

omit [Zero α] in
/-- What a part of a slot covers is covered by the slot. -/
theorem covers_of_narrow {st : Store α} {slot : Slot} {start len : Nat} {home : Home} {k : Nat}
    (hle : start + len ≤ slot.len) (hc : st.Covers (slot.narrow start len) home k) :
    st.Covers slot home k := by
  obtain ⟨hhome, hfirst, hlast⟩ := hc
  simp only [Slot.narrow] at hfirst hlast
  refine ⟨?_, by omega, by omega⟩
  cases st <;> exact hhome

namespace Keeps

variable {st : Store α} {h : Host α} (hk : st.Keeps ts h)
include hk

omit [Zero α] in
theorem holds (s : Stretch ts) : st.Holds h (s.slot st.ownership) := by
  obtain ⟨hlays, -, hh⟩ := hk
  have hle := s.le
  cases hlays with
  | @owned buffer hsize =>
    have hroom := Stretch.first_add_le s.param
    rw [ownership, Stretch.slot_copy]
    have hend : Stretch.first s.param + s.start + s.len ≤ buffer.size := by omega
    exact ⟨buffer, rfl, hend⟩
  | shared =>
    rw [ownership, Stretch.slot_reference]
    refine ⟨h.read (ts.get s.param), ?_, (hh.size_read s.param).symm ▸ hle⟩
    simp only [buffers, List.getElem?_map, Stretch.getElem?_param, Option.map_some]

omit [Zero α] in
theorem covers_disjoint {p q : Fin ts.length} {home : Home} {k : Nat}
    (hp : st.Covers ((Stretch.whole p).slot st.ownership) home k)
    (hq : st.Covers ((Stretch.whole q).slot st.ownership) home k) : p = q := by
  obtain ⟨hhome, hple, hplt⟩ := hp
  obtain ⟨hhome', hqle, hqlt⟩ := hq
  obtain ⟨hlays, hdistinct, -⟩ := hk
  cases hlays with
  | owned =>
    simp only [ownership, Stretch.slot_copy, Stretch.whole] at hple hplt hqle hqlt
    by_contra hne
    have := Stretch.first_disjoint hne
    omega
  | shared =>
    simp only [home?, ownership, Stretch.slot_reference, Stretch.whole, Stretch.getElem?_param,
      Option.map_some] at hhome hhome'
    have hcell : (Site.param p).cell = (Site.param q).cell :=
      Home.cell.inj (Option.some.inj (hhome.trans hhome'.symm))
    exact Site.param.inj (Site.cell_injective hdistinct hcell)

theorem view_update (s : Stretch ts) (f : Nat → α → α) {p : Fin ts.length} {i : Nat}
    (hi : i < (ts.get p).count) :
    (st.update h (s.slot st.ownership) f).1.view (st.update h (s.slot st.ownership) f).2
        ((Stretch.whole p).slot st.ownership) i =
      if s.Has p i then f (i - s.start) (st.view h ((Stretch.whole p).slot st.ownership) i)
      else st.view h ((Stretch.whole p).slot st.ownership) i := by
  obtain ⟨hkeeps, hcells⟩ := hk.update s f
  have hownership := Placed.ownership_update st h (s.slot st.ownership) f
  have hlive := congrArg Cells.live hcells
  rw [hkeeps.live_cells] at hlive
  have helement := (st.cells ts h).getElem?_live_write s f p i
  have hlt : i < (st.live h p).size := (size_live st h p).symm ▸ hi
  rw [← hlive, hk.live_cells] at helement
  have hafter := view_live (st.update h (s.slot st.ownership) f).1
    (st.update h (s.slot st.ownership) f).2 hi
  rw [hownership] at hafter
  rw [← hafter, ← view_live st h hi]
  simp only [Buffer.view, Nat.zero_add, Array.getD_eq_getD_getElem?, helement,
    Array.getElem?_eq_getElem hlt]
  split <;> rfl

omit [Zero α] in
theorem read_update (s : Stretch ts) (f : Nat → α → α) {u : Tensor}
    (hu : st.ownership = .copy ∨ u.cell ≠ (ts.get s.param).cell) :
    (st.update h (s.slot st.ownership) f).2.read u = h.read u := by
  obtain ⟨hlays, -, -⟩ := hk
  cases hlays with
  | owned => rfl
  | shared =>
    rw [ownership, Stretch.slot_reference]
    simp only [Store.update, Stretch.getElem?_param]
    exact h.read_modify_of_ne _ (hu.resolve_left (by simp [ownership])).symm

theorem reload_sync : st.reload (st.sync h) = st := by
  obtain ⟨hsynced, hcells, -⟩ := hk.sync
  obtain ⟨hreloaded, hcells'⟩ := hsynced.reload
  exact (hsynced.eq_of_cells hreloaded (by rw [hcells', hcells, Cells.reload_sync]) rfl).1

theorem sync_reload : (st.reload h).sync h = h := by
  obtain ⟨hreloaded, hcells⟩ := hk.reload
  obtain ⟨hsynced, hcells', hsize⟩ := hreloaded.sync
  exact (hreloaded.eq_of_cells hsynced (by rw [hcells', hcells, Cells.sync_reload]) hsize).2

theorem independent : st.Independent ts h where
  holds := hk.holds
  within s _ _ hs := covers_of_narrow s.le hs
  disjoint s s' _ _ hs hs' :=
    hk.covers_disjoint (covers_of_narrow s.le hs) (covers_of_narrow s'.le hs')
  write s f _ _ hi := hk.view_update s f hi
  write_host s f _ hu := hk.read_update s f hu
  reload_sync := hk.reload_sync
  sync_reload := hk.sync_reload

end Keeps

/-- **A store implements independent cells.** Placement fails exactly if two positions share their
storage, and names the least position that repeats an earlier one with the first that it repeats.
A placed store answers any requests, made in any order and mixed with requests to the host, as a
live and a host vector for each parameter would, where one vector is both under reference. -/
theorem place_implements_cells (ownership : Ownership) (h : Host α) (ts : List Tensor) :
    (∀ e, place ownership h ts = .error e ↔
      ∃ first i, e = .sharedStorage first i ∧ FirstRepeat ts first i) ∧
    ((∃ st, place ownership h ts = .ok st) ↔ ∀ i j, i < j → ¬ Shares ts i j) ∧
    ∀ st, place ownership h ts = .ok st → h.HasTensors ts →
      ∀ requests : List (Cells.Request α ts), ∃ answers st' h',
        serve Store.answer (st, h) requests = (answers, st', h') ∧
        serve Cells.answer (.start ownership h.behind) requests = (answers, st'.cells ts h') ∧
        st'.Independent ts h' := by
  refine ⟨fun e => place_eq_error_iff, exists_place_iff, fun st hp hh requests => ?_⟩
  obtain ⟨hk, hcells⟩ := keeps_of_place hp hh
  obtain ⟨hlast, hserve⟩ := serve_simulates (fun s : Store α × Host α => s.1.Keeps ts s.2)
    (fun s => s.1.cells ts s.2) (fun _ hs r => hs.answer r) (s := (st, h)) hk requests
  rw [hcells] at hserve
  exact ⟨_, _, _, rfl, hserve, hlast.independent⟩

/-- Two tensors in the first and in the last of three cells. -/
def pair : List Tensor := [⟨.vector 2, 0⟩, ⟨.vector 1, 2⟩]

/-- A change of the first tensor, and one of the second tensor on the host, each followed by what
is read of it on both sides. -/
def pairRequests : List (Cells.Request ℚ pair) :=
  let first : Fin pair.length := ⟨0, by decide⟩
  let second : Fin pair.length := ⟨1, by decide⟩
  [.write ⟨first, 1, 1, by decide⟩ fun _ _ => 8, .read (.whole first),
    .hostRead ⟨.vector 2, 0⟩, .assign ⟨.vector 1, 2⟩ #[4, 4], .assign ⟨.vector 1, 2⟩ #[4],
    .read (.whole second), .hostRead ⟨.vector 1, 2⟩, .sync, .hostRead ⟨.vector 2, 0⟩,
    .hostRead ⟨.vector 1, 2⟩]

/-- Three cells, of which the second one backs neither tensor. -/
def pairHost : Host ℚ := ⟨#[#[1, 2], #[7], #[3]]⟩

theorem place_implements_cells_pair :
    (∃ st, place .copy pairHost pair = .ok st ∧ (serve answer (st, pairHost) pairRequests).1 =
      [.ok [], .ok [1, 8], .ok [1, 2], .error (.elementCount (.vector 1) 1 2), .ok [], .ok [3],
        .ok [4], .ok [], .ok [1, 8], .ok [3]]) ∧
    ∃ st, place .reference pairHost pair = .ok st ∧
      (serve answer (st, pairHost) pairRequests).1 =
        [.ok [], .ok [1, 8], .ok [1, 8], .error (.elementCount (.vector 1) 1 2), .ok [], .ok [4],
          .ok [4], .ok [], .ok [1, 8], .ok [4]] := by
  have hdistinct : sharedPair? pair = none := by rfl
  have hh : pairHost.HasTensors pair := by
    intro t ht
    rcases List.mem_pair.1 ht with rfl | rfl <;> decide
  have hserved : ∀ ownership, ∃ st, place ownership pairHost pair = .ok st ∧
      (serve answer (st, pairHost) pairRequests).1 =
        (serve Cells.answer (.start ownership pairHost.behind) pairRequests).1 := by
    intro ownership
    obtain ⟨st, hst⟩ := exists_place hdistinct ownership pairHost
    obtain ⟨answers, st', h', hserve, hcells, -⟩ :=
      (place_implements_cells ..).2.2 st hst hh pairRequests
    exact ⟨st, hst, by rw [hserve, hcells]⟩
  exact ⟨hserved .copy, hserved .reference⟩

end GraphTape.Store
