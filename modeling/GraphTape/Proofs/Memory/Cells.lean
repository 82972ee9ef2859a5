import GraphTape.Memory.Store
import Mathlib.Data.List.Nodup
import Mathlib.Logic.Function.Basic

/-!
# Parameters as independent cells

What a store is for, without buffers and offsets: every parameter has a live vector and a host
vector. They are the same vector under reference. Under copy they are two, and only copying to the
host and back makes one follow the other.

* `Site`: the vector that a handle of the host leads to.
* `Cells`: the vectors, with `Cells.read`, `Cells.write`, `Cells.sync`, `Cells.reload` and
  `Cells.assign`.
* `Cells.Request`, `Cells.answer`: what can be asked of the vectors, and what is answered.
* `serve`: requests one after the other. `serve_simulates` compares two ways to answer them.
-/

namespace GraphTape

/-- Where a handle leads, seen from a list of parameters: to the host vector of one of them, or to
a cell of the host that backs none. -/
inductive Site (ts : List Tensor) where
  | param (p : Fin ts.length)
  | other (c : Nat) (hc : ∀ t ∈ ts, t.cell ≠ c)
  deriving DecidableEq

namespace Site

variable {ts : List Tensor}

/-- The site that a handle leads to: the first parameter in the same storage, if there is one. -/
def of (ts : List Tensor) (t : Tensor) : Site ts :=
  match hfind : ts.findFinIdx? (·.sameStorage t) with
  | some p => .param p
  | none => .other t.cell fun u hu heq =>
      List.findFinIdx?_eq_none_iff.1 hfind u hu (beq_iff_eq.2 heq)

/-- The cell of the host that a site stands for. -/
def cell : Site ts → Nat
  | param p => (ts.get p).cell
  | other c _ => c

theorem cell_of (ts : List Tensor) (t : Tensor) : (of ts t).cell = t.cell := by
  unfold of
  split
  · rename_i p hp
    exact beq_iff_eq.1 (List.findFinIdx?_eq_some_iff.1 hp).1
  · rfl

/-- Sites are told apart by their cells if no parameters share theirs. -/
theorem cell_injective (hdistinct : (ts.map Tensor.cell).Nodup) :
    Function.Injective (cell : Site ts → Nat) := by
  intro site site' heq
  cases site with
  | param p =>
    cases site' with
    | param q =>
      have hp : (p : Nat) < (ts.map Tensor.cell).length := by simp
      have hq : (q : Nat) < (ts.map Tensor.cell).length := by simp
      have hcells : (ts.map Tensor.cell)[(p : Nat)] = (ts.map Tensor.cell)[(q : Nat)] := by
        simpa [cell] using heq
      rw [Fin.ext (hdistinct.getElem_inj_iff.1 hcells)]
    | other c hc => exact absurd heq (hc _ (List.getElem_mem _))
  | other c hc =>
    cases site' with
    | param q => exact absurd heq.symm (hc _ (List.getElem_mem _))
    | other c' hc' =>
      obtain rfl : c = c' := heq
      rfl

theorem of_eq_iff (hdistinct : (ts.map Tensor.cell).Nodup) {t : Tensor} {site : Site ts} :
    of ts t = site ↔ t.cell = site.cell := by
  rw [← (cell_injective hdistinct).eq_iff, cell_of]

theorem of_get (hdistinct : (ts.map Tensor.cell).Nodup) (p : Fin ts.length) :
    of ts (ts.get p) = param p :=
  (of_eq_iff hdistinct).2 rfl

end Site

/-- A stretch of a parameter. -/
structure Stretch (ts : List Tensor) where
  param : Fin ts.length
  start : Nat
  len : Nat
  le : start + len ≤ (ts.get param).count

/-- A parameter as a whole. -/
def Stretch.whole {ts : List Tensor} (p : Fin ts.length) : Stretch ts :=
  ⟨p, 0, (ts.get p).count, Nat.le_of_eq (Nat.zero_add _)⟩

/-- Index `i` of parameter `p` is one of a stretch. -/
def Stretch.Has {ts : List Tensor} (s : Stretch ts) (p : Fin ts.length) (i : Nat) : Prop :=
  p = s.param ∧ s.start ≤ i ∧ i < s.start + s.len

instance {ts : List Tensor} (s : Stretch ts) (p : Fin ts.length) (i : Nat) :
    Decidable (s.Has p i) := inferInstanceAs (Decidable (_ ∧ _))

/-- The vectors of some parameters, next to everything else on the host. -/
inductive Cells (α : Type) (ts : List Tensor) where
  /-- Live vectors apart from the host vectors. -/
  | apart (live : Fin ts.length → Buffer α) (host : Site ts → Buffer α)
  /-- Host vectors that are the live vectors. -/
  | joint (host : Site ts → Buffer α)

/-- What can be asked of parameters and of the host. -/
inductive Cells.Request (α : Type) (ts : List Tensor) where
  /-- The elements of a stretch. -/
  | read (s : Stretch ts)
  /-- A change of element `i` of a stretch by `f i`. -/
  | write (s : Stretch ts) (f : Nat → α → α)
  | sync
  | reload
  /-- The elements behind a handle. -/
  | hostRead (t : Tensor)
  /-- New elements for a handle. -/
  | assign (t : Tensor) (values : Buffer α)

/-- The elements that were asked for, if any, or an error. -/
abbrev Cells.Answer (α : Type) := Except (Error α) (List α)

namespace Cells

variable {α : Type} {ts : List Tensor}

/-- The vectors at placement, when all of them are as on the host. -/
def start (ownership : Ownership) (host : Site ts → Buffer α) : Cells α ts :=
  match ownership with
  | .copy => apart (fun p => host (.param p)) host
  | .reference => joint host

/-- The live vectors. -/
def live : Cells α ts → Fin ts.length → Buffer α
  | apart live _ => live
  | joint host => fun p => host (.param p)

/-- The vectors that handles lead to. -/
def host : Cells α ts → Site ts → Buffer α
  | apart _ host => host
  | joint host => host

def read [Zero α] (c : Cells α ts) (s : Stretch ts) : List α :=
  (c.live s.param).slice s.start s.len

/-- Changes element `i` of a stretch by `f i`, in the live vector of its parameter. -/
def write (c : Cells α ts) (s : Stretch ts) (f : Nat → α → α) : Cells α ts :=
  let vector := (c.live s.param).update s.start s.len f
  match c with
  | apart live host => apart (Function.update live s.param vector) host
  | joint host => joint (Function.update host (.param s.param) vector)

/-- Copies every live vector to the host vector of its parameter. -/
def sync : Cells α ts → Cells α ts
  | apart live host => apart live fun
      | .param p => live p
      | .other c hc => host (.other c hc)
  | joint host => joint host

/-- Copies every host vector to the live vector of its parameter. -/
def reload : Cells α ts → Cells α ts
  | apart _ host => apart (fun p => host (.param p)) host
  | joint host => joint host

/-- Replaces the vector at a site. -/
def replace (c : Cells α ts) (site : Site ts) (vector : Buffer α) : Cells α ts :=
  match c with
  | apart live host => apart live (Function.update host site vector)
  | joint host => joint (Function.update host site vector)

/-- Replaces the vector that a handle leads to by one of the same length. -/
def assign (c : Cells α ts) (t : Tensor) (values : Buffer α) : Except (Error α) (Cells α ts) :=
  let size := (c.host (.of ts t)).size
  if values.size = size then .ok (c.replace (.of ts t) values)
  else .error (.elementCount t.shape size values.size)

/-- What is answered to a request, and the vectors after it. -/
def answer [Zero α] (c : Cells α ts) : Request α ts → Answer α × Cells α ts
  | .read s => (.ok (c.read s), c)
  | .write s f => (.ok [], c.write s f)
  | .sync => (.ok [], c.sync)
  | .reload => (.ok [], c.reload)
  | .hostRead t => (.ok (c.host (.of ts t)).toList, c)
  | .assign t values =>
    match c.assign t values with
    | .ok c' => (.ok [], c')
    | .error e => (.error e, c)

/-! ## What the operations do -/

theorem live_write (c : Cells α ts) (s : Stretch ts) (f : Nat → α → α) :
    (c.write s f).live =
      Function.update c.live s.param ((c.live s.param).update s.start s.len f) := by
  cases c with
  | apart live host => rfl
  | joint host =>
    funext p
    simp only [write, live, Function.update_apply, Site.param.injEq]

/-- A write changes the elements of its stretch, and no other element of any parameter. -/
theorem getElem?_live_write (c : Cells α ts) (s : Stretch ts) (f : Nat → α → α)
    (p : Fin ts.length) (i : Nat) :
    ((c.write s f).live p)[i]? =
      if s.Has p i then (c.live p)[i]?.map (f (i - s.start)) else (c.live p)[i]? := by
  rw [live_write, Function.update_apply]
  by_cases hp : p = s.param
  · subst hp
    rw [if_pos rfl, Buffer.getElem?_update]
    simp only [Stretch.Has, true_and]
  · rw [if_neg hp, if_neg fun hhas => hp hhas.1]

@[simp]
theorem reload_sync (c : Cells α ts) : c.sync.reload = c.sync := by
  cases c <;> rfl

@[simp]
theorem sync_reload (c : Cells α ts) : c.reload.sync = c.reload := by
  cases c with
  | apart live host =>
    rw [reload, sync, apart.injEq]
    refine ⟨rfl, funext fun site => ?_⟩
    cases site <;> rfl
  | joint host => rfl

end Cells

/-! ## Requests one after the other -/

section Serve

variable {σ τ ι ω : Type}

/-- The answers to requests that are made one after the other, and the state after them. -/
def serve (answer : σ → ι → ω × σ) : σ → List ι → List ω × σ
  | s, [] => ([], s)
  | s, r :: rs =>
    let answered := answer s r
    let rest := serve answer answered.2 rs
    (answered.1 :: rest.1, rest.2)

/-- Two ways to answer requests that agree on every single one, from states that `I` holds of,
agree on all sequences of requests. -/
theorem serve_simulates {answer : σ → ι → ω × σ} {answer' : τ → ι → ω × τ} (I : σ → Prop)
    (meaning : σ → τ) (hstep : ∀ s, I s → ∀ r, I (answer s r).2 ∧
      answer' (meaning s) r = ((answer s r).1, meaning (answer s r).2))
    {s : σ} (hs : I s) (rs : List ι) :
    I (serve answer s rs).2 ∧
      serve answer' (meaning s) rs = ((serve answer s rs).1, meaning (serve answer s rs).2) := by
  induction rs generalizing s with
  | nil => exact ⟨hs, rfl⟩
  | cons r rs ih =>
    obtain ⟨hnext, hanswer⟩ := hstep s hs r
    obtain ⟨hlast, hrest⟩ := ih hnext
    refine ⟨hlast, ?_⟩
    simp only [serve, hanswer, hrest]

end Serve

end GraphTape
