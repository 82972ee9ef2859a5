import Mathlib.Algebra.Order.Field.Rat
import GraphTape.Proofs.Memory.Vectors
import GraphTape.Proofs.Scalar.Exact

/-!
# Handles and their classes

What becomes of all handles of a host while tensors are made, copied, written and read in any
order. Handles fall into classes: a new tensor and a deep clone are the first of a class, and a
clone joins that of its original. A write reaches the handles of one class and no other, and the
number of elements behind a handle is that of its shape at all times.

* `Pool`, `Pool.Request`, `Pool.answer`: a host with all its handles, and what can be asked of it.
* `Pool.roots`: the classes of the handles, as the requests alone determine them.
* `Pool.Classed`: the invariant, kept by every request (`Pool.Classed.answer`).
* `Pool.handles_form_sharing_classes`: what holds after any requests.
-/

namespace GraphTape

variable {α : Type}

/-! ## Rows of a matrix -/

/-- All rows are as long as each other. -/
def Rectangular (rows : List (Buffer α)) : Prop := ∀ row ∈ rows, ∀ row' ∈ rows, row.size = row'.size

instance (rows : List (Buffer α)) : Decidable (Rectangular rows) :=
  inferInstanceAs (Decidable (∀ row ∈ rows, ∀ row' ∈ rows, row.size = row'.size))

/-- The length of the first row, zero when there is none. -/
def rowSize (rows : List (Buffer α)) : Nat := (rows.head?.map Array.size).getD 0

theorem rectangular_iff {rows : List (Buffer α)} :
    Rectangular rows ↔ ∀ row ∈ rows, row.size = rowSize rows := by
  cases rows with
  | nil => simp [Rectangular]
  | cons first rows =>
    exact ⟨fun h row hrow => h row hrow first List.mem_cons_self,
      fun h row hrow row' hrow' => (h row hrow).trans (h row' hrow').symm⟩

/-- What precedes the rows of a matrix stays in front of them. -/
theorem foldl_append_rows (rows : List (Buffer α)) (b : Buffer α) :
    rows.foldl (· ++ ·) b = b ++ rows.foldl (· ++ ·) #[] := by
  induction rows generalizing b with
  | nil => rw [List.foldl_nil, List.foldl_nil, Array.append_empty]
  | cons row rows ih =>
    rw [List.foldl_cons, ih, List.foldl_cons, ih (#[] ++ row), Array.empty_append,
      Array.append_assoc]

theorem size_foldl_rows {rows : List (Buffer α)} {cols : Nat}
    (hsize : ∀ row ∈ rows, row.size = cols) :
    (rows.foldl (· ++ ·) #[]).size = rows.length * cols := by
  induction rows with
  | nil => simp
  | cons row rows ih =>
    rw [List.foldl_cons, foldl_append_rows, Array.empty_append, Array.size_append,
      hsize row List.mem_cons_self,
      ih fun row' hrow' => hsize row' (List.mem_cons_of_mem row hrow'), List.length_cons,
      Nat.succ_mul, Nat.add_comm]

/-- Entry `c` of row `r` is element `r * cols + c` of a matrix with `cols` columns. -/
theorem getElem?_foldl_rows {rows : List (Buffer α)} {cols : Nat}
    (hsize : ∀ row ∈ rows, row.size = cols) {r : Nat} {row : Buffer α} (hrow : rows[r]? = some row)
    {c : Nat} (hc : c < cols) : (rows.foldl (· ++ ·) #[])[r * cols + c]? = row[c]? := by
  induction rows generalizing r with
  | nil => simp at hrow
  | cons first rows ih =>
    have hfirst : first.size = cols := hsize first List.mem_cons_self
    rw [List.foldl_cons, foldl_append_rows, Array.empty_append]
    cases r with
    | zero =>
      obtain rfl := Option.some.inj hrow
      rw [Nat.zero_mul, Nat.zero_add, Array.getElem?_append_left (by omega)]
    | succ r =>
      have hle : first.size ≤ (r + 1) * cols + c := by rw [Nat.succ_mul]; omega
      have hindex : (r + 1) * cols + c - first.size = r * cols + c := by rw [Nat.succ_mul]; omega
      rw [Array.getElem?_append_right hle, hindex]
      exact ih (fun row' hrow' => hsize row' (List.mem_cons_of_mem first hrow')) hrow

namespace Host

theorem matrix_eq (h : Host α) (rows : List (Buffer α)) :
    h.matrix rows =
      match rows.find? (·.size ≠ rowSize rows) with
      | some row => .error (.raggedMatrix (rowSize rows) row.size)
      | none => h.ofData (.matrix rows.length (rowSize rows)) (rows.foldl (· ++ ·) #[]) := rfl

/-- Rows of one length make a matrix. -/
theorem matrix_of_rectangular (h : Host α) {rows : List (Buffer α)} (hrows : Rectangular rows) :
    h.matrix rows =
      .ok (h.alloc (.matrix rows.length (rowSize rows)) (rows.foldl (· ++ ·) #[])) := by
  rw [rectangular_iff] at hrows
  have hnone : rows.find? (·.size ≠ rowSize rows) = none := by
    rw [List.find?_eq_none]
    intro row hrow
    simpa using hrows row hrow
  rw [matrix_eq, hnone]
  simp only [ofData, size_foldl_rows hrows, Shape.count_matrix, if_true]

/-- Rows of different lengths are turned down: one that is not as long as the first is reported. -/
theorem matrix_of_not_rectangular (h : Host α) {rows : List (Buffer α)}
    (hrows : ¬ Rectangular rows) :
    ∃ row ∈ rows, row.size ≠ rowSize rows ∧
      h.matrix rows = .error (.raggedMatrix (rowSize rows) row.size) := by
  cases hfind : rows.find? (·.size ≠ rowSize rows) with
  | none =>
    refine absurd (rectangular_iff.2 fun row hrow => ?_) hrows
    simpa using List.find?_eq_none.1 hfind row hrow
  | some row =>
    refine ⟨row, List.mem_of_find?_eq_some hfind, by simpa using List.find?_some hfind, ?_⟩
    rw [matrix_eq, hfind]

end Host

/-! ## Requests -/

/-- A host and all handles to it, in the order in which they were made. -/
structure Pool (α : Type) where
  host : Host α := {}
  handles : List Tensor := []

namespace Pool

/-- What can be asked for. Handles are known by their numbers. -/
inductive Request (α : Type) where
  | ofData (shape : Shape) (data : Buffer α)
  | vector (data : Buffer α)
  | matrix (rows : List (Buffer α))
  | full (shape : Shape) (x : α)
  | zeros (shape : Shape)
  /-- A second handle to the same storage. -/
  | clone (k : Nat)
  | deepClone (k : Nat)
  | assign (k : Nat) (values : Buffer α)
  /-- Overwrites element `i`. -/
  | set (k i : Nat) (x : α)
  | fill (k : Nat) (x : α)
  | read (k : Nat)

/-- What is answered to a request. -/
inductive Reply (α : Type) where
  /-- There is a new handle. -/
  | made
  /-- The elements are written. -/
  | done
  | elements (data : Buffer α)
  | failed (e : Error α)
  /-- There is no such handle, or no such element. -/
  | missing

/-- Adds a handle. -/
def add (p : Pool α) (made : Tensor × Host α) : Reply α × Pool α :=
  (.made, { host := made.2, handles := p.handles ++ [made.1] })

/-- Adds a handle, if it could be made. -/
def attempt (p : Pool α) : Except (Error α) (Tensor × Host α) → Reply α × Pool α
  | .ok made => p.add made
  | .error e => (.failed e, p)

/-- Writes through a handle, if it could be done. -/
def commit (p : Pool α) : Except (Error α) (Host α) → Reply α × Pool α
  | .ok h => (.done, { p with host := h })
  | .error e => (.failed e, p)

/-- Answers a request for a handle, if there is one of this number. -/
def at? (p : Pool α) (k : Nat) (f : Tensor → Reply α × Pool α) : Reply α × Pool α :=
  match p.handles[k]? with
  | some t => f t
  | none => (.missing, p)

/-- What is answered to a request, and the handles after it. -/
def answer [Zero α] (p : Pool α) : Request α → Reply α × Pool α
  | .ofData shape data => p.attempt (p.host.ofData shape data)
  | .vector data => p.add (p.host.vector data)
  | .matrix rows => p.attempt (p.host.matrix rows)
  | .full shape x => p.add (p.host.full shape x)
  | .zeros shape => p.add (p.host.zeros shape)
  | .clone k => p.at? k fun t => p.add (t, p.host)
  | .deepClone k => p.at? k fun t => p.attempt (p.host.deepClone t)
  | .assign k values => p.at? k fun t => p.commit (p.host.assign t values)
  | .set k i x => p.at? k fun t =>
    if i < (p.host.read t).size then p.commit (.ok (p.host.set t i x)) else (.missing, p)
  | .fill k x => p.at? k fun t => p.commit (.ok (p.host.fill t x))
  | .read k => p.at? k fun t => (.elements (p.host.read t), p)

/-- The handles after requests that are made one after the other, from none. -/
def after [Zero α] (rs : List (Request α)) : Pool α := rs.foldl (fun p r => (p.answer r).2) {}

/-! ## What requests are for -/

/-- The classes of the handles after a request, given those before it. A class is known by the
number of its first handle. -/
def Request.extend (roots : List Nat) : Request α → List Nat
  | .ofData shape data => if data.size = shape.count then roots ++ [roots.length] else roots
  | .matrix rows => if Rectangular rows then roots ++ [roots.length] else roots
  | .vector _ | .full .. | .zeros _ => roots ++ [roots.length]
  | .clone k => roots ++ roots[k]?.toList
  | .deepClone k => if k < roots.length then roots ++ [roots.length] else roots
  | .assign .. | .set .. | .fill .. | .read _ => roots

/-- For each handle the creation or deep clone that it descends from by clones, by the number of the
handle that was made there. -/
def roots (rs : List (Request α)) : List Nat := rs.foldl Request.extend []

/-- The shape and the elements of the tensor that a request makes, if it makes one. -/
def made? [Zero α] (p : Pool α) : Request α → Option (Shape × Buffer α)
  | .ofData shape data => if data.size = shape.count then some (shape, data) else none
  | .vector data => some (.vector data.size, data)
  | .matrix rows =>
    if Rectangular rows then
      some (.matrix rows.length (rowSize rows), rows.foldl (· ++ ·) #[])
    else none
  | .full shape x => some (shape, Array.replicate shape.count x)
  | .zeros shape => some (shape, Array.replicate shape.count 0)
  | .clone k | .deepClone k => p.handles[k]?.map fun t => (t.shape, p.host.read t)
  | .assign .. | .set .. | .fill .. | .read _ => none

/-- The handle that a request writes through, and how it changes the elements. -/
def Request.write? : Request α → Option (Nat × (Buffer α → Buffer α))
  | .assign k values => some (k, fun data => if values.size = data.size then values else data)
  | .set k i x => some (k, fun data => data.setIfInBounds i x)
  | .fill k x => some (k, fun data => Array.replicate data.size x)
  | .ofData .. | .vector _ | .matrix _ | .full .. | .zeros _ | .clone _ | .deepClone _ | .read _ =>
    none

/-! ## The invariant -/

/-- The handles of a pool fall into these classes: two of them are in one class if they share their
storage. Each has as many elements as its shape asks for. -/
structure Classed (p : Pool α) (roots : List Nat) : Prop where
  length_eq : p.handles.length = roots.length
  tensors : p.host.HasTensors p.handles
  root_lt : ∀ r ∈ roots, r < roots.length
  cell_eq_iff : ∀ {j k : Nat} {t u : Tensor}, p.handles[j]? = some t → p.handles[k]? = some u →
    (t.cell = u.cell ↔ roots[j]? = roots[k]?)

namespace Classed

variable {p : Pool α} {roots : List Nat} (h : p.Classed roots)

theorem empty : Classed ({} : Pool α) [] where
  length_eq := rfl
  tensors _ ht := absurd ht List.not_mem_nil
  root_lt _ hr := absurd hr List.not_mem_nil
  cell_eq_iff hj := by simp at hj

include h

theorem size_read {k : Nat} {t : Tensor} (ht : p.handles[k]? = some t) :
    (p.host.read t).size = t.shape.count :=
  (h.tensors t (List.mem_of_getElem? ht)).2

theorem cell_lt {k : Nat} {t : Tensor} (ht : p.handles[k]? = some t) :
    t.cell < p.host.cells.size :=
  (h.tensors t (List.mem_of_getElem? ht)).1

/-- Every handle has a class. -/
theorem exists_root {k : Nat} {t : Tensor} (ht : p.handles[k]? = some t) :
    ∃ r, roots[k]? = some r := by
  have hlt := (List.getElem?_eq_some_iff.1 ht).1
  rw [h.length_eq] at hlt
  exact ⟨_, List.getElem?_eq_getElem hlt⟩

theorem root_eq_none {k : Nat} (hk : p.handles[k]? = none) : roots[k]? = none := by
  rw [List.getElem?_eq_none_iff] at hk ⊢
  rwa [← h.length_eq]

/-- One more handle, which shares its storage with those of its class. -/
theorem concat {host : Host α} {t : Tensor} {r : Nat}
    (htensors : host.HasTensors (p.handles ++ [t])) (hr : r ≤ roots.length)
    (hcell : ∀ {k : Nat} {u : Tensor}, p.handles[k]? = some u →
      (t.cell = u.cell ↔ some r = roots[k]?)) :
    Classed { host, handles := p.handles ++ [t] } (roots ++ [r]) where
  length_eq := by rw [List.length_append, List.length_append, h.length_eq]; rfl
  tensors := htensors
  root_lt s hs := by
    rw [List.length_append, List.length_singleton, Nat.lt_succ_iff]
    rcases List.mem_append.1 hs with hs | hs
    · exact (h.root_lt s hs).le
    · exact List.mem_singleton.1 hs ▸ hr
  cell_eq_iff := by
    -- a handle is an old one, or the new one, whose class stands last
    have hcases : ∀ {j : Nat} {u : Tensor}, (p.handles ++ [t])[j]? = some u →
        (p.handles[j]? = some u ∧ (roots ++ [r])[j]? = roots[j]?) ∨
          (u = t ∧ (roots ++ [r])[j]? = some r) := by
      intro j u hu
      rw [List.getElem?_append] at hu ⊢
      rw [← h.length_eq]
      split at hu
      · rename_i hlt
        exact .inl ⟨hu, if_pos hlt⟩
      · rename_i hle
        rw [List.getElem?_singleton, Option.ite_none_right_eq_some] at hu
        rw [if_neg hle, List.getElem?_singleton, if_pos hu.1]
        exact .inr ⟨(Option.some.inj hu.2).symm, rfl⟩
    intro j k u v hu hv
    rcases hcases hu with ⟨hu', hj⟩ | ⟨rfl, hj⟩ <;> rcases hcases hv with ⟨hv', hk⟩ | ⟨rfl, hk⟩
    · rw [hj, hk]
      exact h.cell_eq_iff hu' hv'
    · rw [hj, hk, eq_comm, hcell hu', eq_comm]
    · rw [hj, hk]
      exact hcell hv'
    · rw [hj, hk]
      exact iff_of_true rfl rfl

/-- A new tensor is the first of its class. -/
theorem fresh {shape : Shape} {data : Buffer α} (hsize : data.size = shape.count) :
    (p.add (p.host.alloc shape data)).2.Classed (roots ++ [roots.length]) := by
  have hmade : p.host.ofData shape data = .ok (p.host.alloc shape data) := if_pos hsize
  have htensors := h.tensors.ofData hmade
  -- neither the new cell nor the new root is that of an older handle
  refine h.concat (fun u hu => htensors u ?_) le_rfl fun {k u} hu => iff_of_false ?_ ?_
  · rwa [List.mem_append, List.mem_singleton, or_comm, ← List.mem_cons] at hu
  · exact (h.cell_lt hu).ne'
  · intro hroot
    exact Nat.lt_irrefl _ (h.root_lt _ (List.mem_of_getElem? hroot.symm))

/-- A clone joins the class of its original. -/
theorem clone {k : Nat} {t : Tensor} (ht : p.handles[k]? = some t) :
    (p.add (t, p.host)).2.Classed (roots ++ roots[k]?.toList) := by
  obtain ⟨r, hr⟩ := h.exists_root ht
  rw [hr]
  refine h.concat (fun u hu => h.tensors u ?_) (h.root_lt r (List.mem_of_getElem? hr)).le
    fun {j u} hu => ?_
  · rcases List.mem_append.1 hu with hu | hu
    · exact hu
    · exact List.mem_singleton.1 hu ▸ List.mem_of_getElem? ht
  · rw [← hr]
    exact h.cell_eq_iff ht hu

/-- A write that keeps the number of elements keeps the classes. -/
theorem modify {t : Tensor} {f : Buffer α → Buffer α}
    (hf : (f (p.host.read t)).size = (p.host.read t).size) :
    Classed { p with host := p.host.modify t f } roots :=
  { h with tensors := h.tensors.modify hf }

end Classed

/-! ## One request -/

theorem attempt_ofData (p : Pool α) (shape : Shape) (data : Buffer α) :
    p.attempt (p.host.ofData shape data) =
      if data.size = shape.count then p.add (p.host.alloc shape data)
      else (.failed (.elementCount shape shape.count data.size), p) := by
  rw [Host.ofData]
  split <;> rfl

/-- There are always as many elements behind a handle as a deep clone of it needs. -/
theorem Classed.attempt_deepClone {p : Pool α} {roots : List Nat} (h : p.Classed roots)
    {k : Nat} {t : Tensor} (ht : p.handles[k]? = some t) :
    p.attempt (p.host.deepClone t) = p.add (p.host.alloc t.shape (p.host.read t)) := by
  rw [Host.deepClone, attempt_ofData, if_pos (h.size_read ht)]

theorem Classed.commit_assign {p : Pool α} {roots : List Nat} (h : p.Classed roots)
    {k : Nat} {t : Tensor} (ht : p.handles[k]? = some t) (values : Buffer α) :
    p.commit (p.host.assign t values) =
      if values.size = t.shape.count then
        (.done, { p with host := p.host.modify t fun data =>
          if values.size = data.size then values else data })
      else (.failed (.elementCount t.shape t.shape.count values.size), p) := by
  have hsize := h.size_read ht
  simp only [Host.assign, hsize]
  split
  · rename_i heq
    rw [← Host.modify_const p.host t fun data => if values.size = data.size then values else data]
    rw [if_pos (heq.trans hsize.symm)]
    rfl
  · rfl

section Answer

variable [Zero α] {p : Pool α} {roots : List Nat}

/-- All that a request can do: make a new tensor, make a clone, write, or leave the handles as
they are. -/
inductive Outcome (p : Pool α) (roots : List Nat) (r : Request α) : Reply α × Pool α → Prop
  | fresh {shape : Shape} {data : Buffer α} (made : p.made? r = some (shape, data))
      (size : data.size = shape.count) (extend : r.extend roots = roots ++ [roots.length])
      (write : r.write? = none) : Outcome p roots r (p.add (p.host.alloc shape data))
  | clone {k : Nat} {t : Tensor} (handle : p.handles[k]? = some t)
      (made : p.made? r = some (t.shape, p.host.read t))
      (extend : r.extend roots = roots ++ roots[k]?.toList) (write : r.write? = none) :
      Outcome p roots r (p.add (t, p.host))
  | write {k : Nat} {f : Buffer α → Buffer α} {t : Tensor} (handle : p.handles[k]? = some t)
      (made : p.made? r = none) (extend : r.extend roots = roots) (write : r.write? = some (k, f))
      (size : (f (p.host.read t)).size = (p.host.read t).size) :
      Outcome p roots r (.done, { p with host := p.host.modify t f })
  | idle {reply : Reply α} (ne_made : reply ≠ .made) (made : p.made? r = none)
      (extend : r.extend roots = roots)
      (write : ∀ k f t, r.write? = some (k, f) → p.handles[k]? = some t →
        f (p.host.read t) = p.host.read t) : Outcome p roots r (reply, p)

/-- A request for a handle does nothing if there is none of this number. -/
theorem Outcome.of_at? {r : Request α} {k : Nat} {f : Tensor → Reply α × Pool α}
    (made : p.handles[k]? = none → p.made? r = none)
    (extend : p.handles[k]? = none → r.extend roots = roots)
    (write : ∀ j g, r.write? = some (j, g) → j = k)
    (handle : ∀ t, p.handles[k]? = some t → Outcome p roots r (f t)) :
    Outcome p roots r (p.at? k f) := by
  rw [at?]
  cases hk : p.handles[k]? with
  | none =>
    refine .idle nofun (made hk) (extend hk) fun j g t hwrite ht => ?_
    rw [write j g hwrite, hk] at ht
    contradiction
  | some t => exact handle t hk

/-- What each request does. -/
theorem Classed.outcome (h : p.Classed roots) (r : Request α) :
    Outcome p roots r (p.answer r) := by
  cases r with
  | ofData shape data =>
    rw [answer, attempt_ofData]
    split
    · rename_i hsize
      exact .fresh (if_pos hsize) hsize (if_pos hsize) rfl
    · rename_i hsize
      exact .idle nofun (if_neg hsize) (if_neg hsize) nofun
  | vector data => exact .fresh rfl (Shape.count_vector _).symm rfl rfl
  | matrix rows =>
    rw [answer]
    by_cases hrows : Rectangular rows
    · rw [p.host.matrix_of_rectangular hrows]
      refine .fresh (if_pos hrows) ?_ (if_pos hrows) rfl
      rw [size_foldl_rows (rectangular_iff.1 hrows), Shape.count_matrix]
    · obtain ⟨row, -, -, hfailed⟩ := p.host.matrix_of_not_rectangular hrows
      rw [hfailed]
      exact .idle nofun (if_neg hrows) (if_neg hrows) nofun
  | full shape x => exact .fresh rfl Array.size_replicate rfl rfl
  | zeros shape => exact .fresh rfl Array.size_replicate rfl rfl
  | clone k =>
    refine .of_at? (fun hk => by rw [made?, hk]; rfl) (fun hk => ?_) nofun fun t ht => ?_
    · rw [Request.extend, h.root_eq_none hk, Option.toList_none, List.append_nil]
    · exact .clone ht (by rw [made?, ht]; rfl) rfl rfl
  | deepClone k =>
    refine .of_at? (fun hk => by rw [made?, hk]; rfl) (fun hk => if_neg ?_) nofun fun t ht => ?_
    · exact Nat.not_lt.2 (List.getElem?_eq_none_iff.1 (h.root_eq_none hk))
    · obtain ⟨r, hr⟩ := h.exists_root ht
      rw [h.attempt_deepClone ht]
      exact .fresh (by rw [made?, ht]; rfl) (h.size_read ht)
        (if_pos (List.getElem?_eq_some_iff.1 hr).1) rfl
  | assign k values =>
    refine .of_at? (fun _ => rfl) (fun _ => rfl) (by rintro j f ⟨⟩; rfl) fun t ht => ?_
    have hsize := h.size_read ht
    rw [h.commit_assign ht]
    split
    · rename_i heq
      refine .write ht rfl rfl rfl ?_
      rw [if_pos (heq.trans hsize.symm), heq, hsize]
    · rename_i hne
      refine .idle nofun rfl rfl ?_
      rintro j f u ⟨⟩ hu
      obtain rfl := Option.some.inj (ht.symm.trans hu)
      exact if_neg fun heq => hne (heq.trans hsize)
  | set k i x =>
    refine .of_at? (fun _ => rfl) (fun _ => rfl) (by rintro j f ⟨⟩; rfl) fun t ht => ?_
    split
    · exact .write ht rfl rfl rfl Array.size_setIfInBounds
    · rename_i hle
      refine .idle nofun rfl rfl ?_
      rintro j f u ⟨⟩ hu
      obtain rfl := Option.some.inj (ht.symm.trans hu)
      exact Array.setIfInBounds_eq_of_size_le (Nat.not_lt.1 hle)
  | fill k x =>
    exact .of_at? (fun _ => rfl) (fun _ => rfl) (by rintro j f ⟨⟩; rfl) fun t ht =>
      .write ht rfl rfl rfl Array.size_replicate
  | read k =>
    exact .of_at? (fun _ => rfl) (fun _ => rfl) nofun fun t ht => .idle nofun rfl rfl nofun

namespace Outcome

variable {r : Request α} {o : Reply α × Pool α} (ho : Outcome p roots r o)
include ho

/-- Every request keeps the classes, that of a new handle included. -/
theorem classed (h : p.Classed roots) : o.2.Classed (r.extend roots) := by
  cases ho with
  | fresh made size extend =>
    rw [extend]
    exact h.fresh size
  | clone handle made extend =>
    rw [extend]
    exact h.clone handle
  | write handle made extend write size =>
    rw [extend]
    exact h.modify size
  | idle ne_made made extend =>
    rw [extend]
    exact h

/-- A request changes the elements behind the handles of one class, or none. -/
theorem read_eq (h : p.Classed roots) {j : Nat} {t : Tensor} (ht : p.handles[j]? = some t) :
    o.2.host.read t =
      match r.write? with
      | none => p.host.read t
      | some (k, f) => if roots[j]? = roots[k]? then f (p.host.read t) else p.host.read t := by
  cases ho with
  | @fresh shape data made size extend write =>
    rw [write]
    exact p.host.read_alloc_of_lt shape data (h.cell_lt ht)
  | clone handle made extend write =>
    rw [write]
    rfl
  | write handle made extend write size =>
    rw [write, p.host.read_modify _ (h.cell_lt ht)]
    simp only [← h.cell_eq_iff ht handle, eq_comm]
  | idle ne_made made extend write =>
    split
    · rfl
    · rename_i k f hwrite
      split
      · -- a handle of the class that was to be written to shares the storage of handle `k`, which
        -- therefore exists and is left as it was
        rename_i hroots
        obtain ⟨r, hr⟩ := h.exists_root ht
        have hk : k < p.handles.length := by
          rw [h.length_eq]
          exact (List.getElem?_eq_some_iff.1 (hroots.symm.trans hr)).1
        have hu := List.getElem?_eq_getElem hk
        have hread : p.host.read t = p.host.read p.handles[k] := by
          rw [Host.read, Host.read, (h.cell_eq_iff ht hu).2 hroots]
        rw [hread, write k f _ hwrite hu]
      · rfl

/-- A request that makes a tensor adds a handle to it. -/
theorem handles_of_made {shape : Shape} {data : Buffer α} (hmade : p.made? r = some (shape, data)) :
    ∃ t, o.1 = .made ∧ o.2.handles = p.handles ++ [t] ∧ t.shape = shape ∧
      o.2.host.read t = data := by
  cases ho with
  | fresh made =>
    obtain ⟨rfl, rfl⟩ := Prod.mk.inj (Option.some.inj (made.symm.trans hmade))
    exact ⟨_, rfl, rfl, rfl, p.host.read_alloc_self _ _⟩
  | clone handle made =>
    obtain ⟨rfl, rfl⟩ := Prod.mk.inj (Option.some.inj (made.symm.trans hmade))
    exact ⟨_, rfl, rfl, rfl, rfl⟩
  | write handle made => exact absurd (made.symm.trans hmade) nofun
  | idle ne_made made => exact absurd (made.symm.trans hmade) nofun

/-- A request that makes none adds none. -/
theorem handles_of_not_made (hmade : p.made? r = none) : o.1 ≠ .made ∧ o.2.handles = p.handles := by
  cases ho with
  | fresh made => exact absurd (made.symm.trans hmade) nofun
  | clone handle made => exact absurd (made.symm.trans hmade) nofun
  | write => exact ⟨nofun, rfl⟩
  | idle ne_made => exact ⟨ne_made, rfl⟩

theorem prefix_handles : p.handles <+: o.2.handles := by
  cases ho with
  | fresh => exact List.prefix_append _ _
  | clone => exact List.prefix_append _ _
  | write => exact List.prefix_refl _
  | idle => exact List.prefix_refl _

/-- A request that fails changes nothing. -/
theorem eq_of_failed {e : Error α} (hfailed : o.1 = .failed e) : o.2 = p := by
  cases ho with
  | fresh => contradiction
  | clone => contradiction
  | write => contradiction
  | idle => rfl

end Outcome

/-! ### The answers to some of them -/

theorem answer_ofData (p : Pool α) (shape : Shape) (data : Buffer α) :
    (p.answer (.ofData shape data)).1 =
      if data.size = shape.count then .made
      else .failed (.elementCount shape shape.count data.size) := by
  rw [answer, attempt_ofData]
  split <;> rfl

/-- A read answers with the elements behind a handle, and changes nothing. -/
theorem answer_read {k : Nat} {t : Tensor} (ht : p.handles[k]? = some t) :
    p.answer (.read k) = (.elements (p.host.read t), p) := by
  rw [answer, at?, ht]

/-- An assignment succeeds if it has as many elements as the shape of the handle asks for. -/
theorem Classed.answer_assign (h : p.Classed roots) {k : Nat} {t : Tensor}
    (ht : p.handles[k]? = some t) (values : Buffer α) :
    (p.answer (.assign k values)).1 =
      if values.size = t.shape.count then .done
      else .failed (.elementCount t.shape t.shape.count values.size) := by
  rw [answer, at?, ht]
  simp only [h.commit_assign ht]
  split <;> rfl

/-- A deep clone has the elements of the original and shares its storage with no older handle. -/
theorem Classed.answer_deepClone (h : p.Classed roots) {k : Nat} {t : Tensor}
    (ht : p.handles[k]? = some t) :
    ∃ u, (p.answer (.deepClone k)).2.handles = p.handles ++ [u] ∧ u.shape = t.shape ∧
      (p.answer (.deepClone k)).2.host.read u = p.host.read t ∧
      ∀ v ∈ p.handles, u.sameStorage v = false := by
  rw [answer, at?, ht]
  simp only [h.attempt_deepClone ht]
  refine ⟨_, rfl, rfl, p.host.read_alloc_self _ _, fun v hv => ?_⟩
  exact beq_false_of_ne (h.tensors v hv).1.ne'

/-- Rows of one length make a matrix that holds them in order. -/
theorem Classed.answer_matrix (h : p.Classed roots) {rows : List (Buffer α)}
    (hrows : Rectangular rows) :
    ∃ t, (p.answer (.matrix rows)).1 = .made ∧
      (p.answer (.matrix rows)).2.handles = p.handles ++ [t] ∧
      t.shape = .matrix rows.length (rowSize rows) ∧
      ∀ (r c : Nat) (row : Buffer α), rows[r]? = some row → c < rowSize rows →
        ((p.answer (.matrix rows)).2.host.read t)[r * rowSize rows + c]? = row[c]? := by
  obtain ⟨t, hreply, hhandles, hshape, hread⟩ :=
    (h.outcome (.matrix rows)).handles_of_made (if_pos hrows)
  refine ⟨t, hreply, hhandles, hshape, fun r c row hrow hc => ?_⟩
  rw [hread]
  exact getElem?_foldl_rows (rectangular_iff.1 hrows) hrow hc

/-- Rows of different lengths are turned down. -/
theorem answer_matrix_of_not_rectangular (p : Pool α) {rows : List (Buffer α)}
    (hrows : ¬ Rectangular rows) :
    ∃ row ∈ rows, row.size ≠ rowSize rows ∧
      (p.answer (.matrix rows)).1 = .failed (.raggedMatrix (rowSize rows) row.size) := by
  obtain ⟨row, hmem, hne, hfailed⟩ := p.host.matrix_of_not_rectangular hrows
  exact ⟨row, hmem, hne, by rw [answer, hfailed]; rfl⟩

end Answer

/-! ## Requests one after the other -/

section After

variable [Zero α]

theorem after_concat (rs : List (Request α)) (r : Request α) :
    after (rs ++ [r]) = ((after rs).answer r).2 := by
  rw [after, List.foldl_append, List.foldl_cons, List.foldl_nil, ← after]

/-- The classes after any requests are those that the requests determine. -/
theorem classed_after (rs : List (Request α)) : (after rs).Classed (roots rs) := by
  induction rs using List.reverseRecOn with
  | nil => exact .empty
  | append_singleton rs r ih =>
    rw [after_concat, roots, List.foldl_append, List.foldl_cons, List.foldl_nil, ← roots]
    exact (ih.outcome r).classed ih

/-- Handles stay as they are, with their shapes, whatever is requested later. -/
theorem prefix_handles_after (rs rs' : List (Request α)) :
    (after rs).handles <+: (after (rs ++ rs')).handles := by
  induction rs' using List.reverseRecOn with
  | nil => rw [List.append_nil]
  | append_singleton rs' r ih =>
    rw [← List.append_assoc, after_concat]
    exact ih.trans ((classed_after _).outcome r).prefix_handles

/-- **Handles form classes that share storage of fixed length.** After any requests, there are as
many elements behind each handle as its shape asks for, and two handles share their storage if
they descend by clones from the same creation or deep clone. Handles stay, with their shapes,
whatever is requested later. One more request changes the elements behind the handles of the class
that it writes to and behind no others; it adds a handle with the elements it is to have, or none;
and it changes nothing if it fails. A read answers with the elements behind a handle. An assignment
fails if the number of elements is wrong, and so does the creation from given elements. A deep clone
has the elements of the original and a class of its own. Rows make a matrix if they are of one
length, and entry `c` of row `r` is then element `r * cols + c`. -/
theorem handles_form_sharing_classes {rs : List (Request α)} {p : Pool α} (hp : after rs = p) :
    (p.handles.length = (roots rs).length ∧
      (∀ t ∈ p.handles, (p.host.read t).size = t.shape.count) ∧
      (∀ (j k : Nat) (t u : Tensor), p.handles[j]? = some t → p.handles[k]? = some u →
        (t.sameStorage u = true ↔ (roots rs)[j]? = (roots rs)[k]?)) ∧
      ∀ rs', p.handles <+: (after (rs ++ rs')).handles) ∧
    (∀ r reply q, p.answer r = (reply, q) →
      after (rs ++ [r]) = q ∧
      (∀ (j : Nat) (t : Tensor), p.handles[j]? = some t →
        q.host.read t =
          match r.write? with
          | none => p.host.read t
          | some (k, f) =>
            if (roots rs)[j]? = (roots rs)[k]? then f (p.host.read t) else p.host.read t) ∧
      (∀ shape data, p.made? r = some (shape, data) → ∃ t, reply = .made ∧
        q.handles = p.handles ++ [t] ∧ t.shape = shape ∧ q.host.read t = data) ∧
      (p.made? r = none → reply ≠ .made ∧ q.handles = p.handles) ∧
      ∀ e, reply = .failed e → q = p) ∧
    (∀ (k : Nat) (t : Tensor), p.handles[k]? = some t →
      p.answer (.read k) = (.elements (p.host.read t), p) ∧
      (∀ values, (p.answer (.assign k values)).1 =
        if values.size = t.shape.count then .done
        else .failed (.elementCount t.shape t.shape.count values.size)) ∧
      ∃ u, (p.answer (.deepClone k)).2.handles = p.handles ++ [u] ∧ u.shape = t.shape ∧
        (p.answer (.deepClone k)).2.host.read u = p.host.read t ∧
        ∀ v ∈ p.handles, u.sameStorage v = false) ∧
    (∀ shape data, (p.answer (.ofData shape data)).1 =
      if data.size = shape.count then .made
      else .failed (.elementCount shape shape.count data.size)) ∧
    ∀ rows : List (Buffer α),
      (Rectangular rows → ∃ t, (p.answer (.matrix rows)).1 = .made ∧
        (p.answer (.matrix rows)).2.handles = p.handles ++ [t] ∧
        t.shape = .matrix rows.length (rowSize rows) ∧
        ∀ (r c : Nat) (row : Buffer α), rows[r]? = some row → c < rowSize rows →
          ((p.answer (.matrix rows)).2.host.read t)[r * rowSize rows + c]? = row[c]?) ∧
      (¬ Rectangular rows → ∃ row ∈ rows, row.size ≠ rowSize rows ∧
        (p.answer (.matrix rows)).1 = .failed (.raggedMatrix (rowSize rows) row.size)) := by
  subst hp
  have h := classed_after rs
  refine ⟨⟨h.length_eq, fun t ht => (h.tensors t ht).2, fun j k t u ht hu => ?_,
    prefix_handles_after rs⟩, fun r reply q hanswer => ?_,
    fun k t ht => ⟨answer_read ht, h.answer_assign ht, h.answer_deepClone ht⟩, answer_ofData _,
    fun rows => ⟨h.answer_matrix, answer_matrix_of_not_rectangular _⟩⟩
  · rw [Tensor.sameStorage, beq_iff_eq]
    exact h.cell_eq_iff ht hu
  · have ho := hanswer ▸ h.outcome r
    exact ⟨by rw [after_concat, hanswer], fun j t ht => ho.read_eq h ht,
      fun shape data => ho.handles_of_made, ho.handles_of_not_made, fun e => ho.eq_of_failed⟩

/-- A vector, a clone of it and a deep clone of the clone. An assignment through the vector is seen
through the clone alone. -/
theorem handles_form_sharing_classes_pair :
    ∃ (p : Pool ℚ) (t u v : Tensor), after [.vector #[1, 2], .clone 0, .deepClone 1] = p ∧
      p.handles = [t, u, v] ∧ t.sameStorage u = true ∧ t.sameStorage v = false ∧
      (p.answer (.assign 0 #[5, 6])).2.host.read u = #[5, 6] ∧
      (p.answer (.assign 0 #[5, 6])).2.host.read v = #[1, 2] := by
  have hp : after [.vector #[1, 2], .clone 0, .deepClone 1] =
      ({ host := ⟨#[#[1, 2], #[1, 2]]⟩
         handles := [⟨.vector 2, 0⟩, ⟨.vector 2, 0⟩, ⟨.vector 2, 1⟩] } : Pool ℚ) := rfl
  obtain ⟨⟨-, -, hshare, -⟩, hrequest, -⟩ := handles_form_sharing_classes hp
  obtain ⟨-, hread, -⟩ := hrequest (.assign 0 #[5, 6]) _ _ rfl
  refine ⟨_, _, _, _, hp, rfl, (hshare 0 1 _ _ rfl rfl).2 rfl,
    Bool.eq_false_iff.2 fun hshared => ?_, (hread 1 _ rfl).trans rfl, (hread 2 _ rfl).trans rfl⟩
  exact absurd ((hshare 0 2 _ _ rfl rfl).1 hshared) (by decide)

end After

end Pool

end GraphTape
