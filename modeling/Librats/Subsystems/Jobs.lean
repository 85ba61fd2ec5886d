import Librats.Foundations.Lists
import Librats.Subsystems.FileTransfer
import Librats.Wire.Frame

/-!
# The jobs of the disk writer

What the reactor queues for one transfer: for each file in turn, its chunks and then its end. The
64-bit sums of the checks (`Admitted`) wrap, but the writer takes no offset from 2⁶³ on, so for jobs
that it has written they are exact.
-/

namespace Librats.FileTransfer

open List

variable (jobs : List WriteJob)

/-- How many files have ended. -/
def ends : ℕ := jobs.countP (·.isFileEnd)

/-- The data of the chunks for a file, in their order. -/
def dataOf (i : ℕ) (jobs : List WriteJob) : Bytes :=
  (jobs.filter fun job => !job.isFileEnd && decide (job.fidx = i)).flatMap (·.data)

/-- The number of bytes in the chunks of all files. -/
def payload : ℕ :=
  ((jobs.filter (!·.isFileEnd)).map (·.data.length)).sum

@[simp] theorem ends_append (l l' : List WriteJob) : ends (l ++ l') = ends l + ends l' :=
  countP_append

@[simp] theorem dataOf_append (i : ℕ) (l l' : List WriteJob) :
    dataOf i (l ++ l') = dataOf i l ++ dataOf i l' := by
  simp [dataOf]

@[simp] theorem payload_append (l l' : List WriteJob) :
    payload (l ++ l') = payload l + payload l' := by
  simp [payload]

theorem ends_singleton (job : WriteJob) : ends [job] = job.isFileEnd.toNat := by
  cases h : job.isFileEnd <;> simp [ends, h]

theorem dataOf_singleton (i : ℕ) (job : WriteJob) :
    dataOf i [job] = if job.isFileEnd = false ∧ job.fidx = i then job.data else [] := by
  cases h : job.isFileEnd <;> by_cases hi : job.fidx = i <;> simp [dataOf, h, hi]

theorem payload_singleton (job : WriteJob) :
    payload [job] = if job.isFileEnd then 0 else job.data.length := by
  cases h : job.isFileEnd <;> simp [payload, h]

/-- The writer can write all chunks: `fseeko` takes no offset from 2⁶³ on. -/
def Writable : Prop :=
  ∀ job ∈ jobs, job.isFileEnd = false → job.offset < 2 ^ 63

/-- A job the reactor queues after the others, for files of these sizes. -/
structure Admitted (sizes : List ℕ) (before : List WriteJob) (job : WriteJob) : Prop where
  fidx : job.fidx = ends before
  file : ∃ size, sizes[job.fidx]? = some size ∧
    (job.isFileEnd = true → (dataOf job.fidx before).length % 2 ^ 64 = size) ∧
    (job.isFileEnd = false → job.offset = (dataOf job.fidx before).length % 2 ^ 64 ∧
      (job.offset + job.data.length) % 2 ^ 64 ≤ size)
  bounded : job.data.length ≤ Framer.kMaxBlockSize

/-- Jobs that the reactor has queued one after the other. -/
abbrev AllAdmitted (sizes : List ℕ) (jobs : List WriteJob) : Prop := Chronicle (Admitted sizes) jobs

namespace AllAdmitted

variable {sizes : List ℕ} {jobs l l' : List WriteJob} {job : WriteJob}

theorem ends_le_fidx (h : AllAdmitted sizes (l ++ l')) (hjob : job ∈ l') : ends l ≤ job.fidx := by
  obtain ⟨l₁, l₂, rfl⟩ := append_of_mem hjob
  have := (h (l ++ l₁) job l₂ (by simp)).fidx
  rw [ends_append] at this
  omega

variable (h : AllAdmitted sizes jobs)

include h

theorem fidx_le_ends (hjob : job ∈ jobs) : job.fidx ≤ ends jobs := by
  obtain ⟨l₁, l₂, rfl⟩ := append_of_mem hjob
  have := (h l₁ job l₂ rfl).fidx
  rw [ends_append]
  omega

theorem dataOf_eq_nil {i : ℕ} (hi : ends jobs < i) : dataOf i jobs = [] := by
  have hnone : (jobs.filter fun job => !job.isFileEnd && decide (job.fidx = i)) = [] := by
    refine filter_eq_nil_iff.mpr fun job hjob => ?_
    have := h.fidx_le_ends hjob
    simp only [Bool.and_eq_true, decide_eq_true_eq]
    omega
  rw [dataOf, hnone]
  rfl

omit h in
theorem dataOf_of_end (h : AllAdmitted sizes (l ++ job :: l')) (hend : job.isFileEnd = true) :
    dataOf job.fidx (l ++ job :: l') = dataOf job.fidx l := by
  have hfidx := (h l job l' rfl).fidx
  have hnone : ((job :: l').filter fun j => !j.isFileEnd && decide (j.fidx = job.fidx)) = [] := by
    refine filter_eq_nil_iff.mpr fun j hj => ?_
    obtain rfl | hj := mem_cons.mp hj
    · simp [hend]
    · have hle := ends_le_fidx (l := l ++ [job]) (by simpa using h) hj
      rw [ends_append, ends_singleton, hend, Bool.toNat_true] at hle
      simp only [Bool.and_eq_true, decide_eq_true_eq, not_and]
      omega
  rw [dataOf_append]
  simp [dataOf, hnone]

theorem length_dataOf_lt (hw : Writable jobs) (i : ℕ) : (dataOf i jobs).length < 2 ^ 64 := by
  induction jobs using List.reverseRecOn with
  | nil => simp [dataOf]
  | append_singleton jobs job ih =>
    have hjobs := ih h.left fun job hjob => hw job (mem_append_left _ hjob)
    rw [dataOf_append, dataOf_singleton]
    split_ifs with hi
    · obtain ⟨hdata, rfl⟩ := hi
      have hadmitted := h jobs job [] rfl
      obtain ⟨size, -, -, hoffset⟩ := hadmitted.file
      have hlt := hw job (by simp) hdata
      rw [(hoffset hdata).1] at hlt
      have hbound := hadmitted.bounded
      rw [Framer.kMaxBlockSize] at hbound
      rw [length_append]
      omega
    · rwa [append_nil]

theorem length_dataOf_le (hw : Writable jobs) (i : ℕ) :
    (dataOf i jobs).length ≤ (sizes[i]?).getD 0 := by
  induction jobs using List.reverseRecOn with
  | nil => simp [dataOf]
  | append_singleton jobs job ih =>
    have hwritable : Writable jobs := fun job hjob => hw job (mem_append_left _ hjob)
    have hall := h.length_dataOf_lt hw i
    rw [dataOf_append, dataOf_singleton] at hall ⊢
    split_ifs at hall ⊢ with hi
    · obtain ⟨hdata, rfl⟩ := hi
      obtain ⟨size, hsize, -, hoffset⟩ := (h jobs job [] rfl).file
      obtain ⟨hexact, hle⟩ := hoffset hdata
      rw [Nat.mod_eq_of_lt (length_dataOf_lt h.left hwritable _)] at hexact
      rw [length_append] at hall ⊢
      rw [hexact, Nat.mod_eq_of_lt hall] at hle
      rwa [hsize]
    · rw [append_nil]
      exact ih h.left hwritable

omit h in
theorem length_dataOf_eq (h : AllAdmitted sizes (l ++ job :: l')) (hw : Writable l)
    (hend : job.isFileEnd = true) : sizes[job.fidx]? = some (dataOf job.fidx l).length := by
  obtain ⟨size, hsize, hlength, -⟩ := (h l job l' rfl).file
  rw [hsize, ← hlength hend, Nat.mod_eq_of_lt (length_dataOf_lt h.left hw _)]

theorem payload_eq (hw : Writable jobs) :
    payload jobs = (sizes.take (ends jobs)).sum + (dataOf (ends jobs) jobs).length := by
  induction jobs using List.reverseRecOn with
  | nil => simp [payload, ends, dataOf]
  | append_singleton jobs job ih =>
    have hwritable : Writable jobs := fun job hjob => hw job (mem_append_left _ hjob)
    have hfidx := (h jobs job [] rfl).fidx
    rw [payload_append, ends_append, dataOf_append, ih h.left hwritable, payload_singleton,
      ends_singleton, dataOf_singleton]
    cases hend : job.isFileEnd with
    | true =>
      -- the file that ends has its size, and the next one has nothing yet
      have hsize := h.length_dataOf_eq hwritable hend
      rw [hfidx] at hsize
      obtain ⟨hlt, hget⟩ := List.getElem?_eq_some_iff.mp hsize
      have hnext := dataOf_eq_nil h.left (Nat.lt_succ_self _)
      simp [sum_take_succ, hlt, hget, hnext]
    | false => simp [hfidx, Nat.add_assoc]

/-- **What has been written is no more than the manifest says.** -/
theorem payload_le (hw : Writable jobs) : payload jobs ≤ sizes.sum := by
  have hlast := h.length_dataOf_le hw (ends jobs)
  have hsplit := sum_take_add_sum_drop sizes (ends jobs)
  rw [h.payload_eq hw]
  cases hk : sizes[ends jobs]? with
  | none =>
    rw [hk, Option.getD_none] at hlast
    omega
  | some size =>
    obtain ⟨hlt, hget⟩ := List.getElem?_eq_some_iff.mp hk
    rw [drop_eq_getElem_cons hlt, sum_cons] at hsplit
    rw [hk, Option.getD_some] at hlast
    omega

end AllAdmitted

end Librats.FileTransfer
