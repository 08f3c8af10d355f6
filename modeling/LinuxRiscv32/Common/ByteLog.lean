import Mathlib.Data.Int.Notation
import Mathlib.Data.List.Basic
import Mathlib.Data.List.Induction
import Mathlib.Order.Lattice
import Mathlib.Order.MinMax
import Mathlib.Tactic.Common

/-!
# Memory as a log of stores

A memory that is only changed by storing blocks is described by the blocks stored so far, in their
order: a cell holds what was stored there last. `Represents.blit` is the step rule of this
refinement.
-/

namespace Common

variable {β : Type*}

/-- Store the block `bs` at position `p`. -/
def blit (mem : ℤ → β) (p : ℤ) (bs : List β) (i : ℤ) : β :=
  if p ≤ i then bs.getD (i - p).toNat (mem i) else mem i

/-- The `n` cells from position `p` on. -/
def slice (mem : ℤ → β) (p : ℤ) (n : ℕ) : List β :=
  (List.range n).map fun k : ℕ => mem (p + (k : ℤ))

/-- What the block `bs` stored at `p` puts into cell `i`. -/
def stores (p : ℤ) (bs : List β) (i : ℤ) : Option β :=
  if p ≤ i then bs[(i - p).toNat]? else none

/-- What the blocks of the log put into cell `i`, the last one first. -/
def lastStored (log : List (ℤ × List β)) (i : ℤ) : Option β :=
  log.reverse.findSome? fun x => stores x.1 x.2 i

/-- The largest end of a block in the log. -/
def logEnd (log : List (ℤ × List β)) : ℤ :=
  (log.map fun x : ℤ × List β => x.1 + (x.2.length : ℤ)).foldl max 0

/-! ## Cells -/

section Cells

variable (mem : ℤ → β) {p : ℤ} {bs : List β} {i : ℤ}

/-- A byte is the one that was stored there, or the old one. -/
theorem blit_eq : blit mem p bs i = (stores p bs i).getD (mem i) := by
  unfold blit stores
  split
  · rw [List.getD_eq_getElem?_getD]
  · rfl

/-- A store changes nothing in front of it or behind it. -/
theorem stores_eq_none (h : i < p ∨ p + bs.length ≤ i) : stores p bs i = none := by
  unfold stores
  split
  · exact List.getElem?_eq_none (by omega)
  · rfl

/-- The byte at a distance from the start of the store. -/
theorem stores_add {k : ℕ} : stores p bs (p + k) = bs[k]? := by
  unfold stores
  rw [if_pos (by omega), show (p + k - p).toNat = k by omega]

/-- A store leaves the other cells alone. -/
theorem blit_of_not_mem (h : i < p ∨ p + bs.length ≤ i) : blit mem p bs i = mem i := by
  rw [blit_eq, stores_eq_none h, Option.getD_none]

theorem blit_add {k : ℕ} (h : k < bs.length) : blit mem p bs (p + k) = bs[k] := by
  rw [blit_eq, stores_add, List.getElem?_eq_getElem h, Option.getD_some]

@[simp] theorem blit_nil : blit mem p [] = mem :=
  funext fun _ => blit_of_not_mem mem (by simp only [List.length_nil]; omega)

/-- Two blocks that follow one another are one block. -/
theorem blit_append (as : List β) :
    blit (blit mem p as) (p + as.length) bs = blit mem p (as ++ bs) := by
  funext i
  by_cases h : i < p + as.length
  · rw [blit_of_not_mem _ (.inl h)]
    by_cases hi : p ≤ i
    · obtain ⟨k, rfl⟩ : ∃ k : ℕ, i = p + k := ⟨(i - p).toNat, by omega⟩
      rw [blit_add mem (by omega), blit_add mem (by rw [List.length_append]; omega),
        List.getElem_append_left (by omega)]
    · rw [blit_of_not_mem mem (.inl (not_le.mp hi)), blit_of_not_mem mem (.inl (not_le.mp hi))]
  · obtain ⟨k, rfl⟩ : ∃ k : ℕ, i = p + as.length + k := ⟨(i - p - as.length).toNat, by omega⟩
    have hmem : p + as.length + k = p + (as.length + k : ℕ) := by omega
    rw [blit_eq, stores_add, hmem, blit_of_not_mem mem (.inr (by omega)), blit_eq, stores_add,
      List.getElem?_append_right (by omega), Nat.add_sub_cancel_left]

theorem blit_zero_append (as bs : List β) :
    blit (blit mem 0 as) as.length bs = blit mem 0 (as ++ bs) := by
  have h : blit (blit mem 0 as) (0 + as.length) bs = blit mem 0 (as ++ bs) := blit_append mem as
  rwa [Int.zero_add] at h

@[simp] theorem slice_length (n : ℕ) : (slice mem p n).length = n := by
  rw [slice, List.length_map, List.length_range]

theorem slice_getElem {n k : ℕ} (h : k < (slice mem p n).length) :
    (slice mem p n)[k] = mem (p + k) := by
  simp only [slice, List.getElem_map, List.getElem_range]

/-- Two ranges that follow one another are one range. -/
theorem slice_add (m n : ℕ) : slice mem p (m + n) = slice mem p m ++ slice mem (p + m) n := by
  rw [slice, slice, slice, List.range_add, List.map_append, List.map_map]
  refine congrArg _ (List.map_congr_left fun k _ => ?_)
  rw [Function.comp_apply, Int.natCast_add, Int.add_assoc]

/-- What was stored is read back, as far as it is asked for. -/
theorem slice_blit {n : ℕ} (h : n ≤ bs.length) : slice (blit mem p bs) p n = bs.take n := by
  apply List.ext_getElem
  · rw [slice_length, List.length_take, min_eq_left h]
  · intro k hk _
    rw [slice_length] at hk
    rw [slice_getElem, blit_add mem (by omega), List.getElem_take]

/-- A slice depends on the bytes in it only. -/
theorem slice_congr {mem' : ℤ → β} {n : ℕ} (h : ∀ i, p ≤ i → i < p + n → mem i = mem' i) :
    slice mem p n = slice mem' p n := by
  refine List.map_congr_left fun k hk => ?_
  rw [List.mem_range] at hk
  exact h _ (by omega) (by omega)

end Cells

/-! ## Logs -/

section Logs

variable {log : List (ℤ × List β)} {p : ℤ} {bs : List β}

/-- One more store hides the earlier ones where it reaches. -/
theorem lastStored_concat (i : ℤ) :
    lastStored (log ++ [(p, bs)]) i = (stores p bs i).or (lastStored log i) := by
  rw [lastStored, List.reverse_concat, List.findSome?_cons]
  cases stores p bs i <;> rfl

/-- A memory to which the log was stored: a cell that the log does not reach is as it was. -/
theorem foldl_blit (mem : ℤ → β) (log : List (ℤ × List β)) (i : ℤ) :
    log.foldl (fun m x => blit m x.1 x.2) mem i = (lastStored log i).getD (mem i) := by
  induction log using List.reverseRecOn with
  | nil => rfl
  | append_singleton log x ih =>
    rw [List.foldl_concat, lastStored_concat, blit_eq, ih]
    cases stores x.1 x.2 i <;> rfl

/-- One more store may move the end. -/
theorem logEnd_concat : logEnd (log ++ [(p, bs)]) = max (logEnd log) (p + bs.length) := by
  rw [logEnd, List.map_append, List.map_singleton, List.foldl_concat, logEnd]

/-- The first `n` cells hold what the log put there last, and `d` where it put nothing. -/
def Represents (n : ℤ) (d : β) (log : List (ℤ × List β)) (mem : ℤ → β) : Prop :=
  ∀ i, 0 ≤ i → i < n → mem i = (lastStored log i).getD d

/-- One more store. -/
theorem Represents.blit {n : ℤ} {d : β} {mem : ℤ → β} (h : Represents n d log mem) :
    Represents n d (log ++ [(p, bs)]) (blit mem p bs) := by
  intro i h0 hn
  rw [lastStored_concat, blit_eq, h i h0 hn]
  cases stores p bs i <;> rfl

end Logs

end Common
