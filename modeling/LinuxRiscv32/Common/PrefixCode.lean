import Mathlib.Data.List.Basic

/-!
# Prefix codes

Blocks that are sent one after the other without lengths can be told apart if none is empty and none
begins another one. `IsPrefixCode.map_eq_of_flatMap_eq` recovers the blocks from their
concatenation.
-/

namespace Common

variable {α β : Type*}

/-- No block is empty, and a block that begins another one is the same block. -/
structure IsPrefixCode (code : α → List β) : Prop where
  ne_nil : ∀ a, code a ≠ []
  prefix_inj : ∀ a b, code a <+: code b → code a = code b

namespace IsPrefixCode

variable {code : α → List β}

/-- Two concatenations of blocks that begin alike begin with the same block. -/
theorem head_eq (hc : IsPrefixCode code) {a b : α} {l l' : List β}
    (h : code a ++ l = code b ++ l') : code a = code b := by
  have ha : code a <+: code b ++ l' := h ▸ List.prefix_append _ _
  rcases List.prefix_or_prefix_of_prefix ha (List.prefix_append (code b) l') with h | h
  · exact hc.prefix_inj a b h
  · exact (hc.prefix_inj b a h).symm

/-- The blocks are determined by their concatenation. -/
theorem map_eq_of_flatMap_eq (hc : IsPrefixCode code) {xs ys : List α}
    (h : xs.flatMap code = ys.flatMap code) : xs.map code = ys.map code := by
  induction xs generalizing ys with
  | nil =>
    cases ys with
    | nil => rfl
    | cons y ys =>
      rw [List.flatMap_nil, List.flatMap_cons] at h
      exact absurd (List.append_eq_nil_iff.mp h.symm).1 (hc.ne_nil y)
  | cons x xs ih =>
    cases ys with
    | nil =>
      rw [List.flatMap_nil, List.flatMap_cons] at h
      exact absurd (List.append_eq_nil_iff.mp h).1 (hc.ne_nil x)
    | cons y ys =>
      rw [List.flatMap_cons, List.flatMap_cons] at h
      have hxy := hc.head_eq h
      rw [hxy] at h
      rw [List.map_cons, List.map_cons, hxy, ih (List.append_cancel_left h)]

/-- Blocks that end with a mark and have none before it. -/
theorem of_mark (p : β → Prop)
    (hmark : ∀ a, ∃ l x, code a = l ++ [x] ∧ p x ∧ ∀ y ∈ l, ¬ p y) : IsPrefixCode code where
  ne_nil a := by
    obtain ⟨l, x, ha, -⟩ := hmark a
    rw [ha]
    exact List.concat_ne_nil x l
  prefix_inj a b h := by
    obtain ⟨la, x, ha, hx, hla⟩ := hmark a
    obtain ⟨lb, y, hb, -, hlb⟩ := hmark b
    rw [ha, hb] at h ⊢
    rcases List.prefix_concat_iff.mp h with heq | hshort
    · exact heq
    · -- the mark of the shorter block would stand inside the longer one
      exact absurd hx (hlb x (hshort.subset (List.mem_append_right _ List.mem_cons_self)))

end IsPrefixCode

end Common
