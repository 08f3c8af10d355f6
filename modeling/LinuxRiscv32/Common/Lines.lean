import Mathlib.Data.List.Basic

/-!
# Blocks with one separator each

A stream of blocks is cut at a separator. If every block holds the separator once, there are as many
cuts as blocks, but what a block has behind its separator goes to the line of the next one.
`IsLineCode.splitOn_flatMap` says which lines come out, and `pieces_eq_iff` when these are the lines
of the blocks and nothing else.
-/

namespace Common

variable {α β : Type*}

/-- Every block is a line, the separator, and an excess behind it. -/
structure IsLineCode (sep : β) (code line excess : α → List β) : Prop where
  code_eq : ∀ a, code a = line a ++ sep :: excess a
  sep_notMem_line : ∀ a, sep ∉ line a
  sep_notMem_excess : ∀ a, sep ∉ excess a

/-- The lines of the blocks, each behind the excess of the block before it; `carry` stands in front
of the first one, and the last excess is left over. -/
def pieces (line excess : α → List β) : List β → List α → List (List β)
  | carry, [] => [carry]
  | carry, a :: as => (carry ++ line a) :: pieces line excess (excess a) as

variable {line excess : α → List β}

/-- The pieces are the lines exactly if there is no excess anywhere. -/
theorem pieces_eq_iff {carry : List β} {as : List α} :
    pieces line excess carry as = as.map line ++ [[]] ↔ carry = [] ∧ ∀ a ∈ as, excess a = [] := by
  induction as generalizing carry with
  | nil => simp [pieces]
  | cons a as ih =>
    rw [pieces, List.map_cons, List.cons_append, List.cons.injEq, ih, List.append_left_eq_self,
      List.forall_mem_cons]

/-- A stream of such blocks is cut into their pieces. -/
theorem IsLineCode.splitOn_flatMap [BEq β] [LawfulBEq β] {sep : β} {code : α → List β}
    (hc : IsLineCode sep code line excess) {carry : List β} (hcarry : sep ∉ carry) (as : List α) :
    (carry ++ as.flatMap code).splitOn sep = pieces line excess carry as := by
  induction as generalizing carry with
  | nil => rw [List.flatMap_nil, List.append_nil, List.splitOn_eq_singleton hcarry, pieces]
  | cons a as ih =>
    have hline : sep ∉ carry ++ line a := by
      rw [List.mem_append, not_or]
      exact ⟨hcarry, hc.sep_notMem_line a⟩
    calc (carry ++ (a :: as).flatMap code).splitOn sep
        = ((carry ++ line a) ++ sep :: (excess a ++ as.flatMap code)).splitOn sep := by
          rw [List.flatMap_cons, hc.code_eq]
          simp only [List.append_assoc, List.cons_append]
      _ = (carry ++ line a) :: (excess a ++ as.flatMap code).splitOn sep :=
          List.splitOn_append_cons_self_of_not_mem hline _
      _ = pieces line excess carry (a :: as) := by rw [ih (hc.sep_notMem_excess a), pieces]

end Common
