import Mathlib.Data.List.Basic
/-!
# Lines

The lines of a text are what stands before its line ends; a rest that no line end follows is no line.
`unlines` puts the ends back, so a text is its lines and that rest (`exists_unlines`).
-/

namespace Lines

variable {α : Type*} [DecidableEq α] (nl : α)

/-- The lines of a text, without their ends. -/
def lines : List α → List (List α)
  | [] => []
  | a :: as =>
    if a = nl then [] :: lines as
    else
      match lines as with
      | [] => []
      | l :: ls => (a :: l) :: ls

def unlines (ls : List (List α)) : List α := (ls.map (· ++ [nl])).flatten

variable {nl}

omit [DecidableEq α] in
@[simp] theorem unlines_nil : unlines nl [] = [] := rfl

omit [DecidableEq α] in
theorem unlines_cons (l : List α) (ls : List (List α)) : unlines nl (l :: ls) = l ++ nl :: unlines nl ls := by
  simp [unlines]

omit [DecidableEq α] in
theorem unlines_append (ls ls' : List (List α)) : unlines nl (ls ++ ls') = unlines nl ls ++ unlines nl ls' := by
  simp [unlines]

/-- A text is its lines, which hold no line end, and a rest that holds none either. -/
theorem exists_unlines (nl : α) (as : List α) :
    (∀ l ∈ lines nl as, nl ∉ l) ∧ ∃ rest, nl ∉ rest ∧ as = unlines nl (lines nl as) ++ rest := by
  induction as with
  | nil => exact ⟨fun l hl => absurd hl List.not_mem_nil, [], List.not_mem_nil, rfl⟩
  | cons a as ih =>
    obtain ⟨hlines, rest, hnot, hrest⟩ := ih
    rw [lines]
    split
    case isTrue ha =>
      refine ⟨fun l hl => ?_, rest, hnot, ?_⟩
      · rcases List.mem_cons.1 hl with rfl | hl
        · exact List.not_mem_nil
        · exact hlines l hl
      · rw [unlines_cons, ha, List.nil_append, List.cons_append, ← hrest]
    case isFalse ha =>
      cases hls : lines nl as with
      | nil =>
        -- no line end in the rest of the text
        rw [hls, unlines_nil, List.nil_append] at hrest
        have hnot' : nl ∉ a :: as := List.not_mem_cons_of_ne_of_not_mem (Ne.symm ha) (hrest ▸ hnot)
        exact ⟨fun l hl => absurd hl List.not_mem_nil, a :: as, hnot', rfl⟩
      | cons l ls =>
        rw [hls] at hrest hlines
        refine ⟨fun l' hl' => ?_, rest, hnot, ?_⟩
        · rcases List.mem_cons.1 hl' with rfl | hl'
          · exact List.not_mem_cons_of_ne_of_not_mem (Ne.symm ha) (hlines l List.mem_cons_self)
          · exact hlines l' (List.mem_cons_of_mem _ hl')
        · dsimp only
          rw [unlines_cons, List.cons_append, List.cons_append, ← unlines_cons, ← hrest]

end Lines
