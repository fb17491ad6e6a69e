import Mathlib.Data.List.Destutter
/-!
# Stuttering of words

`Stutters ws l`: the word `l` is `ws` with every letter repeated some positive number of times. Merging
the adjacent repetitions of `l` gives `ws` back when `ws` repeats no letter itself (`Stutters.merge_eq`).
-/

namespace Stutter

variable {α : Type*}

/-- `l` is `ws` with every letter repeated at least once. -/
inductive Stutters : List α → List α → Prop where
  | nil : Stutters [] []
  | cons (w : α) (k : ℕ) {ws l : List α} : Stutters ws l → Stutters (w :: ws) (List.replicate (k + 1) w ++ l)

/-- Every letter of a stuttering is a letter of the word, and conversely. -/
theorem Stutters.mem_iff {ws l : List α} (h : Stutters ws l) (a : α) : a ∈ l ↔ a ∈ ws := by
  induction h with
  | nil => rfl
  | cons w k h ih =>
    rw [List.mem_append, List.mem_replicate, List.mem_cons, ih]
    simp

theorem Stutters.getLast?_eq {ws l : List α} (h : Stutters ws l) : l.getLast? = ws.getLast? := by
  induction h with
  | nil => rfl
  | cons w k h ih =>
    rw [List.getLast?_append, List.getLast?_cons, ih, List.getLast?_replicate]
    simp

theorem Stutters.map {β : Type*} (f : α → β) {ws l : List α} (h : Stutters ws l) :
    Stutters (ws.map f) (l.map f) := by
  induction h with
  | nil => exact .nil
  | cons w k h ih =>
    rw [List.map_cons, List.map_append, List.map_replicate]
    exact .cons (f w) k ih

variable [DecidableEq α]

/-- Keep one letter of each group of adjacent equal letters. -/
def merge (l : List α) : List α := l.destutter (· ≠ ·)

theorem destutter'_replicate_append (w : α) (k : ℕ) (l : List α) :
    (List.replicate k w ++ l).destutter' (· ≠ ·) w = l.destutter' (· ≠ ·) w := by
  induction k with
  | zero => rfl
  | succ k ih =>
    rw [List.replicate_succ, List.cons_append, List.destutter'_cons_neg _ (by simp)]
    exact ih

/-- Merging undoes a stuttering of a word without adjacent repetitions. -/
theorem Stutters.merge_eq {ws l : List α} (h : Stutters ws l) (hc : ws.IsChain (· ≠ ·)) : merge l = ws := by
  induction h with
  | nil => rfl
  | @cons w k vs l h ih =>
    have hl := ih hc.of_cons
    rw [merge, List.replicate_succ, List.cons_append, List.destutter_cons', destutter'_replicate_append]
    cases h with
    | nil => rfl
    | @cons v j us l' h' =>
      rw [merge, List.replicate_succ, List.cons_append, List.destutter_cons'] at hl
      have hne : w ≠ v := (List.isChain_cons_cons.1 hc).1
      rw [List.replicate_succ, List.cons_append, List.destutter'_cons_pos _ hne, hl]

end Stutter
