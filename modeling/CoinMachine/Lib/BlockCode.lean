import Mathlib.Data.List.Basic
/-!
# Fixed-width block codes and delimited words

A text over symbols `α` is sent as the concatenation of one block of `w` letters for each symbol.
Cutting the letters into blocks of `w` gives the text back (`flatMap_code_injective`), and the `j`-th
block sits at position `w * j` (`block_at`). Independently of the code, a word that ends at the
first occurrence of a delimiter can be split off (`append_delim_inj`).
-/

namespace BlockCode

variable {α β : Type*} {code : α → List β} {w : ℕ}

theorem length_flatMap_code (hlen : ∀ a, (code a).length = w) (l : List α) :
    (l.flatMap code).length = w * l.length := by
  induction l with
  | nil => simp
  | cons a l ih =>
    rw [List.flatMap_cons, List.length_append, hlen, ih, List.length_cons, Nat.mul_succ, Nat.add_comm]

/-- Cutting a coded text into blocks recovers the text. -/
theorem flatMap_code_injective (hw : 0 < w) (hlen : ∀ a, (code a).length = w)
    (hinj : Function.Injective code) : Function.Injective (List.flatMap code) := by
  intro l
  induction l with
  | nil =>
    intro l' h
    have := congrArg List.length h
    rw [length_flatMap_code hlen, length_flatMap_code hlen, List.length_nil, Nat.mul_zero] at this
    rcases Nat.mul_eq_zero.1 this.symm with h0 | h0
    · omega
    · exact (List.length_eq_zero_iff.1 h0).symm
  | cons a l ih =>
    intro l' h
    cases l' with
    | nil =>
      have := congrArg List.length h
      rw [length_flatMap_code hlen, length_flatMap_code hlen] at this
      simp only [List.length_cons, List.length_nil, Nat.mul_zero, Nat.mul_eq_zero] at this
      omega
    | cons a' l' =>
      simp only [List.flatMap_cons] at h
      obtain ⟨h1, h2⟩ := List.append_inj h (by rw [hlen, hlen])
      rw [hinj h1, ih h2]

/-- Block `j` of a coded text starts at `w * j`. -/
theorem block_at (hlen : ∀ a, (code a).length = w) :
    ∀ (l : List α) (j : ℕ) (hj : j < l.length), ((l.flatMap code).drop (w * j)).take w = code l[j]
  | a :: l, 0, _ => by simp [List.flatMap_cons, ← hlen a]
  | a :: l, j + 1, hj => by
    have ih := block_at hlen l j (by simpa using hj)
    rw [List.flatMap_cons, Nat.mul_succ, Nat.add_comm, ← List.drop_drop]
    simpa [← hlen a] using ih

/-! ## Delimiters -/

/-- Two words that contain no delimiter and are followed by one are equal, and so are the rests. -/
theorem append_delim_inj {s : α} : ∀ {u v r t : List α}, s ∉ u → s ∉ v →
    u ++ s :: r = v ++ s :: t → u = v ∧ r = t
  | [], [], _, _, _, _, h => ⟨rfl, by simpa using h⟩
  | [], b :: _, _, _, _, hv, h => by
    simp only [List.nil_append, List.cons_append, List.cons.injEq] at h
    exact absurd (h.1 ▸ List.mem_cons_self) hv
  | a :: _, [], _, _, hu, _, h => by
    simp only [List.nil_append, List.cons_append, List.cons.injEq] at h
    exact absurd (h.1 ▸ List.mem_cons_self) hu
  | a :: u, b :: v, r, t, hu, hv, h => by
    simp only [List.cons_append, List.cons.injEq] at h
    obtain ⟨rfl, h⟩ := h
    obtain ⟨rfl, rfl⟩ := append_delim_inj (fun m => hu (List.mem_cons_of_mem _ m))
      (fun m => hv (List.mem_cons_of_mem _ m)) h
    exact ⟨rfl, rfl⟩

end BlockCode
