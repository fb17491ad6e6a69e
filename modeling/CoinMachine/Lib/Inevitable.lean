import CoinMachine.Lib.Transition
/-!
# What every run comes to

`Within step goal n s`: whatever steps are chosen from `s` on, the goal is reached after `n` of them at the
latest, and no choice gets stuck before. The rule to prove it is a rank that every step outside the goal lowers
(`within_of_rank`); in particular some run gets there (`Within.exists_run`).

Where several actors move and nothing makes a certain one of them move, the goal is reached once everybody has moved
often enough: each has a budget, and its own moves spend it (`run_spend`).
-/

namespace Transition

variable {σ α : Type*}

inductive Within (step : σ → α → Option σ) (goal : σ → Prop) : ℕ → σ → Prop where
  | now {n : ℕ} {s : σ} (h : goal s) : Within step goal n s
  | next {n : ℕ} {s : σ} (live : ∃ a s', step s a = some s')
      (all : ∀ a s', step s a = some s' → Within step goal n s') : Within step goal (n + 1) s

variable {step : σ → α → Option σ} {goal : σ → Prop}

/-- The ranking rule. -/
theorem within_of_rank {I : σ → Prop} (rank : σ → ℕ) (hlive : ∀ s, I s → ¬ goal s → ∃ a s', step s a = some s')
    (hstep : ∀ s a s', I s → ¬ goal s → step s a = some s' → I s' ∧ rank s' < rank s) :
    ∀ (n : ℕ) {s : σ}, I s → rank s ≤ n → Within step goal n s := by
  intro n
  induction n with
  | zero =>
    intro s hs hrank
    by_cases hg : goal s
    · exact .now hg
    · obtain ⟨a, s', h⟩ := hlive s hs hg
      have hlt := (hstep s a s' hs hg h).2
      omega
  | succ n ih =>
    intro s hs hrank
    by_cases hg : goal s
    · exact .now hg
    · refine .next (hlive s hs hg) fun a s' h => ?_
      obtain ⟨hs', hlt⟩ := hstep s a s' hs hg h
      exact ih hs' (by omega)

/-- The goal can be reached. -/
theorem Within.exists_run {n : ℕ} {s : σ} (h : Within step goal n s) :
    ∃ as t, as.length ≤ n ∧ Transition.run step s as = some t ∧ goal t := by
  induction h with
  | now h => exact ⟨[], _, Nat.zero_le _, rfl, h⟩
  | next live _ ih =>
    obtain ⟨a, u, hu⟩ := live
    obtain ⟨as, t, hlen, ht, hg⟩ := ih a u hu
    exact ⟨a :: as, t, Nat.succ_le_succ hlen, run_cons.2 ⟨u, hu, ht⟩, hg⟩

/-! ## Budgets -/

section Budget
variable {ι : Type*} [DecidableEq ι]

/-- A move of the actor, if it is anybody's. -/
def spend (actor : Option ι) (b : ι → ℕ) (i : ι) : ℕ := if actor = some i then b i - 1 else b i

theorem spend_self (i : ι) (b : ι → ℕ) : spend (some i) b i = b i - 1 := if_pos rfl

theorem spend_other {actor : Option ι} {i : ι} (h : actor ≠ some i) (b : ι → ℕ) : spend actor b i = b i := if_neg h

/-- The moves of actor `i` in a run. -/
def moves (actor : α → Option ι) (i : ι) (as : List α) : ℕ := as.countP fun a => actor a = some i

theorem moves_cons (actor : α → Option ι) (i : ι) (a : α) (as : List α) (b : ι → ℕ) :
    b i - moves actor i (a :: as) = spend (actor a) b i - moves actor i as := by
  unfold moves spend
  rw [List.countP_cons]
  by_cases h : actor a = some i
  · simp [h]
    omega
  · simp [h]

/-- The budget rule: a relation between states and budgets that every allowed step keeps, up to what its actor
spends, unless it leads to the goal. -/
theorem run_spend (actor : α → Option ι) {A : α → Prop} {I G : σ → Prop} {R : σ → (ι → ℕ) → Prop}
    (hI : ∀ s a s', I s → step s a = some s' → I s') (hG : ∀ s a s', I s → G s → step s a = some s' → G s')
    (hR : ∀ s a s' b, I s → A a → R s b → step s a = some s' → G s' ∨ R s' (spend (actor a) b)) {as : List α} :
    ∀ {s s' : σ} {b : ι → ℕ}, I s → (∀ a ∈ as, A a) → G s ∨ R s b → Transition.run step s as = some s' →
      G s' ∨ R s' (fun i => b i - moves actor i as) := by
  induction as with
  | nil =>
    intro s s' b _ _ hs h
    cases h
    exact hs
  | cons a as ih =>
    intro s s' b hi hall hs h
    obtain ⟨t, ht, h⟩ := run_cons.1 h
    have hb : (fun i => b i - moves actor i (a :: as)) = fun i => spend (actor a) b i - moves actor i as :=
      funext fun i => moves_cons actor i a as b
    rw [hb]
    refine ih (hI s a t hi ht) (fun a' ha' => hall a' (List.mem_cons_of_mem _ ha')) ?_ h
    rcases hs with hg | hr
    · exact Or.inl (hG s a t hi hg ht)
    · exact hR s a t b hi (hall a List.mem_cons_self) hr ht

end Budget

end Transition
