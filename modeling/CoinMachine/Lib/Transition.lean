import Mathlib.Data.List.Basic
/-!
# Labelled transition systems with a partial step function

`step s a` is the state after action `a`, or `none` where `a` is not enabled in `s`. `run` plays a
list of actions, `Reachable` is the set of states of all runs from an initial state. The rules: an
invariant that holds initially and is kept by every step holds in every reachable state
(`Reachable.invariant`), one that is kept by the steps of a certain kind holds along the runs that take only
such steps (`run_along`, and `run_needs` for the converse), and a relation between the two ends of a step that is reflexive and
transitive holds between the two ends of a run (`run_rel`).
-/

namespace Transition

variable {σ α : Type*} (step : σ → α → Option σ)

/-- Play a list of actions. -/
def run : σ → List α → Option σ
  | s, [] => some s
  | s, a :: as => (step s a).bind (run · as)

/-- `s` is the end of a run that starts in an initial state. -/
def Reachable (init : σ → Prop) (s : σ) : Prop := ∃ s₀ as, init s₀ ∧ run step s₀ as = some s

variable {step} {init : σ → Prop}

@[simp] theorem run_nil (s : σ) : run step s [] = some s := rfl

theorem run_cons {s s' : σ} {a : α} {as : List α} :
    run step s (a :: as) = some s' ↔ ∃ t, step s a = some t ∧ run step t as = some s' := by
  simp only [run, Option.bind_eq_some_iff]

theorem run_append {as bs : List α} :
    ∀ {s s' : σ}, run step s (as ++ bs) = some s' ↔ ∃ t, run step s as = some t ∧ run step t bs = some s' := by
  induction as with
  | nil => intro s s'; simp
  | cons a as ih =>
    intro s s'
    simp only [List.cons_append, run_cons, ih]
    constructor
    · rintro ⟨t, h1, u, h2, h3⟩; exact ⟨u, ⟨t, h1, h2⟩, h3⟩
    · rintro ⟨u, ⟨t, h1, h2⟩, h3⟩; exact ⟨t, h1, u, h2, h3⟩

/-- Last action of a nonempty run. -/
theorem run_snoc {as : List α} {a : α} {s s' : σ} :
    run step s (as ++ [a]) = some s' ↔ ∃ t, run step s as = some t ∧ step t a = some s' := by
  rw [run_append]
  simp only [run_cons, run_nil, Option.some.injEq, exists_eq_right]

/-- An invariant kept by the steps of a run holds at its end. -/
theorem run_invariant {P : σ → Prop} (hstep : ∀ s a s', P s → step s a = some s' → P s') :
    ∀ {as : List α} {s s' : σ}, P s → run step s as = some s' → P s'
  | [], _, _, hp, h => by simp only [run_nil, Option.some.injEq] at h; exact h ▸ hp
  | a :: _, _, _, hp, h => by
    obtain ⟨t, h1, h2⟩ := run_cons.1 h
    exact run_invariant hstep (hstep _ a t hp h1) h2

/-- An invariant kept by the steps that meet a condition holds in every state of a run whose steps all meet it. -/
theorem run_along {P : σ → Prop} {C : σ → α → Prop} (hstep : ∀ s a s', P s → C s a → step s a = some s' → P s')
    {pre : List α} : ∀ {as : List α} {s₀ : σ}, P s₀ →
      (∀ pre a post t, as = pre ++ a :: post → run step s₀ pre = some t → C t a) →
      ∀ post t, as = pre ++ post → run step s₀ pre = some t → P t := by
  induction pre with
  | nil =>
    intro as s₀ h₀ _ post t _ ht
    cases ht
    exact h₀
  | cons a pre ih =>
    intro as s₀ h₀ hC post t heq ht
    obtain ⟨u, hu, ht⟩ := run_cons.1 ht
    refine ih (hstep s₀ a u h₀ (hC [] a (pre ++ post) s₀ heq rfl) hu) ?_ post t rfl ht
    intro pre' b post' v heq' hv
    exact hC (a :: pre') b post' v (by rw [heq, List.cons_append, heq', List.cons_append]) (run_cons.2 ⟨u, hu, hv⟩)

/-- The converse: where a step that leads to a good state meets the condition, a run through good states consists of
such steps. -/
theorem run_needs {P Q : σ → Prop} {C : σ → α → Prop} (hstep : ∀ s a s', P s → C s a → step s a = some s' → P s')
    (hneeds : ∀ s a s', P s → step s a = some s' → Q s' → C s a) {as : List α} : ∀ {s₀ s : σ}, P s₀ →
      run step s₀ as = some s → (∀ pre post t, as = pre ++ post → run step s₀ pre = some t → Q t) →
      ∀ pre a post t, as = pre ++ a :: post → run step s₀ pre = some t → C t a := by
  induction as with
  | nil =>
    intro s₀ s _ _ _ pre a post t heq
    cases pre <;> cases heq
  | cons b as ih =>
    intro s₀ s h₀ h hQ pre a post t heq ht
    obtain ⟨u, hu, h⟩ := run_cons.1 h
    have hC : C s₀ b := hneeds s₀ b u h₀ hu (hQ [b] as u rfl (run_cons.2 ⟨u, hu, rfl⟩))
    cases pre with
    | nil =>
      cases heq
      cases ht
      exact hC
    | cons b' pre =>
      obtain ⟨hb, hrest⟩ := List.cons.inj heq
      obtain ⟨v, hv, ht⟩ := run_cons.1 ht
      rw [← hb, hu, Option.some.injEq] at hv
      subst hv
      refine ih (hstep s₀ b u h₀ hC hu) h (fun pre' post' w heq' hw => ?_) pre a post t hrest ht
      exact hQ (b :: pre') post' w (by rw [heq', List.cons_append]) (run_cons.2 ⟨u, hu, hw⟩)

/-- The step that a run takes after a prefix. -/
theorem run_split {pre post : List α} {a : α} {s₀ s t : σ} (h : run step s₀ (pre ++ a :: post) = some s)
    (ht : run step s₀ pre = some t) : ∃ u, step t a = some u ∧ run step s₀ (pre ++ [a]) = some u := by
  obtain ⟨t', ht', hrest⟩ := run_append.1 h
  cases ht.symm.trans ht'
  obtain ⟨u, hu, -⟩ := run_cons.1 hrest
  exact ⟨u, hu, run_snoc.2 ⟨t, ht, hu⟩⟩

/-- A preorder respected by the steps (under an invariant) relates the ends of a run. -/
theorem run_rel {P : σ → Prop} {R : σ → σ → Prop} (hrefl : ∀ s, R s s) (htrans : ∀ s t u, R s t → R t u → R s u)
    (hP : ∀ s a s', P s → step s a = some s' → P s') (hR : ∀ s a s', P s → step s a = some s' → R s s') :
    ∀ {as : List α} {s s' : σ}, P s → run step s as = some s' → R s s'
  | [], s, _, _, h => by simp only [run_nil, Option.some.injEq] at h; exact h ▸ hrefl s
  | a :: _, s, _, hp, h => by
    obtain ⟨t, h1, h2⟩ := run_cons.1 h
    exact htrans _ _ _ (hR s a t hp h1) (run_rel hrefl htrans hP hR (hP s a t hp h1) h2)

theorem Reachable.of_init {s : σ} (h : init s) : Reachable step init s := ⟨s, [], h, rfl⟩

theorem Reachable.snoc {s s' : σ} {a : α} (h : Reachable step init s) (hs : step s a = some s') :
    Reachable step init s' := by
  obtain ⟨s₀, as, h0, hr⟩ := h
  exact ⟨s₀, as ++ [a], h0, run_snoc.2 ⟨s, hr, hs⟩⟩

theorem Reachable.append {s s' : σ} {as : List α} (h : Reachable step init s) (hr : run step s as = some s') :
    Reachable step init s' := by
  obtain ⟨s₀, bs, h0, hr0⟩ := h
  exact ⟨s₀, bs ++ as, h0, run_append.2 ⟨s, hr0, hr⟩⟩

/-- The invariant rule. -/
theorem Reachable.invariant {P : σ → Prop} (hinit : ∀ s, init s → P s)
    (hstep : ∀ s a s', P s → step s a = some s' → P s') {s : σ} (h : Reachable step init s) : P s := by
  obtain ⟨s₀, _, h0, hr⟩ := h
  exact run_invariant hstep (hinit s₀ h0) hr

end Transition
