import Mathlib.Data.List.Induction
/-!
# Logs in which every event was good when it happened

`Always good log`: each event of the log is good given the events before it. A log grows at its end, so the
law is kept by a step whose new events are good one after another (`Always.append`). `Since p q log`: some event
with `p` has happened, and none with `q` after it.
-/

namespace EventLog

variable {ε : Type*} {good : List ε → ε → Prop}

def Always (good : List ε → ε → Prop) (log : List ε) : Prop :=
  ∀ pre e post, log = pre ++ e :: post → good pre e

/-- Where an event can stand in a log that has just grown. -/
theorem split_snoc {log pre post : List ε} {x e : ε} (h : log ++ [x] = pre ++ e :: post) :
    (pre = log ∧ e = x ∧ post = []) ∨ ∃ post', post = post' ++ [x] ∧ log = pre ++ e :: post' := by
  rcases List.eq_nil_or_concat post with rfl | ⟨post', y, rfl⟩
  · obtain ⟨rfl, hx⟩ := List.append_inj' h rfl
    exact Or.inl ⟨rfl, (List.singleton_inj.1 hx).symm, rfl⟩
  · rw [List.concat_eq_append, ← List.cons_append, ← List.append_assoc] at h
    obtain ⟨hlog, hx⟩ := List.append_inj' h rfl
    rw [List.concat_eq_append, List.singleton_inj.1 hx]
    exact Or.inr ⟨post', rfl, hlog⟩

/-- Where an event can stand in a log that several events were added to. -/
theorem split_append {log evs pre post : List ε} {e : ε} (h : log ++ evs = pre ++ e :: post) :
    (∃ post', post = post' ++ evs ∧ log = pre ++ e :: post') ∨ ∃ pre', pre = log ++ pre' ∧ evs = pre' ++ e :: post := by
  rcases List.append_eq_append_iff.1 h with ⟨l, hl, hevs⟩ | ⟨l, hl, hpost⟩
  · exact Or.inr ⟨l, hl, hevs⟩
  · cases l with
    | nil => exact Or.inr ⟨[], by simpa using hl.symm, hpost.symm⟩
    | cons x l =>
      obtain ⟨rfl, rfl⟩ := List.cons.inj hpost
      exact Or.inl ⟨l, rfl, hl⟩

theorem Always.nil : Always good [] := by
  intro pre e post h
  cases pre <;> cases h

/-- One more event. -/
theorem Always.snoc {log : List ε} (h : Always good log) {e : ε} (he : good log e) : Always good (log ++ [e]) := by
  intro pre e' post heq
  rcases split_snoc heq with ⟨rfl, rfl, -⟩ | ⟨post', -, hlog⟩
  · exact he
  · exact h pre e' post' hlog

/-- The events of one step, good one after another. -/
theorem Always.append {log : List ε} (h : Always good log) :
    ∀ {evs : List ε}, (∀ pre e post, evs = pre ++ e :: post → good (log ++ pre) e) → Always good (log ++ evs) := by
  intro evs
  induction evs using List.reverseRecOn with
  | nil => intro _; rwa [List.append_nil]
  | append_singleton evs e ih =>
    intro hevs
    rw [← List.append_assoc]
    refine (ih fun pre e' post heq => hevs pre e' (post ++ [e]) (by rw [heq]; simp)).snoc ?_
    exact hevs evs e [] rfl

/-- Events that are good after any log. -/
theorem Always.append_of_forall {log evs : List ε} (h : Always good log) (hevs : ∀ e ∈ evs, ∀ pre, good pre e) :
    Always good (log ++ evs) :=
  h.append fun pre e post heq => hevs e (by rw [heq]; simp) _

/-! ## Since -/

def Since (p q : ε → Prop) (log : List ε) : Prop := ∃ pre e post, log = pre ++ e :: post ∧ p e ∧ ∀ x ∈ post, ¬ q x

variable {p q : ε → Prop}

theorem not_since_nil : ¬ Since p q [] := by
  rintro ⟨pre, e, post, heq, -⟩
  cases pre <;> cases heq

theorem since_snoc {log : List ε} {e : ε} : Since p q (log ++ [e]) ↔ p e ∨ ¬ q e ∧ Since p q log := by
  constructor
  · rintro ⟨pre, x, post, heq, hx, hpost⟩
    rcases split_snoc heq with ⟨-, rfl, -⟩ | ⟨post', rfl, hlog⟩
    · exact Or.inl hx
    · refine Or.inr ⟨hpost e (by simp), pre, x, post', hlog, hx, fun y hy => hpost y (by simp [hy])⟩
  · rintro (he | ⟨he, pre, x, post, rfl, hx, hpost⟩)
    · exact ⟨log, e, [], rfl, he, fun y hy => nomatch hy⟩
    · refine ⟨pre, x, post ++ [e], by simp, hx, fun y hy => ?_⟩
      rcases List.mem_append.1 hy with hy | hy
      · exact hpost y hy
      · rwa [List.mem_singleton.1 hy]

/-- What happened since the last `q` happened after any `q` there is. -/
theorem Since.after {pre post : List ε} {e : ε} (h : Since p q (pre ++ e :: post)) (he : q e) (hp : ¬ p e) :
    Since p q post := by
  induction post using List.reverseRecOn with
  | nil =>
    rcases since_snoc.1 h with hpe | ⟨hne, -⟩
    · exact absurd hpe hp
    · exact absurd he hne
  | append_singleton post y ih =>
    rw [← List.cons_append, ← List.append_assoc] at h
    rcases since_snoc.1 h with hy | ⟨hy, h⟩
    · exact since_snoc.2 (Or.inl hy)
    · exact since_snoc.2 (Or.inr ⟨hy, ih h⟩)

theorem Since.mono {q' : ε → Prop} {log : List ε} (h : Since p q log) (hq : ∀ x ∈ log, q' x → q x) : Since p q' log := by
  obtain ⟨pre, e, post, rfl, he, hpost⟩ := h
  exact ⟨pre, e, post, rfl, he, fun x hx hq' => hpost x hx (hq x (by simp [hx]) hq')⟩

end EventLog
