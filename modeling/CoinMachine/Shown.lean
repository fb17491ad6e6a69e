import CoinMachine.Phases
/-!
# What the machine shows

The threads count and are done before the report loop begins, the loop shows strips that depend on the counters
only, and it leaves `time` at zero. Together: whatever the dot matrix has shown, in any reachable state, is the
report of the coins that the threads have counted (`shown_exact`).
-/

namespace CoinMachine

open Transition

/-- A statement of `main` runs a report, or leaves the locals of the reports alone. -/
theorem mainStep_loop {c : Clock} {s s' : State} {inp : Input} {evs : List Event}
    (h : mainStep c s inp = some (s', evs)) : s'.main.loop = s.main.loop ∨
      ∃ r, s.main.pc = .branch r ∧ r.serve c { s.main.loop with ea := s.g.ea } = some s'.main.loop := by
  cases hpc : s.main.pc <;> cases inp <;> simp only [mainStep, hpc, reduceCtorEq] at h
  case branch.none r =>
    obtain ⟨t, ht, heq⟩ := Option.map_eq_some_iff.1 h
    cases heq
    exact Or.inr ⟨r, rfl, ht⟩
  all_goals
    left
    first
      | (cases h; rfl)
      | (split at h <;> cases h <;> rfl)

/-- Before the report loop nothing was shown; what was shown is exact for the counters. -/
structure ShownOk (s : State) : Prop where
  time : s.main.loop.l.time = 0
  views : ∀ v ∈ s.main.loop.views, v = v.report.view s.g.ea
  before : ¬ Settled s → s.main.loop.log = []

theorem ShownOk.init {x : State × List Event} (h : Init x) : ShownOk x.1 := by
  refine ⟨h.time, fun v hv => ?_, fun _ => h.shown⟩
  rw [LoopState.views, h.shown] at hv
  cases hv

/-- The step lemma. -/
theorem ShownOk.step {c : Clock} {s s' : State} {log log' : List Event} {a : Action} (hs : ShownOk s)
    (hx : Inv s.ctl log) (h : logStep c (s, log) a = some (s', log')) : ShownOk s' := by
  obtain ⟨evs, hstep, -⟩ := logStep_step h
  cases a with
  | main inp =>
    have hea : s'.g.ea = s.g.ea := (mainStep_move hstep).ea_eq
    rcases mainStep_loop hstep with hloop | ⟨r, hpc, hserve⟩
    · refine ⟨hloop ▸ hs.time, ?_, fun hn => ?_⟩
      · rw [hloop, hea]
        exact hs.views
      · rw [hloop]
        exact hs.before fun hset => hn (hset.step hx h).1
    · have hexact : Exact s.g.ea { s.main.loop with ea := s.g.ea } := ⟨rfl, hs.time, hs.views⟩
      have hserved := serve_exact hexact hserve
      have hset : Settled s := Or.inl (by rw [hpc]; rfl)
      exact ⟨hserved.time, hea ▸ hserved.views, fun hn => absurd (hset.step hx h).1 hn⟩
  | thread n inp =>
    -- the threads run before anything was shown
    obtain ⟨hmain, hset⟩ := step_thread_unsettled hx hstep
    have hnone := hs.before hset
    refine ⟨hmain ▸ hs.time, fun v hv => ?_, fun _ => hmain ▸ hnone⟩
    rw [hmain, LoopState.views, hnone] at hv
    cases hv

/-- **Everything shown is exact.** In every reachable state, each report that was run has shown the text of its
report for the coins that the three threads have counted, window by window from first to last. -/
theorem shown_exact (c : Clock) (s : State) (log : List Event) (h : Reachable (logStep c) Init (s, log)) :
    ∀ x ∈ s.main.loop.log,
      x.view = x.report.view ⟨log.count (.count .sens1), log.count (.count .sens2), log.count (.count .sens3)⟩ := by
  have hinv : Inv s.ctl log ∧ ShownOk s :=
    h.invariant (P := fun x => Inv x.1.ctl x.2 ∧ ShownOk x.1) (fun _ hx => ⟨.init hx, .init hx⟩)
      fun _ _ _ hx hs => ⟨hx.1.step hs, hx.2.step hx.1 hs⟩
  have hcount := hinv.1.counted
  have hea : s.g.ea = ⟨log.count (.count .sens1), log.count (.count .sens2), log.count (.count .sens3)⟩ := by
    rw [← hcount, ← hcount, ← hcount]
    rfl
  intro x hx
  rw [← hea]
  exact hinv.2.views x.view (List.mem_map_of_mem hx)

end CoinMachine
