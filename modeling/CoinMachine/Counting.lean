import CoinMachine.Phases
/-!
# One sensor thread in the whole program

Seen from thread `n`, a run of the program is a run of that thread with an environment (`solo_run`): `main`
and the other threads never write its counter, and nobody creates it again. What `Sensor` says about a thread
on its own therefore holds in the program, whatever the others do in between (`done_counted`). A coin that the
thread has seen is on its way to the counter or in it (`coins_seen`), also when another thread ends the coin phase
in the meantime. With the phases of `main` this is the phase discipline (`phase_discipline`).
-/

namespace CoinMachine

open Separated Transition

/-- What thread `n` does in a step that ends with the globals `g`. -/
def Action.solo (n : Sens) (g : Globals) : Action → SoloAct
  | .thread n' inp => if n' = n then .self inp else .env g
  | .main _ => .env g

/-- The samples that thread `n` reads in a run. -/
def reads (n : Sens) (as : List Action) : List Byte :=
  as.flatMap fun a => match a with
    | .thread n' inp => if n' = n then inp.sample else []
    | .main _ => []

theorem soloStep_env {n : Sens} {g g' : Globals} (t : Thread) (h : g'.ea.get n = g.ea.get n) :
    soloStep n (g, t) (.env g') = some (g', t) := if_pos h

/-- Another thread counts on its own counter. -/
theorem ThreadEffect.frame {n n' : Sens} {g g' : Globals} {evs : List Event} (h : ThreadEffect n' g g' evs) (hn : n ≠ n') :
    g'.ea.get n = g.ea.get n := by
  cases h with
  | quiet => rfl
  | count => rw [Counters.get_bump, if_neg (Ne.symm hn)]
  | off => rfl

/-- A move of `main` leaves the threads that exist alone. -/
theorem MainMove.frame {x y : Ctl} {evs : List Event} {log : List Event} (h : MainMove x y evs) (hx : Inv x log)
    {n : Sens} {t : Thread} (ht : x.th n = some t) : y.th n = some t := by
  cases h with
  | create n' sens_value key_ev =>
    obtain ⟨k, hk, hth, -⟩ := hx.stage
    have hk' : k = n'.idx := hk
    have hlt : n.idx < k := (hth.exist n).1 (by rw [ht]; rfl)
    -- `main` is about to create `n'`, which does not exist
    have hne : n ≠ n' := by
      rintro rfl
      omega
    exact (Function.update_of_ne hne _ _).trans ht
  | _ => exact ht

/-- A thread that comes into being is at its start. -/
theorem MainMove.born {x y : Ctl} {evs : List Event} (h : MainMove x y evs) {n : Sens} {t : Thread}
    (hn : x.th n = none) (ht : y.th n = some t) : ∃ sens_value key_ev, t = .start sens_value key_ev := by
  cases h with
  | create n' sens_value key_ev =>
    simp only at hn ht
    by_cases hnn : n = n'
    · subst hnn
      rw [Function.update_self, Option.some.injEq] at ht
      exact ⟨sens_value, key_ev, ht.symm⟩
    · rw [Function.update_of_ne hnn, hn] at ht
      cases ht
  | _ => cases hn.symm.trans ht

/-- The step lemma. -/
theorem solo_step {c : Clock} {s s' : State} {log log' : List Event} {a : Action} {n : Sens} {t : Thread}
    (hx : Inv s.ctl log) (h : logStep c (s, log) a = some (s', log')) (ht : s.th n = some t) :
    ∃ t', s'.th n = some t' ∧ soloStep n (s.g, t) (a.solo n s'.g) = some (s'.g, t') := by
  obtain ⟨evs, -, ⟨inp, rfl, hmove⟩ | ⟨n', inp, u, u', rfl, -, hu, hst, hs'⟩⟩ := logStep_cases h
  · have hsame : s'.g.ea.get n = s.g.ea.get n := congrArg (Counters.get n) hmove.ea_eq
    exact ⟨t, hmove.frame hx ht, soloStep_env t hsame⟩
  · by_cases hn : n' = n
    · subst hn
      cases ht.symm.trans hu
      refine ⟨u', by rw [hs']; exact Function.update_self .., ?_⟩
      rw [Action.solo, if_pos rfl, soloStep, hst]
      rfl
    · refine ⟨t, by rw [hs']; exact (Function.update_of_ne (Ne.symm hn) ..).trans ht, ?_⟩
      rw [Action.solo, if_neg hn]
      exact soloStep_env t ((Thread.step_effect hst).1.frame (Ne.symm hn))

/-- A step before thread `n` exists. -/
theorem unborn_step {c : Clock} {s s' : State} {log log' : List Event} {a : Action} {n : Sens}
    (h : logStep c (s, log) a = some (s', log')) (hn : s.th n = none) :
    s'.g.ea.get n = s.g.ea.get n ∧ reads n [a] = [] ∧
      ∀ t, s'.th n = some t → ∃ sens_value key_ev, t = .start sens_value key_ev := by
  obtain ⟨evs, -, ⟨inp, rfl, hmove⟩ | ⟨n', inp, u, u', rfl, -, hu, hst, hs'⟩⟩ := logStep_cases h
  · exact ⟨congrArg (Counters.get n) hmove.ea_eq, rfl, fun t ht => hmove.born hn ht⟩
  · have hne : n ≠ n' := by
      rintro rfl
      cases hn.symm.trans hu
    refine ⟨?_, by simp [reads, hne.symm], fun t ht => ?_⟩
    · exact (Thread.step_effect hst).1.frame hne
    · rw [hs'] at ht
      cases ((Function.update_of_ne hne ..).trans hn).symm.trans ht

/-- The run lemma. -/
theorem solo_run {c : Clock} {n : Sens} {as : List Action} : ∀ {s s' : State} {log log' : List Event} {t : Thread},
    Inv s.ctl log → run (logStep c) (s, log) as = some (s', log') → s.th n = some t →
    ∃ bs t', s'.th n = some t' ∧ run (soloStep n) (s.g, t) bs = some (s'.g, t') ∧ samples bs = reads n as ∧
      ∀ inp, .self inp ∈ bs → .thread n inp ∈ as := by
  induction as with
  | nil =>
    intro s s' log log' t _ h ht
    cases h
    exact ⟨[], t, ht, rfl, rfl, fun _ hm => nomatch hm⟩
  | cons a as ih =>
    intro s s' log log' t hx h ht
    obtain ⟨⟨s₁, log₁⟩, h₁, h₂⟩ := run_cons.1 h
    obtain ⟨t₁, ht₁, hsolo⟩ := solo_step hx h₁ ht
    obtain ⟨bs, t', ht', hrun, hsamples, hself⟩ := ih (hx.step h₁) h₂ ht₁
    refine ⟨a.solo n s₁.g :: bs, t', ht', run_cons.2 ⟨_, hsolo, hrun⟩, ?_, ?_⟩
    · rw [samples, List.flatMap_cons, reads, List.flatMap_cons]
      rw [samples, reads] at hsamples
      rw [hsamples]
      congr 1
      cases a with
      | main inp => rfl
      | thread n' inp => by_cases hn : n' = n <;> simp [Action.solo, SoloAct.sample, hn]
    · intro inp hm
      rcases List.mem_cons.1 hm with heq | hm
      · cases a with
        | main inp' => cases heq
        | thread n' inp' =>
          by_cases hn : n' = n
          · rw [Action.solo, if_pos hn] at heq
            cases heq
            rw [hn]
            exact List.mem_cons_self
          · rw [Action.solo, if_neg hn] at heq
            cases heq
      · exact List.mem_cons_of_mem _ (hself inp hm)

/-- The run of a thread that does not exist yet. -/
theorem born_run {c : Clock} {n : Sens} {as : List Action} : ∀ {s s' : State} {log log' : List Event} {t : Thread},
    Inv s.ctl log → run (logStep c) (s, log) as = some (s', log') → s.th n = none → s'.th n = some t →
    ∃ bs sens_value key_ev, run (soloStep n) (s.g, .start sens_value key_ev) bs = some (s'.g, t) ∧
      samples bs = reads n as ∧ ∀ inp, .self inp ∈ bs → .thread n inp ∈ as := by
  induction as with
  | nil =>
    intro s s' log log' t _ h hn ht
    cases h
    cases hn.symm.trans ht
  | cons a as ih =>
    intro s s' log log' t hx h hn ht
    obtain ⟨⟨s₁, log₁⟩, h₁, h₂⟩ := run_cons.1 h
    obtain ⟨hea, hreads, hborn⟩ := unborn_step h₁ hn
    have hcons : reads n (a :: as) = reads n as := by
      rw [← List.singleton_append, reads, List.flatMap_append, ← reads, hreads]
      rfl
    -- from here on the thread does not exist yet, or it is at its start
    obtain ⟨bs, sens_value, key_ev, hrun, hsamples, hself⟩ : ∃ bs sens_value key_ev,
        run (soloStep n) (s₁.g, .start sens_value key_ev) bs = some (s'.g, t) ∧ samples bs = reads n as ∧
          ∀ inp, .self inp ∈ bs → .thread n inp ∈ as := by
      cases hn₁ : s₁.th n with
      | none => exact ih (hx.step h₁) h₂ hn₁ ht
      | some t₁ =>
        obtain ⟨sens_value, key_ev, rfl⟩ := hborn t₁ hn₁
        obtain ⟨bs, u, hu, hrun, hsamples, hself⟩ := solo_run (hx.step h₁) h₂ hn₁
        cases hu.symm.trans ht
        exact ⟨bs, sens_value, key_ev, hrun, hsamples, hself⟩
    refine ⟨.env s₁.g :: bs, sens_value, key_ev, run_cons.2 ⟨_, soloStep_env _ hea, hrun⟩, ?_, ?_⟩
    · rw [hcons, ← hsamples]
      rfl
    · intro inp hm
      exact List.mem_cons_of_mem _ (hself inp (List.mem_of_ne_of_mem (by simp) hm))

/-- A thread that has left its loop has counted the greatest number of ones pairwise at least seven apart among the
samples that it read since the program started, if its reads succeed. -/
theorem done_counted {c : Clock} {x : State × List Event} {s : State} {log : List Event} {as : List Action} {n : Sens}
    (hx : Init x) (h : run (logStep c) x as = some (s, log)) (hd : (s.th n).map Thread.pc = some .done)
    (hok : ∀ b, .thread n (.read b) ∈ as → b ≠ Option.none) : IsGreatest (sizes 1 7 (reads n as)) (s.g.ea.get n) := by
  obtain ⟨t, ht, hpc⟩ := Option.map_eq_some_iff.1 hd
  obtain ⟨bs, sens_value, key_ev, hrun, hsamples, hself⟩ := born_run (Inv.init hx) h (hx.th n) ht
  have hzero : x.1.g.ea.get n = 0 := by
    rw [hx.g]
    cases n <;> rfl
  have hinv : CountInv 0 (x.1.g.ea.get n) (scan (1 : Byte) 7 []) (.start sens_value key_ev) := ⟨rfl, rfl, hzero⟩
  have hreads : ∀ inp, SoloAct.self inp ∈ bs → inp.ok := by
    intro inp hm
    cases inp with
    | read b => exact Option.isSome_iff_ne_none.2 (hok b (hself _ hm))
    | _ => trivial
  have hend := hinv.run hrun hreads
  simp only [CountInv, hpc, List.nil_append, Nat.zero_add] at hend
  rw [hend.2.2, hsamples]
  exact scan_isGreatest 1 (by decide) (reads n as)

/-! ## Coins on their way to the counter -/

/-- The statement is a sampling read, and it leaves a 1 in the sample variable: one that was read, or one of before
where the read fails. -/
def Thread.sees (t : Thread) (inp : Input) : Bool :=
  match t.pc, inp with
  | .readSample, .read b => b.getD t.sens_value = 1
  | _, _ => false

/-- A coin that was seen and is not counted yet. -/
def Thread.inFlight (t : Thread) : Nat :=
  match t.pc with
  | .poll | .testHit => if t.sens_value = 1 then 1 else 0
  | .setFir | .count => 1
  | _ => 0

/-- The step lemma of a thread. -/
theorem Thread.step_seen {n : Sens} {g g' : Globals} {t t' : Thread} {inp : Input} {evs : List Event} (hfir : FirOk t)
    (h : t.step n g inp = some (g', t', evs)) :
    g'.ea.get n + t'.inFlight = g.ea.get n + t.inFlight + (if t.sees inp then 1 else 0) := by
  obtain ⟨pc, sens_fd, sens_value, fir, sed, j, key_ev⟩ := t
  cases pc with
  | readSample =>
    cases inp with
    | read b =>
      simp only [Thread.step] at h
      split at h <;> cases h
      simp [Thread.inFlight, Thread.sees]
    | _ => cases h
  | testHit =>
    cases inp with
    | none =>
      cases h
      -- `fir` is 0 here, so a 1 in the sample variable is a hit
      obtain rfl : fir = 0 := hfir.resolve_right fun hc => Bool.noConfusion hc.2
      by_cases hv : sens_value = 1
      · subst hv
        rfl
      · simp only [Thread.inFlight, Thread.sees, hv, false_and, if_false]
        rfl
    | _ => cases h
  | count =>
    cases inp with
    | none =>
      cases h
      simp [Thread.inFlight, Thread.sees, Counters.get_bump]
    | _ => cases h
  | _ =>
    cases inp <;> first
      | (cases h; done)
      | (cases h; rfl)
      | (simp only [Thread.step] at h; split at h <;> cases h <;> rfl)

/-- The action is a sampling read of thread `n` that finds a coin. -/
def State.sees (s : State) (n : Sens) : Action → Bool
  | .thread n' inp => n' = n && (s.th n).any fun t => t.sees inp
  | .main _ => false

def State.inFlight (s : State) (n : Sens) : Nat := ((s.th n).map Thread.inFlight).getD 0

/-- The coins that thread `n` sees in a run. -/
def coinsSeen (c : Clock) (n : Sens) (x : State × List Event) : List Action → Nat
  | [] => 0
  | a :: as => (if x.1.sees n a then 1 else 0) + ((logStep c x a).map fun y => coinsSeen c n y as).getD 0

/-- The invariant of a program with its threads outside the dead time. -/
structure Fine (x : State × List Event) : Prop where
  inv : Inv x.1.ctl x.2
  firOk : ∀ n t, x.1.th n = some t → FirOk t

theorem Fine.init {x : State × List Event} (hx : Init x) : Fine x := by
  refine ⟨Inv.init hx, fun n t ht => ?_⟩
  rw [hx.th] at ht
  cases ht

/-- `fir` is back at 0 outside the dead time, in every thread of a program. -/
theorem Fine.step {c : Clock} {x y : State × List Event} {a : Action} (hx : Fine x) (h : logStep c x a = some y) :
    Fine y := by
  obtain ⟨s, log⟩ := x
  obtain ⟨s', log'⟩ := y
  refine ⟨hx.inv.step h, fun n t' ht' => ?_⟩
  cases ht : s.th n with
  | some t =>
    obtain ⟨u, hu, hsolo⟩ := solo_step hx.inv h ht
    cases hu.symm.trans ht'
    exact FirOk.solo (hx.firOk n t ht) hsolo
  | none =>
    obtain ⟨sens_value, key_ev, rfl⟩ := (unborn_step h ht).2.2 t' ht'
    exact Or.inl rfl

/-- The step lemma. -/
theorem Fine.step_seen {c : Clock} {s s' : State} {log log' : List Event} {a : Action} (hx : Fine (s, log))
    (h : logStep c (s, log) a = some (s', log')) (n : Sens) :
    s'.g.ea.get n + s'.inFlight n = s.g.ea.get n + s.inFlight n + (if s.sees n a then 1 else 0) := by
  cases ht : s.th n with
  | none =>
    obtain ⟨hea, -, hborn⟩ := unborn_step h ht
    have hsees : s.sees n a = false := by
      cases a <;> simp [State.sees, ht]
    have hflight : s'.inFlight n = 0 := by
      cases ht' : s'.th n with
      | none => simp [State.inFlight, ht']
      | some t' =>
        obtain ⟨sens_value, key_ev, rfl⟩ := hborn t' ht'
        simp [State.inFlight, ht', Thread.inFlight, Thread.start]
    rw [hea, hflight, hsees]
    simp [State.inFlight, ht]
  | some t =>
    obtain ⟨t', ht', hsolo⟩ := solo_step hx.inv h ht
    simp only [State.inFlight, ht, ht', Option.map_some, Option.getD_some]
    by_cases ha : ∃ inp, a = .thread n inp
    · obtain ⟨inp, rfl⟩ := ha
      rw [Action.solo, if_pos rfl] at hsolo
      obtain ⟨⟨g', u, evs⟩, hst, heq⟩ := Option.map_eq_some_iff.1 hsolo
      cases heq
      rw [Thread.step_seen (hx.firOk n t ht) hst]
      simp [State.sees, ht]
    · have henv : a.solo n s'.g = .env s'.g ∧ s.sees n a = false := by
        cases a with
        | main inp => exact ⟨rfl, rfl⟩
        | thread n' inp =>
          have hne : n' ≠ n := by
            rintro rfl
            exact ha ⟨inp, rfl⟩
          exact ⟨if_neg hne, by simp [State.sees, hne]⟩
      rw [henv.1, soloStep] at hsolo
      split at hsolo
      · rename_i hea
        cases hsolo
        rw [henv.2, hea]
        rfl
      · cases hsolo

/-- The run lemma: the coins seen are those counted, and those whose thread is just before the count. -/
theorem Fine.seen {c : Clock} {as : List Action} (n : Sens) : ∀ {x y : State × List Event}, Fine x →
    run (logStep c) x as = some y →
    y.1.g.ea.get n + y.1.inFlight n = x.1.g.ea.get n + x.1.inFlight n + coinsSeen c n x as := by
  induction as with
  | nil =>
    intro x y _ h
    cases h
    rfl
  | cons a as ih =>
    intro x y hx h
    obtain ⟨u, hu, h⟩ := run_cons.1 h
    have hstep := hx.step_seen hu n
    rw [ih (hx.step hu) h, hstep, coinsSeen, hu, Option.map_some, Option.getD_some, Nat.add_assoc]

/-- **No coin is lost.** -/
theorem coins_seen {c : Clock} {x : State × List Event} {s : State} {log : List Event} {as : List Action} (hx : Init x)
    (h : run (logStep c) x as = some (s, log)) (n : Sens) : s.g.ea.get n + s.inFlight n = coinsSeen c n x as := by
  have hseen := (Fine.init hx).seen n h
  have hzero : x.1.g.ea.get n = 0 ∧ x.1.inFlight n = 0 := by
    rw [hx.g, State.inFlight, hx.th]
    cases n <;> exact ⟨rfl, rfl⟩
  rw [hseen, hzero.1, hzero.2, Nat.zero_add]

theorem inFlight_done {s : State} {n : Sens} (hd : (s.th n).map Thread.pc = some .done) : s.inFlight n = 0 := by
  obtain ⟨t, ht, hpc⟩ := Option.map_eq_some_iff.1 hd
  simp [State.inFlight, ht, Thread.inFlight, hpc]

/-! ## The phases -/

/-- **The phases over every interleaving** (`:88-180`, `:573-680`). In every reachable state: `mac_state` only
moves from 0 to 1 by `main` and from 1 to 2 by a thread; no thread is created twice; from the dot check on
each was created once and is done, and the counters never change again; each counter is the number of
increments of its own thread; the motor is turned on only after the start and before `main` has joined a
thread; and what was last written to it is off before a ready key is served, and not on before an exit.
No coin is lost: from the dot check on each counter is the number of coins that its thread has seen since the
program started, whoever ended the coin phase in the meantime, and, where its reads have succeeded, the
greatest number of ones pairwise at least seven apart among the samples that they returned. -/
theorem phase_discipline (c : Clock) (s : State) (log : List Event) (h : Reachable (logStep c) Init (s, log)) :
    (∀ a s' log', logStep c (s, log) a = some (s', log') → s'.g.mac_state = s.g.mac_state ∨
      (s.g.mac_state = 0 ∧ s'.g.mac_state = 1 ∧ ∃ inp, a = .main inp) ∨
      (s.g.mac_state = 1 ∧ s'.g.mac_state = 2 ∧ ∃ n inp, a = .thread n inp)) ∧
    (∀ n, log.count (.create n) ≤ 1) ∧
    (s.main.pc.region = .reporting → (∀ n, log.count (.create n) = 1 ∧ (s.th n).map Thread.pc = some .done) ∧
      (∀ as s' log', run (logStep c) (s, log) as = some (s', log') → s'.g.ea = s.g.ea) ∧
      ∀ x₀ as, Init x₀ → run (logStep c) x₀ as = some (s, log) → ∀ n, s.g.ea.get n = coinsSeen c n x₀ as ∧
        ((∀ b, .thread n (.read b) ∈ as → b ≠ none) → IsGreatest (sizes 1 7 (reads n as)) (s.g.ea.get n))) ∧
    (∀ n, s.g.ea.get n = log.count (.count n)) ∧
    (∀ pre post, log = pre ++ .motor 1 :: post → .macState 1 ∈ pre ∧ ∀ n, .join n ∉ pre) ∧
    (∀ pre k post, log = pre ++ .serve k :: post → lastMotor pre = some 0) ∧
    (∀ pre post, log = pre ++ .exit :: post → lastMotor pre ≠ some 1) := by
  have hx : Inv s.ctl log := reachable_inv h
  obtain ⟨k, -, hth, -⟩ := hx.stage
  refine ⟨fun _ _ _ => mac_state_moves hx, ?_, ?_, hx.counted, ?_, ?_, ?_⟩
  · intro n
    rw [hth.created]
    split <;> decide
  · intro hrep
    refine ⟨hx.all_done hrep, fun _ _ _ hr => Settled.run (Or.inl hrep) hx hr, ?_⟩
    intro x₀ as h₀ hr n
    have hd := (hx.all_done hrep n).2
    refine ⟨?_, done_counted h₀ hr hd⟩
    rw [← coins_seen h₀ hr n, inFlight_done hd, Nat.add_zero]
  · intro pre post heq
    exact hx.good pre _ post heq rfl
  · intro pre k post heq
    exact (hx.good pre _ post heq).1
  · intro pre post heq
    exact hx.good pre _ post heq

/-- The motor is turned on after `mac_state` became 2. -/
theorem motor_on_after_end : ¬ ∀ c s log, Reachable (logStep c) Init (s, log) →
    ∀ pre post, log = pre ++ .motor 1 :: post → .macState 1 ∈ pre ∧ .macState 2 ∉ pre := by
  intro hclaim
  have hrun : ∃ s, run (logStep .ticks) (State.boot, [])
      (bootActions ++ endActions ++ [.main .none]) = some (s, [.poll .wait .key true, .macState 1, .create .sens1,
        .create .sens2, .create .sens3, .poll (.thread .sens1) .key2 true, .macState 2, .motor 1]) := ⟨_, rfl⟩
  obtain ⟨s, hrun⟩ := hrun
  have h := (hclaim _ s _ ⟨_, _, boot_init, hrun⟩ [.poll .wait .key true, .macState 1, .create .sens1,
    .create .sens2, .create .sens3, .poll (.thread .sens1) .key2 true, .macState 2] [] rfl).2
  simp at h

/-- The second sensor thread is past its loop test when the first one ends the coin phase, and then sees a coin. -/
def overlapActions : List Action :=
  [.thread .sens2 (.opened 7), .thread .sens2 .none, .thread .sens2 .none, .thread .sens2 .none] ++ endActions ++
  [.thread .sens2 (.read (some 1)), .thread .sens2 (.polled (.events fun _ => false)), .thread .sens2 .none,
    .thread .sens2 .none, .thread .sens2 .none, .thread .sens2 .none, .thread .sens2 .none] ++
  (List.replicate 6 [.thread .sens2 .none, .thread .sens2 (.read (some 0)), .thread .sens2 .none]).flatten ++
  [.thread .sens2 .none, .thread .sens2 .none, .thread .sens2 .none, .thread .sens2 .none, .thread .sens1 .none,
    .thread .sens3 (.opened 8), .thread .sens3 .none] ++
  List.replicate 8 (.main .none)

/-- The coin is counted, and there is one in the samples. -/
theorem phase_discipline_overlap : ∃ s log, Reachable (logStep .ticks) Init (s, log) ∧ s.main.pc.region = .reporting ∧
    s.g.ea.get .sens2 = coinsSeen .ticks .sens2 (State.boot, []) (bootActions ++ overlapActions) ∧
    s.g.ea.get .sens2 = 1 ∧ IsGreatest (sizes 1 7 (reads .sens2 (bootActions ++ overlapActions))) 1 := by
  have hrun : ∃ s log, run (logStep .ticks) (State.boot, []) (bootActions ++ overlapActions) = some (s, log) ∧
      s.main.pc.region = .reporting ∧ s.g.ea.get .sens2 = 1 := ⟨_, _, rfl, rfl, rfl⟩
  obtain ⟨s, log, hrun, hrep, hone⟩ := hrun
  have hreach : Reachable (logStep .ticks) Init (s, log) := ⟨_, _, boot_init, hrun⟩
  obtain ⟨-, -, hreport, -⟩ := phase_discipline .ticks s log hreach
  obtain ⟨hseen, hgreatest⟩ := (hreport hrep).2.2 _ _ boot_init hrun .sens2
  refine ⟨s, log, hreach, hrep, hseen, hone, hone ▸ hgreatest ?_⟩
  simp [bootActions, openActions, startActions, overlapActions, endActions]

end CoinMachine
