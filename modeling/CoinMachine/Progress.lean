import CoinMachine.Lib.Inevitable
import CoinMachine.Phases
/-!
# The coin phase comes to its end

Nothing in `receive/test_mac.c` but a `pthread_join` makes a statement wait for another thread, and it waits
for a thread that has statements to run (`stops_iff`). A thread that is not at the head of its loop gets
there, or to its end, whatever its reads and polls answer: `Thread.rank` counts the statements that are left.
Once `mac_state` is 2 the heads of the three loops let nobody in again, so that every schedule leads `main` to
its report loop (`coin_phase_ends`).

| here | there |
| --- | --- |
| `Thread.rank`  | the rest of an iteration (`:586-606`, `:622-642`, `:659-679`) |
| `MainPc.rank`  | the rest of the create/join loop and what follows it (`:120-139`) |
-/

namespace CoinMachine

open Transition

/-! ## Nobody waits but a join -/

/-- A thread that is not done has a next statement, and it is never refused. -/
theorem Thread.step_enabled (n : Sens) (g : Globals) {t : Thread} (h : t.pc ≠ .done) :
    ∃ inp r, t.step n g inp = some r := by
  obtain ⟨pc, sens_fd, sens_value, fir, sed, j, key_ev⟩ := t
  cases pc
  case openSens => exact ⟨.opened 0, _, rfl⟩
  case readSample | readDiscard =>
    refine ⟨.read none, ?_⟩
    simp [Thread.step, readable]
  case poll => exact ⟨.polled .error, _, rfl⟩
  case done => exact absurd rfl h
  all_goals exact ⟨.none, _, rfl⟩

/-- What the next statement of `main` can wait for. -/
inductive MainWaits (c : Clock) (s : State) : Prop where
  /-- `main` has returned -/
  | exited (h : s.main.pc = .exited)
  /-- a `pthread_join` on a thread that still runs -/
  | join (n : Sens) (h : s.main.pc = .join n) (running : (s.th n).map Thread.pc ≠ some .done)
  /-- the branch of a report that is undefined -/
  | undefined (r : Report) (h : s.main.pc = .branch r) (none : r.serve c { s.main.loop with ea := s.g.ea } = none)

theorem mainStep_enabled (c : Clock) (s : State) (h : ¬ MainWaits c s) : ∃ inp r, mainStep c s inp = some r := by
  obtain ⟨g, ⟨pc, key_fd, key1_ret, key2_ret, key_ev, key2_ev, mot_fd, dot_fd, mot_data, loop⟩, th⟩ := s
  cases pc
  case openKey k => exact ⟨.opened 0, _, rfl⟩
  case waitPoll => exact ⟨.polled .error, _, rfl⟩
  case openMot => exact ⟨.opened 0, _, rfl⟩
  case openDot => exact ⟨.opened 0, _, rfl⟩
  case create n => exact ⟨.created 0 ⟨.key, false, false⟩, _, rfl⟩
  case join n =>
    have hdone : (th n).map Thread.pc = some .done := by
      by_contra hrun
      exact h (.join n rfl hrun)
    exact ⟨.none, _, if_pos hdone⟩
  case reportPoll => exact ⟨.polled .error, _, rfl⟩
  case branch r =>
    cases hserve : r.serve c { loop with ea := g.ea } with
    | none => exact absurd (.undefined r rfl hserve) h
    | some t =>
      refine ⟨.none, ?_⟩
      simp [mainStep, hserve]
  case exited => exact absurd (.exited rfl) h
  all_goals exact ⟨.none, _, rfl⟩

theorem logStep_main {c : Clock} {s : State} {inp : Input} {r : State × List Event} (h : mainStep c s inp = some r)
    (log : List Event) : logStep c (s, log) (.main inp) = some (r.1, log ++ r.2) := by
  simp only [logStep, step, h, Option.map_some]

theorem logStep_thread {c : Clock} {s : State} {n : Sens} {t : Thread} {inp : Input} {r : Globals × Thread × List Event}
    (hpc : s.main.pc ≠ .exited) (ht : s.th n = some t) (h : t.step n s.g inp = some r) (log : List Event) :
    logStep c (s, log) (.thread n inp) =
      some ({ s with g := r.1, th := Function.update s.th n (some r.2.1) }, log ++ r.2.2) := by
  simp [logStep, step, hpc, ht, h]

/-- What keeps the program from ever going on: it is over, or it is in the branch of an undefined report. -/
def Halted (c : Clock) (s : State) : Prop :=
  s.main.pc = .exited ∨ ∃ r, s.main.pc = .branch r ∧ r.serve c { s.main.loop with ea := s.g.ea } = none

/-- The thread that a join waits for exists. -/
theorem Inv.joining_exists {s : State} {log : List Event} (hx : Inv s.ctl log) {n : Sens} (hpc : s.main.pc = .join n) :
    ∃ t, s.th n = some t := by
  obtain ⟨k, hk, hth, -⟩ := hx.stage
  simp only [State.ctl, hpc, MainPc.region, Region.Stage] at hk hth
  have hlt := n.idx_lt
  exact Option.isSome_iff_exists.1 ((hth.exist n).2 (by omega))

theorem Inv.live {c : Clock} {s : State} {log : List Event} (hx : Inv s.ctl log) (h : ¬ Halted c s) :
    ∃ a x, logStep c (s, log) a = some x := by
  by_cases hwait : MainWaits c s
  · cases hwait with
    | exited hpc => exact absurd (Or.inl hpc) h
    | undefined r hpc hnone => exact absurd (Or.inr ⟨r, hpc, hnone⟩) h
    | join n hpc hrun =>
      -- the thread that is waited for can go on
      obtain ⟨t, ht⟩ := hx.joining_exists hpc
      have hnd : t.pc ≠ .done := by
        intro hd
        rw [ht, Option.map_some, hd] at hrun
        exact hrun rfl
      obtain ⟨inp, r, hr⟩ := t.step_enabled n s.g hnd
      exact ⟨.thread n inp, _, logStep_thread (by rw [hpc]; exact MainPc.noConfusion) ht hr log⟩
  · obtain ⟨inp, r, hr⟩ := mainStep_enabled c s hwait
    exact ⟨.main inp, _, logStep_main hr log⟩

/-! ## The rest of an iteration -/

/-- The statements that a thread has left until it is at the head of its loop again and finds the phase over. -/
def Thread.rank (t : Thread) : Nat :=
  match t.pc with
  | .done => 0
  | .loopTest => 1
  | .openSens => 2
  | .setState => 2
  | .testKey => 3
  | .clearFir => 4
  | .forTest => 5 + 3 * (6 - t.j)
  | .forInc => 6 + 3 * (5 - t.j)
  | .readDiscard => 7 + 3 * (5 - t.j)
  | .forInit => 24
  | .testFir => 25
  | .count => 26
  | .setFir => 27
  | .testHit => 28
  | .poll => 29
  | .readSample => 30
  | .setEvents => 31
  | .setFd => 32

theorem Thread.rank_le (t : Thread) : t.rank ≤ 32 := by
  unfold Thread.rank
  split <;> omega

/-- Every statement lowers the rank, but the one that enters the loop. -/
theorem Thread.step_rank {n : Sens} {g g' : Globals} {t t' : Thread} {inp : Input} {evs : List Event}
    (h : t.step n g inp = some (g', t', evs)) (hloop : t.pc = .loopTest → g.mac_state ≠ 1) : t'.rank < t.rank := by
  unfold Thread.step at h
  split at h
  case h_2 hpc =>
    cases h
    simp [Thread.rank, hpc, hloop hpc]
  case h_5 hpc | h_13 hpc =>
    split at h <;> cases h
    simp [Thread.rank, hpc]
  case h_7 hpc | h_10 hpc | h_16 hpc =>
    cases h
    simp only [Thread.rank, hpc]
    split <;> rename_i heq <;> split at heq <;> simp_all
  case h_12 hpc =>
    cases h
    by_cases hj : t.j < 6
    · simp only [Thread.rank, hpc, if_pos hj]
      omega
    · simp only [Thread.rank, hpc, if_neg hj]
      omega
  case h_14 hpc =>
    cases h
    simp only [Thread.rank, hpc]
    omega
  case h_18 => cases h
  all_goals
    cases h
    simp [Thread.rank, ‹t.pc = _›]

/-! ## The rest of the coin phase -/

/-- The statements that `main` has left until the dot check, once the phase is over. -/
def MainPc.rank : MainPc → Nat
  | .create n => 11 - n.idx
  | .motorOn => 8
  | .blankDot => 7
  | .join n => 6 - n.idx
  | .coinTest => 3
  | .setOff => 2
  | .motorOff => 1
  | _ => 0

/-- A thread that does not exist yet has one statement more to go than a new one. -/
def threadRank (t : Option Thread) : Nat := t.elim 3 Thread.rank

def State.rank (s : State) : Nat :=
  s.main.pc.rank + (threadRank (s.th .sens1) + threadRank (s.th .sens2) + threadRank (s.th .sens3))

theorem threadRank_le (t : Option Thread) : threadRank t ≤ 32 := by
  cases t with
  | none => simp [threadRank]
  | some t => exact t.rank_le

theorem State.rank_le (s : State) : s.rank ≤ 107 := by
  have h1 := threadRank_le (s.th .sens1)
  have h2 := threadRank_le (s.th .sens2)
  have h3 := threadRank_le (s.th .sens3)
  have hpc : s.main.pc.rank ≤ 11 := by
    unfold MainPc.rank
    split <;> omega
  unfold State.rank
  omega

/-- The ranks of the threads after one of them has changed. -/
theorem threadRank_update (th : Sens → Option Thread) (n : Sens) (t : Option Thread) :
    threadRank (Function.update th n t .sens1) + threadRank (Function.update th n t .sens2) +
      threadRank (Function.update th n t .sens3) + threadRank (th n) =
    threadRank (th .sens1) + threadRank (th .sens2) + threadRank (th .sens3) + threadRank t := by
  cases n <;> simp [Function.update] <;> omega

/-- Between the end of the coin phase and the dot check `main` is in the create/join loop or right behind it. -/
theorem Inv.rank_pos {s : State} {log : List Event} (hx : Inv s.ctl log) (hm : s.g.mac_state = 2) (hset : ¬ Settled s) :
    0 < s.main.pc.rank := by
  obtain ⟨k, hk, -, hk0⟩ := hx.stage
  have hne : k ≠ 0 := fun h0 => hk0 h0 hm
  simp only [State.ctl] at hk
  unfold Settled at hset
  revert hk hset
  cases s.main.pc with
  | create n => intros; have := n.idx_lt; simp only [MainPc.rank]; omega
  | join n => intros; have := n.idx_lt; simp only [MainPc.rank]; omega
  | _ => simp_all [MainPc.region, Region.Stage, MainPc.rank]

/-- A statement of `main` on its way to the dot check. -/
theorem mainStep_rank {c : Clock} {s s' : State} {inp : Input} {evs : List Event}
    (h : mainStep c s inp = some (s', evs)) (hm : s.g.mac_state = 2) (hpc : 0 < s.main.pc.rank) :
    s'.main.pc.rank < s.main.pc.rank ∧
      (s'.th = s.th ∨ ∃ n sens_value key_ev, s.main.pc = .create n ∧
        s'.th = Function.update s.th n (some (.start sens_value key_ev))) := by
  obtain ⟨⟨mac_state, ea⟩, ⟨pc, key_fd, key1_ret, key2_ret, key_ev, key2_ev, mot_fd, dot_fd, mot_data, loop⟩, th⟩ := s
  obtain rfl : mac_state = 2 := hm
  cases pc <;> cases inp <;> simp only [mainStep, reduceCtorEq] at h
  case create.created n sens_value key_ev =>
    cases h
    refine ⟨?_, Or.inr ⟨n, sens_value, key_ev, rfl, rfl⟩⟩
    cases n <;> simp [State.goto, MainPc.afterCreate, MainPc.rank, Sens.idx]
  case join.none n =>
    split at h <;> cases h
    refine ⟨?_, Or.inl rfl⟩
    cases n <;> simp [State.goto, MainPc.afterJoin, MainPc.rank, Sens.idx]
  case coinTest.none =>
    cases h
    simp [State.goto, MainPc.rank]
  case motorOn.none | blankDot.none | setOff.none | motorOff.none =>
    cases h
    exact ⟨by simp [State.goto, MainPc.rank, Sens.idx], Or.inl rfl⟩
  all_goals exact absurd hpc (Nat.lt_irrefl 0)

/-- Every step before the dot check lowers the rank. -/
theorem State.step_rank {c : Clock} {s s' : State} {log log' : List Event} {a : Action} (hx : Inv s.ctl log)
    (hm : s.g.mac_state = 2) (hset : ¬ Settled s) (h : logStep c (s, log) a = some (s', log')) : s'.rank < s.rank := by
  obtain ⟨evs, hstep, -⟩ := logStep_step h
  cases a with
  | main inp =>
    obtain ⟨hlt, hth | ⟨n, sens_value, key_ev, hpc, hth⟩⟩ := mainStep_rank hstep hm (hx.rank_pos hm hset)
    · unfold State.rank
      rw [hth]
      omega
    · -- the new thread was not there before
      obtain ⟨k, hk, hths, -⟩ := hx.stage
      simp only [State.ctl, hpc, MainPc.region, Region.Stage] at hk hths
      have hnone : s.th n = none := by
        rw [← Option.not_isSome_iff_eq_none, hths.exist]
        omega
      have hsum := threadRank_update s.th n (some (.start sens_value key_ev))
      have hstart : threadRank (some (.start sens_value key_ev)) = 2 := rfl
      rw [hnone, hstart] at hsum
      simp only [threadRank, Option.elim_none] at hsum
      unfold State.rank
      rw [hth]
      simp only [threadRank] at hsum ⊢
      omega
  | thread n inp =>
    obtain ⟨t, t', -, ht, hst, hs'⟩ := step_thread hstep
    have hlt : t'.rank < t.rank := Thread.step_rank hst fun _ => by rw [hm]; decide
    have hsum := threadRank_update s.th n (some t')
    have hpc : s'.main = s.main := by rw [hs']
    have hth : s'.th = Function.update s.th n (some t') := by rw [hs']
    rw [ht] at hsum
    simp only [threadRank, Option.elim_some] at hsum
    unfold State.rank
    rw [hpc, hth]
    simp only [threadRank] at hsum ⊢
    omega

/-! ## Every run -/

/-- **The program never deadlocks.** In every reachable state, nobody can take a step exactly if `main` has returned
or is in the branch of a report that is undefined. -/
theorem stops_iff (c : Clock) (s : State) (log : List Event) (h : Reachable (logStep c) Init (s, log)) :
    (∀ a, logStep c (s, log) a = none) ↔ Halted c s := by
  have hx : Inv s.ctl log := reachable_inv h
  constructor
  · intro hnone
    by_contra hgo
    obtain ⟨a, x, ha⟩ := hx.live hgo
    rw [hnone a] at ha
    cases ha
  · intro hhalt a
    refine Option.eq_none_iff_forall_not_mem.2 fun x hstep => ?_
    obtain ⟨s', log'⟩ := x
    obtain ⟨evs, hs, -⟩ := logStep_step hstep
    cases a with
    | main inp =>
      rcases hhalt with hpc | ⟨r, hpc, hnone⟩
      · cases inp <;> simp [step, mainStep, hpc] at hs
      · cases inp <;> simp [step, mainStep, hpc, hnone] at hs
    | thread n inp =>
      -- in a branch and after the end no thread is left
      refine (step_thread_unsettled hx hs).2 ?_
      rcases hhalt with hpc | ⟨r, hpc, -⟩
      · exact Or.inr (by rw [hpc]; rfl)
      · exact Or.inl (by rw [hpc]; rfl)

/-- Key 2 ends the coin phase, and the report loop finds key 1. -/
def offActions : List Action :=
  bootActions ++ endActions ++ leaveActions ++ List.replicate 18 (.main .none) ++
  [.main (.polled (.events fun k => k = .key))] ++ List.replicate 3 (.main .none)

/-- Switched off, the program takes no step. -/
theorem stops_iff_off : ∃ c s log, Reachable (logStep c) Init (s, log) ∧ s.main.pc = .exited ∧
    ∀ a, logStep c (s, log) a = none := by
  obtain ⟨s, log, hrun, hpc⟩ : ∃ s log, run (logStep .ticks)
      (State.boot, []) offActions = some (s, log) ∧ s.main.pc = .exited := ⟨_, _, rfl, rfl⟩
  have hreach : Reachable (logStep .ticks) Init (s, log) :=
    ⟨_, _, boot_init, hrun⟩
  exact ⟨_, s, log, hreach, hpc, (stops_iff _ s log hreach).2 (Or.inl hpc)⟩

theorem not_halted_of_unsettled {c : Clock} {s : State} (h : ¬ Settled s) : ¬ Halted c s := by
  rintro (hpc | ⟨r, hpc, -⟩)
  · exact h (Or.inr (by rw [hpc]; rfl))
  · exact h (Or.inl (by rw [hpc]; rfl))

/-- `mac_state` stays 2. -/
theorem Inv.over {c : Clock} {s s' : State} {log log' : List Event} {a : Action} (hx : Inv s.ctl log)
    (hm : s.g.mac_state = 2) (h : logStep c (s, log) a = some (s', log')) : s'.g.mac_state = 2 := by
  rcases mac_state_moves hx h with heq | ⟨h0, -⟩ | ⟨h1, -⟩ <;> omega

/-- Every thread is done, and the motor is not running. -/
def AtRest (x : State × List Event) : Prop := Settled x.1 ∧ lastMotor x.2 ≠ some 1

theorem Inv.atRest {x : State × List Event} (hx : Inv x.1.ctl x.2) (h : Settled x.1) : AtRest x := by
  refine ⟨h, ?_⟩
  have hmotor := hx.motor
  simp only [State.ctl] at hmotor
  rcases h with hrep | hexit
  · rw [hrep] at hmotor
    rw [show lastMotor x.2 = some 0 from hmotor]
    decide
  · rwa [hexit] at hmotor

/-- **The coin phase comes to its end** (`:120-141`, `:586-606`). From every reachable state with `mac_state = 2`
every schedule of `main` and the three threads, whatever the reads and polls answer, leads to the dot check with
the motor switched off, after at most 107 statements, and gets stuck nowhere before. -/
theorem coin_phase_ends (c : Clock) (s : State) (log : List Event) (h : Reachable (logStep c) Init (s, log))
    (hm : s.g.mac_state = 2) : Within (logStep c) AtRest 107 (s, log) := by
  have hunsettled : ∀ x : State × List Event, Inv x.1.ctl x.2 → ¬ AtRest x → ¬ Settled x.1 :=
    fun x hx hrest hset => hrest (hx.atRest hset)
  refine within_of_rank (I := fun x => Inv x.1.ctl x.2 ∧ x.1.g.mac_state = 2) (fun x => x.1.rank) ?_ ?_ 107
    ⟨reachable_inv h, hm⟩ s.rank_le
  · intro x hx hrest
    exact hx.1.live (not_halted_of_unsettled (hunsettled x hx.1 hrest))
  · rintro x a x' ⟨hx, hm⟩ hrest hstep
    exact ⟨⟨hx.step hstep, hx.over hm hstep⟩, State.step_rank hx hm (hunsettled x hx hrest) hstep⟩

/-- The first thread has ended the phase before `main` has turned the motor on. -/
theorem coin_phase_ends_race : ∃ c s log, Reachable (logStep c) Init (s, log) ∧ s.g.mac_state = 2 ∧
    s.main.pc = .motorOn ∧ Within (logStep c) AtRest 107 (s, log) := by
  obtain ⟨s, log, hrun, hm, hpc⟩ : ∃ s log, run (logStep .ticks) (State.boot, [])
      (bootActions ++ endActions) = some (s, log) ∧ s.g.mac_state = 2 ∧ s.main.pc = .motorOn := ⟨_, _, rfl, rfl, rfl⟩
  have hreach : Reachable (logStep .ticks) Init (s, log) :=
    ⟨_, _, boot_init, hrun⟩
  exact ⟨_, s, log, hreach, hm, hpc, coin_phase_ends _ s log hreach hm⟩

end CoinMachine
