import CoinMachine.Machine
/-!
# The phases of the coin machine over every interleaving

The control skeleton of `main` (`Ctl`, `MainMove`) forgets its locals and merges the statements between
which nothing happens that other threads or the motor could notice. Every statement of `main` is a move of
the skeleton (`mainStep_move`), every statement of a sensor thread has one of three effects
(`Thread.step_effect`), and the invariant `Inv` is proved on the skeleton: it counts how many threads
exist and how many were joined (`Threads`), and relates that to `mac_state` and to the motor.
-/

namespace CoinMachine

open Transition EventLog

/-! ## The skeleton -/

inductive Region where
  /-- opening the keys, and inside the loop that waits for key 1 -/
  | starting
  /-- at the head of the waiting loop -/
  | waiting
  | opening
  /-- at the head of the create/join loop -/
  | testing
  | creating (n : Sens)
  | running
  | joining (n : Sens)
  | stopping
  | stopped
  /-- from the dot check on: the report loop and the closing of the keys -/
  | reporting
  | exited
deriving DecidableEq

def MainPc.region : MainPc → Region
  | .openKey _ | .testKey | .testKeys | .waitFd | .waitEvents | .waitPoll | .waitError | .waitReady
  | .setStart => .starting
  | .waitTest => .waiting
  | .openMot | .openDot | .clearDot => .opening
  | .coinTest => .testing
  | .create n => .creating n
  | .motorOn => .running
  | .blankDot => .joining .sens1
  | .join n => .joining n
  | .setOff => .stopping
  | .motorOff => .stopped
  | .testDot | .reportTest | .fillFd _ | .fillEvents _ | .reportPoll | .reportError | .testOff | .testReport _
  | .branch _ | .closeKeys => .reporting
  | .exited => .exited

structure Ctl where
  region : Region
  g : Globals
  th : Sens → Option Thread
  mot_data : Byte

def State.ctl (s : State) : Ctl := ⟨s.main.pc.region, s.g, s.th, s.main.mot_data⟩

/-- A poll event. -/
def Event.IsPoll (e : Event) : Prop := ∃ who k ready, e = .poll who k ready

def Region.afterCreate : Sens → Region
  | .sens1 => .creating .sens2
  | .sens2 => .creating .sens3
  | .sens3 => .running

def Region.afterJoin : Sens → Region
  | .sens1 => .joining .sens2
  | .sens2 => .joining .sens3
  | .sens3 => .testing

/-- The moves of `main`. -/
inductive MainMove : Ctl → Ctl → List Event → Prop where
  | quiet {x} (evs : List Event) (h : ∀ e ∈ evs, e.IsPoll) : MainMove x x evs
  | toWait {g th d} : MainMove ⟨.starting, g, th, d⟩ ⟨.waiting, g, th, d⟩ []
  | stay {g th d} (h : g.mac_state = 0) : MainMove ⟨.waiting, g, th, d⟩ ⟨.starting, g, th, d⟩ []
  | goOn {g th d} (h : g.mac_state ≠ 0) : MainMove ⟨.waiting, g, th, d⟩ ⟨.opening, g, th, d⟩ []
  | start {g th d} : MainMove ⟨.starting, g, th, d⟩ ⟨.waiting, { g with mac_state := 1 }, th, d⟩ [.macState 1]
  | giveUp {g th d} : MainMove ⟨.starting, g, th, d⟩ ⟨.exited, g, th, d⟩ [.exit]
  | opened {g th d} : MainMove ⟨.opening, g, th, d⟩ ⟨.testing, g, th, d⟩ []
  | enter {g th d} (h : g.mac_state = 1) : MainMove ⟨.testing, g, th, d⟩ ⟨.creating .sens1, g, th, d⟩ []
  | leave {g th d} (h : g.mac_state ≠ 1) : MainMove ⟨.testing, g, th, d⟩ ⟨.stopping, g, th, d⟩ []
  | create {g th d} (n : Sens) (sens_value : Byte) (key_ev : PollFd) : MainMove ⟨.creating n, g, th, d⟩
      ⟨.afterCreate n, g, Function.update th n (some (.start sens_value key_ev)), d⟩ [.create n]
  | motorOn {g th d} : MainMove ⟨.running, g, th, d⟩ ⟨.joining .sens1, g, th, d⟩ [.motor d]
  | join {g th d} (n : Sens) (h : (th n).map Thread.pc = some .done) :
      MainMove ⟨.joining n, g, th, d⟩ ⟨.afterJoin n, g, th, d⟩ [.join n]
  | setOff {g th d} : MainMove ⟨.stopping, g, th, d⟩ ⟨.stopped, g, th, 0⟩ []
  | motorOff {g th d} : MainMove ⟨.stopped, g, th, d⟩ ⟨.reporting, g, th, d⟩ [.motor d]
  | serve {g th d} (k : Key) : MainMove ⟨.reporting, g, th, d⟩ ⟨.reporting, g, th, d⟩ [.serve k]
  | exit {g th d} : MainMove ⟨.reporting, g, th, d⟩ ⟨.exited, g, th, d⟩ [.exit]

theorem pollEvents_isPoll (who : Poller) (entries : List PollFd) (p : Polled) :
    ∀ e ∈ pollEvents who entries p, e.IsPoll := by
  intro e he
  cases p with
  | error => cases he
  | events revents =>
    obtain ⟨x, -, rfl⟩ := List.mem_map.1 he
    exact ⟨who, x.fd, revents x.fd, rfl⟩

theorem afterOpen_region (k : Key) : (MainPc.afterOpen k).region = .starting := by cases k <;> rfl

theorem afterCreate_region (n : Sens) : (MainPc.afterCreate n).region = .afterCreate n := by cases n <;> rfl

theorem afterJoin_region (n : Sens) : (MainPc.afterJoin n).region = .afterJoin n := by cases n <;> rfl

theorem afterFill_region (i : Fin 4) : (MainPc.afterFill i).region = .reporting := by revert i; decide

theorem afterFill_cases (i : Fin 4) : MainPc.afterFill i = .reportPoll ∨ ∃ j, MainPc.afterFill i = .fillFd j := by
  revert i
  decide

theorem afterReport_region (r : Report) : (MainPc.afterReport r).region = .reporting := by cases r <;> rfl

/-- A step inside a region. -/
theorem MainMove.of_ctl_eq {s t : State} (h : t.ctl = s.ctl) : MainMove s.ctl t.ctl [] :=
  h ▸ .quiet [] (fun _ he => nomatch he)

/-- Every statement of `main` is a move of the skeleton. -/
theorem mainStep_move {c : Clock} {s s' : State} {inp : Input} {evs : List Event}
    (h : mainStep c s inp = some (s', evs)) : MainMove s.ctl s'.ctl evs := by
  have hx : s.ctl = ⟨s.main.pc.region, s.g, s.th, s.main.mot_data⟩ := rfl
  cases hpc : s.main.pc <;> cases inp <;> simp only [mainStep, hpc, reduceCtorEq] at h <;> rw [hpc] at hx
  case openKey.opened k fd =>
    cases h
    exact .of_ctl_eq (by rw [hx, State.ctl, afterOpen_region]; rfl)
  case testKey.none =>
    split at h <;> cases h
    · rw [hx]; exact .giveUp
    · exact .of_ctl_eq (by rw [hx]; rfl)
  case testKeys.none =>
    split at h <;> cases h <;> rw [hx]
    · exact .giveUp
    · exact .toWait
  case waitTest.none =>
    cases h
    rw [hx]
    by_cases hm : s.g.mac_state = 0
    · rw [if_pos hm]; exact .stay hm
    · rw [if_neg hm]; exact .goOn hm
  case waitFd.none => cases h; exact .of_ctl_eq (by rw [hx]; rfl)
  case waitEvents.none => cases h; exact .of_ctl_eq (by rw [hx]; rfl)
  case waitPoll.polled p =>
    cases h
    rw [hx]
    exact .quiet _ (pollEvents_isPoll _ _ _)
  case waitError.none =>
    split at h <;> cases h
    · rw [hx]; exact .giveUp
    · exact .of_ctl_eq (by rw [hx]; rfl)
  case waitReady.none =>
    cases h
    by_cases hr : s.main.key_ev.revents = true
    · rw [if_pos hr]; exact .of_ctl_eq (by rw [hx]; rfl)
    · rw [if_neg hr, hx]; exact .toWait
  case setStart.none => cases h; rw [hx]; exact .start
  case openMot.opened fd => cases h; exact .of_ctl_eq (by rw [hx]; rfl)
  case openDot.opened fd => cases h; exact .of_ctl_eq (by rw [hx]; rfl)
  case clearDot.none => cases h; rw [hx]; exact .opened
  case coinTest.none =>
    cases h
    rw [hx]
    by_cases hm : s.g.mac_state = 1
    · rw [if_pos hm]; exact .enter hm
    · rw [if_neg hm]; exact .leave hm
  case create.created n sens_value key_ev =>
    cases h
    rw [hx, State.ctl, State.goto, afterCreate_region]
    exact .create n sens_value key_ev
  case motorOn.none => cases h; rw [hx]; exact .motorOn
  case blankDot.none => cases h; exact .of_ctl_eq (by rw [hx]; rfl)
  case join.none n =>
    split at h
    · rename_i hdone
      cases h
      rw [hx, State.ctl, State.goto, afterJoin_region]
      exact .join n hdone
    · cases h
  case setOff.none => cases h; rw [hx]; exact .setOff
  case motorOff.none => cases h; rw [hx]; exact .motorOff
  case testDot.none =>
    split at h <;> cases h
    · rw [hx]; exact .exit
    · exact .of_ctl_eq (by rw [hx]; rfl)
  case reportTest.none =>
    cases h
    by_cases hm : s.g.mac_state = 2
    · rw [if_pos hm]; exact .of_ctl_eq (by rw [hx]; rfl)
    · rw [if_neg hm]; exact .of_ctl_eq (by rw [hx]; rfl)
  case fillFd.none i => cases h; exact .of_ctl_eq (by rw [hx]; rfl)
  case fillEvents.none i =>
    cases h
    exact .of_ctl_eq (by rw [hx, State.ctl, afterFill_region]; rfl)
  case reportPoll.polled p =>
    cases h
    rw [hx]
    exact .quiet _ (pollEvents_isPoll _ _ _)
  case reportError.none =>
    split at h <;> cases h
    · rw [hx]; exact .exit
    · exact .of_ctl_eq (by rw [hx]; rfl)
  case testOff.none =>
    split at h <;> cases h
    · rw [hx]; exact .serve _
    · exact .of_ctl_eq (by rw [hx]; rfl)
  case testReport.none r =>
    split at h <;> cases h
    · rw [hx]; exact .serve _
    · exact .of_ctl_eq (by rw [hx, State.ctl, State.goto, afterReport_region]; rfl)
  case branch.none r =>
    obtain ⟨t, -, ht⟩ := Option.map_eq_some_iff.1 h
    cases ht
    exact .of_ctl_eq (by rw [hx, State.ctl, afterReport_region]; rfl)
  case closeKeys.none => cases h; rw [hx]; exact .exit

/-- `main` never writes the counters. -/
theorem MainMove.ea_eq {x y : Ctl} {evs : List Event} (h : MainMove x y evs) : y.g.ea = x.g.ea := by
  cases h <;> rfl

/-- What a statement of thread `n` does to the globals. -/
inductive ThreadEffect (n : Sens) (g : Globals) : Globals → List Event → Prop where
  | quiet (evs : List Event) (h : ∀ e ∈ evs, e.IsPoll) : ThreadEffect n g g evs
  | count : ThreadEffect n g { g with ea := g.ea.bump n } [.count n]
  | off : ThreadEffect n g { g with mac_state := 2 } [.macState 2]

/-- A thread that is done stays so, and a thread ends only where `mac_state` is no longer 1. -/
theorem Thread.step_effect {n : Sens} {g g' : Globals} {t t' : Thread} {inp : Input} {evs : List Event}
    (h : t.step n g inp = some (g', t', evs)) :
    ThreadEffect n g g' evs ∧ t.pc ≠ .done ∧ (t'.pc = .done → g' = g ∧ g.mac_state ≠ 1) := by
  have hnil : ∀ e ∈ ([] : List Event), e.IsPoll := fun _ he => nomatch he
  have hpc : t.pc ≠ .done := by
    intro hd
    simp [Thread.step, hd] at h
  unfold Thread.step at h
  split at h
  case h_2 =>
    cases h
    refine ⟨.quiet [] hnil, hpc, fun hd => ⟨rfl, fun hm => ?_⟩⟩
    rw [if_pos hm] at hd
    cases hd
  case h_5 | h_13 =>
    split at h <;> cases h
    exact ⟨.quiet [] hnil, hpc, fun hd => nomatch hd⟩
  case h_6 =>
    cases h
    exact ⟨.quiet _ (pollEvents_isPoll _ _ _), hpc, fun hd => nomatch hd⟩
  case h_9 => cases h; exact ⟨.count, hpc, fun hd => nomatch hd⟩
  case h_17 => cases h; exact ⟨.off, hpc, fun hd => nomatch hd⟩
  case h_18 => cases h
  all_goals
    cases h
    refine ⟨.quiet [] hnil, hpc, fun hd => ?_⟩
    simp only at hd
    first
      | cases hd
      | (split at hd <;> cases hd)

/-! ## The log -/

def Event.motorByte : Event → Option Byte
  | .motor v => some v
  | _ => none

/-- The last command that the motor device was given. -/
def lastMotor (log : List Event) : Option Byte := (log.filterMap Event.motorByte).getLast?

theorem lastMotor_snoc (log : List Event) (e : Event) : lastMotor (log ++ [e]) = e.motorByte.or (lastMotor log) := by
  cases e <;> simp [lastMotor, Event.motorByte, List.filterMap_append]

theorem lastMotor_append_polls {log evs : List Event} (h : ∀ e ∈ evs, e.IsPoll) :
    lastMotor (log ++ evs) = lastMotor log := by
  have hnone : evs.filterMap Event.motorByte = [] := by
    rw [List.filterMap_eq_nil_iff]
    intro e he
    obtain ⟨who, k, ready, rfl⟩ := h e he
    rfl
  rw [lastMotor, List.filterMap_append, hnone, List.append_nil, lastMotor]

/-- An event that is not a poll occurs in the same number after polls. -/
theorem count_append_polls {log evs : List Event} (h : ∀ e ∈ evs, e.IsPoll) {e : Event} (he : ¬ e.IsPoll) :
    (log ++ evs).count e = log.count e := by
  rw [List.count_append, List.count_eq_zero.2 fun hm => he (h e hm), Nat.add_zero]

theorem mem_append_polls {log evs : List Event} (h : ∀ e ∈ evs, e.IsPoll) {e : Event} (he : ¬ e.IsPoll) :
    e ∈ log ++ evs ↔ e ∈ log := by
  rw [List.mem_append, or_iff_left fun hm => he (h e hm)]

theorem count_snoc_ne {log : List Event} {e e' : Event} (h : e' ≠ e) : (log ++ [e']).count e = log.count e := by
  rw [List.count_append, List.count_singleton, if_neg (by simpa using h), Nat.add_zero]

theorem mem_snoc_ne {log : List Event} {e e' : Event} (h : e' ≠ e) : e ∈ log ++ [e'] ↔ e ∈ log := by
  rw [List.mem_append, List.mem_singleton, or_iff_left h.symm]

/-- What has to be true of the log before an event: a thread is created at most once; the motor is turned on
after the start and before `main` has joined a thread; reports and exits find the motor off. -/
def Good (pre : List Event) : Event → Prop
  | .create n => .create n ∉ pre
  | .motor v => v = 1 → .macState 1 ∈ pre ∧ ∀ n, .join n ∉ pre
  | .serve _ => lastMotor pre = some 0 ∧ ∀ n, .join n ∈ pre
  | .exit => lastMotor pre ≠ some 1
  | _ => True

theorem good_of_isPoll {e : Event} (h : e.IsPoll) (pre : List Event) : Good pre e := by
  obtain ⟨who, k, ready, rfl⟩ := h
  trivial

/-! ## The invariant -/

/-- The order in which the threads are created and joined. -/
def Sens.idx : Sens → Nat
  | .sens1 => 0
  | .sens2 => 1
  | .sens3 => 2

theorem Sens.idx_lt (n : Sens) : n.idx < 3 := by cases n <;> decide

theorem Sens.idx_inj {n n' : Sens} (h : n.idx = n'.idx) : n = n' := by cases n <;> cases n' <;> first | rfl | cases h

/-- How far `main` is with the threads: `k ≤ 3` were created, or all three and `k - 3` joined. -/
def Region.Stage : Region → Nat → Prop
  | .starting, k | .waiting, k | .opening, k => k = 0
  | .testing, k | .exited, k => k = 0 ∨ k = 6
  | .creating n, k => k = n.idx
  | .running, k => k = 3
  | .joining n, k => k = 3 + n.idx
  | .stopping, k | .stopped, k | .reporting, k => k = 6

structure Threads (k : Nat) (th : Sens → Option Thread) (log : List Event) : Prop where
  exist : ∀ n, (th n).isSome ↔ n.idx < k
  done : ∀ n, n.idx + 3 < k → (th n).map Thread.pc = some .done
  created : ∀ n, log.count (.create n) = if n.idx < k then 1 else 0
  joined : ∀ n, .join n ∈ log ↔ n.idx + 3 < k

def Region.MotorOk : Region → Byte → Option Byte → Prop
  | .starting, _, m | .waiting, _, m => m = none
  | .stopped, d, _ => d = 0
  | .reporting, _, m => m = some 0
  | .exited, _, m => m ≠ some 1
  | _, _, _ => True

/-- `main` is past the waiting loop and has not returned. -/
def Region.started : Region → Bool
  | .starting | .waiting | .exited => false
  | _ => true

/-- The assignments to `mac_state` behind its value. -/
structure Begun (g : Globals) (log : List Event) : Prop where
  start : g.mac_state ≠ 0 → .macState 1 ∈ log
  stop : g.mac_state = 2 → .macState 2 ∈ log

theorem Begun.append {g : Globals} {log : List Event} (h : Begun g log) (evs : List Event) : Begun g (log ++ evs) :=
  ⟨fun hne => List.mem_append_left _ (h.start hne), fun h2 => List.mem_append_left _ (h.stop h2)⟩

structure Inv (x : Ctl) (log : List Event) : Prop where
  stage : ∃ k, x.region.Stage k ∧ Threads k x.th log ∧ (k = 0 → x.g.mac_state ≠ 2)
  range : x.g.mac_state = 0 ∨ x.g.mac_state = 1 ∨ x.g.mac_state = 2
  zero : x.region = .starting → x.g.mac_state = 0
  started : x.region.started = true → x.g.mac_state ≠ 0
  alive : ∀ n, (x.th n).isSome → x.g.mac_state ≠ 0
  ended : ∀ n t, x.th n = some t → t.pc = .done → x.g.mac_state = 2
  motor : x.region.MotorOk x.mot_data (lastMotor log)
  counted : ∀ n, x.g.ea.get n = log.count (.count n)
  begun : Begun x.g log
  good : Always Good log

theorem Inv.init {x : State × List Event} (h : Init x) : Inv x.1.ctl x.2 := by
  obtain ⟨hpc, hg, hth, -, -, -, hlog⟩ := h
  have hctl : x.1.ctl = ⟨.starting, ⟨0, 0, 0, 0⟩, x.1.th, x.1.main.mot_data⟩ := by rw [State.ctl, hpc, hg]; rfl
  rw [hctl, hlog]
  refine ⟨⟨0, rfl, ⟨?_, ?_, ?_, ?_⟩, fun _ => (by decide : (0 : Int) ≠ 2)⟩, Or.inl rfl, fun _ => rfl,
    (fun h => nomatch h), ?_, ?_, rfl, ?_, ⟨fun h => absurd rfl h, (fun h => nomatch h)⟩, Always.nil⟩
  · intro n; simp [hth n]
  · intro n hn; omega
  · intro n; rfl
  · intro n; simp
  · intro n hn; simp [hth n] at hn
  · intro n t ht; simp [hth n] at ht
  · intro n; cases n <;> rfl

/-- Polls change nothing. -/
theorem Inv.polls {x : Ctl} {log evs : List Event} (hx : Inv x log) (h : ∀ e ∈ evs, e.IsPoll) :
    Inv x (log ++ evs) := by
  obtain ⟨⟨k, hk, hth, h0⟩, hrange, hzero, hstarted, halive, hended, hmotor, hcounted, hbegun, hgood⟩ := hx
  have hnot : ∀ {e : Event}, (∀ who k ready, e ≠ .poll who k ready) → ¬ e.IsPoll := by
    rintro e hne ⟨who, k, ready, he⟩
    exact hne who k ready he
  refine ⟨⟨k, hk, ⟨hth.exist, hth.done, ?_, ?_⟩, h0⟩, hrange, hzero, hstarted, halive, hended, ?_, ?_, hbegun.append evs, ?_⟩
  · intro n
    rw [count_append_polls h (hnot (by simp))]
    exact hth.created n
  · intro n
    rw [mem_append_polls h (hnot (by simp))]
    exact hth.joined n
  · rw [lastMotor_append_polls h]
    exact hmotor
  · intro n
    rw [count_append_polls h (hnot (by simp))]
    exact hcounted n
  · exact hgood.append_of_forall fun e he pre => good_of_isPoll (h e he) pre

section
variable {k : Nat} {th : Sens → Option Thread} {log : List Event} (h : Threads k th log)
include h

theorem Threads.snoc {e : Event} (hc : ∀ n, e ≠ .create n) (hj : ∀ n, e ≠ .join n) : Threads k th (log ++ [e]) where
  exist := h.exist
  done := h.done
  created n := by rw [count_snoc_ne (hc n)]; exact h.created n
  joined n := by rw [mem_snoc_ne (hj n)]; exact h.joined n

/-- The next thread is created. -/
theorem Threads.create {n : Sens} (hk : k = n.idx) (t : Thread) :
    Threads (k + 1) (Function.update th n (some t)) (log ++ [.create n]) := by
  subst hk
  have hlt := n.idx_lt
  refine ⟨?_, fun n' hn' => by omega, ?_, ?_⟩
  · intro n'
    by_cases hn : n' = n
    · subst hn; simp
    · rw [Function.update_of_ne hn, h.exist]
      have hne : n'.idx ≠ n.idx := fun he => hn (Sens.idx_inj he)
      omega
  · intro n'
    by_cases hn : n' = n
    · subst hn; rw [List.count_append, h.created]; simp
    · have hne : n'.idx ≠ n.idx := fun he => hn (Sens.idx_inj he)
      rw [count_snoc_ne fun he => hn (Event.create.inj he).symm, h.created]
      by_cases hi : n'.idx < n.idx
      · rw [if_pos hi, if_pos (by omega)]
      · rw [if_neg hi, if_neg (by omega)]
  · intro n'
    rw [mem_snoc_ne (by simp), h.joined]
    omega

/-- The next thread is joined. -/
theorem Threads.join {n : Sens} (hk : k = 3 + n.idx) (hdone : (th n).map Thread.pc = some .done) :
    Threads (k + 1) th (log ++ [.join n]) := by
  subst hk
  have hlt := n.idx_lt
  refine ⟨?_, ?_, ?_, ?_⟩
  · intro n'
    have := n'.idx_lt
    rw [h.exist]
    omega
  · intro n' hn'
    by_cases hn : n' = n
    · subst hn; exact hdone
    · have hne : n'.idx ≠ n.idx := fun he => hn (Sens.idx_inj he)
      exact h.done n' (by omega)
  · intro n'
    have := n'.idx_lt
    rw [count_snoc_ne (by simp), h.created, if_pos (by omega), if_pos (by omega)]
  · intro n'
    by_cases hn : n' = n
    · subst hn; simp; omega
    · have hne : n'.idx ≠ n.idx := fun he => hn (Sens.idx_inj he)
      rw [mem_snoc_ne fun he => hn (Event.join.inj he).symm, h.joined]
      omega

end

section
variable {r r' : Region} {g : Globals} {th : Sens → Option Thread} {d d' : Byte} {log : List Event}
  (hx : Inv ⟨r, g, th, d⟩ log)
include hx

/-- `main` goes on without an event. -/
theorem Inv.goto (hstage : ∃ k, r'.Stage k ∧ Threads k th log ∧ (k = 0 → g.mac_state ≠ 2))
    (hzero : r' = .starting → g.mac_state = 0) (hstarted : r'.started = true → g.mac_state ≠ 0)
    (hmotor : r'.MotorOk d' (lastMotor log)) : Inv ⟨r', g, th, d'⟩ log :=
  ⟨hstage, hx.range, hzero, hstarted, hx.alive, hx.ended, hmotor, hx.counted, hx.begun, hx.good⟩

/-- `main` goes on with an event, which is no increment. -/
theorem Inv.emit {e : Event} (hstage : ∃ k, r'.Stage k ∧ Threads k th (log ++ [e]) ∧ (k = 0 → g.mac_state ≠ 2))
    (hzero : r' ≠ .starting) (hstarted : r'.started = true → g.mac_state ≠ 0)
    (hmotor : r'.MotorOk d (e.motorByte.or (lastMotor log))) (hcount : ∀ n, e ≠ .count n) (hgood : Good log e) :
    Inv ⟨r', g, th, d⟩ (log ++ [e]) := by
  refine ⟨hstage, hx.range, fun h => absurd h hzero, hstarted, hx.alive, hx.ended, ?_, ?_, hx.begun.append _,
    hx.good.snoc hgood⟩
  · rw [lastMotor_snoc]
    exact hmotor
  · intro n
    rw [count_snoc_ne (hcount n)]
    exact hx.counted n

end

/-- The step lemma for `main`. -/
theorem Inv.move {x x' : Ctl} {log evs : List Event} (hx : Inv x log) (h : MainMove x x' evs) :
    Inv x' (log ++ evs) := by
  obtain ⟨k, hk, hth, h0⟩ := hx.stage
  have hstarted := hx.started
  have hmotor := hx.motor
  cases h with
  | quiet _ hpolls => exact hx.polls hpolls
  | toWait =>
    rw [List.append_nil]
    exact hx.goto ⟨k, hk, hth, h0⟩ (fun h => nomatch h) (fun h => nomatch h) hmotor
  | stay hm =>
    rw [List.append_nil]
    exact hx.goto ⟨k, hk, hth, h0⟩ (fun _ => hm) (fun h => nomatch h) hmotor
  | goOn hm =>
    rw [List.append_nil]
    exact hx.goto ⟨k, hk, hth, h0⟩ (fun h => nomatch h) (fun _ => hm) trivial
  | @start g th d =>
    have hk0 : k = 0 := hk
    subst hk0
    have hnone : ∀ n, th n = none := fun n => by simpa using hth.exist n
    refine ⟨⟨0, rfl, hth.snoc (by simp) (by simp), fun _ => (by decide : (1 : Int) ≠ 2)⟩, Or.inr (Or.inl rfl),
      (fun h => nomatch h), (fun h => nomatch h), fun _ _ => (by decide : (1 : Int) ≠ 0), ?_, ?_, ?_, ?_, ?_⟩
    · intro n t ht
      exact nomatch (hnone n).symm.trans ht
    · rw [lastMotor_snoc]
      exact hmotor
    · intro n
      rw [count_snoc_ne (by simp)]
      exact hx.counted n
    · exact ⟨fun _ => List.mem_append_right _ (List.mem_singleton.2 rfl), (fun h => nomatch h)⟩
    · exact hx.good.snoc trivial
  | giveUp =>
    have hoff : lastMotor log ≠ some 1 := by
      rw [show lastMotor log = none from hmotor]
      exact fun h => nomatch h
    exact hx.emit ⟨k, Or.inl hk, hth.snoc (by simp) (by simp), h0⟩ (by simp) (fun h => nomatch h) hoff (by simp) hoff
  | opened =>
    rw [List.append_nil]
    exact hx.goto ⟨k, Or.inl hk, hth, h0⟩ (fun h => nomatch h) (fun _ => hstarted rfl) trivial
  | enter hm =>
    -- the loop is not entered again: after the joins every thread is done
    have hk0 : k = 0 := by
      rcases hk with hk | rfl
      · exact hk
      · obtain ⟨t, ht, hd⟩ := Option.map_eq_some_iff.1 (hth.done .sens1 (by decide))
        have := hx.ended .sens1 t ht hd
        simp only at this hm
        omega
    rw [List.append_nil]
    exact hx.goto ⟨k, hk0, hth, h0⟩ (fun h => nomatch h) (fun _ => hstarted rfl) trivial
  | leave hm =>
    -- it is entered: without threads nobody can have ended the coin phase
    have hk6 : k = 6 := by
      rcases hk with rfl | hk
      · have h1 := hstarted rfl
        have h2 := h0 rfl
        have hrange := hx.range
        simp only at hrange h1 h2
        omega
      · exact hk
    rw [List.append_nil]
    exact hx.goto ⟨k, hk6, hth, h0⟩ (fun h => nomatch h) (fun _ => hstarted rfl) trivial
  | create n sens_value key_ev =>
    have hk' : k = n.idx := hk
    refine ⟨⟨k + 1, ?_, hth.create hk' _, fun h => nomatch h⟩, hx.range, ?_, fun _ => hstarted rfl,
      fun _ _ => hstarted rfl, ?_, ?_, ?_, hx.begun.append _, hx.good.snoc ?_⟩
    · rw [hk']
      cases n <;> rfl
    · cases n <;> exact fun h => nomatch h
    · intro n' t ht hd
      by_cases hn : n' = n
      · subst hn
        simp only [Function.update_self, Option.some.injEq] at ht
        subst ht
        cases hd
      · simp only [Function.update_of_ne hn] at ht
        exact hx.ended n' t ht hd
    · cases n <;> trivial
    · intro n'
      rw [count_snoc_ne (by simp)]
      exact hx.counted n'
    · have hc := hth.created n
      rw [hk', if_neg (Nat.lt_irrefl _)] at hc
      exact List.count_eq_zero.1 hc
  | motorOn =>
    have hk3 : k = 3 := hk
    refine hx.emit ⟨k, hk3, hth.snoc (by simp) (by simp), h0⟩ (by simp) (fun _ => hstarted rfl) trivial (by simp) ?_
    intro _
    refine ⟨hx.begun.start (hstarted rfl), fun n hj => ?_⟩
    have := (hth.joined n).1 hj
    omega
  | join n hdone =>
    have hk' : k = 3 + n.idx := hk
    refine hx.emit ⟨k + 1, ?_, hth.join hk' hdone, fun h => nomatch h⟩ ?_ (fun _ => hstarted rfl) ?_ (by simp) trivial
    · rw [hk']
      cases n with
      | sens1 => rfl
      | sens2 => rfl
      | sens3 => exact Or.inr rfl
    · cases n <;> exact fun h => nomatch h
    · cases n <;> trivial
  | setOff =>
    rw [List.append_nil]
    exact hx.goto ⟨k, hk, hth, h0⟩ (fun h => nomatch h) (fun _ => hstarted rfl) rfl
  | @motorOff g th d =>
    have hd0 : d = 0 := hmotor
    subst hd0
    refine hx.emit ⟨k, hk, hth.snoc (by simp) (by simp), h0⟩ (by simp) (fun _ => hstarted rfl) rfl (by simp) ?_
    intro h1
    exact absurd h1 (by decide)
  | serve _ =>
    have hk6 : k = 6 := hk
    refine hx.emit ⟨k, hk, hth.snoc (by simp) (by simp), h0⟩ (by simp) (fun _ => hstarted rfl) hmotor (by simp)
      ⟨hmotor, fun n => ?_⟩
    have := n.idx_lt
    exact (hth.joined n).2 (by omega)
  | exit =>
    have hoff : lastMotor log ≠ some 1 := by
      rw [show lastMotor log = some 0 from hmotor]
      decide
    exact hx.emit ⟨k, Or.inr hk, hth.snoc (by simp) (by simp), h0⟩ (by simp) (fun h => nomatch h) hoff (by simp) hoff

/-- A thread that is not done takes a step. -/
theorem Threads.update {k : Nat} {th : Sens → Option Thread} {log : List Event} (h : Threads k th log) {n : Sens}
    {t : Thread} (ht : th n = some t) (hpc : t.pc ≠ .done) (t' : Thread) :
    Threads k (Function.update th n (some t')) log := by
  refine ⟨?_, ?_, h.created, h.joined⟩
  · intro n'
    by_cases hn : n' = n
    · subst hn
      rw [Function.update_self, ← h.exist, ht]
      rfl
    · rw [Function.update_of_ne hn]
      exact h.exist n'
  · intro n' hn'
    by_cases hn : n' = n
    · subst hn
      have hd := h.done n' hn'
      rw [ht] at hd
      exact absurd (Option.some.inj hd) hpc
    · rw [Function.update_of_ne hn]
      exact h.done n' hn'

/-- The step lemma for the sensor threads. -/
theorem Inv.thread {x : Ctl} {log evs : List Event} (hx : Inv x log) {n : Sens} {t t' : Thread} {g' : Globals}
    {inp : Input} (ht : x.th n = some t) (h : t.step n x.g inp = some (g', t', evs)) :
    Inv { x with g := g', th := Function.update x.th n (some t') } (log ++ evs) := by
  obtain ⟨heff, hpc, hdone⟩ := Thread.step_effect h
  obtain ⟨⟨k, hk, hth, h0⟩, hrange, hzero, hstarted, halive, hended, hmotor, hcounted, hbegun, hgood⟩ := id hx
  have hsome : (x.th n).isSome = true := by rw [ht]; rfl
  have hne := halive n hsome
  -- a thread leaves its loop only after the coin phase was ended
  have hended' : ∀ n' u, Function.update x.th n (some t') n' = some u → u.pc = .done → x.g.mac_state = 2 := by
    intro n' u hu hd
    by_cases hn : n' = n
    · subst hn
      rw [Function.update_self, Option.some.injEq] at hu
      subst hu
      have := (hdone hd).2
      omega
    · rw [Function.update_of_ne hn] at hu
      exact hended n' u hu hd
  cases heff with
  | quiet _ hpolls =>
    have hq : Inv { x with th := Function.update x.th n (some t') } log :=
      ⟨⟨k, hk, hth.update ht hpc t', h0⟩, hrange, hzero, hstarted, fun _ _ => hne, hended', hmotor, hcounted, hbegun, hgood⟩
    exact hq.polls hpolls
  | count =>
    refine ⟨⟨k, hk, (hth.update ht hpc t').snoc (by simp) (by simp), h0⟩, hrange, hzero, hstarted, fun _ _ => hne, hended',
      ?_, ?_, ⟨(hbegun.append _).start, (hbegun.append _).stop⟩, hgood.snoc trivial⟩
    · rw [lastMotor_snoc]
      exact hmotor
    · intro n'
      simp only [Counters.get_bump]
      by_cases hn : n = n'
      · subst hn
        rw [if_pos rfl, hcounted, List.count_append, List.count_singleton_self]
      · rw [if_neg hn, count_snoc_ne fun he => hn (Event.count.inj he), hcounted]
  | off =>
    refine ⟨⟨k, hk, (hth.update ht hpc t').snoc (by simp) (by simp), ?_⟩, Or.inr (Or.inr rfl), fun hr => absurd (hzero hr) hne,
      fun _ => (by decide : (2 : Int) ≠ 0), fun _ _ => (by decide : (2 : Int) ≠ 0), fun _ _ _ _ => rfl, ?_, ?_,
      ⟨fun _ => List.mem_append_left _ (hbegun.start hne), fun _ => List.mem_append_right _ (List.mem_singleton.2 rfl)⟩,
      hgood.snoc trivial⟩
    · rintro rfl
      have := (hth.exist n).1 hsome
      omega
    · rw [lastMotor_snoc]
      exact hmotor
    · intro n'
      rw [count_snoc_ne (by simp)]
      exact hcounted n'

/-! ## Runs -/

/-- A step of a thread: the thread exists, and `main` has not returned. -/
theorem step_thread {c : Clock} {s s' : State} {n : Sens} {inp : Input} {evs : List Event}
    (h : step c s (.thread n inp) = some (s', evs)) : ∃ t t', s.main.pc ≠ .exited ∧ s.th n = some t ∧
      t.step n s.g inp = some (s'.g, t', evs) ∧ s' = { s with g := s'.g, th := Function.update s.th n (some t') } := by
  simp only [step] at h
  split at h
  · cases h
  · rename_i hpc
    obtain ⟨t, ht, h⟩ := Option.bind_eq_some_iff.1 h
    obtain ⟨⟨g', t', evs'⟩, hst, h⟩ := Option.bind_eq_some_iff.1 h
    cases h
    exact ⟨t, t', hpc, ht, hst, rfl⟩

theorem logStep_step {c : Clock} {s s' : State} {log log' : List Event} {a : Action}
    (h : logStep c (s, log) a = some (s', log')) : ∃ evs, step c s a = some (s', evs) ∧ log' = log ++ evs := by
  obtain ⟨⟨s₁, evs⟩, hs, heq⟩ := Option.map_eq_some_iff.1 h
  cases heq
  exact ⟨evs, hs, rfl⟩

/-- What a step is: a move of `main`, or a statement of a thread. -/
theorem logStep_cases {c : Clock} {s s' : State} {log log' : List Event} {a : Action}
    (h : logStep c (s, log) a = some (s', log')) : ∃ evs, log' = log ++ evs ∧
      ((∃ inp, a = .main inp ∧ MainMove s.ctl s'.ctl evs) ∨
        ∃ n inp t t', a = .thread n inp ∧ s.main.pc ≠ .exited ∧ s.th n = some t ∧
          t.step n s.g inp = some (s'.g, t', evs) ∧
          s' = { s with g := s'.g, th := Function.update s.th n (some t') }) := by
  obtain ⟨evs, hs, hlog⟩ := logStep_step h
  refine ⟨evs, hlog, ?_⟩
  cases a with
  | main inp => exact Or.inl ⟨inp, rfl, mainStep_move hs⟩
  | thread n inp =>
    obtain ⟨t, t', hstep⟩ := step_thread hs
    exact Or.inr ⟨n, inp, t, t', rfl, hstep⟩

theorem Inv.step {c : Clock} {s s' : State} {log log' : List Event} {a : Action} (hx : Inv s.ctl log)
    (h : logStep c (s, log) a = some (s', log')) : Inv s'.ctl log' := by
  obtain ⟨evs, rfl, ⟨inp, -, hmove⟩ | ⟨n, inp, t, t', -, -, ht, hst, hs'⟩⟩ := logStep_cases h
  · exact hx.move hmove
  · rw [hs']
    exact hx.thread ht hst

/-- The invariant holds in every reachable state. -/
theorem reachable_inv {c : Clock} {x : State × List Event} (h : Reachable (logStep c) Init x) : Inv x.1.ctl x.2 :=
  h.invariant (fun _ => Inv.init) fun _ _ _ hx hs => hx.step hs

/-- `mac_state` goes from 0 to 1 by `main` and from 1 to 2 by a thread. -/
theorem mac_state_moves {c : Clock} {s s' : State} {log log' : List Event} {a : Action} (hx : Inv s.ctl log)
    (h : logStep c (s, log) a = some (s', log')) : s'.g.mac_state = s.g.mac_state ∨
      (s.g.mac_state = 0 ∧ s'.g.mac_state = 1 ∧ ∃ inp, a = .main inp) ∨
      (s.g.mac_state = 1 ∧ s'.g.mac_state = 2 ∧ ∃ n inp, a = .thread n inp) := by
  obtain ⟨evs, -, ⟨inp, ha, hmove⟩ | ⟨n, inp, t, t', ha, -, ht, hst, -⟩⟩ := logStep_cases h
  · generalize hy : s.ctl = y, hy' : s'.ctl = y' at hmove
    have hg : s.g = y.g := by rw [← hy]; rfl
    have hg' : s'.g = y'.g := by rw [← hy']; rfl
    rw [hy] at hx
    rw [hg, hg']
    cases hmove with
    | start => exact Or.inr (Or.inl ⟨hx.zero rfl, rfl, inp, ha⟩)
    | _ => exact Or.inl rfl
  · have hne := hx.alive n (by simp [State.ctl, ht])
    have hrange := hx.range
    simp only [State.ctl] at hne hrange
    generalize s'.g = g' at hst ⊢
    cases (Thread.step_effect hst).1 with
    | quiet => exact Or.inl rfl
    | count => exact Or.inl rfl
    | off =>
      rcases hrange with h0 | h1 | h2
      · exact absurd h0 hne
      · exact Or.inr (Or.inr ⟨h1, rfl, n, inp, ha⟩)
      · exact Or.inl h2.symm

/-- From the dot check on every thread was joined. -/
theorem Inv.all_done {s : State} {log : List Event} (hx : Inv s.ctl log) (hrep : s.main.pc.region = .reporting)
    (n : Sens) : log.count (.create n) = 1 ∧ (s.th n).map Thread.pc = some .done := by
  obtain ⟨k, hk, hth, -⟩ := hx.stage
  simp only [State.ctl, hrep, Region.Stage] at hk
  have hlt := n.idx_lt
  exact ⟨by rw [hth.created, if_pos (by omega)], hth.done n (by omega)⟩

theorem Inv.mac_two {s : State} {log : List Event} (hx : Inv s.ctl log) (h : s.main.pc.region = .reporting) :
    s.g.mac_state = 2 := by
  obtain ⟨t, ht, hpc⟩ := Option.map_eq_some_iff.1 (hx.all_done h .sens1).2
  exact hx.ended .sens1 t ht hpc

/-- `main` is in the report loop or has left it: no thread is left to run. -/
def Settled (s : State) : Prop := s.main.pc.region = .reporting ∨ s.main.pc.region = .exited

/-- A thread that can step is not done, so `main` is not in the report loop. -/
theorem step_thread_unsettled {c : Clock} {s s' : State} {log evs : List Event} {n : Sens} {inp : Input}
    (hx : Inv s.ctl log) (h : step c s (.thread n inp) = some (s', evs)) : s'.main = s.main ∧ ¬ Settled s := by
  obtain ⟨t, t', hpc, ht, hst, hs'⟩ := step_thread h
  refine ⟨by rw [hs'], ?_⟩
  rintro (hrep | hexit)
  · have hd := (hx.all_done hrep n).2
    rw [ht, Option.map_some, Option.some.injEq] at hd
    exact (Thread.step_effect hst).2.1 hd
  · revert hpc hexit
    cases s.main.pc <;> simp [MainPc.region]

theorem Settled.step {c : Clock} {s s' : State} {log log' : List Event} {a : Action} (hs : Settled s)
    (hx : Inv s.ctl log) (h : logStep c (s, log) a = some (s', log')) : Settled s' ∧ s'.g.ea = s.g.ea := by
  obtain ⟨evs, hstep, -⟩ := logStep_step h
  cases a with
  | main inp =>
    have hmove := mainStep_move hstep
    refine ⟨?_, hmove.ea_eq⟩
    generalize hy : s.ctl = y, hy' : s'.ctl = y' at hmove
    have hr : s.main.pc.region = y.region := by rw [← hy]; rfl
    have hr' : s'.main.pc.region = y'.region := by rw [← hy']; rfl
    rw [Settled, hr] at hs
    rw [Settled, hr']
    cases hmove with
    | quiet => exact hs
    | serve => exact hs
    | exit => exact Or.inr rfl
    | _ => rcases hs with hs | hs <;> cases hs
  | thread n inp => exact absurd hs (step_thread_unsettled hx hstep).2

theorem Settled.run {c : Clock} {as : List Action} {s s' : State} {log log' : List Event} (hs : Settled s)
    (hx : Inv s.ctl log) (h : run (logStep c) (s, log) as = some (s', log')) : s'.g.ea = s.g.ea :=
  run_rel (P := fun x : State × List Event => Settled x.1 ∧ Inv x.1.ctl x.2) (R := fun x y => y.1.g.ea = x.1.g.ea)
    (fun _ => rfl) (fun _ _ _ h1 h2 => h2.trans h1) (fun _ _ _ hp ha => ⟨(hp.1.step hp.2 ha).1, hp.2.step ha⟩)
    (fun _ _ _ hp ha => (hp.1.step hp.2 ha).2) ⟨hs, hx⟩ h

/-! ## A start of the program -/

/-- A program start, with every uninitialised local zero. -/
def State.boot : State where
  g := ⟨0, 0, 0, 0⟩
  main := ⟨.openKey .key, fun _ => -1, 0, 0, ⟨.key, false, false⟩, fun _ => ⟨.key, false, false⟩, -1, -1, 1,
    ⟨⟨0, 0, 0⟩, ⟨0, 0, 0, 0, 0, 0, 0, 0, 0, 0, 0, 0⟩, 0, [], true⟩⟩
  th := fun _ => none

/-- `main` up to the waiting loop, with the keys open. -/
def openActions : List Action := List.replicate 4 (.main (.opened 3)) ++ List.replicate 2 (.main .none)

/-- From there up to the third `pthread_create`, with key 1 ready at the first poll. -/
def startActions : List Action :=
  List.replicate 3 (.main .none) ++
  [.main (.polled (.events fun k => k = .key)), .main .none, .main .none, .main .none, .main .none,
    .main (.opened 4), .main (.opened 5), .main .none, .main .none] ++
  List.replicate 3 (.main (.created 0 ⟨.key, false, false⟩))

def bootActions : List Action := openActions ++ startActions

/-- One iteration of the first sensor thread without a coin, with key 2 ready. -/
def endActions : List Action :=
  [.thread .sens1 (.opened 6), .thread .sens1 .none, .thread .sens1 .none, .thread .sens1 .none,
    .thread .sens1 (.read (some 0)), .thread .sens1 (.polled (.events fun k => k = .key2)), .thread .sens1 .none,
    .thread .sens1 .none, .thread .sens1 .none, .thread .sens1 .none]

/-- The threads find the phase over. -/
def leaveActions : List Action :=
  [.thread .sens1 .none, .thread .sens2 (.opened 6), .thread .sens2 .none, .thread .sens3 (.opened 6), .thread .sens3 .none]

theorem boot_init : Init (State.boot, []) := ⟨rfl, rfl, fun _ => rfl, rfl, rfl, rfl, rfl⟩

end CoinMachine
