import CoinMachine.Counting
import CoinMachine.KeyPress
import CoinMachine.Progress
/-!
# What becomes of a key press in the coin phase

The flag of a key driver counts the presses since the last poll as long as an `int` can (`FlagOk`), so that a
poll of the program reports a key exactly if it was pressed since the poll before (`polls_right`). A sensor
thread polls key 2 once in every iteration, and a poll that finds the key makes it set `mac_state` at the end of
that iteration. Three threads poll the one driver, and the poll that finds the key clears the flag: the two
others will not see it. `Thread.patience` bounds the statements from anywhere in the loop, so that it does not
matter which of the threads it is (`press_ends_phase`).
-/

namespace CoinMachine

open Transition EventLog

/-! ## The flag counts the presses -/

/-- A poll of `k`. -/
def KeyEvent.Polls (k : Key) (e : KeyEvent) : Prop := ∃ who ready, e = .ev (.poll who k ready)

theorem fresh_iff {k : Key} {hist : List KeyEvent} : Fresh k hist ↔ Since (· = .press k) (KeyEvent.Polls k) hist := by
  constructor
  · rintro ⟨a, b, rfl, hb⟩
    refine ⟨a, _, b, rfl, rfl, ?_⟩
    rintro e he ⟨who, ready, rfl⟩
    exact hb who ready he
  · rintro ⟨a, e, b, rfl, rfl, hb⟩
    exact ⟨a, b, rfl, fun who ready he => hb _ he ⟨who, ready, rfl⟩⟩

/-- No more presses of `k` than an `int` can count. -/
def Few (k : Key) (hist : List KeyEvent) : Prop := hist.count (.press k) < 2147483648

theorem Few.of_append {k : Key} {hist hist' : List KeyEvent} (h : Few k (hist ++ hist')) : Few k hist := by
  unfold Few at h ⊢
  rw [List.count_append] at h
  omega

structure FlagOk (k : Key) (dev : Key → KeyDev) (hist : List KeyEvent) : Prop where
  nonneg : 0 ≤ (dev k).event_flag
  le : (dev k).event_flag ≤ hist.count (.press k)
  pos : Fresh k hist → 0 < (dev k).event_flag

/-- An event other than a press of `k` that leaves the driver alone. -/
theorem FlagOk.quiet {k : Key} {dev dev' : Key → KeyDev} {hist : List KeyEvent} (h : FlagOk k dev hist)
    (hdev : dev' k = dev k) {e : KeyEvent} (he : e ≠ .press k) : FlagOk k dev' (hist ++ [e]) := by
  constructor
  · rw [hdev]
    exact h.nonneg
  · rw [hdev, List.count_append]
    have hle := h.le
    omega
  · rw [hdev, fresh_iff, since_snoc]
    rintro (heq | ⟨-, hs⟩)
    · exact absurd heq he
    · exact h.pos (fresh_iff.2 hs)

theorem FlagOk.press {k : Key} {dev : Key → KeyDev} {hist : List KeyEvent} (h : FlagOk k dev hist) (lev : Word)
    (hfew : Few k (hist ++ [.press k])) :
    FlagOk k (Function.update dev k (indInterruptHandler k lev (dev k))) (hist ++ [.press k]) := by
  have hnonneg := h.nonneg
  have hle := h.le
  unfold Few at hfew
  rw [List.count_append, List.count_singleton_self] at hfew
  have hflag : (Function.update dev k (indInterruptHandler k lev (dev k)) k).event_flag = (dev k).event_flag + 1 := by
    rw [Function.update_self, indInterruptHandler_flag, wrap_id (by omega) (by omega)]
  constructor
  · rw [hflag]
    omega
  · rw [hflag, List.count_append, List.count_singleton_self]
    omega
  · rw [hflag]
    omega

theorem FlagOk.poll {k : Key} {dev : Key → KeyDev} {hist : List KeyEvent} (who : Poller) (ready : Bool) :
    FlagOk k (Function.update dev k (dev k).clear) (hist ++ [.ev (.poll who k ready)]) := by
  have hflag : (Function.update dev k (dev k).clear k).event_flag = 0 := by simp [KeyDev.clear]
  constructor
  · rw [hflag]
  · rw [hflag]
    exact Int.natCast_nonneg _
  · rw [fresh_iff, since_snoc]
    rintro (heq | ⟨hne, -⟩)
    · cases heq
    · exact absurd ⟨who, ready, rfl⟩ hne

theorem answer_head {dev dev' : Key → KeyDev} {e : Event} {evs : List Event} (h : answer dev (e :: evs) = some dev') :
    ∃ dev₁, answer dev [e] = some dev₁ ∧ answer dev₁ evs = some dev' := by
  cases e with
  | poll who k ready =>
    simp only [answer] at h ⊢
    split at h
    · rename_i hready
      exact ⟨_, by rw [if_pos hready], h⟩
    · cases h
  | _ => exact ⟨dev, rfl, h⟩

theorem FlagOk.event {k : Key} {dev dev' : Key → KeyDev} {hist : List KeyEvent} {e : Event} (h : FlagOk k dev hist)
    (ha : CoinMachine.answer dev [e] = some dev') : FlagOk k dev' (hist ++ [.ev e]) := by
  rcases answer_cons ha with ⟨who, k', rfl, h'⟩ | ⟨he, h'⟩
  · cases h'
    by_cases hk : k = k'
    · subst hk
      exact .poll who _
    · exact h.quiet (Function.update_of_ne hk _ _) KeyEvent.noConfusion
  · cases h'
    exact h.quiet rfl KeyEvent.noConfusion

/-- The step lemma for the drivers. -/
theorem FlagOk.answer {k : Key} {evs : List Event} : ∀ {dev dev' : Key → KeyDev} {hist : List KeyEvent},
    FlagOk k dev hist → CoinMachine.answer dev evs = some dev' → FlagOk k dev' (hist ++ evs.map KeyEvent.ev) := by
  induction evs with
  | nil =>
    intro dev dev' hist hf h
    cases h
    simpa using hf
  | cons e evs ih =>
    intro dev dev' hist hf h
    obtain ⟨dev₁, h1, h2⟩ := answer_head h
    rw [List.map_cons, List.append_cons]
    exact ih (hf.event h1) h2

/-- A step only adds to the history. -/
theorem keyStep_hist {c : Clock} {x x' : Keyed} {b : KeyAct} (h : keyStep c x b = some x') :
    ∃ new, x'.hist = x.hist ++ new := by
  cases b with
  | press k lev =>
    rcases keyStep_press h with rfl | rfl
    · exact ⟨[], (List.append_nil _).symm⟩
    · exact ⟨[.press k], rfl⟩
  | act a =>
    obtain ⟨evs, -, -, hhist⟩ := keyStep_act h
    exact ⟨_, hhist⟩

theorem FlagOk.step {c : Clock} {k : Key} {x x' : Keyed} {b : KeyAct} (hx : FlagOk k x.dev x.hist)
    (h : keyStep c x b = some x') (hfew : Few k x'.hist) : FlagOk k x'.dev x'.hist := by
  cases b with
  | press k' lev =>
    rcases keyStep_press h with rfl | rfl
    · exact hx
    by_cases hk : k = k'
    · subst hk
      exact hx.press lev hfew
    · exact hx.quiet (Function.update_of_ne hk _ _) fun heq => hk (KeyEvent.press.inj heq).symm
  | act a =>
    obtain ⟨evs, -, hdev, hhist⟩ := keyStep_act h
    rw [hhist]
    exact hx.answer hdev

theorem reachable_flagOk {c : Clock} {x : Keyed} (h : Reachable (keyStep c) KeyInit x) (k : Key) (hfew : Few k x.hist) :
    FlagOk k x.dev x.hist := by
  revert hfew
  refine h.invariant (P := fun x => Few k x.hist → FlagOk k x.dev x.hist) ?_ ?_
  · rintro x ⟨-, hflags, hhist⟩ -
    refine ⟨Int.le_of_eq (hflags k).symm, ?_, ?_⟩
    · rw [hflags, hhist]
      exact Int.le_refl 0
    · rw [hhist, fresh_iff]
      exact fun hs => absurd hs not_since_nil
  · intro x b x' hx hstep hfew
    obtain ⟨new, hnew⟩ := keyStep_hist hstep
    exact (hx (hnew ▸ hfew).of_append).step hstep hfew

/-- What a poll has to report. -/
def PolledRight (pre : List KeyEvent) (e : KeyEvent) : Prop :=
  ∀ who k ready, e = .ev (.poll who k ready) → Few k pre → (ready = true ↔ Fresh k pre)

theorem polledRight_answer {evs : List Event} : ∀ {dev dev' : Key → KeyDev} {hist : List KeyEvent},
    (∀ k, Few k hist → FlagOk k dev hist) → Pending dev hist → Always PolledRight hist → answer dev evs = some dev' →
      Always PolledRight (hist ++ evs.map KeyEvent.ev) := by
  induction evs with
  | nil =>
    intro dev dev' hist _ _ hgood h
    simpa using hgood
  | cons e evs ih =>
    intro dev dev' hist hflags hp hgood h
    obtain ⟨dev₁, h1, h2⟩ := answer_head h
    have hp1 : Pending dev₁ (hist ++ [.ev e]) := by simpa using hp.answer h1
    rw [List.map_cons, List.append_cons]
    refine ih (fun k hfew => (hflags k hfew.of_append).event h1) hp1 (hgood.snoc ?_) h2
    rintro who k ready heq hfew
    cases heq
    rcases answer_cons h1 with ⟨who', k', he, -⟩ | ⟨he, -⟩
    · obtain ⟨-, rfl, hready⟩ := Event.poll.inj he
      constructor
      · rintro rfl
        exact hp _ (ready_flag hready)
      · intro hfresh
        rw [hready, KeyDev.mask, if_pos ((hflags _ hfew).pos hfresh)]
        decide
    · exact absurd ⟨who, k, ready, rfl⟩ he

theorem reachable_polledRight {c : Clock} {x : Keyed} (h : Reachable (keyStep c) KeyInit x) :
    Always PolledRight x.hist := by
  have hgood : Reachable (keyStep c) KeyInit x ∧ Always PolledRight x.hist := by
    refine h.invariant (P := fun x => Reachable (keyStep c) KeyInit x ∧ Always PolledRight x.hist) ?_ ?_
    · intro x hx
      refine ⟨.of_init hx, ?_⟩
      rw [hx.hist]
      exact .nil
    · rintro x a x' ⟨hx, hgood⟩ hstep
      refine ⟨hx.snoc hstep, ?_⟩
      cases a with
      | press k lev =>
        rcases keyStep_press hstep with rfl | rfl
        · exact hgood
        · exact hgood.snoc fun _ _ _ heq => by cases heq
      | act a =>
        obtain ⟨evs, -, hdev, hhist⟩ := keyStep_act hstep
        rw [hhist]
        exact polledRight_answer (fun k hfew => reachable_flagOk hx k hfew) (reachable_keyInv hx).pending hgood hdev
  exact hgood.2

/-- **Every poll of the program is right** (`receive/key_driver.c:28-54`). In every reachable state, each poll of a
key, by `main` or by any of the threads, has reported an event exactly if the key was pressed since the last
poll of it, whoever made that one: no press is lost, and none is reported twice. Each call of `key_poll` is one
step, and a press counts while the driver of the key is open. -/
theorem polls_right (c : Clock) (x : Keyed) (h : Reachable (keyStep c) KeyInit x) (pre : List KeyEvent) (who : Poller)
    (k : Key) (ready : Bool) (post : List KeyEvent) (heq : x.hist = pre ++ .ev (.poll who k ready) :: post)
    (hfew : Few k pre) : ready = true ↔ Fresh k pre :=
  reachable_polledRight h pre _ post heq who k ready rfl hfew

/-- Key 3 was pressed while `main` waited for key 1, and the report loop finds it. -/
theorem polls_right_early : ∃ c x, Reachable (keyStep c) KeyInit x ∧
    x.hist = earlyHist ++ .ev (.serve .key3) :: [] ∧ Fresh .key3 (earlyHist.take 17) := by
  obtain ⟨x, hx, hhist⟩ := earlyPress_run .ticks
  have heq : x.hist = earlyHist.take 17 ++
      .ev (.poll .report .key3 true) :: [.ev (.poll .report .key4 false), .ev (.serve .key3)] := by
    rw [hhist]
    rfl
  exact ⟨_, x, hx, hhist, (polls_right _ x hx _ .report .key3 true _ heq (by unfold Few; decide)).1 rfl⟩

/-! ## One thread -/

/-- On the way to the poll of key 2. -/
def ThreadPc.asking : ThreadPc → Bool
  | .setFd | .setEvents | .readSample | .poll => true
  | _ => false

/-- Between the poll and the test of its result. -/
def ThreadPc.answered : ThreadPc → Bool
  | .testHit | .setFir | .count | .testFir | .forInit | .forTest | .readDiscard | .forInc | .clearFir | .testKey => true
  | _ => false

/-- The thread is going to end the phase. -/
def Thread.told (t : Thread) : Bool := t.pc == .setState || (t.pc.answered && t.key_ev.revents)

/-- The statements until a thread that is told sets `mac_state`, and until another has polled key 2 and done so. -/
def Thread.patience (t : Thread) : Nat := if t.told || t.pc.asking then t.rank else t.rank + 32

theorem Thread.patience_le (t : Thread) : t.patience ≤ 60 := by
  have hrank := t.rank_le
  unfold Thread.patience
  split
  · omega
  · rename_i hnot
    obtain ⟨pc, sens_fd, sens_value, fir, sed, j, key_ev⟩ := t
    cases pc <;> simp [Thread.told, ThreadPc.asking] at hnot <;> simp [Thread.rank] <;> omega

/-- What the entry of the poll set holds on the way to the poll. -/
def Thread.Asks (t : Thread) : Prop :=
  match t.pc with
  | .setEvents => t.key_ev.fd = .key2
  | .readSample | .poll => t.key_ev.fd = .key2 ∧ t.key_ev.events = true
  | _ => True

theorem Thread.Asks.step {n : Sens} {g g' : Globals} {t t' : Thread} {inp : Input} {evs : List Event} (ht : t.Asks)
    (h : t.step n g inp = some (g', t', evs)) : t'.Asks := by
  unfold Thread.step at h
  split at h
  case h_5 hpc | h_13 hpc =>
    split at h <;> cases h
    simp_all [Thread.Asks]
  case h_18 => cases h
  all_goals
    cases h
    simp only [Thread.Asks, ‹t.pc = _›] at ht ⊢
  case h_2 | h_7 | h_10 | h_12 | h_16 => split <;> rename_i heq <;> split at heq <;> simp_all
  case h_4 => exact ⟨ht, trivial⟩

/-- The poll: the driver of key 2 is asked, and the thread is told what it answers. -/
theorem Thread.step_poll {n : Sens} {g g' : Globals} {t t' : Thread} {inp : Input} {evs : List Event} (ht : t.Asks)
    (hpc : t.pc = .poll) (hne : inp ≠ .polled .error) (h : t.step n g inp = some (g', t', evs)) :
    g' = g ∧ ∃ ready, evs = [.poll (.thread n) .key2 ready] ∧ t'.pc = .testHit ∧ t'.told = ready := by
  simp only [Thread.Asks, hpc] at ht
  cases inp <;> simp only [Thread.step, hpc, reduceCtorEq] at h
  case polled p =>
    cases p with
    | error => exact absurd rfl hne
    | events revents =>
      cases h
      refine ⟨rfl, revents .key2, ?_, rfl, ?_⟩
      · simp [pollEvents, ht.1]
      · simp [Thread.told, ThreadPc.answered, PollFd.poll, ht.1, ht.2]

/-- Any other statement but the assignment: who is told stays so, and who asks goes on to the poll. -/
theorem Thread.step_told {n : Sens} {g g' : Globals} {t t' : Thread} {inp : Input} {evs : List Event}
    (hpoll : t.pc ≠ .poll) (hset : t.pc ≠ .setState) (h : t.step n g inp = some (g', t', evs)) :
    (∀ e ∈ evs, ¬ e.IsPoll) ∧ (t.told = true → t'.told = true) ∧ (t.pc.asking = true → t'.pc.asking = true) := by
  unfold Thread.step at h
  split at h
  case h_5 hpc | h_13 hpc =>
    split at h <;> cases h
    simp [Thread.told, ThreadPc.asking, ThreadPc.answered, hpc]
  case h_6 hpc => exact absurd hpc hpoll
  case h_7 hpc | h_10 hpc | h_12 hpc | h_16 hpc =>
    cases h
    simp only [Thread.told, ThreadPc.asking, ThreadPc.answered, hpc]
    split <;> simp_all
  case h_17 hpc => exact absurd hpc hset
  case h_18 => cases h
  all_goals
    cases h
    simp [Thread.told, ThreadPc.asking, ThreadPc.answered, Event.IsPoll, ‹t.pc = _›]

/-- A statement that is not the poll ends the phase or lowers the patience. -/
theorem Thread.step_patience {n : Sens} {g g' : Globals} {t t' : Thread} {inp : Input} {evs : List Event}
    (hpoll : t.pc ≠ .poll) (hm : g.mac_state = 1) (h : t.step n g inp = some (g', t', evs)) :
    g'.mac_state = 2 ∨ ((∀ e ∈ evs, ¬ e.IsPoll) ∧ t'.patience < t.patience ∧ (t.told = true → t'.told = true)) := by
  by_cases hset : t.pc = .setState
  · left
    cases inp <;> simp only [Thread.step, hset, reduceCtorEq] at h
    cases h
    rfl
  obtain ⟨hevs, htold, hasking⟩ := Thread.step_told hpoll hset h
  refine Or.inr ⟨hevs, ?_, htold⟩
  by_cases hloop : t.pc = .loopTest
  · -- into the loop: the thread asks
    cases inp <;> simp only [Thread.step, hloop, reduceCtorEq] at h
    cases h
    simp [Thread.patience, Thread.told, Thread.rank, ThreadPc.asking, ThreadPc.answered, hloop, hm]
  have hrank := Thread.step_rank h fun hl => absurd hl hloop
  unfold Thread.patience
  by_cases hin : (t.told || t.pc.asking) = true
  · have hin' : (t'.told || t'.pc.asking) = true := by
      simp only [Bool.or_eq_true] at hin ⊢
      exact hin.imp htold hasking
    rw [if_pos hin, if_pos hin']
    exact hrank
  · rw [if_neg hin]
    split <;> omega

/-! ## The three threads and the driver -/

/-- A thread that does not exist yet has the patience of a new one. -/
def patienceOf (t : Option Thread) : Nat := t.elim 34 Thread.patience

/-- The press is still in the driver and no thread has run out of patience, or a thread is told that has not. -/
inductive Awaits (x : Keyed) (b : Sens → Nat) : Prop where
  | pending (flag : 0 < (x.dev .key2).event_flag) (h : ∀ n, patienceOf (x.s.th n) ≤ b n)
  | told (n : Sens) (t : Thread) (ht : x.s.th n = some t) (told : t.told = true) (h : t.patience ≤ b n)

/-- The thread that moves. -/
def KeyAct.actor : KeyAct → Option Sens
  | .act (.thread n _) => some n
  | _ => none

/-- Every thread has filled its poll set when it polls. -/
theorem reachable_asks {c : Clock} {x : Keyed} (h : Reachable (keyStep c) KeyInit x) :
    ∀ n t, x.s.th n = some t → t.Asks := by
  have hinv : Inv x.s.ctl x.log ∧ ∀ n t, x.s.th n = some t → t.Asks := by
    refine h.invariant (P := fun x => Inv x.s.ctl x.log ∧ ∀ n t, x.s.th n = some t → t.Asks) ?_ ?_
    · intro x hx
      refine ⟨(KeyInv.init hx).prog, fun n t ht => ?_⟩
      rw [hx.prog.th] at ht
      cases ht
    · rintro x a x' ⟨hx, hasks⟩ hstep
      cases a with
      | press k lev =>
        rcases keyStep_press hstep with rfl | rfl
        · exact ⟨hx, hasks⟩
        · exact ⟨by rwa [Keyed.log, log_press], hasks⟩
      | act a =>
        refine ⟨hx.step (keyStep_log hstep), fun m u hu => ?_⟩
        obtain ⟨evs, hs, -, -⟩ := keyStep_act hstep
        cases a with
        | main inp =>
          have hmove := mainStep_move hs
          cases hold : x.s.th m with
          | some t =>
            have hnew : x'.s.th m = some t := hmove.frame hx hold
            rw [hu, Option.some.injEq] at hnew
            exact hnew ▸ hasks m t hold
          | none =>
            obtain ⟨sens_value, key_ev, rfl⟩ := hmove.born hold hu
            trivial
        | thread n inp =>
          obtain ⟨t, t', -, ht, hst, hs'⟩ := step_thread hs
          have hth : x'.s.th = Function.update x.s.th n (some t') := by rw [hs']
          rw [hth] at hu
          by_cases hmn : m = n
          · subst hmn
            rw [Function.update_self, Option.some.injEq] at hu
            exact hu ▸ (hasks m t ht).step hst
          · rw [Function.update_of_ne hmn] at hu
            exact hasks m u hu
  exact hinv.2

theorem answer_quiet {dev dev' : Key → KeyDev} {evs : List Event} (hevs : ∀ e ∈ evs, ¬ e.IsPoll)
    (h : answer dev evs = some dev') : dev' = dev := by
  induction evs with
  | nil =>
    cases h
    rfl
  | cons e evs ih =>
    rcases answer_cons h with ⟨who, k, he, -⟩ | ⟨-, h'⟩
    · exact absurd ⟨who, k, _, he⟩ (hevs e List.mem_cons_self)
    · exact ih (fun e' he' => hevs e' (List.mem_cons_of_mem _ he')) h'

/-- `main` polls before the coin phase and after it. -/
theorem Inv.main_quiet {c : Clock} {s s' : State} {log evs : List Event} {inp : Input} (hx : Inv s.ctl log)
    (hm : s.g.mac_state = 1) (h : mainStep c s inp = some (s', evs)) : ∀ e ∈ evs, ¬ e.IsPoll := by
  rcases mainStep_events h with ⟨hpc, -⟩ | hpc | ⟨i, rfl, -⟩ | hquiet
  · have h0 : s.g.mac_state = 0 := hx.zero (by simp [State.ctl, hpc, MainPc.region])
    omega
  · obtain ⟨t, ht, hd⟩ := Option.map_eq_some_iff.1 (hx.all_done (by rw [hpc]; rfl) .sens1).2
    have h2 : s.g.mac_state = 2 := hx.ended .sens1 t ht hd
    omega
  · simp [Event.IsPoll]
  · exact fun e he => (hquiet e he).1

/-- A statement of `main` keeps the threads that there are, and creates new ones. -/
theorem main_patience {c : Clock} {s s' : State} {log evs : List Event} {inp : Input} (hx : Inv s.ctl log)
    (h : mainStep c s inp = some (s', evs)) (n : Sens) : patienceOf (s'.th n) ≤ patienceOf (s.th n) := by
  have hmove := mainStep_move h
  cases ht : s.th n with
  | some t => rw [show s'.th n = some t from hmove.frame hx ht]
  | none =>
    cases ht' : s'.th n with
    | none => exact Nat.le_refl _
    | some t' =>
      obtain ⟨sens_value, key_ev, rfl⟩ := hmove.born ht ht'
      simp [patienceOf, Thread.patience, Thread.start, Thread.told, Thread.rank, ThreadPc.asking, ThreadPc.answered]

/-- A driver whose flag is positive answers that there is an event. -/
theorem answer_ready {dev dev' : Key → KeyDev} {who : Poller} {k : Key} {ready : Bool}
    (h : answer dev [.poll who k ready] = some dev') (hflag : 0 < (dev k).event_flag) : ready = true := by
  rcases answer_cons h with ⟨who', k', he, -⟩ | ⟨he, -⟩
  · obtain ⟨-, rfl, hready⟩ := Event.poll.inj he
    rw [hready, KeyDev.mask, if_pos hflag]
    decide
  · exact absurd ⟨who, k, ready, rfl⟩ he

/-- A step of a thread while the press is awaited. -/
theorem Awaits.thread {c : Clock} {x x' : Keyed} {n : Sens} {inp : Input} {b : Sens → Nat}
    (hasks : ∀ n t, x.s.th n = some t → t.Asks) (hm : x.s.g.mac_state = 1) (hne : inp ≠ .polled .error) (hw : Awaits x b)
    (h : keyStep c x (.act (.thread n inp)) = some x') : x'.s.g.mac_state = 2 ∨ Awaits x' (spend (some n) b) := by
  obtain ⟨evs, hs, hdev, -⟩ := keyStep_act h
  obtain ⟨t, t', -, ht, hst, hs'⟩ := step_thread hs
  have hth : x'.s.th = Function.update x.s.th n (some t') := by rw [hs']
  have hself : x'.s.th n = some t' := by rw [hth, Function.update_self]
  have hother : ∀ m, m ≠ n → x'.s.th m = x.s.th m := fun m hmn => by rw [hth, Function.update_of_ne hmn]
  by_cases hpoll : t.pc = .poll
  · obtain ⟨-, ready, rfl, hpc', htold⟩ := Thread.step_poll (hasks n t ht) hpoll hne hst
    right
    cases hw with
    | pending hflag hb =>
      -- this thread has taken the event
      have hready := answer_ready hdev hflag
      have hbn := hb n
      rw [ht] at hbn
      refine .told n t' hself (htold.trans hready) ?_
      rw [spend_self]
      simp [patienceOf, Thread.patience, Thread.rank, ThreadPc.asking, hpoll] at hbn
      simp [Thread.patience, htold, hready, Thread.rank, hpc']
      omega
    | told m u hu hutold hb =>
      have hmn : m ≠ n := by
        rintro rfl
        rw [ht, Option.some.injEq] at hu
        subst hu
        simp [Thread.told, ThreadPc.answered, hpoll] at hutold
      refine .told m u ((hother m hmn).trans hu) hutold ?_
      rwa [spend_other fun heq => hmn (Option.some.inj heq).symm]
  · rcases Thread.step_patience hpoll hm hst with h2 | ⟨hevs, hlt, htold⟩
    · exact Or.inl h2
    right
    have hsame : x'.dev = x.dev := answer_quiet hevs hdev
    cases hw with
    | pending hflag hb =>
      refine .pending (by rwa [hsame]) fun m => ?_
      by_cases hmn : m = n
      · subst hmn
        have hbm := hb m
        rw [ht] at hbm
        rw [hself, spend_self]
        simp only [patienceOf, Option.elim_some] at hbm ⊢
        omega
      · rw [hother m hmn, spend_other fun heq => hmn (Option.some.inj heq).symm]
        exact hb m
    | told m u hu hutold hb =>
      by_cases hmn : m = n
      · subst hmn
        rw [ht, Option.some.injEq] at hu
        subst hu
        refine .told m t' hself (htold hutold) ?_
        rw [spend_self]
        omega
      · refine .told m u ((hother m hmn).trans hu) hutold ?_
        rwa [spend_other fun heq => hmn (Option.some.inj heq).symm]

/-- A step of `main`, which polls no key here. -/
theorem Awaits.main {c : Clock} {x x' : Keyed} {inp : Input} {b : Sens → Nat} (hx : Inv x.s.ctl x.log)
    (hm : x.s.g.mac_state = 1) (hw : Awaits x b) (h : keyStep c x (.act (.main inp)) = some x') : Awaits x' b := by
  obtain ⟨evs, hs, hdev, -⟩ := keyStep_act h
  have hsame : x'.dev = x.dev := answer_quiet (hx.main_quiet hm hs) hdev
  cases hw with
  | pending hflag hb => exact .pending (by rwa [hsame]) fun n => (main_patience hx hs n).trans (hb n)
  | told n t ht htold hb => exact .told n t ((mainStep_move hs).frame hx ht) htold hb

/-- A key press leaves a positive flag positive. -/
theorem Awaits.press {c : Clock} {x x' : Keyed} {k : Key} {lev : Word} {b : Sens → Nat}
    (hflag : FlagOk .key2 x'.dev x'.hist) (hw : Awaits x b) (h : keyStep c x (.press k lev) = some x') : Awaits x' b := by
  rcases keyStep_press h with rfl | rfl
  · exact hw
  cases hw with
  | told n t ht htold hb => exact .told n t ht htold hb
  | pending hpos hb =>
    refine .pending ?_ hb
    by_cases hk : k = .key2
    · subst hk
      exact hflag.pos ⟨x.hist, [], rfl, fun _ _ => List.not_mem_nil⟩
    · simpa [Function.update_of_ne (Ne.symm hk)] using hpos

/-- Patience runs out only where the phase is over. -/
theorem Awaits.exists_pos {x : Keyed} {b : Sens → Nat} (hinv : Inv x.s.ctl x.log) (hm : x.s.g.mac_state ≠ 2)
    (hw : Awaits x b) : ∃ n, 0 < b n := by
  have hpos : ∀ n t, x.s.th n = some t → 0 < t.patience := by
    intro n t ht
    have hrank : 0 < t.rank := by
      by_contra hzero
      refine hm (hinv.ended n t ht ?_)
      obtain ⟨pc, sens_fd, sens_value, fir, sed, j, key_ev⟩ := t
      cases pc <;> simp [Thread.rank] at hzero
      rfl
    unfold Thread.patience
    split <;> omega
  cases hw with
  | told n t ht _ hb => exact ⟨n, Nat.lt_of_lt_of_le (hpos n t ht) hb⟩
  | pending _ hb =>
    refine ⟨.sens1, Nat.lt_of_lt_of_le ?_ (hb .sens1)⟩
    cases ht : x.s.th .sens1 with
    | none => decide
    | some t => exact hpos _ t ht

/-- The step lemma. -/
theorem Awaits.step {c : Clock} {x x' : Keyed} {a : KeyAct} {b : Sens → Nat} (hx : Reachable (keyStep c) KeyInit x)
    (hm : x.s.g.mac_state = 1) (hpoll : ∀ n, a ≠ .act (.thread n (.polled .error))) (hfew : Few .key2 x'.hist)
    (hw : Awaits x b) (h : keyStep c x a = some x') : x'.s.g.mac_state = 2 ∨ Awaits x' (spend a.actor b) := by
  cases a with
  | press k lev => exact Or.inr (hw.press (reachable_flagOk (hx.snoc h) .key2 hfew) h)
  | act a =>
    cases a with
    | main inp => exact Or.inr (hw.main (reachable_keyInv hx).prog hm h)
    | thread n inp => exact hw.thread (reachable_asks hx) hm (fun hinp => hpoll n (by rw [hinp])) h

theorem run_hist {c : Clock} {bs : List KeyAct} : ∀ {x x' : Keyed}, run (keyStep c) x bs = some x' →
    ∃ new, x'.hist = x.hist ++ new := by
  induction bs with
  | nil =>
    intro x x' h
    cases h
    exact ⟨[], by simp⟩
  | cons b bs ih =>
    intro x x' h
    obtain ⟨y, hy, h⟩ := run_cons.1 h
    obtain ⟨l, hl⟩ := keyStep_hist hy
    obtain ⟨l', hl'⟩ := ih h
    exact ⟨l ++ l', by rw [hl', hl, List.append_assoc]⟩

/-- In the coin phase and after it. -/
def Coining (c : Clock) (x : Keyed) : Prop := Reachable (keyStep c) KeyInit x ∧ x.s.g.mac_state ≠ 0

theorem Coining.step {c : Clock} {x x' : Keyed} {a : KeyAct} (hx : Coining c x) (h : keyStep c x a = some x') :
    Coining c x' ∧ (x.s.g.mac_state = 2 → x'.s.g.mac_state = 2) := by
  have hbegun := hx.2
  rcases keyStep_refines h with ⟨hs, -⟩ | ⟨a', ha⟩
  · exact ⟨⟨hx.1.snoc h, by rwa [hs]⟩, by rw [hs]; exact id⟩
  · have hmoves := mac_state_moves (reachable_keyInv hx.1).prog ha
    exact ⟨⟨hx.1.snoc h, by omega⟩, by omega⟩

theorem Coining.phase {c : Clock} {x : Keyed} (hx : Coining c x) : x.s.g.mac_state = 1 ∨ x.s.g.mac_state = 2 :=
  (reachable_keyInv hx.1).prog.range.resolve_left hx.2

/-- **A press of key 2 ends the coin phase** (`receive/test_mac.c:586-606`, `receive/key_driver2.c:28-54`). Key 2
was pressed and not polled since, in the coin phase. Whichever of the three threads gets the event, whatever
coins are inserted and keys pressed meanwhile, `mac_state` is 2 as soon as each thread has taken 60 statements:
where it is not, some thread has taken fewer. Each call of `key_poll` is one step. -/
theorem press_ends_phase (c : Clock) (x x' : Keyed) (bs : List KeyAct) (hx : Reachable (keyStep c) KeyInit x)
    (hm : x.s.g.mac_state = 1) (hpress : Fresh .key2 x.hist) (hrun : run (keyStep c) x bs = some x')
    (hpolls : ∀ n, KeyAct.act (.thread n (.polled .error)) ∉ bs) (hfew : Few .key2 x'.hist) :
    x'.s.g.mac_state = 2 ∨ ∃ n, moves KeyAct.actor n bs < 60 := by
  have hfirst : Awaits x fun _ => 60 := by
    obtain ⟨new, hnew⟩ := run_hist hrun
    refine .pending ((reachable_flagOk hx .key2 (hnew ▸ hfew).of_append).pos hpress) fun n => ?_
    cases x.s.th n with
    | none => simp [patienceOf]
    | some t => exact t.patience_le
  have hstep : ∀ y a y' b, Coining c y → (∀ n, a ≠ .act (.thread n (.polled .error))) →
      (Few .key2 y.hist → Awaits y b) → keyStep c y a = some y' →
        y'.s.g.mac_state = 2 ∨ (Few .key2 y'.hist → Awaits y' (spend a.actor b)) := by
    intro y a y' b hy hpoll hw hs
    rcases hy.phase with h1 | h2
    · by_cases hfew' : Few .key2 y'.hist
      · obtain ⟨new, hnew⟩ := keyStep_hist hs
        exact ((hw (hnew ▸ hfew').of_append).step hy.1 h1 hpoll hfew' hs).imp_right fun h _ => h
      · exact Or.inr fun h => absurd h hfew'
    · exact Or.inl ((hy.step hs).2 h2)
  have hend := run_spend KeyAct.actor (fun y a y' hy hs => (hy.step hs).1) (fun y a y' hy h2 hs => (hy.step hs).2 h2)
    hstep ⟨hx, by omega⟩ ?_ (Or.inr fun _ => hfirst) hrun
  · by_cases h2 : x'.s.g.mac_state = 2
    · exact Or.inl h2
    · right
      obtain ⟨n, hn⟩ := ((hend.resolve_left h2) hfew).exists_pos (reachable_keyInv (hx.append hrun)).prog h2
      exact ⟨n, by omega⟩
  · rintro a ha n rfl
    exact hpolls n ha

/-- Key 2 is pressed while `main` is about to turn the motor on, and the first thread finds it. -/
theorem press_ends_phase_first : ∃ c x x', Reachable (keyStep c) KeyInit x ∧ Fresh .key2 x.hist ∧
    run (keyStep c) x (endActions.map .act) = some x' ∧
    (x'.s.g.mac_state = 2 ∨ ∃ n, moves KeyAct.actor n (endActions.map .act) < 60) := by
  obtain ⟨x, x', hx, hrun, hm, hhist, hhist'⟩ : ∃ x x', run (keyStep .ticks)
        ⟨State.boot, fun _ => ⟨0, 0⟩, []⟩
        (openActions.map .act ++ [.press .key 0] ++ startActions.map .act ++ [.press .key2 0]) = some x ∧
      run (keyStep .ticks) x (endActions.map .act) = some x' ∧
      x.s.g.mac_state = 1 ∧
      x.hist = [.press .key, .ev (.poll .wait .key true), .ev (.macState 1), .ev (.create .sens1), .ev (.create .sens2),
        .ev (.create .sens3)] ++ .press .key2 :: [] ∧
      x'.hist = x.hist ++ [.ev (.poll (.thread .sens1) .key2 true), .ev (.macState 2)] := ⟨_, _, rfl, rfl, rfl, rfl, rfl⟩
  have hreach : Reachable (keyStep _) KeyInit x := ⟨_, _, ⟨boot_init, fun _ => rfl, rfl⟩, hx⟩
  have hfresh : Fresh .key2 x.hist := ⟨_, [], hhist, fun _ _ => List.not_mem_nil⟩
  refine ⟨_, x, x', hreach, hfresh, hrun, press_ends_phase _ x x' _ hreach hm hfresh hrun (by simp [endActions]) ?_⟩
  rw [Few, hhist', hhist]
  decide

end CoinMachine
