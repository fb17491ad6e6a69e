import CoinMachine.BoardLines
import CoinMachine.Progress
/-!
# The motor line over the processes

Line 9 stays at the level of the last command. `main` writes 1 to the motor in its coin phase and 0 after it, it never
checks whether the motor could be opened, and nobody else drives the line: so the motor runs only in the coin phase of a
process, and no process leaves it running (`motor_line`).
-/

namespace CoinMachine

open Transition

theorem lastMotor_append_silent {log evs : List Event} (h : ∀ e ∈ evs, e.motorByte = none) :
    lastMotor (log ++ evs) = lastMotor log := by
  have hnone : evs.filterMap Event.motorByte = [] := List.filterMap_eq_nil_iff.2 h
  rw [lastMotor, List.filterMap_append, hnone, List.append_nil, lastMotor]

theorem motorCall_own (v : Byte) (reg : Word) (b : Bus) :
    (b.execAll (motorCall v reg).busOps).lines.getLsbD 9 =
      if v = 1 then true else if v = 0 then false else b.lines.getLsbD 9 := by
  have hraise := getLsbD_exec b 9 (.raise, reg) (p := 9) (by decide)
  have hlower := getLsbD_exec b 9 (.lower, reg) (p := 9) (by decide)
  simp only [PinOp.level, Option.elim_some, or_true, if_true] at hraise hlower
  by_cases h1 : v = 1
  · subst h1
    exact hraise
  · by_cases h0 : v = 0
    · subst h0
      exact hlower
    · have hops : (motorCall v reg).busOps = [] := by
        simp only [Issued.busOps, motorCall, PinCmd.ops, if_neg h1, if_neg h0]
        rfl
      rw [hops, if_neg h1, if_neg h0, Bus.execAll_nil]

/-- Where `main` is when it leaves the region before the motor. -/
theorem mainStep_mot {c : Clock} {s s' : State} {inp : Input} {evs : List Event}
    (h : mainStep c s inp = some (s', evs)) :
    s'.main.mot_fd = (if s.main.pc = .openMot then inp.fd else s.main.mot_fd) ∧
    (s.main.pc.beforeMot → s'.main.pc.beforeMot ∨ s'.main.pc = .exited ∨ s.main.pc = .openMot) := by
  cases hpc : s.main.pc <;> cases inp <;> simp only [mainStep, hpc, reduceCtorEq] at h
  case openKey.opened k fd =>
    cases h
    cases k <;> simp [MainPc.afterOpen, MainPc.beforeMot, MainPc.region]
  case branch.none r =>
    obtain ⟨t, -, ht⟩ := Option.map_eq_some_iff.1 h
    cases ht
    simp [MainPc.beforeMot, MainPc.region]
  all_goals
    first
      | (cases h; simp [State.goto, Input.fd, MainPc.beforeMot, MainPc.region]; done)
      | (split at h <;> cases h <;> simp [State.goto, MainPc.beforeMot, MainPc.region])

/-- The byte for the motor is 1 until `main` has seen the end of the coin phase. -/
def MotorByte (x : Ctl) : Prop := x.mot_data = 1 ∨ x.region = .stopped ∨ x.region = .reporting ∨ x.region = .exited

theorem MotorByte.move {x y : Ctl} {evs : List Event} (hx : MotorByte x) (h : MainMove x y evs) : MotorByte y := by
  unfold MotorByte at hx ⊢
  cases h with
  | quiet => exact hx
  | setOff => simp
  | motorOff => simp
  | serve => simp
  | exit => simp
  | giveUp => simp
  | _ => exact Or.inl (by simpa using hx)

theorem MotorByte.thread {s s' : State} (hs : MotorByte s.ctl) (h : s'.main = s.main) : MotorByte s'.ctl := by
  simp only [MotorByte, State.ctl] at hs ⊢
  rwa [h]

/-- The motor line and its driver. -/
structure MotorInv (x : Board) : Prop where
  once : Once x
  byte : MotorByte x.s.ctl
  /-- nothing has been written before the open -/
  silent : x.s.main.pc.beforeMot → lastMotor x.log = none
  level : x.bus.lines.getLsbD 9 = true ↔ 0 ≤ x.s.main.mot_fd ∧ lastMotor x.log = some 1
  held : ¬ x.s.main.pc.beforeMot → x.s.main.pc ≠ .exited → 0 ≤ x.s.main.mot_fd → x.files.held .mot = true
  output : x.files.held .mot = true → pinField x.bus 9 = 1

theorem MotorInv.init {x : Board} (h : BoardInit x) (hlow : x.bus.lines.getLsbD 9 = false) : MotorInv x := by
  obtain ⟨hprog, hfiles, -, -⟩ := id h
  have hnone : lastMotor x.log = none := by
    rw [show x.log = [] from hprog.log]
    rfl
  refine ⟨.init h, Or.inl hprog.mot_data, fun _ => hnone, ?_, fun hpc => absurd ?_ hpc, fun hheld => ?_⟩
  · rw [hlow, hnone]
    simp
  · rw [hprog.pc]
    exact Or.inl rfl
  · rw [hfiles.held] at hheld
    cases hheld

/-- What is written to the motor is 1 at first and 0 at the end. -/
theorem MotorByte.command {s : State} {log : List Event} (hbyte : MotorByte s.ctl) (hx : Inv s.ctl log)
    (hpc : s.main.pc = .motorOn ∨ s.main.pc = .motorOff) : s.main.mot_data = if s.main.pc = .motorOn then 1 else 0 := by
  rcases hpc with hpc | hpc
  · simp only [MotorByte, State.ctl, hpc, MainPc.region, reduceCtorEq, or_false] at hbyte
    rw [if_pos hpc, hbyte]
  · have hmotor := hx.motor
    simp only [State.ctl, hpc, MainPc.region, Region.MotorOk] at hmotor
    rw [hpc, if_neg (by simp), hmotor]

theorem beforeMot_ne {pc : MainPc} (h : pc.beforeMot) : pc ≠ .motorOn ∧ pc ≠ .motorOff := by
  constructor <;> (rintro rfl; simp [MainPc.beforeMot, MainPc.region] at h)

/-- No frame reaches line 9. -/
theorem frames_line (vals : List Row) (b : Bus) :
    (b.execAll (vals.flatMap scanOut)).lines.getLsbD 9 = b.lines.getLsbD 9 :=
  frames_outside vals b 9 (by omega) (by omega)

/-- The motor line after a statement of `main` that is not the open. -/
theorem MotorInv.main_level {c : Clock} {x : Board} {s' : State} {inp : Input} {evs : List Event} (hx : MotorInv x)
    (h : mainStep c x.s inp = some (s', evs)) (hne : x.s.main.pc ≠ .openMot) (reg : Word) :
    (x.bus.execAll ((Action.main inp).busOps x.s s' reg)).lines.getLsbD 9 = true ↔
      0 ≤ s'.main.mot_fd ∧ lastMotor (x.log ++ evs) = some 1 := by
  rw [(mainStep_mot h).1, if_neg hne]
  generalize hops : (Action.main inp).busOps x.s s' reg = ops
  have hmove := hops ▸ mainStep_lines h reg
  clear hops
  cases hmove with
  | motor hpc _ =>
    rw [lastMotor_snoc]
    have hbyte := hx.byte.command hx.once.prog hpc
    by_cases hfd : 0 ≤ x.s.main.mot_fd
    · rw [if_pos hfd, motorCall_own, hbyte]
      by_cases hon : x.s.main.pc = .motorOn <;> simp [hon, hfd, Event.motorByte]
    · rw [if_neg hfd, Bus.execAll_nil, hx.level]
      simp [hfd]
  | blank k hpc hevs _ _ => rw [frames_line, lastMotor_append_silent hevs, hx.level]
  | report r hpc _ => rw [frames_line, List.append_nil, hx.level]

/-- A statement that is not a byte for the motor leaves the last one as it is. -/
theorem mainStep_silent {c : Clock} {s s' : State} {inp : Input} {evs : List Event}
    (h : mainStep c s inp = some (s', evs)) (hpc : s.main.pc ≠ .motorOn ∧ s.main.pc ≠ .motorOff) :
    ∀ e ∈ evs, e.motorByte = none := by
  have hmove := mainStep_lines h 0
  generalize (Action.main inp).busOps s s' 0 = ops at hmove
  cases hmove with
  | motor hor _ => exact absurd hor (by simp [hpc])
  | blank k _ hevs _ _ => exact hevs
  | report r _ _ => simp

theorem thread_silent {n : Sens} {g g' : Globals} {t t' : Thread} {inp : Input} {evs : List Event}
    (h : t.step n g inp = some (g', t', evs)) : ∀ e ∈ evs, e.motorByte = none := by
  have heff := (Thread.step_effect h).1
  cases heff with
  | quiet _ hpolls => exact fun e he => motorByte_of_isPoll (hpolls e he)
  | count => simp [Event.motorByte]
  | off => simp [Event.motorByte]

/-- While its file is open, pin 9 is an output. -/
theorem MotorInv.proc_output {c : Clock} {x x' : Board} {a : Action} {m : Meets} (hx : MotorInv x)
    (h : boardStep c x (.proc a m) = some x') (hheld : x'.files.held .mot = true) : pinField x'.bus 9 = 1 := by
  obtain ⟨hprog, ⟨d, hd, -, hopen, -⟩ | ⟨-, hbus, -⟩⟩ := boardStep_proc h
  · have hbus : (d.open m.avail x.files.kernel).2.bus = x'.bus := by rw [Board.bus, kernel_open hopen]
    by_cases hmot : d = .mot
    · subst hmot
      have hfree := hx.once.unopened _ (opens_unopened hd)
      obtain ⟨-, hsame⟩ := held_of_ret hopen
      have hret : 0 ≤ (Driver.mot.open m.avail x.files.kernel).1 := by
        by_contra hneg
        rw [hsame hneg, hfree] at hheld
        cases hheld
      rw [← hbus, pinField_open hret (by decide)]
      rfl
    · rw [held_open hopen fun heq => hmot heq.symm] at hheld
      exact pinField_keeps rfl hbus (by decide) (hx.output hheld)
  · obtain ⟨evs, hstep, -⟩ := logStep_step hprog
    have hops := busOps_onLines hstep m.reg
    have hfield := pinField_setBus (f := x.files) hops rfl 9
    rw [hbus] at hheld
    rw [Board.bus, hbus]
    exact hfield.trans (hx.output hheld)

theorem MotorInv.main {c : Clock} {x x' : Board} {inp : Input} {m : Meets} (hx : MotorInv x)
    (h : boardStep c x (.proc (.main inp) m) = some x') : MotorInv x' := by
  obtain ⟨hprog, hfiles⟩ := boardStep_proc h
  obtain ⟨evs, hstep, hevs⟩ := logStep_step hprog
  obtain ⟨hfd, hleave⟩ := mainStep_mot hstep
  refine ⟨hx.once.step h, hx.byte.move (mainStep_move hstep), fun hb => ?_, ?_, fun hb hexit hret => ?_, hx.proc_output h⟩
  · have hbefore := ((mainStep_unopened hstep).2.1 hb).1
    rw [hevs, lastMotor_append_silent (mainStep_silent hstep (beforeMot_ne hbefore)), hx.silent hbefore]
  · rcases hfiles with ⟨d, hd, -, hopen, -⟩ | ⟨hnone, hbus, -⟩
    · have hlines : x'.bus.lines = x.bus.lines := by
        rw [Board.bus, kernel_open hopen]
        exact lines_open d m.avail x.files.kernel
      have hpc : x.s.main.pc ≠ .motorOn ∧ x.s.main.pc ≠ .motorOff := by
        constructor <;> (intro hpc; simp [Action.opens, hpc] at hd)
      rw [hlines, hx.level, hevs, lastMotor_append_silent (mainStep_silent hstep hpc), hfd]
      by_cases hmot : x.s.main.pc = .openMot
      · rw [hx.silent (Or.inr (Or.inr hmot))]
        simp
      · rw [if_neg hmot]
    · have hmot : x.s.main.pc ≠ .openMot := by
        intro hpc
        simp [Action.opens, hpc] at hnone
      rw [hevs, ← hx.main_level hstep hmot m.reg, Board.bus, hbus]
      rfl
  · by_cases hbefore : x.s.main.pc.beforeMot
    · have hmot := ((hleave hbefore).resolve_left hb).resolve_left hexit
      rw [hfd, if_pos hmot] at hret
      rcases hfiles with ⟨d, hd, hiff, hopen, -⟩ | ⟨hnone, -⟩
      · simp only [Action.opens, hmot, Option.some.injEq] at hd
        subst hd
        exact (held_of_ret hopen).1 (hiff.1 hret)
      · simp [Action.opens, hmot] at hnone
    · have hmot : x.s.main.pc ≠ .openMot := fun hpc => hbefore (Or.inr (Or.inr hpc))
      have hpc : x.s.main.pc ≠ .exited := by
        intro hpc
        simp [CoinMachine.step, mainStep, hpc] at hstep
      rw [hfd, if_neg hmot] at hret
      have hheld := hx.held hbefore hpc hret
      rcases hfiles with ⟨d, hd, -, hopen, -⟩ | ⟨-, hbus, -⟩
      · rw [held_open hopen]
        · exact hheld
        · rintro rfl
          exact hbefore (opens_unopened hd)
      · rw [hbus]
        exact hheld

theorem MotorInv.thread {c : Clock} {x x' : Board} {n : Sens} {inp : Input} {m : Meets} (hx : MotorInv x)
    (h : boardStep c x (.proc (.thread n inp) m) = some x') : MotorInv x' := by
  obtain ⟨hprog, hfiles⟩ := boardStep_proc h
  obtain ⟨evs, hstep, hevs⟩ := logStep_step hprog
  obtain ⟨t, t', -, -, hst, hs⟩ := step_thread hstep
  have hmain : x'.s.main = x.s.main := by rw [hs]
  have hlog : lastMotor x'.log = lastMotor x.log := by rw [hevs, lastMotor_append_silent (thread_silent hst)]
  have hlines : x'.bus.lines = x.bus.lines := by
    rcases hfiles with ⟨d, -, -, hopen, -⟩ | ⟨-, hbus, -⟩
    · rw [Board.bus, kernel_open hopen]
      exact lines_open d m.avail x.files.kernel
    · rw [Board.bus, hbus]
      rfl
  refine ⟨hx.once.step h, hx.byte.thread hmain, by rw [hmain, hlog]; exact hx.silent,
    by rw [hlines, hmain, hlog]; exact hx.level, ?_, hx.proc_output h⟩
  · rw [hmain]
    intro hb hexit hret
    have hheld := hx.held hb hexit hret
    rcases hfiles with ⟨d, hd, -, hopen, -⟩ | ⟨-, hbus, -⟩
    · rw [held_open hopen]
      · exact hheld
      · rintro rfl
        exact hb (opens_unopened hd)
    · rw [hbus]
      exact hheld

/-- The step lemma. -/
theorem MotorInv.step {c : Clock} {x x' : Board} {b : BoardAct} (hx : MotorInv x) (h : boardStep c x b = some x') :
    MotorInv x' := by
  cases b with
  | proc a m =>
    cases a with
    | main inp => exact hx.main h
    | thread n inp => exact hx.thread h
  | close d =>
    obtain ⟨hcloses, hrel, hs, hlog, -⟩ := boardStep_close h
    have hbus : x'.bus = x.bus := by
      obtain ⟨-, hf⟩ := fileStep_release hrel
      rw [Board.bus, hf]
      exact bus_release d x.files.kernel
    refine ⟨hx.once.step h, hs ▸ hx.byte, by rw [hs, hlog]; exact hx.silent, by rw [hbus, hs, hlog]; exact hx.level, ?_, ?_⟩
    · rw [hs]
      intro hb hexit hret
      -- before the end of the process only keys are closed
      have hne : Driver.mot ≠ d := by
        rintro rfl
        revert hcloses hexit
        cases x.s.main.pc <;> simp [MainPc.closes]
      obtain ⟨-, hf⟩ := fileStep_release hrel
      rw [hf]
      exact (Function.update_of_ne hne ..).trans (hx.held hb hexit hret)
    · intro hheld
      rw [hbus]
      refine hx.output ?_
      by_contra hfree
      rw [held_release hrel (by simpa using hfree)] at hheld
      cases hheld
  | exec m =>
    obtain ⟨hexit, hheld, rfl⟩ := boardStep_exec h
    have hoff : lastMotor x.log ≠ some 1 := by
      have hmotor := hx.once.prog.motor
      simpa only [State.ctl, hexit, MainPc.region, Region.MotorOk] using hmotor
    have hlow : ¬ x.bus.lines.getLsbD 9 = true := fun hhigh => hoff (hx.level.1 hhigh).2
    refine ⟨hx.once.step h, Or.inl rfl, fun _ => rfl, iff_of_false hlow (by simp [lastMotor]),
      fun hb => absurd (Or.inl rfl) hb, ?_⟩
    intro hmot
    rw [hheld] at hmot
    cases hmot
  | lines L =>
    obtain ⟨hkeep, rfl⟩ := boardStep_lines h
    refine ⟨hx.once.step h, hx.byte, hx.silent, ?_, hx.held, hx.output⟩
    rw [← hx.level, ← hkeep 9 (by decide) rfl]
    rfl

/-- **The motor runs in coin phases only.** In any sequence of processes on the drivers, each with any schedule and any
answers, and whatever the reads of the set and clear registers return: if line 9 is low at first, it is high in a state
exactly if the process that runs has the motor open and 1 is the last byte it has written to it. Pin 9 is then an
output, key 1 has started the coin phase, and the report phase and the end of the process are still to come. -/
theorem motor_line (c : Clock) (x₀ x : Board) (as : List BoardAct) (h₀ : BoardInit x₀)
    (hlow : x₀.bus.lines.getLsbD 9 = false) (h : run (boardStep c) x₀ as = some x) :
    (x.bus.lines.getLsbD 9 = true ↔ 0 ≤ x.s.main.mot_fd ∧ lastMotor x.log = some 1) ∧
    (x.bus.lines.getLsbD 9 = true → pinField x.bus 9 = 1 ∧ .macState 1 ∈ x.log ∧ ¬ Settled x.s) := by
  have hx : MotorInv x := run_invariant (fun _ _ _ hp => hp.step) (MotorInv.init h₀ hlow) h
  refine ⟨hx.level, fun hhigh => ?_⟩
  obtain ⟨hfd, hone⟩ := hx.level.1 hhigh
  have hset : ¬ Settled x.s := fun hset => (hx.once.prog.atRest (x := (x.s, x.log)) hset).2 hone
  have hbefore : ¬ x.s.main.pc.beforeMot := by
    intro hb
    rw [hx.silent hb] at hone
    cases hone
  have hexit : x.s.main.pc ≠ .exited := by
    intro hpc
    exact hset (Or.inr (by rw [hpc]; rfl))
  refine ⟨hx.output (hx.held hbefore hexit hfd), ?_, hset⟩
  -- the byte was written after the start
  have hmem : Event.motor 1 ∈ x.log := by
    obtain ⟨e, he, hbyte⟩ := List.mem_filterMap.1 (List.mem_of_getLast? hone)
    cases e <;> simp only [Event.motorByte, reduceCtorEq, Option.some.injEq] at hbyte
    rwa [← hbyte]
  obtain ⟨pre, post, heq⟩ := List.append_of_mem hmem
  rw [heq]
  exact List.mem_append_left _ (hx.once.prog.good pre _ post heq rfl).1

/-- The program up to the three threads, with everything granted, and the byte for the motor. -/
theorem motor_line_on : ∃ x, run (boardStep .ticks) .boot
      (bootActions.map (fun a => .proc a ⟨⟨true, 0⟩, 0⟩) ++ [.proc (.main .none) ⟨⟨true, 0⟩, 0⟩]) = some x ∧
    x.bus.lines.getLsbD 9 = true ∧ pinField x.bus 9 = 1 := by
  obtain ⟨x, hx, hfd, hone⟩ : ∃ x, run (boardStep .ticks) .boot
      (bootActions.map (fun a => .proc a ⟨⟨true, 0⟩, 0⟩) ++ [.proc (.main .none) ⟨⟨true, 0⟩, 0⟩]) = some x ∧
      x.s.main.mot_fd = 4 ∧ lastMotor x.log = some 1 := ⟨_, rfl, rfl, rfl⟩
  obtain ⟨hlevel, hhigh⟩ := motor_line .ticks .boot x _ boardInit_boot rfl hx
  have hon := hlevel.2 ⟨by omega, hone⟩
  exact ⟨x, hx, hon, (hhigh hon).1⟩

end CoinMachine
