import CoinMachine.KeyOpen
import CoinMachine.SinglePin
/-!
# The key with a lamp (`code/key/test_key.c`, `code/key/key_driver.c`)

One key, one lamp, and a loop that polls for a second: it prints the number of presses and switches the lamp on when
there was an interrupt, and off when there was none. The handler of the driver runs between any two
statements, also between the poll, which clears the flag, and the reading of the number.

| here | there |
| --- | --- |
| `lampStep`, `.interrupt` | `ind_interrupt_handler` (`key_driver.c:28-41`), `codeKeyHandler` |
| `lampStep`, `.main`      | the loop of `main` (`test_key.c:28-58`) |
| poll, read and write     | `key_poll` (`key_driver.c:43-54`), `key_read` (`:104-117`), `key_write` (`:119-140`) |
-/

namespace CoinMachine

open Transition EventLog

inductive LampLine where
  /-- `[APP] LED Off!!` -/
  | off
  /-- `[APP] KEY: %d` -/
  | key (v : Byte)
  | pollError
deriving DecidableEq

inductive LampEvent where
  /-- a run of the handler; `down` is the level that it has found -/
  | handler (down : Bool)
  /-- a scan of `poll` -/
  | polled
  | line (l : LampLine)
deriving DecidableEq

/-- The statement that comes next. -/
inductive LampPc where
  | fill
  | poll
  | testError
  | testTimeout
  | writeOff
  | testEvent
  | writeOn
  | read
  | print
  | sleep
  | exited
deriving DecidableEq

structure KeyLamp where
  pc : LampPc
  retval : Int
  /-- `events[0].revents & POLLIN` -/
  revents : Bool
  led_onoff : Byte
  key : Byte
  dev : KeyDev
  bus : Bus
  hist : List LampEvent

inductive LampAct where
  /-- `lev` is what the handler reads from `GPLEV0` -/
  | interrupt (lev : Word)
  /-- the next statement; `reg` is what a read of a write-only register returns, and `ok` whether `poll` succeeds -/
  | main (reg : Word) (ok : Bool)

/-- `key_write` of one byte. -/
def KeyLamp.write (s : KeyLamp) (reg : Word) : Bus :=
  s.bus.execAll ((PinCmd.codeKey s.led_onoff).ops.map (PinOp.store 17 reg))

def lampStep (s : KeyLamp) : LampAct → Option KeyLamp
  | .interrupt lev =>
    if s.pc = .exited then none
    else some { s with dev := codeKeyHandler lev s.dev, hist := s.hist ++ [.handler (lev &&& (1 <<< 27) = 0)] }
  | .main reg ok =>
    match s.pc with
    | .fill => some { s with pc := .poll }
    | .poll =>
      if ok then
        some { s with
          pc := .testError
          retval := if s.dev.mask &&& POLLIN = 0 then 0 else 1
          revents := decide (s.dev.mask &&& POLLIN ≠ 0)
          dev := s.dev.clear
          hist := s.hist ++ [.polled] }
      else some { s with pc := .testError, retval := -1 }
    | .testError =>
      if s.retval < 0 then some { s with pc := .exited, hist := s.hist ++ [.line .pollError] }
      else some { s with pc := .testTimeout }
    | .testTimeout =>
      if s.retval = 0 then some { s with pc := .writeOff, led_onoff := 1, hist := s.hist ++ [.line .off] }
      else some { s with pc := .testEvent }
    | .writeOff => some { s with pc := .testEvent, bus := s.write reg }
    | .testEvent =>
      if s.revents then some { s with pc := .writeOn, led_onoff := 0 }
      else some { s with pc := .fill }
    | .writeOn => some { s with pc := .read, bus := s.write reg }
    | .read => some { s with pc := .print, key := s.dev.tmp_buf }
    | .print => some { s with pc := .sleep, hist := s.hist ++ [.line (.key s.key)] }
    | .sleep => some { s with pc := .fill }
    | .exited => none

/-- The driver has just been loaded, and `main` has opened it. -/
structure LampInit (s : KeyLamp) : Prop where
  pc : s.pc = .fill
  dev : s.dev = ⟨0, 0⟩
  hist : s.hist = []

/-! ## What is seen -/

def LampEvent.line? : LampEvent → Option LampLine
  | .line l => some l
  | _ => none

def LampLine.number : LampLine → Option Byte
  | .key v => some v
  | _ => none

def LampEvent.isRun : LampEvent → Bool
  | .handler _ => true
  | _ => false

/-- The console. -/
def outOf (hist : List LampEvent) : List LampLine := hist.filterMap LampEvent.line?

/-- The number on the last line that has one. -/
def shownOf (hist : List LampEvent) : Byte := ((outOf hist).filterMap LampLine.number).getLast?.getD 0

/-- The runs of the handler that have found the key down. -/
def pressesOf (hist : List LampEvent) : Nat := hist.count (.handler true)

def runsOf (hist : List LampEvent) : Nat := hist.countP LampEvent.isRun

/-- There was an interrupt since the last poll. -/
def Rung (hist : List LampEvent) : Prop := Since (fun e => LampEvent.isRun e = true) (fun e => e = .polled) hist

def KeyLamp.lamp (s : KeyLamp) : Bool := s.bus.lines.getLsbD 17

/-- The lamp is on exactly if the last line is about the key. -/
def KeyLamp.LampFits (s : KeyLamp) : Prop :=
  ∀ l, (outOf s.hist).getLast? = some l → (s.lamp = true ↔ ∃ v, l = .key v)

section Hist
variable (hist : List LampEvent)

@[simp] theorem outOf_line (l : LampLine) : outOf (hist ++ [.line l]) = outOf hist ++ [l] := by
  simp [outOf, LampEvent.line?]

@[simp] theorem outOf_polled : outOf (hist ++ [.polled]) = outOf hist := by
  simp [outOf, LampEvent.line?]

@[simp] theorem outOf_handler (down : Bool) : outOf (hist ++ [.handler down]) = outOf hist := by
  simp [outOf, LampEvent.line?]

@[simp] theorem shownOf_key (v : Byte) : shownOf (hist ++ [.line (.key v)]) = v := by
  simp [shownOf, LampLine.number]

@[simp] theorem shownOf_off : shownOf (hist ++ [.line .off]) = shownOf hist := by
  simp [shownOf, LampLine.number]

@[simp] theorem shownOf_polled : shownOf (hist ++ [.polled]) = shownOf hist := by
  simp [shownOf]

@[simp] theorem pressesOf_handler (down : Bool) :
    pressesOf (hist ++ [.handler down]) = pressesOf hist + if down then 1 else 0 := by
  unfold pressesOf
  cases down <;> simp [List.count_append]

@[simp] theorem pressesOf_line (l : LampLine) : pressesOf (hist ++ [.line l]) = pressesOf hist := by
  simp [pressesOf, List.count_append]

@[simp] theorem pressesOf_polled : pressesOf (hist ++ [.polled]) = pressesOf hist := by
  simp [pressesOf, List.count_append]

@[simp] theorem runsOf_handler (down : Bool) : runsOf (hist ++ [.handler down]) = runsOf hist + 1 := by
  simp [runsOf, LampEvent.isRun]

@[simp] theorem runsOf_line (l : LampLine) : runsOf (hist ++ [.line l]) = runsOf hist := by
  simp [runsOf, LampEvent.isRun]

@[simp] theorem runsOf_polled : runsOf (hist ++ [.polled]) = runsOf hist := by
  simp [runsOf, LampEvent.isRun]

@[simp] theorem rung_handler (down : Bool) : Rung (hist ++ [.handler down]) := since_snoc.2 (Or.inl rfl)

@[simp] theorem rung_line (l : LampLine) : Rung (hist ++ [.line l]) ↔ Rung hist := by
  simp [Rung, since_snoc, LampEvent.isRun]

@[simp] theorem not_rung_polled : ¬ Rung (hist ++ [.polled]) := by
  simp [Rung, since_snoc, LampEvent.isRun]

end Hist

/-! ## What each step does to it -/

theorem codeKeyHandler_flag (lev : Word) (d : KeyDev) :
    (codeKeyHandler lev d).event_flag = wrap (d.event_flag + 1) := by
  simp only [codeKeyHandler]
  split <;> rfl

theorem codeKeyHandler_count (lev : Word) (d : KeyDev) :
    (codeKeyHandler lev d).tmp_buf = d.tmp_buf + if lev &&& (1 <<< 27) = 0 then 1 else 0 := by
  by_cases h : lev &&& (1 <<< 27) = 0
  · simp only [codeKeyHandler, if_pos h, if_true]
  · simp only [codeKeyHandler, if_neg h, one_ne_zero, if_false]
    exact (BitVec.add_zero _).symm

/-- The flag is positive exactly if the poll finds an event. -/
theorem mask_eq_zero (d : KeyDev) : d.mask &&& POLLIN = 0 ↔ ¬ 0 < d.event_flag := by
  unfold KeyDev.mask
  split <;> simp_all [POLLIN, POLLRDNORM]

/-- Whatever the read returns, the lamp follows the byte. -/
theorem lamp_write (s : KeyLamp) (reg : Word) : (s.write reg).lines.getLsbD 17 = decide (s.led_onoff = 0) := by
  have hone : ∀ op : PinOp, ∀ level, op.level = some level →
      (s.bus.exec (op.store 17 reg)).lines.getLsbD 17 = level := by
    intro op level hlevel
    have hbit := getLsbD_exec s.bus 17 (op, reg) (p := 17) (by decide)
    simp only [hlevel, Option.elim_some, or_true, if_true] at hbit
    exact hbit
  unfold KeyLamp.write
  by_cases h : s.led_onoff = 0
  · simp only [PinCmd.ops, if_pos h, List.map_cons, List.map_nil, Bus.execAll_cons, Bus.execAll_nil,
      hone .raise true rfl, decide_eq_true h]
  · simp only [PinCmd.ops, if_neg h, List.map_cons, List.map_nil, Bus.execAll_cons, Bus.execAll_nil,
      hone .lower false rfl, decide_eq_false h]

/-! ## The invariant -/

/-- The number that the console shows, or is about to; there is none while an interrupt has been seen whose number has
not been read yet. -/
def KeyLamp.view (s : KeyLamp) : Option Byte :=
  match s.pc with
  | .testError | .testTimeout | .writeOff | .testEvent => if s.revents then none else some (shownOf s.hist)
  | .writeOn | .read | .exited => none
  | .print => some s.key
  | .fill | .poll | .sleep => some (shownOf s.hist)

/-- The lamp before each statement. -/
def KeyLamp.LampOk (s : KeyLamp) : Prop :=
  match s.pc with
  | .writeOff => s.led_onoff = 1 ∧ (outOf s.hist).getLast? = some .off
  | .writeOn => s.led_onoff = 0
  | .read | .print => s.lamp = true
  | .exited => True
  | .fill | .poll | .testError | .testTimeout | .testEvent | .sleep => s.LampFits

structure LampInv (s : KeyLamp) : Prop where
  count : s.dev.tmp_buf = BitVec.ofNat 8 (pressesOf s.hist)
  nonneg : runsOf s.hist < 2147483648 → 0 ≤ s.dev.event_flag ∧ s.dev.event_flag ≤ runsOf s.hist
  rung : runsOf s.hist < 2147483648 → (0 < s.dev.event_flag ↔ Rung s.hist)
  view : runsOf s.hist < 2147483648 → ¬ Rung s.hist → ∀ v, s.view = some v → v = s.dev.tmp_buf
  lamp : s.LampOk

theorem LampInv.init {s : KeyLamp} (h : LampInit s) : LampInv s := by
  have hnot : ¬ Rung s.hist := by rw [h.hist]; exact not_since_nil
  refine ⟨?_, fun _ => ?_, fun _ => ?_, fun _ _ v hv => ?_, ?_⟩
  · rw [h.dev, h.hist]
    rfl
  · rw [h.dev]
    exact ⟨Int.le_refl 0, Int.natCast_nonneg _⟩
  · rw [h.dev]
    exact ⟨fun hlt => absurd hlt (Int.lt_irrefl 0), fun hr => absurd hr hnot⟩
  · simp only [KeyLamp.view, h.pc, h.hist, Option.some.injEq] at hv
    rw [← hv, h.dev]
    rfl
  · simp [KeyLamp.LampOk, KeyLamp.LampFits, h.pc, h.hist, outOf]

/-- The handler can run before any statement. -/
theorem LampInv.interrupt {s : KeyLamp} (hs : LampInv s) (lev : Word) :
    LampInv { s with dev := codeKeyHandler lev s.dev, hist := s.hist ++ [.handler (lev &&& (1 <<< 27) = 0)] } := by
  refine ⟨?_, fun hfew => ?_, fun hfew => ?_, fun _ hr => absurd (rung_handler _ _) hr, ?_⟩
  · simp only [codeKeyHandler_count, hs.count, pressesOf_handler, decide_eq_true_eq]
    by_cases h : lev &&& (1 <<< 27) = 0
    · rw [if_pos h, if_pos h]
      exact (BitVec.ofNat_add _ _).symm
    · rw [if_neg h, if_neg h]
      exact BitVec.add_zero _
  · rw [runsOf_handler] at hfew ⊢
    obtain ⟨h0, hle⟩ := hs.nonneg (by omega)
    rw [codeKeyHandler_flag, wrap_id (by omega) (by omega)]
    omega
  · rw [runsOf_handler] at hfew
    obtain ⟨h0, hle⟩ := hs.nonneg (by omega)
    rw [codeKeyHandler_flag, wrap_id (by omega) (by omega)]
    exact iff_of_true (by omega) (rung_handler _ _)
  · have hlamp := hs.lamp
    cases hpc : s.pc <;> simp only [KeyLamp.LampOk, KeyLamp.LampFits, KeyLamp.lamp, hpc, outOf_handler] at hlamp ⊢
    all_goals exact hlamp

/-- The statements that leave the driver and the history alone. -/
theorem LampInv.quiet {s s' : KeyLamp} (hs : LampInv s) (hdev : s'.dev = s.dev) (hhist : s'.hist = s.hist)
    (hview : ∀ v, s'.view = some v → s.view = some v ∨ v = s.dev.tmp_buf) (hlamp : s'.LampOk) : LampInv s' := by
  refine ⟨?_, ?_, ?_, ?_, hlamp⟩
  all_goals rw [hdev, hhist]
  · exact hs.count
  · exact hs.nonneg
  · exact hs.rung
  · intro hfew hr v hv
    exact (hview v hv).elim (hs.view hfew hr v) id

/-- A line of the console. -/
theorem LampInv.line {s s' : KeyLamp} (hs : LampInv s) {l : LampLine} (hdev : s'.dev = s.dev)
    (hhist : s'.hist = s.hist ++ [.line l]) (hview : ∀ v, s'.view = some v → s.view = some v) (hlamp : s'.LampOk) :
    LampInv s' := by
  refine ⟨?_, ?_, ?_, ?_, hlamp⟩
  all_goals simp only [hdev, hhist, pressesOf_line, runsOf_line, rung_line]
  · exact hs.count
  · exact hs.nonneg
  · exact hs.rung
  · exact fun hfew hr v hv => hs.view hfew hr v (hview v hv)

/-- The poll takes what there is to show from the flag to `revents`. -/
theorem LampInv.poll {s : KeyLamp} (hs : LampInv s) (hpc : s.pc = .poll) :
    LampInv { s with
      pc := .testError
      retval := if s.dev.mask &&& POLLIN = 0 then 0 else 1
      revents := decide (s.dev.mask &&& POLLIN ≠ 0)
      dev := s.dev.clear
      hist := s.hist ++ [.polled] } := by
  have hlamp := hs.lamp
  simp only [KeyLamp.LampOk, hpc] at hlamp
  constructor
  · rw [pressesOf_polled]
    exact hs.count
  · exact fun _ => ⟨Int.le_refl 0, Int.natCast_nonneg _⟩
  · exact fun _ => iff_of_false (Int.lt_irrefl 0) (not_rung_polled _)
  · intro hfew _ v hv
    rw [runsOf_polled] at hfew
    simp only [KeyLamp.view, shownOf_polled] at hv
    split at hv
    · cases hv
    · rename_i hnone
      simp only [decide_eq_true_eq, not_not, mask_eq_zero] at hnone
      refine hs.view hfew (fun hr => hnone ((hs.rung hfew).2 hr)) v ?_
      simpa [KeyLamp.view, hpc] using hv
  · simpa [KeyLamp.LampOk, KeyLamp.LampFits, KeyLamp.lamp] using hlamp

theorem LampInv.main {s s' : KeyLamp} {reg : Word} {ok : Bool} (hs : LampInv s)
    (h : lampStep s (.main reg ok) = some s') : LampInv s' := by
  have hlamp := hs.lamp
  cases hpc : s.pc <;> simp only [lampStep, hpc, reduceCtorEq] at h
  all_goals simp only [KeyLamp.LampOk, hpc] at hlamp
  case fill | sleep =>
    cases h
    exact hs.quiet rfl rfl (fun v hv => Or.inl (by simpa [KeyLamp.view, hpc] using hv)) hlamp
  case poll =>
    split at h <;> cases h
    · exact hs.poll hpc
    · refine hs.quiet rfl rfl (fun v hv => Or.inl ?_) hlamp
      simp only [KeyLamp.view, hpc] at hv ⊢
      split at hv
      · cases hv
      · exact hv
  case testError =>
    split at h <;> cases h
    · exact hs.line rfl rfl (fun v hv => by cases hv) trivial
    · exact hs.quiet rfl rfl (fun v hv => Or.inl (by simpa [KeyLamp.view, hpc] using hv)) hlamp
  case testTimeout =>
    split at h <;> cases h
    · refine hs.line rfl rfl (fun v hv => by simpa [KeyLamp.view, hpc] using hv) ?_
      simp [KeyLamp.LampOk]
    · exact hs.quiet rfl rfl (fun v hv => Or.inl (by simpa [KeyLamp.view, hpc] using hv)) hlamp
  case writeOff =>
    cases h
    refine hs.quiet rfl rfl (fun v hv => Or.inl (by simpa [KeyLamp.view, hpc] using hv)) ?_
    intro l hl
    obtain ⟨hled, hlast⟩ := hlamp
    have heq : LampLine.off = l := Option.some.inj (hlast.symm.trans hl)
    subst heq
    refine iff_of_false ?_ (by simp)
    rw [KeyLamp.lamp, lamp_write, hled]
    decide
  case testEvent =>
    split at h <;> cases h
    · exact hs.quiet rfl rfl (fun v hv => by cases hv) rfl
    · rename_i hrev
      exact hs.quiet rfl rfl (fun v hv => Or.inl (by simpa [KeyLamp.view, hpc, hrev] using hv)) hlamp
  case writeOn =>
    cases h
    refine hs.quiet rfl rfl (fun v hv => by cases hv) ?_
    simp [KeyLamp.LampOk, KeyLamp.lamp, lamp_write, hlamp]
  case read =>
    cases h
    exact hs.quiet rfl rfl (fun v hv => Or.inr (Option.some.inj hv).symm) hlamp
  case print =>
    cases h
    refine hs.line rfl rfl (fun v hv => by simpa [KeyLamp.view, hpc] using hv) ?_
    intro l hl
    simp only [outOf_line, List.getLast?_append, List.getLast?_singleton, Option.some_or, Option.some.injEq] at hl
    exact iff_of_true hlamp ⟨s.key, hl.symm⟩

theorem reachable_lampInv {s : KeyLamp} (h : Reachable lampStep LampInit s) : LampInv s := by
  refine h.invariant (fun _ => .init) fun s a s' hs hstep => ?_
  cases a with
  | interrupt lev =>
    simp only [lampStep] at hstep
    split at hstep <;> cases hstep
    exact hs.interrupt lev
  | main reg ok => exact hs.main hstep

/-- **What the key console shows.** However the interrupts fall between the statements, before each poll: the lamp is on
exactly if the last line is about the key; the poll will report an event exactly if there was an interrupt since the
last one; and if there was none, the number on the last line that has one is the number of presses since the driver
was loaded, modulo 256, so that none of them is left unshown. -/
theorem key_lamp_shows (s : KeyLamp) (h : Reachable lampStep LampInit s) (hpc : s.pc = .fill) :
    (∀ l, (outOf s.hist).getLast? = some l → (s.lamp = true ↔ ∃ v, l = .key v)) ∧
    (runsOf s.hist < 2147483648 → (s.dev.mask &&& POLLIN ≠ 0 ↔ Rung s.hist) ∧
      (¬ Rung s.hist → shownOf s.hist = BitVec.ofNat 8 (pressesOf s.hist))) := by
  have hs := reachable_lampInv h
  constructor
  · have hlamp := hs.lamp
    simp only [KeyLamp.LampOk, hpc] at hlamp
    exact hlamp
  · intro hfew
    constructor
    · rw [← hs.rung hfew, ne_eq, mask_eq_zero, not_not]
    · intro hr
      rw [← hs.count]
      exact hs.view hfew hr _ (by simp only [KeyLamp.view, hpc])

def KeyLamp.loaded : KeyLamp := ⟨.fill, 0, false, 0, 0, ⟨0, 0⟩, ⟨fun _ => 0, 0⟩, []⟩

/-- One press, while the program waits for it. -/
def onePress : List LampAct := [.main 0 true, .interrupt 0] ++ List.replicate 8 (.main 0 true)

theorem key_lamp_shows_one : ∃ s, Reachable lampStep LampInit s ∧ outOf s.hist = [.key 1] ∧ s.lamp = true ∧
    shownOf s.hist = BitVec.ofNat 8 (pressesOf s.hist) := by
  obtain ⟨s, hrun, hpc, hhist⟩ : ∃ s, run lampStep .loaded onePress = some s ∧ s.pc = .fill ∧
      s.hist = [.handler true] ++ [.polled] ++ [.line (.key 1)] := ⟨_, rfl, rfl, rfl⟩
  have hreach : Reachable lampStep LampInit s := ⟨.loaded, onePress, ⟨rfl, rfl, rfl⟩, hrun⟩
  have hout : outOf s.hist = [.key 1] := by rw [hhist]; rfl
  have hrung : ¬ Rung s.hist := by
    rw [hhist, rung_line]
    exact not_rung_polled _
  obtain ⟨hlamp, hpoll⟩ := key_lamp_shows s hreach hpc
  refine ⟨s, hreach, hout, (hlamp (.key 1) (by rw [hout]; rfl)).2 ⟨1, rfl⟩, (hpoll ?_).2 hrung⟩
  rw [hhist]
  decide

end CoinMachine
