import CoinMachine.SinglePin
import CoinMachine.Lib.BlockCode
import CoinMachine.Lib.Transition
/-!
# The servo and its console (`test_svm.c`, `svm_driver.c`)

The console takes a character, drops the next, and passes the first to the driver, which moves the servo by four
pulses on line 2; the width of a pulse is the position. At the end of the input `scanf` stores nothing, and the
last character is passed again and again. `servo_tells` reads the pulses backwards: they are those of the letters
at the even places of the text, and no two texts of different letters have the same.

| here | there |
| --- | --- |
| `servoStep` | the loop of `main` (`test_svm.c:23-29`) |
| `PinCmd.svm` (`SinglePin`) | `svm_write` (`svm_driver.c:66-98`) |
-/

namespace CoinMachine

open Transition

/-! ## The line of a call -/

/-- A line as a servo sees it: its level and the time, at each delay. -/
def lineWave (pin : Nat) (tr : List (BusOp × Bus)) : List (Bool × Nat) :=
  tr.filterMap fun x =>
    match x.1 with
    | .udelay usecs => some (x.2.lines.getLsbD pin, usecs)
    | .store _ _ => none

/-- The wave that statements make on their own line. -/
def waveOf : Bool → List PinOp → List (Bool × Nat)
  | _, [] => []
  | _, .raise :: ops => waveOf true ops
  | _, .lower :: ops => waveOf false ops
  | level, .delay usecs :: ops => (level, usecs) :: waveOf level ops

/-- The own line follows the statements, whatever their reads return. -/
theorem lineWave_steps {pin : Nat} (hpin : pin < 32) (steps : List (PinOp × Word)) : ∀ b : Bus,
    lineWave pin (b.trace (steps.map fun x => x.1.store pin x.2)) =
      waveOf (b.lines.getLsbD pin) (steps.map Prod.fst) := by
  induction steps with
  | nil => exact fun _ => rfl
  | cons x steps ih =>
    intro b
    have hlevel := getLsbD_exec b pin x hpin
    have hrest := ih (b.exec (x.1.store pin x.2))
    obtain ⟨op, r⟩ := x
    cases op with
    | raise =>
      simp only [PinOp.level, Option.elim_some, or_true, if_true] at hlevel
      rw [hlevel] at hrest
      exact hrest
    | lower =>
      simp only [PinOp.level, Option.elim_some, or_true, if_true] at hlevel
      rw [hlevel] at hrest
      exact hrest
    | delay usecs =>
      simp only [PinOp.level, Option.elim_none] at hlevel
      rw [hlevel] at hrest
      exact congrArg₂ List.cons (congrArg (·, usecs) hlevel) hrest

/-! ## The letters -/

inductive ServoCmd where
  | c
  | l
  | r
deriving DecidableEq

/-- The characters that move the servo. -/
def ServoCmd.ofByte (v : Byte) : Option ServoCmd :=
  if v = 99 then some .c else if v = 108 then some .l else if v = 114 then some .r else none

/-- The width of a pulse and of the pause after it. -/
def ServoCmd.times : ServoCmd → Nat × Nat
  | .c => (1500, 18500)
  | .l => (2400, 18000)
  | .r => (300, 19000)

/-- Four pulses. -/
def ServoCmd.wave (m : ServoCmd) : List (Bool × Nat) :=
  (List.replicate 4 [(true, m.times.1), (false, m.times.2)]).flatten

theorem wave_svm (level : Bool) (v : Byte) :
    waveOf level (PinCmd.svm v).ops = (ServoCmd.ofByte v).elim [] ServoCmd.wave := by
  simp only [PinCmd.ops, ServoCmd.ofByte]
  by_cases hc : v = 99
  · simp only [if_pos hc]
    rfl
  by_cases hl : v = 108
  · simp only [if_neg hc, if_pos hl]
    rfl
  by_cases hr : v = 114
  · simp only [if_neg hc, if_neg hl, if_pos hr]
    rfl
  · simp only [if_neg hc, if_neg hl, if_neg hr]
    rfl

/-- The pulses tell the letters. -/
theorem waves_injective : Function.Injective (List.flatMap ServoCmd.wave) := by
  refine BlockCode.flatMap_code_injective (w := 8) (by omega) (fun m => by cases m <;> rfl) fun m m' h => ?_
  cases m <;> cases m' <;> simp [ServoCmd.wave, ServoCmd.times] at h ⊢

/-! ## The console -/

structure ServoConsole where
  data : Byte
  /-- what is typed and not yet read -/
  stdin : List Byte
  bus : Bus
  /-- the bytes passed to the driver -/
  written : List Byte
  /-- line 2 so far -/
  wave : List (Bool × Nat)

/-- One iteration, with the call of the driver that it makes; there is always a next one. -/
def servoStep (s : ServoConsole) (i : Issued) : Option ServoConsole :=
  let data := s.stdin.headD s.data
  if i.cmd = .svm data then
    some { data := data
           stdin := s.stdin.drop 2
           bus := s.bus.execAll i.busOps
           written := s.written ++ [data]
           wave := s.wave ++ lineWave 2 (s.bus.trace i.busOps) }
  else none

structure ServoInit (s : ServoConsole) : Prop where
  written : s.written = []
  wave : s.wave = []

/-- The characters at the even places. -/
def evens : List Byte → List Byte
  | [] => []
  | [a] => [a]
  | a :: _ :: text => a :: evens text

theorem lineWave_issued {i : Issued} {v : Byte} (hi : i.cmd = .svm v) (b : Bus) :
    lineWave 2 (b.trace i.busOps) = (ServoCmd.ofByte v).elim [] ServoCmd.wave := by
  have hwave := lineWave_steps i.cmd.pin_lt i.steps b
  rw [i.steps_ops, hi, wave_svm] at hwave
  rw [Issued.busOps, hi]
  exact hwave

/-- What `n` iterations pass to the driver: the characters at the even places, and then the last one again and again. -/
def typed (n : Nat) (data : Byte) (text : List Byte) : List Byte :=
  (evens text).take n ++ List.replicate (n - (evens text).length) ((evens text).getLast?.getD data)

theorem typed_succ (n : Nat) (data : Byte) (text : List Byte) :
    typed (n + 1) data text = text.headD data :: typed n (text.headD data) (text.drop 2) := by
  match text with
  | [] => simp [typed, evens, List.replicate_succ]
  | [a] => simp [typed, evens]
  | a :: _ :: text => simp [typed, evens, List.getLast?_cons, Nat.add_sub_add_right]

theorem servoStep_spec {s s' : ServoConsole} {i : Issued} (h : servoStep s i = some s') :
    s'.data = s.stdin.headD s.data ∧ s'.stdin = s.stdin.drop 2 ∧ s'.written = s.written ++ [s'.data] ∧
      s'.wave = s.wave ++ (ServoCmd.ofByte s'.data).elim [] ServoCmd.wave := by
  simp only [servoStep] at h
  split at h
  · rename_i hi
    cases h
    exact ⟨rfl, rfl, rfl, congrArg (s.wave ++ ·) (lineWave_issued hi s.bus)⟩
  · cases h

theorem servo_run {as : List Issued} : ∀ {s s' : ServoConsole}, run servoStep s as = some s' →
    s'.written = s.written ++ typed as.length s.data s.stdin ∧
    s'.wave = s.wave ++ ((typed as.length s.data s.stdin).filterMap ServoCmd.ofByte).flatMap ServoCmd.wave := by
  induction as with
  | nil =>
    intro s s' h
    cases h
    simp [typed]
  | cons i as ih =>
    intro s s' h
    obtain ⟨t, ht, h⟩ := run_cons.1 h
    obtain ⟨hdata, hstdin, hwritten, hwave⟩ := servoStep_spec ht
    obtain ⟨hwritten', hwave'⟩ := ih h
    rw [hdata] at hwritten hwave
    rw [hdata, hstdin] at hwritten' hwave'
    rw [List.length_cons, typed_succ]
    constructor
    · rw [hwritten', hwritten, List.append_assoc]
      rfl
    · rw [hwave', hwave, List.append_assoc]
      congr 1
      cases hcmd : ServoCmd.ofByte (s.stdin.headD s.data) with
      | none => rw [List.filterMap_cons_none hcmd]; rfl
      | some m => rw [List.filterMap_cons_some hcmd, List.flatMap_cons]; rfl

/-- **The servo tells what was typed.** For every text, however far the loop has got and whatever the reads of the
write-only registers return: the bytes passed to the driver are the characters at the even places of the text and then
the last of them again and again, line 2 has carried the four pulses of each c, l and r among them and nothing else,
and any run of the program with the same line was given the same letters. -/
theorem servo_tells (s₀ s t₀ t : ServoConsole) (as bs : List Issued) (hs₀ : ServoInit s₀) (ht₀ : ServoInit t₀)
    (hs : run servoStep s₀ as = some s) (ht : run servoStep t₀ bs = some t) :
    s.written = typed as.length s₀.data s₀.stdin ∧
    s.wave = (s.written.filterMap ServoCmd.ofByte).flatMap ServoCmd.wave ∧
    (s.wave = t.wave ↔ s.written.filterMap ServoCmd.ofByte = t.written.filterMap ServoCmd.ofByte) := by
  obtain ⟨hwritten, hwave⟩ := servo_run hs
  obtain ⟨hwritten', hwave'⟩ := servo_run ht
  rw [hs₀.written, List.nil_append] at hwritten
  rw [hs₀.wave, List.nil_append, ← hwritten] at hwave
  rw [ht₀.written, List.nil_append] at hwritten'
  rw [ht₀.wave, List.nil_append, ← hwritten'] at hwave'
  refine ⟨hwritten, hwave, ?_⟩
  rw [hwave, hwave']
  exact waves_injective.eq_iff

/-- The console with a text to be typed. -/
def ServoConsole.start (text : List Byte) : ServoConsole := ⟨0, text, ⟨fun _ => 0, 0⟩, [], []⟩

/-- `c` and `l`, each on a line of its own, against the two on one line: the second is dropped. -/
theorem servo_tells_lines : ∃ s t : ServoConsole, s.written = typed 2 0 [99, 10, 108, 10] ∧
    t.written = typed 2 0 [99, 108, 10] ∧ s.wave ≠ t.wave := by
  obtain ⟨s, hs⟩ : ∃ s, run servoStep (.start [99, 10, 108, 10])
      [(PinCmd.svm 99).on ⟨fun _ => 0, 0⟩, (PinCmd.svm 108).on ⟨fun _ => 0, 0⟩] = some s := ⟨_, rfl⟩
  obtain ⟨t, ht⟩ : ∃ t, run servoStep (.start [99, 108, 10])
      [(PinCmd.svm 99).on ⟨fun _ => 0, 0⟩, (PinCmd.svm 10).on ⟨fun _ => 0, 0⟩] = some t := ⟨_, rfl⟩
  obtain ⟨hwritten, -, hiff⟩ := servo_tells _ s _ t _ _ ⟨rfl, rfl⟩ ⟨rfl, rfl⟩ hs ht
  obtain ⟨hwritten', -, -⟩ := servo_tells _ t _ s _ _ ⟨rfl, rfl⟩ ⟨rfl, rfl⟩ ht hs
  refine ⟨s, t, hwritten, hwritten', fun heq => absurd (hiff.1 heq) ?_⟩
  rw [hwritten, hwritten']
  decide

end CoinMachine
