import CoinMachine.WriteHandlers
/-!
# Commands to a single pin

Four handlers drive one line each, by `*(p + 7) |= (0x1 << pin)` and `*(p + 10) |= (0x1 << pin)`. Both words are
write-only: what a read of them returns is not defined, and every 1 that is written is a command to its line.
So a command stores whatever it has read, with its own bit in it. A call takes the values that its reads
return as inputs (`Issued`).

| here | there |
| --- | --- |
| `PinCmd.motor`    | `motor_write` (`receive/mot_driver.c:63-64`), pin 9 |
| `PinCmd.codeLed`  | `led_write` (`code/led/led_driver.c:65-68`), pin 17 |
| `PinCmd.codeKey`  | `key_write` (`code/key/key_driver.c:134-137`), pin 17 |
| `PinCmd.svm`      | `svm_write` (`svm_driver.c:68-93`), pin 2 |
-/

namespace CoinMachine

/-! ## Commands -/

inductive PinOp where
  /-- `*(p + 7) |= (0x1 << pin)` -/
  | raise
  /-- `*(p + 10) |= (0x1 << pin)` -/
  | lower
  | delay (usecs : Nat)
deriving DecidableEq

/-- A command with the byte it was given. -/
inductive PinCmd where
  | motor (v : Byte)
  | codeLed (v : Byte)
  | codeKey (v : Byte)
  | svm (v : Byte)
deriving DecidableEq

namespace PinCmd

def pin : PinCmd → Nat
  | motor _ => 9
  | codeLed _ => 17
  | codeKey _ => 17
  | svm _ => 2

def pulses (high low : Nat) : List PinOp := (List.replicate 4 [.raise, .delay high, .lower, .delay low]).flatten

def ops : PinCmd → List PinOp
  | motor v => (if v = 1 then [.raise] else []) ++ if v = 0 then [.lower] else []
  | codeLed v => if v = 0 then [.raise] else [.lower]
  | codeKey v => if v = 0 then [.raise] else [.lower]
  | svm v =>
    if v = 99 then pulses 1500 18500
    else if v = 108 then pulses 2400 18000
    else if v = 114 then pulses 300 19000
    else []

end PinCmd

/-- The level that a statement is to give its line. -/
def PinOp.level : PinOp → Option Bool
  | raise => some true
  | lower => some false
  | delay _ => none

/-- The store of a statement whose read has returned `r`. -/
def PinOp.store (pin : Nat) (r : Word) : PinOp → BusOp
  | raise => .store 7 (r ||| 0x1 <<< pin)
  | lower => .store 10 (r ||| 0x1 <<< pin)
  | delay usecs => .udelay usecs

/-- A call: the statements of the command, each with the value that its read has returned. -/
structure Issued where
  cmd : PinCmd
  steps : List (PinOp × Word)
  steps_ops : steps.map Prod.fst = cmd.ops

def Issued.busOps (i : Issued) : List BusOp := i.steps.map fun x => x.1.store i.cmd.pin x.2

/-- What a read returns where the registers hold the last word stored to them. -/
def PinOp.read (b : Bus) : PinOp → Word
  | raise => b.regs 7
  | lower => b.regs 10
  | delay _ => 0

/-- The call as the handlers make it on the bank `b`. -/
def PinCmd.on (c : PinCmd) (b : Bus) : Issued where
  cmd := c
  steps := c.ops.map fun op => (op, op.read b)
  steps_ops := by rw [List.map_map]; exact List.map_id _

theorem busOps_on (c : PinCmd) (b : Bus) : (c.on b).busOps = c.ops.map fun op => op.store c.pin (op.read b) := by
  rw [Issued.busOps, PinCmd.on, List.map_map]
  rfl

theorem motorOps_eq (b : Bus) (v : Byte) : motorOps b v = ((PinCmd.motor v).on b).busOps := by
  rw [busOps_on, motorOps, PinCmd.ops, List.map_append]
  congr 1
  all_goals split <;> rfl

theorem lampOps_eq (b : Bus) (v : Byte) :
    lampOps b v = ((PinCmd.codeLed v).on b).busOps ∧ lampOps b v = ((PinCmd.codeKey v).on b).busOps := by
  rw [busOps_on, busOps_on, lampOps, PinCmd.ops, PinCmd.ops]
  constructor
  all_goals split <;> rfl

theorem svmWrite_ops (b : Bus) (v : Byte) (length uncopied : Nat) :
    (svmWrite b v length uncopied).ops = ((PinCmd.svm v).on b).busOps := by
  have hnot : ¬ ((toChar uncopied).toNat : Int) < 0 := by omega
  rw [busOps_on, svmWrite, PinCmd.ops]
  rw [if_neg hnot]
  split
  · rfl
  split
  · rfl
  split
  · rfl
  split <;> rfl

/-! ## What a command is meant to do -/

/-- The levels of the own line after each statement. -/
def commanded : Bool → List PinOp → List Bool
  | _, [] => []
  | before, op :: ops => op.level.getD before :: commanded (op.level.getD before) ops

/-- No line but `pin` differs. -/
def SameBut (pin : Nat) (L L' : Word) : Prop := ∀ p, p ≠ pin → L'.getLsbD p = L.getLsbD p

/-- After every statement of the command the own line is at the commanded level, and the others are where they
were before it. -/
structure OwnPinOnly (i : Issued) (b : Bus) : Prop where
  own : (b.trace i.busOps).map (fun x => x.2.lines.getLsbD i.cmd.pin) = commanded (b.lines.getLsbD i.cmd.pin) i.cmd.ops
  others : ∀ x ∈ b.trace i.busOps, SameBut i.cmd.pin b.lines x.2.lines

/-- Beside the own bit, the value that was read names only lines that are already at the level of the command. -/
def Harmless (pin : Nat) (L : Word) (x : PinOp × Word) : Prop :=
  ∀ level, x.1.level = some level → ∀ p, p ≠ pin → x.2.getLsbD p = true → L.getLsbD p = level

/-- The motor is switched on with all lines low, and the read returns bit 10: the matrix gets a column. -/
theorem motor_raises_column : ¬ ∀ (i : Issued) (b : Bus), OwnPinOnly i b := by
  intro hclaim
  have hsame := (hclaim ⟨.motor 1, [(.raise, 0x400)], rfl⟩ ⟨fun _ => 0, 0⟩).others _ List.mem_cons_self 10 (by decide)
  exact absurd hsame (by decide)

/-! ## One statement -/

theorem getLsbD_ownBit (pin : Nat) {p : Nat} (hp : p < 32) :
    ((0x1 <<< pin : Nat) : Word).getLsbD p = decide (pin = p) := by
  show (BitVec.ofNat 32 (1 <<< pin)).getLsbD p = _
  rw [BitVec.getLsbD_ofNat, Nat.one_shiftLeft, Nat.testBit_two_pow, decide_eq_true hp, Bool.true_and]

/-- The level of a line after one statement. -/
theorem getLsbD_exec (b : Bus) (pin : Nat) (x : PinOp × Word) {p : Nat} (hp : p < 32) :
    (b.exec (x.1.store pin x.2)).lines.getLsbD p =
      x.1.level.elim (b.lines.getLsbD p) fun level =>
        if x.2.getLsbD p = true ∨ pin = p then level else b.lines.getLsbD p := by
  obtain ⟨op, r⟩ := x
  cases op with
  | raise =>
    simp only [PinOp.store, PinOp.level, Bus.exec, Bus.lines_set, BitVec.getLsbD_or, getLsbD_ownBit pin hp, Option.elim]
    by_cases h : pin = p <;> cases r.getLsbD p <;> simp [h]
  | lower =>
    simp only [PinOp.store, PinOp.level, Bus.exec, Bus.lines_clr, BitVec.getLsbD_and, BitVec.getLsbD_not,
      BitVec.getLsbD_or, getLsbD_ownBit pin hp, Option.elim]
    by_cases h : pin = p <;> cases r.getLsbD p <;> simp [h, hp]
  | delay usecs => rfl

/-- Nothing beyond the 32 lines. -/
theorem sameBut_iff {pin : Nat} {L L' : Word} :
    SameBut pin L L' ↔ ∀ p < 32, p ≠ pin → L'.getLsbD p = L.getLsbD p := by
  refine ⟨fun h p _ hne => h p hne, fun h p hne => ?_⟩
  by_cases hp : p < 32
  · exact h p hp hne
  · rw [BitVec.getLsbD_of_ge _ p (by omega), BitVec.getLsbD_of_ge _ p (by omega)]

/-- The step lemma: while the other lines are as in `L`, a statement leaves them so exactly if it is harmless. -/
theorem sameBut_exec {pin : Nat} {L : Word} {b : Bus} (hb : SameBut pin L b.lines) (x : PinOp × Word) :
    SameBut pin L (b.exec (x.1.store pin x.2)).lines ↔ Harmless pin L x := by
  rw [sameBut_iff]
  constructor
  · intro h level hlevel p hne hr
    have hp : p < 32 := by
      by_contra hge
      rw [BitVec.getLsbD_of_ge _ p (by omega)] at hr
      cases hr
    have hbit := h p hp hne
    rw [getLsbD_exec b pin x hp, hlevel, Option.elim_some, if_pos (Or.inl hr)] at hbit
    exact hbit.symm
  · intro h p hp hne
    rw [getLsbD_exec b pin x hp]
    cases hlevel : x.1.level with
    | none => exact hb p hne
    | some level =>
      rw [Option.elim_some]
      split
      · rename_i hset
        exact (h level hlevel p hne (hset.resolve_right (Ne.symm hne))).symm
      · exact hb p hne

/-! ## One command, and any sequence of them -/

theorem sameBut_trace {pin : Nat} {L : Word} (steps : List (PinOp × Word)) : ∀ {b : Bus}, SameBut pin L b.lines →
    ((∀ y ∈ b.trace (steps.map fun x => x.1.store pin x.2), SameBut pin L y.2.lines) ↔ ∀ x ∈ steps, Harmless pin L x) := by
  induction steps with
  | nil =>
    intro b _
    simp [Bus.trace]
  | cons x steps ih =>
    intro b hb
    rw [List.map_cons, Bus.trace, List.forall_mem_cons, List.forall_mem_cons, sameBut_exec hb x]
    refine and_congr_right fun hx => ?_
    exact ih ((sameBut_exec hb x).2 hx)

/-- The own line always follows the command. -/
theorem own_trace {pin : Nat} (hpin : pin < 32) (steps : List (PinOp × Word)) : ∀ b : Bus,
    (b.trace (steps.map fun x => x.1.store pin x.2)).map (fun y => y.2.lines.getLsbD pin) =
      commanded (b.lines.getLsbD pin) (steps.map Prod.fst) := by
  induction steps with
  | nil => exact fun b => rfl
  | cons x steps ih =>
    intro b
    have hlevel : (b.exec (x.1.store pin x.2)).lines.getLsbD pin = x.1.level.getD (b.lines.getLsbD pin) := by
      rw [getLsbD_exec b pin x hpin]
      cases x.1.level with
      | none => rfl
      | some level => exact if_pos (Or.inr rfl)
    rw [List.map_cons, Bus.trace, List.map_cons, List.map_cons, commanded, ih, hlevel]

theorem PinCmd.pin_lt (c : PinCmd) : c.pin < 32 := by cases c <;> simp [PinCmd.pin]

theorem ownPinOnly_iff (i : Issued) (b : Bus) : OwnPinOnly i b ↔ ∀ x ∈ i.steps, Harmless i.cmd.pin b.lines x := by
  have hsame : SameBut i.cmd.pin b.lines b.lines := fun _ _ => rfl
  constructor
  · intro h
    exact (sameBut_trace i.steps hsame).1 h.others
  · intro h
    refine ⟨?_, (sameBut_trace i.steps hsame).2 h⟩
    rw [Issued.busOps, own_trace i.cmd.pin_lt, i.steps_ops]

/-- Line 9 is none of the matrix. -/
theorem SameBut.matrix {L L' : Word} (h : SameBut 9 L L') : rowLines L' = rowLines L ∧ colLines L' = colLines L := by
  constructor
  all_goals
    apply BitVec.eq_of_getLsbD_eq
    intro j hj
    simp only [rowLines, colLines, BitField.get, BitVec.getLsbD_extractLsb']
    rw [h _ (by omega)]

/-- A harmless motor command, in the middle of a frame or between two, leaves rows and columns as they are. -/
theorem motor_spares_matrix {i : Issued} {v : Byte} (hi : i.cmd = .motor v) {b : Bus}
    (h : ∀ x ∈ i.steps, Harmless 9 b.lines x) {y : BusOp × Bus} (hy : y ∈ b.trace i.busOps) :
    rowLines y.2.lines = rowLines b.lines ∧ colLines y.2.lines = colLines b.lines := by
  have hpin : i.cmd.pin = 9 := by rw [hi]; rfl
  have hown : OwnPinOnly i b := (ownPinOnly_iff i b).2 (hpin ▸ h)
  exact SameBut.matrix (hpin ▸ hown.others y hy)

/-- What the drivers do to the shared bank, call by call: a command to a single pin, or a frame of the matrix. -/
inductive BankCall where
  | pin (i : Issued)
  | matrix (val : Row)

def BankCall.ops : BankCall → List BusOp
  | pin i => i.busOps
  | matrix val => scanOut val

/-- The bank after a sequence of calls. -/
def Bus.calls (b : Bus) (cs : List BankCall) : Bus := b.execAll (cs.flatMap BankCall.ops)

/-- **When single-pin commands change only their own pin.** In any sequence of commands and matrix frames, on any
lines and whatever the reads return: every command drives its line to the commanded levels and leaves all
others as it found them, exactly if beside its own bit every value that was read names only lines that the
command found at the level in question. -/
theorem own_pin_only_iff (b : Bus) (cs : List BankCall) :
    (∀ pre i post, cs = pre ++ .pin i :: post → OwnPinOnly i (b.calls pre)) ↔
    ∀ pre i post, cs = pre ++ .pin i :: post → ∀ x ∈ i.steps, Harmless i.cmd.pin (b.calls pre).lines x := by
  constructor
  · intro h pre i post heq
    exact (ownPinOnly_iff i _).1 (h pre i post heq)
  · intro h pre i post heq
    exact (ownPinOnly_iff i _).2 (h pre i post heq)

end CoinMachine
