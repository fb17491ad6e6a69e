import CoinMachine.LedDriver
/-!
# The write handlers and what they do with a partial copy

Every handler copies from user space, compares the result with zero and goes on. `copy_from_user` returns the
number of bytes it has *not* copied, so the comparison never finds an error: after a failed copy a handler
drives its lines from the zeros that `copy_from_user` leaves in place of the missing bytes, and reports success.

| here | there |
| --- | --- |
| `dotWrite` (`DotDriver`)   | `dot_write` (`receive/dot_driver.c:60`) |
| `motorWrite`               | `motor_write` (`receive/mot_driver.c:49`) |
| `keyWrite`                 | `key_write` (`receive/key_driver.c:114` and its copies) |
| `svmWrite`                 | `svm_write` (`svm_driver.c:52`) |
| `ledWrite` (`LedDriver`)   | `led_write` (`led_driver.c:78`) |
| `codeLedWrite`             | `led_write` (`code/led/led_driver.c:50`) |
| `codeFndWrite`             | `fnd_write` (`code/fnd/fnd_driver.c:55`) |
| `codeKeyWrite`             | `key_write` (`code/key/key_driver.c:119`) |

A handler that reads, ors and stores a set or clear register stores what it has read with the bit in it.
-/

namespace CoinMachine

/-! ## The handlers -/

def motorOps (b : Bus) (tmp_buf : Byte) : List BusOp :=
  (if tmp_buf = 1 then [.store 7 (b.regs 7 ||| 0x1 <<< 9)] else []) ++
  if tmp_buf = 0 then [.store 10 (b.regs 10 ||| 0x1 <<< 9)] else []

def motorWrite (b : Bus) (tmp_buf : Byte) (length uncopied : Nat) : Option Handled :=
  writeByte (fun v => some (motorOps b v)) tmp_buf length uncopied

/-- The key drivers of `receive/` print the byte and touch no register. -/
def keyWrite (tmp_buf : Byte) (length uncopied : Nat) : Option Handled :=
  writeByte (fun _ => some []) tmp_buf length uncopied

/-- The lamp on line 17, on for 0. -/
def lampOps (b : Bus) (tmp_buf : Byte) : List BusOp :=
  if tmp_buf = 0 then [.store 7 (b.regs 7 ||| 0x1 <<< 17)] else [.store 10 (b.regs 10 ||| 0x1 <<< 17)]

def codeLedWrite (b : Bus) (tmp_buf : Byte) (length uncopied : Nat) : Option Handled :=
  writeByte (fun v => some (lampOps b v)) tmp_buf length uncopied

def codeKeyWrite (b : Bus) (tmp_buf : Byte) (length uncopied : Nat) : Option Handled :=
  writeByte (fun v => some (lampOps b v)) tmp_buf length uncopied

def fndOps (tmp_buf : Byte) : List BusOp := [.store 10 (0xFF#32 <<< 10), .store 7 (tmp_buf.setWidth 32 <<< 10)]

def codeFndWrite (tmp_buf : Byte) (length uncopied : Nat) : Option Handled :=
  writeByte (fun v => some (fndOps v)) tmp_buf length uncopied

/-- Four pulses on line 2 (`svm_driver.c:69-74`); `usleep_range` is a delay. -/
def svmPulses (b : Bus) (high low : Nat) : List BusOp :=
  (List.replicate 4 [.store 7 (b.regs 7 ||| 0x1 <<< 2), .udelay high, .store 10 (b.regs 10 ||| 0x1 <<< 2), .udelay low]).flatten

/-- `result` is a `char` here, and only `q` is followed by a `return`. -/
def svmWrite (b : Bus) (tmp_buf : Byte) (length uncopied : Nat) : Handled :=
  let result : Int := (toChar uncopied).toNat
  if result < 0 then ⟨some result, []⟩
  else if tmp_buf = 99 then ⟨none, svmPulses b 1500 18500⟩
  else if tmp_buf = 108 then ⟨none, svmPulses b 2400 18000⟩
  else if tmp_buf = 114 then ⟨none, svmPulses b 300 19000⟩
  else if tmp_buf = 113 then ⟨some (wrap length), []⟩
  else ⟨none, []⟩

/-! ## Calls -/

inductive Handler where
  | dot
  | motor
  | key (n : Key)
  | svm
  | led
  | codeLed
  | codeFnd
  | codeKey
deriving DecidableEq

/-- The size of the local buffer. -/
def Handler.limit : Handler → Nat
  | .dot => 8
  | _ => 1

/-- The first byte of a local buffer after `copy_from_user`: a copy of no bytes leaves it alone, any other puts the first
byte from the user there, or a zero if it could not get it. -/
def copiedByte (garbage first : Byte) (length uncopied : Nat) : Byte :=
  if length = 0 then garbage else if uncopied < length then first else 0

/-- A call with a length within the local buffer, and what the copy does: it leaves the last `uncopied` bytes
out, and what it copies is there. -/
structure WriteCall (limit : Nat) where
  /-- user memory at the pointer -/
  gdata : Nat → Option Byte
  /-- what the local buffer holds before the copy -/
  garbage : Byte
  length : Nat
  uncopied : Nat
  length_le : length ≤ limit
  uncopied_le : uncopied ≤ length
  copied : ∀ i < length - uncopied, (gdata i).isSome

/-- The local byte after the copy. -/
def WriteCall.tmpBuf {limit : Nat} (c : WriteCall limit) : Byte :=
  copiedByte c.garbage ((c.gdata 0).getD 0) c.length c.uncopied

def Handler.run (h : Handler) (b : Bus) (c : WriteCall h.limit) : Option Handled :=
  match h with
  | .dot => (dotWrite c.gdata c.length c.uncopied).map fun w => ⟨some w.ret, w.ops⟩
  | .motor => motorWrite b c.tmpBuf c.length c.uncopied
  | .key _ => keyWrite c.tmpBuf c.length c.uncopied
  | .svm => some (svmWrite b c.tmpBuf c.length c.uncopied)
  | .led => ledWrite c.tmpBuf c.length c.uncopied
  | .codeLed => codeLedWrite b c.tmpBuf c.length c.uncopied
  | .codeFnd => codeFndWrite c.tmpBuf c.length c.uncopied
  | .codeKey => codeKeyWrite b c.tmpBuf c.length c.uncopied

def BusOp.isStore : BusOp → Bool
  | .store _ _ => true
  | .udelay _ => false

/-- All or nothing: an incomplete copy stores to no register and returns a negative value, a complete one
returns the length. -/
structure AllOrNothing (h : Handler) (b : Bus) (c : WriteCall h.limit) : Prop where
  nothing : 0 < c.uncopied → ∃ w, h.run b c = some w ∧ (∀ op ∈ w.ops, op.isStore = false) ∧ ∃ r, w.ret = some r ∧ r < 0
  all : c.uncopied = 0 → ∃ w, h.run b c = some w ∧ w.ret = some c.length

/-- What a handler needs beside a complete copy: `svm_write` the byte `q`, `dot_write` eight bytes at the user
pointer, and the scanning `led_write` a value in its tables. -/
def Handler.Serves (h : Handler) (c : WriteCall h.limit) : Prop :=
  match h with
  | .dot => ∀ i < 8, (c.gdata i).isSome
  | .svm => c.tmpBuf = 113
  | .led => c.tmpBuf.toNat ≤ 18
  | _ => True

/-- The copy fails, the motor is switched off, and the caller is told that one byte was written. -/
theorem motor_runs_uncopied : ¬ ∀ (h : Handler) (b : Bus) (c : WriteCall h.limit), AllOrNothing h b c := by
  intro hclaim
  obtain ⟨w, hw, -, r, hr, hneg⟩ := (hclaim .motor ⟨fun _ => 0, 0⟩
    ⟨fun _ => none, 1, 1, 1, Nat.le_refl 1, Nat.le_refl 1, fun i hi => nomatch hi⟩).nothing (by decide)
  cases hw
  cases hr
  exact absurd hneg (by decide)

/-! ## What a call returns -/

theorem loadRow_isSome (gdata : Nat → Option Byte) : (loadRow gdata).isSome ↔ ∀ i < 8, (gdata i).isSome := by
  constructor
  · intro h
    obtain ⟨row, hrow⟩ := Option.isSome_iff_exists.1 h
    simp only [loadRow, Option.bind_eq_bind, Option.bind_eq_some_iff] at hrow
    obtain ⟨b0, h0, b1, h1, b2, h2, b3, h3, b4, h4, b5, h5, b6, h6, b7, h7, -⟩ := hrow
    intro i hi
    have hcases : i = 0 ∨ i = 1 ∨ i = 2 ∨ i = 3 ∨ i = 4 ∨ i = 5 ∨ i = 6 ∨ i = 7 := by omega
    rcases hcases with rfl | rfl | rfl | rfl | rfl | rfl | rfl | rfl <;> simp [*]
  · intro h
    have hget : ∀ i < 8, ∃ b, gdata i = some b := fun i hi => Option.isSome_iff_exists.1 (h i hi)
    obtain ⟨b0, h0⟩ := hget 0 (by decide)
    obtain ⟨b1, h1⟩ := hget 1 (by decide)
    obtain ⟨b2, h2⟩ := hget 2 (by decide)
    obtain ⟨b3, h3⟩ := hget 3 (by decide)
    obtain ⟨b4, h4⟩ := hget 4 (by decide)
    obtain ⟨b5, h5⟩ := hget 5 (by decide)
    obtain ⟨b6, h6⟩ := hget 6 (by decide)
    obtain ⟨b7, h7⟩ := hget 7 (by decide)
    simp [loadRow, h0, h1, h2, h3, h4, h5, h6, h7]

theorem ledOps_isSome (v : Byte) : (ledOps v).isSome ↔ v.toNat ≤ 18 := by
  unfold ledOps
  split
  · by_cases hg : v.toNat % 10 < 9
    · rw [Vector.getElem?_eq_getElem hg]
      exact ⟨fun _ => by omega, fun _ => rfl⟩
    · rw [Vector.getElem?_eq_none (by omega)]
      exact ⟨fun h => Bool.noConfusion h, fun h => by omega⟩
  · by_cases hd : v.toNat < 10
    · rw [Vector.getElem?_eq_getElem hd]
      exact ⟨fun _ => by omega, fun _ => rfl⟩
    · rw [Vector.getElem?_eq_none (by omega)]
      exact ⟨fun h => Bool.noConfusion h, fun h => by omega⟩

/-- What a call answers: never an error, and the length exactly under the condition `p`. -/
structure Answers (r : Option Handled) (length : Nat) (p : Prop) : Prop where
  ret : ∀ w x, r = some w → w.ret = some x → x = length
  served : (∃ w, r = some w ∧ w.ret = some (length : Int)) ↔ p

theorem Answers.map {α : Type} (r : Option α) (ops : α → List BusOp) (length : Nat) :
    Answers (r.map fun x => ⟨some length, ops x⟩) length r.isSome := by
  constructor
  · intro w x hw hx
    obtain ⟨y, -, rfl⟩ := Option.map_eq_some_iff.1 hw
    exact (Option.some.inj hx).symm
  · cases r <;> simp

theorem Answers.of_iff {r : Option Handled} {length : Nat} {p q : Prop} (h : Answers r length p) (hpq : p ↔ q) :
    Answers r length q := ⟨h.ret, h.served.trans hpq⟩

theorem writeByte_answers {length uncopied : Nat} (hlen : length ≤ 8) (hun : uncopied ≤ length)
    (body : Byte → Option (List BusOp)) (v : Byte) :
    Answers (writeByte body v length uncopied) length (body v).isSome := by
  rw [writeByte_eq hlen hun]
  exact .map (body v) id length

theorem dotWrite_answers (gdata : Nat → Option Byte) {length uncopied : Nat} (hlen : length ≤ 8) (hun : uncopied ≤ length) :
    Answers ((dotWrite gdata length uncopied).map fun w => ⟨some w.ret, w.ops⟩) length (∀ i < 8, (gdata i).isSome) := by
  have hcall : (dotWrite gdata length uncopied).map (fun w => (⟨some w.ret, w.ops⟩ : Handled)) =
      (loadRow gdata).map fun val => ⟨some length, scanOut val⟩ := by
    rw [dotWrite, wrap_id (by omega) (by omega), if_neg (by omega), wrap_id (by omega) (by omega)]
    cases loadRow gdata <;> rfl
  rw [hcall]
  exact (Answers.map (loadRow gdata) scanOut length).of_iff (loadRow_isSome gdata)

/-- `svm_write` reaches a `return` for `q` only. -/
theorem svmWrite_ret (b : Bus) (v : Byte) {length : Nat} (hlen : length ≤ 8) (uncopied : Nat) :
    (svmWrite b v length uncopied).ret = if v = 113 then some (length : Int) else none := by
  have hnot : ¬ ((toChar uncopied).toNat : Int) < 0 := by omega
  unfold svmWrite
  rw [if_neg hnot, wrap_id (by omega) (by omega)]
  split
  · rename_i hc
    rw [hc]
    rfl
  split
  · rename_i hl
    rw [hl]
    rfl
  split
  · rename_i hr
    rw [hr]
    rfl
  split <;> rfl

theorem svmWrite_answers (b : Bus) (v : Byte) {length : Nat} (hlen : length ≤ 8) (uncopied : Nat) :
    Answers (some (svmWrite b v length uncopied)) length (v = 113) := by
  have hret := svmWrite_ret b v hlen uncopied
  constructor
  · rintro w x hw hx
    obtain rfl := Option.some.inj hw
    rw [hret] at hx
    split at hx
    · exact (Option.some.inj hx).symm
    · cases hx
  · simp [hret]

/-- No handler ever returns an error, and it returns the length exactly if it gets what it needs. -/
theorem Handler.run_answers (h : Handler) (b : Bus) (c : WriteCall h.limit) :
    Answers (h.run b c) c.length (h.Serves c) := by
  have hun := c.uncopied_le
  have hlen : c.length ≤ 8 := by
    have hlimit := c.length_le
    cases h <;> (simp only [Handler.limit] at hlimit; omega)
  cases h <;> simp only [Handler.run, Handler.Serves]
  case dot => exact dotWrite_answers c.gdata hlen hun
  case svm => exact svmWrite_answers b c.tmpBuf hlen c.uncopied
  case led => exact (writeByte_answers hlen hun ledOps c.tmpBuf).of_iff (ledOps_isSome c.tmpBuf)
  -- the others have no table to leave
  all_goals
    simp only [motorWrite, keyWrite, codeLedWrite, codeFndWrite, codeKeyWrite]
    exact (writeByte_answers hlen hun _ c.tmpBuf).of_iff ⟨fun _ => trivial, fun _ => rfl⟩

/-- **When a write handler is all-or-nothing.** For every handler, every length within its local buffer, every
user content and every outcome of the copy: exactly if the copy is complete and the handler gets what it
needs. After an incomplete copy none of them is. -/
theorem all_or_nothing_iff (h : Handler) (b : Bus) (c : WriteCall h.limit) :
    AllOrNothing h b c ↔ c.uncopied = 0 ∧ h.Serves c := by
  have hanswers := h.run_answers b c
  constructor
  · intro hall
    have hzero : c.uncopied = 0 := by
      by_contra hne
      obtain ⟨w, hw, -, r, hr, hneg⟩ := hall.nothing (Nat.pos_of_ne_zero hne)
      rw [hanswers.ret w r hw hr] at hneg
      omega
    exact ⟨hzero, hanswers.served.1 (hall.all hzero)⟩
  · rintro ⟨hzero, hserves⟩
    exact ⟨fun hpos => absurd hzero (Nat.ne_of_gt hpos), fun _ => hanswers.served.2 hserves⟩

end CoinMachine
