import CoinMachine.Lib.BitField
import CoinMachine.CMem
import Mathlib.Logic.Function.Basic
/-!
# The GPIO register bank the drivers share

Every driver maps the same bank and addresses it by 32-bit words: `GPFSEL0`–`GPFSEL2` are words 0–2,
`GPSET0` is word 7, `GPCLR0` word 10, `GPLEV0` word 13 and `GPFEN0` word 22. A store to `GPSET0` raises
the lines of its 1-bits, a store to `GPCLR0` lowers them; every other register just holds the word.
-/

namespace CoinMachine

abbrev Word := BitVec 32

/-- The bank: its plain registers and the levels of the lines 0–31. -/
structure Bus where
  regs : Nat → Word
  lines : Word

def Bus.store (b : Bus) (word : Nat) (v : Word) : Bus :=
  if word = 7 then { b with lines := b.lines ||| v }
  else if word = 10 then { b with lines := b.lines &&& ~~~v }
  else { b with regs := Function.update b.regs word v }

/-- What a handler does to the bank, in program order. -/
inductive BusOp where
  | store (word : Nat) (v : Word)
  | udelay (usecs : Nat)
deriving DecidableEq, Repr

def Bus.exec (b : Bus) : BusOp → Bus
  | .store word v => b.store word v
  | .udelay _ => b

/-- Each operation with the bank right after it. -/
def Bus.trace (b : Bus) : List BusOp → List (BusOp × Bus)
  | [] => []
  | op :: ops => (op, b.exec op) :: (b.exec op).trace ops

def Bus.execAll (b : Bus) (ops : List BusOp) : Bus := ops.foldl Bus.exec b

@[simp] theorem Bus.execAll_nil (b : Bus) : b.execAll [] = b := rfl

@[simp] theorem Bus.execAll_cons (b : Bus) (op : BusOp) (ops : List BusOp) :
    b.execAll (op :: ops) = (b.exec op).execAll ops := rfl

theorem Bus.execAll_append (b : Bus) (ops ops' : List BusOp) :
    b.execAll (ops ++ ops') = (b.execAll ops).execAll ops' := List.foldl_append

theorem Bus.trace_append (ops ops' : List BusOp) : ∀ b : Bus,
    b.trace (ops ++ ops') = b.trace ops ++ (b.execAll ops).trace ops' := by
  induction ops with
  | nil => intro b; rfl
  | cons op ops ih => intro b; simp [Bus.trace, ih]

@[simp] theorem Bus.lines_set (b : Bus) (v : Word) : (b.store 7 v).lines = b.lines ||| v := rfl

@[simp] theorem Bus.lines_clr (b : Bus) (v : Word) : (b.store 10 v).lines = b.lines &&& ~~~v := rfl

/-! ## Write handlers -/

/-- What a write handler returned and did to the bank; `ret` is `none` where it has run off its end. -/
structure Handled where
  ret : Option Int
  ops : List BusOp
deriving DecidableEq

/-- The write handlers of one byte: `uncopied` is what `copy_from_user` returned and `tmp_buf` what the local
buffer holds after it. There is no result where `body` reads a table beyond its end. -/
def writeByte (body : Byte → Option (List BusOp)) (tmp_buf : Byte) (length uncopied : Nat) : Option Handled :=
  let result := wrap uncopied
  if result < 0 then some ⟨some result, []⟩
  else do
    let ops ← body tmp_buf
    some ⟨some (wrap length), ops⟩

/-- The error branch is never taken: what could not be copied is counted from 0 up. -/
theorem writeByte_eq {length uncopied : Nat} (hlen : length ≤ 8) (hun : uncopied ≤ length)
    (body : Byte → Option (List BusOp)) (tmp_buf : Byte) :
    writeByte body tmp_buf length uncopied = (body tmp_buf).map fun ops => ⟨some length, ops⟩ := by
  rw [writeByte, wrap_id (by omega) (by omega), if_neg (by omega), wrap_id (by omega) (by omega)]
  cases body tmp_buf <;> rfl

end CoinMachine
