import Mathlib.Data.List.Basic
/-!
# The C types of the programs: `int`, plain `char`, and heap buffers

`int` values are mathematical integers; where the source can leave the 32-bit range the model applies
`wrap` (two's complement). Plain `char` is unsigned: the programs are built with the
`arm-linux-gnueabihf-` toolchain (`receive/Makefile`). A heap buffer is a list of cells, `none` for a
byte that `malloc` left unset. `store` and `load` have no result outside the allocation or on an
unset cell, so a run that ends with `some` has stayed inside its buffers at every index.
-/

namespace CoinMachine

/-- Plain `char` on the ARM target. -/
abbrev Byte := BitVec 8

/-- Two's-complement wrap onto a 32-bit `int`. -/
def wrap (x : Int) : Int :=
  if x % 4294967296 < 2147483648 then x % 4294967296 else x % 4294967296 - 4294967296

theorem wrap_id {x : Int} (h : -2147483648 ≤ x) (h' : x < 2147483648) : wrap x = x := by
  unfold wrap; split <;> omega

theorem wrap_emod (x : Int) : wrap x % 4294967296 = x % 4294967296 := by
  unfold wrap; split <;> omega

/-- `wrap` only depends on the residue. -/
theorem wrap_congr {x y : Int} (h : x % 4294967296 = y % 4294967296) : wrap x = wrap y := by
  unfold wrap; rw [h]

theorem wrap_add_left (x y : Int) : wrap (wrap x + y) = wrap (x + y) :=
  wrap_congr (by have := wrap_emod x; omega)

theorem wrap_add_right (x y : Int) : wrap (x + wrap y) = wrap (x + y) :=
  wrap_congr (by have := wrap_emod y; omega)

/-- The value of an `int` that is stored in a `char`. -/
def toChar (x : Int) : Byte := BitVec.ofInt 8 x

@[simp] theorem toChar_natCast (n : Nat) : toChar n = BitVec.ofNat 8 n := by
  simp [toChar]

/-! ## Heap buffers -/

abbrev Buf := List (Option Byte)

/-- `malloc(n)`; the program never checks for `NULL`, and the model takes the call to succeed. -/
def malloc (n : Nat) : Buf := List.replicate n none

def store (buf : Buf) (idx : Int) (v : Byte) : Option Buf :=
  if 0 ≤ idx ∧ idx < buf.length then some (buf.set idx.toNat (some v)) else none

def load (buf : Buf) (idx : Int) : Option Byte :=
  if 0 ≤ idx then buf[idx.toNat]?.join else none

/-- A buffer whose first bytes are `bs` and whose last `r` cells are unset. -/
def filled (bs : List Byte) (r : Nat) : Buf := bs.map some ++ List.replicate r none

theorem malloc_eq_filled (n : Nat) : malloc n = filled [] n := rfl

@[simp] theorem filled_zero (bs : List Byte) : filled bs 0 = bs.map some := by simp [filled]

@[simp] theorem length_filled (bs : List Byte) (r : Nat) : (filled bs r).length = bs.length + r := by
  simp [filled]

/-- A store at the first unset cell. -/
theorem store_filled (bs : List Byte) (r : Nat) (v : Byte) :
    store (filled bs (r + 1)) bs.length v = some (filled (bs ++ [v]) r) := by
  have hlt : (0 : Int) ≤ bs.length ∧ (bs.length : Int) < (filled bs (r + 1)).length := by
    rw [length_filled]; omega
  rw [store, if_pos hlt]
  simp [filled, List.replicate_succ]

theorem store_of_le {buf : Buf} {idx : Int} (h : buf.length ≤ idx) (v : Byte) : store buf idx v = none := by
  rw [store, if_neg (by omega)]

theorem load_filled {bs : List Byte} {i : Nat} (h : i < bs.length) (r : Nat) :
    load (filled bs r) i = some bs[i] := by
  rw [load, if_pos (by omega)]
  simp [filled, List.getElem?_append, h]

end CoinMachine
