import CoinMachine.Glyph
/-!
# The three reports of the coin machine (`receive/test_mac.c:182-557`)

Each report renders a number (or three) into a strip of glyph columns in a buffer it allocates itself.
The loops are translated one by one over the variables they read and write; the branches thread the
locals of `main` that they share (`Locals`), so that what one report leaves behind is what the next one
finds. `Option` marks undefined behaviour: an access outside a buffer or a row index past `dot_values`.

| here | there |
| --- | --- |
| `sizeLoop`       | `do { len = len / 10; size++; } while (len > 0)` (`:193`, `:273`, `:284`, `:295`, `:492`) |
| `digitLoop`      | `do { a = number % 10; …; arr[n] = a; n++; } while (b != 0)` (`:200`, `:306`, `:373`, `:422`, `:499`) |
| `putRow`         | `for (i = 0; i < 8; i++) { value[m] = row[i]; m++; }` |
| `putDigits`      | `while (n >= 0) { k = arr[n]; …; n--; }` (`:223`, `:346`, `:403`, `:448`, `:526`) |
| `drawNumber`     | the fill loops before the countdown loop, the countdown loop, the fill loop after it |
| `singleNumber`   | what the branches of key 2 and key 4 have in common |
| `totalMoney`     | the key-2 branch up to its display loop (`:184-237`) |
| `eachCoin`       | the key-3 branch up to its display loop (`:263-461`) |
| `totalCoin`      | the key-4 branch up to its display loop (`:485-539`) |
-/

namespace CoinMachine

/-- The global coin counters, `int`s in the source (`test_mac.c:28`). Fewer than `2^31` coins of a kind are taken to
be counted, so that a counter is the number of its coins. -/
structure Counters where
  EA500 : Nat
  EA100 : Nat
  EA50 : Nat
deriving DecidableEq, Repr

/-- The locals of `main` that the report branches share (`test_mac.c:42-43`). -/
structure Locals where
  number : Int
  len : Int
  i : Nat
  a : Int
  b : Int
  k : Nat
  size : Nat
  size2 : Nat
  size3 : Nat
  n : Int
  m : Nat
  time : Int
deriving DecidableEq, Repr

/-! ## The loops -/

theorem natAbs_tdiv_ten_lt {x : Int} (h : x.tdiv 10 ≠ 0) : (x.tdiv 10).natAbs < x.natAbs := by
  rw [Int.natAbs_tdiv]
  have h0 : x.natAbs ≠ 0 := by
    intro hx
    rw [Int.natAbs_eq_zero.1 hx] at h
    simp at h
  exact Nat.div_lt_self (by omega) (by decide)

/-- Returns the final `len` and `size`. -/
def sizeLoop (len : Int) (size : Nat) : Int × Nat :=
  if _h : 0 < len.tdiv 10 then sizeLoop (len.tdiv 10) (size + 1) else (len.tdiv 10, size + 1)
termination_by len.natAbs
decreasing_by exact natAbs_tdiv_ten_lt (by omega)

def digitLoop (arr : Buf) (l : Locals) : Option (Buf × Locals) := do
  let a := l.number.tmod 10
  let b := l.number.tdiv 10
  let arr ← store arr l.n (toChar a)
  if _h : b ≠ 0 then digitLoop arr { l with a := a, b := b, number := b, n := l.n + 1 }
  else some (arr, { l with a := a, b := b, number := b, n := l.n + 1 })
termination_by l.number.natAbs
decreasing_by exact natAbs_tdiv_ten_lt _h

/-- The body of a fill loop, from index `i` on; returns the final buffer, `m` and `i`. -/
def fillRow (row : Row) (value : Buf) (m i : Nat) : Option (Buf × Nat × Nat) :=
  if h : i < 8 then do
    let value ← store value m row[i]
    fillRow row value (m + 1) (i + 1)
  else some (value, m, i)
termination_by 8 - i

def putRow (row : Row) (value : Buf) (l : Locals) : Option (Buf × Locals) := do
  let (value, m, i) ← fillRow row value l.m 0
  some (value, { l with m := m, i := i })

def putDigits (arr value : Buf) (l : Locals) : Option (Buf × Locals) :=
  if 0 ≤ l.n then do
    let k := (← load arr l.n).toNat
    let row ← dotValues[k]?
    let (value, m, i) ← fillRow row value l.m 0
    putDigits arr value { l with k := k, m := m, i := i, n := l.n - 1 }
  else some (value, l)
termination_by (l.n + 1).toNat

/-- Consecutive fill loops. -/
def putRows : List Row → Buf → Locals → Option (Buf × Locals)
  | [], value, l => some (value, l)
  | row :: rows, value, l => do
    let (value, l) ← putRow row value l
    putRows rows value l

def drawNumber (head : List Row) (arr : Buf) (tail : Row) (value : Buf) (l : Locals) : Option (Buf × Locals) := do
  let (value, l) ← putRows head value l
  let (value, l) ← putDigits arr value l
  putRow tail value l

/-! ## The branches -/

/-- What a branch has built when its display loop starts: its digit buffers, its strip and the locals. -/
structure Built where
  digits : List Buf
  value : Buf
  l : Locals
deriving DecidableEq

/-- `number = (500 * EA500) + (100 * EA100) + (50 * EA50)` in 32-bit `int`s (`:190`). -/
def moneyInt (ea : Counters) : Int :=
  wrap (wrap (wrap (500 * ea.EA500) + wrap (100 * ea.EA100)) + wrap (50 * ea.EA50))

/-- `number = EA500 + EA100 + EA50` (`:489`). -/
def coinInt (ea : Counters) : Int := wrap (wrap (ea.EA500 + ea.EA100) + ea.EA50)

/-- What the branches of key 2 and key 4 have in common: the number, the `fixed` glyphs that the `malloc` of
the strip adds to its digits, and the rows before and after them. -/
def singleNumber (number : Int) (fixed : Nat) (head : List Row) (tail : Row) (l : Locals) : Option Built := do
  let l := { l with m := 0, n := 0, size := 0 }
  let l := { l with number := number }
  let l := { l with len := l.number }
  let s := sizeLoop l.len l.size
  let l := { l with len := s.1, size := s.2 }
  let arr := malloc l.size
  let (arr, l) ← digitLoop arr l
  let l := { l with n := l.n - 1 }
  let value := malloc (8 * (l.size + fixed))
  let (value, l) ← drawNumber head arr tail value l
  some ⟨[arr], value, l⟩

/-- Key 2, "total money". -/
def totalMoney (ea : Counters) (l : Locals) : Option Built :=
  singleNumber (moneyInt ea) 3 [dotChar[0], dotChar[2]] dotChar[3] l

/-- Key 3: the three sizes are found before anything is stored (`:270-298`). -/
def eachCoinSizes (ea : Counters) (l : Locals) : Locals :=
  let l := { l with m := 0, n := 0, size := 0 }
  let l := { l with number := ea.EA500 }
  let l := { l with len := l.number }
  let s := sizeLoop l.len l.size
  let l := { l with len := s.1, size := s.2 }
  let l := { l with n := 0, size2 := 0 }
  let l := { l with number := ea.EA100 }
  let l := { l with len := l.number }
  let s := sizeLoop l.len l.size2
  let l := { l with len := s.1, size2 := s.2 }
  let l := { l with n := 0, size3 := 0 }
  let l := { l with number := ea.EA50 }
  let l := { l with len := l.number }
  let s := sizeLoop l.len l.size3
  { l with len := s.1, size3 := s.2 }

/-- Key 3, "the number of each coin". -/
def eachCoin (ea : Counters) (l : Locals) : Option Built := do
  let l := eachCoinSizes ea l
  let arrb1 := malloc l.size
  let arrb2 := malloc l.size2
  let arrb3 := malloc l.size3
  let value_arrb := malloc (8 * (l.size + l.size2 + l.size3 + 16))
  -- 500 input: `n` is still 0 here
  let l := { l with number := ea.EA500 }
  let (arrb1, l) ← digitLoop arrb1 l
  let l := { l with n := l.n - 1 }
  let (value_arrb, l) ← drawNumber
    [dotChar[1], dotChar[2], dotValues[5], dotValues[0], dotValues[0], dotChar[2]] arrb1 dotChar[4] value_arrb l
  -- 100 input
  let l := { l with n := 0, number := ea.EA100 }
  let (arrb2, l) ← digitLoop arrb2 l
  let l := { l with n := l.n - 1 }
  let (value_arrb, l) ← drawNumber
    [dotValues[1], dotValues[0], dotValues[0], dotChar[2]] arrb2 dotChar[4] value_arrb l
  -- 50 input
  let l := { l with n := 0, number := ea.EA50 }
  let (arrb3, l) ← digitLoop arrb3 l
  let l := { l with n := l.n - 1 }
  let (value_arrb, l) ← drawNumber [dotValues[5], dotValues[0], dotChar[2]] arrb3 dotChar[4] value_arrb l
  some ⟨[arrb1, arrb2, arrb3], value_arrb, l⟩

/-- Key 4, "the number of total coin". -/
def totalCoin (ea : Counters) (l : Locals) : Option Built :=
  singleNumber (coinInt ea) 4 [dotChar[0], dotChar[1], dotChar[2]] dotChar[4] l

end CoinMachine
