import Mathlib.Data.Set.Basic
import CoinMachine.DotDriver
import CoinMachine.Drivers
/-!
# `led_driver.c`: digits by scanning, gauges by standing

Columns are the lines 10–17 and a pixel needs its column high; rows are the lines 20–27 and a pixel needs
its row *low*. A digit is scanned: 50000 passes over the eight rows, one row low at a time. A gauge is left
standing, with all rows low and the same columns on each, until the next call takes it away.

| here | there |
| --- | --- |
| `ledOpen`             | `led_open` (`led_driver.c:40-67`) |
| `ledRowOps`           | the body of the inner loop (`:105-115`) |
| `ledOps`, `ledWrite`  | `led_write` (`:78-120`) |
| `picture`, `image`    | what a value is meant to show |

Between rows, between passes and after the two stores at the head of a call the lines are `Blank`: rows
high, columns low. From there a row shows itself and nothing else (`ledRow_spec`); the loops are appends of
rows (`LedShows.append`).
-/

namespace CoinMachine

/-! ## The driver -/

/-- The levels of a gauge, one column more at each (`led_driver.c:23`). -/
def gauge : Vector Byte 9 := #v[0x00, 0x01, 0x03, 0x07, 0x0F, 0x1F, 0x3F, 0x7F, 0xFF]

/-- The rows, one bit each (`:24`). -/
def count : Vector Byte 8 := #v[0x01, 0x02, 0x04, 0x08, 0x10, 0x20, 0x40, 0x80]

/-- The digits, row by row (`:25`). -/
def num : Vector Row 10 := #v[
  #v[0x78, 0x84, 0x8c, 0x94, 0xa4, 0xc4, 0x78, 0x00],
  #v[0x30, 0x70, 0x30, 0x30, 0x30, 0x30, 0xfc, 0x00],
  #v[0x78, 0xcc, 0x0c, 0x38, 0x60, 0xcc, 0xfc, 0x00],
  #v[0x78, 0xcc, 0x0c, 0x38, 0x0c, 0xcc, 0x78, 0x00],
  #v[0x1c, 0x3c, 0x6c, 0xcc, 0xfe, 0x0c, 0x1e, 0x00],
  #v[0xfc, 0xc0, 0xf8, 0x0c, 0x0c, 0xcc, 0x78, 0x00],
  #v[0x38, 0x60, 0xc0, 0xf8, 0xcc, 0xcc, 0x78, 0x00],
  #v[0xfc, 0xcc, 0x0c, 0x18, 0x30, 0x30, 0x30, 0x00],
  #v[0x78, 0xcc, 0xcc, 0x78, 0xcc, 0xcc, 0x78, 0x00],
  #v[0x78, 0xcc, 0xcc, 0x7c, 0x0c, 0x18, 0x70, 0x00]]

/-- `led_usage`, `led_map` and `led`, with the bank. -/
structure LedDev where
  usage : Byte
  map : Option Nat
  ptr : Option Nat
  bus : Bus

/-- `mapped` is what `ioremap` answers. -/
def ledOpen (mapped : Option Nat) (s : LedDev) : Int × LedDev :=
  if s.usage ≠ 0 then (-EBUSY, s)
  else match mapped with
    | none => (-EBUSY, { s with usage := 1, map := none })
    | some p =>
      let bus := (List.range 8).foldl (fun bus i => (bus.setField 1 i 1).setField 2 i 1) s.bus
      let bus := bus.store 10 (0xFF#32 <<< 10)
      (0, ⟨1, some p, some p, bus.store 7 (0xFF#32 <<< 20)⟩)

/-- Columns low, rows high (`:94-95`). -/
def ledClear : List BusOp := [.store 10 (0xFF#32 <<< 10), .store 7 (0xFF#32 <<< 20)]

/-- One row of a pass (`:109-114`). -/
def ledRowOps (rows : Row) (i : Fin 8) : List BusOp :=
  [.store 10 ((count.get i).setWidth 32 <<< 20),
   .store 7 ((rows.get i).setWidth 32 <<< 10),
   .udelay 1,
   .store 10 (0xFF#32 <<< 10),
   .store 7 (0xFF#32 <<< 20)]

def ledPass (rows : Row) : List BusOp := (List.finRange 8).flatMap (ledRowOps rows)

/-- A gauge (`:98-99`). -/
def ledGauge (g : Byte) : List BusOp := [.store 10 (0xFF#32 <<< 20), .store 7 (g.setWidth 32 <<< 10)]

/-- The bound of the outer loop (`:103`). -/
def passes : Nat := 50000

/-- The stores of one call; there is no result where a table is read beyond its end. -/
def ledOps (tmp_buf : Byte) : Option (List BusOp) :=
  if tmp_buf.toNat / 10 = 1 then do
    let g ← gauge[tmp_buf.toNat % 10]?
    some (ledClear ++ ledGauge g)
  else do
    let rows ← num[tmp_buf.toNat]?
    some (ledClear ++ (List.replicate passes (ledPass rows)).flatten)

/-- `led_write` (`:78`). -/
def ledWrite (tmp_buf : Byte) (length uncopied : Nat) : Option Handled := writeByte ledOps tmp_buf length uncopied

/-! ## Pixels -/

/-- The pixels that are lit, as row and column. -/
def lit (L : Word) : Set (Fin 8 × Fin 8) :=
  {p | (rowLines L).getLsbD p.1 = false ∧ (colLines L).getLsbD p.2 = true}

/-- The pixels of a picture given row by row. -/
def imageOf (rows : Row) : Set (Fin 8 × Fin 8) := {p | (rows.get p.1).getLsbD p.2 = true}

/-- The same columns on every row. -/
@[simp] theorem mem_imageOf_replicate (g : Byte) (p : Fin 8 × Fin 8) :
    p ∈ imageOf (Vector.replicate 8 g) ↔ g.getLsbD p.2 = true := by
  simp [imageOf, Vector.get]

/-- The rows of a value: a gauge is the same on each of them. -/
def picture (v : Byte) : Option Row :=
  if v.toNat / 10 = 1 then gauge[v.toNat % 10]?.map (Vector.replicate 8) else num[v.toNat]?

/-- The pixels a value is meant to light. -/
def image (v : Byte) : Set (Fin 8 × Fin 8) := {p | ∃ rows, picture v = some rows ∧ p ∈ imageOf rows}

theorem image_of_picture {v : Byte} {rows : Row} (h : picture v = some rows) : image v = imageOf rows := by
  ext p
  simp [image, h]

theorem lit_of_cols_low {L : Word} (h : colLines L = 0) : lit L = ∅ := by
  ext p
  simp [lit, h]

/-- Every row high, every column low. -/
def Blank (L : Word) : Prop := rowLines L = BitVec.allOnes 8 ∧ colLines L = 0

theorem count_eq (i : Fin 8) : count.get i = 1#8 <<< i.val := by revert i; decide

/-! ## One row, one pass, all passes -/

/-- What a sequence of operations shows, started on `b`: nothing beside the picture, and `shown` at its delays. -/
structure LedShows (rows : Row) (b : Bus) (ops : List BusOp) (shown : List (Byte × Byte)) : Prop where
  lit : ∀ x ∈ b.trace ops, lit x.2.lines ⊆ imageOf rows
  outside : ∀ x ∈ b.trace ops, SameOutside b.lines x.2.lines
  shown : seen (b.trace ops) = shown
  same : SameOutside b.lines (b.execAll ops).lines

theorem LedShows.nil (rows : Row) (b : Bus) : LedShows rows b [] [] :=
  ⟨by simp [Bus.trace], by simp [Bus.trace], rfl, SameOutside.refl _⟩

theorem LedShows.append {rows : Row} {b : Bus} {ops ops' : List BusOp} {sh sh' : List (Byte × Byte)}
    (h : LedShows rows b ops sh) (h' : LedShows rows (b.execAll ops) ops' sh') :
    LedShows rows b (ops ++ ops') (sh ++ sh') := by
  refine ⟨?_, ?_, ?_, ?_⟩
  · intro x hx
    rw [Bus.trace_append, List.mem_append] at hx
    rcases hx with hx | hx
    · exact h.lit x hx
    · exact h'.lit x hx
  · intro x hx
    rw [Bus.trace_append, List.mem_append] at hx
    rcases hx with hx | hx
    · exact h.outside x hx
    · exact h.same.trans (h'.outside x hx)
  · rw [Bus.trace_append, seen_append, h.shown, h'.shown]
  · rw [Bus.execAll_append]
    exact h.same.trans h'.same

/-- A delay shows what the lines hold. -/
theorem ledDelay_spec {rows : Row} {b : Bus} (h : lit b.lines ⊆ imageOf rows) (usecs : Nat) :
    LedShows rows b [.udelay usecs] [(rowLines b.lines, colLines b.lines)] :=
  ⟨by simpa [Bus.trace, Bus.exec] using h, by simp [Bus.trace, Bus.exec, SameOutside.refl], rfl, SameOutside.refl _⟩

/-- The two stores at the head of a call blank the lines, whatever they were. -/
theorem ledClear_spec (rows : Row) (b : Bus) :
    LedShows rows b ledClear [] ∧ Blank (b.execAll ledClear).lines := by
  obtain ⟨L1, e1⟩ : ∃ L1, L1 = b.lines &&& ~~~BitField.lift 32 10 (BitVec.allOnes 8) := ⟨_, rfl⟩
  obtain ⟨L2, e2⟩ : ∃ L2, L2 = L1 ||| BitField.lift 32 20 (BitVec.allOnes 8) := ⟨_, rfl⟩
  have c1 : colLines L1 = 0 := by rw [e1, colLines_clearAll]
  have c2 : colLines L2 = 0 := by rw [e2, colLines_setRows, c1]
  have r2 : rowLines L2 = BitVec.allOnes 8 := by rw [e2, rowLines_setRows, BitVec.or_allOnes]
  have o1 : SameOutside b.lines L1 := e1 ▸ sameOutside_clearCols _ _
  have o2 : SameOutside b.lines L2 := o1.trans (e2 ▸ sameOutside_setRows _ _)
  have htr : b.trace ledClear = [(.store 10 (0xFF#32 <<< 10), { b with lines := L1 }),
      (.store 7 (0xFF#32 <<< 20), { b with lines := L2 })] := by
    rw [e2, e1, ← clearRows_eq, ← clearCols_eq]
    rfl
  have hend : (b.execAll ledClear).lines = L2 := by
    rw [e2, e1, ← clearRows_eq, ← clearCols_eq]
    rfl
  refine ⟨⟨?_, ?_, ?_, ?_⟩, ?_⟩
  · rw [htr]
    simp [lit_of_cols_low c1, lit_of_cols_low c2]
  · rw [htr]
    simp [o1, o2]
  · rw [htr]
    rfl
  · rw [hend]
    exact o2
  · rw [hend]
    exact ⟨r2, c2⟩

/-- The two stores that turn pixels on: the rows of `c` go low, then the columns of `g` go high. -/
def ledOn (c g : Byte) : List BusOp := [.store 10 (c.setWidth 32 <<< 20), .store 7 (g.setWidth 32 <<< 10)]

/-- While the rows go low the columns are still low, so what is lit is lit after the second store. -/
theorem ledOn_spec {rows : Row} {b : Bus} (c g : Byte) (hc : colLines b.lines = 0)
    (hin : ∀ L, rowLines L = rowLines b.lines &&& ~~~c → colLines L = g → lit L ⊆ imageOf rows) :
    LedShows rows b (ledOn c g) [] ∧
    rowLines (b.execAll (ledOn c g)).lines = rowLines b.lines &&& ~~~c ∧
    colLines (b.execAll (ledOn c g)).lines = g := by
  obtain ⟨L1, e1⟩ : ∃ L1, L1 = b.lines &&& ~~~BitField.lift 32 20 c := ⟨_, rfl⟩
  obtain ⟨L2, e2⟩ : ∃ L2, L2 = L1 ||| BitField.lift 32 10 g := ⟨_, rfl⟩
  have c1 : colLines L1 = 0 := by rw [e1, colLines_clearRows, hc]
  have r2 : rowLines L2 = rowLines b.lines &&& ~~~c := by rw [e2, rowLines_setCols, e1, rowLines_clearRows]
  have c2 : colLines L2 = g := by rw [e2, colLines_setCols, c1]; exact BitVec.zero_or
  have o1 : SameOutside b.lines L1 := e1 ▸ sameOutside_clearRows _ _
  have o2 : SameOutside b.lines L2 := o1.trans (e2 ▸ sameOutside_setCols _ _)
  have htr : b.trace (ledOn c g) =
      [(.store 10 (c.setWidth 32 <<< 20), { b with lines := L1 }), (.store 7 (g.setWidth 32 <<< 10), { b with lines := L2 })] := by
    rw [e2, e1]
    rfl
  have hend : (b.execAll (ledOn c g)).lines = L2 := by
    rw [e2, e1]
    rfl
  rw [hend]
  refine ⟨⟨?_, ?_, ?_, ?_⟩, r2, c2⟩
  · rw [htr]
    simp [lit_of_cols_low c1, hin L2 r2 c2]
  · rw [htr]
    simp [o1, o2]
  · rw [htr]
    rfl
  · rw [hend]
    exact o2

theorem lit_row {rows : Row} {i : Fin 8} {L : Word} (hr : rowLines L = ~~~(1#8 <<< i.val))
    (hc : colLines L = rows.get i) : lit L ⊆ imageOf rows := by
  rintro ⟨r, c⟩ ⟨hrow, hcol⟩
  simp only [hr, BitVec.getLsbD_not, r.isLt, decide_true, Bool.true_and, Bool.not_eq_false', getLsbD_one_shift,
    decide_eq_true_eq] at hrow
  rw [hc] at hcol
  rw [hrow]
  exact hcol

theorem ledRowOps_eq (rows : Row) (i : Fin 8) :
    ledRowOps rows i = ledOn (count.get i) (rows.get i) ++ ([.udelay 1] ++ ledClear) := rfl

/-- **One row** (`:109-114`): from blank lines, row `i` goes low and then has its own columns; the lines are
blank again at the end. -/
theorem ledRow_spec (rows : Row) (i : Fin 8) (b : Bus) (hb : Blank b.lines) :
    LedShows rows b (ledRowOps rows i) [(~~~(1#8 <<< i.val), rows.get i)] ∧ Blank (b.execAll (ledRowOps rows i)).lines := by
  obtain ⟨hr, hc⟩ := hb
  have hrow : rowLines b.lines &&& ~~~count.get i = ~~~(1#8 <<< i.val) := by rw [hr, count_eq, BitVec.allOnes_and]
  obtain ⟨hon, r, c⟩ := ledOn_spec (count.get i) (rows.get i) hc fun L hr' hc' => lit_row (hr'.trans hrow) hc'
  have hdelay := ledDelay_spec (lit_row (r.trans hrow) c) 1
  rw [r, hrow, c] at hdelay
  -- the last two stores are those of the head of a call
  obtain ⟨hoff, hblank⟩ := ledClear_spec rows (b.execAll (ledOn (count.get i) (rows.get i)))
  rw [ledRowOps_eq, Bus.execAll_append, Bus.execAll_append]
  exact ⟨hon.append (hdelay.append hoff), hblank⟩

/-- A loop whose body starts and ends with blank lines. -/
theorem ledLoop_spec {ι : Type} (rows : Row) (body : ι → List BusOp) (sh : ι → List (Byte × Byte))
    (hbody : ∀ i b, Blank b.lines → LedShows rows b (body i) (sh i) ∧ Blank (b.execAll (body i)).lines) :
    ∀ (is : List ι) (b : Bus), Blank b.lines →
      LedShows rows b (is.flatMap body) (is.flatMap sh) ∧ Blank (b.execAll (is.flatMap body)).lines
  | [], b, hb => ⟨.nil rows b, hb⟩
  | i :: is, b, hb => by
    obtain ⟨h1, hb1⟩ := hbody i b hb
    obtain ⟨h2, hb2⟩ := ledLoop_spec rows body sh hbody is (b.execAll (body i)) hb1
    rw [List.flatMap_cons, List.flatMap_cons, Bus.execAll_append]
    exact ⟨h1.append h2, hb2⟩

/-- What the eight delays of a pass show. -/
def passShown (rows : Row) : List (Byte × Byte) := (List.finRange 8).map fun i => (~~~(1#8 <<< i.val), rows.get i)

theorem ledPass_spec (rows : Row) (b : Bus) (hb : Blank b.lines) :
    LedShows rows b (ledPass rows) (passShown rows) ∧ Blank (b.execAll (ledPass rows)).lines := by
  have h := ledLoop_spec rows (ledRowOps rows) (fun i => [(~~~(1#8 <<< i.val), rows.get i)])
    (fun i b hb => ledRow_spec rows i b hb) (List.finRange 8) b hb
  rw [passShown, List.map_eq_flatMap]
  exact h

theorem ledPasses_spec (rows : Row) (b : Bus) (hb : Blank b.lines) :
    LedShows rows b (List.replicate passes (ledPass rows)).flatten (List.replicate passes (passShown rows)).flatten ∧
    Blank (b.execAll (List.replicate passes (ledPass rows)).flatten).lines := by
  have h := ledLoop_spec rows (fun _ : Unit => ledPass rows) (fun _ => passShown rows)
    (fun _ b hb => ledPass_spec rows b hb) (List.replicate passes ()) b hb
  rwa [List.flatMap_def, List.flatMap_def, List.map_replicate, List.map_replicate] at h

/-- The gauge: rows low first, then its columns, and there it stays. -/
theorem ledGauge_spec (g : Byte) (b : Bus) (hb : Blank b.lines) :
    LedShows (Vector.replicate 8 g) b (ledGauge g) [] ∧
    rowLines (b.execAll (ledGauge g)).lines = 0 ∧
    colLines (b.execAll (ledGauge g)).lines = g := by
  obtain ⟨hr, hc⟩ := hb
  have hrow : rowLines b.lines &&& ~~~BitVec.allOnes 8 = 0 := by rw [BitVec.not_allOnes]; exact BitVec.and_zero
  have hops : ledGauge g = ledOn (BitVec.allOnes 8) g := rfl
  rw [hops, ← hrow]
  apply ledOn_spec _ _ hc
  rintro L - hcol p ⟨-, hp⟩
  rw [mem_imageOf_replicate, ← hcol]
  exact hp

/-! ## Sequences of calls -/

/-- A call as it ran. -/
structure LedServed where
  value : Byte
  ret : Option Int
  before : Bus
  trace : List (BusOp × Bus)
  after : Bus

/-- Consecutive calls of `led_write`, one byte each (`test_led.c:30`). -/
def runLed : Bus → List Byte → Option (List LedServed)
  | _, [] => some []
  | b, v :: vs => do
    let w ← ledWrite v 1 0
    let rest ← runLed (b.execAll w.ops) vs
    some (⟨v, w.ret, b, b.trace w.ops, b.execAll w.ops⟩ :: rest)

/-- What a call leaves behind: a gauge stands, a digit is gone. -/
def standing (v : Byte) : Set (Fin 8 × Fin 8) := if v.toNat / 10 = 1 then image v else ∅

/-- What holds of one call, `prev` being the value of the call before it and `L` the lines before the open. -/
structure LedExact (L : Word) (prev : Option Byte) (s : LedServed) : Prop where
  ret : s.ret = some 1
  /-- until its first store, what the call before it has left stands -/
  before : lit s.before.lines = prev.elim ∅ standing
  first : ∀ x, s.trace.head? = some x → lit x.2.lines = ∅
  within : ∀ x ∈ s.trace, lit x.2.lines ⊆ image s.value
  /-- a digit: the eight delays of every pass show its eight rows, each alone -/
  shown : ∀ rows, num[s.value.toNat]? = some rows → seen s.trace = (List.replicate passes (passShown rows)).flatten
  /-- a gauge: all rows low, its columns high -/
  columns : ∀ g, s.value.toNat / 10 = 1 → gauge[s.value.toNat % 10]? = some g →
    rowLines s.after.lines = 0 ∧ colLines s.after.lines = g
  after : lit s.after.lines = standing s.value
  outside : ∀ x ∈ s.trace, SameOutside L x.2.lines

/-- Each call finds what the one before it has left. -/
def LedExacts (L : Word) : Option Byte → List LedServed → Prop
  | _, [] => True
  | prev, s :: log => LedExact L prev s ∧ LedExacts L (some s.value) log

theorem ledClear_first (b : Bus) (ops : List BusOp) (x : BusOp × Bus)
    (hx : (b.trace (ledClear ++ ops)).head? = some x) : lit x.2.lines = ∅ := by
  cases hx
  apply lit_of_cols_low
  show colLines (b.lines &&& ~~~(0xFF#32 <<< 10)) = 0
  rw [clearCols_eq, colLines_clearAll]

section
variable {L : Word} {prev : Option Byte} {b : Bus} (hbefore : lit b.lines = prev.elim ∅ standing)
  (hL : SameOutside L b.lines)
include hbefore hL

/-- A call with a digit. -/
theorem ledWrite_digit {v : Byte} {rows : Row} (hv : v.toNat / 10 ≠ 1) (hrows : num[v.toNat]? = some rows) :
    ∃ ops, ledOps v = some ops ∧ LedExact L prev ⟨v, some 1, b, b.trace ops, b.execAll ops⟩ ∧
      SameOutside L (b.execAll ops).lines := by
  obtain ⟨hclear, hblank⟩ := ledClear_spec rows b
  have hops : ledOps v = some (ledClear ++ (List.replicate passes (ledPass rows)).flatten) := by
    rw [ledOps, if_neg hv, hrows, Option.bind_eq_bind, Option.bind_some]
  have hpasses := ledPasses_spec rows (b.execAll ledClear) hblank
  -- from here on the loop is what `ledPasses_spec` says of it
  generalize (List.replicate passes (ledPass rows)).flatten = loop at hops hpasses
  obtain ⟨hloop, hend⟩ := hpasses
  have h := hclear.append hloop
  rw [List.nil_append] at h
  have himage : image v = imageOf rows := image_of_picture (by rw [picture, if_neg hv, hrows])
  rw [← Bus.execAll_append] at hend
  refine ⟨_, hops, ⟨rfl, hbefore, ledClear_first b _, ?_, ?_, ?_, ?_, ?_⟩, hL.trans h.same⟩
  · rw [himage]
    exact h.lit
  · intro rows' hrows'
    obtain rfl : rows = rows' := Option.some.inj (hrows.symm.trans hrows')
    exact h.shown
  · exact fun g hgauge => absurd hgauge hv
  · rw [standing, if_neg hv]
    exact lit_of_cols_low hend.2
  · exact fun x hx => hL.trans (h.outside x hx)

/-- A call with a gauge. -/
theorem ledWrite_gauge {v g : Byte} (hv : v.toNat / 10 = 1) (hg : gauge[v.toNat % 10]? = some g) :
    ∃ ops, ledOps v = some ops ∧ LedExact L prev ⟨v, some 1, b, b.trace ops, b.execAll ops⟩ ∧
      SameOutside L (b.execAll ops).lines := by
  obtain ⟨hclear, hblank⟩ := ledClear_spec (Vector.replicate 8 g) b
  obtain ⟨hgauge, hrow, hcol⟩ := ledGauge_spec g (b.execAll ledClear) hblank
  have h := hclear.append hgauge
  have hops : ledOps v = some (ledClear ++ ledGauge g) := by
    rw [ledOps, if_pos hv, hg]
    rfl
  have himage : image v = imageOf (Vector.replicate 8 g) :=
    image_of_picture (by rw [picture, if_pos hv, hg]; rfl)
  rw [← Bus.execAll_append] at hrow hcol
  refine ⟨_, hops, ⟨rfl, hbefore, ledClear_first b _, ?_, ?_, ?_, ?_, ?_⟩, hL.trans h.same⟩
  · rw [himage]
    exact h.lit
  · -- no digit is 10 or more
    intro rows hrows
    obtain ⟨hlt, -⟩ := Vector.getElem?_eq_some_iff.1 hrows
    dsimp only at hlt
    omega
  · intro g' _ hg'
    cases hg.symm.trans hg'
    exact ⟨hrow, hcol⟩
  · rw [standing, if_pos hv, himage]
    ext p
    rw [mem_imageOf_replicate]
    simp [lit, hrow, hcol]
  · exact fun x hx => hL.trans (h.outside x hx)

/-- A call with a value of `test_led.c`. -/
theorem ledWrite_spec {v : Byte} (hv : v.toNat ≤ 18) : ∃ ops, ledOps v = some ops ∧
    LedExact L prev ⟨v, some 1, b, b.trace ops, b.execAll ops⟩ ∧ SameOutside L (b.execAll ops).lines := by
  by_cases h10 : v.toNat / 10 = 1
  · have hlt : v.toNat % 10 < 9 := by omega
    exact ledWrite_gauge hbefore hL h10 (Vector.getElem?_eq_getElem hlt)
  · have hlt : v.toNat < 10 := by omega
    exact ledWrite_digit hbefore hL h10 (Vector.getElem?_eq_getElem hlt)

end

/-- The run lemma. -/
theorem runLed_exact (L : Word) (vs : List Byte) (hvs : ∀ v ∈ vs, v.toNat ≤ 18) : ∀ (prev : Option Byte) (b : Bus),
    lit b.lines = prev.elim ∅ standing → SameOutside L b.lines →
    ∃ log, runLed b vs = some log ∧ log.map LedServed.value = vs ∧ LedExacts L prev log := by
  induction vs with
  | nil => exact fun prev b _ _ => ⟨[], rfl, rfl, trivial⟩
  | cons v vs ih =>
    intro prev b hbefore hL
    obtain ⟨ops, hops, hexact, hsame⟩ := ledWrite_spec hbefore hL (hvs v List.mem_cons_self)
    obtain ⟨log, hrun, hvalues, hlog⟩ := ih (fun w hw => hvs w (List.mem_cons_of_mem v hw)) (some v) (b.execAll ops)
      hexact.after hsame
    have hwrite : ledWrite v 1 0 = some ⟨some 1, ops⟩ := by
      rw [ledWrite, writeByte_eq (by decide) (by decide), hops]
      rfl
    refine ⟨⟨v, some 1, b, b.trace ops, b.execAll ops⟩ :: log, ?_, ?_, hexact, hlog⟩
    · rw [runLed, hwrite]
      simp only [Option.bind_eq_bind, Option.bind_some, hrun]
    · rw [List.map_cons, hvalues]

theorem lines_setField (b : Bus) {word : Nat} (h7 : word ≠ 7) (h10 : word ≠ 10) (field : Nat) (mode : Word) :
    (b.setField word field mode).lines = b.lines := by
  simp [Bus.setField, Bus.store, h7, h10]

/-- A successful open leaves the lines blank. -/
theorem ledOpen_spec {mapped : Option Nat} {s : LedDev} (h : (ledOpen mapped s).1 = 0) :
    Blank (ledOpen mapped s).2.bus.lines ∧ SameOutside s.bus.lines (ledOpen mapped s).2.bus.lines := by
  have hfields : ∀ (is : List Nat) (b : Bus),
      (is.foldl (fun bus i => (bus.setField 1 i 1).setField 2 i 1) b).lines = b.lines := by
    intro is
    induction is with
    | nil => exact fun b => rfl
    | cons i is ih =>
      intro b
      rw [List.foldl_cons, ih, lines_setField _ (by decide) (by decide), lines_setField _ (by decide) (by decide)]
  unfold ledOpen at h ⊢
  split at h
  · cases h
  · rename_i husage
    rw [if_neg husage]
    cases mapped with
    | none => cases h
    | some p =>
      obtain ⟨hclear, hblank⟩ := ledClear_spec (Vector.replicate 8 0)
        ((List.range 8).foldl (fun bus i => (bus.setField 1 i 1).setField 2 i 1) s.bus)
      refine ⟨hblank, ?_⟩
      have hsame := hclear.same
      rwa [hfields] at hsame

/-- **`led_driver.c`, any sequence of the values 0–18 after a successful open, from any line levels.** The open
leaves no pixel lit. After every store of a call the lit pixels are among those of its value; what stands
before the first store is what the call before has left, and that store removes it. Each of the 50000
passes of a digit shows its eight rows in order, one alone at each delay, and the call returns dark; after
a gauge the rows are all low and its columns high. No other line moves, and every call returns 1. -/
theorem led_exact (mapped : Option Nat) (s : LedDev) (vs : List Byte) (hopen : (ledOpen mapped s).1 = 0)
    (hvs : ∀ v ∈ vs, v.toNat ≤ 18) :
    lit (ledOpen mapped s).2.bus.lines = ∅ ∧ SameOutside s.bus.lines (ledOpen mapped s).2.bus.lines ∧
    ∃ log, runLed (ledOpen mapped s).2.bus vs = some log ∧ log.map LedServed.value = vs ∧
      LedExacts s.bus.lines none log := by
  obtain ⟨hblank, hsame⟩ := ledOpen_spec hopen
  have hdark := lit_of_cols_low hblank.2
  exact ⟨hdark, hsame, runLed_exact s.bus.lines vs hvs none _ hdark hsame⟩

/-- A digit, a gauge and a digit again, on lines that are all high at first. -/
theorem led_exact_digit_gauge_digit : ∃ log, runLed (ledOpen (some 0) ⟨0, none, none, ⟨fun _ => 0, 0xFFFFFFFF⟩⟩).2.bus [3, 15, 0] =
    some log ∧ log.map LedServed.value = [3, 15, 0] ∧ LedExacts 0xFFFFFFFF none log := by
  obtain ⟨-, -, h⟩ := led_exact (some 0) ⟨0, none, none, ⟨fun _ => 0, 0xFFFFFFFF⟩⟩ [3, 15, 0] rfl (by decide)
  exact h

end CoinMachine
