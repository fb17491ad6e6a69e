import CoinMachine.Gpio
import CoinMachine.Glyph
/-!
# `receive/dot_driver.c`: the scan-out of one frame

Columns are the lines 10–17, rows the lines 20–27. `dot_write` takes eight bytes at the user pointer,
whatever length it is given, and shows byte `r` while row `r` is high: columns up, row up, delay, rows
down, columns down. The contract of one row (`rowOps_spec`) is that it starts and ends with all sixteen
lines low, which is what the next row and the next frame need.
-/

namespace CoinMachine

/-! ## The handler -/

/-- One iteration of the row loop (`dot_driver.c:82-89`). -/
def rowOps (val : Row) (index : Fin 8) : List BusOp :=
  [.store 7 (val[index].setWidth 32 <<< 10),
   .store 7 (0x01#32 <<< (20 + index.val)),
   .udelay 1,
   .store 10 (0xFF#32 <<< 20),
   .store 10 (0xFF#32 <<< 10)]

def scanOut (val : Row) : List BusOp := (List.finRange 8).flatMap (rowOps val)

/-- `for (i = 0; i < 8; i++) val[i] = gdata[i]` (`:78`); user memory is partial. -/
def loadRow (gdata : Nat → Option Byte) : Option Row := do
  let b0 ← gdata 0
  let b1 ← gdata 1
  let b2 ← gdata 2
  let b3 ← gdata 3
  let b4 ← gdata 4
  let b5 ← gdata 5
  let b6 ← gdata 6
  let b7 ← gdata 7
  some #v[b0, b1, b2, b3, b4, b5, b6, b7]

/-- Return value, frame and bus operations of one call. -/
structure DotWrite where
  ret : Int
  val : Option Row
  ops : List BusOp
deriving DecidableEq

/-- `dot_write` (`:60`). `uncopied` is what `copy_from_user` returned; the copy itself is not used. -/
def dotWrite (gdata : Nat → Option Byte) (length uncopied : Nat) : Option DotWrite :=
  let result := wrap uncopied
  if result < 0 then some ⟨result, none, []⟩
  else do
    let val ← loadRow gdata
    some ⟨wrap length, some val, scanOut val⟩

/-! ## What is lit -/

/-- The lines 20–27. -/
def rowLines (L : Word) : Byte := BitField.get 20 8 L

/-- The lines 10–17. -/
def colLines (L : Word) : Byte := BitField.get 10 8 L

def Dark (L : Word) : Prop := rowLines L = 0 ∧ colLines L = 0

instance : DecidablePred Dark := fun _ => inferInstanceAs (Decidable (_ ∧ _))

/-- No line outside 10–17 and 20–27 differs. -/
def SameOutside (L L' : Word) : Prop :=
  ∀ p, ¬(10 ≤ p ∧ p ≤ 17) → ¬(20 ≤ p ∧ p ≤ 27) → L'.getLsbD p = L.getLsbD p

/-- At most one row is high, and a high row `r` finds byte `r` of the frame on the columns. -/
def GhostFree (val : Row) (L : Word) : Prop :=
  ∀ r : Fin 8, (rowLines L).getLsbD r = true →
    colLines L = val[r] ∧ ∀ r' : Fin 8, (rowLines L).getLsbD r' = true → r' = r

theorem SameOutside.refl (L : Word) : SameOutside L L := fun _ _ _ => rfl

theorem SameOutside.trans {L L' L'' : Word} (h : SameOutside L L') (h' : SameOutside L' L'') : SameOutside L L'' :=
  fun p h1 h2 => (h' p h1 h2).trans (h p h1 h2)

theorem ghostFree_of_rows_low {val : Row} {L : Word} (h : rowLines L = 0) : GhostFree val L := by
  intro r hr
  rw [h] at hr
  simp at hr

/-! ### The four masks of the row loop -/

theorem rowMask_eq (r : Fin 8) : 0x01#32 <<< (20 + r.val) = BitField.lift 32 20 (1#8 <<< r.val) := by
  revert r; decide

theorem clearRows_eq : 0xFF#32 <<< 20 = BitField.lift 32 20 (BitVec.allOnes 8) := by decide

theorem clearCols_eq : 0xFF#32 <<< 10 = BitField.lift 32 10 (BitVec.allOnes 8) := by decide

/-- The byte with only bit `r` set. -/
theorem getLsbD_one_shift (r r' : Fin 8) : (1#8 <<< r.val).getLsbD r' = decide (r' = r) := by
  revert r r'; decide

section
variable (L : Word) (c : Byte)

@[simp] theorem rowLines_setRows : rowLines (L ||| BitField.lift 32 20 c) = rowLines L ||| c :=
  BitField.get_or_lift (by decide) c L

@[simp] theorem colLines_setRows : colLines (L ||| BitField.lift 32 20 c) = colLines L :=
  BitField.get_or_lift_disjoint (by decide) (by decide) c L

@[simp] theorem rowLines_setCols : rowLines (L ||| BitField.lift 32 10 c) = rowLines L :=
  BitField.get_or_lift_disjoint (by decide) (by decide) c L

@[simp] theorem colLines_setCols : colLines (L ||| BitField.lift 32 10 c) = colLines L ||| c :=
  BitField.get_or_lift (by decide) c L

@[simp] theorem rowLines_clearRows : rowLines (L &&& ~~~BitField.lift 32 20 c) = rowLines L &&& ~~~c :=
  BitField.get_clear_lift (by decide) c L

@[simp] theorem colLines_clearRows : colLines (L &&& ~~~BitField.lift 32 20 c) = colLines L :=
  BitField.get_clear_lift_disjoint (by decide) (by decide) c L

@[simp] theorem rowLines_clearCols : rowLines (L &&& ~~~BitField.lift 32 10 c) = rowLines L :=
  BitField.get_clear_lift_disjoint (by decide) (by decide) c L

@[simp] theorem colLines_clearCols : colLines (L &&& ~~~BitField.lift 32 10 c) = colLines L &&& ~~~c :=
  BitField.get_clear_lift (by decide) c L

theorem rowLines_clearAll : rowLines (L &&& ~~~BitField.lift 32 20 (BitVec.allOnes 8)) = 0 := by
  rw [rowLines_clearRows, BitVec.not_allOnes]
  exact BitVec.and_zero

theorem colLines_clearAll : colLines (L &&& ~~~BitField.lift 32 10 (BitVec.allOnes 8)) = 0 := by
  rw [colLines_clearCols, BitVec.not_allOnes]
  exact BitVec.and_zero

theorem sameOutside_setRows : SameOutside L (L ||| BitField.lift 32 20 c) := fun _ _ h =>
  BitField.getLsbD_or_lift_outside (by decide) c L (by omega)

theorem sameOutside_setCols : SameOutside L (L ||| BitField.lift 32 10 c) := fun _ h _ =>
  BitField.getLsbD_or_lift_outside (by decide) c L (by omega)

theorem sameOutside_clearRows : SameOutside L (L &&& ~~~BitField.lift 32 20 c) := fun p _ h => by
  rw [BitField.getLsbD_clear_lift (by decide), decide_eq_false (by omega), Bool.false_and, Bool.not_false, Bool.and_true]

theorem sameOutside_clearCols : SameOutside L (L &&& ~~~BitField.lift 32 10 c) := fun p h _ => by
  rw [BitField.getLsbD_clear_lift (by decide), decide_eq_false (by omega), Bool.false_and, Bool.not_false, Bool.and_true]

end

/-- The row and column lines seen at each delay. -/
def seen (tr : List (BusOp × Bus)) : List (Byte × Byte) :=
  tr.filterMap fun x => match x.1 with
    | .udelay _ => some (rowLines x.2.lines, colLines x.2.lines)
    | .store _ _ => none

theorem seen_append (tr tr' : List (BusOp × Bus)) : seen (tr ++ tr') = seen tr ++ seen tr' :=
  List.filterMap_append

/-- What one operation sequence guarantees about the lines, started on `b`. -/
structure Shows (val : Row) (b : Bus) (ops : List BusOp) (rs : List (Fin 8)) : Prop where
  ghostFree : ∀ x ∈ b.trace ops, GhostFree val x.2.lines
  outside : ∀ x ∈ b.trace ops, SameOutside b.lines x.2.lines
  shown : seen (b.trace ops) = rs.map fun r => (1#8 <<< r.val, val[r])
  dark : Dark (b.execAll ops).lines
  same : SameOutside b.lines (b.execAll ops).lines

/-- **One row** (`:83-88`): from sixteen low lines, at every store at most row `r` is high and then
byte `r` is on the columns; the lines are low again at the end. -/
theorem rowOps_spec (val : Row) (r : Fin 8) (b : Bus) (hb : Dark b.lines) : Shows val b (rowOps val r) [r] := by
  obtain ⟨hr, hc⟩ := hb
  -- the lines after the four stores
  obtain ⟨L1, e1⟩ : ∃ L1, L1 = b.lines ||| BitField.lift 32 10 val[r] := ⟨_, rfl⟩
  obtain ⟨L2, e2⟩ : ∃ L2, L2 = L1 ||| BitField.lift 32 20 (1#8 <<< r.val) := ⟨_, rfl⟩
  obtain ⟨L3, e3⟩ : ∃ L3, L3 = L2 &&& ~~~BitField.lift 32 20 (BitVec.allOnes 8) := ⟨_, rfl⟩
  obtain ⟨L4, e4⟩ : ∃ L4, L4 = L3 &&& ~~~BitField.lift 32 10 (BitVec.allOnes 8) := ⟨_, rfl⟩
  have r1 : rowLines L1 = 0 := by rw [e1, rowLines_setCols, hr]
  have c1 : colLines L1 = val[r] := by rw [e1, colLines_setCols, hc]; exact BitVec.zero_or
  have r2 : rowLines L2 = 1#8 <<< r.val := by rw [e2, rowLines_setRows, r1]; exact BitVec.zero_or
  have c2 : colLines L2 = val[r] := by rw [e2, colLines_setRows, c1]
  have r3 : rowLines L3 = 0 := by rw [e3, rowLines_clearAll]
  have r4 : rowLines L4 = 0 := by rw [e4, rowLines_clearCols, r3]
  have c4 : colLines L4 = 0 := by rw [e4, colLines_clearAll]
  have o1 : SameOutside b.lines L1 := e1 ▸ sameOutside_setCols _ _
  have o2 : SameOutside b.lines L2 := o1.trans (e2 ▸ sameOutside_setRows _ _)
  have o3 : SameOutside b.lines L3 := o2.trans (e3 ▸ sameOutside_clearRows _ _)
  have o4 : SameOutside b.lines L4 := o3.trans (e4 ▸ sameOutside_clearCols _ _)
  have g2 : GhostFree val L2 := by
    intro i hi
    rw [r2, getLsbD_one_shift, decide_eq_true_eq] at hi
    subst hi
    refine ⟨c2, fun i' hi' => ?_⟩
    rw [r2, getLsbD_one_shift, decide_eq_true_eq] at hi'
    exact hi'
  have htr : b.trace (rowOps val r) =
      [(.store 7 (val[r].setWidth 32 <<< 10), { b with lines := L1 }),
       (.store 7 (0x01#32 <<< (20 + r.val)), { b with lines := L2 }),
       (.udelay 1, { b with lines := L2 }),
       (.store 10 (0xFF#32 <<< 20), { b with lines := L3 }),
       (.store 10 (0xFF#32 <<< 10), { b with lines := L4 })] := by
    rw [e4, e3, e2, e1, ← rowMask_eq, ← clearRows_eq, ← clearCols_eq]
    rfl
  have hend : (b.execAll (rowOps val r)).lines = L4 := by
    rw [e4, e3, e2, e1, ← rowMask_eq, ← clearRows_eq, ← clearCols_eq]
    rfl
  refine ⟨?_, ?_, ?_, ?_, ?_⟩
  · rw [htr]
    simp only [List.forall_mem_cons, List.not_mem_nil, false_imp_iff, implies_true, and_true]
    exact ⟨ghostFree_of_rows_low r1, g2, g2, ghostFree_of_rows_low r3, ghostFree_of_rows_low r4⟩
  · rw [htr]
    simp only [List.forall_mem_cons, List.not_mem_nil, false_imp_iff, implies_true, and_true]
    exact ⟨o1, o2, o2, o3, o4⟩
  · rw [htr]
    simp [seen, r2, c2]
  · rw [hend]
    exact ⟨r4, c4⟩
  · rw [hend]
    exact o4

/-- The row loop over any rows. -/
theorem rowLoop_spec (val : Row) : ∀ (rs : List (Fin 8)) (b : Bus), Dark b.lines →
    Shows val b (rs.flatMap (rowOps val)) rs
  | [], b, hb => ⟨by simp [Bus.trace], by simp [Bus.trace], rfl, hb, SameOutside.refl _⟩
  | r :: rs, b, hb => by
    have h1 := rowOps_spec val r b hb
    have h2 := rowLoop_spec val rs (b.execAll (rowOps val r)) h1.dark
    rw [List.flatMap_cons]
    refine ⟨?_, ?_, ?_, ?_, ?_⟩
    · intro x hx
      rw [Bus.trace_append, List.mem_append] at hx
      rcases hx with hx | hx
      · exact h1.ghostFree x hx
      · exact h2.ghostFree x hx
    · intro x hx
      rw [Bus.trace_append, List.mem_append] at hx
      rcases hx with hx | hx
      · exact h1.outside x hx
      · exact h1.same.trans (h2.outside x hx)
    · rw [Bus.trace_append, seen_append, h1.shown, h2.shown]
      rfl
    · rw [Bus.execAll_append]
      exact h2.dark
    · rw [Bus.execAll_append]
      exact h1.same.trans h2.same

/-! ## Sequences of frames -/

/-- The eight rows of a frame, as they are seen at its delays. -/
def frameRows (val : Row) : List (Byte × Byte) := (List.finRange 8).map fun r => (1#8 <<< r.val, val.get r)

/-- Frame after frame on a dark matrix. -/
theorem frames_spec (vals : List Row) : ∀ b : Bus, Dark b.lines →
    seen (b.trace (vals.flatMap scanOut)) = vals.flatMap frameRows ∧ Dark (b.execAll (vals.flatMap scanOut)).lines := by
  induction vals with
  | nil => exact fun b hb => ⟨rfl, hb⟩
  | cons val vals ih =>
    intro b hb
    have h := rowLoop_spec val (List.finRange 8) b hb
    obtain ⟨hseen, hdark⟩ := ih (b.execAll (scanOut val)) h.dark
    refine ⟨?_, ?_⟩
    · rw [List.flatMap_cons, Bus.trace_append, seen_append, hseen, List.flatMap_cons]
      exact congrArg (· ++ _) h.shown
    · rw [List.flatMap_cons, Bus.execAll_append]
      exact hdark

/-! ## Sequences of calls -/

/-- A call on an 8-byte frame. The copy never moves more bytes than asked for, and what
`copy_from_user` reports is at most that length. -/
structure DotCall where
  frame : Row
  length : Nat
  uncopied : Nat
  length_le : length ≤ 8
  uncopied_le : uncopied ≤ length

/-- User memory as the call finds it. -/
def DotCall.gdata (c : DotCall) (i : Nat) : Option Byte := c.frame[i]?

theorem loadRow_gdata (c : DotCall) : loadRow c.gdata = some c.frame := by
  obtain ⟨⟨⟨xs⟩, hxs⟩, -, -, -, -⟩ := c
  match xs, hxs with
  | [b0, b1, b2, b3, b4, b5, b6, b7], _ => rfl

/-- A call as it ran: what it returned, and the bank after each of its operations and at its end. -/
structure Served where
  call : DotCall
  ret : Int
  trace : List (BusOp × Bus)
  after : Bus

/-- Consecutive calls of `dot_write`. -/
def runCalls : Bus → List DotCall → Option (List Served)
  | _, [] => some []
  | b, c :: cs => do
    let w ← dotWrite c.gdata c.length c.uncopied
    let rest ← runCalls (b.execAll w.ops) cs
    some (⟨c, w.ret, b.trace w.ops, b.execAll w.ops⟩ :: rest)

theorem dotWrite_call (c : DotCall) :
    dotWrite c.gdata c.length c.uncopied = some ⟨c.length, some c.frame, scanOut c.frame⟩ := by
  have h1 := c.length_le
  have h2 := c.uncopied_le
  rw [dotWrite, wrap_id (by omega) (by omega), wrap_id (by omega) (by omega), loadRow_gdata]
  simp

/-- What holds of one served call when the lines were `L` before the first one. -/
structure Clean (L : Word) (s : Served) : Prop where
  ret : s.ret = s.call.length
  ghostFree : ∀ x ∈ s.trace, GhostFree s.call.frame x.2.lines
  outside : ∀ x ∈ s.trace, SameOutside L x.2.lines
  shown : seen s.trace = (List.finRange 8).map fun r => (1#8 <<< r.val, s.call.frame[r])
  dark : Dark s.after.lines

/-- **`dot_write` (`dot_driver.c:60`)**, any sequence of frames from sixteen low lines: after every
store at most one row is high and finds its own byte on the columns; the eight delays of a call show
the eight bytes of its frame in order; every call leaves the sixteen lines low; no other line moves. -/
theorem dot_write_ghost_free (cs : List DotCall) (b : Bus) (hb : Dark b.lines) :
    ∃ log, runCalls b cs = some log ∧ log.map Served.call = cs ∧ ∀ s ∈ log, Clean b.lines s := by
  induction cs generalizing b with
  | nil => exact ⟨[], rfl, rfl, by simp⟩
  | cons c cs ih =>
    have h := rowLoop_spec c.frame (List.finRange 8) b hb
    obtain ⟨log, hrun, hcalls, hclean⟩ := ih (b.execAll (scanOut c.frame)) h.dark
    refine ⟨⟨c, c.length, b.trace (scanOut c.frame), b.execAll (scanOut c.frame)⟩ :: log, ?_, ?_, ?_⟩
    · rw [runCalls, dotWrite_call]
      simp only [Option.bind_eq_bind, Option.bind_some, hrun]
    · rw [List.map_cons, hcalls]
    intro s hs
    rcases List.mem_cons.1 hs with rfl | hs
    · exact ⟨rfl, h.ghostFree, h.outside, h.shown, h.dark⟩
    · have hc := hclean s hs
      exact ⟨hc.ret, hc.ghostFree, fun x hx => h.same.trans (hc.outside x hx), hc.shown, hc.dark⟩

/-- The glyphs `8` and `7` one after the other on an all-low bank; the application passes the length 1. -/
theorem dot_write_ghost_free_eight_seven :
    Dark 0 ∧ ∃ log, runCalls ⟨fun _ => 0, 0⟩
        [⟨dotValues[8], 1, 0, by decide, by decide⟩, ⟨dotValues[7], 1, 0, by decide, by decide⟩] = some log ∧
      ∀ s ∈ log, Clean 0 s := by
  have hdark : Dark 0 := by decide
  obtain ⟨log, hrun, -, hclean⟩ := dot_write_ghost_free
    [⟨dotValues[8], 1, 0, by decide, by decide⟩, ⟨dotValues[7], 1, 0, by decide, by decide⟩] ⟨fun _ => 0, 0⟩ hdark
  exact ⟨hdark, log, hrun, hclean⟩

end CoinMachine
