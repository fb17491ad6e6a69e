import CoinMachine.MotorLine
/-!
# The matrix lines over the processes

What is seen on the lines 10–17 and 20–27 at the delays of the frames is, frame by frame, what the process has written to
the matrix: blanks first, then the windows of its reports. Between frames the lines are low. All this holds as long
as the motor is switched on without touching them: its command is `*(motor + 7) |= (0x1 << 9)`, and register 7 is
write-only. A read that has a bit of the matrix in it raises that line, and no read that has none does
(`matrix_exact_iff`). Switching the motor off cannot do harm, since the lines are low by then.
-/

namespace CoinMachine

open Transition

/-! ## The lines of the matrix -/

def matrixPin (p : Nat) : Prop := 10 ≤ p ∧ p ≤ 17 ∨ 20 ≤ p ∧ p ≤ 27

theorem getLsbD_matrix (L : Word) {j : Nat} (hj : j < 8) :
    (colLines L).getLsbD j = L.getLsbD (10 + j) ∧ (rowLines L).getLsbD j = L.getLsbD (20 + j) := by
  simp [colLines, rowLines, BitField.get, hj]

theorem dark_iff {L : Word} : Dark L ↔ ∀ p, matrixPin p → L.getLsbD p = false := by
  constructor
  · rintro ⟨hrow, hcol⟩ p hp
    rcases hp with hp | hp
    · obtain ⟨j, rfl⟩ := Nat.exists_eq_add_of_le hp.1
      rw [← (getLsbD_matrix L (j := j) (by omega)).1, hcol]
      simp
    · obtain ⟨j, rfl⟩ := Nat.exists_eq_add_of_le hp.1
      rw [← (getLsbD_matrix L (j := j) (by omega)).2, hrow]
      simp
  · intro h
    constructor
    · apply BitVec.eq_of_getLsbD_eq
      intro j hj
      rw [(getLsbD_matrix L hj).2, h _ (Or.inr (by omega))]
      simp
    · apply BitVec.eq_of_getLsbD_eq
      intro j hj
      rw [(getLsbD_matrix L hj).1, h _ (Or.inl (by omega))]
      simp

theorem driven_matrix {p : Nat} (h : matrixPin p) : p < 32 ∧ driven p = true := by
  unfold matrixPin at h
  have h32 : p < 32 := by omega
  refine ⟨h32, ?_⟩
  revert h
  revert p
  decide

/-- A byte for the motor shows nothing on the matrix. -/
theorem seen_motorCall (v : Byte) (reg : Word) (b : Bus) : seen (b.trace (motorCall v reg).busOps) = [] := by
  by_cases h1 : v = 1
  · subst h1
    rfl
  · by_cases h0 : v = 0
    · subst h0
      rfl
    · have hops : (motorCall v reg).busOps = [] := by
        simp only [Issued.busOps, motorCall, PinCmd.ops, if_neg h1, if_neg h0]
        rfl
      rw [hops]
      rfl

theorem lines_motorOn (reg : Word) (b : Bus) {p : Nat} (hp : matrixPin p) :
    (b.execAll (motorCall 1 reg).busOps).lines.getLsbD p = (b.lines.getLsbD p || reg.getLsbD p) := by
  have h9 : 9 ≠ p := by
    unfold matrixPin at hp
    omega
  have hbit := getLsbD_exec b 9 (.raise, reg) (driven_matrix hp).1
  simp only [PinOp.level, Option.elim_some, h9, or_false] at hbit
  have hcall : (b.execAll (motorCall 1 reg).busOps).lines.getLsbD p =
      (b.exec (PinOp.store 9 reg .raise)).lines.getLsbD p := rfl
  rw [hcall, hbit]
  cases reg.getLsbD p <;> simp

theorem dark_motorOff (reg : Word) {b : Bus} (hb : Dark b.lines) :
    Dark (b.execAll (motorCall 0 reg).busOps).lines := by
  rw [dark_iff] at hb ⊢
  intro p hp
  have hbit := getLsbD_exec b 9 (.lower, reg) (driven_matrix hp).1
  simp only [PinOp.level, Option.elim_some, hb p hp, ite_self] at hbit
  exact hbit

/-! ## The invariant -/

/-- The matrix as it is to be: dark, having carried the frames that the process has written, blanks and then the
windows of each report for the coins counted. -/
structure MatrixExact (x : Board) : Prop where
  dark : Dark x.bus.lines
  lit : ∃ blanks, x.lit =
    (List.replicate blanks blankRow ++ x.s.main.loop.log.flatMap ReportRun.frames).flatMap frameRows
  exact : ∀ r ∈ x.s.main.loop.log, r.view =
    r.report.view ⟨x.log.count (.count .sens1), x.log.count (.count .sens2), x.log.count (.count .sens3)⟩

/-- If this switches the motor on, what is read names no line of the matrix. -/
def SparesMatrix (x : Board) (b : BoardAct) : Prop := ∀ inp m, b = .proc (.main inp) m → x.s.main.pc = .motorOn →
  0 ≤ x.s.main.mot_fd → ∀ p, matrixPin p → m.reg.getLsbD p = false

/-- Frames that are written by a statement of `main`. -/
theorem frames_step {x : Board} (hdark : Dark x.bus.lines) (vals : List Row) {lit : List Row}
    (hlit : x.lit = lit.flatMap frameRows) :
    Dark (x.bus.execAll (vals.flatMap scanOut)).lines ∧
    x.lit ++ seen (x.bus.trace (vals.flatMap scanOut)) = (lit ++ vals).flatMap frameRows := by
  obtain ⟨hseen, hend⟩ := frames_spec vals x.bus hdark
  exact ⟨hend, by rw [hseen, hlit, List.flatMap_append]⟩

theorem reachable_motorByte {c : Clock} {x : State × List Event} (h : Reachable (logStep c) Init x) :
    MotorByte x.1.ctl := by
  refine h.invariant (P := fun x => MotorByte x.1.ctl) (fun x hx => Or.inl hx.mot_data) ?_
  rintro ⟨s, log⟩ a ⟨s', log'⟩ hs hstep
  obtain ⟨evs, -, ⟨inp, -, hmove⟩ | ⟨n, inp, t, t', -, -, -, -, heq⟩⟩ := logStep_cases hstep
  · exact hs.move hmove
  · exact hs.thread (by rw [heq])

theorem reachable_shownOk {c : Clock} {x : State × List Event} (h : Reachable (logStep c) Init x) : ShownOk x.1 :=
  (h.invariant (P := fun x => Inv x.1.ctl x.2 ∧ ShownOk x.1) (fun _ hx => ⟨.init hx, .init hx⟩)
    fun _ _ _ hx hs => ⟨hx.1.step hs, hx.2.step hx.1 hs⟩).2

/-- A statement of `main` on a dark matrix. -/
theorem MatrixExact.main {c : Clock} {x x' : Board} {inp : Input} {m : Meets} (hr : Reachable (logStep c) Init (x.s, x.log))
    (hx : MatrixExact x) (hb : SparesMatrix x (.proc (.main inp) m)) (h : boardStep c x (.proc (.main inp) m) = some x') :
    MatrixExact x' := by
  obtain ⟨hprog, hfiles⟩ := boardStep_proc h
  have hexact := shown_exact c x'.s x'.log (hr.snoc hprog)
  obtain ⟨evs, hstep, -⟩ := logStep_step hprog
  obtain ⟨blanks, hlit⟩ := hx.lit
  have hmove := mainStep_lines hstep m.reg
  generalize hops : (Action.main inp).busOps x.s x'.s m.reg = ops at hmove hfiles
  rcases hfiles with ⟨d, hd, -, hopen, hlit'⟩ | ⟨-, hbus, hlit'⟩
  · -- an open moves no line, and it is no report
    have hloop : x'.s.main.loop = x.s.main.loop := by
      rcases mainStep_loop hstep with hloop | ⟨r, hpc, -⟩
      · exact hloop
      · simp [Action.opens, hpc] at hd
    refine ⟨?_, ⟨blanks, by rw [hlit', hloop, hlit]⟩, hexact⟩
    rw [Board.bus, kernel_open hopen, lines_open]
    exact hx.dark
  · have hend : x'.bus = x.bus.execAll ops := by
      rw [Board.bus, hbus]
      rfl
    cases hmove with
    | motor hpc hloop =>
      have hbyte := (reachable_motorByte hr).command (reachable_inv hr) hpc
      by_cases hfd : 0 ≤ x.s.main.mot_fd
      · rw [if_pos hfd] at hend hlit'
        refine ⟨?_, ⟨blanks, by rw [hlit', seen_motorCall, List.append_nil, hloop, hlit]⟩, hexact⟩
        rw [hend, hbyte]
        by_cases hon : x.s.main.pc = .motorOn
        · rw [if_pos hon, dark_iff]
          intro p hp
          rw [lines_motorOn m.reg x.bus hp, dark_iff.1 hx.dark p hp, hb inp m rfl hon hfd p hp, Bool.or_false]
        · rw [if_neg hon]
          exact dark_motorOff m.reg hx.dark
      · rw [if_neg hfd] at hend hlit'
        refine ⟨by rw [hend]; exact hx.dark, ⟨blanks, ?_⟩, hexact⟩
        rw [hlit', hloop, hlit]
        exact List.append_nil _
    | blank k _ _ hloop hk =>
      obtain ⟨hdark, hrows⟩ := frames_step hx.dark (List.replicate k blankRow) hlit
      refine ⟨by rw [hend]; exact hdark, ?_, hexact⟩
      by_cases h0 : k = 0
      · subst h0
        exact ⟨blanks, by rw [hlit', hloop, hrows, List.replicate_zero, List.append_nil]⟩
      · -- no report has been written yet
        have hnone := (reachable_shownOk hr).before (hk h0)
        refine ⟨blanks + k, ?_⟩
        rw [hlit', hloop, hrows, hnone, List.flatMap_nil, List.append_nil, List.append_nil, List.replicate_add]
    | report r _ hlog =>
      obtain ⟨hdark, hrows⟩ := frames_step hx.dark r.frames hlit
      refine ⟨by rw [hend]; exact hdark, ⟨blanks, ?_⟩, hexact⟩
      have hframes : (x.s.main.loop.log ++ [r]).flatMap ReportRun.frames =
          x.s.main.loop.log.flatMap ReportRun.frames ++ r.frames := by simp
      rw [hlit', hrows, hlog, hframes, List.append_assoc]

/-- The step lemma. -/
theorem MatrixExact.step {c : Clock} {x x' : Board} {b : BoardAct} (hr : Reachable (logStep c) Init (x.s, x.log))
    (hx : MatrixExact x) (hb : SparesMatrix x b) (h : boardStep c x b = some x') : MatrixExact x' := by
  cases b with
  | proc a m =>
    cases a with
    | main inp => exact hx.main hr hb h
    | thread n inp =>
      obtain ⟨hprog, hfiles⟩ := boardStep_proc h
      have hexact := shown_exact c x'.s x'.log (hr.snoc hprog)
      obtain ⟨evs, hstep, -⟩ := logStep_step hprog
      obtain ⟨t, t', -, -, -, hs⟩ := step_thread hstep
      have hmain : x'.s.main = x.s.main := by rw [hs]
      have hlines : x'.bus.lines = x.bus.lines ∧ x'.lit = x.lit := by
        rcases hfiles with ⟨d, -, -, hopen, hlit⟩ | ⟨-, hbus, hlit⟩
        · rw [Board.bus, kernel_open hopen]
          exact ⟨lines_open d m.avail x.files.kernel, hlit⟩
        · rw [Board.bus, hbus, hlit]
          exact ⟨rfl, List.append_nil _⟩
      refine ⟨by rw [hlines.1]; exact hx.dark, ?_, hexact⟩
      rw [hlines.2, hmain]
      exact hx.lit
  | close d =>
    obtain ⟨-, hrel, hs, hlog, hlit⟩ := boardStep_close h
    obtain ⟨-, hf⟩ := fileStep_release hrel
    have hbus : x'.bus = x.bus := by
      rw [Board.bus, hf]
      exact bus_release d x.files.kernel
    exact ⟨by rw [hbus]; exact hx.dark, by rw [hlit, hs]; exact hx.lit, by rw [hs, hlog]; exact hx.exact⟩
  | exec m =>
    obtain ⟨-, -, rfl⟩ := boardStep_exec h
    exact ⟨hx.dark, ⟨0, rfl⟩, fun r hr' => absurd hr' List.not_mem_nil⟩
  | lines L =>
    obtain ⟨hkeep, rfl⟩ := boardStep_lines h
    refine ⟨dark_iff.2 fun p hp => ?_, hx.lit, hx.exact⟩
    obtain ⟨h32, hdriven⟩ := driven_matrix hp
    exact (hkeep p h32 hdriven).trans (dark_iff.1 hx.dark p hp)

/-- A read that names a line of the matrix raises it. -/
theorem spares_of_dark {c : Clock} {x x' : Board} {b : BoardAct} (hr : Reachable (logStep c) Init (x.s, x.log))
    (h : boardStep c x b = some x') (hdark : Dark x'.bus.lines) : SparesMatrix x b := by
  rintro inp m rfl hpc hfd p hp
  obtain ⟨-, ⟨d, hd, -⟩ | ⟨-, hbus, -⟩⟩ := boardStep_proc h
  · simp [Action.opens, hpc] at hd
  · have hbyte : x.s.main.mot_data = 1 :=
      ((reachable_motorByte hr).command (reachable_inv hr) (Or.inl hpc)).trans (if_pos hpc)
    have hend : x'.bus = x.bus.execAll (motorCall 1 m.reg).busOps := by
      rw [Board.bus, hbus]
      simp only [Action.busOps, hpc, if_pos hfd, hbyte]
      rfl
    have hlow := dark_iff.1 hdark p hp
    rw [hend, lines_motorOn m.reg x.bus hp, Bool.or_eq_false_iff] at hlow
    exact hlow.2

/-- **The matrix shows what was counted.** In any sequence of processes on the drivers, each with any schedule and any
answers, if the matrix is dark at first: in every state it is dark, and what its lines have carried since the start of
the process are the frames that it has written, blanks first and then the windows of each report for the coins counted,
exactly if no read that switches the motor on names a line of the matrix. -/
theorem matrix_exact_iff (c : Clock) (x₀ x : Board) (as : List BoardAct) (h₀ : BoardInit x₀) (hdark : Dark x₀.bus.lines)
    (h : run (boardStep c) x₀ as = some x) :
    (∀ pre post t, as = pre ++ post → run (boardStep c) x₀ pre = some t → MatrixExact t) ↔
    ∀ pre b post t, as = pre ++ b :: post → run (boardStep c) x₀ pre = some t → SparesMatrix t b := by
  have hreach : ∀ {pre t}, run (boardStep c) x₀ pre = some t → Reachable (logStep c) Init (t.s, t.log) :=
    fun ht => board_reachable ⟨_, _, h₀, ht⟩
  constructor
  · intro hexact pre b post t heq ht
    obtain ⟨u, hstep, hu⟩ := run_split (heq ▸ h) ht
    have hpre : as = (pre ++ [b]) ++ post := by rw [heq, List.append_assoc]; rfl
    exact spares_of_dark (hreach ht) hstep (hexact _ _ u hpre hu).dark
  · intro hspares pre post t heq ht
    have hinit : MatrixExact x₀ := by
      have hlog : x₀.s.main.loop.log = [] := h₀.prog.shown
      exact ⟨hdark, ⟨0, by rw [h₀.lit, hlog]; rfl⟩, by rw [hlog]; exact fun r hr => absurd hr List.not_mem_nil⟩
    have hall : Reachable (boardStep c) BoardInit t ∧ MatrixExact t := by
      refine run_along (P := fun t => Reachable (boardStep c) BoardInit t ∧ MatrixExact t) (C := SparesMatrix) ?_
        ⟨.of_init h₀, hinit⟩ hspares post t heq ht
      rintro t b t' ⟨hr, hx⟩ hb hstep
      exact ⟨hr.snoc hstep, hx.step (board_reachable hr) hb hstep⟩
    exact hall.2

/-- The program up to the motor, with zeros for what is read: the matrix has carried one blank frame. -/
theorem matrix_exact_iff_boot : ∃ x, run (boardStep .ticks) .boot
      (bootActions.map (fun a => .proc a ⟨⟨true, 0⟩, 0⟩) ++ [.proc (.main .none) ⟨⟨true, 0⟩, 0⟩]) = some x ∧
    x.s.main.pc = .blankDot ∧ MatrixExact x := by
  obtain ⟨x, hx, hpc⟩ : ∃ x, run (boardStep .ticks) .boot
      (bootActions.map (fun a => .proc a ⟨⟨true, 0⟩, 0⟩) ++ [.proc (.main .none) ⟨⟨true, 0⟩, 0⟩]) = some x ∧
      x.s.main.pc = .blankDot := ⟨_, rfl, rfl⟩
  have hdark : Dark Board.boot.bus.lines := ⟨rfl, rfl⟩
  refine ⟨x, hx, hpc, (matrix_exact_iff .ticks .boot x _ boardInit_boot hdark hx).2 ?_ _ [] x (List.append_nil _).symm hx⟩
  rintro pre b post t heq - inp m rfl - - p -
  have hmem := heq ▸ List.mem_append_right pre List.mem_cons_self
  have hreg : m.reg = 0 := by
    rcases List.mem_append.1 hmem with hm | hm
    · obtain ⟨a, -, ha⟩ := List.mem_map.1 hm
      cases ha
      rfl
    · cases List.mem_singleton.1 hm
      rfl
  rw [hreg]
  simp

end CoinMachine
