import CoinMachine.Restart
import CoinMachine.Shown
/-!
# What the board does to its lines

Line 9 is the motor, the lines 10–17 and 20–27 are the matrix. The process that runs is the only one that drives them,
and it does so through two files: a byte for the motor is a command to line 9 (`motor_write`), a row for the matrix a
frame (`dot_write`). Every statement of `main` does one or the other or neither (`mainStep_lines`), and an open moves no
line (`lines_open`).
-/

namespace CoinMachine

open Transition EventLog Stutter

/-! ## Frames on the lines -/

/-- A frame leaves all other lines alone, whatever was on its own. -/
theorem sameOutside_scanOut (val : Row) (b : Bus) : SameOutside b.lines (b.execAll (scanOut val)).lines := by
  suffices h : ∀ (rs : List (Fin 8)) (b : Bus), SameOutside b.lines (b.execAll (rs.flatMap (rowOps val))).lines from
    h (List.finRange 8) b
  intro rs
  induction rs with
  | nil => exact fun b => SameOutside.refl _
  | cons r rs ih =>
    intro b
    rw [List.flatMap_cons, Bus.execAll_append]
    refine SameOutside.trans ?_ (ih _)
    simp only [rowOps, Bus.execAll_cons, Bus.execAll_nil, Bus.exec, Bus.lines_set, Bus.lines_clr, rowMask_eq, clearRows_eq,
      clearCols_eq]
    exact (((sameOutside_setCols _ _).trans (sameOutside_setRows _ _)).trans (sameOutside_clearRows _ _)).trans
      (sameOutside_clearCols _ _)

theorem frames_outside (vals : List Row) : ∀ b : Bus, SameOutside b.lines (b.execAll (vals.flatMap scanOut)).lines := by
  induction vals with
  | nil => exact fun b => SameOutside.refl _
  | cons val vals ih =>
    intro b
    rw [List.flatMap_cons, Bus.execAll_append]
    exact (sameOutside_scanOut val b).trans (ih _)

/-- The operations of the drivers on their lines: nothing but the set and the clear register. -/
def OnLines (ops : List BusOp) : Prop := ∀ word v, .store word v ∈ ops → word = 7 ∨ word = 10

theorem regs_execAll {ops : List BusOp} (h : OnLines ops) : ∀ b : Bus, (b.execAll ops).regs = b.regs := by
  induction ops with
  | nil => exact fun b => rfl
  | cons op ops ih =>
    intro b
    rw [Bus.execAll_cons, ih fun word v hm => h word v (List.mem_cons_of_mem _ hm)]
    cases op with
    | store word v => rcases h word v List.mem_cons_self with rfl | rfl <;> rfl
    | udelay usecs => rfl

theorem onLines_scanOut (val : Row) : OnLines (scanOut val) := by
  intro word v hm
  obtain ⟨r, -, hm⟩ := List.mem_flatMap.1 hm
  simp only [rowOps, List.mem_cons, BusOp.store.injEq, reduceCtorEq, List.not_mem_nil, or_false, false_or] at hm
  omega

theorem onLines_frames (vals : List Row) : OnLines (vals.flatMap scanOut) := by
  intro word v hm
  obtain ⟨val, -, hm⟩ := List.mem_flatMap.1 hm
  exact onLines_scanOut val word v hm

theorem onLines_motor (v : Byte) (reg : Word) : OnLines (motorCall v reg).busOps := by
  intro word w hm
  obtain ⟨x, -, hx⟩ := List.mem_map.1 hm
  obtain ⟨op, r⟩ := x
  cases op <;> simp only [PinOp.store, BusOp.store.injEq, reduceCtorEq] at hx
  · exact Or.inl hx.1.symm
  · exact Or.inr hx.1.symm

/-! ## The frames of a report -/

/-- The rows that a report has written. -/
def ReportRun.frames (x : ReportRun) : List Row := x.shown.filterMap fun w => w.out.val

/-- A write that has got to the driver is a frame. -/
def IsFrame (w : Shown) : Prop := ∃ val, w.out.val = some val ∧ w.out.ops = scanOut val

theorem dotWrite_frame {gdata : Nat → Option Byte} {out : DotWrite} (h : dotWrite gdata 1 0 = some out) :
    ∃ val, out.val = some val ∧ out.ops = scanOut val := by
  have h0 : ¬ wrap (0 : Nat) < 0 := by decide
  rw [dotWrite, if_neg h0] at h
  obtain ⟨val, -, h⟩ := Option.bind_eq_some_iff.1 h
  cases h
  exact ⟨val, rfl, rfl⟩

theorem dwell_frames (c : Clock) (value : Buf) (i : Nat) (time : Int) (w : Nat) :
    ∀ d, dwell c value i time w = some d → ∀ x ∈ d.shown, IsFrame x := by
  fun_induction dwell c value i time w with
  | case1 time w hlt ih =>
    intro d h
    obtain ⟨out, hout, h⟩ := Option.bind_eq_some_iff.1 h
    rw [if_pos (c.sum_fits hlt w)] at h
    obtain ⟨d', hd', h⟩ := Option.bind_eq_some_iff.1 h
    cases h
    intro x hx
    rcases List.mem_cons.1 hx with rfl | hx
    · exact dotWrite_frame hout
    · exact ih d' hd' x hx
  | case2 time w hge =>
    intro d h
    cases h
    exact fun x hx => absurd hx List.not_mem_nil

theorem displayLoop_frames (c : Clock) (value : Buf) (l : Locals) (w : Nat) :
    ∀ s, displayLoop c value l w = some s → ∀ x ∈ s.shown, IsFrame x := by
  fun_induction displayLoop c value l w with
  | case1 l w hlt ih =>
    intro s h
    obtain ⟨d, hd, h⟩ := Option.bind_eq_some_iff.1 h
    obtain ⟨s', hs', h⟩ := Option.bind_eq_some_iff.1 h
    cases h
    intro x hx
    rcases List.mem_append.1 hx with hx | hx
    · exact dwell_frames c value _ _ _ d hd x hx
    · exact ih d s' hs' x hx
  | case2 l w hge =>
    intro s h
    cases h
    exact fun x hx => absurd hx List.not_mem_nil

/-- A branch appends its report, and all it has written are frames. -/
theorem serve_frames {r : Report} {c : Clock} {s t : LoopState} (h : r.serve c s = some t) :
    ∃ x, t.log = s.log ++ [x] ∧ ∀ w ∈ x.shown, IsFrame w := by
  obtain ⟨b, -, h⟩ := Option.bind_eq_some_iff.1 h
  obtain ⟨d, hd, h⟩ := Option.bind_eq_some_iff.1 h
  cases h
  exact ⟨_, rfl, displayLoop_frames c b.value _ _ d hd⟩

theorem ops_frames {ws : List Shown} (h : ∀ w ∈ ws, IsFrame w) :
    (ws.flatMap fun w => w.out.ops) = (ws.filterMap fun w => w.out.val).flatMap scanOut := by
  induction ws with
  | nil => rfl
  | cons w ws ih =>
    obtain ⟨val, hval, hops⟩ := h w List.mem_cons_self
    rw [List.flatMap_cons, ih fun w' hw' => h w' (List.mem_cons_of_mem _ hw'), hops, List.filterMap_cons, hval]
    rfl

/-! ## What a statement of `main` does to the lines -/

inductive LineMove (s s' : State) (reg : Word) : List BusOp → List Event → Prop where
  /-- a byte for the motor -/
  | motor (hpc : s.main.pc = .motorOn ∨ s.main.pc = .motorOff) (hloop : s'.main.loop = s.main.loop) :
      LineMove s s' reg (if 0 ≤ s.main.mot_fd then (motorCall s.main.mot_data reg).busOps else []) [.motor s.main.mot_data]
  /-- blank frames, and none from the dot check on -/
  | blank (k : Nat) {evs : List Event} (hpc : s.main.pc ≠ .motorOn ∧ s.main.pc ≠ .motorOff)
      (hevs : ∀ e ∈ evs, e.motorByte = none) (hloop : s'.main.loop = s.main.loop) (hk : k ≠ 0 → ¬ Settled s) :
      LineMove s s' reg ((List.replicate k blankRow).flatMap scanOut) evs
  /-- the frames of a report -/
  | report (x : ReportRun) {r : Report} (hpc : s.main.pc = .branch r) (hlog : s'.main.loop.log = s.main.loop.log ++ [x]) :
      LineMove s s' reg (x.frames.flatMap scanOut) []

theorem motorByte_of_isPoll {e : Event} (h : e.IsPoll) : e.motorByte = none := by
  obtain ⟨who, k, ready, rfl⟩ := h
  rfl

theorem mainStep_lines {c : Clock} {s s' : State} {inp : Input} {evs : List Event}
    (h : mainStep c s inp = some (s', evs)) (reg : Word) :
    LineMove s s' reg ((Action.main inp).busOps s s' reg) evs := by
  simp only [Action.busOps]
  cases hpc : s.main.pc <;> cases inp <;> simp only [mainStep, hpc, reduceCtorEq] at h
  case motorOn.none =>
    cases h
    exact .motor (Or.inl hpc) rfl
  case motorOff.none =>
    cases h
    exact .motor (Or.inr hpc) rfl
  case branch.none r =>
    obtain ⟨t, ht, heq⟩ := Option.map_eq_some_iff.1 h
    cases heq
    obtain ⟨x, hlog, hframes⟩ := serve_frames ht
    have hops : ((t.log.drop s.main.loop.log.length).flatMap fun x => x.shown.flatMap fun w => w.out.ops) =
        x.frames.flatMap scanOut := by
      rw [hlog, List.drop_left, List.flatMap_singleton, ops_frames hframes]
      rfl
    dsimp only
    rw [hops]
    exact .report x hpc hlog
  case clearDot.none | blankDot.none =>
    cases h
    have hset : ¬ Settled s := by simp [Settled, hpc, MainPc.region]
    by_cases hfd : 0 ≤ s.main.dot_fd
    · rw [if_pos hfd, ← List.append_nil (scanOut _)]
      exact .blank 1 (by simp [hpc]) (by simp) rfl fun _ => hset
    · rw [if_neg hfd]
      exact .blank 0 (by simp [hpc]) (by simp) rfl fun h0 => absurd rfl h0
  case waitPoll.polled | reportPoll.polled =>
    cases h
    exact .blank 0 (by simp [hpc]) (fun e he => motorByte_of_isPoll (pollEvents_isPoll _ _ _ e he)) rfl
      fun h0 => absurd rfl h0
  all_goals
    first
      | (cases h
         exact .blank 0 (by simp [hpc]) (by simp [Event.motorByte]) rfl fun h0 => absurd rfl h0)
      | (split at h <;> cases h <;>
         exact .blank 0 (by simp [hpc]) (by simp [Event.motorByte]) rfl fun h0 => absurd rfl h0)

theorem LineMove.onLines {s s' : State} {reg : Word} {ops : List BusOp} {evs : List Event}
    (h : LineMove s s' reg ops evs) : OnLines ops := by
  cases h with
  | motor _ _ =>
    split
    · exact onLines_motor _ _
    · exact fun word v hm => absurd hm List.not_mem_nil
  | blank k _ _ _ _ => exact onLines_frames _
  | report r _ _ => exact onLines_frames _

theorem busOps_onLines {c : Clock} {s s' : State} {a : Action} {evs : List Event} (h : step c s a = some (s', evs))
    (reg : Word) : OnLines (a.busOps s s' reg) := by
  cases a with
  | main inp => exact (mainStep_lines h reg).onLines
  | thread n inp => exact fun word v hm => absurd hm List.not_mem_nil

/-! ## What an open does to the bank -/

/-- The bank after an open that has failed is that before it, or that after a successful one. -/
theorem bus_open_cases (d : Driver) (a : Avail) (k : Kernel) : (d.open a k).2.bus = k.bus ∨
    ∃ k', k'.bus = k.bus ∧ 0 ≤ (d.open ⟨true, 0⟩ k').1 ∧ (d.open a k).2.bus = (d.open ⟨true, 0⟩ k').2.bus := by
  by_cases h : (d.open a k).2.bus = k.bus
  · exact Or.inl h
  · right
    have hav : Available d ⟨true, 0⟩ := ⟨rfl, fun _ _ => Int.le_refl 0⟩
    refine ⟨{ k with dev := fun _ => ⟨0, none, none⟩ }, rfl, open_nonneg_iff.2 ⟨rfl, hav⟩, ?_⟩
    rw [bus_open (open_nonneg_iff.2 ⟨rfl, hav⟩)]
    have hm := bus_mapGpio d a k
    cases d <;> simp only [Driver.open, keyOpen, sensOpen, motorOpen, dotOpen] at h ⊢
    case key n =>
      split at h
      · exact absurd hm h
      · rename_i hneg
        rw [if_neg hneg, hm]
        split <;> rfl
    all_goals
      split at h
      · exact absurd hm h
      · rename_i hneg
        rw [if_neg hneg, hm]
        rfl

theorem lines_setFields (v : Word) (fs : List (Nat × Nat)) (hfs : ∀ f ∈ fs, f.1 < 3 ∧ f.2 < 10) : ∀ b : Bus,
    (fs.foldl (fun b f => b.setField f.1 f.2 v) b).lines = b.lines := by
  induction fs with
  | nil => exact fun b => rfl
  | cons f fs ih =>
    intro b
    have hw := (hfs f List.mem_cons_self).1
    have h7 : f.1 ≠ 7 := by omega
    have h10 : f.1 ≠ 10 := by omega
    rw [List.foldl_cons, ih fun g hg => hfs g (List.mem_cons_of_mem _ hg)]
    simp [Bus.setField, Bus.store, h7, h10]

/-- An open moves no line. -/
theorem lines_open (d : Driver) (a : Avail) (k : Kernel) : (d.open a k).2.bus.lines = k.bus.lines := by
  rcases bus_open_cases d a k with h | ⟨k', hk', hok, h⟩
  · rw [h]
  · rw [h, bus_open hok, ← hk']
    have hfields := lines_setFields (d.mode.setWidth 32) d.fields (fields_lt d) k'.bus
    cases d <;> exact hfields

theorem pinField_open {d : Driver} {a : Avail} {k : Kernel} (h : 0 ≤ (d.open a k).1) {pin : Nat} (hp : pin < 30) :
    pinField (d.open a k).2.bus pin = if owner pin = some d then pinMode pin else pinField k.bus pin := by
  have hrun : run okStep k [.open d a] = some (d.open a k).2 := by simp [run, okStep, h]
  rw [pinField_run hrun hp]
  simp [Owned, opened]

/-- A pin in the mode of its owner stays in it, whoever is opened. -/
theorem pinField_keeps {b b' : Bus} {d : Driver} {a : Avail} {k : Kernel} (hk : k.bus = b) (h : (d.open a k).2.bus = b')
    {pin : Nat} (hp : pin < 30) (hb : pinField b pin = pinMode pin) : pinField b' pin = pinMode pin := by
  subst hk h
  rcases bus_open_cases d a k with h | ⟨k', hk', hok, h⟩
  · rwa [h]
  · rw [h, pinField_open hok hp, hk', hb, ite_self]

theorem pinField_setBus {f : Files} {b : Bus} {ops : List BusOp} (h : OnLines ops) (hb : f.kernel.bus = b) (pin : Nat) :
    pinField (f.setBus (b.execAll ops)).kernel.bus pin = pinField f.kernel.bus pin := by
  simp only [Files.setBus, pinField, regs_execAll h, hb]

end CoinMachine
