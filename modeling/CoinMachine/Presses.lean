import CoinMachine.Restart
import CoinMachine.Served
/-!
# Key presses from process to process

`event_flag` is a static of the key driver (`receive/key_driver.c:26`): it outlives the process that has opened the
driver, and neither `key_open` nor `key_release` clears it. A press that the last process has not polled is therefore
reported to the next one: pressed twice at the end, key 1 switches the machine off and starts it again by itself, and
a press of key 2 in the report phase ends the next coin phase at its first poll (`leftover_press`). What holds of one
process holds across all of them all the same: no poll is wrong (`board_polls_right`), and no press is acted upon
twice (`acts_le_presses`). Each call of `key_poll` is one step here, as in `KeyPress`.

| here | there |
| --- | --- |
| `press` | an edge on the line of the key; `ind_interrupt_handler` runs if it is registered (`:80`, `:95`) |
| `act`   | a step of the board, its polls answered by `key_poll` (`:43-54`) |
| `past`  | what happened before the program was started |
-/

namespace CoinMachine

open Transition EventLog

/-- The board, the statics of the key drivers, and what happened in the processes that are gone and in this one. -/
structure KeyBoard where
  board : Board
  dev : Key → KeyDev
  past : List KeyEvent
  cur : List KeyEvent

def KeyBoard.hist (x : KeyBoard) : List KeyEvent := x.past ++ x.cur

/-- The handler of the key is registered. -/
def Files.Hears (f : Files) (k : Key) : Prop := ((keyPins k).irq, Driver.key k) ∈ f.kernel.irqs

instance (f : Files) (k : Key) : Decidable (f.Hears k) := inferInstanceAs (Decidable (_ ∈ _))

inductive KeyBoardAct where
  | press (k : Key) (lev : Word)
  | act (b : BoardAct)

def keyBoardStep (c : Clock) (x : KeyBoard) : KeyBoardAct → Option KeyBoard
  | .press k lev =>
    if x.board.files.Hears k then
      some { x with dev := Function.update x.dev k (indInterruptHandler k lev (x.dev k)), cur := x.cur ++ [.press k] }
    else some x
  | .act b => do
    let board ← boardStep c x.board b
    match b with
    | .proc a _ => do
      let r ← step c x.board.s a
      let dev ← answer x.dev r.2
      some { board := board, dev := dev, past := x.past, cur := x.cur ++ r.2.map KeyEvent.ev }
    | .exec _ => some { board := board, dev := x.dev, past := x.past ++ x.cur, cur := [] }
    | _ => some { x with board := board }

structure KeyBoardInit (x : KeyBoard) : Prop where
  board : BoardInit x.board
  flags : ∀ k, (x.dev k).event_flag = 0
  past : x.past = []
  cur : x.cur = []

/-! ## What each step does -/

section Steps
variable {c : Clock} {x x' : KeyBoard}

theorem keyBoardStep_press {k : Key} {lev : Word} (h : keyBoardStep c x (.press k lev) = some x') : x' = x ∨
    (x'.board = x.board ∧ x'.dev = Function.update x.dev k (indInterruptHandler k lev (x.dev k)) ∧ x'.past = x.past ∧
      x'.cur = x.cur ++ [.press k]) := by
  simp only [keyBoardStep] at h
  split at h <;> cases h
  · exact Or.inr ⟨rfl, rfl, rfl, rfl⟩
  · exact Or.inl rfl

theorem keyBoardStep_proc {a : Action} {m : Meets} (h : keyBoardStep c x (.act (.proc a m)) = some x') :
    boardStep c x.board (.proc a m) = some x'.board ∧ ∃ evs, step c x.board.s a = some (x'.board.s, evs) ∧
      answer x.dev evs = some x'.dev ∧ x'.past = x.past ∧ x'.cur = x.cur ++ evs.map KeyEvent.ev := by
  obtain ⟨board, hb, h⟩ := Option.bind_eq_some_iff.1 h
  obtain ⟨⟨s', evs⟩, hs, h⟩ := Option.bind_eq_some_iff.1 h
  obtain ⟨dev, hdev, h⟩ := Option.bind_eq_some_iff.1 h
  cases h
  obtain ⟨evs', hs', -⟩ := logStep_step (boardStep_proc hb).1
  rw [hs] at hs'
  cases hs'
  exact ⟨hb, evs, hs, hdev, rfl, rfl⟩

theorem keyBoardStep_exec {m : Main} (h : keyBoardStep c x (.act (.exec m)) = some x') :
    boardStep c x.board (.exec m) = some x'.board ∧ x'.dev = x.dev ∧ x'.past = x.past ++ x.cur ∧ x'.cur = [] := by
  obtain ⟨board, hb, h⟩ := Option.bind_eq_some_iff.1 h
  cases h
  exact ⟨hb, rfl, rfl, rfl⟩

/-- Closing a file and moving a line. -/
theorem keyBoardStep_rest {b : BoardAct} (hproc : ∀ a m, b ≠ .proc a m) (hexec : ∀ m, b ≠ .exec m)
    (h : keyBoardStep c x (.act b) = some x') :
    boardStep c x.board b = some x'.board ∧ x'.dev = x.dev ∧ x'.past = x.past ∧ x'.cur = x.cur := by
  obtain ⟨board, hb, h⟩ := Option.bind_eq_some_iff.1 h
  cases b with
  | proc a m => exact absurd rfl (hproc a m)
  | exec m => exact absurd rfl (hexec m)
  | close d | lines L =>
    cases h
    exact ⟨hb, rfl, rfl, rfl⟩

/-- To the drivers and to the history a step is a press or the polls of a statement. -/
theorem keyBoardStep_hist {b : KeyBoardAct} (h : keyBoardStep c x b = some x') :
    (∃ k lev, x'.dev = Function.update x.dev k (indInterruptHandler k lev (x.dev k)) ∧ x'.hist = x.hist ++ [.press k]) ∨
    ∃ evs, answer x.dev evs = some x'.dev ∧ x'.hist = x.hist ++ evs.map KeyEvent.ev := by
  have hquiet : x'.dev = x.dev → x'.hist = x.hist →
      ∃ evs, answer x.dev evs = some x'.dev ∧ x'.hist = x.hist ++ evs.map KeyEvent.ev := by
    intro hdev hhist
    exact ⟨[], by rw [hdev]; rfl, by rw [hhist]; simp⟩
  cases b with
  | press k lev =>
    rcases keyBoardStep_press h with rfl | ⟨-, hdev, hpast, hcur⟩
    · exact Or.inr (hquiet rfl rfl)
    · exact Or.inl ⟨k, lev, hdev, by simp [KeyBoard.hist, hpast, hcur]⟩
  | act b =>
    right
    cases b with
    | proc a m =>
      obtain ⟨-, evs, -, hdev, hpast, hcur⟩ := keyBoardStep_proc h
      exact ⟨evs, hdev, by simp [KeyBoard.hist, hpast, hcur]⟩
    | exec m =>
      obtain ⟨-, hdev, hpast, hcur⟩ := keyBoardStep_exec h
      exact hquiet hdev (by simp [KeyBoard.hist, hpast, hcur])
    | close d | lines L =>
      obtain ⟨-, hdev, hpast, hcur⟩ := keyBoardStep_rest (fun _ _ => by simp) (fun _ => by simp) h
      exact hquiet hdev (by simp [KeyBoard.hist, hpast, hcur])

end Steps

/-- On the board the keys change nothing. -/
theorem keyBoardStep_board {c : Clock} {x x' : KeyBoard} {b : KeyBoardAct} (h : keyBoardStep c x b = some x') :
    x'.board = x.board ∨ ∃ b, boardStep c x.board b = some x'.board := by
  cases b with
  | press k lev =>
    rcases keyBoardStep_press h with rfl | ⟨hboard, -⟩
    · exact Or.inl rfl
    · exact Or.inl hboard
  | act b =>
    obtain ⟨board, hb, h⟩ := Option.bind_eq_some_iff.1 h
    cases b with
    | proc a m => exact Or.inr ⟨_, (keyBoardStep_proc (Option.bind_eq_some_iff.2 ⟨board, hb, h⟩)).1⟩
    | exec m | close d | lines L =>
      cases h
      exact Or.inr ⟨_, hb⟩

theorem keyBoard_reachable {c : Clock} {x : KeyBoard} (h : Reachable (keyBoardStep c) KeyBoardInit x) :
    Reachable (boardStep c) BoardInit x.board := by
  refine h.invariant (P := fun x => Reachable (boardStep c) BoardInit x.board) (fun _ hx => .of_init hx.board) ?_
  intro x b x' hx hstep
  rcases keyBoardStep_board hstep with heq | ⟨b, hb⟩
  · rwa [heq]
  · exact hx.snoc hb

/-! ## Every poll of every process -/

structure Remembers (x : KeyBoard) : Prop where
  flags : ∀ k, Few k x.hist → FlagOk k x.dev x.hist
  pending : Pending x.dev x.hist
  right : Always PolledRight x.hist

theorem Remembers.init {x : KeyBoard} (h : KeyBoardInit x) : Remembers x := by
  have hhist : x.hist = [] := by rw [KeyBoard.hist, h.past, h.cur, List.append_nil]
  refine ⟨fun k _ => ⟨Int.le_of_eq (h.flags k).symm, ?_, ?_⟩, fun k hk => absurd (h.flags k) hk, hhist ▸ .nil⟩
  · rw [h.flags, hhist]
    exact Int.le_refl 0
  · rw [hhist, fresh_iff]
    exact fun hs => absurd hs not_since_nil

theorem Remembers.step {c : Clock} {x x' : KeyBoard} {b : KeyBoardAct} (hx : Remembers x)
    (h : keyBoardStep c x b = some x') : Remembers x' := by
  rcases keyBoardStep_hist h with ⟨k, lev, hdev, hhist⟩ | ⟨evs, hdev, hhist⟩
  · constructor
    · intro k' hfew
      rw [hdev, hhist] at *
      by_cases hk : k' = k
      · subst hk
        exact (hx.flags k' hfew.of_append).press lev hfew
      · exact (hx.flags k' hfew.of_append).quiet (Function.update_of_ne hk _ _) fun heq => hk (KeyEvent.press.inj heq).symm
    · rw [hdev, hhist]
      exact hx.pending.press k _
    · rw [hhist]
      exact hx.right.snoc fun _ _ _ heq => by cases heq
  · constructor
    · intro k hfew
      rw [hhist] at hfew ⊢
      exact (hx.flags k hfew.of_append).answer hdev
    · rw [hhist]
      exact hx.pending.answer hdev
    · rw [hhist]
      exact polledRight_answer hx.flags hx.pending hx.right hdev

theorem reachable_remembers {c : Clock} {x : KeyBoard} (h : Reachable (keyBoardStep c) KeyBoardInit x) : Remembers x :=
  h.invariant (fun _ => .init) fun _ _ _ hx hs => hx.step hs

/-- What is fresh was pressed in the part that nobody polls in, or was fresh before. -/
theorem fresh_append {k : Key} {past pre : List KeyEvent} (h : Unpolled k pre) :
    Fresh k (past ++ pre) ↔ .press k ∈ pre ∨ Fresh k past := by
  constructor
  · rintro ⟨a, b, heq, hb⟩
    rcases split_append heq with ⟨b', rfl, hpast⟩ | ⟨a', -, hpre⟩
    · exact Or.inr ⟨a, b', hpast, fun who ready hm => hb who ready (List.mem_append_left _ hm)⟩
    · rw [hpre]
      exact Or.inl (List.mem_append_right _ List.mem_cons_self)
  · rintro (hm | hf)
    · obtain ⟨a, b, rfl⟩ := List.append_of_mem hm
      refine ⟨past ++ a, b, by simp, fun who ready hm => ?_⟩
      exact h who ready (List.mem_append_right _ (List.mem_cons_of_mem _ hm))
    · exact hf.append h

/-! ## A running process hears every press -/

/-- `main` is past its checks and has not begun to close the keys. -/
def MainPc.running : MainPc → Bool
  | .openKey _ | .testKey | .testKeys | .closeKeys | .exited => false
  | _ => true

/-- The descriptors of the keys: the opens set them, and the checks leave the program where one is negative. -/
theorem mainStep_keys {c : Clock} {s s' : State} {inp : Input} {evs : List Event}
    (h : mainStep c s inp = some (s', evs)) :
    (∀ k, s'.main.key_fd k = if s.main.pc = .openKey k then inp.fd else s.main.key_fd k) ∧
    (s'.main.pc = .testKeys → s.main.pc = .testKey ∧ 0 ≤ s.main.key_fd .key) ∧
    (s'.main.pc.running = true → s.main.pc.running = true ∨
      s.main.pc = .testKeys ∧ 0 ≤ s.main.key_fd .key2 ∧ 0 ≤ s.main.key_fd .key3 ∧ 0 ≤ s.main.key_fd .key4) := by
  cases hpc : s.main.pc <;> cases inp <;> simp only [mainStep, hpc, reduceCtorEq] at h
  case openKey.opened k fd =>
    cases h
    refine ⟨fun k' => ?_, ?_, ?_⟩
    · simp only [MainPc.openKey.injEq, Input.fd, Function.update_apply, eq_comm]
    · cases k <;> simp [MainPc.afterOpen]
    · cases k <;> simp [MainPc.afterOpen, MainPc.running]
  case testKey.none =>
    split at h <;> cases h
    · simp [State.goto, MainPc.running]
    · rename_i hpos
      simp [State.goto, MainPc.running, Int.not_lt.1 hpos]
  case testKeys.none =>
    split at h <;> cases h
    · simp [State.goto, MainPc.running]
    · rename_i hpos
      simp only [not_or, Int.not_lt] at hpos
      simp [State.goto, MainPc.running, hpos]
  case create.created n sens_value key_ev =>
    cases h
    cases n <;> simp [State.goto, MainPc.afterCreate, MainPc.running]
  case join.none n =>
    split at h <;> cases h
    cases n <;> simp [State.goto, MainPc.afterJoin, MainPc.running]
  case fillEvents.none i =>
    cases h
    rcases afterFill_cases i with hi | ⟨j, hi⟩ <;> simp [hi, MainPc.running]
  case branch.none r =>
    obtain ⟨t, -, ht⟩ := Option.map_eq_some_iff.1 h
    cases ht
    cases r <;> simp [MainPc.afterReport, MainPc.running]
  case testReport.none r =>
    split at h <;> cases h
    · simp [State.goto, MainPc.running]
    · cases r <;> simp [State.goto, MainPc.afterReport, MainPc.running]
  all_goals
    first
      | (cases h; simp [State.goto, MainPc.running]; done)
      | (split at h <;> cases h <;> simp [State.goto, MainPc.running])

/-- An open registers what it asks for, or nothing. -/
theorem irqs_open (d : Driver) (a : Avail) (k : Kernel) :
    (d.open a k).2.irqs = (if 0 ≤ (d.open a k).1 then d.requests else []) ++ k.irqs := by
  by_cases h : (k.dev d).usage = 0
  · cases hmap : a.ioremap with
    | false =>
      cases d <;> simp [Driver.open, keyOpen, sensOpen, motorOpen, dotOpen, mapGpio_unmapped h hmap, EBUSY]
    | true =>
      cases d with
      | key n =>
        by_cases hirq : a.requestIrq < 0
        · simp [Driver.open, keyOpen, mapGpio_mapped h hmap, hirq]
        · simp [Driver.open, keyOpen, mapGpio_mapped h hmap, hirq, Driver.requests]
      | sens n => simp [Driver.open, sensOpen, mapGpio_mapped h hmap, Driver.requests]
      | mot => simp [Driver.open, motorOpen, mapGpio_mapped h hmap, Driver.requests]
      | dot => simp [Driver.open, dotOpen, mapGpio_mapped h hmap, Driver.requests]
  · rw [open_busy h a]
    simp [EBUSY]

/-- A key that is open hears. -/
def AllHear (f : Files) : Prop := ∀ k, f.held (.key k) = true → f.Hears k

theorem AllHear.open {f f' : Files} {d : Driver} {a : Avail} (hf : AllHear f) (h : fileStep f (.open d a) = some f') :
    AllHear f' := by
  obtain ⟨hnew, hold⟩ := held_of_ret h
  intro k hk
  rw [Files.Hears, kernel_open h, irqs_open]
  by_cases hret : 0 ≤ (d.open a f.kernel).1
  · by_cases hd : Driver.key k = d
    · subst hd
      rw [if_pos hret]
      exact List.mem_append_left _ (by simp [Driver.requests])
    · rw [held_open h hd] at hk
      exact List.mem_append_right _ (hf k hk)
  · have hheld : f'.held (.key k) = f.held (.key k) := by
      cases h
      rw [if_neg hret]
    rw [hheld] at hk
    exact List.mem_append_right _ (hf k hk)

theorem AllHear.release {f f' : Files} {d : Driver} (hf : AllHear f) (h : fileStep f (.release d) = some f') :
    AllHear f' := by
  obtain ⟨-, rfl⟩ := fileStep_release h
  intro k hk
  have hd : d ≠ .key k := by
    rintro rfl
    simp at hk
  have hold : f.held (.key k) = true := by simpa [hd.symm] using hk
  rw [Files.Hears, irqs_release, List.mem_filter]
  refine ⟨hf k hold, ?_⟩
  rw [decide_eq_true_iff]
  exact fun heq => hd (freed_eq_irq.1 heq.symm)

structure Hearing (x : Board) : Prop where
  once : Once x
  /-- a key whose open has returned a descriptor is open -/
  held : x.s.main.pc ≠ .closeKeys → x.s.main.pc ≠ .exited → ∀ k, ¬ Unopened x.s (.key k) → 0 ≤ x.s.main.key_fd k →
    x.files.held (.key k) = true
  first : x.s.main.pc = .testKeys → 0 ≤ x.s.main.key_fd .key
  keys : x.s.main.pc.running = true → ∀ k, 0 ≤ x.s.main.key_fd k
  table : AllHear x.files

theorem Hearing.init {x : Board} (h : BoardInit x) : Hearing x := by
  have hpc : x.s.main.pc = .openKey .key := h.prog.pc
  refine ⟨.init h, fun _ _ k hk => ?_, fun ht => ?_, fun hr => ?_, fun k hk => ?_⟩
  · exact absurd ⟨.key, hpc, Nat.zero_le _⟩ hk
  · rw [hpc] at ht
    cases ht
  · rw [hpc] at hr
    cases hr
  · rw [h.files.held] at hk
    cases hk

/-- A key that has just become opened is the one that this statement opens. -/
theorem opened_back {c : Clock} {s s' : State} {inp : Input} {evs : List Event} {k : Key}
    (h : mainStep c s inp = some (s', evs)) (hk : ¬ Unopened s' (.key k)) :
    s.main.pc = .openKey k ∨ ¬ Unopened s (.key k) := by
  by_contra hnot
  obtain ⟨hne, hun⟩ := not_or.1 hnot
  obtain ⟨k', hpc, hle⟩ := not_not.1 hun
  cases inp <;> simp only [mainStep, hpc, reduceCtorEq] at h
  cases h
  refine hk ?_
  have hkk : k' ≠ k := fun heq => hne (heq ▸ hpc)
  cases k' <;> cases k <;> first | exact absurd rfl hkk | exact absurd hle (by decide) | exact ⟨_, rfl, by decide⟩

theorem Hearing.main {c : Clock} {x x' : Board} {inp : Input} {m : Meets} (hx : Hearing x)
    (h : boardStep c x (.proc (.main inp) m) = some x') : Hearing x' := by
  obtain ⟨hlog, hfiles⟩ := boardStep_proc h
  obtain ⟨evs, hs, -⟩ := logStep_step hlog
  have hstep : mainStep c x.s inp = some (x'.s, evs) := hs
  obtain ⟨hfd, hfirst, hrun⟩ := mainStep_keys hstep
  have hopens : ∀ k, Action.opens x.s (.main inp) = some (.key k) ↔ x.s.main.pc = .openKey k := by
    intro k
    simp only [Action.opens]
    split <;> simp_all
  refine ⟨hx.once.step h, fun hclose hexit k hk hpos => ?_, fun ht => ?_, fun hr k => ?_, ?_⟩
  · rw [hfd] at hpos
    by_cases hpc : x.s.main.pc = .openKey k
    · rw [if_pos hpc] at hpos
      rcases hfiles with ⟨d, hd, hret, hf, -⟩ | ⟨hnone, -⟩
      · rw [(hopens k).2 hpc] at hd
        cases hd
        exact (held_of_ret hf).1 (hret.1 hpos)
      · rw [(hopens k).2 hpc] at hnone
        cases hnone
    · rw [if_neg hpc] at hpos
      have hold : x.files.held (.key k) = true := by
        refine hx.held (fun hpc' => hexit ?_) (fun hpc' => ?_) k ((opened_back hstep hk).resolve_left hpc) hpos
        · cases inp <;> simp only [mainStep, hpc', State.exit, reduceCtorEq, Option.some.injEq, Prod.mk.injEq] at hstep
          rw [← hstep.1]
          rfl
        · simp [mainStep, hpc'] at hstep
      rcases hfiles with ⟨d, hd, -, hf, -⟩ | ⟨-, hf, -⟩
      · rw [held_open hf (by rintro rfl; exact hpc ((hopens k).1 hd))]
        exact hold
      · rw [hf]
        exact hold
  · obtain ⟨hpc, hpos⟩ := hfirst ht
    rw [hfd, if_neg (by rw [hpc]; simp)]
    exact hpos
  · have hpc : x.s.main.pc ≠ .openKey k := by
      intro hpc
      rcases hrun hr with hr | ⟨ht, -⟩
      · rw [hpc] at hr
        cases hr
      · rw [hpc] at ht
        cases ht
    rw [hfd, if_neg hpc]
    rcases hrun hr with hr | ⟨ht, h2, h3, h4⟩
    · exact hx.keys hr k
    · cases k with
      | key => exact hx.first ht
      | key2 => exact h2
      | key3 => exact h3
      | key4 => exact h4
  · rcases hfiles with ⟨d, -, -, hf, -⟩ | ⟨-, hf, -⟩
    · exact hx.table.open hf
    · rw [hf]
      exact hx.table

/-- The step lemma. -/
theorem Hearing.step {c : Clock} {x x' : Board} {b : BoardAct} (hx : Hearing x) (h : boardStep c x b = some x') :
    Hearing x' := by
  cases b with
  | proc a m =>
    cases a with
    | main inp => exact hx.main h
    | thread n inp =>
      obtain ⟨hlog, hfiles⟩ := boardStep_proc h
      obtain ⟨evs, hstep, -⟩ := logStep_step hlog
      obtain ⟨t, t', -, -, -, hs⟩ := step_thread hstep
      have hmain : x'.s.main = x.s.main := by rw [hs]
      have hun : ∀ k, Unopened x'.s (.key k) ↔ Unopened x.s (.key k) := fun k => by simp only [Unopened, hmain]
      have hheld : ∀ k, x'.files.held (.key k) = x.files.held (.key k) := by
        intro k
        rcases hfiles with ⟨d, hd, -, hf, -⟩ | ⟨-, hf, -⟩
        · refine held_open hf ?_
          rintro rfl
          simp only [Action.opens] at hd
          split at hd <;> simp at hd
        · rw [hf]
          rfl
      refine ⟨hx.once.step h, ?_, hmain ▸ hx.first, hmain ▸ hx.keys, ?_⟩
      · rw [hmain]
        intro hclose hexit k hk hpos
        rw [hheld]
        exact hx.held hclose hexit k (fun hu => hk ((hun k).2 hu)) hpos
      · rcases hfiles with ⟨d, -, -, hf, -⟩ | ⟨-, hf, -⟩
        · exact hx.table.open hf
        · rw [hf]
          exact hx.table
  | close d =>
    obtain ⟨hc, hf, hs, -, -⟩ := boardStep_close h
    refine ⟨hx.once.step h, fun hclose hexit k hk hpos => ?_, hs ▸ hx.first, hs ▸ hx.keys, hx.table.release hf⟩
    -- nothing is closed before the end of the process
    rw [hs] at hclose hexit
    unfold MainPc.closes at hc
    split at hc <;> contradiction
  | exec m =>
    obtain ⟨-, -, rfl⟩ := boardStep_exec h
    refine ⟨hx.once.step h, fun _ _ k hk => ?_, fun ht => ?_, fun hr => ?_, hx.table⟩
    · exact absurd (unopened_exec m (.key k)) hk
    · cases ht
    · cases hr
  | lines L =>
    obtain ⟨-, rfl⟩ := boardStep_lines h
    exact ⟨hx.once.step h, hx.held, hx.first, hx.keys, hx.table⟩

theorem reachable_hearing {c : Clock} {x : Board} (h : Reachable (boardStep c) BoardInit x) : Hearing x :=
  h.invariant (fun _ => .init) fun _ _ _ hx hs => hx.step hs

/-- A key that the process takes for open is registered in the kernel, up to the closing of the keys. -/
theorem Hearing.of_hears {x : Board} (hx : Hearing x) {k : Key} (h : x.s.Hears k) (hc : x.s.main.pc ≠ .closeKeys) :
    x.files.Hears k := by
  obtain ⟨hholds, hfd⟩ := h
  refine hx.table k (hx.held hc ?_ k ?_ hfd)
  · intro hpc
    rw [hpc] at hholds
    cases hholds
  · rintro ⟨k', hpc, hle⟩
    simp only [MainPc.holds, hpc, decide_eq_true_eq] at hholds
    omega

theorem Hearing.hears {x : Board} (hx : Hearing x) (hr : x.s.main.pc.running = true) (k : Key) : x.files.Hears k := by
  refine hx.of_hears ⟨?_, hx.keys hr k⟩ ?_
  · cases hpc : x.s.main.pc <;> simp [hpc, MainPc.running] at hr <;> rfl
  · intro hpc
    rw [hpc] at hr
    cases hr

/-! ### A press that outlives its process -/

def KeyBoard.boot : KeyBoard := ⟨.boot, fun _ => ⟨0, 0⟩, [], []⟩

theorem keyBoardInit_boot : KeyBoardInit .boot := ⟨boardInit_boot, fun _ => rfl, rfl, rfl⟩

/-- A process up to its first poll. -/
def upToPoll (p : Polled) : List KeyBoardAct :=
  (List.replicate 4 (Action.main (.opened 3)) ++ List.replicate 5 (Action.main .none) ++
    [Action.main (.polled p)]).map fun a => .act (.proc a ⟨⟨true, 0⟩, 0⟩)

/-- The first process has key 1 open when it is pressed, and leaves without another poll; the second finds it. -/
def leftover : List KeyBoardAct :=
  upToPoll .error ++ [.press .key 0, .act (.proc (.main .none) ⟨⟨true, 0⟩, 0⟩)] ++
  ([.key, .key2, .key3, .key4] : List Key).map (fun k => .act (.close (.key k))) ++ [.act (.exec State.boot.main)] ++
  upToPoll (.events fun k => k = .key)

theorem leftover_run : ∃ x, Reachable (keyBoardStep .ticks) KeyBoardInit x ∧ x.past = [.press .key, .ev .exit] ∧
    x.cur = [.ev (.poll .wait .key true)] := by
  obtain ⟨x, hrun, hpast, hcur⟩ : ∃ x, run (keyBoardStep .ticks) .boot leftover = some x ∧
      x.past = [.press .key, .ev .exit] ∧ x.cur = [.ev (.poll .wait .key true)] := ⟨_, rfl, rfl, rfl⟩
  exact ⟨x, ⟨_, _, keyBoardInit_boot, hrun⟩, hpast, hcur⟩

/-- **No press is lost between two processes, and none is reported twice** (`receive/key_driver.c:28-54`, `:56-97`). In
any sequence of processes on the drivers, each poll of a key by any of them reports an event exactly if the key was
pressed since the last poll of it, by whichever process, while its driver was open; and from its checks to the closing
of the keys a process hears every press. Each call of `key_poll` is one step. -/
theorem board_polls_right (c : Clock) (x : KeyBoard) (h : Reachable (keyBoardStep c) KeyBoardInit x) (k : Key) :
    (x.board.s.main.pc.running = true → x.board.files.Hears k) ∧
    ∀ pre who ready post, x.hist = pre ++ .ev (.poll who k ready) :: post → Few k pre → (ready = true ↔ Fresh k pre) :=
  ⟨fun hr => (reachable_hearing (keyBoard_reachable h)).hears hr k, fun pre who ready post heq hfew =>
    (reachable_remembers h).right pre _ post heq who k ready rfl hfew⟩

/-- The poll of the second process is right because of the press in the first. -/
theorem board_polls_right_leftover : ∃ x, Reachable (keyBoardStep .ticks) KeyBoardInit x ∧ x.cur.length = 1 ∧
    Fresh .key [.press .key, .ev .exit] := by
  obtain ⟨x, hx, hpast, hcur⟩ := leftover_run
  have hhist : x.hist = [.press .key, .ev .exit] ++ .ev (.poll .wait .key true) :: [] := by
    rw [KeyBoard.hist, hpast, hcur]
  exact ⟨x, hx, by rw [hcur]; rfl, ((board_polls_right _ x hx .key).2 _ _ _ _ hhist (by unfold Few; decide)).1 rfl⟩

/-- **A leftover press is reported to the next process** (`receive/key_driver.c:26`). The first poll of a key in a
process, by `main` or by a thread, reports an event exactly if the key was pressed in this process before it, or was
pressed after the last poll of it in the processes before. -/
theorem leftover_press (c : Clock) (x : KeyBoard) (h : Reachable (keyBoardStep c) KeyBoardInit x) (k : Key)
    (pre : List KeyEvent) (who : Poller) (ready : Bool) (post : List KeyEvent)
    (heq : x.cur = pre ++ .ev (.poll who k ready) :: post) (hfirst : Unpolled k pre) (hfew : Few k (x.past ++ pre)) :
    ready = true ↔ .press k ∈ pre ∨ Fresh k x.past := by
  have hhist : x.hist = (x.past ++ pre) ++ .ev (.poll who k ready) :: post := by
    rw [KeyBoard.hist, heq, List.append_assoc]
  rw [(reachable_remembers h).right _ _ post hhist who k ready rfl hfew, fresh_append hfirst]

/-! ## Every action has a press of its own -/

/-- A poll that has reported the key. -/
def KeyEvent.reports (k : Key) : KeyEvent → Bool
  | .ev (.poll _ k' ready) => ready && k' == k
  | _ => false

/-- 1 if a press waits for its poll. -/
def waits (dev : Key → KeyDev) (k : Key) : Nat := if (dev k).event_flag = 0 then 0 else 1

/-- Each poll that reports a key takes its flag. -/
theorem answer_reports {evs : List Event} (k : Key) : ∀ {dev dev' : Key → KeyDev}, answer dev evs = some dev' →
    (evs.map KeyEvent.ev).countP (KeyEvent.reports k) + waits dev' k ≤ waits dev k := by
  induction evs with
  | nil =>
    intro dev dev' h
    cases h
    simp
  | cons e evs ih =>
    intro dev dev' h
    rw [List.map_cons, List.countP_cons]
    rcases answer_cons h with ⟨who, k', rfl, h'⟩ | ⟨he, h'⟩
    · have hrest := ih h'
      by_cases hk : k = k'
      · subst hk
        have hclear : waits (Function.update dev k (dev k).clear) k = 0 := by simp [waits, KeyDev.clear]
        by_cases hready : true = decide ((dev k).mask &&& POLLIN ≠ 0)
        · have hflag : waits dev k = 1 := if_neg (ready_flag hready)
          split <;> omega
        · have hnot : decide ((dev k).mask &&& POLLIN ≠ 0) = false := Bool.eq_false_iff.2 (Ne.symm hready)
          simp only [KeyEvent.reports, hnot, Bool.false_and, Bool.false_eq_true, if_false]
          omega
      · have hkeep : waits (Function.update dev k' (dev k').clear) k = waits dev k := by
          simp only [waits, Function.update_of_ne hk]
        have hnot : (k' == k) = false := by simpa using Ne.symm hk
        simp only [KeyEvent.reports, hnot, Bool.and_false, Bool.false_eq_true, if_false]
        omega
    · have hnot : KeyEvent.reports k (.ev e) = false := by
        unfold KeyEvent.reports
        split
        · rename_i who k' ready heq
          exact absurd ⟨who, k', ready, KeyEvent.ev.inj heq⟩ he
        · rfl
      simp only [hnot, Bool.false_eq_true, if_false]
      exact ih h'

/-- The reported polls of a key, and the press that waits, are at most its presses. -/
theorem reachable_reports {c : Clock} {x : KeyBoard} (h : Reachable (keyBoardStep c) KeyBoardInit x) (k : Key) :
    x.hist.countP (KeyEvent.reports k) + waits x.dev k ≤ x.hist.count (.press k) := by
  refine h.invariant (P := fun x => x.hist.countP (KeyEvent.reports k) + waits x.dev k ≤ x.hist.count (.press k)) ?_ ?_
  · intro x hx
    simp [KeyBoard.hist, hx.past, hx.cur, waits, hx.flags]
  · intro x b x' hx hstep
    rcases keyBoardStep_hist hstep with ⟨k', lev, hdev, hhist⟩ | ⟨evs, hdev, hhist⟩
    · rw [hhist, hdev, List.countP_append, List.count_append]
      by_cases hk : k = k'
      · subst hk
        have hle : waits (Function.update x.dev k (indInterruptHandler k lev (x.dev k))) k ≤ 1 := by
          unfold waits
          split <;> omega
        simp [KeyEvent.reports]
        omega
      · simp only [waits, Function.update_of_ne hk] at hx ⊢
        simpa [KeyEvent.reports, List.count_singleton, Ne.symm hk] using hx
    · have hevs := answer_reports k hdev
      rw [hhist, List.countP_append, List.count_append]
      omega

/-! ### The start of the coin phase -/

/-- `main` has found key 1 and is about to start the coin phase. -/
def Main.starts (m : Main) : Bool :=
  match m.pc with
  | .setStart => true
  | .waitError => m.key_ev.revents && decide (0 ≤ m.key1_ret)
  | .waitReady => m.key_ev.revents
  | _ => false

/-- The entry of the waiting loop is filled. -/
def Main.WaitFilled (m : Main) : Prop := m.pc = .waitEvents ∨ m.pc = .waitPoll → m.key_ev.fd = .key

theorem mainStep_starts {c : Clock} {s s' : State} {inp : Input} {evs : List Event} (hfd : s.main.WaitFilled)
    (h : mainStep c s inp = some (s', evs)) :
    s'.main.WaitFilled ∧ evs.count (.macState 1) + s'.main.starts.toNat ≤
      s.main.starts.toNat + evs.count (.poll .wait .key true) := by
  unfold Main.WaitFilled at hfd ⊢
  cases hpc : s.main.pc <;> cases inp <;> simp only [mainStep, hpc, reduceCtorEq] at h
  case waitPoll.polled p =>
    cases h
    have hkey : s.main.key_ev.fd = .key := hfd (Or.inr hpc)
    refine ⟨by simp, ?_⟩
    cases p with
    | error => simp [Main.starts, hpc, Polled.ret, pollEvents]
    | events revents =>
      cases hr : revents .key <;> cases he : s.main.key_ev.events <;>
        simp [Main.starts, hpc, PollFd.poll, Polled.ret, pollEvents, hkey, hr, he]
  case waitError.none =>
    split at h <;> cases h
    · simp [State.goto, Main.starts]
    · rename_i hpos
      simp [State.goto, Main.starts, hpc, Int.not_lt.1 hpos]
  case waitReady.none =>
    cases h
    cases hr : s.main.key_ev.revents <;> simp [State.goto, Main.starts, hpc, hr]
  case setStart.none =>
    cases h
    simp [State.goto, Main.starts, hpc]
  case reportPoll.polled p =>
    cases h
    have hnone : (pollEvents .report (List.ofFn s.main.key2_ev) p).count (.macState 1) = 0 := by
      refine List.count_eq_zero.2 fun hm => ?_
      obtain ⟨who, k, ready, heq⟩ := pollEvents_isPoll _ _ _ _ hm
      cases heq
    exact ⟨by simp, by rw [hnone]; exact Nat.zero_le _⟩
  case openKey.opened k fd =>
    cases h
    cases k <;> simp [Main.starts, MainPc.afterOpen]
  case create.created n sens_value key_ev =>
    cases h
    cases n <;> simp [State.goto, Main.starts, MainPc.afterCreate]
  case join.none n =>
    split at h <;> cases h
    cases n <;> simp [State.goto, Main.starts, MainPc.afterJoin]
  case fillEvents.none i =>
    cases h
    rcases afterFill_cases i with hi | ⟨j, hi⟩ <;> simp [hi, Main.starts]
  case branch.none r =>
    obtain ⟨t, -, ht⟩ := Option.map_eq_some_iff.1 h
    cases ht
    cases r <;> simp [Main.starts, MainPc.afterReport]
  case testReport.none r =>
    split at h <;> cases h
    · simp [State.goto, Main.starts]
    · cases r <;> simp [State.goto, Main.starts, MainPc.afterReport]
  case waitEvents.none =>
    cases h
    exact ⟨fun _ => hfd (Or.inl hpc), by simp [Main.starts]⟩
  case waitTest.none | coinTest.none | reportTest.none =>
    cases h
    split <;> simp [State.goto, Main.starts]
  all_goals
    first
      | (cases h; simp [State.goto, Main.starts])
      | (split at h <;> cases h <;> simp [State.goto, Main.starts])

/-- The coin phase is started by a poll that has found key 1. -/
theorem reachable_starts {c : Clock} {x : State × List Event} (h : Reachable (logStep c) Init x) :
    x.1.main.WaitFilled ∧ x.2.count (.macState 1) + x.1.main.starts.toNat ≤ x.2.count (.poll .wait .key true) := by
  refine h.invariant (P := fun x => x.1.main.WaitFilled ∧
    x.2.count (.macState 1) + x.1.main.starts.toNat ≤ x.2.count (.poll .wait .key true)) ?_ ?_
  · intro x hx
    simp [Main.WaitFilled, Main.starts, hx.pc, hx.log]
  · rintro ⟨s, log⟩ a ⟨s', log'⟩ ⟨hfd, hle⟩ hstep
    obtain ⟨evs, hs, rfl⟩ := logStep_step hstep
    cases a with
    | main inp =>
      obtain ⟨hfd', hle'⟩ := mainStep_starts hfd hs
      refine ⟨hfd', ?_⟩
      dsimp only at hle hle' ⊢
      rw [List.count_append, List.count_append]
      omega
    | thread n inp =>
      obtain ⟨t, t', -, -, hst, hs'⟩ := step_thread hs
      have hmain : s'.main = s.main := by rw [hs']
      have hnone : evs.count (.macState 1) = 0 := by
        rw [List.count_eq_zero]
        intro hm
        have heffect := (Thread.step_effect hst).1
        generalize s'.g = g' at heffect
        cases heffect with
        | quiet _ hpoll =>
          obtain ⟨who, k, ready, heq⟩ := hpoll _ hm
          cases heq
        | count => simp at hm
        | off => simp at hm
      refine ⟨hmain ▸ hfd, ?_⟩
      dsimp only at hle ⊢
      rw [hmain, List.count_append, List.count_append, hnone]
      omega

/-! ### All processes together -/

theorem count_event (hist : List KeyEvent) (e : Event) : hist.count (.ev e) = (hist.filterMap KeyEvent.event?).count e := by
  induction hist with
  | nil => rfl
  | cons e' hist ih =>
    cases e' with
    | press k => rw [List.count_cons_of_ne (by simp), ih]; rfl
    | ev e' =>
      by_cases he : e' = e
      · subst he
        rw [List.count_cons_self, ih]
        exact (List.count_cons_self ..).symm
      · rw [List.count_cons_of_ne (by simpa using he), ih]
        exact (List.count_cons_of_ne he).symm

/-- What the running process did. -/
theorem reachable_log {c : Clock} {x : KeyBoard} (h : Reachable (keyBoardStep c) KeyBoardInit x) :
    x.cur.filterMap KeyEvent.event? = x.board.log := by
  refine h.invariant (P := fun x => x.cur.filterMap KeyEvent.event? = x.board.log) ?_ ?_
  · intro x hx
    rw [hx.cur]
    exact hx.board.prog.log.symm
  · intro x b x' hx hstep
    cases b with
    | press k lev =>
      rcases keyBoardStep_press hstep with rfl | ⟨hboard, -, -, hcur⟩
      · exact hx
      · rw [hcur, log_press, hboard, hx]
    | act b =>
      cases b with
      | proc a m =>
        obtain ⟨hb, evs, hs, -, -, hcur⟩ := keyBoardStep_proc hstep
        obtain ⟨evs', hs', hlog⟩ := logStep_step (boardStep_proc hb).1
        rw [hs] at hs'
        cases hs'
        rw [hcur, log_append, hx, hlog]
      | exec m =>
        obtain ⟨hb, -, -, hcur⟩ := keyBoardStep_exec hstep
        obtain ⟨-, -, hboard⟩ := boardStep_exec hb
        rw [hcur, hboard]
        rfl
      | close d =>
        obtain ⟨hb, -, -, hcur⟩ := keyBoardStep_rest (fun _ _ => by simp) (fun _ => by simp) hstep
        rw [hcur, hx, (boardStep_close hb).2.2.2.1]
      | lines L =>
        obtain ⟨hb, -, -, hcur⟩ := keyBoardStep_rest (fun _ _ => by simp) (fun _ => by simp) hstep
        rw [hcur, hx, (boardStep_lines hb).2]

/-- What a process does for a key it has found the key for. -/
structure Paid (hist : List KeyEvent) : Prop where
  serves : ∀ i, hist.count (.ev (.serve (entryKey i))) ≤ hist.count (.ev (.poll .report (entryKey i) true))
  starts : hist.count (.ev (.macState 1)) ≤ hist.count (.ev (.poll .wait .key true))

theorem Paid.append {hist hist' : List KeyEvent} (h : Paid hist) (h' : Paid hist') : Paid (hist ++ hist') := by
  constructor
  · intro i
    have hl := h.serves i
    have hr := h'.serves i
    rw [List.count_append, List.count_append]
    omega
  · have hl := h.starts
    have hr := h'.starts
    rw [List.count_append, List.count_append]
    omega

theorem paid_cur {c : Clock} {x : KeyBoard} (h : Reachable (keyBoardStep c) KeyBoardInit x) : Paid x.cur := by
  have hlog := reachable_log h
  have hprog := board_reachable (keyBoard_reachable h)
  have hbal : Balance x.board.s.main x.board.log := reachable_balance hprog
  have hstart := (reachable_starts hprog).2
  constructor
  · intro i
    rw [count_event, count_event, hlog]
    by_cases hi : x.board.s.main.Owes i ∨ x.board.s.main.Dropped x.board.log i
    · rw [hbal.left i hi]
      exact Nat.le_succ _
    · exact Nat.le_of_eq (hbal.even i (fun ho => hi (Or.inl ho)) fun hd => hi (Or.inr hd)).symm
  · rw [count_event, count_event, hlog]
    dsimp only at hstart
    omega

theorem reachable_paid {c : Clock} {x : KeyBoard} (h : Reachable (keyBoardStep c) KeyBoardInit x) : Paid x.hist := by
  have hpast : Reachable (keyBoardStep c) KeyBoardInit x ∧ Paid x.past := by
    refine h.invariant (P := fun x => Reachable (keyBoardStep c) KeyBoardInit x ∧ Paid x.past) ?_ ?_
    · intro x hx
      refine ⟨.of_init hx, ?_⟩
      rw [hx.past]
      exact ⟨fun _ => Nat.le_refl _, Nat.le_refl _⟩
    · rintro x b x' ⟨hx, hp⟩ hstep
      refine ⟨hx.snoc hstep, ?_⟩
      cases b with
      | press k lev =>
        rcases keyBoardStep_press hstep with rfl | ⟨-, -, hpast, -⟩
        · exact hp
        · rwa [hpast]
      | act b =>
        cases b with
        | proc a m =>
          obtain ⟨-, -, -, -, hpast, -⟩ := keyBoardStep_proc hstep
          rwa [hpast]
        | exec m =>
          obtain ⟨-, -, hpast, -⟩ := keyBoardStep_exec hstep
          rw [hpast]
          exact hp.append (paid_cur hx)
        | close d | lines L =>
          obtain ⟨-, -, hpast, -⟩ := keyBoardStep_rest (fun _ _ => by simp) (fun _ => by simp) hstep
          rwa [hpast]
  exact hpast.2.append (paid_cur h)

/-- Two polls that report the key, counted apart. -/
theorem count_reports (k : Key) (hist : List KeyEvent) :
    hist.count (.ev (.poll .wait k true)) + hist.count (.ev (.poll .report k true)) ≤ hist.countP (KeyEvent.reports k) := by
  induction hist with
  | nil => exact Nat.le_refl _
  | cons e hist ih =>
    rw [List.count_cons, List.count_cons, List.countP_cons]
    by_cases hw : e = .ev (.poll .wait k true)
    · subst hw
      simp [KeyEvent.reports]
      omega
    · by_cases hr : e = .ev (.poll .report k true)
      · subst hr
        simp [KeyEvent.reports]
        omega
      · simp only [beq_iff_eq, hw, hr, if_false]
        omega

/-- **Every action has a press of its own** (`receive/key_driver.c:28-54`, `receive/test_mac.c:88-182`). In any sequence
of processes on the drivers, whatever the orders: a key has been served, with a report or the switching off, at most
as often as it was pressed while its driver was open, and each start of a coin phase has taken a press of key 1 beside
those that have switched the machine off. Each call of `key_poll` is one step. -/
theorem acts_le_presses (c : Clock) (x : KeyBoard) (h : Reachable (keyBoardStep c) KeyBoardInit x) :
    (∀ i, x.hist.count (.ev (.serve (entryKey i))) ≤ x.hist.count (.press (entryKey i))) ∧
    x.hist.count (.ev (.macState 1)) + x.hist.count (.ev (.serve .key)) ≤ x.hist.count (.press .key) := by
  have hpaid := reachable_paid h
  have hle : ∀ k, x.hist.count (.ev (.poll .wait k true)) + x.hist.count (.ev (.poll .report k true)) ≤
      x.hist.count (.press k) := fun k =>
    (count_reports k x.hist).trans ((Nat.le_add_right _ _).trans (reachable_reports h k))
  constructor
  · intro i
    have hs := hpaid.serves i
    have hk := hle (entryKey i)
    omega
  · have hs : x.hist.count (.ev (.serve .key)) ≤ x.hist.count (.ev (.poll .report .key true)) := hpaid.serves offEntry
    have hstart := hpaid.starts
    have hk := hle .key
    omega

/-- The press of the first process has started the coin phase of the second. -/
theorem acts_le_presses_leftover : ∃ x, Reachable (keyBoardStep .ticks) KeyBoardInit x ∧
    x.cur = [.ev (.poll .wait .key true), .ev (.macState 1)] ∧
    x.hist.count (.ev (.macState 1)) + x.hist.count (.ev (.serve .key)) ≤ x.hist.count (.press .key) := by
  obtain ⟨x, hrun, hcur⟩ : ∃ x, run (keyBoardStep .ticks) .boot
      (leftover ++ List.replicate 3 (.act (.proc (.main .none) ⟨⟨true, 0⟩, 0⟩))) = some x ∧
      x.cur = [.ev (.poll .wait .key true), .ev (.macState 1)] := ⟨_, rfl, rfl⟩
  have hx : Reachable (keyBoardStep .ticks) KeyBoardInit x := ⟨_, _, keyBoardInit_boot, hrun⟩
  exact ⟨x, hx, hcur, (acts_le_presses _ x hx).2⟩

end CoinMachine
