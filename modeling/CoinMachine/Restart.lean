import CoinMachine.Board
import CoinMachine.Counting
/-!
# Starting the machine again

No driver is opened twice by one process, and nothing is left of a process when its files are closed (`Once`,
`Tidy`). So the only thing that can keep an open from succeeding is the kernel, in this process or in a later one
(`starts_again_iff`). But what the kernel refuses to a key driver once is refused for good: the flag of the driver stays
taken (`key_driver.c:60-72`), and no process gets past the checks of its key descriptors any more
(`refused_key_locks`).
-/

namespace CoinMachine

open Transition

/-! ## No driver is opened twice -/

/-- The motor is still to be opened. -/
def MainPc.beforeMot (pc : MainPc) : Prop := pc.region = .starting ∨ pc.region = .waiting ∨ pc = .openMot

/-- The process has not got to the open of the driver. -/
def Unopened (s : State) : Driver → Prop
  | .key k => ∃ k', s.main.pc = .openKey k' ∧ k'.idx ≤ k.idx
  | .sens n => ∀ t, s.th n = some t → t.pc = .openSens
  | .mot => s.main.pc.beforeMot
  | .dot => s.main.pc.beforeMot ∨ s.main.pc = .openDot

theorem unopened_exec (m : Main) (d : Driver) : Unopened (.exec m) d := by
  cases d with
  | key k => exact ⟨.key, rfl, Nat.zero_le _⟩
  | sens n => exact fun t ht => by cases ht
  | mot => exact Or.inl rfl
  | dot => exact Or.inl (Or.inl rfl)

/-- Where `main` may be after a statement, as far as its opens are concerned. -/
theorem mainStep_unopened {c : Clock} {s s' : State} {inp : Input} {evs : List Event}
    (h : mainStep c s inp = some (s', evs)) :
    (∀ k', s'.main.pc = .openKey k' → ∃ k, s.main.pc = .openKey k ∧ k'.idx = k.idx + 1) ∧
    (s'.main.pc.beforeMot → s.main.pc.beforeMot ∧ s.main.pc ≠ .openMot) ∧
    (s'.main.pc = .openDot → s.main.pc = .openMot) := by
  cases hpc : s.main.pc <;> cases inp <;> simp only [mainStep, hpc, reduceCtorEq] at h
  case openKey.opened k fd =>
    cases h
    cases k <;> simp [MainPc.afterOpen, MainPc.beforeMot, MainPc.region, Key.idx]
  case create.created n sens_value key_ev =>
    cases h
    cases n <;> simp [State.goto, MainPc.afterCreate, MainPc.beforeMot, MainPc.region]
  case join.none n =>
    split at h <;> cases h
    cases n <;> simp [State.goto, MainPc.afterJoin, MainPc.beforeMot, MainPc.region]
  case fillEvents.none i =>
    cases h
    rcases afterFill_cases i with hi | ⟨j, hi⟩ <;> simp [hi, MainPc.beforeMot, MainPc.region]
  case branch.none r =>
    obtain ⟨t, -, ht⟩ := Option.map_eq_some_iff.1 h
    cases ht
    cases r <;> simp [MainPc.afterReport, MainPc.beforeMot, MainPc.region]
  case testReport.none r =>
    split at h <;> cases h
    · simp [State.goto, MainPc.beforeMot, MainPc.region]
    · cases r <;> simp [State.goto, MainPc.afterReport, MainPc.beforeMot, MainPc.region]
  all_goals
    first
      | (cases h; simp [State.goto, MainPc.beforeMot, MainPc.region]; done)
      | (split at h <;> cases h <;> simp [State.goto, MainPc.beforeMot, MainPc.region])

/-- A thread opens its sensor at its first statement only. -/
theorem Thread.step_ne_openSens {n : Sens} {g g' : Globals} {t t' : Thread} {inp : Input} {evs : List Event}
    (h : t.step n g inp = some (g', t', evs)) : t'.pc ≠ .openSens := by
  unfold Thread.step at h
  split at h
  case h_18 => cases h
  all_goals first
    | (cases h; simp; done)
    | (split at h <;> cases h <;> simp)

/-- A driver that is still to be opened was so before, and an open is not still to come. -/
theorem Unopened.back {c : Clock} {s s' : State} {log log' : List Event} {a : Action} {d : Driver}
    (hx : Inv s.ctl log) (h : logStep c (s, log) a = some (s', log')) (hs' : Unopened s' d) :
    Unopened s d ∧ a.opens s ≠ some d := by
  obtain ⟨evs, hstep, -⟩ := logStep_step h
  cases a with
  | main inp =>
    obtain ⟨hkey, hmot, hdot⟩ := mainStep_unopened hstep
    cases d with
    | key k =>
      obtain ⟨k', hpc', hle⟩ := hs'
      obtain ⟨k₀, hpc, hidx⟩ := hkey k' hpc'
      refine ⟨⟨k₀, hpc, by omega⟩, ?_⟩
      simp only [Action.opens, hpc]
      intro heq
      cases heq
      omega
    | mot =>
      obtain ⟨hbefore, hne⟩ := hmot hs'
      refine ⟨hbefore, ?_⟩
      simp only [Action.opens]
      split <;> simp_all
    | dot =>
      have hbefore : s.main.pc.beforeMot := by
        rcases hs' with hb | hd
        · exact (hmot hb).1
        · exact Or.inr (Or.inr (hdot hd))
      refine ⟨Or.inl hbefore, ?_⟩
      simp only [Action.opens]
      split <;> simp_all [MainPc.beforeMot, MainPc.region]
    | sens n =>
      refine ⟨fun t ht => hs' t ((mainStep_move hstep).frame hx ht), ?_⟩
      simp only [Action.opens]
      split <;> simp
  | thread n inp =>
    obtain ⟨t, t', -, ht, hst, hs⟩ := step_thread hstep
    have hmain : s'.main = s.main := by rw [hs]
    cases d with
    | sens n' =>
      have hne : n' ≠ n := by
        rintro rfl
        exact Thread.step_ne_openSens hst (hs' t' (by rw [hs]; exact Function.update_self ..))
      refine ⟨fun u hu => hs' u (by rw [hs]; exact (Function.update_of_ne hne ..).trans hu), ?_⟩
      simp only [Action.opens]
      split
      · simpa using hne.symm
      · simp
    | _ =>
      refine ⟨by simpa only [Unopened, hmain] using hs', ?_⟩
      simp only [Action.opens]
      split <;> simp

theorem opens_unopened {s : State} {a : Action} {d : Driver} (h : a.opens s = some d) : Unopened s d := by
  cases a with
  | main inp =>
    simp only [Action.opens] at h
    split at h <;> cases h
    · exact ⟨_, by assumption, Nat.le_refl _⟩
    · exact Or.inr (Or.inr (by assumption))
    · exact Or.inr (by assumption)
  | thread n inp =>
    simp only [Action.opens] at h
    split at h <;> cases h
    rename_i hpc
    intro t ht
    rw [ht] at hpc
    exact Option.some.inj hpc

/-- An open changes the file of its driver only. -/
theorem held_open {f f' : Files} {d e : Driver} {a : Avail} (h : fileStep f (.open d a) = some f') (he : e ≠ d) :
    f'.held e = f.held e := by
  cases h
  dsimp only
  split
  · exact Function.update_of_ne he ..
  · rfl

theorem held_of_ret {f f' : Files} {d : Driver} {a : Avail} (h : fileStep f (.open d a) = some f') :
    (0 ≤ (d.open a f.kernel).1 → f'.held d = true) ∧ (¬ 0 ≤ (d.open a f.kernel).1 → f'.held d = f.held d) := by
  cases h
  dsimp only
  refine ⟨fun hret => ?_, fun hret => by rw [if_neg hret]⟩
  rw [if_pos hret]
  exact Function.update_self ..

theorem kernel_open {f f' : Files} {d : Driver} {a : Avail} (h : fileStep f (.open d a) = some f') :
    f'.kernel = (d.open a f.kernel).2 := by
  cases h
  rfl

theorem fileStep_release {f f' : Files} {d : Driver} (h : fileStep f (.release d) = some f') :
    f.held d = true ∧ f' = { kernel := d.release f.kernel, held := Function.update f.held d false } := by
  simp only [fileStep] at h
  split at h
  · rename_i hheld
    cases h
    exact ⟨hheld, rfl⟩
  · cases h

theorem held_release {f f' : Files} {d e : Driver} (h : fileStep f (.release d) = some f') (he : f.held e = false) :
    f'.held e = false := by
  obtain ⟨-, rfl⟩ := fileStep_release h
  by_cases hd : e = d
  · rw [hd]
    exact Function.update_self ..
  · exact (Function.update_of_ne hd ..).trans he

/-- A process holds no file that it has not opened. -/
structure Once (x : Board) : Prop where
  prog : Inv x.s.ctl x.log
  unopened : ∀ d, Unopened x.s d → x.files.held d = false

theorem Once.init {x : Board} (h : BoardInit x) : Once x := ⟨.init h.prog, fun d _ => h.files.held d⟩

/-- The step lemma. -/
theorem Once.step {c : Clock} {x x' : Board} {b : BoardAct} (hx : Once x) (h : boardStep c x b = some x') : Once x' := by
  cases b with
  | proc a m =>
    obtain ⟨hlog, hfiles⟩ := boardStep_proc h
    refine ⟨hx.prog.step hlog, fun e he => ?_⟩
    obtain ⟨hbefore, hnot⟩ := he.back hx.prog hlog
    have hheld := hx.unopened e hbefore
    rcases hfiles with ⟨d, hd, -, hf, -⟩ | ⟨-, hf, -⟩
    · rw [held_open hf (by rintro rfl; exact hnot hd)]
      exact hheld
    · rw [hf]
      exact hheld
  | close d =>
    obtain ⟨-, hf, hs, hlog, -⟩ := boardStep_close h
    refine ⟨by rw [hs, hlog]; exact hx.prog, fun e he => held_release hf (hx.unopened e (hs ▸ he))⟩
  | exec m =>
    obtain ⟨-, hheld, rfl⟩ := boardStep_exec h
    exact ⟨.init (init_exec m), fun e _ => hheld e⟩
  | lines L =>
    obtain ⟨-, rfl⟩ := boardStep_lines h
    exact ⟨hx.prog, hx.unopened⟩

/-! ## The tables -/

theorem live_available {d : Driver} {a : Avail} {k : Kernel} (h : (k.dev d).usage = 0) (ha : Available d a) :
    (d.open a k).2.live = k.next :: k.live ∧ (d.open a k).2.next = k.next + 1 := by
  obtain ⟨hmap, hirq⟩ := ha
  cases d with
  | key n =>
    have hnot : ¬ a.requestIrq < 0 := Int.not_lt.2 (hirq n rfl)
    simp [Driver.open, keyOpen, mapGpio_mapped h hmap, hnot]
  | sens s => simp [Driver.open, sensOpen, mapGpio_mapped h hmap]
  | mot => simp [Driver.open, motorOpen, mapGpio_mapped h hmap]
  | dot => simp [Driver.open, dotOpen, mapGpio_mapped h hmap]

theorem live_release (d : Driver) (k : Kernel) :
    (d.release k).live = (k.dev d).ptr.elim k.live k.live.erase ∧ (d.release k).next = k.next := by
  refine ⟨?_, by cases d <;> rfl⟩
  cases d <;> simp only [Driver.release, keyRelease, sensRelease, motorRelease, dotRelease, freeIrq, unmapGpio] <;>
    split <;> simp_all

/-- The mapping of an open file. -/
def Files.mapping (f : Files) (d : Driver) : Option Nat := if f.held d then (f.kernel.dev d).ptr else none

/-- The live mappings are those of the open files, one for each. -/
structure LiveExact (f : Files) : Prop where
  nodup : f.kernel.live.Nodup
  bound : ∀ p ∈ f.kernel.live, p < f.kernel.next
  mem_iff : ∀ p, p ∈ f.kernel.live ↔ ∃ d, f.mapping d = some p
  own : ∀ d e p, f.mapping d = some p → f.mapping e = some p → d = e

theorem mapping_open {f f' : Files} {d : Driver} {a : Avail} (h : servedStep f (.open d a) = some f') :
    f'.mapping = Function.update f.mapping d (some f.kernel.next) := by
  obtain ⟨husage, hav, hk, hheld⟩ := servedStep_open h
  funext e
  by_cases he : e = d
  · subst he
    simp [Files.mapping, hk, hheld, (open_available husage hav).2.1]
  · simp [Files.mapping, hk, hheld, (open_available husage hav).2.1, he]

theorem mapping_release {f f' : Files} {d : Driver} (h : servedStep f (.release d) = some f') :
    f'.mapping = Function.update f.mapping d none := by
  obtain ⟨-, hk, hheld⟩ := servedStep_release h
  funext e
  by_cases he : e = d
  · subst he
    simp [Files.mapping, hheld]
  · simp [Files.mapping, hk, hheld, dev_release, he]

theorem LiveExact.open {f f' : Files} {d : Driver} {a : Avail} (hf : LiveExact f) (hfree : f.mapping d = none)
    (h : servedStep f (.open d a) = some f') : LiveExact f' := by
  have hmap := mapping_open h
  obtain ⟨husage, hav, hk, -⟩ := servedStep_open h
  obtain ⟨hlive, hnext⟩ := live_available husage hav
  have hnew : f.kernel.next ∉ f.kernel.live := fun hm => Nat.lt_irrefl _ (hf.bound _ hm)
  constructor
  · rw [hk, hlive]
    exact List.nodup_cons.2 ⟨hnew, hf.nodup⟩
  · rw [hk, hlive, hnext]
    intro p hp
    rcases List.mem_cons.1 hp with rfl | hp
    · exact Nat.lt_succ_self _
    · exact Nat.lt_succ_of_lt (hf.bound p hp)
  · intro p
    rw [hk, hlive, List.mem_cons, hf.mem_iff, hmap]
    constructor
    · rintro (rfl | ⟨e, he⟩)
      · exact ⟨d, Function.update_self ..⟩
      · have hne : e ≠ d := by
          rintro rfl
          rw [hfree] at he
          cases he
        exact ⟨e, (Function.update_of_ne hne ..).trans he⟩
    · rintro ⟨e, he⟩
      by_cases hed : e = d
      · rw [hed, Function.update_self] at he
        exact Or.inl (Option.some.inj he).symm
      · rw [Function.update_of_ne hed] at he
        exact Or.inr ⟨e, he⟩
  · -- the new mapping is nobody else's
    have hother : ∀ e, f.mapping e ≠ some f.kernel.next := fun e he => hnew ((hf.mem_iff _).2 ⟨e, he⟩)
    rw [hmap]
    intro e e' p he he'
    by_cases hed : e = d <;> by_cases hed' : e' = d
    · rw [hed, hed']
    · rw [hed, Function.update_self] at he
      rw [Function.update_of_ne hed', ← he] at he'
      exact absurd he' (hother e')
    · rw [hed', Function.update_self] at he'
      rw [Function.update_of_ne hed, ← he'] at he
      exact absurd he (hother e)
    · rw [Function.update_of_ne hed] at he
      rw [Function.update_of_ne hed'] at he'
      exact hf.own e e' p he he'

theorem LiveExact.release {f f' : Files} {d : Driver} (hf : LiveExact f) (h : servedStep f (.release d) = some f') :
    LiveExact f' := by
  have hmap := mapping_release h
  obtain ⟨hheld, hk, -⟩ := servedStep_release h
  have hptr : f.mapping d = (f.kernel.dev d).ptr := if_pos hheld
  obtain ⟨hlive, hnext⟩ := live_release d f.kernel
  rw [← hptr] at hlive
  have hown : ∀ e p, f'.mapping e = some p → e ≠ d ∧ f.mapping e = some p := by
    intro e p he
    rw [hmap] at he
    by_cases hed : e = d
    · rw [hed, Function.update_self] at he
      cases he
    · exact ⟨hed, by rwa [Function.update_of_ne hed] at he⟩
  have hmem : ∀ p, p ∈ f'.kernel.live ↔ p ∈ f.kernel.live ∧ f.mapping d ≠ some p := by
    intro p
    rw [hk, hlive]
    cases hd : f.mapping d with
    | none => simp
    | some q =>
      rw [Option.elim_some, hf.nodup.mem_erase_iff, and_comm, ne_eq, ne_eq, Option.some.injEq, eq_comm]
  constructor
  · rw [hk, hlive]
    cases f.mapping d with
    | none => exact hf.nodup
    | some q => exact hf.nodup.erase q
  · intro p hp
    rw [hk, hnext]
    exact hf.bound p ((hmem p).1 hp).1
  · intro p
    rw [hmem, hf.mem_iff]
    constructor
    · rintro ⟨⟨e, he⟩, hd⟩
      refine ⟨e, ?_⟩
      rw [hmap, Function.update_of_ne]
      · exact he
      · rintro rfl
        exact hd he
    · rintro ⟨e, he⟩
      obtain ⟨hed, he⟩ := hown e p he
      exact ⟨⟨e, he⟩, fun hd => hed (hf.own e d p he hd)⟩
  · intro e e' p he he'
    exact hf.own e e' p (hown e p he).2 (hown e' p he').2

/-- The flags and the tables of the kernel are those of the open files. -/
structure Tidy (f : Files) : Prop where
  flags : FlagsExact f
  table : TableExact f
  live : LiveExact f

theorem Tidy.init {x : Board} (h : BoardInit x) : Tidy x.files := by
  obtain ⟨-, hfiles, hlive, -⟩ := h
  obtain ⟨hflags, htable⟩ := table_run hfiles (run_nil x.files)
  have hnone : ∀ d p, x.files.mapping d ≠ some p := by
    intro d p hd
    rw [Files.mapping, hfiles.held] at hd
    cases hd
  refine ⟨hflags, htable, by rw [hlive]; exact List.nodup_nil, fun p hp => ?_, fun p => ?_, fun d e p hd => ?_⟩
  · rw [hlive] at hp
    cases hp
  · rw [hlive]
    exact iff_of_false List.not_mem_nil fun ⟨d, hd⟩ => hnone d p hd
  · exact absurd hd (hnone d p)

/-- The step lemma. -/
theorem Tidy.served {f f' : Files} {op : DriverOp} (hf : Tidy f) (h : servedStep f op = some f') : Tidy f' := by
  cases op with
  | «open» d a =>
    have hfree : f.mapping d = none := by
      rw [Files.mapping, (hf.flags d).1 (servedStep_open h).1]
      rfl
    exact ⟨hf.flags.served h, hf.table.open hf.flags h, hf.live.open hfree h⟩
  | release d => exact ⟨hf.flags.served h, hf.table.release h, hf.live.release h⟩

theorem Tidy.setBus {f : Files} (hf : Tidy f) (b : Bus) : Tidy (f.setBus b) :=
  ⟨hf.flags, ⟨hf.table.nodup, hf.table.mem_iff⟩, ⟨hf.live.nodup, hf.live.bound, hf.live.mem_iff, hf.live.own⟩⟩

/-- Nothing is left where no file is open. -/
structure Cleared (f : Files) : Prop where
  usage : ∀ d, (f.kernel.dev d).usage = 0
  irqs : f.kernel.irqs = []
  live : f.kernel.live = []

theorem Tidy.cleared {f : Files} (hf : Tidy f) (h : ∀ d, f.held d = false) : Cleared f := by
  refine ⟨fun d => (hf.flags d).2 (h d), List.eq_nil_iff_forall_not_mem.2 fun r hr => ?_,
    List.eq_nil_iff_forall_not_mem.2 fun p hp => ?_⟩
  · obtain ⟨n, hn, -⟩ := (hf.table.mem_iff r).1 hr
    rw [h] at hn
    cases hn
  · obtain ⟨d, hd⟩ := (hf.live.mem_iff p).1 hp
    rw [Files.mapping, h] at hd
    cases hd

/-! ## Process after process -/

/-- What an open of the program asks for is there. -/
def Granted (x : Board) (b : BoardAct) : Prop := ∀ a m d, b = .proc a m → a.opens x.s = some d → Available d m.avail

/-- An open that is granted succeeds: nobody has the driver open. -/
theorem open_granted {x : Board} {d : Driver} {m : Meets} {f' : Files} (hx : Once x) (hf : Tidy x.files)
    (hd : Unopened x.s d) (hav : Available d m.avail) (h : fileStep x.files (.open d m.avail) = some f') :
    0 ≤ (d.open m.avail x.files.kernel).1 ∧ servedStep x.files (.open d m.avail) = some f' := by
  have hret := open_nonneg_iff.2 ⟨(hf.flags d).2 (hx.unopened d hd), hav⟩
  exact ⟨hret, by rw [servedStep, if_pos hret, h]⟩

theorem Tidy.step {c : Clock} {x x' : Board} {b : BoardAct} (hx : Once x) (hf : Tidy x.files) (hb : Granted x b)
    (h : boardStep c x b = some x') : Tidy x'.files := by
  cases b with
  | proc a m =>
    obtain ⟨-, ⟨d, hd, -, hopen, -⟩ | ⟨-, hbus, -⟩⟩ := boardStep_proc h
    · exact hf.served (open_granted hx hf (opens_unopened hd) (hb a m d rfl hd) hopen).2
    · rw [hbus]
      exact hf.setBus _
  | close d =>
    obtain ⟨-, hrel, -⟩ := boardStep_close h
    exact hf.served (show servedStep x.files (.release d) = some x'.files from hrel)
  | exec m =>
    obtain ⟨-, -, rfl⟩ := boardStep_exec h
    exact hf
  | lines L =>
    obtain ⟨-, rfl⟩ := boardStep_lines h
    exact hf.setBus _

/-- Every open of every process returns a descriptor, and nothing is left of a process when its files are closed. -/
structure StartsAgain (c : Clock) (x₀ : Board) (as : List BoardAct) : Prop where
  opens : ∀ pre a m post t d, as = pre ++ .proc a m :: post → run (boardStep c) x₀ pre = some t → a.opens t.s = some d →
    0 ≤ a.input.fd
  clears : ∀ pre post t, as = pre ++ post → run (boardStep c) x₀ pre = some t → (∀ d, t.files.held d = false) →
    Cleared t.files

/-- **The machine can be started again and again.** In any sequence of processes on the nine drivers, each with any
schedule and any answers, every open of the program returns a descriptor and nothing is left of a process
whose files are closed, exactly if the kernel has refused none of the mappings and interrupts that were asked for. -/
theorem starts_again_iff (c : Clock) (x₀ x : Board) (as : List BoardAct) (h₀ : BoardInit x₀)
    (h : run (boardStep c) x₀ as = some x) :
    StartsAgain c x₀ as ↔ ∀ pre b post t, as = pre ++ b :: post → run (boardStep c) x₀ pre = some t → Granted t b := by
  constructor
  · rintro hs pre b post t heq ht a m d rfl hd
    obtain ⟨u, hstep, -⟩ := run_split (heq ▸ h) ht
    obtain ⟨-, ⟨e, he, hfd, -⟩ | ⟨hnone, -⟩⟩ := boardStep_proc hstep
    · obtain rfl := Option.some.inj (hd.symm.trans he)
      exact (open_nonneg_iff.1 (hfd.1 (hs.opens pre a m post t d heq ht hd))).2
    · rw [hd] at hnone
      cases hnone
  · intro hgranted
    have hinv : ∀ pre post t, as = pre ++ post → run (boardStep c) x₀ pre = some t → Once t ∧ Tidy t.files := by
      intro pre post t heq ht
      exact run_along (P := fun t => Once t ∧ Tidy t.files) (C := Granted)
        (fun _ _ _ hp hC hstep => ⟨hp.1.step hstep, hp.2.step hp.1 hC hstep⟩) ⟨.init h₀, .init h₀⟩ hgranted post t heq ht
    refine ⟨?_, fun pre post t heq ht hheld => (hinv pre post t heq ht).2.cleared hheld⟩
    intro pre a m post t d heq ht hd
    obtain ⟨hx, hf⟩ := hinv pre _ t heq ht
    obtain ⟨u, hstep, -⟩ := run_split (heq ▸ h) ht
    obtain ⟨-, ⟨e, he, hfd, hopen, -⟩ | ⟨hnone, -⟩⟩ := boardStep_proc hstep
    · obtain rfl := Option.some.inj (hd.symm.trans he)
      exact hfd.2 (open_granted hx hf (opens_unopened hd) (hgranted pre _ post t heq ht a m d rfl hd) hopen).1
    · rw [hd] at hnone
      cases hnone

/-! ## A refused key -/

theorem dev_mapGpio_other {d e : Driver} (he : e ≠ d) (a : Avail) (k : Kernel) : (mapGpio d a k).2.dev e = k.dev e := by
  unfold mapGpio
  simp only
  split
  · rfl
  · split <;> exact Function.update_of_ne he ..

/-- An open leaves the other drivers alone, whatever comes of it. -/
theorem dev_open_other {d e : Driver} (he : e ≠ d) (a : Avail) (k : Kernel) : (d.open a k).2.dev e = k.dev e := by
  rw [← dev_mapGpio_other he a k]
  cases d <;> simp only [Driver.open, keyOpen, sensOpen, motorOpen, dotOpen]
  case key n =>
    split
    · rfl
    · split <;> rfl
  all_goals split <;> rfl

theorem fileStep_busy {f f' : Files} {d : Driver} {a : Avail} (husage : (f.kernel.dev d).usage ≠ 0)
    (h : fileStep f (.open d a) = some f') : f' = f := by
  cases h
  simp [open_busy husage a, EBUSY]

/-- The flag is taken, and there is no file that could give it back. -/
def Jammed (f : Files) (d : Driver) : Prop := (f.kernel.dev d).usage ≠ 0 ∧ f.held d = false

theorem Jammed.step {f f' : Files} {d : Driver} {op : DriverOp} (hf : Jammed f d) (h : fileStep f op = some f') :
    Jammed f' d := by
  obtain ⟨husage, hheld⟩ := hf
  cases op with
  | «open» e a =>
    by_cases hd : d = e
    · subst hd
      obtain rfl := fileStep_busy husage h
      exact ⟨husage, hheld⟩
    · refine ⟨?_, (held_open h hd).trans hheld⟩
      cases h
      dsimp only
      rwa [dev_open_other hd]
  | release e =>
    refine ⟨?_, held_release h hheld⟩
    obtain ⟨he, rfl⟩ := fileStep_release h
    have hd : d ≠ e := by
      rintro rfl
      rw [hheld] at he
      cases he
    dsimp only
    rwa [dev_release, Function.update_of_ne hd]

/-- An open that is refused a resource jams its driver. -/
theorem jammed_of_refused {f f' : Files} {d : Driver} {a : Avail} (hheld : f.held d = false) (ha : ¬ Available d a)
    (h : fileStep f (.open d a) = some f') : (d.open a f.kernel).1 < 0 ∧ Jammed f' d := by
  by_cases husage : (f.kernel.dev d).usage = 0
  · obtain ⟨hneg, husage'⟩ := open_unavailable husage ha
    cases h
    refine ⟨hneg, ?_, ?_⟩
    · dsimp only
      rw [husage']
      decide
    · dsimp only
      rwa [if_neg (Int.not_le.2 hneg)]
  · obtain rfl := fileStep_busy husage h
    refine ⟨?_, husage, hheld⟩
    rw [open_busy husage a]
    exact (by decide : -EBUSY < 0)

/-- `main` is at the opens of the keys and the checks after them. -/
def MainPc.startup : MainPc → Bool
  | .openKey _ | .testKey | .testKeys => true
  | _ => false

theorem mainStep_startup {c : Clock} {s s' : State} {inp : Input} {evs : List Event}
    (h : mainStep c s inp = some (s', evs)) (hs' : s'.main.pc.startup = true) : s.main.pc.startup = true ∧ evs = [] := by
  cases hpc : s.main.pc <;> cases inp <;> simp only [mainStep, hpc, reduceCtorEq] at h
  case openKey.opened => cases h; exact ⟨rfl, rfl⟩
  case create.created n sens_value key_ev =>
    cases h
    cases n <;> cases hs'
  case join.none n =>
    split at h <;> cases h
    cases n <;> cases hs'
  case fillEvents.none i =>
    cases h
    rcases afterFill_cases i with hi | ⟨j, hi⟩ <;> simp [hi, MainPc.startup] at hs'
  case branch.none r =>
    obtain ⟨t, -, ht⟩ := Option.map_eq_some_iff.1 h
    cases ht
    cases r <;> cases hs'
  case testReport.none r =>
    split at h <;> cases h
    · cases hs'
    · cases r <;> cases hs'
  all_goals
    first
      | (cases h; cases hs')
      | (split at h <;> cases h <;> first | exact ⟨rfl, rfl⟩ | cases hs')

/-- A process at its checks has done nothing yet. -/
def Unstarted (x : Board) : Prop := x.s.main.pc.startup = true → x.log = [] ∧ x.lit = []

/-- There are no threads before the coin phase. -/
theorem Inv.no_thread {s : State} {log : List Event} (hx : Inv s.ctl log) (h : s.main.pc.startup = true) (n : Sens) :
    s.th n = none := by
  obtain ⟨k, hk, hth, -⟩ := hx.stage
  have h0 : k = 0 := by
    simp only [State.ctl] at hk
    cases hpc : s.main.pc <;> rw [hpc] at h hk <;> first | exact hk | cases h
  have hnot := (hth.exist n).not.2 (by omega)
  simpa [State.ctl] using hnot

theorem Unstarted.step {c : Clock} {x x' : Board} {b : BoardAct} (hx : Once x) (hs : Unstarted x)
    (h : boardStep c x b = some x') : Unstarted x' := by
  cases b with
  | proc a m =>
    intro hs'
    obtain ⟨hlog, hfiles⟩ := boardStep_proc h
    obtain ⟨evs, hstep, hevs⟩ := logStep_step hlog
    cases a with
    | main inp =>
      obtain ⟨hpc, rfl⟩ := mainStep_startup hstep hs'
      obtain ⟨hl, hlit⟩ := hs hpc
      refine ⟨by rw [hevs, hl]; rfl, ?_⟩
      rcases hfiles with ⟨d, -, -, -, heq⟩ | ⟨-, -, heq⟩
      · rw [heq, hlit]
      · have hops : Action.busOps x.s x'.s m.reg (.main inp) = [] := by
          simp only [Action.busOps]
          cases hp : x.s.main.pc <;> rw [hp] at hpc <;> first | rfl | cases hpc
        rw [heq, hlit, hops]
        rfl
    | thread n inp =>
      obtain ⟨t, t', -, ht, -, heq⟩ := step_thread hstep
      have hmain : x'.s.main = x.s.main := by rw [heq]
      rw [hx.prog.no_thread (hmain ▸ hs')] at ht
      cases ht
  | close d =>
    obtain ⟨-, -, hs₁, hlog, hlit⟩ := boardStep_close h
    intro hpc
    rw [hlog, hlit]
    exact hs (hs₁ ▸ hpc)
  | exec m =>
    obtain ⟨-, -, rfl⟩ := boardStep_exec h
    exact fun _ => ⟨rfl, rfl⟩
  | lines L =>
    obtain ⟨-, rfl⟩ := boardStep_lines h
    exact hs

/-- `main` has not got past the check of key `k`, and what has been opened of it is not there. -/
def KeyMissing (k : Key) (s : State) : Prop :=
  match s.main.pc with
  | .openKey k' => k.idx < k'.idx → s.main.key_fd k < 0
  | .testKey => s.main.key_fd k < 0
  | .testKeys => s.main.key_fd k < 0 ∧ k ≠ .key
  | .exited => True
  | _ => False

theorem KeyMissing.step {c : Clock} {k : Key} {s s' : State} {inp : Input} {evs : List Event} (hs : KeyMissing k s)
    (hfd : s.main.pc = .openKey k → inp.fd < 0) (h : mainStep c s inp = some (s', evs)) :
    KeyMissing k s' ∧ ∀ e ∈ evs, e = .exit := by
  unfold KeyMissing at hs
  split at hs
  case h_1 k' hpc =>
    cases inp <;> simp only [mainStep, hpc, reduceCtorEq] at h
    rename_i fd
    cases h
    have hkey : k.idx ≤ k'.idx → Function.update s.main.key_fd k' fd k < 0 := by
      intro hle
      by_cases hk : k = k'
      · subst hk
        rw [Function.update_self]
        exact hfd hpc
      · rw [Function.update_of_ne hk]
        exact hs (Nat.lt_of_le_of_ne hle fun hidx => hk (by revert hidx; cases k <;> cases k' <;> decide))
    refine ⟨?_, by simp⟩
    cases k' <;> cases k <;> simp_all [KeyMissing, MainPc.afterOpen, Key.idx]
  case h_2 hpc =>
    cases inp <;> simp only [mainStep, hpc, reduceCtorEq] at h
    split at h <;> cases h
    · exact ⟨trivial, by simp⟩
    · rename_i hkey
      refine ⟨⟨hs, ?_⟩, by simp⟩
      rintro rfl
      exact hkey hs
  case h_3 hpc =>
    cases inp <;> simp only [mainStep, hpc, reduceCtorEq] at h
    have hneg : s.main.key_fd .key2 < 0 ∨ s.main.key_fd .key3 < 0 ∨ s.main.key_fd .key4 < 0 := by
      obtain ⟨hneg, hk⟩ := hs
      cases k with
      | key => exact absurd rfl hk
      | key2 => exact Or.inl hneg
      | key3 => exact Or.inr (Or.inl hneg)
      | key4 => exact Or.inr (Or.inr hneg)
    rw [if_pos hneg] at h
    cases h
    exact ⟨trivial, by simp⟩
  case h_4 hpc => simp [mainStep, hpc] at h
  case h_5 => cases hs

/-- The driver of key `k` is jammed, and the process is on its way to the exit. -/
structure Locked (k : Key) (x : Board) : Prop where
  jammed : Jammed x.files (.key k)
  missing : KeyMissing k x.s
  log : ∀ e ∈ x.log, e = .exit
  lit : x.lit = []

theorem KeyMissing.startup {k : Key} {s : State} (h : KeyMissing k s) (hpc : s.main.pc ≠ .exited) :
    s.main.pc.startup = true := by
  unfold KeyMissing at h
  split at h
  case h_4 hexit => exact absurd hexit hpc
  case h_5 => cases h
  all_goals
    rename_i hp
    rw [hp]
    rfl

/-- A statement of `main` before the end of the checks moves no line. -/
theorem busOps_startup {s : State} (h : s.main.pc.startup = true) (s' : State) (reg : Word) (a : Action) :
    a.busOps s s' reg = [] := by
  cases a with
  | main inp =>
    simp only [Action.busOps]
    cases hp : s.main.pc <;> rw [hp] at h <;> first | rfl | cases h
  | thread n inp => rfl

/-- The step lemma. -/
theorem Locked.step {c : Clock} {k : Key} {x x' : Board} {b : BoardAct} (hx : Once x) (hl : Locked k x)
    (h : boardStep c x b = some x') : Locked k x' := by
  obtain ⟨hjam, hmiss, hlog, hlit⟩ := hl
  cases b with
  | proc a m =>
    obtain ⟨hprog, hfiles⟩ := boardStep_proc h
    obtain ⟨evs, hstep, hevs⟩ := logStep_step hprog
    cases a with
    | thread n inp =>
      obtain ⟨t, t', hpc, ht, -, -⟩ := step_thread hstep
      rw [hx.prog.no_thread (hmiss.startup hpc)] at ht
      cases ht
    | main inp =>
      have hfd : x.s.main.pc = .openKey k → inp.fd < 0 := by
        intro hpc
        rcases hfiles with ⟨d, hd, hret, -⟩ | ⟨hnone, -⟩
        · simp only [Action.opens, hpc, Option.some.injEq] at hd
          rw [← hd, open_busy hjam.1] at hret
          have hneg : ¬ 0 ≤ -EBUSY := by decide
          exact Int.not_le.1 fun hle => hneg (hret.1 hle)
        · simp [Action.opens, hpc] at hnone
      obtain ⟨hmiss', hexit⟩ := hmiss.step hfd hstep
      have hpc : x.s.main.pc ≠ .exited := by
        intro hpc
        simp [CoinMachine.step, mainStep, hpc] at hstep
      have hlog' : ∀ e ∈ x'.log, e = .exit := by
        rw [hevs]
        intro e he
        exact (List.mem_append.1 he).elim (hlog e) (hexit e)
      rcases hfiles with ⟨d, -, -, hopen, hlit'⟩ | ⟨-, hbus, hlit'⟩
      · exact ⟨hjam.step hopen, hmiss', hlog', hlit'.trans hlit⟩
      · rw [busOps_startup (hmiss.startup hpc)] at hbus hlit'
        refine ⟨by rw [hbus]; exact hjam, hmiss', hlog', ?_⟩
        rw [hlit', hlit]
        rfl
  | close d =>
    obtain ⟨-, hrel, hs, hlog', hlit'⟩ := boardStep_close h
    exact ⟨hjam.step hrel, hs ▸ hmiss, hlog' ▸ hlog, hlit' ▸ hlit⟩
  | exec m =>
    obtain ⟨-, -, rfl⟩ := boardStep_exec h
    refine ⟨hjam, ?_, by simp, rfl⟩
    exact fun hlt => absurd hlt (Nat.not_lt_zero _)
  | lines L =>
    obtain ⟨-, rfl⟩ := boardStep_lines h
    exact ⟨hjam, hmiss, hlog, hlit⟩

/-- The process that is refused an open finds its driver jammed, and its descriptor negative. -/
theorem Locked.of_refused {c : Clock} {k : Key} {x x' : Board} {a : Action} {m : Meets} (hx : Once x) (hs : Unstarted x)
    (hopens : a.opens x.s = some (.key k)) (ha : ¬ Available (.key k) m.avail)
    (h : boardStep c x (.proc a m) = some x') : Locked k x' := by
  obtain ⟨hprog, ⟨d, hd, hfd, hopen, hlit⟩ | ⟨hnone, -⟩⟩ := boardStep_proc h
  · obtain rfl := Option.some.inj (hopens.symm.trans hd)
    obtain ⟨hneg, hjam⟩ := jammed_of_refused (hx.unopened _ (opens_unopened hopens)) ha hopen
    obtain ⟨evs, hstep, hevs⟩ := logStep_step hprog
    cases a with
    | thread n inp => simp [Action.opens] at hopens
    | main inp =>
      have hpc : x.s.main.pc = .openKey k := by
        simp only [Action.opens] at hopens
        split at hopens <;> cases hopens
        assumption
      have hmiss : KeyMissing k x.s := by
        rw [KeyMissing, hpc]
        exact fun hlt => absurd hlt (Nat.lt_irrefl _)
      obtain ⟨hmiss', hexit⟩ := hmiss.step (fun _ => by rw [Action.input] at hfd; omega) hstep
      obtain ⟨hl, hlit'⟩ := hs (by rw [hpc]; rfl)
      refine ⟨hjam, hmiss', ?_, hlit.trans hlit'⟩
      rw [hevs, hl]
      exact hexit
  · rw [hopens] at hnone
    cases hnone

/-- **One refusal locks the machine for good.** When the kernel has refused a key driver its mapping or its interrupt
once, then in this process and in every later one, whatever the kernel grants from then on: `main` gets to its checks
and leaves the program there, and nothing has happened but that exit: no poll, no thread, no byte for the motor, no
frame. -/
theorem refused_key_locks (c : Clock) (x₀ x : Board) (pre post : List BoardAct) (a : Action) (m : Meets) (t : Board)
    (k : Key) (h₀ : BoardInit x₀) (h : run (boardStep c) x₀ (pre ++ .proc a m :: post) = some x)
    (ht : run (boardStep c) x₀ pre = some t) (hopens : a.opens t.s = some (.key k)) (ha : ¬ Available (.key k) m.avail) :
    (x.s.main.pc.startup = true ∨ x.s.main.pc = .exited) ∧ (∀ e ∈ x.log, e = .exit) ∧ x.lit = [] := by
  obtain ⟨t', ht', hrest⟩ := run_append.1 h
  obtain rfl := Option.some.inj (ht.symm.trans ht')
  obtain ⟨u, hstep, hu⟩ := run_cons.1 hrest
  have hinit : Unstarted x₀ := fun _ => ⟨h₀.prog.log, h₀.lit⟩
  have hpre : Once t ∧ Unstarted t := by
    refine run_invariant (P := fun t => Once t ∧ Unstarted t) ?_ ⟨.init h₀, hinit⟩ ht
    rintro x b x' ⟨hx, hs⟩ hstep
    exact ⟨hx.step hstep, hs.step hx hstep⟩
  have hend : Once x ∧ Locked k x := by
    refine run_invariant (P := fun t => Once t ∧ Locked k t) ?_
      ⟨hpre.1.step hstep, .of_refused hpre.1 hpre.2 hopens ha hstep⟩ hu
    rintro x b x' ⟨hx, hl⟩ hstep
    exact ⟨hx.step hstep, hl.step hx hstep⟩
  refine ⟨?_, hend.2.log, hend.2.lit⟩
  by_cases hpc : x.s.main.pc = .exited
  · exact Or.inr hpc
  · exact Or.inl (hend.2.missing.startup hpc)

/-! ## Two processes -/

/-- The modules are loaded and the program is started, with every uninitialised local zero. -/
def Board.boot : Board := ⟨.boot, [], .loaded, []⟩

theorem boardInit_boot : BoardInit .boot := ⟨boot_init, Files.init_loaded, rfl, rfl⟩

/-- A process opens the keys, fails at its first poll and ends, and its files are closed. -/
def failedProcess (m : Meets) : List BoardAct :=
  List.replicate 4 (.proc (.main (.opened 3)) m) ++ List.replicate 5 (.proc (.main .none) m) ++
  [.proc (.main (.polled .error)) m, .proc (.main .none) m,
    .close (.key .key), .close (.key .key2), .close (.key .key3), .close (.key .key4)]

theorem failedProcess_meets {a : Action} {m m' : Meets} (h : .proc a m' ∈ failedProcess m) : m' = m := by
  simp only [failedProcess, List.mem_append, List.mem_replicate, List.mem_cons, List.not_mem_nil, or_false, reduceCtorEq,
    BoardAct.proc.injEq] at h
  rcases h with (⟨-, -, h⟩ | ⟨-, -, h⟩) | ⟨-, h⟩ | ⟨-, h⟩ <;> exact h

/-- The program started a second time gets its keys again. -/
theorem starts_again_iff_twice :
    StartsAgain .ticks .boot (failedProcess ⟨⟨true, 0⟩, 0⟩ ++ .exec State.boot.main :: failedProcess ⟨⟨true, 0⟩, 0⟩) := by
  obtain ⟨x, hx⟩ : ∃ x, run (boardStep .ticks) .boot
      (failedProcess ⟨⟨true, 0⟩, 0⟩ ++ .exec State.boot.main :: failedProcess ⟨⟨true, 0⟩, 0⟩) = some x := ⟨_, rfl⟩
  refine (starts_again_iff .ticks .boot x _ boardInit_boot hx).2 ?_
  rintro pre b post t heq - a m d rfl -
  have hmem := heq ▸ List.mem_append_right pre List.mem_cons_self
  have hm : m = ⟨⟨true, 0⟩, 0⟩ := by
    rcases List.mem_append.1 hmem with h | h
    · exact failedProcess_meets h
    · rcases List.mem_cons.1 h with h | h
      · cases h
      · exact failedProcess_meets h
  rw [hm]
  exact ⟨rfl, fun _ _ => Int.le_refl 0⟩

/-- The second key is refused its interrupt. The program started again gets all it asks for, but not that key. -/
theorem refused_key_locks_second : ∃ x, run (boardStep .ticks) .boot
      ([.proc (.main (.opened 3)) ⟨⟨true, 0⟩, 0⟩] ++ .proc (.main (.opened (-1))) ⟨⟨true, -16⟩, 0⟩ ::
        ([.proc (.main (.opened 4)) ⟨⟨true, 0⟩, 0⟩, .proc (.main (.opened 5)) ⟨⟨true, 0⟩, 0⟩, .proc (.main .none) ⟨⟨true, 0⟩, 0⟩,
          .proc (.main .none) ⟨⟨true, 0⟩, 0⟩, .close (.key .key), .close (.key .key3), .close (.key .key4), .exec State.boot.main,
          .proc (.main (.opened 3)) ⟨⟨true, 0⟩, 0⟩, .proc (.main (.opened (-1))) ⟨⟨true, 0⟩, 0⟩])) = some x ∧
    (x.s.main.pc.startup = true ∨ x.s.main.pc = .exited) ∧ (∀ e ∈ x.log, e = .exit) ∧ x.lit = [] := by
  obtain ⟨t, ht, hpc⟩ : ∃ t, run (boardStep .ticks) .boot [.proc (.main (.opened 3)) ⟨⟨true, 0⟩, 0⟩] = some t ∧
      t.s.main.pc = .openKey .key2 := ⟨_, rfl, rfl⟩
  obtain ⟨x, hx⟩ : ∃ x, run (boardStep .ticks) .boot
      ([.proc (.main (.opened 3)) ⟨⟨true, 0⟩, 0⟩] ++ .proc (.main (.opened (-1))) ⟨⟨true, -16⟩, 0⟩ ::
        ([.proc (.main (.opened 4)) ⟨⟨true, 0⟩, 0⟩, .proc (.main (.opened 5)) ⟨⟨true, 0⟩, 0⟩, .proc (.main .none) ⟨⟨true, 0⟩, 0⟩,
          .proc (.main .none) ⟨⟨true, 0⟩, 0⟩, .close (.key .key), .close (.key .key3), .close (.key .key4), .exec State.boot.main,
          .proc (.main (.opened 3)) ⟨⟨true, 0⟩, 0⟩, .proc (.main (.opened (-1))) ⟨⟨true, 0⟩, 0⟩])) = some x := ⟨_, rfl⟩
  refine ⟨x, hx, refused_key_locks .ticks .boot x _ _ _ _ t .key2 boardInit_boot hx ht (by simp [Action.opens, hpc]) ?_⟩
  exact fun hav => absurd (hav.2 .key2 rfl) (by decide)

end CoinMachine
