import CoinMachine.Response
/-!
# Every ready key is served (`receive/test_mac.c:152-182`, `:260`, `:482`)

`KeyPress` says that the report loop acts on presses only; here is the converse. A poll of the report loop that
finds a key ready leaves its entry marked, and the marks are tested one after another in the rest of the
iteration (`Owes`). So a ready key is served in the iteration of its poll, once, unless key 1 was ready too and
switches the machine off (`reports_balance`); and since the driver keeps a press until it is polled, a press
is served at the first poll of the report loop that finds it (`press_served`).
-/

namespace CoinMachine

open Transition EventLog

/-! ## What is still to be tested -/

/-- The test of entry `i` is still to come in this iteration. -/
def Main.Awaits (m : Main) (i : Fin 4) : Prop :=
  match m.pc with
  | .reportError => 0 ≤ m.key2_ret
  | .testOff => True
  | .testReport r => r.entry ≤ i
  | .branch r => r.entry < i
  | _ => False

/-- Entry `i` is marked and will be tested. -/
def Main.Owes (m : Main) (i : Fin 4) : Prop := (m.key2_ev i).revents = true ∧ m.Awaits i

/-- The entries of the poll set that are filled, on the way to the poll. -/
def Main.Filled (m : Main) : Prop :=
  match m.pc with
  | .fillFd i => ∀ j < i, (m.key2_ev j).fd = entryKey j ∧ (m.key2_ev j).events = true
  | .fillEvents i => (∀ j < i, (m.key2_ev j).fd = entryKey j ∧ (m.key2_ev j).events = true) ∧
      (m.key2_ev i).fd = entryKey i
  | .reportPoll => ∀ j, (m.key2_ev j).fd = entryKey j ∧ (m.key2_ev j).events = true
  | _ => True

/-- What a statement of `main` does to the marks. -/
inductive Marks (m m' : Main) : List Event → Prop where
  /-- nothing that matters -/
  | quiet (evs : List Event) (h : ∀ e ∈ evs, (∀ k ready, e ≠ .poll .report k ready) ∧ ∀ k, e ≠ .serve k)
      (same : ∀ i, m'.Owes i ↔ m.Owes i) : Marks m m' evs
  /-- the poll of the report loop -/
  | poll (revents : Key → Bool) (before : ∀ i, ¬ m.Owes i)
      (after : ∀ i, m'.Owes i ↔ revents (entryKey i) = true) :
      Marks m m' (reportPolls revents [.key, .key2, .key3, .key4])
  /-- a report -/
  | report (r : Report) (before : m.Owes r.entry) (after : ¬ m'.Owes r.entry)
      (same : ∀ i, i ≠ r.entry → (m'.Owes i ↔ m.Owes i)) : Marks m m' [.serve r.key]
  /-- the end of the loop -/
  | off (before : m.Owes offEntry) (after : m'.pc = .closeKeys) (same : m'.key2_ev = m.key2_ev)
      (all : ∀ i, m.Awaits i) : Marks m m' [.serve .key]

theorem Main.not_owes {m : Main} (h : ∀ i, ¬ m.Awaits i) (i : Fin 4) : ¬ m.Owes i := fun ho => h i ho.2

/-- A statement away from the report loop. -/
theorem Marks.elsewhere {m m' : Main} {evs : List Event} (h : ∀ i, ¬ m.Awaits i) (h' : ∀ i, ¬ m'.Awaits i)
    (hevs : ∀ e ∈ evs, (∀ k ready, e ≠ .poll .report k ready) ∧ ∀ k, e ≠ .serve k) : Marks m m' evs :=
  .quiet evs hevs fun i => iff_of_false (Main.not_owes h' i) (Main.not_owes h i)

theorem entryKey_entry (r : Report) : entryKey r.entry = r.key := by cases r <;> rfl

/-- What comes after the test of a report. -/
theorem awaits_afterReport {m : Main} {r : Report} (hpc : m.pc = .afterReport r) (i : Fin 4) :
    m.Awaits i ↔ r.entry < i := by
  unfold Main.Awaits
  rw [hpc]
  cases r <;> revert i <;> simp only [MainPc.afterReport, Report.entry] <;> decide

/-- The step lemma for the marks. -/
theorem mainStep_marks {c : Clock} {s s' : State} {inp : Input} {evs : List Event} (hf : s.main.Filled)
    (h : mainStep c s inp = some (s', evs)) : Marks s.main s'.main evs := by
  obtain ⟨g, ⟨pc, key_fd, key1_ret, key2_ret, key_ev, key2_ev, mot_fd, dot_fd, mot_data, loop⟩, th⟩ := s
  cases pc <;> cases inp <;> simp only [mainStep, reduceCtorEq] at h
  case waitPoll.polled p =>
    cases h
    refine .elsewhere (fun _ => id) (fun _ => id) fun e he => ?_
    cases p with
    | error => cases he
    | events revents =>
      rw [List.mem_singleton.1 he]
      simp
  case reportPoll.polled p =>
    cases h
    cases p with
    | error =>
      have hneg : ¬ (0 : Int) ≤ -1 := by decide
      exact .elsewhere (fun _ => id) (fun _ hret => absurd hret hneg) (by simp [pollEvents])
    | events revents =>
      have hfd : ∀ j, (key2_ev j).fd = entryKey j := fun j => (hf j).1
      have hevents : ∀ j, (key2_ev j).events = true := fun j => (hf j).2
      rw [pollEvents_report hfd]
      refine .poll revents (fun i ho => ho.2) fun i => ?_
      simp only [Main.Owes, Main.Awaits, PollFd.poll, hfd, hevents, Bool.true_and]
      exact and_iff_left (Int.natCast_nonneg _)
  case reportError.none =>
    split at h <;> cases h
    · rename_i hneg
      exact .elsewhere (fun _ hret => absurd hneg (Int.not_lt.2 hret)) (fun _ => id) (by simp)
    · rename_i hnot
      refine .quiet [] (by simp) fun i => and_congr_right fun _ => ?_
      exact iff_of_true trivial (Int.not_lt.1 hnot)
  case testOff.none =>
    split at h <;> cases h
    · rename_i hready
      exact .off ⟨hready, trivial⟩ rfl rfl fun _ => trivial
    · rename_i hnot
      refine .quiet [] (by simp) fun i => and_congr_right fun hi => iff_of_true ?_ trivial
      have hne : i ≠ 0 := by
        rintro rfl
        exact hnot hi
      exact Fin.one_le_of_ne_zero hne
  case testReport.none r =>
    split at h <;> cases h
    · rename_i hready
      refine .report r ⟨hready, le_rfl⟩ (fun ho => absurd ho.2 (lt_irrefl _)) fun i hi => and_congr_right fun _ => ?_
      exact ⟨fun hlt => le_of_lt hlt, fun hle => lt_of_le_of_ne hle (Ne.symm hi)⟩
    · rename_i hnot
      refine .quiet [] (by simp) fun i => and_congr_right fun hi => ?_
      rw [awaits_afterReport rfl]
      refine ⟨fun hlt => le_of_lt hlt, fun hle => lt_of_le_of_ne hle ?_⟩
      rintro rfl
      exact hnot hi
  case branch.none r =>
    obtain ⟨t, -, ht⟩ := Option.map_eq_some_iff.1 h
    cases ht
    refine .quiet [] (by simp) fun i => and_congr_right fun _ => ?_
    exact awaits_afterReport rfl i
  case join.none n =>
    split at h <;> cases h
    cases n <;> exact .elsewhere (fun _ => id) (fun _ => id) (by simp)
  case openKey.opened k _ => cases h; cases k <;> exact .elsewhere (fun _ => id) (fun _ => id) (by simp)
  case create.created n _ _ => cases h; cases n <;> exact .elsewhere (fun _ => id) (fun _ => id) (by simp)
  case fillEvents.none i =>
    cases h
    refine .elsewhere (fun _ => id) ?_ (by simp)
    obtain rfl | rfl | rfl | rfl : i = 0 ∨ i = 1 ∨ i = 2 ∨ i = 3 := by omega
    all_goals exact fun _ => id
  case waitTest.none | waitReady.none | coinTest.none | reportTest.none =>
    cases h
    refine .elsewhere (fun _ => id) ?_ (by simp)
    split <;> exact fun _ => id
  all_goals first
    | (cases h; exact .elsewhere (fun _ => id) (fun _ => id) (by simp))
    | (split at h <;> cases h <;> exact .elsewhere (fun _ => id) (fun _ => id) (by simp))

theorem Main.Filled.step {c : Clock} {s s' : State} {inp : Input} {evs : List Event} (hf : s.main.Filled)
    (h : mainStep c s inp = some (s', evs)) : s'.main.Filled := by
  obtain ⟨g, ⟨pc, key_fd, key1_ret, key2_ret, key_ev, key2_ev, mot_fd, dot_fd, mot_data, loop⟩, th⟩ := s
  cases pc <;> cases inp <;> simp only [mainStep, reduceCtorEq] at h
  case fillFd.none i =>
    cases h
    refine ⟨fun j hj => ?_, ?_⟩
    · simp only [Function.update_of_ne (ne_of_lt hj)]
      exact hf j hj
    · simp only [Function.update_self]
  case fillEvents.none i =>
    cases h
    have hnext : ∀ j ≤ i, (Function.update key2_ev i { key2_ev i with events := true } j).fd = entryKey j ∧
        (Function.update key2_ev i { key2_ev i with events := true } j).events = true := by
      intro j hj
      by_cases hji : j = i
      · subst hji
        rw [Function.update_self]
        exact ⟨hf.2, rfl⟩
      · rw [Function.update_of_ne hji]
        exact hf.1 j (lt_of_le_of_ne hj hji)
    obtain rfl | rfl | rfl | rfl : i = 0 ∨ i = 1 ∨ i = 2 ∨ i = 3 := by omega
    · exact fun j hj => hnext j (Nat.le_of_lt_succ hj)
    · exact fun j hj => hnext j (Nat.le_of_lt_succ hj)
    · exact fun j hj => hnext j (Nat.le_of_lt_succ hj)
    · exact fun j => hnext j (Fin.le_last j)
  case reportTest.none =>
    cases h
    by_cases hm : g.mac_state = 2
    · rw [if_pos hm]
      exact fun j hj => absurd hj (Fin.not_lt_zero j)
    · rw [if_neg hm]
      trivial
  case branch.none r =>
    obtain ⟨t, -, ht⟩ := Option.map_eq_some_iff.1 h
    cases ht
    cases r <;> trivial
  case openKey.opened k _ => cases h; cases k <;> trivial
  case create.created n _ _ => cases h; cases n <;> trivial
  case join.none n =>
    split at h <;> cases h
    cases n <;> trivial
  case waitTest.none | waitReady.none | coinTest.none =>
    cases h
    split <;> trivial
  case testReport.none r =>
    split at h <;> cases h
    · trivial
    · cases r <;> trivial
  all_goals first
    | (cases h; trivial)
    | (split at h <;> cases h <;> trivial)

/-- A sensor thread neither serves a key nor polls for the report loop. -/
theorem Thread.step_own {n : Sens} {g g' : Globals} {t t' : Thread} {inp : Input} {evs : List Event}
    (h : t.step n g inp = some (g', t', evs)) : ∀ e ∈ evs, (∀ k ready, e ≠ .poll .report k ready) ∧ ∀ k, e ≠ .serve k := by
  unfold Thread.step at h
  split at h
  case h_5 | h_13 => split at h <;> cases h; simp
  case h_6 p _ =>
    cases h
    cases p <;> simp [pollEvents]
  case h_18 => cases h
  all_goals
    cases h
    simp

/-! ## The balance -/

theorem entryKey_inj {i j : Fin 4} : entryKey i = entryKey j ↔ i = j := by
  revert i j
  decide

/-- A mark that no test will find: key 1 has switched the machine off. -/
def Main.Dropped (m : Main) (log : List Event) (i : Fin 4) : Prop :=
  i ≠ offEntry ∧ .serve .key ∈ log ∧ (m.key2_ev i).revents = true

structure Balance (m : Main) (log : List Event) : Prop where
  filled : m.Filled
  off : .serve .key ∈ log → m.pc = .closeKeys ∨ m.pc = .exited
  left : ∀ i, m.Owes i ∨ m.Dropped log i →
    log.count (.poll .report (entryKey i) true) = log.count (.serve (entryKey i)) + 1
  even : ∀ i, ¬ m.Owes i → ¬ m.Dropped log i →
    log.count (.poll .report (entryKey i) true) = log.count (.serve (entryKey i))

/-- Events that change neither count. -/
theorem count_quiet {log evs : List Event}
    (hevs : ∀ e ∈ evs, (∀ k ready, e ≠ .poll .report k ready) ∧ ∀ k, e ≠ .serve k) (k : Key) :
    (log ++ evs).count (.poll .report k true) = log.count (.poll .report k true) ∧
    (log ++ evs).count (.serve k) = log.count (.serve k) ∧ (.serve k ∈ log ++ evs ↔ .serve k ∈ log) := by
  have hpoll : Event.poll .report k true ∉ evs := fun hmem => (hevs _ hmem).1 k true rfl
  have hserve : Event.serve k ∉ evs := fun hmem => (hevs _ hmem).2 k rfl
  simp [List.count_append, List.count_eq_zero.2 hpoll, List.count_eq_zero.2 hserve, hserve]

theorem Balance.quiet {m m' : Main} {log evs : List Event} (hb : Balance m log) (hf : m'.Filled)
    (hevs : ∀ e ∈ evs, (∀ k ready, e ≠ .poll .report k ready) ∧ ∀ k, e ≠ .serve k)
    (howes : ∀ i, m'.Owes i ↔ m.Owes i)
    (hoff : .serve .key ∈ log → (m'.pc = .closeKeys ∨ m'.pc = .exited) ∧ m'.key2_ev = m.key2_ev) :
    Balance m' (log ++ evs) := by
  have hdropped : ∀ i, m'.Dropped (log ++ evs) i ↔ m.Dropped log i := by
    intro i
    unfold Main.Dropped
    rw [(count_quiet hevs .key).2.2]
    refine and_congr_right fun _ => and_congr_right fun hmem => ?_
    rw [(hoff hmem).2]
  refine ⟨hf, fun hmem => (hoff ((count_quiet hevs .key).2.2.1 hmem)).1, fun i => ?_, fun i => ?_⟩
  · rw [howes, hdropped, (count_quiet hevs _).1, (count_quiet hevs _).2.1]
    exact hb.left i
  · rw [howes, hdropped, (count_quiet hevs _).1, (count_quiet hevs _).2.1]
    exact hb.even i

theorem count_reportPolls (revents : Key → Bool) (i : Fin 4) :
    (reportPolls revents [.key, .key2, .key3, .key4]).count (.poll .report (entryKey i) true) =
      if revents (entryKey i) = true then 1 else 0 := by
  have hcases : i = 0 ∨ i = 1 ∨ i = 2 ∨ i = 3 := by omega
  split
  all_goals
    rename_i hready
    rcases hcases with rfl | rfl | rfl | rfl <;> simp_all [reportPolls, entryKey]

theorem count_reportPolls_serve (revents : Key → Bool) (ks : List Key) (k : Key) :
    (reportPolls revents ks).count (.serve k) = 0 := by
  rw [List.count_eq_zero]
  simp [reportPolls]

/-- No mark is left and the machine is on. -/
theorem Balance.poll {m m' : Main} {log : List Event} (hb : Balance m log) (hf : m'.Filled) {revents : Key → Bool}
    (hon : .serve .key ∉ log) (before : ∀ i, ¬ m.Owes i) (after : ∀ i, m'.Owes i ↔ revents (entryKey i) = true) :
    Balance m' (log ++ reportPolls revents [.key, .key2, .key3, .key4]) := by
  have heven : ∀ i, log.count (.poll .report (entryKey i) true) = log.count (.serve (entryKey i)) :=
    fun i => hb.even i (before i) fun hd => hon hd.2.1
  have hon' : .serve .key ∉ log ++ reportPolls revents [.key, .key2, .key3, .key4] := by
    rw [List.mem_append]
    rintro (hmem | hmem)
    · exact hon hmem
    · simp [reportPolls] at hmem
  refine ⟨hf, fun hmem => absurd hmem hon', fun i hi => ?_, fun i hi _ => ?_⟩
  · have hready : revents (entryKey i) = true := (after i).1 (hi.resolve_right fun hd => hon' hd.2.1)
    rw [List.count_append, List.count_append, count_reportPolls, count_reportPolls_serve, if_pos hready, heven]
  · have hnot : ¬ revents (entryKey i) = true := fun hready => hi ((after i).2 hready)
    rw [List.count_append, List.count_append, count_reportPolls, count_reportPolls_serve, if_neg hnot, heven]

theorem count_serve (log : List Event) (j i : Fin 4) :
    (log ++ [Event.serve (entryKey j)]).count (.poll .report (entryKey i) true) =
      log.count (.poll .report (entryKey i) true) ∧
    (log ++ [Event.serve (entryKey j)]).count (.serve (entryKey i)) =
      log.count (.serve (entryKey i)) + if j = i then 1 else 0 := by
  simp [List.count_append, List.count_singleton, entryKey_inj]

theorem Balance.report {m m' : Main} {log : List Event} (hb : Balance m log) (hf : m'.Filled) (r : Report)
    (hon : .serve .key ∉ log) (before : m.Owes r.entry) (after : ¬ m'.Owes r.entry)
    (same : ∀ i, i ≠ r.entry → (m'.Owes i ↔ m.Owes i)) : Balance m' (log ++ [.serve r.key]) := by
  have hon' : .serve .key ∉ log ++ [.serve r.key] := by
    cases r <;> simpa [Report.key] using hon
  have hnone : ∀ i, ¬ m.Dropped log i := fun i hd => hon hd.2.1
  have hnone' : ∀ i, ¬ m'.Dropped (log ++ [.serve r.key]) i := fun i hd => hon' hd.2.1
  rw [← entryKey_entry] at hnone' ⊢
  rw [← entryKey_entry] at hon'
  refine ⟨hf, fun hmem => absurd hmem hon', fun i hi => ?_, fun i hi _ => ?_⟩
  · have howes : m'.Owes i := hi.resolve_right (hnone' i)
    have hne : i ≠ r.entry := by
      rintro rfl
      exact after howes
    rw [(count_serve log r.entry i).1, (count_serve log r.entry i).2, if_neg (Ne.symm hne)]
    exact hb.left i (Or.inl ((same i hne).1 howes))
  · rw [(count_serve log r.entry i).1, (count_serve log r.entry i).2]
    by_cases hir : r.entry = i
    · subst hir
      rw [if_pos rfl]
      exact hb.left _ (Or.inl before)
    · rw [if_neg hir]
      exact hb.even i (fun ho => hi ((same i (Ne.symm hir)).2 ho)) (hnone i)

theorem Balance.switchOff {m m' : Main} {log : List Event} (hb : Balance m log) (hf : m'.Filled)
    (hon : .serve .key ∉ log) (before : m.Owes offEntry) (after : m'.pc = .closeKeys) (same : m'.key2_ev = m.key2_ev)
    (all : ∀ i, m.Awaits i) : Balance m' (log ++ [.serve .key]) := by
  have hnone : ∀ i, ¬ m'.Owes i := Main.not_owes fun i => by simp [Main.Awaits, after]
  have hdropped : ∀ i, m'.Dropped (log ++ [.serve .key]) i ↔ i ≠ offEntry ∧ m.Owes i := by
    intro i
    unfold Main.Dropped Main.Owes
    rw [same, List.mem_append]
    simp [all i]
  have hcount := fun i => count_serve log offEntry i
  have hkey : entryKey offEntry = .key := rfl
  rw [hkey] at hcount
  refine ⟨hf, fun _ => Or.inl after, fun i hi => ?_, fun i _ hi => ?_⟩
  · obtain ⟨hne, howes⟩ := (hdropped i).1 (hi.resolve_left (hnone i))
    rw [(hcount i).1, (hcount i).2, if_neg (Ne.symm hne)]
    exact hb.left i (Or.inl howes)
  · rw [(hcount i).1, (hcount i).2]
    by_cases hi0 : offEntry = i
    · subst hi0
      rw [if_pos rfl]
      exact hb.left _ (Or.inl before)
    · rw [if_neg hi0]
      refine hb.even i (fun ho => hi ((hdropped i).2 ⟨Ne.symm hi0, ho⟩)) fun hd => hon hd.2.1

/-- After the machine was switched off `main` only returns. -/
theorem mainStep_closing {c : Clock} {s s' : State} {inp : Input} {evs : List Event}
    (hpc : s.main.pc = .closeKeys ∨ s.main.pc = .exited) (h : mainStep c s inp = some (s', evs)) :
    evs = [.exit] ∧ s'.main.pc = .exited ∧ s'.main.key2_ev = s.main.key2_ev := by
  rcases hpc with hpc | hpc
  all_goals
    cases inp <;> simp only [mainStep, hpc, reduceCtorEq] at h
  cases h
  exact ⟨rfl, rfl, rfl⟩

/-- The step lemma for `main`. -/
theorem Balance.main {c : Clock} {s s' : State} {inp : Input} {log evs : List Event} (hb : Balance s.main log)
    (h : mainStep c s inp = some (s', evs)) : Balance s'.main (log ++ evs) := by
  have hf := hb.filled.step h
  by_cases hoff : .serve .key ∈ log
  · obtain ⟨rfl, hexit, hsame⟩ := mainStep_closing (hb.off hoff) h
    refine hb.quiet hf (by simp) (fun i => ?_) fun _ => ⟨Or.inr hexit, hsame⟩
    refine iff_of_false (Main.not_owes (fun i => by simp [Main.Awaits, hexit]) i) ?_
    rcases hb.off hoff with hpc | hpc <;> exact Main.not_owes (fun i => by simp [Main.Awaits, hpc]) i
  · cases mainStep_marks hb.filled h with
    | quiet _ hevs same => exact hb.quiet hf hevs same fun hmem => absurd hmem hoff
    | poll revents before after => exact hb.poll hf hoff before after
    | report r before after same => exact hb.report hf r hoff before after same
    | off before after same all => exact hb.switchOff hf hoff before after same all

theorem Balance.step {c : Clock} {s s' : State} {log log' : List Event} {a : Action} (hb : Balance s.main log)
    (h : logStep c (s, log) a = some (s', log')) : Balance s'.main log' := by
  obtain ⟨evs, hstep, rfl⟩ := logStep_step h
  cases a with
  | main inp => exact hb.main hstep
  | thread n inp =>
    obtain ⟨t, t', -, -, hst, hs'⟩ := step_thread hstep
    have hmain : s'.main = s.main := by rw [hs']
    rw [hmain]
    exact hb.quiet hb.filled (Thread.step_own hst) (fun _ => Iff.rfl) fun hmem => ⟨hb.off hmem, rfl⟩

theorem reachable_balance {c : Clock} {x : State × List Event} (h : Reachable (logStep c) Init x) :
    Balance x.1.main x.2 := by
  refine h.invariant (P := fun x => Balance x.1.main x.2) ?_ fun _ _ _ hx hs => hx.step hs
  intro x hx
  have hnone : ∀ i, ¬ x.1.main.Owes i := Main.not_owes fun i => by simp [Main.Awaits, hx.pc]
  refine ⟨?_, ?_, fun i hi => ?_, fun i _ _ => ?_⟩
  · rw [Main.Filled, hx.pc]
    trivial
  · rw [hx.log]
    exact fun hmem => absurd hmem List.not_mem_nil
  · refine absurd hi ?_
    rintro (ho | ⟨-, hmem, -⟩)
    · exact hnone i ho
    · rw [hx.log] at hmem
      exact List.not_mem_nil hmem
  · rw [hx.log]
    rfl

/-- **Every ready key is served once** (`receive/test_mac.c:152-182`, `:260`, `:482`). In every reachable state and for
every entry of the poll set: the report loop has served its key as often as it has found it ready, but for one
time that is still to come in this iteration, or that was dropped because key 1 was ready too. -/
theorem reports_balance (c : Clock) (s : State) (log : List Event) (h : Reachable (logStep c) Init (s, log)) (i : Fin 4) :
    (s.main.Owes i ∨ s.main.Dropped log i →
      log.count (.poll .report (entryKey i) true) = log.count (.serve (entryKey i)) + 1) ∧
    (¬ s.main.Owes i → ¬ s.main.Dropped log i →
      log.count (.poll .report (entryKey i) true) = log.count (.serve (entryKey i))) ∧
    (s.main.pc = .reportTest → ¬ s.main.Owes i ∧ ¬ s.main.Dropped log i) := by
  have hb : Balance s.main log := reachable_balance h
  refine ⟨hb.left i, hb.even i, fun hpc => ⟨Main.not_owes (fun j => by simp [Main.Awaits, hpc]) i, ?_⟩⟩
  rintro ⟨-, hoff, -⟩
  rcases hb.off hoff with heq | heq
  all_goals
    rw [hpc] at heq
    cases heq

/-- Key 3 has been found ready in the first iteration, and served. -/
theorem reports_balance_early : ∃ c s log, Reachable (logStep c) Init (s, log) ∧
    .poll .report .key3 true ∈ log ∧ (s.main.Owes Report.eachCoin.entry ∨ s.main.Dropped log Report.eachCoin.entry →
      log.count (.poll .report .key3 true) = log.count (.serve .key3) + 1) := by
  obtain ⟨x, hx, hhist⟩ := earlyPress_run .ticks
  have hmem : .poll .report .key3 true ∈ x.log := by
    rw [Keyed.log, hhist]
    simp [earlyHist, KeyEvent.event?]
  exact ⟨_, x.s, x.log, keyed_reachable hx, hmem, (reports_balance _ x.s x.log (keyed_reachable hx) Report.eachCoin.entry).1⟩

/-! ## From the press to the report -/

/-- Each ready poll of the report loop is served later, or the machine is switched off later, or the mark is
still there. -/
def Due (m : Main) (log : List Event) : Prop := ∀ i pre post,
  log = pre ++ .poll .report (entryKey i) true :: post → .serve (entryKey i) ∈ post ∨ .serve .key ∈ post ∨ m.Owes i

theorem Due.quiet {m m' : Main} {log evs : List Event} (hd : Due m log)
    (hevs : ∀ e ∈ evs, (∀ k ready, e ≠ .poll .report k ready) ∧ ∀ k, e ≠ .serve k) (howes : ∀ i, m.Owes i → m'.Owes i) :
    Due m' (log ++ evs) := by
  intro i pre post heq
  rcases split_append heq with ⟨post', rfl, hlog⟩ | ⟨pre', rfl, hnew⟩
  · refine (hd i pre post' hlog).imp (List.mem_append_left _) fun h => ?_
    exact h.imp (List.mem_append_left _) (howes i)
  · refine absurd rfl ((hevs (.poll .report (entryKey i) true) ?_).1 (entryKey i) true)
    rw [hnew]
    exact List.mem_append_right _ List.mem_cons_self

theorem Due.marks {m m' : Main} {log evs : List Event} (hd : Due m log) (h : Marks m m' evs) : Due m' (log ++ evs) := by
  cases h with
  | quiet _ hevs same => exact hd.quiet hevs fun i => (same i).2
  | poll revents before after =>
    intro i pre post heq
    rcases split_append heq with ⟨post', rfl, hlog⟩ | ⟨pre', rfl, hnew⟩
    · rcases hd i pre post' hlog with hs | hoff | ho
      · exact Or.inl (List.mem_append_left _ hs)
      · exact Or.inr (Or.inl (List.mem_append_left _ hoff))
      · exact absurd ho (before i)
    · -- the poll that has just been made
      have hmem : Event.poll .report (entryKey i) true ∈ reportPolls revents [.key, .key2, .key3, .key4] := by
        rw [hnew]
        exact List.mem_append_right _ List.mem_cons_self
      obtain ⟨k, -, hk⟩ := List.mem_map.1 hmem
      obtain ⟨-, rfl, hready⟩ := Event.poll.inj hk
      exact Or.inr (Or.inr ((after i).2 hready))
  | report r before after same =>
    intro i pre post heq
    rcases split_append heq with ⟨post', rfl, hlog⟩ | ⟨pre', -, hnew⟩
    · rcases hd i pre post' hlog with hs | hoff | ho
      · exact Or.inl (List.mem_append_left _ hs)
      · exact Or.inr (Or.inl (List.mem_append_left _ hoff))
      · by_cases hir : i = r.entry
        · subst hir
          rw [entryKey_entry]
          exact Or.inl (List.mem_append_right _ List.mem_cons_self)
        · exact Or.inr (Or.inr ((same i hir).2 ho))
    · rcases List.cons_eq_append_iff.1 hnew with ⟨-, h⟩ | ⟨l, -, h⟩
      · cases h
      · simp at h
  | off before after same all =>
    intro i pre post heq
    rcases split_append heq with ⟨post', rfl, hlog⟩ | ⟨pre', -, hnew⟩
    · exact Or.inr (Or.inl (List.mem_append_right _ List.mem_cons_self))
    · rcases List.cons_eq_append_iff.1 hnew with ⟨-, h⟩ | ⟨l, -, h⟩
      · cases h
      · simp at h

theorem reachable_due {c : Clock} {x : State × List Event} (h : Reachable (logStep c) Init x) : Due x.1.main x.2 := by
  have hinv : Balance x.1.main x.2 ∧ Due x.1.main x.2 := by
    refine h.invariant (P := fun x => Balance x.1.main x.2 ∧ Due x.1.main x.2) ?_ ?_
    · intro x hx
      refine ⟨reachable_balance (c := c) (.of_init hx), fun i pre post heq => ?_⟩
      rw [hx.log] at heq
      simp at heq
    · rintro ⟨s, log⟩ a ⟨s', log'⟩ ⟨hb, hd⟩ hstep
      refine ⟨hb.step hstep, ?_⟩
      obtain ⟨evs, hs, rfl⟩ := logStep_step hstep
      cases a with
      | main inp => exact hd.marks (mainStep_marks hb.filled hs)
      | thread n inp =>
        obtain ⟨t, t', -, -, hst, hs'⟩ := step_thread hs
        have hmain : s'.main = s.main := by rw [hs']
        rw [hmain]
        exact hd.quiet (Thread.step_own hst) fun _ => id
  exact hinv.2

/-- **A press is served** (`receive/key_driver.c:28-54`, `receive/test_mac.c:144-182`). Key `i` of the poll set was
pressed, and the report loop is the first to poll it after that. Then the poll finds the key, and the report of
the key is run, or the machine switched off, after it; or `main` is still in that iteration, and the test of the
key is to come. Each call of `key_poll` is one step, and a press counts while the driver of the key is open. -/
theorem press_served (c : Clock) (x : Keyed) (h : Reachable (keyStep c) KeyInit x) (i : Fin 4)
    (a b : List KeyEvent) (ready : Bool) (d : List KeyEvent)
    (heq : x.hist = a ++ .press (entryKey i) :: (b ++ .ev (.poll .report (entryKey i) ready) :: d))
    (hb : Unpolled (entryKey i) b) (hfew : Few (entryKey i) x.hist) :
    ready = true ∧ (.ev (.serve (entryKey i)) ∈ d ∨ .ev (.serve .key) ∈ d ∨ x.s.main.Owes i) := by
  have hsplit : x.hist = (a ++ .press (entryKey i) :: b) ++ .ev (.poll .report (entryKey i) ready) :: d := by
    rw [heq, List.append_assoc, List.cons_append]
  have hready : ready = true :=
    (reachable_polledRight h _ _ d hsplit _ _ _ rfl (hsplit ▸ hfew).of_append).2 ⟨a, b, rfl, hb⟩
  refine ⟨hready, ?_⟩
  have hlog : x.log = (a ++ .press (entryKey i) :: b).filterMap KeyEvent.event? ++
      .poll .report (entryKey i) true :: d.filterMap KeyEvent.event? := by
    rw [Keyed.log, hsplit, List.filterMap_append, hready]
    rfl
  have hmem : ∀ e, e ∈ d.filterMap KeyEvent.event? → .ev e ∈ d := by
    intro e he
    obtain ⟨e', hm, he'⟩ := List.mem_filterMap.1 he
    cases e' with
    | press k => cases he'
    | ev e' => cases he'; exact hm
  refine (reachable_due (keyed_reachable h) i _ _ hlog).imp (hmem _) fun hrest => hrest.imp (hmem _) id

/-- Key 3, pressed while `main` waits for key 1, is served by the first iteration of the report loop. -/
theorem press_served_early : ∃ c x, Reachable (keyStep c) KeyInit x ∧ ∃ b d,
    x.hist = [] ++ .press .key3 :: (b ++ .ev (.poll .report .key3 true) :: d) ∧ Unpolled .key3 b ∧
    (.ev (.serve .key3) ∈ d ∨ .ev (.serve .key) ∈ d ∨ x.s.main.Owes Report.eachCoin.entry) := by
  obtain ⟨x, hx, hhist⟩ := earlyPress_run .ticks
  have heq : x.hist = [] ++ .press .key3 :: (earlyHist.tail.take 16 ++
      .ev (.poll .report .key3 true) :: [.ev (.poll .report .key4 false), .ev (.serve .key3)]) := by
    rw [hhist]
    rfl
  have hb : Unpolled .key3 (earlyHist.tail.take 16) := by
    intro who ready hmem
    simp [earlyHist] at hmem
  have hfew : Few .key3 x.hist := by
    rw [hhist]
    unfold Few
    decide
  exact ⟨_, x, hx, _, _, heq, hb, (press_served _ x hx Report.eachCoin.entry [] _ true _ heq hb hfew).2⟩

end CoinMachine
