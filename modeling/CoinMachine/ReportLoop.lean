import CoinMachine.Display
import CoinMachine.Process
/-!
# The report loop (`receive/test_mac.c:144-557`)

One iteration polls the four keys and runs the branch of every key that is ready; key 1 leaves the loop.
The branches run on the locals that the branches before them left behind. What they show depends on the
counters only (`serve_cases`): a loop that finds `time = 0` leaves `time = 0`, and everything else that a
branch reads it has set itself. The poll set is taken as large enough for its four entries.
-/

namespace CoinMachine

open Stutter

/-- A report that was run: its strip and the writes of its display loop. -/
structure ReportRun where
  report : Report
  value : Buf
  shown : List Shown

/-- What a report shows, whatever the durations of the writes. -/
structure View where
  report : Report
  value : Buf
  windows : List Shown
deriving DecidableEq

def ReportRun.view (x : ReportRun) : View := ⟨x.report, x.value, merge x.shown⟩

/-- What the report shows for the given counters. -/
def Report.view (r : Report) (ea : Counters) : View := ⟨r, strip (r.text ea), windows (r.text ea)⟩

structure LoopState where
  ea : Counters
  l : Locals
  w : Nat
  log : List ReportRun
  running : Bool

namespace Report

/-- The key that asks for a report. -/
def key : Report → Key
  | totalMoney => .key2
  | eachCoin => .key3
  | totalCoin => .key4

/-- The whole branch of a report. -/
def serve (r : Report) (c : Clock) (s : LoopState) : Option LoopState := do
  let b ← r.build s.ea s.l
  let d ← displayLoop c b.value { b.l with i := 0 } s.w
  some { s with l := d.l, w := d.w, log := s.log ++ [⟨r, b.value, d.shown⟩] }

/-- `if (key2_ev[i].revents & POLLIN) { … }` -/
def branch (r : Report) (c : Clock) (revents : Key → Bool) (s : LoopState) : Option LoopState :=
  if revents r.key then r.serve c s else some s

end Report

/-- The body of `while (mac_state == 2)` after the poll. -/
def iteration (c : Clock) (s : LoopState) : Polled → Option LoopState
  | .error => some { s with running := false }
  | .events revents =>
    if revents .key then some { s with running := false }
    else do
      let s ← Report.totalMoney.branch c revents s
      let s ← Report.eachCoin.branch c revents s
      Report.totalCoin.branch c revents s

/-- The loop over the results of its polls. -/
def reportLoop (c : Clock) : LoopState → List Polled → Option LoopState
  | s, [] => some s
  | s, p :: ps => if s.running then (iteration c s p).bind (reportLoop c · ps) else some s

def LoopState.views (s : LoopState) : List View := s.log.map ReportRun.view

/-- At the head of the report loop for the first time. -/
def LoopState.start (ea : Counters) (l : Locals) : LoopState := ⟨ea, l, 0, [], true⟩

/-! ## One branch -/

/-- What a branch changes: it appends the view of its report and keeps the counters and `time = 0`. -/
structure Serves (r : Report) (s t : LoopState) : Prop where
  ea_eq : t.ea = s.ea
  time : t.l.time = 0
  views : t.views = s.views ++ [r.view s.ea]

theorem serve_spec {r : Report} (c : Clock) {s : LoopState} (hb : Yields (r.build s.ea s.l) (r.Builds s.ea s.l))
    (ht : s.l.time = 0) : Yields (r.serve c s) (Serves r s) := by
  refine Yields.bind hb ?_
  rintro b ⟨hv, hm, htime⟩
  rw [hv]
  refine Yields.bind (displayLoop_strip c (r.text s.ea) b.l s.w hm (htime.trans ht)) ?_
  rintro d ⟨hst, hend⟩
  refine Yields.some ⟨rfl, hend, ?_⟩
  rw [LoopState.views, List.map_append, List.map_singleton, ReportRun.view, hst.merge_eq (windows_isChain _)]
  rfl

/-- A report is undefined for some counters from every state, and exact for the others from every state
with `time = 0`. -/
theorem serve_cases (r : Report) (ea : Counters) : (∀ c s, s.ea = ea → r.serve c s = none) ∨
    ∀ c s, s.ea = ea → s.l.time = 0 → Yields (r.serve c s) (Serves r s) := by
  rcases r.build_cases ea with h | h
  · left
    rintro c s rfl
    rw [Report.serve, h s.l]
    rfl
  · right
    rintro c s rfl ht
    exact serve_spec c (h s.l) ht

/-- The reports that a poll asks for, in the order of the branches. -/
def ready (revents : Key → Bool) : List Report :=
  [Report.totalMoney, Report.eachCoin, Report.totalCoin].filter fun r => revents r.key

/-- Consecutive branches. -/
def serveAll (c : Clock) (rs : List Report) (s : LoopState) : Option LoopState :=
  rs.foldlM (fun s r => r.serve c s) s

theorem serveAll_cons (c : Clock) (r : Report) (rs : List Report) (s : LoopState) :
    serveAll c (r :: rs) s = (r.serve c s).bind (serveAll c rs) := rfl

theorem serveAll_filter_cons (c : Clock) (revents : Key → Bool) (r : Report) (rs : List Report) (s : LoopState) :
    serveAll c ((r :: rs).filter fun r => revents r.key) s =
      (r.branch c revents s).bind (serveAll c (rs.filter fun r => revents r.key)) := by
  cases hr : revents r.key with
  | true => rw [List.filter_cons, if_pos hr, serveAll_cons, Report.branch, if_pos hr]
  | false =>
    rw [List.filter_cons, if_neg (by simp [hr]), Report.branch, if_neg (by simp [hr])]
    rfl

theorem iteration_eq {revents : Key → Bool} (c : Clock) (s : LoopState) (hkey : revents .key = false) :
    iteration c s (.events revents) = serveAll c (ready revents) s := by
  have hnil : serveAll c [] = some := rfl
  rw [iteration, if_neg (by simp [hkey]), ready]
  simp only [serveAll_filter_cons, List.filter_nil, hnil, Option.bind_fun_some, Option.bind_eq_bind]

/-! ## Any history -/

/-- At a loop head the account is at zero and everything shown so far was exact. -/
structure Exact (ea : Counters) (s : LoopState) : Prop where
  ea_eq : s.ea = ea
  time : s.l.time = 0
  views : ∀ v ∈ s.views, v = v.report.view ea

theorem Serves.exact {r : Report} {ea : Counters} {s t : LoopState} (h : Serves r s t) (hs : Exact ea s) :
    Exact ea t := by
  refine ⟨h.ea_eq.trans hs.ea_eq, h.time, ?_⟩
  intro v hv
  rw [h.views, List.mem_append, List.mem_singleton, hs.ea_eq] at hv
  rcases hv with hv | rfl
  · exact hs.views v hv
  · rfl

theorem serve_exact {r : Report} {ea : Counters} {c : Clock} {s t : LoopState} (hs : Exact ea s)
    (h : r.serve c s = some t) : Exact ea t := by
  rcases serve_cases r ea with hn | hy
  · rw [hn c s hs.ea_eq] at h
    cases h
  · exact ((hy c s hs.ea_eq hs.time).of_eq_some h).exact hs

theorem serveAll_exact {ea : Counters} {c : Clock} {rs : List Report} :
    ∀ {s t : LoopState}, Exact ea s → serveAll c rs s = some t → Exact ea t := by
  induction rs with
  | nil =>
    intro s t hs h
    cases h
    exact hs
  | cons r rs ih =>
    intro s t hs h
    rw [serveAll_cons, Option.bind_eq_some_iff] at h
    obtain ⟨u, hu, h⟩ := h
    exact ih (serve_exact hs hu) h

/-- The step lemma of the report loop. -/
theorem iteration_exact {ea : Counters} {c : Clock} {s t : LoopState} {p : Polled} (hs : Exact ea s)
    (h : iteration c s p = some t) : Exact ea t := by
  cases p with
  | error => cases h; exact ⟨hs.ea_eq, hs.time, hs.views⟩
  | events revents =>
    cases hkey : revents .key with
    | true =>
      rw [iteration, if_pos hkey] at h
      cases h
      exact ⟨hs.ea_eq, hs.time, hs.views⟩
    | false =>
      rw [iteration_eq c s hkey] at h
      exact serveAll_exact hs h

/-- The run lemma. -/
theorem reportLoop_exact {ea : Counters} {c : Clock} : ∀ {ps : List Polled} {s t : LoopState}, Exact ea s →
    reportLoop c s ps = some t → Exact ea t
  | [], s, t, hs, h => by cases h; exact hs
  | p :: ps, s, t, hs, h => by
    rw [reportLoop] at h
    split at h
    · obtain ⟨u, hu, h⟩ := Option.bind_eq_some_iff.1 h
      exact reportLoop_exact (iteration_exact hs hu) h
    · cases h
      exact hs

theorem Exact.start (ea : Counters) {l : Locals} (ht : l.time = 0) : Exact ea (.start ea l) :=
  ⟨rfl, ht, by simp [LoopState.start, LoopState.views]⟩

/-- What a report shows when it is the first one run. -/
def firstRun (c : Clock) (ea : Counters) (l : Locals) (r : Report) : Option (List View) :=
  (r.serve c (.start ea l)).map LoopState.views

theorem serveAll_views {ea : Counters} (c c₀ : Clock) {l₀ : Locals} (h₀ : l₀.time = 0) (rs : List Report) :
    ∀ s, Exact ea s → (serveAll c rs s).map LoopState.views =
      (rs.mapM (firstRun c₀ ea l₀)).map fun vs => s.views ++ vs.flatten := by
  induction rs with
  | nil =>
    intro s hs
    simp [serveAll]
  | cons r rs ih =>
    intro s hs
    rw [serveAll_cons, List.mapM_cons]
    rcases serve_cases r ea with hn | hy
    · rw [hn c s hs.ea_eq, firstRun, hn c₀ _ rfl]
      rfl
    · obtain ⟨t, ht, hst⟩ := hy c s hs.ea_eq hs.time
      obtain ⟨t₀, ht₀, hst₀⟩ := hy c₀ (.start ea l₀) rfl h₀
      have hfirst : firstRun c₀ ea l₀ r = some [r.view ea] := by
        rw [firstRun, ht₀, Option.map_some, hst₀.views]
        rfl
      have hview := hst.views
      rw [hs.ea_eq] at hview
      rw [ht, Option.bind_some, ih t (hst.exact hs), hfirst, hview]
      cases rs.mapM (firstRun c₀ ea l₀) with
      | none => rfl
      | some vs => simp

/-- **The reports are history-independent** (`:144-557`). After any two histories of polls, under any
clocks and from any locals with `time = 0`, an iteration adds to the log exactly the views that its
reports have as first runs, one after another (and is undefined when one of those is); the reports of the
two histories agree wherever they are of the same kind; and the counters are never changed. -/
theorem reports_history_independent (ea : Counters) (c c' c₀ : Clock) (l l' l₀ : Locals)
    (ht : l.time = 0) (ht' : l'.time = 0) (ht₀ : l₀.time = 0) (h h' : List Polled) (s s' : LoopState)
    (hs : reportLoop c (.start ea l) h = some s) (hs' : reportLoop c' (.start ea l') h' = some s') :
    (∀ revents : Key → Bool, revents .key = false →
      (iteration c s (.events revents)).map LoopState.views =
        ((ready revents).mapM (firstRun c₀ ea l₀)).map (fun vs => s.views ++ vs.flatten) ∧
      (iteration c' s' (.events revents)).map LoopState.views =
        ((ready revents).mapM (firstRun c₀ ea l₀)).map (fun vs => s'.views ++ vs.flatten)) ∧
    (∀ v ∈ s.views, ∀ v' ∈ s'.views, v.report = v'.report → v = v') ∧
    (s.ea = ea ∧ s'.ea = ea ∧ ∀ p t, iteration c s p = some t → t.ea = s.ea) := by
  have he := reportLoop_exact (Exact.start ea ht) hs
  have he' := reportLoop_exact (Exact.start ea ht') hs'
  refine ⟨?_, ?_, he.ea_eq, he'.ea_eq, ?_⟩
  · intro revents hkey
    rw [iteration_eq c s hkey, iteration_eq c' s' hkey]
    exact ⟨serveAll_views c c₀ ht₀ _ s he, serveAll_views c' c₀ ht₀ _ s' he'⟩
  · intro v hv v' hv' heq
    rw [he.views v hv, he'.views v' hv', heq]
  · intro p t hp
    rw [(iteration_exact he hp).ea_eq, he.ea_eq]

/-- Two 500-coins and one 50-coin; key 3 was pressed before in one history, nothing in the other. -/
theorem reports_history_independent_key3 : ∃ c l, ∃ s : LoopState,
    reportLoop c (.start ⟨2, 0, 1⟩ l) [.events fun k => k = .key3] = some s ∧ s.ea = ⟨2, 0, 1⟩ ∧
    (iteration c s (.events fun k => k = .key3)).map LoopState.views =
      ([Report.eachCoin].mapM (firstRun c ⟨2, 0, 1⟩ l)).map (fun vs => s.views ++ vs.flatten) := by
  let c : Clock := .ticks
  let l : Locals := ⟨5, 5, 5, 5, 5, 5, 0, 0, 0, 0, 0, 0⟩
  have hready : ready (fun k => k = .key3) = [.eachCoin] := rfl
  have hserve : Yields (Report.eachCoin.serve c (.start ⟨2, 0, 1⟩ l)) fun _ => True :=
    (serve_spec c (Report.eachCoin_builds _ _) rfl).mono fun _ _ => trivial
  have hs : Yields (reportLoop c (.start ⟨2, 0, 1⟩ l) [.events fun k => k = .key3]) fun _ => True := by
    have hrunning : (LoopState.start ⟨2, 0, 1⟩ l).running = true := rfl
    rw [reportLoop, if_pos hrunning, iteration_eq c _ rfl, hready, serveAll_cons]
    refine Yields.bind (Q := fun _ => True) ?_ fun t _ => Yields.some trivial
    exact hserve.bind fun t _ => Yields.some trivial
  obtain ⟨s, hs, -⟩ := hs
  obtain ⟨h1, -, h3, -⟩ := reports_history_independent ⟨2, 0, 1⟩ c c c l l l rfl rfl rfl
    [.events fun k => k = .key3] [] s (.start ⟨2, 0, 1⟩ l) hs rfl
  have hk := (h1 (fun k => k = .key3) rfl).1
  rw [hready] at hk
  exact ⟨c, l, s, hs, h3, hk⟩

end CoinMachine
