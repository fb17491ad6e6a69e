import CoinMachine.KeyDriver
import CoinMachine.Phases
/-!
# Which key presses the report loop acts on

The coin machine with its four key drivers: an action is an action of the program or a press of a key, at
any time. A press counts while the driver of the key is open: before, and after the end of the process, no handler
is registered (`State.Hears`). A `poll` of the program reports what the drivers answer: `key_poll` reports an event
when its `event_flag` is positive and sets it to zero. Here and in every result about these runs each call of
`key_poll` is one step: an interrupt or another call comes before its test or after its clear (`KeyDriver` has what
happens in between). `hist` is the log of the program with the presses in it.

A flag is kept from phase to phase and nothing but a poll clears it. A press of key 3 while `main` waits
for key 1 is therefore served by the first iteration of the report loop. What holds of every action of the
report loop is in `Caused`.

| here | there |
| --- | --- |
| `answer`, one entry | `key_poll` (`receive/key_driver.c:43-54`) |
| `press`             | `ind_interrupt_handler` (`receive/key_driver.c:28-41`) |
| `State.Hears`       | between `request_irq` and `free_irq` (`receive/key_driver.c:80`, `:95`) |
| `act`               | a statement of `receive/test_mac.c` |
-/

namespace CoinMachine

open Transition EventLog

inductive KeyEvent where
  | press (k : Key)
  | ev (e : Event)
deriving DecidableEq

def KeyEvent.event? : KeyEvent → Option Event
  | .press _ => none
  | .ev e => some e

/-- The program, the statics of its key drivers, and what happened. -/
structure Keyed where
  s : State
  dev : Key → KeyDev
  hist : List KeyEvent

/-- What the program did. -/
def Keyed.log (x : Keyed) : List Event := x.hist.filterMap KeyEvent.event?

/-- The open of the key was made, and the process has not ended. -/
def MainPc.holds (pc : MainPc) (k : Key) : Bool :=
  match pc with
  | .openKey k' => k.idx < k'.idx
  | .exited => false
  | _ => true

/-- The handler of the key is registered. -/
def State.Hears (s : State) (k : Key) : Prop := s.main.pc.holds k = true ∧ 0 ≤ s.main.key_fd k

instance (s : State) (k : Key) : Decidable (s.Hears k) := inferInstanceAs (Decidable (_ ∧ _))

inductive KeyAct where
  /-- `lev` is what the handler reads from `GPLEV0` -/
  | press (k : Key) (lev : Word)
  | act (a : Action)

/-- The calls of `key_poll` among the events of a step: each answers with the flag of its driver and clears
it. There is no such step where a driver would have answered otherwise. -/
def answer (dev : Key → KeyDev) : List Event → Option (Key → KeyDev)
  | [] => some dev
  | .poll _ k ready :: evs =>
    if ready = decide ((dev k).mask &&& POLLIN ≠ 0) then answer (Function.update dev k (dev k).clear) evs else none
  | _ :: evs => answer dev evs

def keyStep (c : Clock) (x : Keyed) : KeyAct → Option Keyed
  | .press k lev =>
    if x.s.Hears k then
      some { x with dev := Function.update x.dev k (indInterruptHandler k lev (x.dev k)), hist := x.hist ++ [.press k] }
    else some x
  | .act a => do
    let r ← step c x.s a
    let dev ← answer x.dev r.2
    some ⟨r.1, dev, x.hist ++ r.2.map KeyEvent.ev⟩

structure KeyInit (x : Keyed) : Prop where
  prog : Init (x.s, [])
  flags : ∀ k, (x.dev k).event_flag = 0
  hist : x.hist = []

/-! ## The program in it -/

theorem log_append (hist : List KeyEvent) (evs : List Event) :
    (hist ++ evs.map KeyEvent.ev).filterMap KeyEvent.event? = hist.filterMap KeyEvent.event? ++ evs := by
  rw [List.filterMap_append, List.filterMap_map]
  congr 1
  exact List.filterMap_some

theorem mem_log {x : Keyed} {e : Event} : e ∈ x.log ↔ .ev e ∈ x.hist := by
  rw [Keyed.log, List.mem_filterMap]
  constructor
  · rintro ⟨e', hm, he⟩
    cases e' with
    | press k => cases he
    | ev e' => cases he; exact hm
  · intro hm
    exact ⟨_, hm, rfl⟩

/-- A press that nobody hears changes nothing. -/
theorem keyStep_press {c : Clock} {x x' : Keyed} {k : Key} {lev : Word} (h : keyStep c x (.press k lev) = some x') :
    x' = x ∨ x' = { x with dev := Function.update x.dev k (indInterruptHandler k lev (x.dev k))
                           hist := x.hist ++ [.press k] } := by
  simp only [keyStep] at h
  split at h <;> cases h
  · exact Or.inr rfl
  · exact Or.inl rfl

/-- A step of the program whose polls the drivers answer. -/
theorem keyStep_act {c : Clock} {x x' : Keyed} {a : Action} (h : keyStep c x (.act a) = some x') :
    ∃ evs, step c x.s a = some (x'.s, evs) ∧ answer x.dev evs = some x'.dev ∧ x'.hist = x.hist ++ evs.map KeyEvent.ev := by
  obtain ⟨⟨s, evs⟩, hs, h⟩ := Option.bind_eq_some_iff.1 h
  obtain ⟨dev, hdev, h⟩ := Option.bind_eq_some_iff.1 h
  cases h
  exact ⟨evs, hs, hdev, rfl⟩

theorem keyStep_log {c : Clock} {x x' : Keyed} {a : Action} (h : keyStep c x (.act a) = some x') :
    logStep c (x.s, x.log) a = some (x'.s, x'.log) := by
  obtain ⟨evs, hs, -, hhist⟩ := keyStep_act h
  rw [logStep, hs, Keyed.log, Keyed.log, hhist, log_append]
  rfl

theorem log_press (hist : List KeyEvent) (k : Key) :
    (hist ++ [KeyEvent.press k]).filterMap KeyEvent.event? = hist.filterMap KeyEvent.event? := by
  rw [List.filterMap_append]
  exact List.append_nil _

/-- A step of the program with drivers is a step of the program, or leaves the program alone. -/
theorem keyStep_refines {c : Clock} {x x' : Keyed} {b : KeyAct} (h : keyStep c x b = some x') :
    (x'.s = x.s ∧ x'.log = x.log) ∨ ∃ a, logStep c (x.s, x.log) a = some (x'.s, x'.log) := by
  cases b with
  | press k lev =>
    rcases keyStep_press h with rfl | rfl
    · exact Or.inl ⟨rfl, rfl⟩
    · exact Or.inl ⟨rfl, log_press x.hist k⟩
  | act a => exact Or.inr ⟨a, keyStep_log h⟩

/-- What the program does with its drivers it can do. -/
theorem keyed_reachable {c : Clock} {x : Keyed} (h : Reachable (keyStep c) KeyInit x) :
    Reachable (logStep c) Init (x.s, x.log) := by
  refine h.invariant (P := fun x => Reachable (logStep c) Init (x.s, x.log)) ?_ ?_
  · intro x hx
    rw [Keyed.log, hx.hist]
    exact .of_init hx.prog
  · intro x b x' hx hb
    rcases keyStep_refines hb with ⟨hs, hlog⟩ | ⟨a, ha⟩
    · rwa [hs, hlog]
    · exact hx.snoc ha

/-! ## Presses and polls -/

/-- Nobody polls `k` here. -/
def Unpolled (k : Key) (hist : List KeyEvent) : Prop := ∀ who ready, .ev (.poll who k ready) ∉ hist

/-- `k` was pressed, and its driver was not polled since. -/
def Fresh (k : Key) (hist : List KeyEvent) : Prop := ∃ a b, hist = a ++ .press k :: b ∧ Unpolled k b

/-- The last poll of `k` was one of the report loop that reported an event; `k` was pressed between it and the
poll of `k` before it, whoever made that one; and the press came after the end of the coin phase, unless the
report loop had not polled `k` before. -/
def Caused (k : Key) (hist : List KeyEvent) : Prop :=
  ∃ a b d, hist = a ++ .press k :: (b ++ .ev (.poll .report k true) :: d) ∧ Unpolled k b ∧ Unpolled k d ∧
    (.ev (.macState 2) ∈ a ∨ ∀ ready, .ev (.poll .report k ready) ∉ a)

theorem Unpolled.append {k : Key} {hist hist' : List KeyEvent} (h : Unpolled k hist) (h' : Unpolled k hist') :
    Unpolled k (hist ++ hist') := by
  intro who ready hm
  rcases List.mem_append.1 hm with hm | hm
  · exact h who ready hm
  · exact h' who ready hm

theorem Fresh.append {k : Key} {hist hist' : List KeyEvent} (h : Fresh k hist) (h' : Unpolled k hist') :
    Fresh k (hist ++ hist') := by
  obtain ⟨a, b, rfl, hb⟩ := h
  exact ⟨a, b ++ hist', by simp, hb.append h'⟩

theorem Caused.append {k : Key} {hist hist' : List KeyEvent} (h : Caused k hist) (h' : Unpolled k hist') :
    Caused k (hist ++ hist') := by
  obtain ⟨a, b, d, rfl, hb, hd, ha⟩ := h
  exact ⟨a, b, d ++ hist', by simp, hb, hd.append h', ha⟩

theorem unpolled_press (k k' : Key) : Unpolled k [.press k'] := by
  intro who ready hm
  simp at hm

/-- A positive flag goes back to a press that no poll has seen. -/
def Pending (dev : Key → KeyDev) (hist : List KeyEvent) : Prop := ∀ k, (dev k).event_flag ≠ 0 → Fresh k hist

theorem Pending.press {dev : Key → KeyDev} {hist : List KeyEvent} (h : Pending dev hist) (k : Key) (d : KeyDev) :
    Pending (Function.update dev k d) (hist ++ [.press k]) := by
  intro k' hk'
  by_cases hk : k' = k
  · subst hk
    exact ⟨hist, [], rfl, fun _ _ hm => nomatch hm⟩
  · rw [Function.update_of_ne hk] at hk'
    exact (h k' hk').append (unpolled_press k' k)

/-- A poll of `k` leaves the flag of `k` at zero, and says nothing about the others. -/
theorem Pending.poll {dev : Key → KeyDev} {hist : List KeyEvent} (h : Pending dev hist) (who : Poller) (k : Key)
    (ready : Bool) : Pending (Function.update dev k (dev k).clear) (hist ++ [.ev (.poll who k ready)]) := by
  intro k' hk'
  by_cases hk : k' = k
  · subst hk
    rw [Function.update_self] at hk'
    exact absurd rfl hk'
  · rw [Function.update_of_ne hk] at hk'
    refine (h k' hk').append fun who' ready' hm => hk ?_
    simp only [List.mem_singleton, KeyEvent.ev.injEq, Event.poll.injEq] at hm
    exact hm.2.1

theorem Pending.other {dev : Key → KeyDev} {hist : List KeyEvent} (h : Pending dev hist) {e : Event}
    (he : ¬ e.IsPoll) : Pending dev (hist ++ [.ev e]) := by
  intro k hk
  refine (h k hk).append fun who ready hm => he ?_
  simp only [List.mem_singleton, KeyEvent.ev.injEq] at hm
  exact ⟨who, k, ready, hm.symm⟩

theorem answer_cons {dev dev' : Key → KeyDev} {e : Event} {evs : List Event} (h : answer dev (e :: evs) = some dev') :
    (∃ who k, e = .poll who k (decide ((dev k).mask &&& POLLIN ≠ 0)) ∧
      answer (Function.update dev k (dev k).clear) evs = some dev') ∨ (¬ e.IsPoll ∧ answer dev evs = some dev') := by
  cases e with
  | poll who k ready =>
    rw [answer] at h
    split at h
    · rename_i hready
      exact Or.inl ⟨who, k, by rw [hready], h⟩
    · cases h
  | _ => exact Or.inr ⟨(fun ⟨_, _, _, he⟩ => nomatch he), h⟩

/-- The step lemma for the drivers. -/
theorem Pending.answer {evs : List Event} : ∀ {dev dev' : Key → KeyDev} {hist : List KeyEvent}, Pending dev hist →
    answer dev evs = some dev' → Pending dev' (hist ++ evs.map KeyEvent.ev) := by
  induction evs with
  | nil =>
    intro dev dev' hist hp h
    cases h
    rwa [List.map_nil, List.append_nil]
  | cons e evs ih =>
    intro dev dev' hist hp h
    rw [List.map_cons, List.append_cons]
    rcases answer_cons h with ⟨who, k, rfl, h'⟩ | ⟨he, h'⟩
    · exact ih (hp.poll who k _) h'
    · exact ih (hp.other he) h'

/-- A driver reports an event only when its flag is positive. -/
theorem ready_flag {d : KeyDev} (h : true = decide (d.mask &&& POLLIN ≠ 0)) : d.event_flag ≠ 0 := by
  intro h0
  rw [KeyDev.mask, if_neg (by rw [h0]; decide)] at h
  simp at h

/-- A poll that reports an event goes back to a press that no poll has seen. -/
theorem Pending.of_ready {who : Poller} {k : Key} {pre : List Event} : ∀ {dev dev' : Key → KeyDev}
    {hist : List KeyEvent} {post : List Event}, Pending dev hist →
    CoinMachine.answer dev (pre ++ .poll who k true :: post) = some dev' → Fresh k (hist ++ pre.map KeyEvent.ev) := by
  induction pre with
  | nil =>
    intro dev dev' hist post hp h
    rw [List.map_nil, List.append_nil]
    rcases answer_cons h with ⟨who', k', he, -⟩ | ⟨he, -⟩
    · obtain ⟨-, rfl, hready⟩ := Event.poll.inj he
      exact hp k (ready_flag hready)
    · exact absurd ⟨who, k, true, rfl⟩ he
  | cons e pre ih =>
    intro dev dev' hist post hp h
    rw [List.map_cons, List.append_cons]
    rcases answer_cons h with ⟨who', k', rfl, h'⟩ | ⟨he, h'⟩
    · exact ih (hp.poll who' k' _) h'
    · exact ih (hp.other he) h'

/-! ## The report loop -/

/-- What has to be true of the history before an event: the report loop polls after the end of the coin phase,
and serves the keys that a press has caused. -/
def Justified (pre : List KeyEvent) : KeyEvent → Prop
  | .ev (.poll .report _ _) => .ev (.macState 2) ∈ pre
  | .ev (.serve k) => Caused k pre
  | _ => True

/-- The results of the last poll of the report loop. -/
def Answered (m : Main) (hist : List KeyEvent) : Prop :=
  ∀ i, (m.key2_ev i).revents = true → Caused (entryKey i) hist

/-- What the locals of `main` say about the keys, at each place of the report loop. -/
def ReportOk (m : Main) (hist : List KeyEvent) : Prop :=
  match m.pc with
  | .fillFd i => ∀ j < i, (m.key2_ev j).fd = entryKey j
  | .fillEvents i => ∀ j ≤ i, (m.key2_ev j).fd = entryKey j
  | .reportPoll => ∀ j, (m.key2_ev j).fd = entryKey j
  | .reportError => m.key2_ret < 0 ∨ Answered m hist
  | .testOff | .testReport _ | .branch _ => Answered m hist
  | _ => True

/-- The answers stay as they are while nobody polls. -/
theorem ReportOk.append {m : Main} {hist hist' : List KeyEvent} (h : ReportOk m hist) (h' : ∀ k, Unpolled k hist') :
    ReportOk m (hist ++ hist') := by
  have hans : Answered m hist → Answered m (hist ++ hist') := fun ha i hi => (ha i hi).append (h' _)
  unfold ReportOk at h ⊢
  cases hpc : m.pc <;> rw [hpc] at h
  case reportError => exact h.imp_right hans
  case testOff | testReport | branch => exact hans h
  all_goals exact h

structure KeyInv (x : Keyed) : Prop where
  prog : Inv x.s.ctl x.log
  pending : Pending x.dev x.hist
  report : ReportOk x.s.main x.hist
  good : Always Justified x.hist

theorem KeyInv.init {x : Keyed} (h : KeyInit x) : KeyInv x := by
  obtain ⟨hprog, hflags, hhist⟩ := h
  constructor
  · rw [Keyed.log, hhist]
    exact Inv.init hprog
  · intro k hk
    exact absurd (hflags k) hk
  · rw [ReportOk, hprog.pc]
    trivial
  · rw [hhist]
    exact Always.nil

theorem KeyInv.press {x : Keyed} (hx : KeyInv x) (k : Key) (d : KeyDev) :
    KeyInv { x with dev := Function.update x.dev k d, hist := x.hist ++ [.press k] } := by
  obtain ⟨hprog, hpending, hreport, hgood⟩ := hx
  constructor
  · rw [Keyed.log, log_press]
    exact hprog
  · exact hpending.press k d
  · exact hreport.append fun k' => unpolled_press k' k
  · exact hgood.snoc trivial

/-- In the report loop the coin phase is over. -/
theorem Inv.stopped {s : State} {log : List Event} (hx : Inv s.ctl log) (h : s.main.pc.region = .reporting) :
    .macState 2 ∈ log := hx.begun.stop (hx.mac_two h)

/-- A poll of the report loop that goes back to a press. -/
theorem Caused.of_fresh {k : Key} {hist d : List KeyEvent} (hf : Fresh k hist) (hd : Unpolled k d)
    (hgood : Always Justified (hist ++ .ev (.poll .report k true) :: d)) :
    Caused k (hist ++ .ev (.poll .report k true) :: d) := by
  obtain ⟨a, b, rfl, hb⟩ := hf
  refine ⟨a, b, d, by simp, hb, hd, ?_⟩
  by_cases hfirst : ∃ ready, .ev (.poll .report k ready) ∈ a
  · -- the report loop had polled before the press
    obtain ⟨ready, hm⟩ := hfirst
    obtain ⟨a₁, a₂, rfl⟩ := List.append_of_mem hm
    left
    have hstop := hgood a₁ (.ev (.poll .report k ready)) _ (by rw [List.append_assoc, List.append_assoc]; rfl)
    exact List.mem_append_left _ hstop
  · right
    exact fun ready hm => hfirst ⟨ready, hm⟩

/-- What the drivers were asked by the poll of the report loop. -/
def reportPolls (revents : Key → Bool) (ks : List Key) : List Event := ks.map fun k => .poll .report k (revents k)

theorem pollEvents_report {ev : Fin 4 → PollFd} (hfd : ∀ j, (ev j).fd = entryKey j) (revents : Key → Bool) :
    pollEvents .report (List.ofFn ev) (.events revents) = reportPolls revents [.key, .key2, .key3, .key4] := by
  simp only [pollEvents, reportPolls, List.ofFn_succ, List.ofFn_zero, List.map_cons, List.map_nil, hfd]
  rfl

theorem unpolled_reportPolls {revents : Key → Bool} {k : Key} {ks : List Key} (h : k ∉ ks) :
    Unpolled k ((reportPolls revents ks).map KeyEvent.ev) := by
  intro who ready hm
  simp only [reportPolls, List.map_map, List.mem_map, Function.comp_apply, KeyEvent.ev.injEq, Event.poll.injEq] at hm
  obtain ⟨k', hk', -, rfl, -⟩ := hm
  exact h hk'

/-- The keys that a poll of the report loop finds ready go back to presses. -/
theorem Pending.caused {dev dev' : Key → KeyDev} {hist : List KeyEvent} {revents : Key → Bool} {ks : List Key}
    (hp : Pending dev hist) (hks : ks.Nodup) (h : CoinMachine.answer dev (reportPolls revents ks) = some dev')
    (hgood : Always Justified (hist ++ (reportPolls revents ks).map KeyEvent.ev)) {k : Key} (hk : k ∈ ks)
    (hready : revents k = true) : Caused k (hist ++ (reportPolls revents ks).map KeyEvent.ev) := by
  obtain ⟨ks₁, ks₂, rfl⟩ := List.append_of_mem hk
  have hsplit : reportPolls revents (ks₁ ++ k :: ks₂) =
      reportPolls revents ks₁ ++ .poll .report k true :: reportPolls revents ks₂ := by
    rw [reportPolls, List.map_append, List.map_cons, hready]
    rfl
  have hlater : k ∉ ks₂ := (List.nodup_cons.1 (List.nodup_append.1 hks).2.1).1
  rw [hsplit] at h hgood ⊢
  rw [List.map_append, List.map_cons, ← List.append_assoc] at hgood ⊢
  exact Caused.of_fresh (hp.of_ready h) (unpolled_reportPolls hlater) hgood

/-- Outside the report loop the locals of `main` say nothing. -/
theorem ReportOk.of_region {m : Main} (h : m.pc.region ≠ .reporting) (hist : List KeyEvent) : ReportOk m hist := by
  unfold ReportOk
  cases hpc : m.pc <;> rw [hpc] at h
  case fillFd | fillEvents | reportPoll | reportError | testOff | testReport | branch => exact absurd rfl h
  all_goals trivial

/-- A step of `main` other than the poll of the report loop. -/
theorem ReportOk.main {c : Clock} {s s' : State} {inp : Input} {evs : List Event} {hist : List KeyEvent}
    (hx : ReportOk s.main hist) (h : mainStep c s inp = some (s', evs)) (hpoll : s.main.pc ≠ .reportPoll) :
    ReportOk s'.main hist := by
  cases hpc : s.main.pc <;> cases inp <;> simp only [mainStep, hpc, reduceCtorEq] at h <;>
    simp only [ReportOk, hpc] at hx
  case fillFd.none i =>
    cases h
    intro j hj
    simp only
    by_cases hji : j = i
    · rw [hji, Function.update_self]
    · rw [Function.update_of_ne hji]
      exact hx j (lt_of_le_of_ne hj hji)
  case fillEvents.none i =>
    cases h
    have hfd : ∀ j ≤ i, (Function.update s.main.key2_ev i { s.main.key2_ev i with events := true } j).fd = entryKey j := by
      intro j hj
      by_cases hji : j = i
      · rw [hji, Function.update_self]
        exact hx i le_rfl
      · rw [Function.update_of_ne hji]
        exact hx j hj
    obtain rfl | rfl | rfl | rfl : i = 0 ∨ i = 1 ∨ i = 2 ∨ i = 3 := by omega
    · exact fun j hj => hfd j (Nat.le_of_lt_succ hj)
    · exact fun j hj => hfd j (Nat.le_of_lt_succ hj)
    · exact fun j hj => hfd j (Nat.le_of_lt_succ hj)
    · exact fun j => hfd j (Fin.le_last j)
  case reportTest.none =>
    cases h
    by_cases hm : s.g.mac_state = 2
    · rw [if_pos hm]
      exact fun j hj => absurd hj (Fin.not_lt_zero j)
    · rw [if_neg hm]
      trivial
  case reportError.none =>
    split at h <;> cases h
    · trivial
    · exact hx.resolve_left ‹_›
  case testOff.none =>
    split at h <;> cases h
    · trivial
    · exact hx
  case testReport.none r =>
    split at h <;> cases h
    · exact hx
    · cases r
      · exact hx
      · exact hx
      · trivial
  case branch.none r =>
    obtain ⟨t, -, ht⟩ := Option.map_eq_some_iff.1 h
    cases ht
    cases r
    · exact hx
    · exact hx
    · trivial
  case reportPoll.polled => exact absurd hpc hpoll
  case openKey.opened k _ => cases h; cases k <;> trivial
  case create.created n _ _ => cases h; cases n <;> trivial
  case join.none n =>
    split at h <;> cases h
    cases n <;> trivial
  all_goals first
    | (cases h; trivial)
    | (split at h <;> cases h <;> trivial)

/-- What `main` tells the drivers and the user: it polls at two places, and what it serves is ready. -/
theorem mainStep_events {c : Clock} {s s' : State} {inp : Input} {evs : List Event}
    (h : mainStep c s inp = some (s', evs)) :
    (s.main.pc = .waitPoll ∧ s'.main.pc = .waitError ∧ ∃ p, evs = pollEvents .wait [s.main.key_ev] p) ∨
    s.main.pc = .reportPoll ∨
    (∃ i, evs = [.serve (entryKey i)] ∧ (s.main.key2_ev i).revents = true ∧
      (s.main.pc = .testOff ∨ ∃ r, s.main.pc = .testReport r)) ∨
    ∀ e ∈ evs, ¬ e.IsPoll ∧ ∀ k, e ≠ .serve k := by
  cases hpc : s.main.pc <;> cases inp <;> simp only [mainStep, hpc, reduceCtorEq] at h
  case waitPoll.polled p =>
    cases h
    exact Or.inl ⟨rfl, rfl, p, rfl⟩
  case reportPoll.polled => exact Or.inr (Or.inl rfl)
  case testOff.none =>
    split at h <;> cases h
    · exact Or.inr (Or.inr (Or.inl ⟨0, rfl, ‹_›, Or.inl rfl⟩))
    · simp
  case testReport.none r =>
    split at h <;> cases h
    · exact Or.inr (Or.inr (Or.inl ⟨r.entry, by cases r <;> rfl, ‹_›, Or.inr ⟨r, rfl⟩⟩))
    · simp
  case branch.none r =>
    obtain ⟨t, -, ht⟩ := Option.map_eq_some_iff.1 h
    cases ht
    simp
  all_goals
    right; right; right
    first
      | (cases h; simp [Event.IsPoll])
      | (split at h <;> cases h <;> simp [Event.IsPoll])

/-- A sensor thread polls for itself. -/
theorem Thread.step_justified {n : Sens} {g g' : Globals} {t t' : Thread} {inp : Input} {evs : List Event}
    (h : t.step n g inp = some (g', t', evs)) : ∀ e ∈ evs, ∀ pre, Justified pre (.ev e) := by
  intro e he pre
  unfold Thread.step at h
  split at h
  case h_6 p _ =>
    cases h
    cases p with
    | error => cases he
    | events revents =>
      rw [List.mem_singleton.1 he]
      trivial
  case h_9 | h_17 =>
    cases h
    rw [List.mem_singleton.1 he]
    trivial
  case h_18 => cases h
  all_goals first
    | (cases h; cases he)
    | (split at h <;> cases h; cases he)

/-- New events that are justified where they stand. -/
theorem justified_append {hist : List KeyEvent} {evs : List Event} (hgood : Always Justified hist)
    (hevs : ∀ e ∈ evs, ∀ pre, Justified (hist ++ pre) (.ev e)) : Always Justified (hist ++ evs.map KeyEvent.ev) := by
  refine hgood.append fun pre e post heq => ?_
  have hm : e ∈ evs.map KeyEvent.ev := by rw [heq]; simp
  obtain ⟨e', he', rfl⟩ := List.mem_map.1 hm
  exact hevs e' he' pre

theorem justified_quiet {e : Event} (h : ¬ e.IsPoll ∧ ∀ k, e ≠ .serve k) (pre : List KeyEvent) :
    Justified pre (.ev e) := by
  cases e with
  | poll who k ready => exact absurd ⟨who, k, ready, rfl⟩ h.1
  | serve k => exact absurd rfl (h.2 k)
  | _ => trivial

theorem unpolled_events {evs : List Event} (h : ∀ e ∈ evs, ¬ e.IsPoll) (k : Key) : Unpolled k (evs.map KeyEvent.ev) := by
  intro who ready hm
  obtain ⟨e, he, heq⟩ := List.mem_map.1 hm
  cases heq
  exact h _ he ⟨who, k, ready, rfl⟩

/-- The poll of the report loop. -/
theorem KeyInv.reportPoll {c : Clock} {x : Keyed} {inp : Input} {s' : State} {dev' : Key → KeyDev} {evs : List Event}
    (hx : KeyInv x) (hpc : x.s.main.pc = .reportPoll) (hs : mainStep c x.s inp = some (s', evs))
    (hdev : answer x.dev evs = some dev') : ReportOk s'.main (x.hist ++ evs.map KeyEvent.ev) ∧
      Always Justified (x.hist ++ evs.map KeyEvent.ev) := by
  have hfd := hx.report
  simp only [ReportOk, hpc] at hfd
  have hstop : .ev (.macState 2) ∈ x.hist := mem_log.1 (hx.prog.stopped (by rw [hpc]; rfl))
  cases inp <;> simp only [mainStep, hpc, reduceCtorEq] at hs
  case polled p =>
    cases p with
    | error =>
      cases hs
      rw [pollEvents, List.map_nil, List.append_nil]
      exact ⟨Or.inl (by decide : (-1 : Int) < 0), hx.good⟩
    | events revents =>
      cases hs
      rw [pollEvents_report hfd] at hdev ⊢
      have hgood : Always Justified (x.hist ++ (reportPolls revents [.key, .key2, .key3, .key4]).map KeyEvent.ev) := by
        refine justified_append hx.good fun e he pre => ?_
        obtain ⟨k, -, rfl⟩ := List.mem_map.1 he
        exact List.mem_append_left _ hstop
      refine ⟨Or.inr fun i hi => ?_, hgood⟩
      have hready : revents (entryKey i) = true := by
        rw [← hfd i]
        exact (Bool.and_eq_true_iff.1 hi).2
      have hmem : ∀ j, entryKey j ∈ [Key.key, .key2, .key3, .key4] := by decide
      exact hx.pending.caused (by decide) hdev hgood (hmem i) hready

/-- The step lemma for `main`. -/
theorem KeyInv.main {c : Clock} {x : Keyed} {inp : Input} {s' : State} {dev' : Key → KeyDev} {evs : List Event}
    (hx : KeyInv x) (hs : mainStep c x.s inp = some (s', evs)) (hdev : answer x.dev evs = some dev') :
    ReportOk s'.main (x.hist ++ evs.map KeyEvent.ev) ∧ Always Justified (x.hist ++ evs.map KeyEvent.ev) := by
  by_cases hpoll : x.s.main.pc = .reportPoll
  · exact hx.reportPoll hpoll hs hdev
  have hreport : ReportOk s'.main x.hist := hx.report.main hs hpoll
  rcases mainStep_events hs with ⟨-, hpc, p, rfl⟩ | hpc | ⟨i, rfl, hready, hpc⟩ | hquiet
  · -- the poll of key 1
    refine ⟨.of_region (by rw [hpc]; decide) _, justified_append hx.good fun e he pre => ?_⟩
    cases p with
    | error => cases he
    | events revents =>
      rw [List.mem_singleton.1 he]
      trivial
  · exact absurd hpc hpoll
  · have hans : Answered x.s.main x.hist := by
      have hok := hx.report
      rcases hpc with hpc | ⟨r, hpc⟩ <;> simpa only [ReportOk, hpc] using hok
    refine ⟨hreport.append (unpolled_events ?_), hx.good.snoc (hans i hready)⟩
    simp [Event.IsPoll]
  · exact ⟨hreport.append (unpolled_events fun e he => (hquiet e he).1),
      justified_append hx.good fun e he pre => justified_quiet (hquiet e he) _⟩

/-- The step lemma. -/
theorem KeyInv.step {c : Clock} {x x' : Keyed} {b : KeyAct} (hx : KeyInv x) (h : keyStep c x b = some x') :
    KeyInv x' := by
  cases b with
  | press k lev =>
    rcases keyStep_press h with rfl | rfl
    · exact hx
    · exact hx.press k _
  | act a =>
    obtain ⟨evs, hs, hdev, hhist⟩ := keyStep_act h
    have hprog : Inv x'.s.ctl x'.log := hx.prog.step (keyStep_log h)
    have hpending : Pending x'.dev x'.hist := by
      rw [hhist]
      exact hx.pending.answer hdev
    suffices hrest : ReportOk x'.s.main x'.hist ∧ Always Justified x'.hist from ⟨hprog, hpending, hrest.1, hrest.2⟩
    rw [hhist]
    cases a with
    | main inp => exact hx.main hs hdev
    | thread n inp =>
      obtain ⟨t, t', -, -, hst, -⟩ := step_thread hs
      obtain ⟨hmain, hsettled⟩ := step_thread_unsettled hx.prog hs
      have hrep : x'.s.main.pc.region ≠ .reporting := by
        rw [hmain]
        exact fun hrep => hsettled (Or.inl hrep)
      exact ⟨.of_region hrep _, justified_append hx.good fun e he _ => Thread.step_justified hst e he _⟩

theorem reachable_keyInv {c : Clock} {x : Keyed} (h : Reachable (keyStep c) KeyInit x) : KeyInv x :=
  h.invariant (fun _ => KeyInv.init) fun _ _ _ hx hs => hx.step hs

/-- **Every action of the report loop is caused by a key press** (`receive/test_mac.c:88-182`,
`receive/key_driver.c:28-54`). Whenever the loop turns the machine off or runs a report for key `k`, the last
poll of `k` is one of the report loop, and `k` was pressed between that poll and the one before it. The press
came after `mac_state` became 2, unless the report loop had not polled `k` before. Each call of `key_poll` is one
step, and a press counts while the driver of the key is open. -/
theorem action_caused_by_press (c : Clock) (x : Keyed) (h : Reachable (keyStep c) KeyInit x)
    (pre : List KeyEvent) (k : Key) (post : List KeyEvent) (heq : x.hist = pre ++ .ev (.serve k) :: post) : Caused k pre :=
  (reachable_keyInv h).good pre (.ev (.serve k)) post heq

/-! ### A press that was made before the coin phase began -/

/-- Keys 3 and 1 are pressed while `main` waits for key 1; key 2 ends the coin phase; the report loop finds key 3. -/
def earlyPress : List KeyAct :=
  openActions.map .act ++ [.press .key3 0, .press .key 0] ++ startActions.map .act ++ [.press .key2 0] ++
  endActions.map .act ++ leaveActions.map .act ++
  List.replicate 18 (.act (.main .none)) ++ [.act (.main (.polled (.events fun k => k = .key3)))] ++
  List.replicate 4 (.act (.main .none))

def earlyHist : List KeyEvent :=
  [.press .key3, .press .key, .ev (.poll .wait .key true), .ev (.macState 1), .ev (.create .sens1),
    .ev (.create .sens2), .ev (.create .sens3), .press .key2, .ev (.poll (.thread .sens1) .key2 true),
    .ev (.macState 2), .ev (.motor 1), .ev (.join .sens1), .ev (.join .sens2), .ev (.join .sens3), .ev (.motor 0),
    .ev (.poll .report .key false), .ev (.poll .report .key2 false), .ev (.poll .report .key3 true),
    .ev (.poll .report .key4 false)]

theorem earlyPress_run (c : Clock) :
    ∃ x, Reachable (keyStep c) KeyInit x ∧ x.hist = earlyHist ++ .ev (.serve .key3) :: [] := by
  have hrun : ∃ x, run (keyStep c) ⟨State.boot, fun _ => ⟨0, 0⟩, []⟩ earlyPress = some x ∧
      x.hist = earlyHist ++ .ev (.serve .key3) :: [] := ⟨_, rfl, rfl⟩
  obtain ⟨x, hx, hhist⟩ := hrun
  exact ⟨x, ⟨_, _, ⟨boot_init, fun _ => rfl, rfl⟩, hx⟩, hhist⟩

/-- The press is served though it came before `mac_state` became 2. -/
theorem early_press_served : ¬ ∀ c x, Reachable (keyStep c) KeyInit x →
    ∀ pre k post, x.hist = pre ++ .ev (.serve k) :: post → ∃ a b, pre = a ++ .press k :: b ∧ .ev (.macState 2) ∈ a := by
  intro hclaim
  obtain ⟨x, hx, hhist⟩ := earlyPress_run .ticks
  obtain ⟨a, b, hsplit, hstop⟩ := hclaim _ x hx earlyHist .key3 [] hhist
  cases a with
  | nil => cases hstop
  | cons e a =>
    -- key 3 was pressed once, before key 1
    have honce : KeyEvent.press .key3 ∉ earlyHist.tail := by decide
    rw [hsplit] at honce
    exact honce (List.mem_append_right _ List.mem_cons_self)

/-- It was still caused by that press. -/
theorem action_caused_by_press_early : ∃ c x, Reachable (keyStep c) KeyInit x ∧
    x.hist = earlyHist ++ .ev (.serve .key3) :: [] ∧ Caused .key3 earlyHist := by
  obtain ⟨x, hx, hhist⟩ := earlyPress_run .ticks
  exact ⟨_, x, hx, hhist, action_caused_by_press _ x hx earlyHist .key3 [] hhist⟩

end CoinMachine
