import CoinMachine.Sensor
import CoinMachine.Lib.EventLog
/-!
# Which reading a coin is counted on

A sensor thread does not look at what `read` returns (`test_mac.c:589`): after a failed read it tests the
sample of an earlier iteration, or in the first one whatever its stack held. `Sampled` is the thread with
the outcome of the sampling read of its current iteration beside it, which the source does not keep.
-/

namespace CoinMachine

open Transition

structure Sampled where
  g : Globals
  t : Thread
  /-- what the sampling read of this iteration has done, once it has been made -/
  own : Option (Option Byte)

/-- An iteration begins at the loop test. -/
def ownAfter (pc : ThreadPc) (inp : Input) (own : Option (Option Byte)) : Option (Option Byte) :=
  match pc, inp with
  | .loopTest, _ => none
  | .readSample, .read b => some b
  | _, _ => own

/-- A step of the thread, or of the others. -/
def sampleStep (n : Sens) (s : Sampled) (a : SoloAct) : Option Sampled :=
  (soloStep n (s.g, s.t) a).map fun r =>
    { g := r.1, t := r.2
      own := match a with
        | .self inp => ownAfter s.t.pc inp s.own
        | .env _ => s.own }

/-- The thread has just been created; `sens_value` and `key_ev` hold anything. -/
def Sampled.start (g : Globals) (sens_value : Byte) (key_ev : PollFd) : Sampled := ⟨g, .start sens_value key_ev, none⟩

/-- The step increments the counter of the thread. -/
def Increments (n : Sens) (s : Sampled) (a : SoloAct) : Prop :=
  ∃ inp g t evs, a = .self inp ∧ s.t.step n s.g inp = some (g, t, evs) ∧ .count n ∈ evs

/-- The sampling read of this iteration has succeeded with 1. -/
def Sampled.hit (s : Sampled) : Prop := s.own = some (some 1)

/-- The open fails, the sampling read fails, and the thread is about to count. -/
def untilCount : List SoloAct :=
  [.self (.opened (-1)), .self .none, .self .none, .self .none, .self (.read none), .self (.polled .error), .self .none,
    .self .none]

/-- The device never opens, the stack holds a 1, and a coin is counted. -/
theorem counted_unread : ¬ ∀ (n : Sens) (g : Globals) (sens_value : Byte) (key_ev : PollFd) (s : Sampled) (as : List SoloAct),
    run (sampleStep n) (.start g sens_value key_ev) as = some s →
    ∀ pre a post t, as = pre ++ a :: post → run (sampleStep n) (.start g sens_value key_ev) pre = some t →
      Increments n t a → t.hit := by
  intro hclaim
  have hpre : ∃ t, run (sampleStep .sens1) (.start ⟨1, ⟨0, 0, 0⟩⟩ 1 ⟨.key2, false, false⟩) untilCount = some t ∧
      t.own = some none ∧ ∃ s, sampleStep .sens1 t (.self .none) = some s ∧ Increments .sens1 t (.self .none) :=
    ⟨_, rfl, rfl, _, rfl, _, _, _, _, rfl, rfl, List.mem_cons_self⟩
  obtain ⟨t, ht, hown, s, hs, hinc⟩ := hpre
  have hhit := hclaim .sens1 _ 1 _ s (untilCount ++ [.self .none]) (run_snoc.2 ⟨t, ht, hs⟩) untilCount (.self .none) [] t
    rfl ht hinc
  rw [Sampled.hit, hown] at hhit
  cases hhit

/-! ## When every count has its own sample -/

theorem sampleStep_self {n : Sens} {s s' : Sampled} {inp : Input} (h : sampleStep n s (.self inp) = some s') :
    ∃ evs, s.t.step n s.g inp = some (s'.g, s'.t, evs) ∧ s'.own = ownAfter s.t.pc inp s.own := by
  simp only [sampleStep, soloStep, Option.map_map, Option.map_eq_some_iff] at h
  obtain ⟨⟨g, t, evs⟩, hstep, rfl⟩ := h
  exact ⟨evs, hstep, rfl⟩

theorem sampleStep_env {n : Sens} {s s' : Sampled} {g : Globals} (h : sampleStep n s (.env g) = some s') :
    s'.t = s.t ∧ s'.own = s.own := by
  simp only [sampleStep, soloStep, Option.map_eq_some_iff] at h
  obtain ⟨r, hr, rfl⟩ := h
  split at hr
  · cases hr
    exact ⟨rfl, rfl⟩
  · cases hr

/-- Between the sampling read and the count, a 1 in the sample variable is from that read. -/
def OwnSample (s : Sampled) : Prop :=
  match s.t.pc with
  | .poll | .testHit => s.t.sens_value = 1 → s.hit
  | .setFir | .count => s.hit
  | _ => True

/-- Where `OwnSample` says something. -/
def ThreadPc.afterSample : ThreadPc → Bool
  | .poll | .testHit | .setFir | .count => true
  | _ => false

theorem OwnSample.elsewhere {s : Sampled} (h : s.t.pc.afterSample = false) : OwnSample s := by
  unfold OwnSample
  split
  all_goals first
    | trivial
    | (rw [‹s.t.pc = _›] at h; cases h)

/-- A sampling read that fails leaves a 1 of an earlier iteration behind. -/
def Stale (s : Sampled) (a : SoloAct) : Prop := a = .self (.read none) ∧ s.t.pc = .readSample ∧ s.t.sens_value = 1

/-- The step lemma. -/
theorem OwnSample.step {n : Sens} {s s' : Sampled} {a : SoloAct} (hs : OwnSample s) (hfresh : ¬ Stale s a)
    (h : sampleStep n s a = some s') : OwnSample s' := by
  cases a with
  | env g =>
    obtain ⟨ht, hown⟩ := sampleStep_env h
    rwa [OwnSample, Sampled.hit, ht, hown]
  | self inp =>
    obtain ⟨evs, hstep, hown⟩ := sampleStep_self h
    obtain ⟨g, ⟨pc, sens_fd, sens_value, fir, sed, j, key_ev⟩, own⟩ := s
    obtain ⟨g', t', own'⟩ := s'
    dsimp only at hstep hown
    cases pc with
    | readSample =>
      cases inp with
      | read b =>
        simp only [Thread.step] at hstep
        split at hstep
        · cases hstep
          intro hone
          cases b with
          | none => exact absurd ⟨rfl, rfl, hone⟩ hfresh
          | some b =>
            have hb : b = 1 := hone
            rw [Sampled.hit, hown, ownAfter, hb]
        · cases hstep
      | _ => cases hstep
    | poll =>
      cases inp with
      | polled p =>
        cases hstep
        exact fun hone => hown.trans (hs hone)
      | _ => cases hstep
    | testHit =>
      cases inp with
      | none =>
        cases hstep
        by_cases hc : sens_value = 1 ∧ fir = 0
        · simp only [OwnSample, if_pos hc]
          exact hown.trans (hs hc.1)
        · simp only [OwnSample, if_neg hc]
      | _ => cases hstep
    | setFir =>
      cases inp with
      | none =>
        cases hstep
        exact hown.trans hs
      | _ => cases hstep
    | _ =>
      -- the other statements lead to none of the four points
      refine .elsewhere ?_
      cases inp <;> first
        | (cases hstep; done)
        | (cases hstep; rfl)
        | (cases hstep; dsimp only; split <;> rfl)
        | (simp only [Thread.step] at hstep; split at hstep <;> cases hstep; rfl)

theorem OwnSample.start (g : Globals) (sens_value : Byte) (key_ev : PollFd) : OwnSample (.start g sens_value key_ev) :=
  trivial

/-- A counter is incremented at one statement. -/
theorem pc_of_increments {n : Sens} {s : Sampled} {a : SoloAct} (h : Increments n s a) : s.t.pc = .count := by
  obtain ⟨inp, g, t, evs, -, hstep, hmem⟩ := h
  obtain ⟨g₀, ⟨pc, sens_fd, sens_value, fir, sed, j, key_ev⟩, own⟩ := s
  cases pc with
  | count => rfl
  | poll =>
    cases inp with
    | polled p =>
      cases hstep
      cases p <;> simp [pollEvents] at hmem
    | _ => cases hstep
  | _ =>
    cases inp <;> first
      | (cases hstep; done)
      | (cases hstep; simp at hmem)
      | (simp only [Thread.step] at hstep; split at hstep <;> cases hstep; cases hmem)

theorem firOk_run {n : Sens} {g : Globals} {sens_value : Byte} {key_ev : PollFd} {as : List SoloAct} {s : Sampled}
    (h : run (sampleStep n) (.start g sens_value key_ev) as = some s) : FirOk s.t := by
  refine run_invariant (P := fun s => FirOk s.t) ?_ (Or.inl rfl) h
  intro s a s' hs hstep
  simp only [sampleStep, Option.map_eq_some_iff] at hstep
  obtain ⟨r, hr, rfl⟩ := hstep
  exact FirOk.solo (s := (s.g, s.t)) hs hr

/-- After a failed sampling read, a 1 of an earlier iteration is counted. -/
theorem count_of_stale {n : Sens} {s : Sampled} (hfir : FirOk s.t) (hpc : s.t.pc = .readSample) (hone : s.t.sens_value = 1)
    (p : Polled) : ∃ t, run (sampleStep n) s
      [.self (.read none), .self (.polled p), .self .none, .self .none] = some t ∧ Increments n t (.self .none) ∧ ¬ t.hit := by
  obtain ⟨g, ⟨pc, sens_fd, sens_value, fir, sed, j, key_ev⟩, own⟩ := s
  cases hpc
  obtain rfl : sens_value = 1 := hone
  obtain rfl : fir = 0 := hfir.resolve_right fun hc => Bool.noConfusion hc.2
  refine ⟨⟨g, ⟨.count, sens_fd, 1, 1, sed, j, key_ev.poll p⟩, some none⟩, ?_, ?_, ?_⟩
  · simp [run, sampleStep, soloStep, Thread.step, readable, ownAfter]
  · exact ⟨.none, _, _, _, rfl, rfl, List.mem_cons_self⟩
  · intro hhit
    cases hhit

/-- The first iteration up to its count, on a coin. -/
def untilHit : List SoloAct :=
  [.self (.opened 3), .self .none, .self .none, .self .none, .self (.read (some 1)), .self (.polled .error), .self .none,
    .self .none]

/-- **When a coin is counted on its own reading.** In every run of a sensor thread, with the device open or not,
any samples and failures of its reads, and any first content of the sample variable: if no sampling read
fails while the variable holds 1, each increment comes in an iteration whose own sampling read succeeded
with 1. The condition is needed: where it fails, the thread goes on to count. -/
theorem counted_on_own_sample (n : Sens) (g : Globals) (sens_value : Byte) (key_ev : PollFd) (s : Sampled)
    (as : List SoloAct) (h : run (sampleStep n) (.start g sens_value key_ev) as = some s) :
    ((∀ pre a post t, as = pre ++ a :: post → run (sampleStep n) (.start g sens_value key_ev) pre = some t → ¬ Stale t a) →
      ∀ pre a post t, as = pre ++ a :: post → run (sampleStep n) (.start g sens_value key_ev) pre = some t →
        Increments n t a → t.hit) ∧
    (Stale s (.self (.read none)) → ∀ p, ∃ t, run (sampleStep n) s
      [.self (.read none), .self (.polled p), .self .none, .self .none] = some t ∧
      Increments n t (.self .none) ∧ ¬ t.hit) := by
  constructor
  · intro hfresh pre a post t heq ht hinc
    have hown : OwnSample t := run_along (C := fun s a => ¬ Stale s a) (fun _ _ _ hs hC hstep => hs.step hC hstep)
      (OwnSample.start g sens_value key_ev) hfresh (a :: post) t heq ht
    rw [OwnSample, pc_of_increments hinc] at hown
    exact hown
  · rintro ⟨-, hpc, hone⟩ p
    exact count_of_stale (firOk_run h) hpc hone p

/-- The device opens, the first read finds a coin, and the coin is counted. -/
theorem counted_on_own_sample_one : ∃ t, run (sampleStep .sens1) (.start ⟨1, ⟨0, 0, 0⟩⟩ 7 ⟨.key2, false, false⟩) untilHit =
      some t ∧ Increments .sens1 t (.self .none) ∧ t.hit := by
  obtain ⟨t, s, ht, hs, hinc⟩ : ∃ t s, run (sampleStep .sens1) (.start ⟨1, ⟨0, 0, 0⟩⟩ 7 ⟨.key2, false, false⟩) untilHit =
      some t ∧ sampleStep .sens1 t (.self .none) = some s ∧ Increments .sens1 t (.self .none) :=
    ⟨_, _, rfl, rfl, _, _, _, _, rfl, rfl, List.mem_cons_self⟩
  refine ⟨t, ht, hinc, (counted_on_own_sample .sens1 ⟨1, ⟨0, 0, 0⟩⟩ 7 ⟨.key2, false, false⟩ s _
    (run_snoc.2 ⟨t, ht, hs⟩)).1 ?_ _ _ [] t rfl ht hinc⟩
  rintro pre a post u heq - ⟨rfl, -, -⟩
  -- no read of this run fails
  have hmem : SoloAct.self (.read none) ∈ untilHit ++ [.self .none] := by
    rw [heq]
    exact List.mem_append_right _ List.mem_cons_self
  simp [untilHit] at hmem

end CoinMachine
