import CoinMachine.Process
import CoinMachine.Lib.Separated
import CoinMachine.Lib.Transition
/-!
# The sensor threads (`receive/test_mac.c:573-680`)

The three threads are one function up to their device and their counter. A sample of 1 is counted and the
next six samples are read and thrown away, so the thread is a scanner with dead time 7. The step lemma
(`CountInv.step`) relates the program counter, `fir` and `j` to the state of the abstract scanner on the
samples read so far; the count at a loop head is then the greatest number of coins that the samples can
hold (`count_exact`).

| here | there (`thread_sens1`) |
| --- | --- |
| `openSens`                    | `sens_fd = open(…)` (`:585`) |
| `loopTest`                    | `while (mac_state == 1)` (`:586`) |
| `setFd`, `setEvents`          | `:587-588` |
| `readSample`, `poll`          | `:589-590` |
| `testHit`, `setFir`, `count`  | `:591-594` |
| `testFir` … `clearFir`        | `:595-600` |
| `testKey`, `setState`         | `:601-605` |
-/

namespace CoinMachine

open Separated Transition

inductive ThreadPc where
  | openSens
  | loopTest
  | setFd
  | setEvents
  | readSample
  | poll
  | testHit
  | setFir
  | count
  | testFir
  | forInit
  | forTest
  | readDiscard
  | forInc
  | clearFir
  | testKey
  | setState
  | done
deriving DecidableEq, Repr

/-- A sensor thread: where it is, and its locals. -/
structure Thread where
  pc : ThreadPc
  sens_fd : Int
  sens_value : Byte
  fir : Byte
  sed : Byte
  j : Nat
  key_ev : PollFd
deriving DecidableEq

/-- A thread that was just created; `sens_value` and `key_ev` are not initialised. -/
def Thread.start (sens_value : Byte) (key_ev : PollFd) : Thread := ⟨.openSens, -1, sens_value, 0, 0, 0, key_ev⟩

/-- A read on a device that failed to open fails. -/
def readable (fd : Int) (b : Option Byte) : Prop := 0 ≤ fd ∨ b = none

instance (fd : Int) (b : Option Byte) : Decidable (readable fd b) := inferInstanceAs (Decidable (_ ∨ _))

/-- One statement of thread `n`: the new globals, the new thread, and what happened. -/
def Thread.step (n : Sens) (g : Globals) (t : Thread) (inp : Input) : Option (Globals × Thread × List Event) :=
  match t.pc, inp with
  | .openSens, .opened fd => some (g, { t with pc := .loopTest, sens_fd := fd }, [])
  | .loopTest, .none => some (g, { t with pc := if g.mac_state = 1 then .setFd else .done }, [])
  | .setFd, .none => some (g, { t with pc := .setEvents, key_ev := { t.key_ev with fd := .key2 } }, [])
  | .setEvents, .none => some (g, { t with pc := .readSample, key_ev := { t.key_ev with events := true } }, [])
  | .readSample, .read b =>
    if readable t.sens_fd b then some (g, { t with pc := .poll, sens_value := b.getD t.sens_value }, []) else none
  | .poll, .polled p =>
    some (g, { t with pc := .testHit, key_ev := t.key_ev.poll p }, pollEvents (.thread n) [t.key_ev] p)
  | .testHit, .none =>
    some (g, { t with pc := if t.sens_value = 1 ∧ t.fir = 0 then .setFir else .testFir }, [])
  | .setFir, .none => some (g, { t with pc := .count, fir := 1 }, [])
  | .count, .none => some ({ g with ea := g.ea.bump n }, { t with pc := .testFir }, [.count n])
  | .testFir, .none => some (g, { t with pc := if t.fir = 1 then .forInit else .testKey }, [])
  | .forInit, .none => some (g, { t with pc := .forTest, j := 0 }, [])
  | .forTest, .none => some (g, { t with pc := if t.j < 6 then .readDiscard else .clearFir }, [])
  | .readDiscard, .read b =>
    if readable t.sens_fd b then some (g, { t with pc := .forInc, sed := b.getD t.sed }, []) else none
  | .forInc, .none => some (g, { t with pc := .forTest, j := t.j + 1 }, [])
  | .clearFir, .none => some (g, { t with pc := .testKey, fir := 0 }, [])
  | .testKey, .none => some (g, { t with pc := if t.key_ev.revents then .setState else .loopTest }, [])
  | .setState, .none => some ({ g with mac_state := 2 }, { t with pc := .loopTest }, [.macState 2])
  | _, _ => none

/-! ## One thread among the others -/

/-- A step of the thread, or anything the rest of the program does to the globals. -/
inductive SoloAct where
  | self (inp : Input)
  | env (g : Globals)

/-- Nobody else writes the counter of the thread. -/
def soloStep (n : Sens) (s : Globals × Thread) : SoloAct → Option (Globals × Thread)
  | .self inp => (s.2.step n s.1 inp).map fun r => (r.1, r.2.1)
  | .env g => if g.ea.get n = s.1.ea.get n then some (g, s.2) else none

/-- The sample that an input carries. -/
def Input.sample : Input → List Byte
  | .read (some b) => [b]
  | _ => []

def SoloAct.sample : SoloAct → List Byte
  | .self inp => inp.sample
  | .env _ => []

/-- The samples of the successful reads of a run, in order. -/
def samples (as : List SoloAct) : List Byte := as.flatMap SoloAct.sample

/-! ## `fir` -/

/-- Between a hit and the end of its dead time. -/
def ThreadPc.counting : ThreadPc → Bool
  | .count | .testFir | .forInit | .forTest | .readDiscard | .forInc | .clearFir => true
  | _ => false

/-- `fir` is back at 0 outside the dead time. -/
def FirOk (t : Thread) : Prop := t.fir = 0 ∨ t.fir = 1 ∧ t.pc.counting = true

theorem FirOk.step {n : Sens} {g g' : Globals} {t t' : Thread} {inp : Input} {evs : List Event} (ht : FirOk t)
    (h : t.step n g inp = some (g', t', evs)) : FirOk t' := by
  unfold Thread.step at h
  split at h
  all_goals first
    | cases h
    | (split at h <;> cases h)
  all_goals rcases ht with h0 | ⟨h1, hc⟩
  -- `fir` was 0: only `setFir` changes that
  any_goals first
    | exact Or.inl h0
    | exact Or.inr ⟨rfl, rfl⟩
  -- `fir` was 1: the dead time goes on, or `clearFir` ends it
  all_goals first
    | (rw [‹t.pc = _›] at hc; cases hc; done)
    | exact Or.inl rfl
    | exact Or.inr ⟨h1, rfl⟩
    | exact Or.inr ⟨h1, by split <;> rfl⟩

/-! ## The count -/

/-- The thread against the abstract scanner `c` of the samples read so far: `e₀` is the counter at the
start, `e` the counter now. A sample that is not tested yet is already picked by the scanner. -/
def CountInv (e₀ e : Nat) (c : Scan) (t : Thread) : Prop :=
  match t.pc with
  | .openSens | .loopTest | .setFd | .setEvents | .readSample | .testKey | .setState | .done =>
    t.fir = 0 ∧ c.skip = 0 ∧ e = e₀ + c.picked.card
  | .poll | .testHit =>
    t.fir = 0 ∧ (t.sens_value = 1 ∧ c.skip = 6 ∧ e + 1 = e₀ + c.picked.card ∨
      t.sens_value ≠ 1 ∧ c.skip = 0 ∧ e = e₀ + c.picked.card)
  | .setFir => c.skip = 6 ∧ e + 1 = e₀ + c.picked.card
  | .count => t.fir = 1 ∧ c.skip = 6 ∧ e + 1 = e₀ + c.picked.card
  | .testFir => (t.fir = 1 ∧ c.skip = 6 ∨ t.fir = 0 ∧ c.skip = 0) ∧ e = e₀ + c.picked.card
  | .forInit => c.skip = 6 ∧ e = e₀ + c.picked.card
  | .forTest => t.j ≤ 6 ∧ c.skip = 6 - t.j ∧ e = e₀ + c.picked.card
  | .readDiscard => t.j < 6 ∧ c.skip = 6 - t.j ∧ e = e₀ + c.picked.card
  | .forInc => t.j < 6 ∧ c.skip = 5 - t.j ∧ e = e₀ + c.picked.card
  | .clearFir => c.skip = 0 ∧ e = e₀ + c.picked.card

/-- A read succeeds. -/
def Input.ok : Input → Prop
  | .read b => b.isSome
  | _ => True

/-- The step lemma. -/
theorem CountInv.step {n : Sens} {e₀ : Nat} {s : List Byte} {g g' : Globals} {t t' : Thread} {inp : Input}
    {evs : List Event} (ht : CountInv e₀ (g.ea.get n) (scan 1 7 s) t)
    (h : t.step n g inp = some (g', t', evs)) (hok : inp.ok) :
    CountInv e₀ (g'.ea.get n) (scan 1 7 (s ++ inp.sample)) t' := by
  unfold Thread.step at h
  split at h
  case h_5 b hpc =>
    -- `readSample`: the scanner is ready, and picks a 1
    split at h <;> cases h
    obtain ⟨b, rfl⟩ := Option.isSome_iff_exists.1 hok
    simp only [CountInv, hpc] at ht
    obtain ⟨hfir, hskip, he⟩ := ht
    rw [Input.sample, scan_snoc]
    simp only [CountInv, Option.getD_some]
    refine ⟨hfir, ?_⟩
    by_cases hb : b = 1
    · left
      subst hb
      rw [Scan.next_mark hskip]
      refine ⟨rfl, rfl, ?_⟩
      rw [(scan_inv 1 (by decide) s).card_insert, he]
      rfl
    · right
      rw [Scan.next_other hskip hb]
      exact ⟨hb, rfl, he⟩
  case h_13 b hpc =>
    -- `readDiscard`: the scanner ignores the sample
    split at h <;> cases h
    obtain ⟨b, rfl⟩ := Option.isSome_iff_exists.1 hok
    simp only [CountInv, hpc] at ht
    obtain ⟨hj, hskip, he⟩ := ht
    rw [Input.sample, scan_snoc, Scan.next_of_skip (k := 5 - t.j) (by omega)]
    exact ⟨hj, rfl, he⟩
  -- the other statements read no sample
  all_goals cases h
  all_goals
    rw [show Input.sample _ = [] from rfl, List.append_nil]
    simp only [CountInv, ‹t.pc = _›] at ht
  case h_2 => split <;> exact ht
  case h_7 =>
    obtain ⟨hfir, ⟨hv, hs, he⟩ | ⟨hv, hs, he⟩⟩ := ht
    · rw [if_pos ⟨hv, hfir⟩]
      exact ⟨hs, he⟩
    · rw [if_neg fun hc => hv hc.1]
      exact ⟨Or.inr ⟨hfir, hs⟩, he⟩
  case h_8 => exact ⟨rfl, ht⟩
  case h_9 =>
    obtain ⟨hfir, hs, he⟩ := ht
    refine ⟨Or.inl ⟨hfir, hs⟩, ?_⟩
    rw [Counters.get_bump, if_pos rfl, he]
  case h_10 =>
    obtain ⟨⟨hf, hs⟩ | ⟨hf, hs⟩, he⟩ := ht
    · rw [if_pos hf]
      exact ⟨hs, he⟩
    · rw [if_neg (by rw [hf]; decide)]
      exact ⟨hf, hs, he⟩
  case h_11 => exact ⟨Nat.zero_le 6, ht⟩
  case h_12 =>
    obtain ⟨hj, hs, he⟩ := ht
    by_cases hlt : t.j < 6
    · rw [if_pos hlt]
      exact ⟨hlt, hs, he⟩
    · rw [if_neg hlt]
      exact ⟨by omega, he⟩
  case h_14 =>
    obtain ⟨hj, hs, he⟩ := ht
    exact ⟨by simp only; omega, by simp only; omega, he⟩
  case h_15 => exact ⟨rfl, ht⟩
  case h_16 => split <;> exact ht
  all_goals exact ht

/-- The run lemma. -/
theorem CountInv.run {n : Sens} {e₀ : Nat} {as : List SoloAct} : ∀ {s : List Byte} {g g' : Globals} {t t' : Thread},
    CountInv e₀ (g.ea.get n) (scan 1 7 s) t → Transition.run (soloStep n) (g, t) as = some (g', t') →
    (∀ inp, SoloAct.self inp ∈ as → inp.ok) → CountInv e₀ (g'.ea.get n) (scan 1 7 (s ++ samples as)) t' := by
  induction as with
  | nil =>
    intro s g g' t t' ht h _
    cases h
    rw [samples, List.flatMap_nil, List.append_nil]
    exact ht
  | cons a as ih =>
    intro s g g' t t' ht h hok
    obtain ⟨⟨g₁, t₁⟩, h1, h2⟩ := run_cons.1 h
    have hrest : ∀ inp, SoloAct.self inp ∈ as → inp.ok := fun inp hm => hok inp (List.mem_cons_of_mem _ hm)
    rw [samples, List.flatMap_cons, ← List.append_assoc]
    cases a with
    | self inp =>
      obtain ⟨⟨g₂, t₂, evs⟩, hst, heq⟩ := Option.map_eq_some_iff.1 h1
      cases heq
      exact ih (ht.step hst (hok inp List.mem_cons_self)) h2 hrest
    | env g₂ =>
      simp only [soloStep] at h1
      split at h1
      · rename_i hsame
        cases h1
        rw [← hsame] at ht
        rw [SoloAct.sample, List.append_nil]
        exact ih ht h2 hrest
      · cases h1

theorem FirOk.solo {n : Sens} {s s' : Globals × Thread} {a : SoloAct} (hs : FirOk s.2)
    (h : soloStep n s a = some s') : FirOk s'.2 := by
  cases a with
  | self inp =>
    obtain ⟨⟨g, t, evs⟩, hst, rfl⟩ := Option.map_eq_some_iff.1 h
    exact hs.step hst
  | env g =>
    simp only [soloStep] at h
    split at h
    · cases h
      exact hs
    · cases h

/-- Between two loop heads a thread counts what the scanner picks. -/
theorem FirOk.count {n : Sens} {g g' : Globals} {t t' : Thread} {as : List SoloAct} (hfir : FirOk t)
    (ht : t.pc = .loopTest) (h : Transition.run (soloStep n) (g, t) as = some (g', t')) (ht' : t'.pc = .loopTest)
    (hok : ∀ b, SoloAct.self (.read b) ∈ as → b ≠ Option.none) :
    g'.ea.get n = g.ea.get n + (scan 1 7 (samples as)).picked.card := by
  have hzero : t.fir = 0 := by
    rcases hfir with h0 | ⟨-, hc⟩
    · exact h0
    · rw [ht] at hc
      cases hc
  have hinv : CountInv (g.ea.get n) (g.ea.get n) (scan (1 : Byte) 7 []) t := by
    simp only [CountInv, ht]
    exact ⟨hzero, rfl, rfl⟩
  have hreads : ∀ inp, SoloAct.self inp ∈ as → inp.ok := by
    intro inp hm
    cases inp with
    | read b => exact Option.isSome_iff_ne_none.2 (hok b hm)
    | _ => trivial
  have hend := hinv.run h hreads
  simp only [CountInv, ht', List.nil_append] at hend
  exact hend.2.2

/-- **Coin counting with the dead time is exact** (`:586-606`, `:622-642`, `:659-679`). Between any two
loop heads of a sensor thread, however its steps interleave with the rest of the program, if the reads
in between succeed then its counter grows by the greatest number of ones pairwise at least seven apart;
in particular by the number of pulses, when the pulses start seven apart and are at most seven long. -/
theorem count_exact (n : Sens) (sens_value : Byte) (key_ev : PollFd) (g₀ g g' : Globals) (t t' : Thread)
    (as₀ as : List SoloAct) (h₀ : Transition.run (soloStep n) (g₀, .start sens_value key_ev) as₀ = some (g, t))
    (ht : t.pc = .loopTest) (h : Transition.run (soloStep n) (g, t) as = some (g', t')) (ht' : t'.pc = .loopTest)
    (hok : ∀ b, SoloAct.self (.read b) ∈ as → b ≠ Option.none) :
    ∃ c, g'.ea.get n = g.ea.get n + c ∧ IsGreatest (sizes 1 7 (samples as)) c ∧
      ∀ starts : Finset ℕ, Marked 1 (samples as) starts → Apart 7 starts → Covers 1 7 (samples as) starts →
        c = starts.card := by
  have hinit : FirOk (.start sens_value key_ev) := Or.inl rfl
  have hfir : FirOk t := run_invariant (P := fun s => FirOk s.2) (fun _ _ _ hs h => hs.solo h) hinit h₀
  have hgreatest := scan_isGreatest (1 : Byte) (by decide : 0 < 7) (samples as)
  refine ⟨_, hfir.count ht h ht' hok, hgreatest, ?_⟩
  intro starts hm ha hc
  exact hgreatest.unique (isGreatest_of_covers hm ha hc)

/-- One iteration of a sensor thread on a coin that lasts one sample. -/
def coinIteration : List SoloAct :=
  [.self .none, .self .none, .self .none, .self (.read (some 1)), .self (.polled (.events fun _ => false)),
    .self .none, .self .none, .self .none, .self .none, .self .none] ++
  (List.replicate 6 [.self .none, .self (.read (some 0)), .self .none]).flatten ++
  [.self .none, .self .none, .self .none]

theorem count_exact_one : ∃ g t g' t',
    Transition.run (soloStep .sens1) (⟨1, ⟨0, 0, 0⟩⟩, .start 7 ⟨.key, false, false⟩) [.self (.opened 3)] = some (g, t) ∧
    Transition.run (soloStep .sens1) (g, t) coinIteration = some (g', t') ∧ g'.ea.get .sens1 = g.ea.get .sens1 + 1 := by
  obtain ⟨g, t, h₀, ht⟩ : ∃ g t, Transition.run (soloStep .sens1) (⟨1, ⟨0, 0, 0⟩⟩, .start 7 ⟨.key, false, false⟩)
      [.self (.opened 3)] = some (g, t) ∧ (g, t) = (⟨1, ⟨0, 0, 0⟩⟩, ⟨.loopTest, 3, 7, 0, 0, 0, ⟨.key, false, false⟩⟩) :=
    ⟨_, _, rfl, rfl⟩
  obtain ⟨g', t', h, ht'⟩ : ∃ g' t', Transition.run (soloStep .sens1)
      (⟨1, ⟨0, 0, 0⟩⟩, ⟨.loopTest, 3, 7, 0, 0, 0, ⟨.key, false, false⟩⟩) coinIteration = some (g', t') ∧
      t'.pc = .loopTest := ⟨_, _, rfl, rfl⟩
  cases ht
  obtain ⟨c, hc, -, hpulses⟩ := count_exact .sens1 7 ⟨.key, false, false⟩ _ _ _ _ _ _ coinIteration h₀ rfl h ht'
    (by simp [coinIteration])
  refine ⟨_, _, g', t', h₀, h, ?_⟩
  rw [hc, hpulses {0} ?_ ?_ ?_]
  · rfl
  · intro i hi
    rw [Finset.mem_singleton.1 hi]
    rfl
  · intro i hi j hj hij
    rw [Finset.mem_singleton.1 hi, Finset.mem_singleton.1 hj] at hij
    omega
  · intro i hi
    have hlt : i < 7 := (List.getElem?_eq_some_iff.1 hi).1
    exact ⟨0, Finset.mem_singleton_self 0, by omega, by omega⟩

end CoinMachine
