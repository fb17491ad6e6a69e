import CoinMachine.Drivers
import CoinMachine.Lib.EventLog
/-!
# The event flag of the key drivers (`receive/key_driver.c:24-54` and its copies)

The handler counts interrupts in `event_flag`; `key_poll` reports an event when the count is positive and
then sets it to zero. Test and clear are two statements, and the handler may run between them: the model
has any number of calls of `key_poll` in progress, each of them three steps, and the handler as one step
at any time. `hist` records what happened, so that the fate of each handler run can be stated.

| here | there |
| --- | --- |
| `indInterruptHandler` | `ind_interrupt_handler` (`:28-41`) |
| `KeyDev.mask`         | `if (event_flag > 0) mask \|= (POLLIN \| POLLRDNORM)` (`:48`) |
| `KeyDev.clear`        | `event_flag = 0` (`:51`) |
-/

namespace CoinMachine

open Transition EventLog

def POLLIN : Nat := 0x0001

def POLLRDNORM : Nat := 0x0040

/-- The statics of a key driver that the handler and `key_poll` share. -/
structure KeyDev where
  tmp_buf : Byte
  event_flag : Int
deriving DecidableEq

/-- `lev` is what the handler reads from `GPLEV0`. -/
def indInterruptHandler (n : Key) (lev : Word) (d : KeyDev) : KeyDev :=
  let tmp_key := if lev &&& (1 <<< (keyPins n).level) = 0 then 0 else 1
  let d := if tmp_key = 0 then { d with tmp_buf := d.tmp_buf + 1 } else d
  { d with event_flag := wrap (d.event_flag + 1) }

def KeyDev.mask (d : KeyDev) : Nat := if 0 < d.event_flag then POLLIN ||| POLLRDNORM else 0

def KeyDev.clear (d : KeyDev) : KeyDev := { d with event_flag := 0 }

theorem indInterruptHandler_flag (n : Key) (lev : Word) (d : KeyDev) :
    (indInterruptHandler n lev d).event_flag = wrap (d.event_flag + 1) := by
  simp only [indInterruptHandler]
  split <;> rfl

/-! ## Calls in progress -/

/-- A call of `key_poll`: not begun, between the test and the clear, before the return, returned. -/
inductive CallPc where
  | idle
  | tested (mask : Nat)
  | cleared (mask : Nat)
  | returned
deriving DecidableEq

inductive PollEvent where
  /-- a run of the handler -/
  | handler
  /-- call `i` has tested the flag -/
  | test (i : Nat) (mask : Nat)
  /-- call `i` has cleared the flag, whose value was `old` -/
  | clear (i : Nat) (old : Int)
  | ret (i : Nat) (mask : Nat)
deriving DecidableEq

structure PollState where
  dev : KeyDev
  calls : Nat → CallPc
  hist : List PollEvent

inductive PollAct where
  | handler (lev : Word)
  | test (i : Nat)
  | clear (i : Nat)
  | ret (i : Nat)

/-- Fewer than `2^31` handler runs between two polls: the handler is never asked to count beyond an `int`. -/
def pollStep (n : Key) (s : PollState) : PollAct → Option PollState
  | .handler lev =>
    if s.dev.event_flag < 2147483647 then
      some { s with dev := indInterruptHandler n lev s.dev, hist := s.hist ++ [.handler] }
    else none
  | .test i =>
    match s.calls i with
    | .idle => some { s with calls := Function.update s.calls i (.tested s.dev.mask), hist := s.hist ++ [.test i s.dev.mask] }
    | _ => none
  | .clear i =>
    match s.calls i with
    | .tested mask => some { dev := s.dev.clear, calls := Function.update s.calls i (.cleared mask)
                             hist := s.hist ++ [.clear i s.dev.event_flag] }
    | _ => none
  | .ret i =>
    match s.calls i with
    | .cleared mask => some { s with calls := Function.update s.calls i .returned, hist := s.hist ++ [.ret i mask] }
    | _ => none

structure PollInit (s : PollState) : Prop where
  flag : s.dev.event_flag = 0
  calls : ∀ i, s.calls i = .idle
  hist : s.hist = []

/-- Every handler run is pending, or covered by a call that tested the flag after it and returns an event;
and a clear that wipes out runs belongs to a call that returns an event. -/
structure Reported (s : PollState) : Prop where
  covered : ∀ pre post, s.hist = pre ++ .handler :: post → 0 < s.dev.event_flag ∨
    ∃ i, .test i (POLLIN ||| POLLRDNORM) ∈ post ∧ ∀ mask, .ret i mask ∈ s.hist → mask = POLLIN ||| POLLRDNORM
  wiped : ∀ i old mask, .clear i old ∈ s.hist → 0 < old → .test i mask ∈ s.hist → mask = POLLIN ||| POLLRDNORM

/-- The poll tests the flag, the key is pressed, the poll clears the flag and returns no event. -/
theorem interrupt_lost : ¬ ∀ (n : Key) (s₀ s : PollState) (as : List PollAct), PollInit s₀ →
    run (pollStep n) s₀ as = some s → Reported s := by
  intro hclaim
  have hrun : ∃ s, run (pollStep .key) ⟨⟨0, 0⟩, fun _ => .idle, []⟩ [.test 0, .handler 0, .clear 0, .ret 0] = some s ∧
      s.dev.event_flag = 0 ∧ s.hist = [.test 0 0, .handler, .clear 0 1, .ret 0 0] := ⟨_, rfl, rfl, rfl⟩
  obtain ⟨s, hs, hflag, hhist⟩ := hrun
  have h := (hclaim .key _ s _ ⟨rfl, fun _ => rfl, rfl⟩ hs).covered [.test 0 0] [.clear 0 1, .ret 0 0] hhist
  rw [hflag] at h
  simp at h

/-! ## When a clear erases nothing -/

/-- Some call has tested the flag since the last run of the handler. -/
def TestedLast (hist : List PollEvent) : Prop := Since (fun e => ∃ i mask, e = .test i mask) (· = .handler) hist

/-- What a call has to find when it is about to clear a positive flag: it had itself found the flag positive, and the
handler has not run since the last test, by whichever call. -/
def MayClear (s : PollState) (i : Nat) : Prop :=
  0 < s.dev.event_flag → s.calls i = .tested (POLLIN ||| POLLRDNORM) ∧ TestedLast s.hist

/-- Every handler run so far has been seen by a later test. -/
def Seen (hist : List PollEvent) : Prop :=
  ∀ pre post, hist = pre ++ .handler :: post → ∃ i, .test i (POLLIN ||| POLLRDNORM) ∈ post

theorem Seen.snoc {hist : List PollEvent} (h : Seen hist) {e : PollEvent} (he : e ≠ .handler) : Seen (hist ++ [e]) := by
  intro pre post heq
  rcases split_snoc heq with ⟨-, hx, -⟩ | ⟨post', rfl, hlog⟩
  · exact absurd hx.symm he
  · obtain ⟨i, hi⟩ := h pre post' hlog
    exact ⟨i, List.mem_append_left _ hi⟩

/-- A test that finds the flag positive sees every run before it. -/
theorem Seen.of_test {hist : List PollEvent} (i : Nat) : Seen (hist ++ [.test i (POLLIN ||| POLLRDNORM)]) := by
  intro pre post heq
  rcases split_snoc heq with ⟨-, hx, -⟩ | ⟨post', rfl, -⟩
  · cases hx
  · exact ⟨i, List.mem_append_right _ (List.mem_singleton.2 rfl)⟩

/-- The call that an event belongs to. -/
def PollEvent.call : PollEvent → Option Nat
  | .handler => none
  | .test i _ => some i
  | .clear i _ => some i
  | .ret i _ => some i

/-- What call `i` has done. -/
def own (i : Nat) (hist : List PollEvent) : List PollEvent := hist.filter fun e => e.call = some i

theorem own_snoc_self {i : Nat} {e : PollEvent} (h : e.call = some i) (hist : List PollEvent) :
    own i (hist ++ [e]) = own i hist ++ [e] := by
  simp [own, h]

theorem own_snoc_other {i : Nat} {e : PollEvent} (h : e.call ≠ some i) (hist : List PollEvent) :
    own i (hist ++ [e]) = own i hist := by
  simp [own, h]

theorem mem_own {i : Nat} {e : PollEvent} {hist : List PollEvent} (h : e.call = some i) :
    e ∈ hist ↔ e ∈ own i hist := by
  simp [own, h]

/-- A call has done its statements up to where it is, and a clear that wiped out runs followed a test that had
found the flag positive. -/
def CallOk (s : PollState) (i : Nat) : Prop :=
  match s.calls i with
  | .idle => own i s.hist = []
  | .tested mask => own i s.hist = [.test i mask]
  | .cleared mask => ∃ old, own i s.hist = [.test i mask, .clear i old] ∧ (0 < old → mask = POLLIN ||| POLLRDNORM)
  | .returned => ∃ mask old, own i s.hist = [.test i mask, .clear i old, .ret i mask] ∧
      (0 < old → mask = POLLIN ||| POLLRDNORM)

/-- A call returns what it found. -/
theorem CallOk.ret_eq {s : PollState} {i mask mask' : Nat} (h : CallOk s i) (ht : .test i mask ∈ s.hist)
    (hr : .ret i mask' ∈ s.hist) : mask' = mask := by
  rw [mem_own rfl] at ht hr
  unfold CallOk at h
  split at h
  · simp [h] at ht
  · simp [h] at hr
  · obtain ⟨old, h, -⟩ := h
    simp [h] at hr
  · obtain ⟨m, old, h, -⟩ := h
    simp [h] at ht hr
    rw [ht, hr]

theorem CallOk.wiped {s : PollState} {i mask : Nat} {old : Int} (h : CallOk s i) (hc : .clear i old ∈ s.hist)
    (hpos : 0 < old) (ht : .test i mask ∈ s.hist) : mask = POLLIN ||| POLLRDNORM := by
  rw [mem_own rfl] at ht hc
  unfold CallOk at h
  split at h
  · simp [h] at ht
  · simp [h] at hc
  · obtain ⟨old', h, hev⟩ := h
    simp [h] at ht hc
    rw [ht]
    exact hev (hc ▸ hpos)
  · obtain ⟨m, old', h, hev⟩ := h
    simp [h] at ht hc
    rw [ht]
    exact hev (hc ▸ hpos)

/-- The last test has seen what there was to see. -/
theorem Seen.testedLast {hist : List PollEvent} (h : Seen hist) {i mask : Nat} (ht : .test i mask ∈ hist) :
    TestedLast hist := by
  induction hist using List.reverseRecOn with
  | nil => cases ht
  | append_singleton hist e ih =>
    rw [TestedLast, since_snoc]
    by_cases he : ∃ i mask, e = .test i mask
    · exact Or.inl he
    right
    have hne : e ≠ .handler := by
      rintro rfl
      obtain ⟨j, hj⟩ := h hist [] rfl
      cases hj
    refine ⟨hne, ih ?_ ?_⟩
    · intro pre post heq
      obtain ⟨j, hj⟩ := h pre (post ++ [e]) (by rw [heq]; simp)
      rcases List.mem_append.1 hj with hj | hj
      · exact ⟨j, hj⟩
      · exact absurd ⟨j, _, (List.mem_singleton.1 hj).symm⟩ he
    · exact (List.mem_append.1 ht).resolve_right fun hm => he ⟨i, mask, (List.mem_singleton.1 hm).symm⟩

/-- The invariant of runs whose clears erase nothing. -/
structure PollInv (s : PollState) : Prop where
  nonneg : 0 ≤ s.dev.event_flag
  pending : s.dev.event_flag = 0 → Seen s.hist
  tested : TestedLast s.hist → Seen s.hist
  calls : ∀ i, CallOk s i

theorem PollInv.init {s : PollState} (h : PollInit s) : PollInv s := by
  obtain ⟨hflag, hcalls, hhist⟩ := h
  have hseen : Seen s.hist := by
    intro pre post heq
    rw [hhist] at heq
    cases pre <;> cases heq
  refine ⟨Int.le_of_eq hflag.symm, fun _ => hseen, fun _ => hseen, fun i => ?_⟩
  rw [CallOk, hcalls, hhist]
  rfl

/-- The step of one call: it has one event more, the others have not moved. -/
theorem calls_step {s s' : PollState} {i : Nat} {pc : CallPc} {e : PollEvent} (h : ∀ j, CallOk s j)
    (hcalls : s'.calls = Function.update s.calls i pc) (hhist : s'.hist = s.hist ++ [e]) (he : e.call = some i)
    (hi : CallOk s' i) : ∀ j, CallOk s' j := by
  intro j
  by_cases hj : j = i
  · rwa [hj]
  · have hne : e.call ≠ some j := by
      rw [he]
      exact fun heq => hj (Option.some.inj heq).symm
    rw [CallOk, hcalls, hhist, Function.update_of_ne hj, own_snoc_other hne]
    exact h j

theorem PollInv.handler {s : PollState} (hs : PollInv s) (n : Key) (lev : Word) (hflag : s.dev.event_flag < 2147483647) :
    PollInv { s with dev := indInterruptHandler n lev s.dev, hist := s.hist ++ [.handler] } := by
  have hnonneg := hs.nonneg
  have hnew : (indInterruptHandler n lev s.dev).event_flag = s.dev.event_flag + 1 := by
    rw [indInterruptHandler_flag, wrap_id (by omega) (by omega)]
  constructor
  · rw [hnew]
    omega
  · intro h0
    rw [hnew] at h0
    omega
  · intro hlast
    rcases since_snoc.1 hlast with ⟨i, mask, he⟩ | ⟨hne, -⟩
    · cases he
    · exact absurd rfl hne
  · intro i
    rw [CallOk, own_snoc_other (by simp [PollEvent.call])]
    exact hs.calls i

theorem PollInv.test {s : PollState} (hs : PollInv s) {i : Nat} (hidle : s.calls i = .idle) :
    PollInv { s with calls := Function.update s.calls i (.tested s.dev.mask), hist := s.hist ++ [.test i s.dev.mask] } := by
  have hnonneg := hs.nonneg
  have hown : own i s.hist = [] := by simpa only [CallOk, hidle] using hs.calls i
  -- whatever the test finds, every run so far is seen after it
  have hseen : Seen (s.hist ++ [.test i s.dev.mask]) := by
    by_cases hpos : 0 < s.dev.event_flag
    · rw [KeyDev.mask, if_pos hpos]
      exact Seen.of_test i
    · exact (hs.pending (by omega)).snoc (by simp)
  refine ⟨hs.nonneg, fun _ => hseen, fun _ => hseen, calls_step hs.calls rfl rfl rfl ?_⟩
  simp only [CallOk, Function.update_self]
  rw [own_snoc_self rfl, hown]
  rfl

theorem PollInv.clear {s : PollState} (hs : PollInv s) {i mask : Nat} (ht : s.calls i = .tested mask)
    (hmay : MayClear s i) : PollInv { dev := s.dev.clear, calls := Function.update s.calls i (.cleared mask)
                                      hist := s.hist ++ [.clear i s.dev.event_flag] } := by
  have hnonneg := hs.nonneg
  have hown : own i s.hist = [.test i mask] := by simpa only [CallOk, ht] using hs.calls i
  have hseen : Seen (s.hist ++ [.clear i s.dev.event_flag]) := by
    refine Seen.snoc ?_ (by simp)
    by_cases hpos : 0 < s.dev.event_flag
    · exact hs.tested (hmay hpos).2
    · exact hs.pending (by omega)
  refine ⟨Int.le_refl 0, fun _ => hseen, fun _ => hseen, calls_step hs.calls rfl rfl rfl ?_⟩
  simp only [CallOk, Function.update_self]
  rw [own_snoc_self rfl, hown]
  exact ⟨s.dev.event_flag, rfl, fun hpos => CallPc.tested.inj (ht.symm.trans (hmay hpos).1)⟩

theorem PollInv.ret {s : PollState} (hs : PollInv s) {i mask : Nat} (hc : s.calls i = .cleared mask) :
    PollInv { s with calls := Function.update s.calls i .returned, hist := s.hist ++ [.ret i mask] } := by
  obtain ⟨old, hown, hev⟩ : ∃ old, own i s.hist = [.test i mask, .clear i old] ∧
      (0 < old → mask = POLLIN ||| POLLRDNORM) := by simpa only [CallOk, hc] using hs.calls i
  refine ⟨hs.nonneg, fun h0 => (hs.pending h0).snoc (by simp), fun hlast => ?_, calls_step hs.calls rfl rfl rfl ?_⟩
  · rcases since_snoc.1 hlast with ⟨j, m, he⟩ | ⟨-, hlast⟩
    · cases he
    · exact (hs.tested hlast).snoc (by simp)
  · simp only [CallOk, Function.update_self]
    rw [own_snoc_self rfl, hown]
    exact ⟨mask, old, rfl, hev⟩

/-- The step lemma. -/
theorem PollInv.step {n : Key} {s s' : PollState} {a : PollAct} (hs : PollInv s)
    (hmay : ∀ i, a = .clear i → MayClear s i) (h : pollStep n s a = some s') : PollInv s' := by
  cases a with
  | handler lev =>
    simp only [pollStep] at h
    split at h
    · rename_i hflag
      cases h
      exact hs.handler n lev hflag
    · cases h
  | test i =>
    simp only [pollStep] at h
    split at h
    · rename_i hidle
      cases h
      exact hs.test hidle
    · cases h
  | clear i =>
    simp only [pollStep] at h
    split at h
    · rename_i mask ht
      cases h
      exact hs.clear ht (hmay i rfl)
    · cases h
  | ret i =>
    simp only [pollStep] at h
    split at h
    · rename_i mask hc
      cases h
      exact hs.ret hc
    · cases h

theorem PollInv.reported {s : PollState} (hs : PollInv s) : Reported s := by
  constructor
  · intro pre post heq
    have hnonneg := hs.nonneg
    by_cases hpos : 0 < s.dev.event_flag
    · exact Or.inl hpos
    · right
      obtain ⟨i, hi⟩ := hs.pending (by omega) pre post heq
      refine ⟨i, hi, fun mask hret => ?_⟩
      have hmem : PollEvent.test i (POLLIN ||| POLLRDNORM) ∈ s.hist := by
        rw [heq]
        exact List.mem_append_right _ (List.mem_cons_of_mem _ hi)
      exact (hs.calls i).ret_eq hmem hret
  · intro i old mask hc hpos ht
    exact (hs.calls i).wiped hc hpos ht

/-- A call between its test and its clear has made the test. -/
theorem CallOk.own_test {s : PollState} {i mask : Nat} (h : CallOk s i) (ht : s.calls i = .tested mask) :
    .test i mask ∈ s.hist := by
  rw [CallOk, ht] at h
  rw [mem_own rfl, h]
  exact List.mem_cons_self

/-- A clear that leaves everything reported was allowed. -/
theorem Reported.mayClear {n : Key} {s s' : PollState} {i : Nat} (hs : PollInv s) (h : pollStep n s (.clear i) = some s')
    (hr : Reported s') : MayClear s i := by
  intro hpos
  simp only [pollStep] at h
  split at h
  · rename_i mask ht
    cases h
    have htest : .test i mask ∈ s.hist := (hs.calls i).own_test ht
    have hmask : mask = POLLIN ||| POLLRDNORM :=
      hr.wiped i s.dev.event_flag mask (List.mem_append_right _ List.mem_cons_self) hpos (List.mem_append_left _ htest)
    refine ⟨by rw [ht, hmask], Seen.testedLast ?_ htest⟩
    -- the flag is zero now, so every run is covered
    intro pre post heq
    rcases hr.covered pre (post ++ [.clear i s.dev.event_flag]) (by simp [heq]) with hflag | ⟨j, hj, -⟩
    · exact absurd hflag (Int.lt_irrefl 0)
    · exact ⟨j, (List.mem_append.1 hj).resolve_right (by simp)⟩
  · cases h

/-- **No key interrupt is erased unreported** (`:48`, `:51`), in every state of a run, exactly if each `key_poll` call
that clears a positive flag in it had found the flag positive, with no handler run since the last test of any call.
Any number of calls may be in progress. -/
theorem interrupts_reported (n : Key) (s₀ s : PollState) (as : List PollAct) (h₀ : PollInit s₀)
    (h : run (pollStep n) s₀ as = some s) :
    (∀ pre post t, as = pre ++ post → run (pollStep n) s₀ pre = some t → Reported t) ↔
      ∀ pre i post t, as = pre ++ .clear i :: post → run (pollStep n) s₀ pre = some t → MayClear t i := by
  have hstep : ∀ s a s', PollInv s → (∀ i, a = .clear i → MayClear s i) → pollStep n s a = some s' → PollInv s' :=
    fun _ _ _ hs hmay hstep => hs.step hmay hstep
  constructor
  · intro hrep pre i post t heq ht
    refine run_needs hstep ?_ (.init h₀) h hrep pre (.clear i) post t heq ht i rfl
    rintro t _ t' ht hclear hr i rfl
    exact hr.mayClear ht hclear
  · intro hmay pre post t heq ht
    refine (run_along hstep (.init h₀) ?_ post t heq ht).reported
    rintro pre' _ post' u heq' hu i rfl
    exact hmay pre' i post' u heq' hu

/-- A press, then a poll that reports it. -/
theorem interrupts_reported_press : ∃ s,
    run (pollStep .key) ⟨⟨0, 0⟩, fun _ => .idle, []⟩ [.handler 0, .test 0, .clear 0, .ret 0] = some s ∧ Reported s := by
  obtain ⟨s, hs⟩ : ∃ s, run (pollStep .key) ⟨⟨0, 0⟩, fun _ => .idle, []⟩
    [.handler 0, .test 0, .clear 0, .ret 0] = some s := ⟨_, rfl⟩
  refine ⟨s, hs, (interrupts_reported .key _ s _ ⟨rfl, fun _ => rfl, rfl⟩ hs).2 ?_ _ [] s (List.append_nil _).symm hs⟩
  intro pre i post t heq ht
  rcases pre with - | ⟨x, - | ⟨y, - | ⟨z, - | ⟨v, pre⟩⟩⟩⟩ <;> simp at heq
  -- the clear comes after the handler and the test
  obtain ⟨rfl, rfl, rfl, -⟩ := heq
  cases ht
  exact fun _ => ⟨rfl, [.handler], .test 0 _, [], rfl, ⟨0, _, rfl⟩, fun _ hm => nomatch hm⟩

end CoinMachine
