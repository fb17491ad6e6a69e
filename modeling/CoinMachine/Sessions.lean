import CoinMachine.KeyOpen
import CoinMachine.Files
/-!
# Sessions of a key driver

A session is a successful open, then interrupts, polls and reads in any order, then the release. The statics
`tmp_buf` and `event_flag` belong to the module and not to the file (`key_driver.c:24-25`): neither
`key_open` nor `key_release` touches them, so a session begins with the flag the last one has left.

| here | there |
| --- | --- |
| `sessionStep`, `.interrupt` | `ind_interrupt_handler` (`:28-41`), as long as it is registered |
| `sessionStep`, `.poll`      | `key_poll` (`:43-54`) |
| `sessionStep`, `.read`      | `key_read` (`:99-112`) |
-/

namespace CoinMachine

open Transition EventLog

inductive SessionEvent where
  | opened
  | handler
  /-- a poll has returned `mask` -/
  | polled (mask : Nat)
  /-- a read has handed out `val` -/
  | read (val : Byte)
  | released
deriving DecidableEq

structure Session where
  kernel : Kernel
  dev : KeyDev
  /-- the file is open -/
  held : Bool
  hist : List SessionEvent

inductive SessionAct where
  | open (a : Avail)
  | interrupt (lev : Word)
  | poll
  | read
  | release

def Session.log (s : Session) (e : SessionEvent) : Session := { s with hist := s.hist ++ [e] }

/-- Each call and each run of the handler is one step; there are fewer than `2^31` interrupts between two
polls. -/
def sessionStep (n : Key) (s : Session) : SessionAct → Option Session
  | .open a =>
    if 0 ≤ (keyOpen n a s.kernel).1 then
      some ({ s with kernel := (keyOpen n a s.kernel).2, held := true }.log .opened)
    else none
  | .interrupt lev =>
    if (keyCode n).Registered s.kernel ∧ s.dev.event_flag < 2147483647 then
      some ({ s with dev := indInterruptHandler n lev s.dev }.log .handler)
    else none
  | .poll => if s.held then some ({ s with dev := s.dev.clear }.log (.polled s.dev.mask)) else none
  | .read => if s.held then some (s.log (.read s.dev.tmp_buf)) else none
  | .release => if s.held then some ({ s with kernel := keyRelease n s.kernel, held := false }.log .released) else none

/-- The module is loaded. -/
structure SessionInit (n : Key) (s : Session) : Prop where
  dev : s.kernel.dev (.key n) = ⟨0, none, none⟩
  unregistered : ¬ (keyCode n).Registered s.kernel
  flag : s.dev.event_flag = 0
  held : s.held = false
  hist : s.hist = []

def Session.loaded : Session := ⟨Files.loaded.kernel, ⟨0, 0⟩, false, []⟩

theorem sessionInit_loaded (n : Key) : SessionInit n .loaded := ⟨rfl, (fun hreg => nomatch hreg), rfl, rfl, rfl⟩

def SessionEvent.IsPoll (e : SessionEvent) : Prop := ∃ mask, e = .polled mask

/-- The key is pressed in one session, and the first poll of the next one reports it. -/
theorem sessions_not_isolated : ¬ ∀ (n : Key) (s₀ s : Session) (as : List SessionAct), SessionInit n s₀ →
    run (sessionStep n) s₀ as = some s → ∀ pre mask post, s.hist = pre ++ .polled mask :: post → mask &&& POLLIN ≠ 0 →
      Since (· = .handler) (fun e => e.IsPoll ∨ e = .opened) pre := by
  intro hclaim
  obtain ⟨s, hs, hhist⟩ : ∃ s, run (sessionStep .key) .loaded
      [.open ⟨true, 0⟩, .interrupt 0, .release, .open ⟨true, 0⟩, .poll] = some s ∧
      s.hist = [.opened, .handler, .released, .opened] ++ .polled 65 :: [] := ⟨_, rfl, rfl⟩
  have hsince := hclaim .key _ s _ (sessionInit_loaded _) hs _ 65 [] hhist (by decide)
  rcases since_snoc.1 (show Since _ _ ([SessionEvent.opened, .handler, .released] ++ [.opened]) from hsince) with h | ⟨h, -⟩
  · cases h
  · exact h (Or.inr rfl)

/-! ## What a poll reports -/

theorem mask_ne_zero {d : KeyDev} : d.mask &&& POLLIN ≠ 0 ↔ 0 < d.event_flag := by
  unfold KeyDev.mask
  split
  · rename_i h
    exact ⟨fun _ => h, fun _ => by decide⟩
  · rename_i h
    exact ⟨fun hne => absurd rfl hne, fun hpos => absurd hpos h⟩

/-- A poll has reported an event exactly if the handler had run since the poll before it. -/
def PollExact (pre : List SessionEvent) (e : SessionEvent) : Prop :=
  ∀ mask, e = .polled mask → (mask &&& POLLIN ≠ 0 ↔ Since (· = .handler) SessionEvent.IsPoll pre)

/-- The flag is positive exactly if the handler has run since the last poll. -/
structure FlagInv (s : Session) : Prop where
  nonneg : 0 ≤ s.dev.event_flag
  pending : 0 < s.dev.event_flag ↔ Since (· = .handler) SessionEvent.IsPoll s.hist
  polls : Always PollExact s.hist

theorem FlagInv.init {n : Key} {s : Session} (h : SessionInit n s) : FlagInv s := by
  obtain ⟨-, -, hflag, -, hhist⟩ := h
  refine ⟨Int.le_of_eq hflag.symm, ?_, ?_⟩
  · rw [hflag, hhist]
    exact ⟨fun hpos => absurd hpos (Int.lt_irrefl 0), fun hs => absurd hs not_since_nil⟩
  · rw [hhist]
    exact .nil

/-- An event that is neither a handler run nor a poll leaves what is pending as it is. -/
theorem FlagInv.quiet {s s' : Session} {e : SessionEvent} (hs : FlagInv s) (hdev : s'.dev = s.dev)
    (hhist : s'.hist = s.hist ++ [e]) (he : e ≠ .handler) (hp : ¬ e.IsPoll) : FlagInv s' := by
  constructor
  · rw [hdev]
    exact hs.nonneg
  · rw [hdev, hhist, since_snoc]
    exact hs.pending.trans ⟨fun h => Or.inr ⟨hp, h⟩, fun h => (h.resolve_left he).2⟩
  · rw [hhist]
    exact hs.polls.snoc fun mask heq => absurd ⟨mask, heq⟩ hp

theorem FlagInv.handler {s : Session} (hs : FlagInv s) (n : Key) (lev : Word) (hflag : s.dev.event_flag < 2147483647) :
    FlagInv ({ s with dev := indInterruptHandler n lev s.dev }.log .handler) := by
  have hnonneg := hs.nonneg
  have hnew : (indInterruptHandler n lev s.dev).event_flag = s.dev.event_flag + 1 := by
    rw [indInterruptHandler_flag, wrap_id (by omega) (by omega)]
  constructor
  · simp only [Session.log, hnew]
    omega
  · simp only [Session.log, hnew, since_snoc, true_or, iff_true]
    omega
  · exact hs.polls.snoc fun mask heq => nomatch heq

theorem FlagInv.poll {s : Session} (hs : FlagInv s) :
    FlagInv ({ s with dev := s.dev.clear }.log (.polled s.dev.mask)) := by
  constructor
  · exact Int.le_refl 0
  · simp only [Session.log, since_snoc]
    refine ⟨fun hpos => absurd hpos (Int.lt_irrefl 0), ?_⟩
    rintro (hc | ⟨hc, -⟩)
    · cases hc
    · exact absurd ⟨_, rfl⟩ hc
  · refine hs.polls.snoc fun mask heq => ?_
    cases heq
    exact mask_ne_zero.trans hs.pending

/-- The step lemma. -/
theorem FlagInv.step {n : Key} {s s' : Session} {a : SessionAct} (hs : FlagInv s) (h : sessionStep n s a = some s') :
    FlagInv s' := by
  cases a with
  | «open» a =>
    simp only [sessionStep] at h
    split at h
    · cases h
      exact hs.quiet rfl rfl (by simp) (by simp [SessionEvent.IsPoll])
    · cases h
  | interrupt lev =>
    simp only [sessionStep] at h
    split at h
    · rename_i hc
      cases h
      exact hs.handler n lev hc.2
    · cases h
  | poll =>
    simp only [sessionStep] at h
    split at h
    · cases h
      exact hs.poll
    · cases h
  | read =>
    simp only [sessionStep] at h
    split at h
    · cases h
      exact hs.quiet rfl rfl (by simp) (by simp [SessionEvent.IsPoll])
    · cases h
  | release =>
    simp only [sessionStep] at h
    split at h
    · cases h
      exact hs.quiet rfl rfl (by simp) (by simp [SessionEvent.IsPoll])
    · cases h

/-- **What a poll reports over the sessions of a key driver.** A poll returns `POLLIN` exactly if the handler
has run since the poll before it, be that in the same session or in an earlier one. So a poll that is not
the first of its session reports interrupts of its own session only. -/
theorem poll_reports (n : Key) (s₀ s : Session) (as : List SessionAct) (h₀ : SessionInit n s₀)
    (h : run (sessionStep n) s₀ as = some s) :
    (∀ pre mask post, s.hist = pre ++ .polled mask :: post →
      (mask &&& POLLIN ≠ 0 ↔ Since (· = .handler) SessionEvent.IsPoll pre)) ∧
    ∀ pre m mid mask post, s.hist = pre ++ .polled m :: (mid ++ .polled mask :: post) → .opened ∉ mid →
      mask &&& POLLIN ≠ 0 → Since (· = .handler) (fun e => e.IsPoll ∨ e = .opened) mid := by
  have hinv : FlagInv s := run_invariant (fun _ _ _ hp => hp.step) (FlagInv.init h₀) h
  have hexact : ∀ pre mask post, s.hist = pre ++ .polled mask :: post →
      (mask &&& POLLIN ≠ 0 ↔ Since (· = .handler) SessionEvent.IsPoll pre) :=
    fun pre mask post heq => hinv.polls pre _ post heq mask rfl
  refine ⟨hexact, ?_⟩
  intro pre m mid mask post heq hsame hmask
  have hsince := (hexact (pre ++ .polled m :: mid) mask post (by rw [heq]; simp)).1 hmask
  refine (hsince.after ⟨m, rfl⟩ SessionEvent.noConfusion).mono fun e he hq => hq.resolve_right ?_
  rintro rfl
  exact hsame he

/-- A press that its own session has polled is not reported again in the next one. -/
theorem poll_reports_once : ∃ s, run (sessionStep .key) .loaded
      [.open ⟨true, 0⟩, .interrupt 0, .poll, .release, .open ⟨true, 0⟩, .poll] = some s ∧
    s.hist = [.opened, .handler, .polled 65, .released, .opened] ++ .polled 0 :: [] ∧
    ¬ Since (· = .handler) SessionEvent.IsPoll [.opened, .handler, .polled 65, .released, .opened] := by
  obtain ⟨s, hs, hhist⟩ : ∃ s, run (sessionStep .key) .loaded
      [.open ⟨true, 0⟩, .interrupt 0, .poll, .release, .open ⟨true, 0⟩, .poll] = some s ∧
      s.hist = [.opened, .handler, .polled 65, .released, .opened] ++ .polled 0 :: [] := ⟨_, rfl, rfl⟩
  refine ⟨s, hs, hhist, fun hsince => ?_⟩
  exact ((poll_reports .key _ s _ (sessionInit_loaded _) hs).1 _ 0 [] hhist).2 hsince rfl

end CoinMachine
