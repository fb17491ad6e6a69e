import CoinMachine.KeyDriver
import Mathlib.Data.List.Infix
/-!
# `key_open` and `key_release` statement by statement

The interrupt of a key driver may come between any two statements of its open and its release, and the
handler reads `GPLEV0` through the pointer `key`. Here each statement is one step, `ioremap` and
`request_irq` answer as they like, and the handler is a step of its own that is enabled as long as it is
registered. `KeyCode` holds what the five copies of the driver differ in.

| here | there |
| --- | --- |
| `keyCode`      | `receive/key_driver.c:56-97`, `key_driver2.c:55-96`, `key_driver3.c`, `key_driver4.c` |
| `codeKey`      | `code/key/key_driver.c:28-41`, `:56-102` |
| `KeyCode.stmt` | the statements of `key_open` (`:60-87`) and `key_release` (`:92-96`) |

`open_stmts` and `release_stmts` say that the statements, played without a break, are `keyOpen` and
`keyRelease`.
-/

namespace CoinMachine

open Transition

/-- What the copies of the driver differ in. -/
structure KeyCode where
  /-- whose flag, mapping and pointer the statements use -/
  slot : Driver
  /-- the register updates between `key = key_map` and `request_irq` -/
  setup : List (Nat × (Word → Word))
  /-- pin of `request_irq` -/
  irq : Nat
  /-- pin of `free_irq` -/
  free : Nat
  handler : Word → KeyDev → KeyDev
  free_eq : free = irq

def keyCode (n : Key) : KeyCode where
  slot := .key n
  setup := [(0, fun v => v &&& ~~~(0x7#32 <<< (3 * (keyPins n).input))),
            (0, fun v => v ||| 0x0#32 <<< (3 * (keyPins n).input)),
            (22, fun v => v ||| 0x1 <<< (keyPins n).edge)]
  irq := (keyPins n).irq
  free := (keyPins n).free
  handler := indInterruptHandler n
  free_eq := keyPins_free n

/-- The handler of `code/key/key_driver.c`. -/
def codeKeyHandler (lev : Word) (d : KeyDev) : KeyDev :=
  let tmp_key := if lev &&& (1 <<< 27) = 0 then 0 else 1
  let d := if tmp_key = 0 then { d with tmp_buf := d.tmp_buf + 1 } else d
  { d with event_flag := wrap (d.event_flag + 1) }

/-- The driver of `code/key`: its LED pin is an output and its key pin an input. -/
def codeKey : KeyCode where
  slot := .key .key
  setup := [(1, fun v => v &&& ~~~(0x7#32 <<< (3 * 7))), (1, fun v => v ||| 0x1#32 <<< (3 * 7)),
            (2, fun v => v &&& ~~~(0x7#32 <<< (3 * 7))), (22, fun v => v ||| 0x1 <<< 27)]
  irq := 27
  free := 27
  handler := codeKeyHandler
  free_eq := rfl

/-- The statement that comes next. -/
inductive KeyPc where
  /-- no call in progress; what the last one returned -/
  | idle (ret : Int)
  /-- `if (key_usage != 0)` (`:60`) -/
  | testUsage
  /-- `key_usage = 1` (`:62`) -/
  | setUsage
  /-- `key_map = ioremap(..)` (`:64`) -/
  | map
  /-- `if (!key_map)` (`:65`) -/
  | testMap
  /-- `key = key_map` (`:72`) -/
  | setPtr
  /-- the register updates still to do (`:75-79`), then `request_irq` (`:80`) -/
  | program (todo : List (Nat × (Word → Word)))
  /-- `if (result < 0)` and the return (`:81-87`) -/
  | testResult (result : Int)
  /-- `key_usage = 0` (`:92`) -/
  | clearUsage
  /-- `if (key) iounmap(key)` (`:93`) -/
  | unmap
  /-- `free_irq(..)` and the return (`:95`) -/
  | free

structure KeySys where
  kernel : Kernel
  dev : KeyDev
  pc : KeyPc

inductive CallAct where
  | callOpen
  | callRelease
  /-- the next statement, with what the kernel answers in it -/
  | stmt (a : Avail)
  /-- the handler runs and reads `lev` from `GPLEV0` -/
  | interrupt (lev : Word)

def Kernel.setDev (k : Kernel) (d : Driver) (dev : Dev) : Kernel := { k with dev := Function.update k.dev d dev }

variable (c : KeyCode)

/-- The next statement of the call in progress. -/
def KeyCode.stmt (a : Avail) (s : KeySys) : Option KeySys :=
  let k := s.kernel
  let dev := k.dev c.slot
  match s.pc with
  | .idle _ => none
  | .testUsage => some { s with pc := if dev.usage ≠ 0 then .idle (-EBUSY) else .setUsage }
  | .setUsage => some { s with kernel := k.setDev c.slot { dev with usage := 1 }, pc := .map }
  | .map =>
    if a.ioremap then
      some { s with kernel := { k.setDev c.slot { dev with map := some k.next } with
                                live := k.next :: k.live, next := k.next + 1 }
                    pc := .testMap }
    else some { s with kernel := k.setDev c.slot { dev with map := none }, pc := .testMap }
  -- `iounmap(NULL)` does nothing
  | .testMap => some { s with pc := if dev.map = none then .idle (-EBUSY) else .setPtr }
  | .setPtr => some { s with kernel := k.setDev c.slot { dev with ptr := dev.map }, pc := .program c.setup }
  | .program (u :: todo) =>
    some { s with kernel := { k with bus := k.bus.store u.1 (u.2 (k.bus.regs u.1)) }, pc := .program todo }
  | .program [] =>
    some { s with kernel := if a.requestIrq < 0 then k else { k with irqs := (c.irq, c.slot) :: k.irqs }
                  pc := .testResult a.requestIrq }
  | .testResult result => some { s with pc := .idle (if result < 0 then result else 0) }
  | .clearUsage => some { s with kernel := k.setDev c.slot { dev with usage := 0 }, pc := .unmap }
  | .unmap =>
    some { s with kernel := { k with live := match dev.ptr with
                                | some p => k.live.erase p
                                | none => k.live }
                  pc := .free }
  | .free => some { s with kernel := freeIrq c.free k, pc := .idle 0 }

/-- The handler of the driver is registered. -/
def KeyCode.Registered (k : Kernel) : Prop := (c.irq, c.slot) ∈ k.irqs

instance (k : Kernel) : Decidable (c.Registered k) := inferInstanceAs (Decidable (_ ∈ _))

def KeyCode.step (s : KeySys) : CallAct → Option KeySys
  | .callOpen => match s.pc with
    | .idle _ => some { s with pc := .testUsage }
    | _ => none
  | .callRelease => match s.pc with
    | .idle _ => some { s with pc := .clearUsage }
    | _ => none
  | .stmt a => c.stmt a s
  | .interrupt lev => if c.Registered s.kernel then some { s with dev := c.handler lev s.dev } else none

/-- The module is loaded: its statics are zero and it has no handler registered; other drivers may have
mappings and handlers. -/
structure KeyCode.Init (s : KeySys) : Prop where
  dev : s.kernel.dev c.slot = ⟨0, none, none⟩
  nodup : s.kernel.live.Nodup
  fresh : ∀ p ∈ s.kernel.live, p < s.kernel.next
  unregistered : ¬ c.Registered s.kernel
  pc : s.pc = .idle 0

/-- The module just loaded, no other driver about. -/
def KeySys.loaded : KeySys where
  kernel := ⟨fun _ => ⟨0, none, none⟩, [], 0, [], ⟨fun _ => 0, 0⟩⟩
  dev := ⟨0, 0⟩
  pc := .idle 0

theorem init_loaded (c : KeyCode) : c.Init KeySys.loaded :=
  ⟨rfl, List.nodup_nil, (fun _ hp => nomatch hp), (fun hreg => nomatch hreg), rfl⟩

/-- The pointer that the handler dereferences refers to a live mapping. -/
def KeyCode.PtrLive (k : Kernel) : Prop := ∃ p, (k.dev c.slot).ptr = some p ∧ p ∈ k.live

/-- The handler cannot run on a dead mapping. -/
def KeyCode.HandlerSafe (k : Kernel) : Prop := c.Registered k → c.PtrLive k

/-! ## The statements make up the calls -/

/-- Played without a break, the statements of an open are `keyOpen`. -/
theorem open_stmts (n : Key) (a : Avail) (k : Kernel) (d : KeyDev) (r : Int) :
    ∃ m, run (keyCode n).step ⟨k, d, .idle r⟩ (.callOpen :: List.replicate m (.stmt a)) =
      some ⟨(keyOpen n a k).2, d, .idle (keyOpen n a k).1⟩ := by
  by_cases husage : (k.dev (.key n)).usage = 0
  · cases hmap : a.ioremap with
    | true =>
      refine ⟨10, ?_⟩
      by_cases hreq : a.requestIrq < 0
      all_goals
        simp [run, KeyCode.step, KeyCode.stmt, keyCode, keyOpen, mapGpio_mapped husage hmap, Kernel.setDev, Bus.setField,
          List.replicate, husage, hmap, hreq]
    | false =>
      refine ⟨4, ?_⟩
      simp [run, KeyCode.step, KeyCode.stmt, keyCode, keyOpen, mapGpio_unmapped husage hmap, Kernel.setDev,
        List.replicate, husage, hmap, EBUSY]
  · refine ⟨1, ?_⟩
    simp [run, KeyCode.step, KeyCode.stmt, keyCode, keyOpen, mapGpio_busy husage, List.replicate, EBUSY]
    exact husage

theorem release_stmts (n : Key) (a : Avail) (k : Kernel) (d : KeyDev) (r : Int) :
    run (keyCode n).step ⟨k, d, .idle r⟩ [.callRelease, .stmt a, .stmt a, .stmt a] =
      some ⟨keyRelease n k, d, .idle 0⟩ := by
  cases hptr : (k.dev (.key n)).ptr
  all_goals simp [run, KeyCode.step, KeyCode.stmt, keyCode, keyRelease, unmapGpio, freeIrq, Kernel.setDev, hptr]

/-! ## Where the handler is registered, and on what -/

variable {c}

/-- What holds before the next statement. -/
def KeyCode.At (c : KeyCode) (k : Kernel) : KeyPc → Prop
  | .idle _ => c.Registered k → (k.dev c.slot).usage ≠ 0 ∧ c.PtrLive k
  | .testUsage => c.Registered k → (k.dev c.slot).usage ≠ 0 ∧ c.PtrLive k
  | .setUsage => ¬ c.Registered k
  | .map => ¬ c.Registered k ∧ (k.dev c.slot).usage ≠ 0
  | .testMap => ¬ c.Registered k ∧ (k.dev c.slot).usage ≠ 0 ∧ ∀ p, (k.dev c.slot).map = some p → p ∈ k.live
  | .setPtr => ¬ c.Registered k ∧ (k.dev c.slot).usage ≠ 0 ∧ ∃ p, (k.dev c.slot).map = some p ∧ p ∈ k.live
  | .program _ => ¬ c.Registered k ∧ (k.dev c.slot).usage ≠ 0 ∧ c.PtrLive k
  | .testResult _ => (k.dev c.slot).usage ≠ 0 ∧ c.PtrLive k
  | .clearUsage => c.HandlerSafe k
  | .unmap => c.HandlerSafe k
  -- the mapping is gone and the handler may still be there
  | .free => True

structure StmtInv (c : KeyCode) (s : KeySys) : Prop where
  nodup : s.kernel.live.Nodup
  fresh : ∀ p ∈ s.kernel.live, p < s.kernel.next
  at_pc : c.At s.kernel s.pc

theorem StmtInv.init {s : KeySys} (h : c.Init s) : StmtInv c s := by
  refine ⟨h.nodup, h.fresh, ?_⟩
  rw [h.pc]
  exact fun hreg => absurd hreg h.unregistered

/-- Setting the statics of the driver leaves the tables as they are. -/
@[simp] theorem registered_setDev (k : Kernel) (d : Driver) (dev : Dev) :
    c.Registered (k.setDev d dev) ↔ c.Registered k := Iff.rfl

theorem not_registered_free (k : Kernel) : ¬ c.Registered (freeIrq c.free k) := by
  simp [KeyCode.Registered, freeIrq, c.free_eq]

/-- The step lemma, for the statements. -/
theorem StmtInv.stmt {s s' : KeySys} {a : Avail} (hs : StmtInv c s) (h : c.stmt a s = some s') : StmtInv c s' := by
  obtain ⟨k, d, pc⟩ := s
  obtain ⟨hnodup, hfresh, hat⟩ := hs
  cases pc with
  | idle ret => cases h
  | testUsage =>
    cases h
    refine ⟨hnodup, hfresh, ?_⟩
    by_cases husage : (k.dev c.slot).usage = 0
    · rw [if_neg (not_not.2 husage)]
      exact fun hreg => (hat hreg).1 husage
    · rw [if_pos husage]
      exact hat
  | setUsage =>
    cases h
    exact ⟨hnodup, hfresh, hat, by simp [Kernel.setDev]⟩
  | map =>
    obtain ⟨hreg, husage⟩ := hat
    simp only [KeyCode.stmt] at h
    split at h
    · cases h
      refine ⟨List.nodup_cons.2 ⟨fun hp => ?_, hnodup⟩, ?_, hreg, ?_, ?_⟩
      · exact Nat.lt_irrefl _ (hfresh _ hp)
      · intro p hp
        rcases List.mem_cons.1 hp with rfl | hp
        · exact Nat.lt_succ_self _
        · exact Nat.lt_succ_of_lt (hfresh p hp)
      · simpa [Kernel.setDev] using husage
      · intro p hp
        simp [Kernel.setDev] at hp
        exact hp ▸ List.mem_cons_self
    · cases h
      refine ⟨hnodup, hfresh, hreg, ?_, ?_⟩
      · simpa [Kernel.setDev] using husage
      · simp [Kernel.setDev]
  | testMap =>
    obtain ⟨hreg, husage, hmap⟩ := hat
    cases h
    refine ⟨hnodup, hfresh, ?_⟩
    by_cases hnull : (k.dev c.slot).map = none
    · rw [if_pos hnull]
      exact fun h => absurd h hreg
    · rw [if_neg hnull]
      obtain ⟨p, hp⟩ := Option.ne_none_iff_exists'.1 hnull
      exact ⟨hreg, husage, p, hp, hmap p hp⟩
  | setPtr =>
    obtain ⟨hreg, husage, p, hp, hlive⟩ := hat
    cases h
    refine ⟨hnodup, hfresh, hreg, by simpa [Kernel.setDev] using husage, p, ?_, hlive⟩
    simpa [Kernel.setDev] using hp
  | program todo =>
    obtain ⟨hreg, husage, hlive⟩ := hat
    cases todo with
    | nil =>
      cases h
      split <;> exact ⟨hnodup, hfresh, husage, hlive⟩
    | cons u todo =>
      cases h
      exact ⟨hnodup, hfresh, hreg, husage, hlive⟩
  | testResult result =>
    cases h
    exact ⟨hnodup, hfresh, fun _ => hat⟩
  | clearUsage =>
    cases h
    refine ⟨hnodup, hfresh, fun hreg => ?_⟩
    obtain ⟨p, hp, hlive⟩ := hat hreg
    exact ⟨p, by simpa [Kernel.setDev] using hp, hlive⟩
  | unmap =>
    cases h
    refine ⟨?_, ?_, trivial⟩
    all_goals
      dsimp only
      split
    · exact hnodup.erase _
    · exact hnodup
    · exact fun p hp => hfresh p (List.mem_of_mem_erase hp)
    · exact hfresh
  | free =>
    cases h
    exact ⟨hnodup, hfresh, fun hreg => absurd hreg (not_registered_free k)⟩

theorem StmtInv.step {s s' : KeySys} {a : CallAct} (hs : StmtInv c s) (h : c.step s a = some s') : StmtInv c s' := by
  cases a with
  | stmt a => exact hs.stmt h
  | interrupt lev =>
    simp only [KeyCode.step] at h
    split at h
    · cases h
      exact ⟨hs.nodup, hs.fresh, hs.at_pc⟩
    · cases h
  | callOpen =>
    obtain ⟨k, d, pc⟩ := s
    cases pc <;> cases h
    exact ⟨hs.nodup, hs.fresh, hs.at_pc⟩
  | callRelease =>
    obtain ⟨k, d, pc⟩ := s
    cases pc <;> cases h
    exact ⟨hs.nodup, hs.fresh, fun hreg => (hs.at_pc hreg).2⟩

theorem StmtInv.run {s s' : KeySys} {as : List CallAct} (hs : StmtInv c s) (h : run c.step s as = some s') : StmtInv c s' :=
  run_invariant (fun _ _ _ hp => hp.step) hs h

/-- The handler is on a dead mapping at most between the `iounmap` and the `free_irq` of a release. -/
theorem StmtInv.safe {s : KeySys} (hs : StmtInv c s) (hpc : s.pc ≠ .free) : c.HandlerSafe s.kernel := by
  intro hreg
  have hat := hs.at_pc
  generalize s.pc = pc at hat hpc
  cases pc with
  | idle ret => exact (hat hreg).2
  | testUsage => exact (hat hreg).2
  | setUsage => exact absurd hreg hat
  | map => exact absurd hreg hat.1
  | testMap => exact absurd hreg hat.1
  | setPtr => exact absurd hreg hat.1
  | program todo => exact hat.2.2
  | testResult result => exact hat.2
  | clearUsage => exact hat hreg
  | unmap => exact hat hreg
  | free => exact absurd rfl hpc

/-! ## The window inside the release -/

/-- The next statement is the `iounmap` of a release whose handler is still registered (`:93`, with
`free_irq` only at `:95`). -/
def KeyCode.UnmapsUnderHandler (c : KeyCode) (s : KeySys) : Prop := s.pc = .unmap ∧ c.Registered s.kernel

/-- The statement leaves the handler on a dead mapping. -/
theorem unsafe_of_unmap {s s' : KeySys} {a : Avail} (hs : StmtInv c s) (hun : c.UnmapsUnderHandler s)
    (h : c.stmt a s = some s') : ¬ c.HandlerSafe s'.kernel := by
  obtain ⟨k, d, pc⟩ := s
  obtain ⟨rfl, hreg⟩ := hun
  cases h
  intro hsafe
  obtain ⟨p, hp, hlive⟩ := hsafe hreg
  simp only at hp hlive
  rw [hp] at hlive
  exact hs.nodup.not_mem_erase hlive

/-- Only the `iounmap` of a release leads to its `free_irq`. -/
theorem pc_of_stmt_free {s s' : KeySys} {a : Avail} (h : c.stmt a s = some s') (hpc : s'.pc = .free) :
    s.pc = .unmap := by
  obtain ⟨k, d, pc⟩ := s
  cases pc with
  | unmap => rfl
  | idle ret => cases h
  | testUsage =>
    cases h
    dsimp only at hpc
    split at hpc <;> cases hpc
  | testMap =>
    cases h
    dsimp only at hpc
    split at hpc <;> cases hpc
  | map =>
    simp only [KeyCode.stmt] at h
    split at h <;> (cases h; cases hpc)
  | program todo => cases todo <;> (cases h; cases hpc)
  | setUsage => cases h; cases hpc
  | setPtr => cases h; cases hpc
  | testResult result => cases h; cases hpc
  | clearUsage => cases h; cases hpc
  | free => cases h; cases hpc

/-- Any other step keeps the handler safe. -/
theorem HandlerSafe.step {s s' : KeySys} {a : CallAct} (hs : StmtInv c s) (hsafe : c.HandlerSafe s.kernel)
    (hun : ∀ av, a = .stmt av → ¬ c.UnmapsUnderHandler s) (h : c.step s a = some s') : c.HandlerSafe s'.kernel := by
  cases a with
  | callOpen =>
    obtain ⟨k, d, pc⟩ := s
    cases pc <;> cases h
    exact hsafe
  | callRelease =>
    obtain ⟨k, d, pc⟩ := s
    cases pc <;> cases h
    exact hsafe
  | interrupt lev =>
    simp only [KeyCode.step] at h
    split at h
    · cases h
      exact hsafe
    · cases h
  | stmt av =>
    by_cases hpc : s'.pc = .free
    · -- the mapping of a driver without handler has gone
      have hunmap := pc_of_stmt_free h hpc
      obtain ⟨k, d, pc⟩ := s
      cases hunmap
      cases h
      exact fun hreg => absurd ⟨rfl, hreg⟩ (hun av rfl)
    · exact (hs.step h).safe hpc

/-- After an open, the release takes the mapping away and the handler is still registered. -/
theorem handler_on_dead_mapping : ¬ ∀ (c : KeyCode) (s₀ s : KeySys) (as : List CallAct), c.Init s₀ →
    run c.step s₀ as = some s → c.HandlerSafe s.kernel := by
  intro hclaim
  obtain ⟨s, hrun, hreg, hlive⟩ : ∃ s, run (keyCode .key).step .loaded
      (.callOpen :: List.replicate 10 (.stmt ⟨true, 0⟩) ++ [.callRelease, .stmt ⟨true, 0⟩, .stmt ⟨true, 0⟩, .interrupt 0]) =
      some s ∧ (keyCode .key).Registered s.kernel ∧ s.kernel.live = [] :=
    ⟨_, rfl, List.mem_cons_self, rfl⟩
  obtain ⟨p, -, hp⟩ := hclaim (keyCode .key) _ s _ (init_loaded _) hrun hreg
  rw [hlive] at hp
  cases hp

/-- **When the handler of a key driver cannot run on a dead mapping.** In a run of opens and releases with
interrupts between their statements, the pointer that a registered handler dereferences refers to a live
mapping in every state exactly if no release gets to its `iounmap` with the handler still registered. -/
theorem handler_safe_iff (c : KeyCode) (s₀ s : KeySys) (as : List CallAct) (h₀ : c.Init s₀)
    (h : run c.step s₀ as = some s) :
    (∀ pre post t, as = pre ++ post → run c.step s₀ pre = some t → c.HandlerSafe t.kernel) ↔
    ∀ pre av post t, as = pre ++ .stmt av :: post → run c.step s₀ pre = some t → ¬ c.UnmapsUnderHandler t := by
  constructor
  · intro hsafe pre av post t heq ht hun
    obtain ⟨u, hstep, hu⟩ := run_split (heq ▸ h) ht
    have hpre : as = (pre ++ [.stmt av]) ++ post := by rw [heq, List.append_assoc]; rfl
    exact unsafe_of_unmap ((StmtInv.init h₀).run ht) hun hstep (hsafe _ _ u hpre hu)
  · intro hun pre post t heq ht
    have hinit : c.HandlerSafe s₀.kernel := (StmtInv.init h₀).safe (by rw [h₀.pc]; exact KeyPc.noConfusion)
    have hinv : StmtInv c t ∧ c.HandlerSafe t.kernel := by
      refine run_along (P := fun t => StmtInv c t ∧ c.HandlerSafe t.kernel)
        (C := fun s a => ∀ av, a = .stmt av → ¬ c.UnmapsUnderHandler s) ?_ ⟨StmtInv.init h₀, hinit⟩ ?_ post t heq ht
      · rintro s a s' ⟨hs, hsafe⟩ hC hstep
        exact ⟨hs.step hstep, HandlerSafe.step hs hsafe hC hstep⟩
      · rintro pre a post t heq ht av rfl
        exact hun pre av post t heq ht
    exact hinv.2

/-- An open, then the key is pressed: the handler is registered and on a live mapping. -/
theorem handler_safe_iff_open : ∃ s, run (keyCode .key).step .loaded
      (.callOpen :: List.replicate 10 (.stmt ⟨true, 0⟩) ++ [.interrupt 0]) = some s ∧
    (keyCode .key).Registered s.kernel ∧ (keyCode .key).HandlerSafe s.kernel := by
  obtain ⟨s, hrun, hreg⟩ : ∃ s, run (keyCode .key).step .loaded
      (.callOpen :: List.replicate 10 (.stmt ⟨true, 0⟩) ++ [.interrupt 0]) = some s ∧ (keyCode .key).Registered s.kernel :=
    ⟨_, rfl, List.mem_cons_self⟩
  refine ⟨s, hrun, hreg, (handler_safe_iff _ _ _ _ (init_loaded _) hrun).2 ?_ _ [] s (List.append_nil _).symm hrun⟩
  rintro pre av post t heq ht ⟨hpc, -⟩
  have hpre : pre ∈ (CallAct.callOpen :: List.replicate 10 (.stmt ⟨true, 0⟩) ++ [CallAct.interrupt 0]).inits := by
    rw [heq]
    exact (List.mem_inits _ _).2 (List.prefix_append _ _)
  simp only [List.replicate, List.cons_append, List.nil_append, List.inits, List.map, List.mem_cons, List.not_mem_nil,
    or_false] at hpre
  rcases hpre with rfl | rfl | rfl | rfl | rfl | rfl | rfl | rfl | rfl | rfl | rfl | rfl | rfl
  all_goals (cases ht; cases hpc)

end CoinMachine
