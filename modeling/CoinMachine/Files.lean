import CoinMachine.Drivers
import CoinMachine.Lib.EventLog
/-!
# The device files over their lives: opens that may fail, and releases

The kernel calls `release` for a file whose `open` has succeeded, and for no other. `Files` has the nine
drivers with the files that are open; an open is any attempt, with any answer of the kernel in it.

| here | there |
| --- | --- |
| `fileStep`, open     | `key_open` (`key_driver.c:56-88`), `sens_open` (`sens_driver.c:28-51`), `motor_open` (`mot_driver.c:20-40`), `dot_open` (`dot_driver.c:20-50`) |
| `fileStep`, release  | `key_release` (`key_driver.c:90-97`), `sens_release` (`sens_driver.c:53-60`), `motor_release` (`mot_driver.c:41-48`), `dot_release` (`dot_driver.c:51-58`) |
| `Driver.freed`       | the argument of `free_irq` in the release |

A driver takes its usage flag before it asks for its resources and does not give it back when it fails
(`opens_clean_iff`); and the sensor drivers free an interrupt that they have never requested
(`registrations_balanced_iff`).
-/

namespace CoinMachine

open Transition EventLog

/-! ## What an open and a release do to the tables -/

/-- What an open of the driver asks the kernel for: a mapping and, in a key driver, an interrupt. -/
def Available (d : Driver) (a : Avail) : Prop := a.ioremap = true ∧ ∀ n, d = .key n → 0 ≤ a.requestIrq

/-- What a successful open registers. -/
def Driver.requests : Driver → List (Nat × Driver)
  | .key n => [((keyPins n).irq, .key n)]
  | _ => []

/-- The pin whose interrupt the release frees. -/
def Driver.freed : Driver → Option Nat
  | .key n => some (keyPins n).free
  | .sens s => some (sensPins s).free
  | .mot => none
  | .dot => none

theorem open_busy {d : Driver} {k : Kernel} (h : (k.dev d).usage ≠ 0) (a : Avail) : d.open a k = (-EBUSY, k) := by
  cases d <;> simp [Driver.open, keyOpen, sensOpen, motorOpen, dotOpen, mapGpio_busy h, EBUSY]

/-- An open that gets what it asks for. -/
theorem open_available {d : Driver} {a : Avail} {k : Kernel} (h : (k.dev d).usage = 0) (ha : Available d a) :
    (d.open a k).1 = 0 ∧ (d.open a k).2.dev = Function.update k.dev d ⟨1, some k.next, some k.next⟩ ∧
    (d.open a k).2.irqs = d.requests ++ k.irqs := by
  obtain ⟨hmap, hirq⟩ := ha
  cases d with
  | key n =>
    have hnot : ¬ a.requestIrq < 0 := Int.not_lt.2 (hirq n rfl)
    simp [Driver.open, keyOpen, mapGpio_mapped h hmap, hnot, Driver.requests]
  | sens s => simp [Driver.open, sensOpen, mapGpio_mapped h hmap, Driver.requests]
  | mot => simp [Driver.open, motorOpen, mapGpio_mapped h hmap, Driver.requests]
  | dot => simp [Driver.open, dotOpen, mapGpio_mapped h hmap, Driver.requests]

/-- An open that does not: it fails, and the usage flag stays taken. -/
theorem open_unavailable {d : Driver} {a : Avail} {k : Kernel} (h : (k.dev d).usage = 0) (ha : ¬ Available d a) :
    (d.open a k).1 < 0 ∧ ((d.open a k).2.dev d).usage = 1 := by
  cases hmap : a.ioremap with
  | false => cases d <;> simp [Driver.open, keyOpen, sensOpen, motorOpen, dotOpen, mapGpio_unmapped h hmap, EBUSY]
  | true =>
    cases d with
    | key n =>
      have hneg : a.requestIrq < 0 := by
        by_contra hnot
        exact ha ⟨hmap, fun _ _ => Int.not_lt.1 hnot⟩
      simp [Driver.open, keyOpen, mapGpio_mapped h hmap, hneg]
    | sens s => exact absurd ⟨hmap, fun _ hn => by cases hn⟩ ha
    | mot => exact absurd ⟨hmap, fun _ hn => by cases hn⟩ ha
    | dot => exact absurd ⟨hmap, fun _ hn => by cases hn⟩ ha

/-- A call succeeds exactly if it finds the flag clear and gets what it asks for. -/
theorem open_nonneg_iff {d : Driver} {a : Avail} {k : Kernel} :
    0 ≤ (d.open a k).1 ↔ (k.dev d).usage = 0 ∧ Available d a := by
  by_cases h : (k.dev d).usage = 0
  · by_cases ha : Available d a
    · simp [(open_available h ha).1, h, ha]
    · have hneg := (open_unavailable h ha).1
      simp [h, ha, hneg]
  · rw [open_busy h a]
    exact ⟨fun hret => absurd hret (by simp [EBUSY]), fun hc => absurd hc.1 h⟩

theorem dev_release (d : Driver) (k : Kernel) :
    (d.release k).dev = Function.update k.dev d { k.dev d with usage := 0 } := by
  cases d <;> rfl

theorem irqs_release (d : Driver) (k : Kernel) :
    (d.release k).irqs = k.irqs.filter fun r => some r.1 ≠ d.freed := by
  cases d <;> simp [Driver.release, keyRelease, sensRelease, motorRelease, dotRelease, freeIrq, unmapGpio, Driver.freed]

/-- The tables and the flag of the driver are as they were. -/
structure Driver.Same (d : Driver) (k k' : Kernel) : Prop where
  usage : (k'.dev d).usage = (k.dev d).usage
  live : ∀ p, p ∈ k'.live ↔ p ∈ k.live
  irqs : ∀ r, r ∈ k'.irqs ↔ r ∈ k.irqs

/-- Which calls leave the driver as it was in case they fail. -/
theorem open_same_iff (d : Driver) (a : Avail) (k : Kernel) :
    ((d.open a k).1 < 0 → d.Same k (d.open a k).2) ↔ ((k.dev d).usage = 0 → Available d a) := by
  constructor
  · intro hsame h
    by_contra ha
    obtain ⟨hneg, husage⟩ := open_unavailable h ha
    rw [(hsame hneg).usage, h] at husage
    cases husage
  · intro hav hneg
    by_cases h : (k.dev d).usage = 0
    · rw [(open_available h (hav h)).1] at hneg
      exact absurd hneg (Int.lt_irrefl 0)
    · rw [open_busy h a]
      exact ⟨rfl, fun _ => Iff.rfl, fun _ => Iff.rfl⟩

/-! ## The files -/

structure Files where
  kernel : Kernel
  /-- the driver has a file open -/
  held : Driver → Bool

def fileStep (s : Files) : DriverOp → Option Files
  | .open d a =>
    some { kernel := (d.open a s.kernel).2
           held := if 0 ≤ (d.open a s.kernel).1 then Function.update s.held d true else s.held }
  | .release d =>
    if s.held d then some { kernel := d.release s.kernel, held := Function.update s.held d false } else none

/-- The modules are loaded and no file is open. -/
structure Files.Init (s : Files) : Prop where
  dev : ∀ d, s.kernel.dev d = ⟨0, none, none⟩
  irqs : s.kernel.irqs = []
  held : ∀ d, s.held d = false

/-- The machine after boot. -/
def Files.loaded : Files := ⟨⟨fun _ => ⟨0, none, none⟩, [], 0, [], ⟨fun _ => 0, 0⟩⟩, fun _ => false⟩

theorem Files.init_loaded : Files.loaded.Init := ⟨fun _ => rfl, rfl, fun _ => rfl⟩

/-- What failing opens are to leave behind: nothing. -/
structure OpensClean (s₀ : Files) (ops : List DriverOp) : Prop where
  failed : ∀ pre d a post t, ops = pre ++ .open d a :: post → run fileStep s₀ pre = some t →
    (d.open a t.kernel).1 < 0 → d.Same t.kernel (d.open a t.kernel).2
  succeeds : ∀ pre post t, ops = pre ++ post → run fileStep s₀ pre = some t →
    ∀ d a, t.held d = false → Available d a → 0 ≤ (d.open a t.kernel).1

/-- `ioremap` fails once: the flag is taken and no later open of the driver succeeds. -/
theorem failed_open_stuck :
    (¬ ∀ s₀ s ops, s₀.Init → run fileStep s₀ ops = some s → ∀ pre d a post t, ops = pre ++ .open d a :: post →
      run fileStep s₀ pre = some t → (d.open a t.kernel).1 < 0 → d.Same t.kernel (d.open a t.kernel).2) ∧
    ¬ ∀ s₀ s ops, s₀.Init → run fileStep s₀ ops = some s →
      ∀ d a, s.held d = false → Available d a → 0 ≤ (d.open a s.kernel).1 := by
  constructor
  · intro hclaim
    have hsame := hclaim _ _ [.open .mot ⟨false, 0⟩] Files.init_loaded rfl [] .mot ⟨false, 0⟩ [] _ rfl rfl (by decide)
    exact absurd hsame.usage (by decide)
  · intro hclaim
    have hok := hclaim _ _ [.open .mot ⟨false, 0⟩] Files.init_loaded rfl .mot ⟨true, 0⟩ rfl ⟨rfl, fun n hn => nomatch hn⟩
    exact absurd hok (by decide)

/-- Every open that finds the flag clear gets what it asks for. -/
def OpensServed (s₀ : Files) (ops : List DriverOp) : Prop := ∀ pre d a post t, ops = pre ++ .open d a :: post →
  run fileStep s₀ pre = some t → (t.kernel.dev d).usage = 0 → Available d a

/-- The flag is set for the drivers whose file is open, and for no other. -/
def FlagsExact (s : Files) : Prop := ∀ d, (s.kernel.dev d).usage = 0 ↔ s.held d = false

theorem Files.Init.flags {s : Files} (h : s.Init) : FlagsExact s := fun d => by simp [h.dev, h.held]

/-- The step lemma: only an open that fails with the flag clear spoils it. -/
theorem FlagsExact.step {s s' : Files} {op : DriverOp} (hs : FlagsExact s)
    (hop : ∀ d a, op = .open d a → (s.kernel.dev d).usage = 0 → Available d a) (h : fileStep s op = some s') :
    FlagsExact s' := by
  intro e
  cases op with
  | «open» d a =>
    cases h
    by_cases husage : (s.kernel.dev d).usage = 0
    · have hav := hop d a rfl husage
      obtain ⟨hret, hdev, -⟩ := open_available husage hav
      dsimp only
      rw [hdev, hret, if_pos (Int.le_refl 0)]
      by_cases he : e = d
      · subst he
        simp
      · simpa [he] using hs e
    · rw [open_busy husage a]
      exact hs e
  | release d =>
    simp only [fileStep] at h
    split at h
    · cases h
      dsimp only
      rw [dev_release]
      by_cases he : e = d
      · subst he
        simp
      · simpa [he] using hs e
    · cases h

/-- **When failing opens leave nothing behind.** In a run of open attempts on the nine drivers and of releases
of their open files, every failing open leaves flag, mappings and registrations as they were, and an open
with its resources there and no file held always succeeds, exactly if no open that found the flag clear was
refused a resource. -/
theorem opens_clean_iff (s₀ : Files) (ops : List DriverOp) (h₀ : s₀.Init) : OpensClean s₀ ops ↔ OpensServed s₀ ops := by
  constructor
  · intro hclean pre d a post t heq ht
    exact (open_same_iff d a t.kernel).1 (hclean.failed pre d a post t heq ht)
  · intro hserved
    refine ⟨fun pre d a post t heq ht => (open_same_iff d a t.kernel).2 (hserved pre d a post t heq ht), ?_⟩
    intro pre post t heq ht d a hheld hav
    have hflags : FlagsExact t := by
      refine run_along (C := fun s op => ∀ d a, op = .open d a → (s.kernel.dev d).usage = 0 → Available d a) ?_
        h₀.flags ?_ post t heq ht
      · exact fun _ _ _ hs hC hstep => hs.step hC hstep
      · rintro pre op post t heq ht d a rfl
        exact hserved pre d a post t heq ht
    exact open_nonneg_iff.2 ⟨(hflags d).2 hheld, hav⟩

/-- The motor opened twice and released: the second open is refused and nothing is lost. -/
theorem opens_clean_iff_motor :
    OpensClean .loaded [.open .mot ⟨true, 0⟩, .open .mot ⟨false, 0⟩, .release .mot] := by
  refine (opens_clean_iff _ _ Files.init_loaded).2 ?_
  intro pre d a post t heq ht husage
  rcases pre with _ | ⟨x, _ | ⟨y, _ | ⟨z, pre⟩⟩⟩
  · cases heq
    exact ⟨rfl, fun n hn => nomatch hn⟩
  · cases heq
    cases ht
    exact absurd husage (by decide)
  · cases heq
  · simp at heq

/-! ## The interrupt table -/

/-- The opens of a run all succeed. -/
def servedStep (s : Files) (op : DriverOp) : Option Files :=
  match op with
  | .open d a => if 0 ≤ (d.open a s.kernel).1 then fileStep s op else none
  | .release _ => fileStep s op

/-- The table holds the registrations of the open key drivers, each once. -/
structure TableExact (s : Files) : Prop where
  nodup : s.kernel.irqs.Nodup
  mem_iff : ∀ r, r ∈ s.kernel.irqs ↔ ∃ n, s.held (.key n) = true ∧ r = ((keyPins n).irq, .key n)

/-- The release of `d` in state `t`, after the operations `pre`, frees what the open it ends has registered. -/
structure FreesOwn (s₀ : Files) (pre : List DriverOp) (d : Driver) (t : Files) (pin : Nat) : Prop where
  removes : ∀ r, r ∈ t.kernel.irqs ∧ r ∉ (d.release t.kernel).irqs ↔ r = (pin, d)
  made : ∃ pre₁ a mid t₁, pre = pre₁ ++ .open d a :: mid ∧ .release d ∉ mid ∧ run servedStep s₀ pre₁ = some t₁ ∧
    (d.open a t₁.kernel).2.irqs = (pin, d) :: t₁.kernel.irqs

/-- Registrations and frees match in a run. -/
structure Balanced (s₀ : Files) (ops : List DriverOp) : Prop where
  table : ∀ pre post t, ops = pre ++ post → run servedStep s₀ pre = some t → TableExact t
  frees : ∀ pre d post t, ops = pre ++ .release d :: post → run servedStep s₀ pre = some t →
    ∀ pin, d.freed = some pin → FreesOwn s₀ pre d t pin

/-- A sensor opened and released: its `free_irq` finds nothing of its own. -/
theorem sensor_frees_foreign : ¬ ∀ s₀ s ops, s₀.Init → run servedStep s₀ ops = some s → Balanced s₀ ops := by
  intro hclaim
  have hbal := hclaim _ _ [.open (.sens .sens1) ⟨true, 0⟩, .release (.sens .sens1)] Files.init_loaded rfl
  have hown := hbal.frees [.open (.sens .sens1) ⟨true, 0⟩] (.sens .sens1) [] _ rfl rfl 18 rfl
  obtain ⟨hmem, -⟩ := (hown.removes (18, .sens .sens1)).2 rfl
  cases hmem

theorem servedStep_open {s s' : Files} {d : Driver} {a : Avail} (h : servedStep s (.open d a) = some s') :
    (s.kernel.dev d).usage = 0 ∧ Available d a ∧ s'.kernel = (d.open a s.kernel).2 ∧
    s'.held = Function.update s.held d true := by
  simp only [servedStep, fileStep] at h
  split at h
  · rename_i hret
    obtain ⟨husage, hav⟩ := open_nonneg_iff.1 hret
    cases h
    exact ⟨husage, hav, rfl, rfl⟩
  · cases h

theorem servedStep_release {s s' : Files} {d : Driver} (h : servedStep s (.release d) = some s') :
    s.held d = true ∧ s'.kernel = d.release s.kernel ∧ s'.held = Function.update s.held d false := by
  simp only [servedStep, fileStep] at h
  split at h
  · rename_i hheld
    cases h
    exact ⟨hheld, rfl, rfl⟩
  · cases h

theorem fileStep_of_served {s s' : Files} {op : DriverOp} (h : servedStep s op = some s') : fileStep s op = some s' := by
  cases op with
  | «open» d a =>
    simp only [servedStep] at h
    split at h
    · exact h
    · cases h
  | release d => exact h

theorem FlagsExact.served {s s' : Files} {op : DriverOp} (hs : FlagsExact s) (h : servedStep s op = some s') :
    FlagsExact s' := by
  refine hs.step ?_ (fileStep_of_served h)
  rintro d a rfl -
  exact (servedStep_open h).2.1

theorem keyPins_irq_inj {n m : Key} (h : (keyPins n).irq = (keyPins m).irq) : n = m := by
  revert h
  cases n <;> cases m <;> decide

/-- No sensor pin is a key pin. -/
theorem sensPins_free_ne (s : Sens) (n : Key) : (sensPins s).free ≠ (keyPins n).irq := by
  cases s <;> cases n <;> decide

/-- The interrupt of a key is freed by the driver of that key alone. -/
theorem freed_eq_irq {d : Driver} {n : Key} : d.freed = some (keyPins n).irq ↔ d = .key n := by
  constructor
  · intro h
    cases d with
    | key m =>
      rw [Driver.freed, Option.some.injEq, keyPins_free] at h
      rw [keyPins_irq_inj h]
    | sens s => exact absurd (Option.some.inj h) (sensPins_free_ne s n)
    | mot => cases h
    | dot => cases h
  · rintro rfl
    rw [Driver.freed, keyPins_free]

/-- A release takes away the registration of its driver, if any. -/
theorem TableExact.mem_release {s : Files} (hs : TableExact s) (d : Driver) (r : Nat × Driver) :
    r ∈ (d.release s.kernel).irqs ↔ r ∈ s.kernel.irqs ∧ r.2 ≠ d := by
  rw [irqs_release, List.mem_filter]
  refine and_congr_right fun hr => ?_
  obtain ⟨n, -, rfl⟩ := (hs.mem_iff r).1 hr
  rw [decide_eq_true_iff, ne_eq, eq_comm, freed_eq_irq, ne_eq, eq_comm]

theorem TableExact.open {s s' : Files} {d : Driver} {a : Avail} (hs : TableExact s) (hflags : FlagsExact s)
    (h : servedStep s (.open d a) = some s') : TableExact s' := by
  obtain ⟨husage, hav, hk, hheld⟩ := servedStep_open h
  have hfree : s.held d = false := (hflags d).1 husage
  have hirqs : s'.kernel.irqs = d.requests ++ s.kernel.irqs := by rw [hk, (open_available husage hav).2.2]
  constructor
  · rw [hirqs]
    cases d with
    | key n =>
      refine List.nodup_cons.2 ⟨fun hmem => ?_, hs.nodup⟩
      obtain ⟨m, hm, heq⟩ := (hs.mem_iff _).1 hmem
      rw [← Driver.key.inj (congrArg Prod.snd heq), hfree] at hm
      cases hm
    | sens _ => exact hs.nodup
    | mot => exact hs.nodup
    | dot => exact hs.nodup
  · intro r
    rw [hirqs, List.mem_append, hs.mem_iff, hheld]
    constructor
    · rintro (hr | ⟨m, hm, rfl⟩)
      · cases d with
        | key n => exact ⟨n, by simp, List.mem_singleton.1 hr⟩
        | _ => cases hr
      · refine ⟨m, ?_, rfl⟩
        by_cases hd : Driver.key m = d
        · rw [hd, Function.update_self]
        · rwa [Function.update_of_ne hd]
    · rintro ⟨m, hm, rfl⟩
      by_cases hd : Driver.key m = d
      · rw [← hd]
        exact Or.inl (List.mem_singleton.2 rfl)
      · rw [Function.update_of_ne hd] at hm
        exact Or.inr ⟨m, hm, rfl⟩

theorem TableExact.release {s s' : Files} {d : Driver} (hs : TableExact s) (h : servedStep s (.release d) = some s') :
    TableExact s' := by
  obtain ⟨-, hk, hheld⟩ := servedStep_release h
  constructor
  · rw [hk, irqs_release]
    exact hs.nodup.filter _
  · intro r
    rw [hk, hs.mem_release, hs.mem_iff, hheld]
    constructor
    · rintro ⟨⟨m, hm, rfl⟩, hd⟩
      exact ⟨m, by rwa [Function.update_of_ne hd], rfl⟩
    · rintro ⟨m, hm, rfl⟩
      have hd : Driver.key m ≠ d := by
        rintro rfl
        rw [Function.update_self] at hm
        cases hm
      exact ⟨⟨m, by rwa [Function.update_of_ne hd] at hm, rfl⟩, hd⟩

/-- The table is exact after every operation, whatever is released. -/
theorem table_run {s₀ s : Files} {ops : List DriverOp} (h₀ : s₀.Init) (h : run servedStep s₀ ops = some s) :
    FlagsExact s ∧ TableExact s := by
  refine run_invariant (P := fun t => FlagsExact t ∧ TableExact t) ?_ ?_ h
  · rintro t op t' ⟨hflags, ht⟩ hstep
    refine ⟨hflags.served hstep, ?_⟩
    cases op with
    | «open» d a => exact ht.open hflags hstep
    | release d => exact ht.release hstep
  · refine ⟨h₀.flags, by rw [h₀.irqs]; exact List.nodup_nil, fun r => ?_⟩
    simp [h₀.irqs, h₀.held]

/-- A file that is open has been opened and not released since. -/
theorem held_since {s₀ s : Files} {ops : List DriverOp} {d : Driver} (h₀ : s₀.Init)
    (h : run servedStep s₀ ops = some s) (hheld : s.held d = true) :
    Since (fun op => ∃ a, op = .open d a) (fun op => op = .release d) ops := by
  induction ops using List.reverseRecOn generalizing s with
  | nil =>
    cases h
    rw [h₀.held] at hheld
    cases hheld
  | append_singleton ops op ih =>
    obtain ⟨t, ht, hstep⟩ := run_snoc.1 h
    rw [since_snoc]
    cases op with
    | «open» e a =>
      by_cases he : d = e
      · exact Or.inl ⟨a, by rw [he]⟩
      · rw [(servedStep_open hstep).2.2.2, Function.update_of_ne he] at hheld
        exact Or.inr ⟨DriverOp.noConfusion, ih ht hheld⟩
    | release e =>
      rw [(servedStep_release hstep).2.2] at hheld
      by_cases he : d = e
      · rw [he, Function.update_self] at hheld
        cases hheld
      · rw [Function.update_of_ne he] at hheld
        refine Or.inr ⟨fun heq => he ?_, ih ht hheld⟩
        cases heq
        rfl

/-- The release of a key driver frees what its own open has registered. -/
theorem freesOwn_key {s₀ t t' : Files} {pre : List DriverOp} {n : Key} (h₀ : s₀.Init)
    (ht : run servedStep s₀ pre = some t) (hstep : servedStep t (.release (.key n)) = some t') :
    FreesOwn s₀ pre (.key n) t (keyPins n).irq := by
  obtain ⟨-, htable⟩ := table_run h₀ ht
  have hheld := (servedStep_release hstep).1
  constructor
  · intro r
    rw [htable.mem_release, not_and, not_not]
    constructor
    · rintro ⟨hr, hd⟩
      obtain ⟨m, -, rfl⟩ := (htable.mem_iff r).1 hr
      rw [← Driver.key.inj (hd hr)]
    · rintro rfl
      exact ⟨(htable.mem_iff _).2 ⟨n, hheld, rfl⟩, fun _ => rfl⟩
  · obtain ⟨pre₁, op, mid, rfl, ⟨a, rfl⟩, hmid⟩ := held_since h₀ ht hheld
    obtain ⟨t₁, ht₁, hrest⟩ := run_append.1 ht
    obtain ⟨t₂, hopen, -⟩ := run_cons.1 hrest
    obtain ⟨husage, hav, -⟩ := servedStep_open hopen
    exact ⟨pre₁, a, mid, t₁, rfl, fun hmem => hmid _ hmem rfl, ht₁, (open_available husage hav).2.2⟩

/-- **When registrations and frees match.** In a run of successful opens on the nine drivers and of releases of
their open files, the interrupt table always holds the registrations of the open key drivers, and every
`free_irq` takes away what the released file has registered, exactly if no sensor driver is released. -/
theorem registrations_balanced_iff (s₀ s : Files) (ops : List DriverOp) (h₀ : s₀.Init)
    (h : run servedStep s₀ ops = some s) : Balanced s₀ ops ↔ ∀ x, .release (.sens x) ∉ ops := by
  constructor
  · intro hbal x hmem
    obtain ⟨pre, post, heq⟩ := List.append_of_mem hmem
    obtain ⟨t, ht, -⟩ := run_append.1 (heq ▸ h)
    have hown := hbal.frees pre _ post t heq ht _ rfl
    obtain ⟨hin, -⟩ := (hown.removes _).2 rfl
    obtain ⟨n, -, hr⟩ := ((table_run h₀ ht).2.mem_iff _).1 hin
    cases congrArg Prod.snd hr
  · intro hno
    refine ⟨fun pre post t _ ht => (table_run h₀ ht).2, ?_⟩
    intro pre d post t heq ht pin hpin
    obtain ⟨u, hstep, -⟩ := run_split (heq ▸ h) ht
    cases d with
    | key n =>
      rw [Driver.freed, Option.some.injEq, keyPins_free] at hpin
      exact hpin ▸ freesOwn_key h₀ ht hstep
    | sens x => exact absurd (heq ▸ List.mem_append_right _ List.mem_cons_self) (hno x)
    | mot => cases hpin
    | dot => cases hpin

/-- A key and a sensor opened, the key released. -/
theorem registrations_balanced_iff_key : Balanced .loaded
    [.open (.key .key) ⟨true, 0⟩, .open (.sens .sens1) ⟨true, 0⟩, .release (.key .key)] := by
  obtain ⟨s, hs⟩ : ∃ s, run servedStep .loaded
    [.open (.key .key) ⟨true, 0⟩, .open (.sens .sens1) ⟨true, 0⟩, .release (.key .key)] = some s := ⟨_, rfl⟩
  exact (registrations_balanced_iff _ s _ Files.init_loaded hs).2 fun x => by simp

end CoinMachine
