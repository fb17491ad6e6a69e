import CoinMachine.Gpio
import CoinMachine.Lib.Transition
/-!
# Open and release of the nine drivers of `receive/`

The drivers share the register bank and the kernel's tables: the live mappings that `ioremap` made and the
interrupt lines that `request_irq` took. What the kernel answers is an input of each call (`Avail`).

| here | there |
| --- | --- |
| `keyOpen`, `keyRelease`     | `key_driver.c:56-97`, `key_driver2.c:56-96`, `key_driver3.c`, `key_driver4.c` |
| `sensOpen`, `sensRelease`   | `sens_driver.c:28-60`, `sens_driver2.c`, `sens_driver3.c` |
| `motorOpen`, `motorRelease` | `mot_driver.c:20-48` |
| `dotOpen`, `dotRelease`     | `dot_driver.c:20-58` |

Each pin of the machine has one owner (`owner`), and an open is a sequence of field updates on the pins of
its driver only; so the function-select registers are determined by the set of drivers opened.
-/

namespace CoinMachine

/-- The four key drivers, by the descriptors of `test_mac.c`. -/
inductive Key where
  | key
  | key2
  | key3
  | key4
deriving DecidableEq, Repr

/-- The three sensor drivers. -/
inductive Sens where
  | sens1
  | sens2
  | sens3
deriving DecidableEq, Repr

inductive Driver where
  | key (k : Key)
  | sens (s : Sens)
  | mot
  | dot
deriving DecidableEq, Repr

/-! ## Pins -/

/-- The bit and pin numbers that one copy of the key driver names. -/
structure KeyPins where
  /-- field of `GPFSEL0` (`key_driver.c:75`) -/
  input : Nat
  /-- bit of `GPFEN0` (`:79`) -/
  edge : Nat
  /-- `request_irq` (`:80`) -/
  irq : Nat
  /-- bit of `GPLEV0` in the handler (`:32`) -/
  level : Nat
  /-- `free_irq` (`:95`) -/
  free : Nat

def keyPins : Key → KeyPins
  | .key => ⟨2, 2, 2, 2, 2⟩
  | .key2 => ⟨3, 3, 3, 3, 3⟩
  | .key3 => ⟨4, 2, 4, 4, 4⟩
  | .key4 => ⟨6, 5, 6, 6, 6⟩

/-- Each copy frees the interrupt that it requests. -/
theorem keyPins_free (n : Key) : (keyPins n).free = (keyPins n).irq := by cases n <;> rfl

/-- The numbers of one copy of the sensor driver. -/
structure SensPins where
  /-- word and field of the function select (`sens_driver.c:47`) -/
  word : Nat
  field : Nat
  /-- `free_irq` (`:58`) -/
  free : Nat

def sensPins : Sens → SensPins
  | .sens1 => ⟨1, 8, 18⟩
  | .sens2 => ⟨0, 7, 7⟩
  | .sens3 => ⟨0, 8, 8⟩

/-! ## The kernel -/

/-- The statics of a driver: its usage flag, `key_map` and `key`. -/
structure Dev where
  usage : Byte
  map : Option Nat
  ptr : Option Nat
deriving DecidableEq

structure Kernel where
  dev : Driver → Dev
  /-- mapped by `ioremap` and not yet passed to `iounmap` -/
  live : List Nat
  /-- the address of the next mapping -/
  next : Nat
  /-- pins whose interrupt is registered, with the driver whose handler it is -/
  irqs : List (Nat × Driver)
  bus : Bus

/-- The kernel's answers to one call of open: whether `ioremap` maps, and the result of `request_irq`. -/
structure Avail where
  ioremap : Bool
  requestIrq : Int

def EBUSY : Int := 16

/-- The part all opens share: the usage flag and the mapping (`key_driver.c:60-72`). -/
def mapGpio (d : Driver) (a : Avail) (k : Kernel) : Int × Kernel :=
  let dev := k.dev d
  if dev.usage ≠ 0 then (-EBUSY, k)
  else if a.ioremap then
    (0, { k with dev := Function.update k.dev d ⟨1, some k.next, some k.next⟩
                 live := k.next :: k.live
                 next := k.next + 1 })
  else (-EBUSY, { k with dev := Function.update k.dev d { dev with usage := 1, map := none } })

theorem mapGpio_busy {d : Driver} {k : Kernel} (h : (k.dev d).usage ≠ 0) (a : Avail) : mapGpio d a k = (-EBUSY, k) :=
  if_pos h

theorem mapGpio_unmapped {d : Driver} {a : Avail} {k : Kernel} (h : (k.dev d).usage = 0) (hmap : a.ioremap = false) :
    mapGpio d a k = (-EBUSY, { k with dev := Function.update k.dev d { k.dev d with usage := 1, map := none } }) := by
  simp [mapGpio, h, hmap]

theorem mapGpio_mapped {d : Driver} {a : Avail} {k : Kernel} (h : (k.dev d).usage = 0) (hmap : a.ioremap = true) :
    mapGpio d a k = (0, { k with dev := Function.update k.dev d ⟨1, some k.next, some k.next⟩
                                 live := k.next :: k.live
                                 next := k.next + 1 }) := by
  simp [mapGpio, h, hmap]

/-- `*(p + word) &= ~(0x7 << (3 * field)); *(p + word) |= (mode << (3 * field));` -/
def Bus.setField (b : Bus) (word field : Nat) (mode : Word) : Bus :=
  let b := b.store word (b.regs word &&& ~~~(0x7#32 <<< (3 * field)))
  b.store word (b.regs word ||| mode <<< (3 * field))

def keyOpen (n : Key) (a : Avail) (k : Kernel) : Int × Kernel :=
  let m := mapGpio (.key n) a k
  if m.1 < 0 then m
  else
    let k := m.2
    let bus := k.bus.setField 0 (keyPins n).input 0
    let bus := bus.store 22 (bus.regs 22 ||| 0x1 <<< (keyPins n).edge)
    let k := { k with bus := bus }
    if a.requestIrq < 0 then (a.requestIrq, k)
    else (0, { k with irqs := ((keyPins n).irq, .key n) :: k.irqs })

def sensOpen (s : Sens) (a : Avail) (k : Kernel) : Int × Kernel :=
  let m := mapGpio (.sens s) a k
  if m.1 < 0 then m
  else (0, { m.2 with bus := m.2.bus.setField (sensPins s).word (sensPins s).field 0 })

def motorOpen (a : Avail) (k : Kernel) : Int × Kernel :=
  let m := mapGpio .mot a k
  if m.1 < 0 then m
  else (0, { m.2 with bus := m.2.bus.setField 0 9 1 })

def dotOpen (a : Avail) (k : Kernel) : Int × Kernel :=
  let m := mapGpio .dot a k
  if m.1 < 0 then m
  else
    let bus := (List.range 8).foldl (fun bus index => bus.setField 1 index 1) m.2.bus
    (0, { m.2 with bus := (List.range 8).foldl (fun bus index2 => bus.setField 2 index2 1) bus })

/-- `usage = 0; if (p) iounmap(p);` -/
def unmapGpio (d : Driver) (k : Kernel) : Kernel :=
  let dev := k.dev d
  { k with dev := Function.update k.dev d { dev with usage := 0 }
           live := match dev.ptr with
             | some p => k.live.erase p
             | none => k.live }

/-- `free_irq(gpio_to_irq(pin), NULL)`: takes the line's handler away, whoever registered it. -/
def freeIrq (pin : Nat) (k : Kernel) : Kernel :=
  { k with irqs := k.irqs.filter fun r => r.1 ≠ pin }

def keyRelease (n : Key) (k : Kernel) : Kernel := freeIrq (keyPins n).free (unmapGpio (.key n) k)

/-- The sensor drivers free an interrupt too, although they never request one. -/
def sensRelease (s : Sens) (k : Kernel) : Kernel := freeIrq (sensPins s).free (unmapGpio (.sens s) k)

def motorRelease (k : Kernel) : Kernel := unmapGpio .mot k

def dotRelease (k : Kernel) : Kernel := unmapGpio .dot k

def Driver.open (d : Driver) (a : Avail) (k : Kernel) : Int × Kernel :=
  match d with
  | .key n => keyOpen n a k
  | .sens s => sensOpen s a k
  | .mot => motorOpen a k
  | .dot => dotOpen a k

def Driver.release (d : Driver) (k : Kernel) : Kernel :=
  match d with
  | .key n => keyRelease n k
  | .sens s => sensRelease s k
  | .mot => motorRelease k
  | .dot => dotRelease k

/-! ## Whose pin is it -/

/-- The fields of the function-select registers that a driver sets, as word and field. -/
def Driver.fields : Driver → List (Nat × Nat)
  | .key n => [(0, (keyPins n).input)]
  | .sens s => [((sensPins s).word, (sensPins s).field)]
  | .mot => [(0, 9)]
  | .dot => (List.range 8).map (Prod.mk 1) ++ (List.range 8).map (Prod.mk 2)

/-- Input for the keys and the sensors, output for the motor and the matrix. -/
def Driver.mode : Driver → BitVec 3
  | .key _ => 0
  | .sens _ => 0
  | .mot => 1
  | .dot => 1

/-- The pins of the machine. -/
def owner (pin : Nat) : Option Driver :=
  match pin with
  | 2 => some (.key .key)
  | 3 => some (.key .key2)
  | 4 => some (.key .key3)
  | 6 => some (.key .key4)
  | 7 => some (.sens .sens2)
  | 8 => some (.sens .sens3)
  | 9 => some .mot
  | 18 => some (.sens .sens1)
  | pin => if 10 ≤ pin ∧ pin ≤ 17 ∨ 20 ≤ pin ∧ pin ≤ 27 then some .dot else none

/-- Field `f` of word `n` belongs to pin `10 * n + f`, and every driver sets the fields of its own pins. -/
theorem mem_fields_iff (d : Driver) : ∀ (n : Fin 3) (f : Fin 10),
    (n.val, f.val) ∈ d.fields ↔ owner (10 * n + f) = some d := by
  cases d with
  | key k => cases k <;> decide
  | sens s => cases s <;> decide
  | mot => decide
  | dot => decide

/-! ## The function-select registers -/

/-- Writing a field: everything else in the bank stays. -/
theorem regs_setField (b : Bus) {word : Nat} (h : word < 3) (field : Nat) (mode : Word) :
    (b.setField word field mode).regs = Function.update b.regs word (BitField.put (3 * field) 3 mode (b.regs word)) := by
  have h7 : word ≠ 7 := by omega
  have h10 : word ≠ 10 := by omega
  simp only [Bus.setField, Bus.store, if_neg h7, if_neg h10, Function.update_self, Function.update_idem]
  rfl

theorem mode_fits (d : Driver) : BitField.Fits 3 (d.mode.setWidth 32) := by
  intro i hi
  rw [BitVec.getLsbD_setWidth, BitVec.getLsbD_of_ge _ i hi, Bool.and_false]

/-- The update of a list of fields, bit by bit. -/
theorem getLsbD_setFields {v : Word} (hv : BitField.Fits 3 v) (fs : List (Nat × Nat))
    (hfs : ∀ f ∈ fs, f.1 < 3 ∧ f.2 < 10) (n i : Nat) (hi : i < 32) : ∀ b : Bus,
    ((fs.foldl (fun b f => b.setField f.1 f.2 v) b).regs n).getLsbD i =
      if i < 30 ∧ (n, i / 3) ∈ fs then v.getLsbD (i % 3) else (b.regs n).getLsbD i := by
  induction fs with
  | nil => intro b; simp
  | cons f fs ih =>
    intro b
    obtain ⟨hw, hf⟩ := hfs f List.mem_cons_self
    rw [List.foldl_cons, ih (fun g hg => hfs g (List.mem_cons_of_mem _ hg)), regs_setField b hw]
    by_cases hmem : i < 30 ∧ (n, i / 3) ∈ fs
    · rw [if_pos hmem, if_pos ⟨hmem.1, List.mem_cons_of_mem _ hmem.2⟩]
    rw [if_neg hmem]
    by_cases hn : n = f.1
    · subst hn
      rw [Function.update_self, BitField.getLsbD_put hv _ _ hi]
      by_cases hin : 3 * f.2 ≤ i ∧ i < 3 * f.2 + 3
      · have hq : i / 3 = f.2 := by omega
        have hr : i % 3 = i - 3 * f.2 := by omega
        rw [if_pos hin, if_pos ⟨by omega, by rw [hq]; exact List.mem_cons_self⟩, hr]
      · have hq : i / 3 ≠ f.2 := by omega
        rw [if_neg hin, if_neg]
        rintro ⟨h30, hmem'⟩
        rcases List.mem_cons.1 hmem' with heq | hmem'
        · exact hq (congrArg Prod.snd heq)
        · exact hmem ⟨h30, hmem'⟩
    · rw [Function.update_of_ne hn, if_neg]
      rintro ⟨h30, hmem'⟩
      rcases List.mem_cons.1 hmem' with heq | hmem'
      · exact hn (congrArg Prod.fst heq)
      · exact hmem ⟨h30, hmem'⟩

theorem fields_lt (d : Driver) : ∀ f ∈ d.fields, f.1 < 3 ∧ f.2 < 10 := by
  cases d with
  | key k => cases k <;> decide
  | sens s => cases s <;> decide
  | mot => decide
  | dot => decide

theorem bus_mapGpio (d : Driver) (a : Avail) (k : Kernel) : (mapGpio d a k).2.bus = k.bus := by
  unfold mapGpio
  simp only
  split
  · rfl
  · split <;> rfl

/-- The bank after a successful open: the fields of the driver, and the edge bit of a key. -/
theorem bus_open {d : Driver} {a : Avail} {k : Kernel} (h : 0 ≤ (d.open a k).1) :
    (d.open a k).2.bus =
      let bus := d.fields.foldl (fun b f => b.setField f.1 f.2 (d.mode.setWidth 32)) k.bus
      match d with
      | .key n => bus.store 22 (bus.regs 22 ||| 0x1 <<< (keyPins n).edge)
      | _ => bus := by
  have hm := bus_mapGpio d a k
  cases d
  case key m =>
    simp only [Driver.open, keyOpen] at h ⊢
    split at h
    · omega
    · rename_i hneg
      rw [if_neg hneg, hm]
      split <;> rfl
  all_goals
    simp only [Driver.open, sensOpen, motorOpen, dotOpen] at h ⊢
    split at h
    · omega
    · rename_i hneg
      rw [if_neg hneg, hm]
      rfl

/-- A successful open updates the fields of its driver and nothing else in the words 0–2. -/
theorem regs_open {d : Driver} {a : Avail} {k : Kernel} (h : 0 ≤ (d.open a k).1) {n : Nat} (hn : n < 3) :
    (d.open a k).2.bus.regs n =
      (d.fields.foldl (fun b f => b.setField f.1 f.2 (d.mode.setWidth 32)) k.bus).regs n := by
  rw [bus_open h]
  cases d with
  | key m => exact Function.update_of_ne (by omega) _ _
  | _ => rfl

/-- The mode a pin is meant to have. -/
def pinMode (pin : Nat) : BitVec 3 := (owner pin).elim 0 Driver.mode

/-- The pin has an owner in `ds`. -/
def Owned (ds : List Driver) (pin : Nat) : Prop := ∃ d ∈ ds, owner pin = some d

instance (ds : List Driver) (pin : Nat) : Decidable (Owned ds pin) := List.decidableBEx _ _

theorem getLsbD_open {d : Driver} {a : Avail} {k : Kernel} (h : 0 ≤ (d.open a k).1) {n i : Nat} (hn : n < 3)
    (hi : i < 32) : ((d.open a k).2.bus.regs n).getLsbD i =
      if i < 30 ∧ owner (10 * n + i / 3) = some d then (pinMode (10 * n + i / 3)).getLsbD (i % 3)
      else (k.bus.regs n).getLsbD i := by
  rw [regs_open h hn, getLsbD_setFields (mode_fits d) d.fields (fields_lt d) n i hi]
  by_cases h30 : i < 30
  · have hiff := mem_fields_iff d ⟨n, hn⟩ ⟨i / 3, by omega⟩
    simp only at hiff
    by_cases ho : owner (10 * n + i / 3) = some d
    · have h3 : i % 3 < 32 := by omega
      rw [if_pos ⟨h30, hiff.2 ho⟩, if_pos ⟨h30, ho⟩, pinMode, ho, BitVec.getLsbD_setWidth, decide_eq_true h3]
      rfl
    · rw [if_neg fun hc => ho (hiff.1 hc.2), if_neg fun hc => ho hc.2]
  · rw [if_neg fun hc => h30 hc.1, if_neg fun hc => h30 hc.1]

theorem bus_release (d : Driver) (k : Kernel) : (d.release k).bus = k.bus := by
  cases d <;> rfl

/-! ## Sequences of opens -/

inductive DriverOp where
  | open (d : Driver) (a : Avail)
  | release (d : Driver)

/-- An open has to succeed. -/
def okStep (k : Kernel) : DriverOp → Option Kernel
  | .open d a => if 0 ≤ (d.open a k).1 then some (d.open a k).2 else none
  | .release d => some (d.release k)

def opened (ops : List DriverOp) : List Driver :=
  ops.filterMap fun op => match op with
    | .open d _ => some d
    | .release _ => none

/-- The run lemma: the bits of the function-select words depend on the set of opened drivers only. -/
theorem getLsbD_run {n i : Nat} (hn : n < 3) (hi : i < 32) {ops : List DriverOp} : ∀ {k k' : Kernel},
    Transition.run okStep k ops = some k' → (k'.bus.regs n).getLsbD i =
      if i < 30 ∧ Owned (opened ops) (10 * n + i / 3) then (pinMode (10 * n + i / 3)).getLsbD (i % 3)
      else (k.bus.regs n).getLsbD i := by
  induction ops with
  | nil =>
    intro k k' h
    cases h
    simp [opened, Owned]
  | cons op ops ih =>
    intro k k' h
    obtain ⟨t, ht, h⟩ := Transition.run_cons.1 h
    rw [ih h]
    cases op with
    | release d =>
      cases ht
      rw [bus_release]
      rfl
    | «open» d a =>
      simp only [okStep] at ht
      split at ht
      · rename_i hok
        cases ht
        have hopen : opened (.open d a :: ops) = d :: opened ops := rfl
        rw [getLsbD_open hok hn hi, hopen]
        by_cases h30 : i < 30
        · by_cases hown : Owned (opened ops) (10 * n + i / 3)
          · obtain ⟨e, he, heq⟩ := hown
            rw [if_pos ⟨h30, e, he, heq⟩, if_pos ⟨h30, e, List.mem_cons_of_mem _ he, heq⟩]
          · rw [if_neg fun hc => hown hc.2]
            by_cases hd : owner (10 * n + i / 3) = some d
            · rw [if_pos ⟨h30, hd⟩, if_pos ⟨h30, d, List.mem_cons_self, hd⟩]
            · rw [if_neg fun hc => hd hc.2, if_neg]
              rintro ⟨-, e, he, heq⟩
              rcases List.mem_cons.1 he with rfl | he
              · exact hd heq
              · exact hown ⟨e, he, heq⟩
        · rw [if_neg fun hc => h30 hc.1, if_neg fun hc => h30 hc.1, if_neg fun hc => h30 hc.1]
      · cases ht

/-- The 3-bit function-select field of a pin. -/
def pinField (b : Bus) (pin : Nat) : BitVec 3 := BitField.get (3 * (pin % 10)) 3 (b.regs (pin / 10))

theorem getLsbD_pinField (b : Bus) (pin : Nat) {j : Nat} (hj : j < 3) :
    (pinField b pin).getLsbD j = (b.regs (pin / 10)).getLsbD (3 * (pin % 10) + j) := by
  simp [pinField, BitField.get, hj]

theorem pinField_run {ops : List DriverOp} {k k' : Kernel} (h : Transition.run okStep k ops = some k') {pin : Nat}
    (hp : pin < 30) : pinField k'.bus pin =
      if Owned (opened ops) pin then pinMode pin else pinField k.bus pin := by
  apply BitVec.eq_of_getLsbD_eq
  intro j hj
  have hpin : 10 * (pin / 10) + (3 * (pin % 10) + j) / 3 = pin := by omega
  have hmod : (3 * (pin % 10) + j) % 3 = j := by omega
  have h30 : 3 * (pin % 10) + j < 30 := by omega
  rw [getLsbD_pinField _ _ hj, getLsbD_run (by omega) (by omega) h, hpin, hmod]
  by_cases hown : Owned (opened ops) pin
  · rw [if_pos ⟨h30, hown⟩, if_pos hown]
  · rw [if_neg fun hc => hown hc.2, if_neg hown, getLsbD_pinField _ _ hj]

/-- **The drivers share the function-select registers.** After any sequence of successful opens, with
releases anywhere between them, from any register contents: the pins of every opened driver have its mode,
every other field and the two top bits of `GPFSEL0`–`GPFSEL2` are unchanged, and two sequences that open
the same drivers leave the same three registers. -/
theorem opens_configure (k k' : Kernel) (ops : List DriverOp) (h : Transition.run okStep k ops = some k') :
    (∀ d ∈ opened ops, ∀ pin < 30, owner pin = some d → pinField k'.bus pin = d.mode) ∧
    (∀ pin < 30, (∀ d ∈ opened ops, owner pin ≠ some d) → pinField k'.bus pin = pinField k.bus pin) ∧
    (∀ n < 3, BitField.get 30 2 (k'.bus.regs n) = BitField.get 30 2 (k.bus.regs n)) ∧
    (∀ ops' k'', Transition.run okStep k ops' = some k'' → (∀ d, d ∈ opened ops' ↔ d ∈ opened ops) →
      ∀ n < 3, k''.bus.regs n = k'.bus.regs n) := by
  refine ⟨?_, ?_, ?_, ?_⟩
  · intro d hd pin hp ho
    rw [pinField_run h hp, if_pos ⟨d, hd, ho⟩, pinMode, ho]
    rfl
  · intro pin hp hno
    rw [pinField_run h hp, if_neg]
    rintro ⟨d, hd, ho⟩
    exact hno d hd ho
  · intro n hn
    apply BitVec.eq_of_getLsbD_eq
    intro j hj
    have h30 : ¬ 30 + j < 30 := by omega
    simp only [BitField.get, BitVec.getLsbD_extractLsb', hj, decide_true, Bool.true_and]
    rw [getLsbD_run hn (by omega) h, if_neg fun hc => h30 hc.1]
  · intro ops' k'' h' hsame n hn
    apply BitVec.eq_of_getLsbD_eq
    intro i hi
    have hown : Owned (opened ops') (10 * n + i / 3) ↔ Owned (opened ops) (10 * n + i / 3) := by
      simp only [Owned, hsame]
    rw [getLsbD_run hn hi h, getLsbD_run hn hi h']
    simp only [hown]

/-- The matrix and then key 3, on registers full of ones: pin 4 is input, pin 17 output, pin 5 untouched. -/
theorem opens_configure_dot_key3 : ∃ k' : Kernel,
    Transition.run okStep ⟨fun _ => ⟨0, none, none⟩, [], 0, [], ⟨fun _ => 0xFFFFFFFF, 0⟩⟩
      [.open .dot ⟨true, 0⟩, .open (.key .key3) ⟨true, 0⟩] = some k' ∧
    pinField k'.bus 4 = 0 ∧ pinField k'.bus 17 = 1 ∧ pinField k'.bus 5 = 7 := by
  obtain ⟨k', hk⟩ : ∃ k', Transition.run okStep ⟨fun _ => ⟨0, none, none⟩, [], 0, [], ⟨fun _ => 0xFFFFFFFF, 0⟩⟩
      [.open .dot ⟨true, 0⟩, .open (.key .key3) ⟨true, 0⟩] = some k' := ⟨_, rfl⟩
  obtain ⟨hmode, hkeep, -, -⟩ := opens_configure _ k' _ hk
  refine ⟨k', hk, hmode (.key .key3) (by decide) 4 (by decide) rfl, hmode .dot (by decide) 17 (by decide) rfl, ?_⟩
  rw [hkeep 5 (by decide) (by decide)]
  decide

end CoinMachine
