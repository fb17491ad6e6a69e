import CoinMachine.Drivers
/-!
# Which edges the key drivers arm

`GPFEN0` is word 22 of the bank, one bit for each pin. Each copy of the key driver sets one bit of it at its
open (`key_driver.c:79`) and none is ever cleared. The copies name their pin in five places (`KeyPins`); in
`key_driver3.c` and `key_driver4.c` the edge bit is not that of the pin, so whether the pin is armed depends
on what the register held and on who else was opened (`edges_own_iff`).
-/

namespace CoinMachine

open Transition

/-- The bit of `GPFEN0` for a pin. -/
def Kernel.edge (k : Kernel) (pin : Nat) : Bool := (k.bus.regs 22).getLsbD pin

/-! ## What an open does to the register -/

theorem regs22_setField (b : Bus) {word : Nat} (h : word < 3) (field : Nat) (mode : Word) :
    (b.setField word field mode).regs 22 = b.regs 22 := by
  rw [regs_setField b h, Function.update_of_ne (by omega)]

theorem regs22_setFields (mode : Word) (fs : List (Nat × Nat)) (hfs : ∀ f ∈ fs, f.1 < 3) : ∀ b : Bus,
    (fs.foldl (fun b f => b.setField f.1 f.2 mode) b).regs 22 = b.regs 22 := by
  induction fs with
  | nil => exact fun b => rfl
  | cons f fs ih =>
    intro b
    rw [List.foldl_cons, ih fun f hf => hfs f (List.mem_cons_of_mem _ hf),
      regs22_setField b (hfs f List.mem_cons_self)]

/-- A successful open of a key driver sets its edge bit; the other drivers leave the register alone. -/
theorem regs22_open {d : Driver} {a : Avail} {k : Kernel} (h : 0 ≤ (d.open a k).1) :
    (d.open a k).2.bus.regs 22 =
      match d with
      | .key n => k.bus.regs 22 ||| 0x1 <<< (keyPins n).edge
      | _ => k.bus.regs 22 := by
  have hfields := regs22_setFields (d.mode.setWidth 32) d.fields (fun f hf => (fields_lt d f hf).1) k.bus
  rw [bus_open h]
  cases d with
  | key n =>
    dsimp only
    rw [hfields]
    simp only [Bus.store, Nat.reduceEqDiff, if_false, Function.update_self]
  | _ => exact hfields

theorem edge_open {d : Driver} {a : Avail} {k : Kernel} (h : 0 ≤ (d.open a k).1) {pin : Nat} (hp : pin < 32) :
    (d.open a k).2.edge pin = true ↔ k.edge pin = true ∨ ∃ n, d = .key n ∧ (keyPins n).edge = pin := by
  rw [Kernel.edge, regs22_open h]
  cases d with
  | key n =>
    have hbit : (((0x1 <<< (keyPins n).edge : Nat) : Word)).getLsbD pin = true ↔ (keyPins n).edge = pin := by
      revert hp
      revert pin
      cases n <;> decide
    rw [BitVec.getLsbD_or, Bool.or_eq_true, hbit]
    simp [Kernel.edge]
  | _ => simp [Kernel.edge]

/-- The run lemma: the bits that were set, and those that the opened key drivers name. -/
theorem edge_run {pin : Nat} (hp : pin < 32) {ops : List DriverOp} : ∀ {k k' : Kernel}, run okStep k ops = some k' →
    (k'.edge pin = true ↔ k.edge pin = true ∨ ∃ n, .key n ∈ opened ops ∧ (keyPins n).edge = pin) := by
  induction ops with
  | nil =>
    intro k k' h
    cases h
    simp [opened]
  | cons op ops ih =>
    intro k k' h
    obtain ⟨t, ht, h⟩ := run_cons.1 h
    rw [ih h]
    cases op with
    | release d =>
      cases ht
      rw [Kernel.edge, bus_release]
      rfl
    | «open» d a =>
      simp only [okStep] at ht
      split at ht
      · rename_i hok
        cases ht
        have hopen : opened (.open d a :: ops) = d :: opened ops := rfl
        rw [edge_open hok hp, hopen, or_assoc]
        refine or_congr_right ?_
        constructor
        · rintro (⟨n, rfl, hn⟩ | ⟨n, hmem, hn⟩)
          · exact ⟨n, List.mem_cons_self, hn⟩
          · exact ⟨n, List.mem_cons_of_mem _ hmem, hn⟩
        · rintro ⟨n, hmem, hn⟩
          rcases List.mem_cons.1 hmem with rfl | hmem
          · exact Or.inl ⟨n, rfl, hn⟩
          · exact Or.inr ⟨n, hmem, hn⟩
      · cases ht

/-! ## When each driver arms its own pin -/

/-- The register after the opens `ops`, from `k`: the pins of the opened key drivers are armed, by whichever
of its numbers a driver calls its pin, and the other bits are as they were. -/
structure EdgesOwn (k k' : Kernel) (ops : List DriverOp) : Prop where
  armed : ∀ n, .key n ∈ opened ops →
    k'.edge (keyPins n).input = true ∧ k'.edge (keyPins n).irq = true ∧ k'.edge (keyPins n).level = true
  others : ∀ pin < 32, (∀ n, .key n ∈ opened ops → pin ≠ (keyPins n).input) → k'.edge pin = k.edge pin

/-- Driver 3 names bit 2 for its pin 4, which is right only if bit 4 was set, and if bit 2 was too or driver 1
is open; driver 4 names bit 5 for its pin 6, which is right only if both were set. -/
structure EdgesSpared (k : Kernel) (ops : List DriverOp) : Prop where
  key3 : .key .key3 ∈ opened ops → k.edge 4 = true ∧ (.key .key ∈ opened ops ∨ k.edge 2 = true)
  key4 : .key .key4 ∈ opened ops → k.edge 6 = true ∧ k.edge 5 = true

/-- The bank after a reset, and driver 3 opened: its pin is not armed. -/
theorem edge_of_other_pin : ¬ ∀ (k k' : Kernel) (ops : List DriverOp), run okStep k ops = some k' → EdgesOwn k k' ops := by
  intro hclaim
  obtain ⟨k', hk, hedge⟩ : ∃ k', run okStep ⟨fun _ => ⟨0, none, none⟩, [], 0, [], ⟨fun _ => 0, 0⟩⟩
      [.open (.key .key3) ⟨true, 0⟩] = some k' ∧ k'.edge 4 = false := ⟨_, rfl, rfl⟩
  obtain ⟨harmed, -, -⟩ := (hclaim _ k' _ hk).armed .key3 List.mem_cons_self
  rw [show (keyPins .key3).input = 4 from rfl, hedge] at harmed
  cases harmed

/-- The three numbers by which a driver calls its pin agree. -/
theorem keyPins_input (n : Key) : (keyPins n).irq = (keyPins n).input ∧ (keyPins n).level = (keyPins n).input := by
  cases n <;> exact ⟨rfl, rfl⟩

/-- **When each key driver arms its own pin and no other.** After any successful opens of the drivers, on any
content of the register, exactly if driver 3 and driver 4 found the bits set that they do not set. -/
theorem edges_own_iff (k k' : Kernel) (ops : List DriverOp) (h : run okStep k ops = some k') :
    EdgesOwn k k' ops ↔ EdgesSpared k ops := by
  constructor
  · rintro ⟨harmed, hothers⟩
    constructor
    · intro h3
      constructor
      · -- no driver names bit 4
        rcases (edge_run (by decide) h).1 (harmed .key3 h3).1 with hset | ⟨n, -, hn⟩
        · exact hset
        · cases n <;> cases hn
      · by_cases h1 : .key .key ∈ opened ops
        · exact Or.inl h1
        · have hset : k'.edge 2 = true := (edge_run (by decide) h).2 (Or.inr ⟨.key3, h3, rfl⟩)
          refine Or.inr ((hothers 2 (by decide) fun n hn => ?_).symm.trans hset)
          intro heq
          cases n <;> first | exact h1 hn | cases heq
    · intro h4
      constructor
      · rcases (edge_run (by decide) h).1 (harmed .key4 h4).1 with hset | ⟨n, -, hn⟩
        · exact hset
        · cases n <;> cases hn
      · have hset : k'.edge 5 = true := (edge_run (by decide) h).2 (Or.inr ⟨.key4, h4, rfl⟩)
        refine (hothers 5 (by decide) fun n _ => ?_).symm.trans hset
        cases n <;> decide
  · rintro ⟨h3, h4⟩
    constructor
    · intro n hn
      obtain ⟨hirq, hlevel⟩ := keyPins_input n
      have hinput : k'.edge (keyPins n).input = true := by
        refine (edge_run (by cases n <;> decide) h).2 ?_
        cases n with
        | key => exact Or.inr ⟨.key, hn, rfl⟩
        | key2 => exact Or.inr ⟨.key2, hn, rfl⟩
        | key3 => exact Or.inl (h3 hn).1
        | key4 => exact Or.inl (h4 hn).1
      rw [hirq, hlevel]
      exact ⟨hinput, hinput, hinput⟩
    · intro pin hp hother
      rw [Bool.eq_iff_iff, edge_run hp h]
      refine ⟨fun hset => hset.elim id ?_, Or.inl⟩
      rintro ⟨n, hn, rfl⟩
      cases n with
      | key => exact absurd rfl (hother .key hn)
      | key2 => exact absurd rfl (hother .key2 hn)
      | key3 => exact (h3 hn).2.elim (fun h1 => absurd rfl (hother .key h1)) id
      | key4 => exact (h4 hn).2

/-- Keys 1 and 2 on a register full of zeros. -/
theorem edges_own_iff_key2 : ∃ k', run okStep ⟨fun _ => ⟨0, none, none⟩, [], 0, [], ⟨fun _ => 0, 0⟩⟩
      [.open (.key .key2) ⟨true, 0⟩, .open (.key .key) ⟨true, 0⟩] = some k' ∧ k'.bus.regs 22 = 12 ∧
    EdgesOwn ⟨fun _ => ⟨0, none, none⟩, [], 0, [], ⟨fun _ => 0, 0⟩⟩ k'
      [.open (.key .key2) ⟨true, 0⟩, .open (.key .key) ⟨true, 0⟩] := by
  obtain ⟨k', hk, hreg⟩ : ∃ k', run okStep ⟨fun _ => ⟨0, none, none⟩, [], 0, [], ⟨fun _ => 0, 0⟩⟩
      [.open (.key .key2) ⟨true, 0⟩, .open (.key .key) ⟨true, 0⟩] = some k' ∧ k'.bus.regs 22 = 12 := ⟨_, rfl, rfl⟩
  refine ⟨k', hk, hreg, (edges_own_iff _ k' _ hk).2 ⟨?_, ?_⟩⟩
  · intro h3
    simp [opened] at h3
  · intro h4
    simp [opened] at h4

end CoinMachine
