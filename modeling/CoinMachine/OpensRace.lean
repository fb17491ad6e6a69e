import CoinMachine.Drivers
import CoinMachine.Lib.Rmw
/-!
# Drivers opened at the same time

`Drivers` makes an open one step of the register bank. The code holds no lock: each `*(p + word) &= ..` and
`*(p + word) |= ..` is a load and a store of a word that other drivers set fields of too, and the three sensor
threads open their drivers at the same time (`receive/test_mac.c:585`, `:621`, `:658`). Here every access is a step
of its own, in any order, for any set of drivers that got past their flag and their mapping.

No order spoils the pins of a driver that is not being opened (`opens_spare_others`), but an open can be
lost as a whole; the opens come to what they come to one after another, whatever the order, if and only if every pin
of theirs in a shared register is an input that was an input before (`opens_atomic_iff`).

| here | there |
| --- | --- |
| `Driver.openOps` | `key_driver.c:75-79`, `sens_driver.c:47-48`, `mot_driver.c:35-36`, `dot_driver.c:37-47` |
-/

namespace CoinMachine

open Transition

/-- `*(p + word) &= ~(0x7 << (3 * field));` -/
def clearOp (f : Nat × Nat) : Rmw.Op Nat Word := ⟨f.1, fun v => v &&& ~~~(0x7#32 <<< (3 * f.2))⟩

/-- And then `*(p + word) |= (mode << (3 * field));` -/
def fieldOps (mode : BitVec 3) (f : Nat × Nat) : List (Rmw.Op Nat Word) :=
  [clearOp f, ⟨f.1, fun v => v ||| mode.setWidth 32 <<< (3 * f.2)⟩]

/-- `*(key + 22) |= (0x1 << edge);` -/
def Driver.edgeOps : Driver → List (Rmw.Op Nat Word)
  | .key n => [⟨22, fun v => v ||| 0x1 <<< (keyPins n).edge⟩]
  | _ => []

/-- The updates of an open, in program order. -/
def Driver.openOps (d : Driver) : List (Rmw.Op Nat Word) := d.fields.flatMap (fieldOps d.mode) ++ d.edgeOps

/-- The drivers of `ds` are being opened. -/
def opening (ds : List Driver) (b : Bus) : Rmw.State Driver Nat Word where
  mem := b.regs
  todo := fun d => if d ∈ ds then d.openOps else []
  held := fun _ => none

/-- The bank as it stands during the opens, which touch no line. -/
def Bus.during (b : Bus) (s : Rmw.State Driver Nat Word) : Bus := { b with regs := s.mem }

/-- Another driver of `ds` has a pin in the same function-select register. -/
def Shared (ds : List Driver) (pin : Nat) : Prop :=
  ∃ e ∈ ds, owner pin ≠ some e ∧ ∃ f ∈ e.fields, f.1 = pin / 10

instance (ds : List Driver) (pin : Nat) : Decidable (Shared ds pin) :=
  inferInstanceAs (Decidable (∃ e ∈ ds, owner pin ≠ some e ∧ ∃ f ∈ e.fields, f.1 = pin / 10))

theorem mem_opening {ds : List Driver} {b : Bus} {d : Driver} {op : Rmw.Op Nat Word}
    (h : op ∈ (opening ds b).todo d) : d ∈ ds ∧ op ∈ d.openOps := by
  simp only [opening] at h
  split at h
  · exact ⟨‹_›, h⟩
  · cases h

theorem quiet_opening (ds : List Driver) (b : Bus) : (opening ds b).Quiet := fun _ => rfl

theorem todo_opening (ds : List Driver) (b : Bus) (d : Driver) (h : (opening ds b).todo d ≠ []) : d ∈ ds := by
  simp only [opening] at h
  split at h
  · assumption
  · exact absurd rfl h

theorem owner_of_field {d : Driver} {f : Nat × Nat} (hf : f ∈ d.fields) : owner (10 * f.1 + f.2) = some d :=
  (mem_fields_iff d ⟨f.1, (fields_lt d f hf).1⟩ ⟨f.2, (fields_lt d f hf).2⟩).1 hf

theorem field_of_owner {d : Driver} {pin : Nat} (hp : pin < 30) (ho : owner pin = some d) :
    (pin / 10, pin % 10) ∈ d.fields := by
  have hpin : 10 * (pin / 10) + pin % 10 = pin := by omega
  refine (mem_fields_iff d ⟨pin / 10, by omega⟩ ⟨pin % 10, by omega⟩).2 ?_
  simp only [hpin, ho]

theorem clearOp_mem {d : Driver} {f : Nat × Nat} (hf : f ∈ d.fields) : clearOp f ∈ d.openOps :=
  List.mem_append_left _ (List.mem_flatMap.2 ⟨f, hf, List.mem_cons_self⟩)

/-! ## One update -/

/-- An update of a function-select register is one of the two of a field of its driver. -/
theorem openOps_cases {d : Driver} {op : Rmw.Op Nat Word} (h : op ∈ d.openOps) (ha : op.addr < 3) :
    ∃ f ∈ d.fields, f.1 = op.addr ∧
      (op.upd = (fun v => v &&& ~~~BitField.lift 32 (3 * f.2) 7#3) ∨
        op.upd = (fun v => v ||| BitField.lift 32 (3 * f.2) d.mode)) := by
  rcases List.mem_append.1 h with h | h
  · obtain ⟨f, hf, hop⟩ := List.mem_flatMap.1 h
    simp only [fieldOps, List.mem_cons, List.not_mem_nil, or_false] at hop
    rcases hop with rfl | rfl
    · exact ⟨f, hf, rfl, Or.inl rfl⟩
    · exact ⟨f, hf, rfl, Or.inr rfl⟩
  · unfold Driver.edgeOps at h
    split at h
    · simp only [List.mem_cons, List.not_mem_nil, or_false] at h
      subst h
      simp at ha
    · cases h

theorem clear_seven (x : BitVec 3) : x &&& ~~~7#3 = 0 := by
  revert x
  decide

theorem get_clearOp {w f : Nat} (hf : f < 10) (v : Word) : BitField.get (3 * f) 3 ((clearOp (w, f)).upd v) = 0 :=
  (BitField.get_clear_lift (by omega) 7#3 v).trans (clear_seven _)

section Update
variable {d : Driver} {op : Rmw.Op Nat Word} {pin : Nat} (hop : op ∈ d.openOps) (hp : pin < 30)
  (ha : op.addr = pin / 10)
include hop hp ha

/-- An update leaves the pins of others alone. -/
theorem update_other (ho : owner pin ≠ some d) (v : Word) :
    BitField.get (3 * (pin % 10)) 3 (op.upd v) = BitField.get (3 * (pin % 10)) 3 v := by
  obtain ⟨f, hf, hword, hupd⟩ := openOps_cases hop (by omega)
  have hlt := (fields_lt d f hf).2
  have hne : f.2 ≠ pin % 10 := by
    intro heq
    have hown := owner_of_field hf
    rw [hword, ha, heq, Nat.div_add_mod] at hown
    exact ho hown
  rcases hupd with hupd | hupd <;> rw [hupd]
  · exact BitField.get_clear_lift_disjoint (by omega) (by omega) _ _
  · exact BitField.get_or_lift_disjoint (by omega) (by omega) _ _

/-- On a pin of its own driver an update clears the field, sets it, or is about another field. -/
theorem update_own (v : Word) :
    BitField.get (3 * (pin % 10)) 3 (op.upd v) = BitField.get (3 * (pin % 10)) 3 v ∨
    BitField.get (3 * (pin % 10)) 3 (op.upd v) = 0 ∨
    BitField.get (3 * (pin % 10)) 3 (op.upd v) = BitField.get (3 * (pin % 10)) 3 v ||| d.mode := by
  obtain ⟨f, hf, hword, hupd⟩ := openOps_cases hop (by omega)
  have hlt := (fields_lt d f hf).2
  by_cases heq : f.2 = pin % 10
  · rcases hupd with hupd | hupd <;> rw [hupd, heq]
    · rw [BitField.get_clear_lift (by omega), clear_seven]
      exact Or.inr (Or.inl rfl)
    · rw [BitField.get_or_lift (by omega)]
      exact Or.inr (Or.inr rfl)
  · refine Or.inl ?_
    rcases hupd with hupd | hupd <;> rw [hupd]
    · exact BitField.get_clear_lift_disjoint (by omega) (by omega) _ _
    · exact BitField.get_or_lift_disjoint (by omega) (by omega) _ _

end Update

/-- The two top bits are nobody's. -/
theorem update_top {d : Driver} {op : Rmw.Op Nat Word} (hop : op ∈ d.openOps) (ha : op.addr < 3) (v : Word) :
    BitField.get 30 2 (op.upd v) = BitField.get 30 2 v := by
  obtain ⟨f, hf, -, hupd⟩ := openOps_cases hop ha
  have hlt := (fields_lt d f hf).2
  rcases hupd with hupd | hupd <;> rw [hupd]
  · exact BitField.get_clear_lift_disjoint (by omega) (by omega) _ _
  · exact BitField.get_or_lift_disjoint (by omega) (by omega) _ _

/-! ## Every moment of every order -/

section Order
variable {ds : List Driver} {b : Bus} {is : List Driver} {s : Rmw.State Driver Nat Word}
  (h : run Rmw.step (opening ds b) is = some s)
include h

/-- What the updates of all the drivers keep of a pin. -/
theorem pinField_closed {S : BitVec 3 → Prop} {pin : Nat}
    (hS : ∀ d ∈ ds, ∀ op ∈ d.openOps, op.addr = pin / 10 → ∀ v, S (BitField.get (3 * (pin % 10)) 3 v) →
      S (BitField.get (3 * (pin % 10)) 3 (op.upd v)))
    (h0 : S (pinField b pin)) : S (pinField (b.during s) pin) :=
  Rmw.mem_closed (S := fun v => S (BitField.get (3 * (pin % 10)) 3 v)) h (quiet_opening ds b)
    (fun d op hop ha v hv => hS d (mem_opening hop).1 op (mem_opening hop).2 ha v hv) h0

theorem pinField_unowned {pin : Nat} (hp : pin < 30) (ho : ¬ Owned ds pin) :
    pinField (b.during s) pin = pinField b pin := by
  refine pinField_closed h (S := fun x => x = pinField b pin) (fun d hd op hop ha v hv => ?_) rfl
  rw [update_other hop hp ha (fun heq => ho ⟨d, hd, heq⟩) v, hv]

theorem pinField_owned {pin : Nat} (hp : pin < 30) : pinField (b.during s) pin = pinField b pin ∨
    pinField (b.during s) pin = 0 ∨ pinField (b.during s) pin = pinMode pin ∨
    pinField (b.during s) pin = pinField b pin ||| pinMode pin := by
  refine pinField_closed h (S := fun x => x = pinField b pin ∨ x = 0 ∨ x = pinMode pin ∨
    x = pinField b pin ||| pinMode pin) (fun d hd op hop ha v hv => ?_) (Or.inl rfl)
  by_cases ho : owner pin = some d
  · have hmode : d.mode = pinMode pin := by rw [pinMode, ho]; rfl
    rcases update_own hop hp ha v with heq | heq | heq <;> rw [heq]
    · exact hv
    · exact Or.inr (Or.inl rfl)
    · rw [hmode]
      rcases hv with hv | hv | hv | hv <;> rw [hv]
      · exact Or.inr (Or.inr (Or.inr rfl))
      · exact Or.inr (Or.inr (Or.inl (BitVec.zero_or)))
      · exact Or.inr (Or.inr (Or.inl (BitVec.or_self)))
      · exact Or.inr (Or.inr (Or.inr (by rw [BitVec.or_assoc, BitVec.or_self])))
  · rw [update_other hop hp ha ho v]
    exact hv

theorem top_opening {n : Nat} (hn : n < 3) : BitField.get 30 2 (s.mem n) = BitField.get 30 2 (b.regs n) :=
  Rmw.mem_closed (S := fun v => BitField.get 30 2 v = BitField.get 30 2 (b.regs n)) h (quiet_opening ds b)
    (fun d op hop ha v hv => (update_top (mem_opening hop).2 (by omega) v).trans hv) rfl

end Order

/-- **An open disturbs nobody.** While any drivers are being opened at the same time, at every moment of every order of
their accesses: every pin that none of them owns has the mode it had, and so have the two top bits of each register; and
a pin of theirs has its old mode, or none, or the one it is given, or the old and the new mixed. -/
theorem opens_spare_others (ds : List Driver) (b : Bus) (is : List Driver) (s : Rmw.State Driver Nat Word)
    (h : run Rmw.step (opening ds b) is = some s) :
    (∀ pin < 30, ¬ Owned ds pin → pinField (b.during s) pin = pinField b pin) ∧
    (∀ n < 3, BitField.get 30 2 (s.mem n) = BitField.get 30 2 (b.regs n)) ∧
    ∀ pin < 30, pinField (b.during s) pin = pinField b pin ∨ pinField (b.during s) pin = 0 ∨
      pinField (b.during s) pin = pinMode pin ∨ pinField (b.during s) pin = pinField b pin ||| pinMode pin :=
  ⟨fun _ hp ho => pinField_unowned h hp ho, fun _ hn => top_opening h hn, fun _ hp => pinField_owned h hp⟩

/-- The sensor threads 2 and 3 under way, on registers full of ones: the motor's pin keeps its bits. -/
theorem opens_spare_others_stale : ∃ s,
    run Rmw.step (opening [.sens .sens2, .sens .sens3] ⟨fun _ => 0xFFFFFFFF, 0⟩)
      [.sens .sens2, .sens .sens3, .sens .sens2, .sens .sens3] = some s ∧
    pinField (Bus.during ⟨fun _ => 0xFFFFFFFF, 0⟩ s) 9 = 7 := by
  obtain ⟨s, hs⟩ : ∃ s, run Rmw.step (opening [.sens .sens2, .sens .sens3] ⟨fun _ => 0xFFFFFFFF, 0⟩)
      [.sens .sens2, .sens .sens3, .sens .sens2, .sens .sens3] = some s := ⟨_, rfl⟩
  refine ⟨s, hs, ?_⟩
  rw [(opens_spare_others _ _ _ s hs).1 9 (by decide) (by decide)]
  decide

/-! ## One after another -/

theorem effect_fields (mode : BitVec 3) (n : Nat) {fs : List (Nat × Nat)} :
    (∀ f ∈ fs, f.1 < 3) → ∀ b : Bus, Rmw.effect n (fs.flatMap (fieldOps mode)) (b.regs n) =
      (fs.foldl (fun b f => b.setField f.1 f.2 (mode.setWidth 32)) b).regs n := by
  induction fs with
  | nil => exact fun _ _ => rfl
  | cons f fs ih =>
    intro hfs b
    have hfield : Rmw.effect n (fieldOps mode f) (b.regs n) = (b.setField f.1 f.2 (mode.setWidth 32)).regs n := by
      rw [regs_setField b (hfs f List.mem_cons_self)]
      by_cases hn : f.1 = n
      · subst hn
        simp [Rmw.effect, fieldOps, clearOp, BitField.put, BitField.mask]
      · simp [Rmw.effect, fieldOps, clearOp, hn, Function.update_of_ne (Ne.symm hn)]
    rw [List.flatMap_cons, Rmw.effect_append, hfield, ih fun g hg => hfs g (List.mem_cons_of_mem _ hg)]
    rfl

/-- An open that nobody interrupts is the open of `Drivers`. -/
theorem regs_openOps {d : Driver} {a : Avail} {k : Kernel} (h : 0 ≤ (d.open a k).1) (n : Nat) :
    (d.open a k).2.bus.regs n = Rmw.effect n d.openOps (k.bus.regs n) := by
  have hfields := effect_fields d.mode n (fun f hf => (fields_lt d f hf).1) k.bus
  rw [bus_open h, Driver.openOps, Rmw.effect_append, hfields]
  cases d with
  | key m =>
    by_cases hn : n = 22
    · subst hn
      simp [Rmw.effect, Driver.edgeOps, Bus.store]
    · simp [Rmw.effect, Driver.edgeOps, Bus.store, hn, Ne.symm hn]
  | _ => rfl

theorem effect_edgeOps (d : Driver) {n : Nat} (hn : n < 3) (v : Word) : Rmw.effect n d.edgeOps v = v := by
  cases d with
  | key m => simp [Rmw.effect, Driver.edgeOps, show ¬ 22 = n by omega]
  | _ => rfl

/-- Its updates give a pin of a driver the mode it is meant to have. -/
theorem pin_effect {d : Driver} {pin : Nat} (hp : pin < 30) (ho : owner pin = some d) (b : Bus) :
    BitField.get (3 * (pin % 10)) 3 (Rmw.effect (pin / 10) d.openOps (b.regs (pin / 10))) = pinMode pin := by
  have hmode : d.mode = pinMode pin := by rw [pinMode, ho]; rfl
  have hpin : 10 * (pin / 10) + pin % 10 = pin := by omega
  rw [Driver.openOps, Rmw.effect_append, effect_fields d.mode _ (fun f hf => (fields_lt d f hf).1),
    effect_edgeOps d (by omega)]
  apply BitVec.eq_of_getLsbD_eq
  intro j hj
  have hq : (3 * (pin % 10) + j) / 3 = pin % 10 := by omega
  have hr : (3 * (pin % 10) + j) % 3 = j := by omega
  simp only [BitField.get, BitVec.getLsbD_extractLsb', hj, decide_true, Bool.true_and]
  rw [getLsbD_setFields (mode_fits d) d.fields (fields_lt d) _ _ (by omega), hq, hr,
    if_pos ⟨by omega, field_of_owner hp ho⟩, hmode, BitVec.getLsbD_setWidth]
  simp [show j < 32 by omega]

/-! ## In any order -/

/-- All the opens are done, and every pin has its mode. -/
theorem pin_alone {ds is : List Driver} {b : Bus} {s : Rmw.State Driver Nat Word} {pin : Nat}
    (h : run Rmw.step (opening ds b) is = some s) (hdone : s.Done) (hp : pin < 30) (ho : Owned ds pin)
    (halone : ¬ Shared ds pin) : pinField (b.during s) pin = pinMode pin := by
  obtain ⟨d, hd, ho⟩ := ho
  have hmem := Rmw.mem_alone (a := pin / 10) (d := d) h (quiet_opening ds b) (fun e hne op hop ha => ?_) hdone
  · have htodo : (opening ds b).todo d = d.openOps := if_pos hd
    rw [pinField]
    show BitField.get _ _ (s.mem (pin / 10)) = _
    rw [hmem, htodo]
    exact pin_effect hp ho b
  · obtain ⟨he, hop⟩ := mem_opening hop
    obtain ⟨f, hf, hword, -⟩ := openOps_cases hop (by omega)
    refine halone ⟨e, he, fun heq => hne ?_, f, hf, hword.trans ha⟩
    exact Option.some.inj (heq.symm.trans ho)

/-- A moment when only the owner has moved and the pin does not have its mode: before the open begins, or when the
field has been cleared. -/
theorem exists_unset {ds : List Driver} {b : Bus} {d : Driver} {pin : Nat} (hp : pin < 30) (hd : d ∈ ds)
    (ho : owner pin = some d) (hbad : ¬(pinMode pin = 0 ∧ pinField b pin = 0)) :
    ∃ is t, run Rmw.step (opening ds b) is = some t ∧ t.Quiet ∧
      (∀ i, i ≠ d → t.todo i = (opening ds b).todo i) ∧ pinField (b.during t) pin ≠ pinMode pin := by
  by_cases hmode : pinMode pin = 0
  · refine ⟨[], opening ds b, rfl, quiet_opening ds b, fun _ _ => rfl, fun heq => hbad ⟨hmode, ?_⟩⟩
    rw [← hmode]
    exact heq
  · obtain ⟨pre, post, hsplit⟩ := List.append_of_mem (clearOp_mem (field_of_owner hp ho))
    have htodo : (opening ds b).todo d = pre ++ [clearOp (pin / 10, pin % 10)] ++ post := by
      rw [show (opening ds b).todo d = d.openOps from if_pos hd, hsplit, List.append_cons]
    obtain ⟨is, t, hrun, htodo', hheld, hmem⟩ := Rmw.exists_solo d htodo rfl
    refine ⟨is, t, hrun, fun i => by rw [hheld]; rfl, fun i hi => by rw [htodo', Function.update_of_ne hi], ?_⟩
    intro heq
    refine hmode ?_
    have hzero : BitField.get (3 * (pin % 10)) 3 (t.mem (pin / 10)) = 0 := by
      rw [hmem, Rmw.effect_append, Rmw.effect_cons, Rmw.effect_nil, if_pos (by rfl)]
      exact get_clearOp (by omega) _
    rw [← heq]
    exact hzero

/-- An order in which the pin of a driver does not get its mode: another driver loads the register at such a moment,
and stores it when the open is over. -/
theorem exists_lost {ds : List Driver} {b : Bus} {pin : Nat} (hp : pin < 30) (ho : Owned ds pin)
    (hshared : Shared ds pin) (hbad : ¬(pinMode pin = 0 ∧ pinField b pin = 0)) :
    ∃ is s, run Rmw.step (opening ds b) is = some s ∧ s.Done ∧ pinField (b.during s) pin ≠ pinMode pin := by
  obtain ⟨d, hd, ho⟩ := ho
  obtain ⟨e, he, hoe, f, hf, hword⟩ := hshared
  have hne : e ≠ d := fun heq => hoe (by rw [heq]; exact ho)
  obtain ⟨is, t, hrun, hquiet, hother, hunset⟩ := exists_unset hp hd ho hbad
  have hop : clearOp f ∈ t.todo e := by
    rw [hother e hne, show (opening ds b).todo e = e.openOps from if_pos he]
    exact clearOp_mem hf
  have hleft : ∀ i, t.todo i ≠ [] → i ∈ ds := by
    intro i hi
    rcases eq_or_ne i d with rfl | hid
    · exact hd
    · exact todo_opening ds b i (by rwa [hother i hid] at hi)
  have hkeep : ∀ i, i ≠ d → ∀ op ∈ t.todo i, op.addr = pin / 10 → ∀ v,
      BitField.get (3 * (pin % 10)) 3 (op.upd v) = BitField.get (3 * (pin % 10)) 3 v := by
    intro i hi op hmem ha v
    rw [hother i hi] at hmem
    exact update_other (mem_opening hmem).2 hp ha (fun heq => hi (Option.some.inj (heq.symm.trans ho))) v
  obtain ⟨js, s, hrun', hdone, hfield⟩ := Rmw.lost_update _ ds hquiet hleft hne hop hword hkeep
  refine ⟨is ++ js, s, run_append.2 ⟨t, hrun, hrun'⟩, hdone, fun heq => hunset ?_⟩
  rw [← heq]
  exact hfield.symm

/-- Two banks with the same pins and the same top bits have the same function-select registers. -/
theorem regs_ext {b b' : Bus} {n : Nat} (hn : n < 3) (hpins : ∀ pin < 30, pinField b pin = pinField b' pin)
    (htop : BitField.get 30 2 (b.regs n) = BitField.get 30 2 (b'.regs n)) : b.regs n = b'.regs n := by
  apply BitVec.eq_of_getLsbD_eq
  intro i hi
  by_cases h30 : i < 30
  · have hpin := congrArg (fun x => x.getLsbD (i % 3)) (hpins (10 * n + i / 3) (by omega))
    simp only [getLsbD_pinField _ _ (Nat.mod_lt i (by decide : 0 < 3))] at hpin
    rw [show (10 * n + i / 3) / 10 = n by omega, show 3 * ((10 * n + i / 3) % 10) + i % 3 = i by omega] at hpin
    exact hpin
  · have hbit := congrArg (fun x => x.getLsbD (i - 30)) htop
    simp only [BitField.get, BitVec.getLsbD_extractLsb', show i - 30 < 2 by omega, decide_true, Bool.true_and,
      show 30 + (i - 30) = i by omega] at hbit
    exact hbit

theorem top_run {ops : List DriverOp} {k k' : Kernel} (h : run okStep k ops = some k') {n : Nat} (hn : n < 3) :
    BitField.get 30 2 (k'.bus.regs n) = BitField.get 30 2 (k.bus.regs n) := by
  apply BitVec.eq_of_getLsbD_eq
  intro j hj
  simp only [BitField.get, BitVec.getLsbD_extractLsb', hj, decide_true, Bool.true_and]
  rw [getLsbD_run hn (by omega) h, if_neg fun hc => absurd hc.1 (by omega)]

/-- **When opens are atomic.** Take any sequence of opens that succeed one after another, and let the same drivers be
opened at the same time, on the same registers: they end with the same function-select registers in every order of
their accesses if and only if each of their pins that shares its register with a pin of another of them is to
be an input and is one before. -/
theorem opens_atomic_iff (k k' : Kernel) (ops : List DriverOp) (h : run okStep k ops = some k') :
    (∀ is s, run Rmw.step (opening (opened ops) k.bus) is = some s → s.Done → ∀ n < 3, s.mem n = k'.bus.regs n) ↔
      ∀ pin < 30, Owned (opened ops) pin → Shared (opened ops) pin → pinMode pin = 0 ∧ pinField k.bus pin = 0 := by
  constructor
  · intro hall pin hp ho hshared
    by_contra hbad
    obtain ⟨is, s, hrun, hdone, hne⟩ := exists_lost hp ho hshared hbad
    refine hne ?_
    have hsame : pinField (k.bus.during s) pin = pinField k'.bus pin :=
      congrArg (BitField.get (3 * (pin % 10)) 3) (hall is s hrun hdone (pin / 10) (by omega))
    rw [hsame, pinField_run h hp, if_pos ho]
  · intro hcond is s hrun hdone n hn
    have hpins : ∀ pin < 30, pinField (k.bus.during s) pin = pinField k'.bus pin := by
      intro pin hp
      rw [pinField_run h hp]
      by_cases ho : Owned (opened ops) pin
      · rw [if_pos ho]
        by_cases hshared : Shared (opened ops) pin
        · obtain ⟨hmode, hfield⟩ := hcond pin hp ho hshared
          have hfour := pinField_owned hrun hp
          rw [hmode, hfield] at hfour
          simpa [hmode] using hfour
        · exact pin_alone hrun hdone hp ho hshared
      · rw [if_neg ho]
        exact pinField_unowned hrun hp ho
    exact regs_ext (b := k.bus.during s) hn hpins ((top_opening hrun hn).trans (top_run h hn).symm)

/-- The opens of the three sensor threads. -/
def sensorOpens : List DriverOp :=
  [.open (.sens .sens1) ⟨true, 0⟩, .open (.sens .sens2) ⟨true, 0⟩, .open (.sens .sens3) ⟨true, 0⟩]

/-- Sensors 2 and 3 share a register. -/
example : ∀ pin < 30, (Owned (opened sensorOpens) pin ∧ Shared (opened sensorOpens) pin ↔ pin = 7 ∨ pin = 8) := by
  decide

/-- After a reset the threads can open the sensors in any order. -/
theorem opens_atomic_iff_sensors : ∃ k' : Kernel,
    run okStep ⟨fun _ => ⟨0, none, none⟩, [], 0, [], ⟨fun _ => 0, 0⟩⟩ sensorOpens = some k' ∧
    ∀ is s, run Rmw.step (opening (opened sensorOpens) ⟨fun _ => 0, 0⟩) is = some s → s.Done →
      ∀ n < 3, s.mem n = k'.bus.regs n := by
  obtain ⟨k', hk⟩ : ∃ k', run okStep ⟨fun _ => ⟨0, none, none⟩, [], 0, [], ⟨fun _ => 0, 0⟩⟩ sensorOpens = some k' :=
    ⟨_, rfl⟩
  refine ⟨k', hk, (opens_atomic_iff _ k' _ hk).2 fun pin _ ho _ => ⟨?_, ?_⟩⟩
  · obtain ⟨d, hd, ho⟩ := ho
    simp only [sensorOpens, opened, List.filterMap_cons, List.filterMap_nil, List.mem_cons, List.not_mem_nil,
      or_false] at hd
    rw [pinMode, ho]
    rcases hd with rfl | rfl | rfl <;> rfl
  · simp [pinField, BitField.get]

end CoinMachine
