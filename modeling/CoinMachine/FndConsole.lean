import CoinMachine.CMem
import CoinMachine.Lib.IntScan
import CoinMachine.Lib.Transition
/-!
# The console of the digit display (`code/fnd/test_fnd.c`)

`while (1)` reads a number and, if it is 0 to 12, writes its entry of `fnd_values` to the device. Nothing looks at
what `scanf` returns: where it stores nothing, the number of the iteration before is tested and shown again.
What `scanf` stores for a number that does not fit an `int` (`conv`), what `number` holds at the start, and
whether a sign without a digit is consumed (`takesSign`) are arbitrary.
-/

namespace CoinMachine

open Transition IntScan

/-- `fnd_values` (`:16-20`): the digits, the point, all and none. -/
def fnd_values : List Byte :=
  [0xFC, 0x60, 0xDA, 0xF2, 0x66, 0xB6, 0xBE, 0xE4, 0xFE, 0xF6, 0x01, 0xFF, 0x00]

structure FndConsole where
  number : Int
  /-- what is typed and not yet read -/
  stdin : List Char
  /-- the numbers that `scanf` has stored -/
  stored : List Int
  /-- the bytes written to the device -/
  written : List Byte

/-- What is written for a number (`:34-38`). -/
def fndByte (number : Int) : Option Byte :=
  if number < 0 ∨ number > 12 then none else fnd_values[number.toNat]?

/-- One iteration; there is always a next one. -/
def fndStep (conv : Int → Int) (takesSign : Bool) (s : FndConsole) (_ : Unit) : Option FndConsole :=
  let scanned := scanInt takesSign s.stdin
  let stored := scanned.1.map conv
  let number := stored.getD s.number
  some ⟨number, scanned.2, s.stored ++ stored.toList, s.written ++ (fndByte number).toList⟩

def FndConsole.start (number : Int) (text : List Char) : FndConsole := ⟨number, text, [], []⟩

/-- Every iteration consumes something or is the last, and what is written are the entries of the valid numbers. -/
structure ShowsTyped (conv : Int → Int) (takesSign : Bool) (number : Int) (text : List Char) : Prop where
  progress : ∀ as s s', run (fndStep conv takesSign) (.start number text) as = some s →
    fndStep conv takesSign s () = some s' → s'.stdin.length < s.stdin.length ∨ fndStep conv takesSign s' () = none
  shown : ∀ as s, run (fndStep conv takesSign) (.start number text) as = some s →
    s.written = s.stored.filterMap fndByte

variable {conv : Int → Int} {takesSign : Bool}

/-- Every number that is tested as valid has an entry. -/
theorem isSome_fndByte (number : Int) : (fndByte number).isSome ↔ 0 ≤ number ∧ number ≤ 12 := by
  unfold fndByte
  split
  case isTrue h =>
    simp only [Option.isSome_none, Bool.false_eq_true, false_iff]
    omega
  case isFalse h =>
    have hlt : number.toNat < fnd_values.length := by
      have hlen : fnd_values.length = 13 := rfl
      omega
    rw [List.getElem?_eq_getElem hlt]
    simp only [Option.isSome_some, true_iff]
    omega

/-! ## The end of every session -/

/-- `scanf` stores nothing and consumes nothing. -/
def Stuck (takesSign : Bool) (s : FndConsole) : Prop := scanInt takesSign s.stdin = (none, s.stdin)

theorem fndStep_of_none (conv : Int → Int) {s : FndConsole} (h : (scanInt takesSign s.stdin).1 = none) :
    fndStep conv takesSign s () = some { s with
      stdin := (scanInt takesSign s.stdin).2
      written := s.written ++ (fndByte s.number).toList } := by
  simp only [fndStep, h, Option.map_none, Option.getD_none, Option.toList_none, List.append_nil]

/-- An iteration shortens the text, or is stuck. -/
theorem shorter_or_stuck (takesSign : Bool) (s : FndConsole) :
    (scanInt takesSign s.stdin).2.length < s.stdin.length ∨ Stuck takesSign s := by
  have hsuffix := scanInt_suffix takesSign s.stdin
  rcases Nat.lt_or_eq_of_le hsuffix.length_le with hlt | heq
  · exact Or.inl hlt
  · refine Or.inr (Prod.ext ?_ (hsuffix.eq_of_length heq))
    cases hscan : (scanInt takesSign s.stdin).1 with
    | none => rfl
    | some v => exact absurd heq (Nat.ne_of_lt (length_lt_of_scanInt hscan))

theorem exists_stuck (conv : Int → Int) (takesSign : Bool) (text : List Char) : ∀ s : FndConsole, s.stdin = text →
    ∃ as t, run (fndStep conv takesSign) s as = some t ∧ Stuck takesSign t := by
  induction hlen : text.length using Nat.strongRecOn generalizing text with
  | _ n ih =>
    rintro s rfl
    rcases shorter_or_stuck takesSign s with hlt | hstuck
    · obtain ⟨as, t, hrun, ht⟩ := ih _ (hlen ▸ hlt) _ rfl ⟨_, (scanInt takesSign s.stdin).2, _, _⟩ rfl
      exact ⟨() :: as, t, run_cons.2 ⟨_, rfl, hrun⟩, ht⟩
    · exact ⟨[], s, rfl, hstuck⟩

/-- From there on the last number is shown in every iteration, if it is valid. -/
theorem run_stuck {s : FndConsole} (h : Stuck takesSign s) (k : Nat) :
    run (fndStep conv takesSign) s (List.replicate k ()) =
      some { s with written := s.written ++ (List.replicate k (fndByte s.number).toList).flatten } := by
  induction k generalizing s with
  | zero => simp
  | succ k ih =>
    have hstep : fndStep conv takesSign s () = some { s with written := s.written ++ (fndByte s.number).toList } := by
      rw [fndStep_of_none conv (congrArg Prod.fst h), h]
    have hstuck : Stuck takesSign { s with written := s.written ++ (fndByte s.number).toList } := h
    rw [List.replicate_succ, run, hstep, Option.bind_some, ih hstuck]
    simp only [List.replicate_succ, List.flatten_cons, List.append_assoc]

/-- **The console comes to no end.** Whatever is typed, the loop gets to an iteration that consumes nothing and is
not the last. -/
theorem showsTyped_never (conv : Int → Int) (takesSign : Bool) (number : Int) (text : List Char) :
    ¬ ShowsTyped conv takesSign number text := by
  intro h
  obtain ⟨as, s, hrun, hstuck⟩ := exists_stuck conv takesSign text (.start number text) rfl
  have hstep := fndStep_of_none conv (congrArg Prod.fst hstuck)
  rcases h.progress as s _ hrun hstep with hlt | hlast
  · dsimp only at hlt
    rw [hstuck] at hlt
    exact absurd hlt (Nat.lt_irrefl _)
  · cases hlast

/-- `5` and the end of the input: the five is shown again, and again. -/
theorem five_shown_again : ¬ ShowsTyped id true 0 ['5'] ∧
    ∃ s, run (fndStep id true) (.start 0 ['5']) [(), (), ()] = some s ∧ s.stored = [5] ∧ s.written = [0xB6, 0xB6, 0xB6] := by
  obtain ⟨s, hs, hstored, hwritten⟩ : ∃ s, run (fndStep id true) (.start 0 ['5']) [(), (), ()] = some s ∧
      s.stored = [5] ∧ s.written = [0xB6, 0xB6, 0xB6] := ⟨_, rfl, rfl, rfl⟩
  refine ⟨fun h => ?_, s, hs, hstored, hwritten⟩
  have hshown := h.shown _ s hs
  rw [hstored, hwritten] at hshown
  exact absurd hshown (by decide)

/-! ## What is written -/

/-- A stored number is shown once, if it is valid. -/
theorem fndStep_of_some {s s' : FndConsole} {v : Int} (h : (scanInt takesSign s.stdin).1 = some v)
    (hs : fndStep conv takesSign s () = some s') :
    s'.stored = s.stored ++ [conv v] ∧ s'.written = s.written ++ (fndByte (conv v)).toList := by
  simp only [fndStep, h, Option.map_some, Option.getD_some, Option.toList_some] at hs
  cases hs
  exact ⟨rfl, rfl⟩

/-- The bytes written are those of the stored numbers exactly if no number is valid when `scanf` stores none. -/
theorem shown_iff (s₀ : FndConsole) (h₀ : s₀.written = s₀.stored.filterMap fndByte) :
    (∀ as s, run (fndStep conv takesSign) s₀ as = some s → s.written = s.stored.filterMap fndByte) ↔
    ∀ as s, run (fndStep conv takesSign) s₀ as = some s → (scanInt takesSign s.stdin).1 = none →
      fndByte s.number = none := by
  constructor
  · intro hshown as s hrun hnone
    have hstep := fndStep_of_none conv hnone
    have hnext := hshown (as ++ [()]) _ (run_snoc.2 ⟨s, hrun, hstep⟩)
    dsimp only at hnext
    rw [hshown as s hrun] at hnext
    cases hbyte : fndByte s.number with
    | none => rfl
    | some b =>
      rw [hbyte] at hnext
      simp at hnext
  · intro hnone as s hrun
    refine run_along (P := fun s => s.written = s.stored.filterMap fndByte)
      (C := fun s _ => (scanInt takesSign s.stdin).1 = none → fndByte s.number = none) ?_ h₀ ?_ [] s
      (List.append_nil _).symm hrun
    · rintro s ⟨⟩ s' hs hvalid hstep
      cases hscan : (scanInt takesSign s.stdin).1 with
      | none =>
        rw [fndStep_of_none conv hscan, hvalid hscan] at hstep
        cases hstep
        simpa using hs
      | some v =>
        obtain ⟨hstored, hwritten⟩ := fndStep_of_some hscan hstep
        rw [hstored, hwritten, hs, List.filterMap_append]
        cases hbyte : fndByte (conv v) <;> simp [hbyte]
    · intro pre a post t _ ht
      exact hnone pre t ht

end CoinMachine
