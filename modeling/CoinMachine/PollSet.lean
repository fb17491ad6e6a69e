import CoinMachine.Phases
/-!
# Where the report loop keeps its poll set

`main` declares four arrays of one `struct pollfd` each (`test_mac.c:35`), and the report loop uses
`key2_ev[0]` to `key2_ev[3]` (`:152-162`, `:176`, `:182`, `:260`, `:482`). `Machine` takes the array as large
enough; here the entries are addresses on the stack of `main`, with the sizes of the arrays as a parameter. Where
the compiler puts the arrays, and what the branches of the loop write to their own locals, is arbitrary
(`Frame`); only the declared entries of the arrays belong to nobody else.

| here | there |
| --- | --- |
| `declared`     | `struct pollfd key_ev[1], key2_ev[1], key3_ev[1], key4_ev[1];` (`:35`) |
| `Frame.fill`   | `:152-159` |
| `Frame.poll`   | `:161` |
| `Frame.round`  | one iteration of `while (mac_state == 2)` |
-/

namespace CoinMachine

open Transition

inductive EvArray where
  | key_ev
  | key2_ev
  | key3_ev
  | key4_ev
deriving DecidableEq

/-- The declared sizes. -/
def declared : EvArray → Nat := fun _ => 1

/-- A stack frame of `main`, in units of `struct pollfd`. -/
structure Frame (size : EvArray → Nat) where
  base : EvArray → Nat
  disjoint : ∀ x y, x ≠ y → ∀ i < size x, ∀ j < size y, base x + i ≠ base y + j
  /-- what serving a report does to the frame -/
  locals : Report → (Nat → PollFd) → Nat → PollFd
  /-- a branch has its own locals -/
  locals_keep : ∀ r mem x, ∀ i < size x, locals r mem (base x + i) = mem (base x + i)

/-- The entries of `key2_ev` that the loop fills, in order (`:152-159`). -/
def filledEntries : List (Fin 4) := List.finRange 4

/-- The second argument of `poll` (`:161`). -/
def nfds : Nat := 4

/-- One iteration: the frame after it, the entries of `key2_ev` that were tested with the outcomes, and whether the
loop goes on. -/
structure Round where
  mem : Nat → PollFd
  tested : List (Fin 4 × Bool)
  running : Bool

/-- The entries of `key2_ev` that an iteration fills, polls or tests. -/
def Round.touched (r : Round) : List Nat :=
  filledEntries.map Fin.val ++ List.range nfds ++ r.tested.map fun t => t.1.val

namespace Frame

variable {size : EvArray → Nat} (f : Frame size)

/-- `&key2_ev[i]` -/
def addr (i : Fin 4) : Nat := f.base .key2_ev + i

/-- `key2_ev[i].fd = …; key2_ev[i].events = POLLIN;` -/
def fill (mem : Nat → PollFd) (i : Fin 4) : Nat → PollFd :=
  Function.update mem (f.addr i) { mem (f.addr i) with fd := entryKey i, events := true }

/-- `poll(key2_ev, 4, …)` -/
def poll (p : Polled) (mem : Nat → PollFd) (a : Nat) : PollFd :=
  if f.base .key2_ev ≤ a ∧ a < f.base .key2_ev + nfds then (mem a).poll p else mem a

/-- The branches, each with its test. -/
def tests (mem : Nat → PollFd) : List Report → (Nat → PollFd) × List (Fin 4 × Bool)
  | [] => (mem, [])
  | r :: rs =>
    let ready := (mem (f.addr r.entry)).revents
    let t := tests (if ready then f.locals r mem else mem) rs
    (t.1, (r.entry, ready) :: t.2)

/-- An iteration from its first statement; without an answer it stays in the `poll`. -/
def round (mem : Nat → PollFd) (answer : Option Polled) : Round :=
  let filled := filledEntries.foldl f.fill mem
  match answer with
  | none => ⟨filled, [], false⟩
  | some .error => ⟨f.poll .error filled, [], false⟩
  | some (.events revents) =>
    let polled := f.poll (.events revents) filled
    if (polled (f.addr offEntry)).revents then ⟨polled, [(offEntry, true)], false⟩
    else
      let t := f.tests polled [.totalMoney, .eachCoin, .totalCoin]
      ⟨t.1, (offEntry, false) :: t.2, true⟩

/-- The iterations from one on, each with the frame and the answer it starts from. -/
def rounds : (Nat → PollFd) → List Polled → List ((Nat → PollFd) × Option Polled)
  | mem, [] => [(mem, none)]
  | mem, p :: ps =>
    (mem, some p) :: if (f.round mem (some p)).running then rounds (f.round mem (some p)).mem ps else []

/-- The report loop: nothing in it writes `mac_state`. -/
def reportLoop (mac_state : Int) (mem : Nat → PollFd) (ps : List Polled) : List ((Nat → PollFd) × Option Polled) :=
  if mac_state = 2 then f.rounds mem ps else []

/-- The iteration stays in its array, leaves the other arrays alone, and tests what its own poll has reported. -/
structure RoundOwn (mem : Nat → PollFd) (answer : Option Polled) : Prop where
  inside : ∀ i ∈ (f.round mem answer).touched, i < size .key2_ev
  others : ∀ x, x ≠ .key2_ev → ∀ i < size x, (f.round mem answer).mem (f.base x + i) = mem (f.base x + i)
  reported : ∀ revents, answer = some (.events revents) →
    ∀ t ∈ (f.round mem answer).tested, t.2 = revents (entryKey t.1)

/-- Every iteration of a run does. -/
def PollsOwn (mac_state : Int) (mem : Nat → PollFd) (ps : List Polled) : Prop :=
  ∀ x ∈ f.reportLoop mac_state mem ps, f.RoundOwn x.1 x.2

/-! ## What an iteration leaves in the frame -/

/-- An address that is no entry of the poll set stays as it is until the branches. -/
theorem fill_other {a : Nat} (ha : ∀ i, a ≠ f.addr i) (is : List (Fin 4)) : ∀ mem : Nat → PollFd,
    is.foldl f.fill mem a = mem a := by
  induction is with
  | nil => exact fun mem => rfl
  | cons i is ih =>
    intro mem
    rw [List.foldl_cons, ih, fill, Function.update_of_ne (ha i)]

theorem poll_other {a : Nat} (ha : ∀ i, a ≠ f.addr i) (p : Polled) (mem : Nat → PollFd) : f.poll p mem a = mem a := by
  refine if_neg ?_
  rintro ⟨hle, hlt⟩
  rw [nfds] at hlt
  exact ha ⟨a - f.base .key2_ev, by omega⟩ (by simp only [addr]; omega)

/-- `poll` gets every entry of the poll set. -/
theorem addr_polled (i : Fin 4) : f.base .key2_ev ≤ f.addr i ∧ f.addr i < f.base .key2_ev + nfds := by
  rw [addr, nfds]
  omega

theorem addr_inj {i j : Fin 4} (h : f.addr i = f.addr j) : i = j := Fin.ext (Nat.add_left_cancel h)

theorem fill_addr (mem : Nat → PollFd) (i j : Fin 4) :
    f.fill mem j (f.addr i) = if i = j then ⟨entryKey i, true, (mem (f.addr i)).revents⟩ else mem (f.addr i) := by
  by_cases h : i = j
  · rw [if_pos h, ← h, fill, Function.update_self]
  · rw [if_neg h, fill, Function.update_of_ne fun heq => h (f.addr_inj heq)]

theorem fills_addr (i : Fin 4) (is : List (Fin 4)) : ∀ mem : Nat → PollFd,
    is.foldl f.fill mem (f.addr i) =
      if i ∈ is then ⟨entryKey i, true, (mem (f.addr i)).revents⟩ else mem (f.addr i) := by
  induction is with
  | nil => exact fun mem => rfl
  | cons j is ih =>
    intro mem
    rw [List.foldl_cons, ih, fill_addr]
    by_cases hj : i = j
    · simp [hj]
    · simp [hj]

/-- The entries of the poll set after the poll. -/
theorem poll_fill (p : Polled) (mem : Nat → PollFd) (i : Fin 4) :
    f.poll p (filledEntries.foldl f.fill mem) (f.addr i) =
      PollFd.poll ⟨entryKey i, true, (mem (f.addr i)).revents⟩ p := by
  rw [poll, if_pos (f.addr_polled i), fills_addr, if_pos (show i ∈ filledEntries from List.mem_finRange i)]

/-- The entries of a poll set of four. -/
theorem touched_lt (r : Round) : ∀ i ∈ r.touched, i < 4 := by
  intro i hi
  simp only [Round.touched, List.mem_append, List.mem_map, List.mem_range] at hi
  rcases hi with (⟨j, -, rfl⟩ | hi) | ⟨t, -, rfl⟩
  · exact j.isLt
  · exact hi
  · exact t.1.isLt

section
variable (hsize : 4 ≤ size .key2_ev)
include hsize

/-- In an array of four entries or more, no entry is one of another array. -/
theorem addr_ne {x : EvArray} (hx : x ≠ .key2_ev) {i : Nat} (hi : i < size x) (j : Fin 4) : f.base x + i ≠ f.addr j :=
  f.disjoint x .key2_ev hx i hi j (Nat.lt_of_lt_of_le j.isLt hsize)

/-- The branches leave all four arrays alone, so every test sees what the poll has left. -/
theorem tests_spec (rs : List Report) : ∀ mem : Nat → PollFd,
    (∀ x, ∀ i < size x, (f.tests mem rs).1 (f.base x + i) = mem (f.base x + i)) ∧
    ∀ t ∈ (f.tests mem rs).2, t.2 = (mem (f.addr t.1)).revents := by
  induction rs with
  | nil => exact fun mem => ⟨fun _ _ _ => rfl, fun t ht => nomatch ht⟩
  | cons r rs ih =>
    intro mem
    have hkeep : ∀ x, ∀ i < size x,
        (if (mem (f.addr r.entry)).revents then f.locals r mem else mem) (f.base x + i) = mem (f.base x + i) := by
      intro x i hi
      split
      · exact f.locals_keep r mem x i hi
      · rfl
    obtain ⟨hmem, htested⟩ := ih (if (mem (f.addr r.entry)).revents then f.locals r mem else mem)
    refine ⟨fun x i hi => (hmem x i hi).trans (hkeep x i hi), ?_⟩
    rintro t ht
    rcases List.mem_cons.1 ht with rfl | ht
    · rfl
    · rw [htested t ht]
      exact congrArg PollFd.revents (hkeep .key2_ev t.1 (Nat.lt_of_lt_of_le t.1.isLt hsize))

theorem roundOwn (mem : Nat → PollFd) (answer : Option Polled) : f.RoundOwn mem answer := by
  have hfill : ∀ x, x ≠ .key2_ev → ∀ i < size x,
      filledEntries.foldl f.fill mem (f.base x + i) = mem (f.base x + i) :=
    fun x hx i hi => f.fill_other (f.addr_ne hsize hx hi) _ _
  have hpoll : ∀ p x, x ≠ .key2_ev → ∀ i < size x,
      f.poll p (filledEntries.foldl f.fill mem) (f.base x + i) = mem (f.base x + i) :=
    fun p x hx i hi => (f.poll_other (f.addr_ne hsize hx hi) _ _).trans (hfill x hx i hi)
  have hinside : ∀ i ∈ (f.round mem answer).touched, i < size .key2_ev :=
    fun i hi => Nat.lt_of_lt_of_le (touched_lt _ i hi) hsize
  cases answer with
  | none => exact ⟨hinside, hfill, fun revents h => by cases h⟩
  | some p =>
    cases p with
    | error => exact ⟨hinside, hpoll .error, fun revents h => by cases h⟩
    | events revents =>
      have hentry : ∀ i, (f.poll (.events revents) (filledEntries.foldl f.fill mem) (f.addr i)).revents =
          revents (entryKey i) := by
        intro i
        rw [f.poll_fill]
        exact Bool.true_and _
      have htests := f.tests_spec hsize [.totalMoney, .eachCoin, .totalCoin]
        (f.poll (.events revents) (filledEntries.foldl f.fill mem))
      refine ⟨hinside, ?others, ?reported⟩
      case others =>
        intro x hx i hi
        rw [round]
        split
        · exact hpoll _ x hx i hi
        · exact (htests.1 x i hi).trans (hpoll _ x hx i hi)
      case reported =>
        rintro _ ⟨⟩ t ht
        rw [round] at ht
        split at ht
        case isTrue hready =>
          obtain rfl := List.mem_singleton.1 ht
          exact hready.symm.trans (hentry offEntry)
        case isFalse hready =>
          rcases List.mem_cons.1 ht with rfl | ht
          · exact (Bool.not_eq_true _ ▸ hready).symm.trans (hentry offEntry)
          · exact (htests.2 t ht).trans (hentry t.1)

end

/-- An iteration touches its fourth entry, whatever the poll returns. -/
theorem mem_touched (r : Round) : 3 ∈ r.touched := List.mem_append_left _ (by decide)

/-- With an array of four entries or more every iteration is its own; a smaller one is overrun by the first. -/
theorem pollsOwn_iff_size (mac_state : Int) (mem : Nat → PollFd) (ps : List Polled) :
    f.PollsOwn mac_state mem ps ↔ mac_state ≠ 2 ∨ 4 ≤ size .key2_ev := by
  constructor
  · intro h
    by_cases hstate : mac_state = 2
    · have hfirst : ∃ answer, (mem, answer) ∈ f.reportLoop mac_state mem ps := by
        rw [reportLoop, if_pos hstate]
        cases ps with
        | nil => exact ⟨none, List.mem_singleton_self _⟩
        | cons p ps => exact ⟨some p, List.mem_cons_self⟩
      obtain ⟨answer, hmem⟩ := hfirst
      exact Or.inr ((h _ hmem).inside 3 (mem_touched _))
    · exact Or.inl hstate
  · rintro (hstate | hsize) x hx
    · rw [reportLoop, if_neg hstate] at hx
      cases hx
    · exact f.roundOwn hsize x.1 x.2

/-- The poll set is its own memory exactly if the loop is not entered. -/
theorem pollsOwn_iff (f : Frame declared) (mac_state : Int) (mem : Nat → PollFd) (ps : List Polled) :
    f.PollsOwn mac_state mem ps ↔ mac_state ≠ 2 := by
  rw [pollsOwn_iff_size]
  exact or_iff_left (by decide)

/-- **The poll set is its own memory in no run** (`:35`, `:144-162`). Whenever `main` gets to the loop, `mac_state` is 2:
the loop is entered, and its first iteration goes beyond the array, for every layout of the frame, every content of it
and every sequence of answers. -/
theorem pollsOwn_never (f : Frame declared) (c : Clock) (s : State) (log : List Event)
    (h : Reachable (logStep c) Init (s, log)) (hpc : s.main.pc = .reportTest) (mem : Nat → PollFd) (ps : List Polled) :
    ¬ f.PollsOwn s.g.mac_state mem ps := by
  have h2 : s.g.mac_state = 2 := (reachable_inv h).mac_two (by rw [hpc]; rfl)
  rw [pollsOwn_iff, not_not]
  exact h2

/-- The arrays side by side, `key2_ev` first. -/
def adjacent : Frame declared where
  base
    | .key2_ev => 0
    | .key3_ev => 1
    | .key4_ev => 2
    | .key_ev => 3
  disjoint x y hxy i hi j hj := by
    obtain rfl : i = 0 := Nat.lt_one_iff.1 hi
    obtain rfl : j = 0 := Nat.lt_one_iff.1 hj
    cases x <;> cases y <;> first | exact absurd rfl hxy | decide
  locals _ mem := mem
  locals_keep _ _ _ _ _ := rfl

/-- A poll that reports no key has put the second key and its events into `key3_ev[0]`. -/
theorem poll_fills_key3_ev :
    let mem : Nat → PollFd := fun _ => ⟨.key3, false, false⟩
    let p := Polled.events fun _ => false
    ¬ adjacent.PollsOwn 2 mem [p] ∧
      (adjacent.round mem (some p)).mem (adjacent.base .key3_ev) = ⟨.key2, true, false⟩ := by
  refine ⟨fun h => ?_, rfl⟩
  have hmem := (h _ List.mem_cons_self).others .key3_ev (by decide) 0 (by decide)
  exact absurd hmem (by decide)

/-- `main` gets there when key 2 has ended a coin phase without coins. -/
theorem pollsOwn_never_first : ∃ s log, Reachable (logStep .ticks) Init (s, log) ∧ s.main.pc = .reportTest ∧
    ¬ adjacent.PollsOwn s.g.mac_state (fun _ => ⟨.key3, false, false⟩) [] := by
  obtain ⟨s, log, hrun, hpc⟩ : ∃ s log, run (logStep .ticks) (State.boot, [])
      (bootActions ++ endActions ++ leaveActions ++ List.replicate 9 (.main .none)) = some (s, log) ∧
      s.main.pc = .reportTest := ⟨_, _, rfl, rfl⟩
  have hreach : Reachable (logStep .ticks) Init (s, log) := ⟨_, _, boot_init, hrun⟩
  exact ⟨s, log, hreach, hpc, pollsOwn_never adjacent .ticks s log hreach hpc _ _⟩

/-! ## The poll set of the machine -/

/-- The four entries of the machine are the first four of this frame. -/
def Holds (mem : Nat → PollFd) (s : State) : Prop := ∀ i, s.main.key2_ev i = mem (f.addr i)

variable {f} {mem : Nat → PollFd} {c : Clock} {s : State} (hs : f.Holds mem s)
include hs

theorem mainStep_fill {i : Fin 4} (hpc : s.main.pc = .fillFd i) : ∃ s' s'',
    mainStep c s .none = some (s', []) ∧ mainStep c s' .none = some (s'', []) ∧
      s''.main.pc = .afterFill i ∧ f.Holds (f.fill mem i) s'' := by
  obtain ⟨g, ⟨pc, _, _, _, _, _, _, _, _, _⟩, th⟩ := s
  obtain rfl : pc = .fillFd i := hpc
  refine ⟨_, _, rfl, rfl, rfl, fun j => ?_⟩
  rw [fill_addr]
  by_cases hj : j = i
  · simp [hj, ← hs i]
  · simp [hj, ← hs j]

theorem mainStep_poll (p : Polled) (hpc : s.main.pc = .reportPoll) : ∃ s' es,
    mainStep c s (.polled p) = some (s', es) ∧ s'.main.pc = .reportError ∧ f.Holds (f.poll p mem) s' := by
  obtain ⟨g, ⟨pc, _, _, _, _, _, _, _, _, _⟩, th⟩ := s
  obtain rfl : pc = .reportPoll := hpc
  refine ⟨_, _, rfl, rfl, fun i => ?_⟩
  rw [poll, if_pos (f.addr_polled i)]
  exact congrArg (PollFd.poll · p) (hs i)

end Frame

end CoinMachine
