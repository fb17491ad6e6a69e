import CoinMachine.Progress
import CoinMachine.Shown
/-!
# What the machine tells its user

Everything the program prints, line by line, as a terminal shows it, and over it the screen that a user has in mind
who reads the lines: `Screen.next` knows nothing of threads, polls and descriptors. Every console of the program is
one that the screen accepts, and the screen has the state of the machine (`console_follows`): it counts the coins, it
knows which reports can still come in this round, and it is off exactly if the program is about to leave or has left.

| here | there |
| --- | --- |
| `ConsoleLine.text` | the strings of `puts`, `printf` and `fprintf` in `receive/test_mac.c` |
| `State.prints`     | where they stand: `:78`-`:106`, `:139`-`:150`, `:167`-`:188`, `:267`, `:487`, `:593`-`:676` |
| `Screen`           | the reader |
-/

namespace CoinMachine

open Transition

/-! ## The lines -/

/-- The five lines of the menu. -/
inductive Menu where
  | off
  | total
  | each
  | coins
  | please
deriving DecidableEq

inductive ConsoleLine where
  | cantOpen (file : String)
  | pollError
  | key1Please
  | machinePlease
  /-- a coin of thread `n` is the `v`-th -/
  | coin (n : Sens) (v : Int)
  | insertEnd
  | mac (v : Int)
  | menu (m : Menu)
  | keyInput
  | machineOff
  | title (r : Report)
deriving DecidableEq

def KEY_FILE_NAME : String := "/dev/key_driver"

def DOT_FILE_NAME : String := "/dev/dot_driver"

def Menu.text : Menu → String
  | .off => "1key is print machine off "
  | .total => "2key is print total money"
  | .each => "3key is print the number of each coin"
  | .coins => "4key is print the number of total coin"
  | .please => "key please"

def Report.title : Report → String
  | .totalMoney => "total money "
  | .eachCoin => "the number of each coin "
  | .totalCoin => "the number of total coin "

def Sens.coin : Sens → String
  | .sens1 => "500W : "
  | .sens2 => "100W : "
  | .sens3 => "50W : "

/-- The line without its newline. -/
def ConsoleLine.text : ConsoleLine → String
  | .cantOpen file => "Can't open " ++ file
  | .pollError => "Poll error"
  | .key1Please => "key 1 please."
  | .machinePlease => "machine please."
  | .coin n v => n.coin ++ v.repr
  | .insertEnd => "coin insert end"
  | .mac v => "mac " ++ v.repr
  | .menu m => m.text
  | .keyInput => "please key input\n"
  | .machineOff => "machine off"
  | .title r => r.title

theorem natRepr_injective {m n : Nat} (h : m.repr = n.repr) : m = n := by
  have hdigits := congrArg (fun s => Nat.ofDigitChars 10 s.toList 0) h
  simpa only [Nat.toList_repr, Nat.ofDigitChars_ten_toDigits] using hdigits

theorem natRepr_ne_minus (m : Nat) (s : String) : m.repr ≠ "-" ++ s := by
  intro h
  have hmem : '-' ∈ m.repr.toList := by
    rw [h, String.toList_append]
    exact List.mem_append_left _ (by decide)
  rw [Nat.toList_repr] at hmem
  have hdigit := Nat.isDigit_of_mem_toDigits (by omega) (by omega) hmem
  simp at hdigit

theorem intRepr_injective {v v' : Int} (h : v.repr = v'.repr) : v = v' := by
  rw [Int.repr_eq_if, Int.repr_eq_if] at h
  split at h <;> split at h
  · have := natRepr_injective h
    omega
  · exact absurd h (natRepr_ne_minus _ _)
  · exact absurd h.symm (natRepr_ne_minus _ _)
  · have := natRepr_injective (String.append_right_inj _ |>.1 h)
    omega

/-- No two lines have the same text. -/
theorem text_injective : Function.Injective ConsoleLine.text := by
  intro l l' h
  cases l <;> cases l'
  case cantOpen.cantOpen file file' =>
    rw [(String.append_right_inj _).1 h]
  case mac.mac v v' =>
    rw [intRepr_injective ((String.append_right_inj _).1 h)]
  case coin.coin n v n' v' =>
    obtain rfl : n = n' := by
      have h' := congrArg String.toList h
      cases n <;> cases n' <;> simp [ConsoleLine.text, Sens.coin, String.toList_append] at h' ⊢
    rw [intRepr_injective ((String.append_right_inj _).1 h)]
  case menu.menu m m' =>
    cases m <;> cases m' <;> simp [ConsoleLine.text, Menu.text] at h ⊢
  case title.title r r' =>
    cases r <;> cases r' <;> simp [ConsoleLine.text, Report.title] at h ⊢
  all_goals try rfl
  -- two lines of different kinds begin differently
  all_goals
    replace h := congrArg String.toList h
    simp only [ConsoleLine.text, String.toList_append] at h
  case coin.menu n v m | menu.coin m n v => cases n <;> cases m <;> simp [Sens.coin, Menu.text] at h
  case coin.title n v r | title.coin r n v => cases n <;> cases r <;> simp [Sens.coin, Report.title] at h
  case menu.title m r | title.menu r m => cases m <;> cases r <;> simp [Menu.text, Report.title] at h
  all_goals first
    | (simp at h; done)
    | (cases ‹Sens› <;> simp [Sens.coin] at h)
    | (cases ‹Menu› <;> simp [Menu.text] at h)
    | (cases ‹Report› <;> simp [Report.title] at h)

/-! ## What a statement prints -/

def Menu.all : List ConsoleLine := [.menu .off, .menu .total, .menu .each, .menu .coins, .menu .please]

/-- The lines that the next statement of the actor prints. A failing open of any key names the file of the first
(`:84`). -/
def State.prints (s : State) : Action → List ConsoleLine
  | .main _ =>
    let m := s.main
    match m.pc with
    | .testKey => if m.key_fd .key < 0 then [.cantOpen KEY_FILE_NAME] else []
    | .testKeys =>
      if m.key_fd .key2 < 0 ∨ m.key_fd .key3 < 0 ∨ m.key_fd .key4 < 0 then [.cantOpen KEY_FILE_NAME] else []
    | .waitError => if m.key1_ret < 0 then [.pollError] else []
    | .waitReady =>
      (if m.key1_ret = 0 then [.key1Please] else []) ++ (if m.key_ev.revents then [.machinePlease] else [])
    | .testDot => if m.dot_fd < 0 then [.cantOpen DOT_FILE_NAME] else [.mac s.g.mac_state]
    | .reportTest => if s.g.mac_state = 2 then Menu.all else []
    | .reportError => if m.key2_ret < 0 then [.pollError] else []
    | .testOff =>
      (if m.key2_ret = 0 then [.keyInput] else []) ++ (if (m.key2_ev offEntry).revents then [.machineOff] else [])
    | .testReport r => if (m.key2_ev r.entry).revents then [.title r] else []
    | _ => []
  | .thread n _ =>
    match s.th n with
    | none => []
    | some t =>
      match t.pc with
      | .count => [.coin n (wrap ((s.g.ea.get n + 1 : Nat) : Int))]
      | .testKey => if t.key_ev.revents then [.insertEnd] else []
      | _ => []

/-- The program, its log, and its console. -/
structure Console where
  s : State
  log : List Event
  out : List ConsoleLine

def consoleStep (c : Clock) (x : Console) (a : Action) : Option Console :=
  (logStep c (x.s, x.log) a).map fun y => ⟨y.1, y.2, x.out ++ x.s.prints a⟩

structure ConsoleInit (x : Console) : Prop where
  prog : Init (x.s, x.log)
  out : x.out = []

/-! ## The reader -/

/-- What a user knows who has read the console so far: the coins counted, and what may come next. -/
inductive Screen where
  | start
  | waiting
  /-- coins are counted; the end has been announced or not -/
  | coins (ea : Counters) (ended : Bool)
  /-- the next line of the menu -/
  | menu (ea : Counters) (m : Menu)
  /-- the menu is complete: the machine waits for keys -/
  | asked (ea : Counters)
  /-- the reports that can still be announced in this round -/
  | round (ea : Counters) (rs : List Report)
  | off (ea : Counters)

/-- The coins counted. -/
def Screen.ea : Screen → Counters
  | .start | .waiting => ⟨0, 0, 0⟩
  | .coins ea _ | .menu ea _ | .asked ea | .round ea _ | .off ea => ea

def Screen.over : Screen → Bool
  | .off _ => true
  | _ => false

/-- The reports whose keys are tested after `r`. -/
def Report.rest : Report → List Report
  | .totalMoney => [.eachCoin, .totalCoin]
  | .eachCoin => [.totalCoin]
  | .totalCoin => []

def Screen.afterMenu (ea : Counters) : Menu → Screen
  | .off => .menu ea .total
  | .total => .menu ea .each
  | .each => .menu ea .coins
  | .coins => .menu ea .please
  | .please => .asked ea

@[simp] theorem Screen.ea_afterMenu (ea : Counters) (m : Menu) : (Screen.afterMenu ea m).ea = ea := by cases m <;> rfl

/-- The lines that the reader expects, and what they mean. -/
def Screen.next : Screen → ConsoleLine → Option Screen
  | .start, .cantOpen file => if file = KEY_FILE_NAME then some (.off ⟨0, 0, 0⟩) else none
  | .start, .key1Please | .waiting, .key1Please => some .waiting
  | .start, .machinePlease | .waiting, .machinePlease => some (.coins ⟨0, 0, 0⟩ false)
  | .start, .pollError | .waiting, .pollError => some (.off ⟨0, 0, 0⟩)
  | .coins ea ended, .coin n v =>
    if v = wrap ((ea.get n + 1 : Nat) : Int) then some (.coins (ea.bump n) ended) else none
  | .coins ea _, .insertEnd => some (.coins ea true)
  | .coins ea true, .mac v => if v = 2 then some (.round ea []) else none
  | .coins ea true, .cantOpen file => if file = DOT_FILE_NAME then some (.off ea) else none
  | .round ea _, .menu .off => some (.afterMenu ea .off)
  | .menu ea m, .menu m' => if m' = m then some (.afterMenu ea m) else none
  | .asked ea, .pollError | .asked ea, .machineOff => some (.off ea)
  | .asked ea, .keyInput => some (.round ea [])
  | .asked ea, .title r => some (.round ea r.rest)
  | .round ea rs, .title r => if r ∈ rs then some (.round ea r.rest) else none
  | _, _ => none

/-! ## The screen of a state -/

/-- The result of the poll of the report loop agrees with the marks. -/
structure Agrees (ret : Int) (ev : Fin 4 → PollFd) : Prop where
  none : ret = 0 → ∀ i, (ev i).revents = false
  some : 0 < ret → ∃ i, (ev i).revents = true

/-- Coins are counted, and the end is announced before it takes effect. -/
def Paying (s : State) (sc : Screen) : Prop :=
  ∃ ended, sc = .coins s.g.ea ended ∧ (s.g.mac_state = 2 → ended = true) ∧
    ∀ n t, s.th n = some t → t.pc = .setState → ended = true

/-- Nothing was counted yet. -/
def Asking (s : State) (sc : Screen) : Prop := s.g.ea = ⟨0, 0, 0⟩ ∧ (sc = .start ∨ sc = .waiting)

/-- The marked reports from entry `i` on are expected, or there is one and nothing was announced in this round. -/
def Expects (s : State) (sc : Screen) (i : Nat) : Prop :=
  (sc = .asked s.g.ea ∧ ∃ r : Report, i ≤ r.entry.val ∧ (s.main.key2_ev r.entry).revents = true) ∨
  ∃ rs, sc = .round s.g.ea rs ∧ ∀ r : Report, i ≤ r.entry.val → (s.main.key2_ev r.entry).revents = true → r ∈ rs

/-- The screen in the state. -/
def Follows (s : State) (sc : Screen) : Prop :=
  match s.main.pc with
  | .openKey _ | .testKey | .testKeys => s.g.ea = ⟨0, 0, 0⟩ ∧ sc = .start
  | .waitTest => (s.g.mac_state = 0 → Asking s sc) ∧ (s.g.mac_state ≠ 0 → Paying s sc)
  | .waitFd | .waitEvents | .waitPoll | .waitError | .waitReady => Asking s sc
  | .setStart | .openMot | .openDot | .clearDot | .coinTest | .create _ | .motorOn | .blankDot | .join _ | .setOff
  | .motorOff | .testDot => Paying s sc
  | .reportTest => ∃ rs, sc = .round s.g.ea rs
  | .fillFd _ | .fillEvents _ | .reportPoll => sc = .asked s.g.ea
  | .reportError => sc = .asked s.g.ea ∧ Agrees s.main.key2_ret s.main.key2_ev
  | .testOff => sc = .asked s.g.ea ∧ Agrees s.main.key2_ret s.main.key2_ev ∧ 0 ≤ s.main.key2_ret
  | .testReport r => Expects s sc r.entry.val
  | .branch r => ∃ rs, sc = .round s.g.ea rs ∧ ∀ r' : Report, r.entry < r'.entry →
      (s.main.key2_ev r'.entry).revents = true → r' ∈ rs
  | .closeKeys | .exited => sc = .off s.g.ea

/-- A statement that prints nothing and leaves the coins alone. -/
theorem paying_of_main {s s' : State} {sc : Screen} (hp : Paying s sc) (hg : s'.g = s.g)
    (hth : ∀ n t, s'.th n = some t → t.pc = .setState → s.th n = some t) : Paying s' sc := by
  obtain ⟨ended, rfl, hstop, hset⟩ := hp
  exact ⟨ended, by rw [hg], by rw [hg]; exact hstop, fun n t ht hpc => hset n t (hth n t ht hpc) hpc⟩

/-- No thread runs before the coin phase. -/
theorem Inv.paying {s : State} {log : List Event} (hx : Inv s.ctl log) (h0 : s.g.mac_state = 0)
    (hea : s.g.ea = ⟨0, 0, 0⟩) {s' : State} (hg : s'.g.ea = s.g.ea) (hm : s'.g.mac_state ≠ 2) (hth : s'.th = s.th) :
    Paying s' (.coins ⟨0, 0, 0⟩ false) := by
  refine ⟨false, by rw [hg, hea], fun h2 => absurd h2 hm, fun n t ht _ => ?_⟩
  rw [hth] at ht
  exact absurd h0 (hx.alive n (Option.isSome_iff_exists.2 ⟨t, ht⟩))

/-- Up to the start of the coin phase. -/
theorem Follows.begin {c : Clock} {s s' : State} {log : List Event} {sc : Screen} {inp : Input} {evs : List Event}
    (hf : Follows s sc) (hx : Inv s.ctl log) (h : mainStep c s inp = some (s', evs))
    (hreg : s.main.pc.region = .starting ∨ s.main.pc.region = .waiting) :
    ∃ sc', run Screen.next sc (s.prints (.main inp)) = some sc' ∧ Follows s' sc' := by
  have h0 : s.main.pc.region = .starting → s.g.mac_state = 0 := hx.zero
  cases hpc : s.main.pc <;> cases inp <;> simp only [mainStep, hpc, reduceCtorEq] at h
  all_goals simp only [hpc, MainPc.region, reduceCtorEq, or_self] at hreg
  all_goals simp only [hpc, MainPc.region, reduceCtorEq, false_imp_iff, forall_const] at h0
  all_goals simp only [Follows, hpc] at hf
  case openKey.opened k fd =>
    cases h
    exact ⟨sc, by simp [State.prints, hpc], by cases k <;> exact hf⟩
  case testKey.none | testKeys.none =>
    obtain ⟨hea, rfl⟩ := hf
    simp only [State.prints, hpc]
    split at h <;> cases h
    · rename_i hneg
      exact ⟨.off ⟨0, 0, 0⟩, by rw [if_pos hneg]; rfl, congrArg Screen.off hea.symm⟩
    · rename_i hpos
      refine ⟨.start, by rw [if_neg hpos]; rfl, ?_⟩
      first
        | exact ⟨hea, rfl⟩
        | exact ⟨fun _ => ⟨hea, Or.inl rfl⟩, fun hne => absurd h0 hne⟩
  case waitTest.none =>
    cases h
    refine ⟨sc, by simp [State.prints, hpc], ?_⟩
    by_cases hm : s.g.mac_state = 0
    · rw [if_pos hm]
      exact hf.1 hm
    · rw [if_neg hm]
      exact hf.2 hm
  case waitFd.none | waitEvents.none | waitPoll.polled =>
    cases h
    exact ⟨sc, by simp [State.prints, hpc], hf⟩
  case waitError.none =>
    simp only [State.prints, hpc]
    split at h <;> cases h
    · rename_i hneg
      obtain ⟨hea, hsc⟩ := hf
      refine ⟨.off ⟨0, 0, 0⟩, ?_, congrArg Screen.off hea.symm⟩
      rw [if_pos hneg]
      rcases hsc with rfl | rfl <;> rfl
    · rename_i hpos
      exact ⟨sc, by rw [if_neg hpos]; rfl, hf⟩
  case waitReady.none =>
    obtain ⟨hea, hsc⟩ := hf
    cases h
    simp only [State.prints, hpc]
    -- the timeout line, then the start
    obtain ⟨sc₁, hrun, hsc₁⟩ : ∃ sc₁, run Screen.next sc (if s.main.key1_ret = 0 then [ConsoleLine.key1Please] else []) =
        some sc₁ ∧ (sc₁ = .start ∨ sc₁ = .waiting) := by
      split
      · exact ⟨.waiting, by rcases hsc with rfl | rfl <;> rfl, Or.inr rfl⟩
      · exact ⟨sc, rfl, hsc⟩
    by_cases hrev : s.main.key_ev.revents = true
    · rw [if_pos hrev, if_pos hrev]
      refine ⟨.coins ⟨0, 0, 0⟩ false, run_append.2 ⟨sc₁, hrun, by rcases hsc₁ with rfl | rfl <;> rfl⟩, ?_⟩
      exact hx.paying h0 hea rfl (by simp [State.goto, h0]) rfl
    · rw [if_neg hrev, if_neg hrev]
      exact ⟨sc₁, run_append.2 ⟨sc₁, hrun, rfl⟩, fun _ => ⟨hea, hsc₁⟩, fun hne => absurd h0 hne⟩
  case setStart.none =>
    obtain ⟨ended, rfl, -, hset⟩ := hf
    cases h
    have hone : (1 : Int) ≠ 0 ∧ (1 : Int) ≠ 2 := by decide
    exact ⟨.coins s.g.ea ended, by simp [State.prints, hpc], fun h1 => absurd h1 hone.1, fun _ =>
      ⟨ended, rfl, fun h2 => absurd h2 hone.2, hset⟩⟩

/-- In the coin phase `main` prints nothing, and then the state. -/
theorem Follows.pay {c : Clock} {s s' : State} {log : List Event} {sc : Screen} {inp : Input} {evs : List Event}
    (hf : Follows s sc) (hx : Inv s.ctl log) (h : mainStep c s inp = some (s', evs))
    (hreg : s.main.pc.region ≠ .starting ∧ s.main.pc.region ≠ .waiting)
    (hpay : s.main.pc.region ≠ .reporting ∨ s.main.pc = .testDot) :
    ∃ sc', run Screen.next sc (s.prints (.main inp)) = some sc' ∧ Follows s' sc' := by
  cases hpc : s.main.pc <;> cases inp <;> simp only [mainStep, hpc, reduceCtorEq] at h
  all_goals simp only [hpc, MainPc.region, ne_eq, not_true_eq_false, false_and, and_false] at hreg
  all_goals simp only [hpc, MainPc.region, ne_eq, not_true_eq_false, reduceCtorEq, or_self] at hpay
  all_goals simp only [Follows, hpc] at hf
  case testDot.none =>
    have h2 : s.g.mac_state = 2 := hx.mac_two (by rw [hpc]; rfl)
    obtain ⟨ended, rfl, hstop, -⟩ := hf
    obtain rfl : ended = true := hstop h2
    simp only [State.prints, hpc, h2]
    split at h <;> cases h
    · rename_i hneg
      exact ⟨.off s.g.ea, by rw [if_pos hneg]; rfl, rfl⟩
    · rename_i hpos
      exact ⟨.round s.g.ea [], by rw [if_neg hpos]; rfl, [], rfl⟩
  case create.created n sens_value key_ev =>
    cases h
    refine ⟨sc, by simp [State.prints, hpc], ?_⟩
    have hp : Paying { s with th := Function.update s.th n (some (.start sens_value key_ev)) } sc := by
      refine paying_of_main hf rfl fun n' t ht hset => ?_
      by_cases hn : n' = n
      · -- the new thread is at its first statement
        subst hn
        obtain rfl : Thread.start sens_value key_ev = t := by simpa using ht
        cases hset
      · simpa [hn] using ht
    cases n <;> exact hp
  case coinTest.none =>
    cases h
    refine ⟨sc, by simp [State.prints, hpc], ?_⟩
    have hp : Paying s sc := hf
    split <;> exact hp
  case join.none n =>
    split at h <;> cases h
    refine ⟨sc, by simp [State.prints, hpc], ?_⟩
    have hp : Paying s sc := hf
    cases n <;> exact hp
  all_goals
    cases h
    exact ⟨sc, by simp [State.prints, hpc], hf⟩

/-! ### The report loop -/

theorem mem_rest {r r' : Report} : r' ∈ r.rest ↔ r.entry < r'.entry := by
  cases r <;> cases r' <;> decide

theorem agrees_poll (ev : Fin 4 → PollFd) (p : Polled) : Agrees (p.ret (List.ofFn ev)) fun i => (ev i).poll p := by
  cases p with
  | error =>
    have hret : Polled.ret (List.ofFn ev) .error = -1 := rfl
    exact ⟨fun h => by omega, fun h => by omega⟩
  | events revents =>
    constructor
    · intro h i
      have hnone := List.countP_eq_zero.1 (Int.natCast_eq_zero.1 h) _ ((List.mem_ofFn' _ _).2 ⟨i, rfl⟩)
      simpa [PollFd.poll] using hnone
    · intro h
      obtain ⟨e, hmem, he⟩ := List.countP_pos_iff.1 (Int.natCast_pos.1 h)
      obtain ⟨i, rfl⟩ := (List.mem_ofFn' _ _).1 hmem
      exact ⟨i, he⟩

theorem entry_cases (i : Fin 4) : i = offEntry ∨ ∃ r : Report, r.entry = i ∧ Report.totalMoney.entry ≤ r.entry := by
  rcases i with ⟨_ | _ | _ | _ | i, hi⟩
  · exact Or.inl rfl
  · exact Or.inr ⟨.totalMoney, rfl, by decide⟩
  · exact Or.inr ⟨.eachCoin, rfl, by decide⟩
  · exact Or.inr ⟨.totalCoin, rfl, by decide⟩
  · omega

/-- From a report to the test of the next one. -/
theorem Follows.afterReport {s : State} {sc : Screen} {r : Report} {rs : List Report} (hsc : sc = .round s.g.ea rs)
    (hrs : ∀ r' : Report, r.entry < r'.entry → (s.main.key2_ev r'.entry).revents = true → r' ∈ rs) :
    Follows (s.goto (.afterReport r)) sc := by
  have hnext : ∀ r₁ : Report, r.entry < r₁.entry → Expects s sc r₁.entry.val := fun r₁ hlt =>
    Or.inr ⟨rs, hsc, fun r' hle hr' => hrs r' (Nat.lt_of_lt_of_le hlt hle) hr'⟩
  cases r with
  | totalMoney => exact hnext .eachCoin (by decide)
  | eachCoin => exact hnext .totalCoin (by decide)
  | totalCoin => exact ⟨rs, hsc⟩

/-- A report that is not marked is passed over. -/
theorem Follows.skip {s : State} {sc : Screen} {r : Report} (h : Expects s sc r.entry.val)
    (hr : (s.main.key2_ev r.entry).revents ≠ true) : Follows (s.goto (.afterReport r)) sc := by
  rcases h with ⟨hsc, r', hle, hr'⟩ | ⟨rs, hsc, hrs⟩
  · have hlt : r.entry < r'.entry := by
      refine lt_of_le_of_ne hle fun heq => hr ?_
      rw [heq]
      exact hr'
    have hnext : ∀ r₁ : Report, r₁.entry ≤ r'.entry → Expects s sc r₁.entry.val := fun r₁ hle => Or.inl ⟨hsc, r', hle, hr'⟩
    cases r with
    | totalMoney => exact hnext .eachCoin hlt
    | eachCoin => exact hnext .totalCoin hlt
    | totalCoin => cases r' <;> exact absurd hlt (by decide)
  · exact .afterReport hsc fun r' hlt => hrs r' (Nat.le_of_lt hlt)

/-- One round of the report loop. -/
theorem Follows.report {c : Clock} {s s' : State} {log : List Event} {sc : Screen} {inp : Input} {evs : List Event}
    (hf : Follows s sc) (hx : Inv s.ctl log) (h : mainStep c s inp = some (s', evs))
    (hreg : s.main.pc.region = .reporting) (hpay : s.main.pc ≠ .testDot) :
    ∃ sc', run Screen.next sc (s.prints (.main inp)) = some sc' ∧ Follows s' sc' := by
  have h2 : s.g.mac_state = 2 := hx.mac_two hreg
  cases hpc : s.main.pc <;> cases inp <;> simp only [mainStep, hpc, reduceCtorEq] at h
  all_goals simp only [hpc, MainPc.region, reduceCtorEq] at hreg
  all_goals simp only [hpc, ne_eq, not_true_eq_false] at hpay
  all_goals simp only [Follows, hpc] at hf
  case reportTest.none =>
    obtain ⟨rs, rfl⟩ := hf
    cases h
    exact ⟨.asked s.g.ea, by simp only [State.prints, hpc, h2, if_true]; rfl, by simp only [h2, if_true]; rfl⟩
  case fillFd.none i =>
    cases h
    exact ⟨sc, by simp [State.prints, hpc], hf⟩
  case fillEvents.none i =>
    cases h
    refine ⟨sc, by simp [State.prints, hpc], ?_⟩
    simp only [Follows]
    rcases afterFill_cases i with hi | ⟨j, hi⟩
    · rw [hi]
      exact hf
    · rw [hi]
      exact hf
  case reportPoll.polled p =>
    cases h
    exact ⟨sc, by simp [State.prints, hpc], hf, agrees_poll s.main.key2_ev p⟩
  case reportError.none =>
    obtain ⟨rfl, hagree⟩ := hf
    simp only [State.prints, hpc]
    split at h <;> cases h
    · rename_i hneg
      exact ⟨.off s.g.ea, by rw [if_pos hneg]; rfl, rfl⟩
    · rename_i hpos
      exact ⟨.asked s.g.ea, by rw [if_neg hpos]; rfl, rfl, hagree, Int.not_lt.1 hpos⟩
  case testOff.none =>
    obtain ⟨rfl, hagree, hret⟩ := hf
    simp only [State.prints, hpc]
    split at h <;> cases h
    · rename_i hoff
      change (s.main.key2_ev offEntry).revents = true at hoff
      have hne : s.main.key2_ret ≠ 0 := by
        intro h0
        rw [hagree.none h0] at hoff
        cases hoff
      exact ⟨.off s.g.ea, by rw [if_neg hne, if_pos hoff]; rfl, rfl⟩
    · rename_i hoff
      change ¬ (s.main.key2_ev offEntry).revents = true at hoff
      rw [if_neg hoff]
      by_cases h0 : s.main.key2_ret = 0
      · -- a timeout: nothing is marked
        refine ⟨.round s.g.ea [], by rw [if_pos h0]; rfl, Or.inr ⟨[], rfl, fun r _ hr => ?_⟩⟩
        have hnone : (s.main.key2_ev r.entry).revents = false := hagree.none h0 r.entry
        exact absurd (hnone.symm.trans hr) Bool.false_ne_true
      · refine ⟨.asked s.g.ea, by rw [if_neg h0]; rfl, ?_⟩
        obtain ⟨i, hi⟩ := hagree.some (by omega)
        rcases entry_cases i with rfl | ⟨r, rfl, hle⟩
        · exact absurd hi hoff
        · exact Or.inl ⟨rfl, r, hle, hi⟩
  case testReport.none r =>
    simp only [State.prints, hpc]
    split at h <;> cases h
    · rename_i hr
      refine ⟨.round s.g.ea r.rest, ?_, r.rest, rfl, fun r' hlt _ => mem_rest.2 hlt⟩
      rw [if_pos hr]
      rcases hf with ⟨rfl, -⟩ | ⟨rs, rfl, hrs⟩
      · rfl
      · refine run_cons.2 ⟨.round s.g.ea r.rest, ?_, rfl⟩
        exact if_pos (hrs r (Nat.le_refl _) hr)
    · rename_i hr
      exact ⟨sc, by rw [if_neg hr]; rfl, .skip hf hr⟩
  case branch.none r =>
    obtain ⟨t, -, ht⟩ := Option.map_eq_some_iff.1 h
    cases ht
    obtain ⟨rs, rfl, hrs⟩ := hf
    exact ⟨.round s.g.ea rs, by simp [State.prints, hpc],
      Follows.afterReport (s := { s with main := { s.main with loop := t } }) rfl hrs⟩
  case closeKeys.none =>
    cases h
    exact ⟨sc, by simp [State.prints, hpc], hf⟩

/-! ### The threads -/

/-- A thread that runs does so in the coin phase. -/
theorem Follows.paying {s : State} {log : List Event} {sc : Screen} {n : Sens} {t : Thread} (hf : Follows s sc)
    (hx : Inv s.ctl log) (ht : s.th n = some t) (hset : ¬ Settled s) :
    Paying s sc ∧ ∀ s' sc', s'.main = s.main → Paying s' sc' → Follows s' sc' := by
  have hsome : (s.th n).isSome = true := Option.isSome_iff_exists.2 ⟨t, ht⟩
  obtain ⟨k, hk, hth, -⟩ := hx.stage
  have hpos : n.idx < k := (hth.exist n).1 hsome
  have hzero : k ≠ 0 := by omega
  unfold Settled at hset
  cases hpc : s.main.pc
  all_goals simp only [State.ctl, hpc, MainPc.region, Region.Stage, hzero] at hk
  all_goals simp only [hpc, MainPc.region, reduceCtorEq, or_false, or_true, not_true_eq_false] at hset
  all_goals simp only [Follows, hpc] at hf
  all_goals
    refine ⟨hf, fun s' sc' hmain hp => ?_⟩
    simp only [Follows, hmain, hpc]
    exact hp

/-- A step of thread `n` that keeps its promise. -/
theorem paying_of_thread {s : State} {g' : Globals} {n : Sens} {t' : Thread} {ended : Bool}
    (hset : ∀ n t, s.th n = some t → t.pc = .setState → ended = true) (hstop : g'.mac_state = 2 → ended = true)
    (hpc : t'.pc = .setState → ended = true) :
    Paying { s with g := g', th := Function.update s.th n (some t') } (.coins g'.ea ended) := by
  refine ⟨ended, rfl, hstop, fun n' t₁ ht₁ hpc₁ => ?_⟩
  by_cases hn : n' = n
  · subst hn
    obtain rfl : t' = t₁ := by simpa using ht₁
    exact hpc hpc₁
  · exact hset n' t₁ (by simpa [hn] using ht₁) hpc₁

theorem Follows.thread {c : Clock} {s s' : State} {log : List Event} {sc : Screen} {n : Sens} {inp : Input}
    {evs : List Event} (hf : Follows s sc) (hx : Inv s.ctl log) (h : step c s (.thread n inp) = some (s', evs)) :
    ∃ sc', run Screen.next sc (s.prints (.thread n inp)) = some sc' ∧ Follows s' sc' := by
  obtain ⟨t, t', -, ht, hst, hs'⟩ := step_thread h
  obtain ⟨⟨ended, rfl, hstop, hset⟩, hback⟩ := hf.paying hx ht (step_thread_unsettled hx h).2
  suffices hp : ∃ sc', run Screen.next (.coins s.g.ea ended) (s.prints (.thread n inp)) = some sc' ∧ Paying s' sc' by
    obtain ⟨sc', hrun, hpay⟩ := hp
    exact ⟨sc', hrun, hback s' sc' (by rw [hs']) hpay⟩
  rw [hs']
  simp only [State.prints, ht]
  cases hpc : t.pc <;> cases inp <;> simp only [Thread.step, hpc, reduceCtorEq, Option.some.injEq, Prod.mk.injEq] at hst
  case count.none =>
    obtain ⟨hg, rfl, -⟩ := hst
    rw [← hg]
    refine ⟨.coins (s.g.ea.bump n) ended, by simp [run, Screen.next], ?_⟩
    exact paying_of_thread hset hstop fun hpc' => by cases hpc'
  case testKey.none =>
    obtain ⟨hg, rfl, -⟩ := hst
    rw [← hg]
    by_cases hrev : t.key_ev.revents = true
    · refine ⟨.coins s.g.ea true, by rw [if_pos hrev]; rfl, ?_⟩
      exact paying_of_thread (fun _ _ _ _ => rfl) (fun _ => rfl) fun _ => rfl
    · refine ⟨.coins s.g.ea ended, by rw [if_neg hrev]; rfl, ?_⟩
      exact paying_of_thread hset hstop fun hpc' => by simp [hrev] at hpc'
  case setState.none =>
    obtain ⟨hg, rfl, -⟩ := hst
    rw [← hg]
    have hended : ended = true := hset n t ht hpc
    exact ⟨.coins s.g.ea ended, rfl, paying_of_thread hset (fun _ => hended) fun _ => hended⟩
  case readSample.read | readDiscard.read =>
    split at hst <;> simp only [Option.some.injEq, Prod.mk.injEq, reduceCtorEq] at hst
    obtain ⟨hg, rfl, -⟩ := hst
    rw [← hg]
    exact ⟨.coins s.g.ea ended, rfl, paying_of_thread hset hstop fun hpc' => by cases hpc'⟩
  all_goals
    obtain ⟨hg, rfl, -⟩ := hst
    rw [← hg]
    refine ⟨.coins s.g.ea ended, rfl, paying_of_thread hset hstop fun hpc' => ?_⟩
    first
      | cases hpc'
      | (simp only at hpc'; split at hpc' <;> cases hpc')

/-! ## Every run -/

theorem consoleStep_log {c : Clock} {x x' : Console} {a : Action} (h : consoleStep c x a = some x') :
    logStep c (x.s, x.log) a = some (x'.s, x'.log) ∧ x'.out = x.out ++ x.s.prints a := by
  obtain ⟨y, hy, h⟩ := Option.map_eq_some_iff.1 h
  cases h
  exact ⟨hy, rfl⟩

theorem console_reachable {c : Clock} {x : Console} (h : Reachable (consoleStep c) ConsoleInit x) :
    Reachable (logStep c) Init (x.s, x.log) :=
  h.invariant (P := fun x => Reachable (logStep c) Init (x.s, x.log)) (fun _ hx => .of_init hx.prog) fun _ _ _ hx hs =>
    hx.snoc (consoleStep_log hs).1

/-- The step lemma. -/
theorem Follows.step {c : Clock} {s s' : State} {log log' : List Event} {sc : Screen} {a : Action} (hf : Follows s sc)
    (hx : Inv s.ctl log) (h : logStep c (s, log) a = some (s', log')) :
    ∃ sc', run Screen.next sc (s.prints a) = some sc' ∧ Follows s' sc' := by
  obtain ⟨evs, hs, -⟩ := logStep_step h
  cases a with
  | thread n inp => exact hf.thread hx hs
  | main inp =>
    by_cases hbegin : s.main.pc.region = .starting ∨ s.main.pc.region = .waiting
    · exact hf.begin hx hs hbegin
    · by_cases hrep : s.main.pc.region = .reporting ∧ s.main.pc ≠ .testDot
      · exact hf.report hx hs hrep.1 hrep.2
      · exact hf.pay hx hs (not_or.1 hbegin) (Decidable.not_and_iff_or_not.1 hrep |>.imp_right not_not.1)

theorem reachable_follows {c : Clock} {x : Console} (h : Reachable (consoleStep c) ConsoleInit x) :
    ∃ sc, run Screen.next .start x.out = some sc ∧ Follows x.s sc := by
  have hinv : Reachable (logStep c) Init (x.s, x.log) ∧ ∃ sc, run Screen.next .start x.out = some sc ∧ Follows x.s sc := by
    refine h.invariant (P := fun x => Reachable (logStep c) Init (x.s, x.log) ∧
      ∃ sc, run Screen.next .start x.out = some sc ∧ Follows x.s sc) ?_ ?_
    · intro x hx
      refine ⟨.of_init hx.prog, .start, by rw [hx.out]; rfl, ?_⟩
      have hpc : x.s.main.pc = .openKey .key := hx.prog.pc
      have hg : x.s.g = ⟨0, 0, 0, 0⟩ := hx.prog.g
      simp only [Follows, hpc, hg, and_self]
    · rintro x a x' ⟨hx, sc, hrun, hf⟩ hstep
      obtain ⟨hlog, hout⟩ := consoleStep_log hstep
      obtain ⟨sc', hrun', hf'⟩ := hf.step (reachable_inv hx) hlog
      exact ⟨hx.snoc hlog, sc', by rw [hout]; exact run_append.2 ⟨sc, hrun, hrun'⟩, hf'⟩
  exact hinv.2

/-- The screen has the coins of the machine, and it is off when the machine is. -/
theorem Follows.knows {s : State} {sc : Screen} (h : Follows s sc) :
    sc.ea = s.g.ea ∧ (sc.over = true ↔ s.main.pc = .closeKeys ∨ s.main.pc = .exited) := by
  have hask : Asking s sc → sc.ea = s.g.ea ∧ sc.over = false := by
    rintro ⟨hea, rfl | rfl⟩ <;> exact ⟨hea.symm, rfl⟩
  have hpay : Paying s sc → sc.ea = s.g.ea ∧ sc.over = false := by
    rintro ⟨ended, rfl, -⟩
    exact ⟨rfl, rfl⟩
  suffices hk : sc.ea = s.g.ea ∧ sc.over = (s.main.pc == .closeKeys || s.main.pc == .exited) by
    exact ⟨hk.1, by rw [hk.2]; simp⟩
  cases hpc : s.main.pc <;> simp only [Follows, hpc] at h
  case openKey | testKey | testKeys =>
    obtain ⟨hea, rfl⟩ := h
    exact ⟨hea.symm, rfl⟩
  case waitTest =>
    by_cases hm : s.g.mac_state = 0
    · exact hask (h.1 hm)
    · exact hpay (h.2 hm)
  case waitFd | waitEvents | waitPoll | waitError | waitReady => exact hask h
  case reportTest | branch =>
    obtain ⟨rs, rfl, -⟩ := h
    exact ⟨rfl, rfl⟩
  case fillFd | fillEvents | reportPoll | closeKeys | exited =>
    obtain rfl := h
    exact ⟨rfl, rfl⟩
  case reportError | testOff =>
    obtain ⟨rfl, -⟩ := h
    exact ⟨rfl, rfl⟩
  case testReport r =>
    rcases h with ⟨rfl, -⟩ | ⟨rs, rfl, -⟩ <;> exact ⟨rfl, rfl⟩
  all_goals exact hpay h

/-! ### The coins on the console -/

/-- The number of a coin line of thread `n`. -/
def ConsoleLine.coinOf (n : Sens) : ConsoleLine → Option Int
  | .coin n' v => if n' = n then some v else none
  | _ => none

theorem next_ea {sc sc' : Screen} {l : ConsoleLine} (h : sc.next l = some sc') :
    (∃ n, l = .coin n (wrap ((sc.ea.get n + 1 : Nat) : Int)) ∧ sc'.ea = sc.ea.bump n) ∨
    ((∀ n, l.coinOf n = none) ∧ sc'.ea = sc.ea) := by
  unfold Screen.next at h
  split at h
  case h_8 ea ended n v =>
    split at h <;> cases h
    rename_i hv
    exact Or.inl ⟨n, by rw [hv]; rfl, rfl⟩
  case h_13 ea m m' =>
    split at h <;> cases h
    exact Or.inr ⟨fun _ => rfl, Screen.ea_afterMenu ea m⟩
  all_goals first
    | (cases h; done)
    | (cases h; exact Or.inr ⟨fun _ => rfl, rfl⟩)
    | (split at h <;> cases h; exact Or.inr ⟨fun _ => rfl, rfl⟩)

/-- The coin lines of each thread are numbered from 1 on, without a gap. -/
theorem coin_lines {out : List ConsoleLine} (n : Sens) : ∀ {sc : Screen}, run Screen.next .start out = some sc →
    out.filterMap (ConsoleLine.coinOf n) = (List.range (sc.ea.get n)).map fun i => wrap ((i + 1 : Nat) : Int) := by
  induction out using List.reverseRecOn with
  | nil =>
    intro sc h
    cases h
    cases n <;> rfl
  | append_singleton out l ih =>
    intro sc h
    obtain ⟨sc₁, h₁, hl⟩ := run_append.1 h
    obtain ⟨sc₂, hnext, h₂⟩ := run_cons.1 hl
    cases h₂
    rw [List.filterMap_append, ih h₁]
    rcases next_ea hnext with ⟨n', rfl, hea⟩ | ⟨hnone, hea⟩
    · rw [hea, Counters.get_bump]
      by_cases hn : n' = n
      · subst hn
        simp [ConsoleLine.coinOf, List.range_succ]
      · simp [ConsoleLine.coinOf, hn]
    · rw [hea]
      simp [hnone]

theorem shown_ea {c : Clock} {s : State} {log : List Event} (h : Reachable (logStep c) Init (s, log)) {r : ReportRun}
    (hr : r ∈ s.main.loop.log) : r.view = r.report.view s.g.ea := by
  have hcount := (reachable_inv h).counted
  rw [shown_exact c s log h r hr, ← hcount, ← hcount, ← hcount]
  rfl

/-- **The console tells the truth** (`receive/test_mac.c:78-188`, `:593-676`). In every reachable state of the program
the reader has accepted every line, has counted the coins of the machine, and knows whether it is off. The coin lines
of each thread are 1, 2, 3 and so on up to its counter, and each report that the matrix has shown is the one of the
coins that the console says. -/
theorem console_follows (c : Clock) (x : Console) (h : Reachable (consoleStep c) ConsoleInit x) :
    ∃ sc, run Screen.next .start x.out = some sc ∧ sc.ea = x.s.g.ea ∧
      (sc.over = true ↔ x.s.main.pc = .closeKeys ∨ x.s.main.pc = .exited) ∧
      (∀ n, x.out.filterMap (ConsoleLine.coinOf n) =
        (List.range (x.s.g.ea.get n)).map fun i => wrap ((i + 1 : Nat) : Int)) ∧
      ∀ r ∈ x.s.main.loop.log, r.view = r.report.view sc.ea := by
  obtain ⟨sc, hrun, hf⟩ := reachable_follows h
  obtain ⟨hea, hover⟩ := hf.knows
  refine ⟨sc, hrun, hea, hover, fun n => ?_, fun r hr => ?_⟩
  · rw [coin_lines n hrun, hea]
  · rw [hea]
    exact shown_ea (console_reachable h) hr

def Console.boot : Console := ⟨.boot, [], []⟩

theorem consoleInit_boot : ConsoleInit .boot := ⟨boot_init, rfl⟩

/-- The console of `offActions`. -/
def offConsole : List ConsoleLine := [.machinePlease, .insertEnd, .mac 2] ++ Menu.all ++ [.machineOff]

/-- Switched on and off without a coin. -/
theorem console_follows_off : ∃ c x sc, Reachable (consoleStep c) ConsoleInit x ∧ x.out = offConsole ∧
    run Screen.next .start x.out = some sc ∧ sc.over = true := by
  obtain ⟨x, hrun, hout, hpc⟩ : ∃ x, run (consoleStep .ticks) .boot offActions =
      some x ∧ x.out = offConsole ∧ x.s.main.pc = .exited := ⟨_, rfl, rfl, rfl⟩
  have hx : Reachable (consoleStep .ticks) ConsoleInit x :=
    ⟨_, _, consoleInit_boot, hrun⟩
  obtain ⟨sc, hsc, -, hover, -⟩ := console_follows _ x hx
  exact ⟨_, x, sc, hx, hout, hsc, hover.2 (Or.inr hpc)⟩

/-- **The text of the console is enough to know the machine.** Two machines, under any two schedules, that have
printed the same text have counted the same coins and are both off or both not. -/
theorem console_tells (c c' : Clock) (x y : Console) (hx : Reachable (consoleStep c) ConsoleInit x)
    (hy : Reachable (consoleStep c') ConsoleInit y) (htext : x.out.map ConsoleLine.text = y.out.map ConsoleLine.text) :
    x.s.g.ea = y.s.g.ea ∧ ((x.s.main.pc = .closeKeys ∨ x.s.main.pc = .exited) ↔
      (y.s.main.pc = .closeKeys ∨ y.s.main.pc = .exited)) ∧
    ∀ r ∈ x.s.main.loop.log, ∀ r' ∈ y.s.main.loop.log, r.report = r'.report → r.view = r'.view := by
  have hout : x.out = y.out := List.map_injective_iff.2 text_injective htext
  obtain ⟨sc, hrun, hf⟩ := reachable_follows hx
  obtain ⟨sc', hrun', hf'⟩ := reachable_follows hy
  obtain rfl : sc = sc' := by
    rw [hout, hrun'] at hrun
    exact (Option.some.inj hrun).symm
  have hea : x.s.g.ea = y.s.g.ea := hf.knows.1.symm.trans hf'.knows.1
  refine ⟨hea, hf.knows.2.symm.trans hf'.knows.2, fun r hr r' hr' hreport => ?_⟩
  rw [shown_ea (console_reachable hx) hr, shown_ea (console_reachable hy) hr', hea, hreport]

/-- The same with the threads in another order. -/
def offActions' : List Action :=
  bootActions ++ endActions ++ [.thread .sens3 (.opened 6), .thread .sens2 (.opened 6), .thread .sens3 .none,
    .thread .sens2 .none, .thread .sens1 .none] ++ List.replicate 18 (.main .none) ++
  [.main (.polled (.events fun k => k = .key))] ++ List.replicate 3 (.main .none)

theorem console_tells_off : ∃ c x y, Reachable (consoleStep c) ConsoleInit x ∧ Reachable (consoleStep c) ConsoleInit y ∧
    x.out = offConsole ∧ y.out = offConsole ∧ x.s.g.ea = y.s.g.ea := by
  obtain ⟨x, hrun, hout⟩ : ∃ x, run (consoleStep .ticks) .boot offActions =
      some x ∧ x.out = offConsole := ⟨_, rfl, rfl⟩
  obtain ⟨y, hrun', hout'⟩ : ∃ y, run (consoleStep .ticks) .boot offActions' =
      some y ∧ y.out = offConsole := ⟨_, rfl, rfl⟩
  have hx : Reachable (consoleStep .ticks) ConsoleInit x :=
    ⟨_, _, consoleInit_boot, hrun⟩
  have hy : Reachable (consoleStep .ticks) ConsoleInit y :=
    ⟨_, _, consoleInit_boot, hrun'⟩
  exact ⟨_, x, y, hx, hy, hout, hout', (console_tells _ _ x y hx hy (by rw [hout, hout'])).1⟩

end CoinMachine
