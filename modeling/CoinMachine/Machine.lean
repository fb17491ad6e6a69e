import CoinMachine.ReportLoop
import CoinMachine.Sensor
import CoinMachine.Lib.EventLog
/-!
# The coin machine: `main` and its three sensor threads (`receive/test_mac.c`)

A state holds the globals, `main` with its locals, and the threads that were created; an action is one
statement of one of the four. What `poll`, `read` and `open` answer is arbitrary, `pthread_create`
succeeds, and `pthread_join` waits until its thread is `done`. The statements of a report branch touch
nothing but the locals of `main` and the dot device, so a branch is one step (`Report.serve`); a run ends
where a branch is undefined. The poll set of the report loop is taken as large enough for its four entries.

| here | there |
| --- | --- |
| `openKey`, `testKey`, `testKeys`                       | `:70-86` |
| `waitTest` … `setStart`                                | `:89-109`, waiting for key 1 |
| `openMot`, `openDot`, `clearDot`                       | `:112-119` |
| `coinTest`, `create`, `motorOn`, `blankDot`, `join`    | `:120-129`, the coin phase |
| `setOff`, `motorOff`, `testDot`                        | `:131-141` |
| `reportTest`, `fillFd`, `fillEvents`, `reportPoll`     | `:144-162` |
| `reportError`, `testOff`, `testReport`, `branch`       | `:166-557` |
| `closeKeys`                                            | `:561-569` |
-/

namespace CoinMachine

open Transition

inductive MainPc where
  | openKey (k : Key)
  | testKey
  | testKeys
  | waitTest
  | waitFd
  | waitEvents
  | waitPoll
  | waitError
  | waitReady
  | setStart
  | openMot
  | openDot
  | clearDot
  | coinTest
  | create (n : Sens)
  | motorOn
  | blankDot
  | join (n : Sens)
  | setOff
  | motorOff
  | testDot
  | reportTest
  | fillFd (i : Fin 4)
  | fillEvents (i : Fin 4)
  | reportPoll
  | reportError
  | testOff
  | testReport (r : Report)
  | branch (r : Report)
  | closeKeys
  | exited
deriving DecidableEq

/-- `main`: where it is, and its locals. -/
structure Main where
  pc : MainPc
  key_fd : Key → Int
  key1_ret : Int
  key2_ret : Int
  key_ev : PollFd
  key2_ev : Fin 4 → PollFd
  mot_fd : Int
  dot_fd : Int
  mot_data : Byte
  loop : LoopState

structure State where
  g : Globals
  main : Main
  th : Sens → Option Thread

/-- The order of the opens. -/
def Key.idx : Key → Nat
  | .key => 0
  | .key2 => 1
  | .key3 => 2
  | .key4 => 3

/-! ## The statements of `main` -/

def MainPc.afterOpen : Key → MainPc
  | .key => .openKey .key2
  | .key2 => .openKey .key3
  | .key3 => .openKey .key4
  | .key4 => .testKey

def MainPc.afterCreate : Sens → MainPc
  | .sens1 => .create .sens2
  | .sens2 => .create .sens3
  | .sens3 => .motorOn

def MainPc.afterJoin : Sens → MainPc
  | .sens1 => .join .sens2
  | .sens2 => .join .sens3
  | .sens3 => .coinTest

def MainPc.afterFill (i : Fin 4) : MainPc :=
  match i with
  | 0 => .fillFd 1
  | 1 => .fillFd 2
  | 2 => .fillFd 3
  | 3 => .reportPoll

def MainPc.afterReport : Report → MainPc
  | .totalMoney => .testReport .eachCoin
  | .eachCoin => .testReport .totalCoin
  | .totalCoin => .reportTest

/-- The descriptor that the report loop puts into an entry of its poll set (`:152-159`). -/
def entryKey (i : Fin 4) : Key :=
  match i with
  | 0 => .key
  | 1 => .key2
  | 2 => .key3
  | 3 => .key4

/-- The entry that switches the machine off (`:176`). -/
def offEntry : Fin 4 := 0

/-- The entry that a report tests (`:182`, `:260`, `:482`). -/
def Report.entry : Report → Fin 4
  | .totalMoney => 1
  | .eachCoin => 2
  | .totalCoin => 3

def State.goto (s : State) (pc : MainPc) : State := { s with main := { s.main with pc := pc } }

/-- `return` from `main` or `exit(0)`. -/
def State.exit (s : State) : State × List Event := (s.goto .exited, [.exit])

/-- One statement of `main`: the new state, and what happened. -/
def mainStep (c : Clock) (s : State) (inp : Input) : Option (State × List Event) :=
  let m := s.main
  match m.pc, inp with
  | .openKey k, .opened fd =>
    some ({ s with main := { m with pc := .afterOpen k, key_fd := Function.update m.key_fd k fd } }, [])
  | .testKey, .none => some (if m.key_fd .key < 0 then s.exit else (s.goto .testKeys, []))
  | .testKeys, .none =>
    some (if m.key_fd .key2 < 0 ∨ m.key_fd .key3 < 0 ∨ m.key_fd .key4 < 0 then s.exit else (s.goto .waitTest, []))
  | .waitTest, .none => some (s.goto (if s.g.mac_state = 0 then .waitFd else .openMot), [])
  | .waitFd, .none => some ({ s with main := { m with pc := .waitEvents, key_ev := { m.key_ev with fd := .key } } }, [])
  | .waitEvents, .none =>
    some ({ s with main := { m with pc := .waitPoll, key_ev := { m.key_ev with events := true } } }, [])
  | .waitPoll, .polled p =>
    some ({ s with main := { m with pc := .waitError, key_ev := m.key_ev.poll p, key1_ret := p.ret [m.key_ev] } },
      pollEvents .wait [m.key_ev] p)
  | .waitError, .none => some (if m.key1_ret < 0 then s.exit else (s.goto .waitReady, []))
  | .waitReady, .none => some (s.goto (if m.key_ev.revents then .setStart else .waitTest), [])
  | .setStart, .none => some ({ s.goto .waitTest with g := { s.g with mac_state := 1 } }, [.macState 1])
  | .openMot, .opened fd => some ({ s with main := { m with pc := .openDot, mot_fd := fd } }, [])
  | .openDot, .opened fd => some ({ s with main := { m with pc := .clearDot, dot_fd := fd } }, [])
  | .clearDot, .none => some (s.goto .coinTest, [])
  | .coinTest, .none => some (s.goto (if s.g.mac_state = 1 then .create .sens1 else .setOff), [])
  | .create n, .created sens_value key_ev =>
    some ({ s.goto (.afterCreate n) with th := Function.update s.th n (some (.start sens_value key_ev)) }, [.create n])
  | .motorOn, .none => some (s.goto .blankDot, [.motor m.mot_data])
  | .blankDot, .none => some (s.goto (.join .sens1), [])
  | .join n, .none =>
    if (s.th n).map Thread.pc = some .done then some (s.goto (.afterJoin n), [.join n]) else none
  | .setOff, .none => some ({ s with main := { m with pc := .motorOff, mot_data := 0 } }, [])
  | .motorOff, .none => some (s.goto .testDot, [.motor m.mot_data])
  | .testDot, .none => some (if m.dot_fd < 0 then s.exit else (s.goto .reportTest, []))
  | .reportTest, .none => some (s.goto (if s.g.mac_state = 2 then .fillFd 0 else .closeKeys), [])
  | .fillFd i, .none =>
    some ({ s with main := { m with pc := .fillEvents i
                                    key2_ev := Function.update m.key2_ev i { m.key2_ev i with fd := entryKey i } } }, [])
  | .fillEvents i, .none =>
    some ({ s with main := { m with pc := .afterFill i
                                    key2_ev := Function.update m.key2_ev i { m.key2_ev i with events := true } } }, [])
  | .reportPoll, .polled p =>
    some ({ s with main := { m with pc := .reportError, key2_ev := fun i => (m.key2_ev i).poll p
                                    key2_ret := p.ret (List.ofFn m.key2_ev) } },
      pollEvents .report (List.ofFn m.key2_ev) p)
  | .reportError, .none => some (if m.key2_ret < 0 then s.exit else (s.goto .testOff, []))
  | .testOff, .none =>
    some (if (m.key2_ev 0).revents then (s.goto .closeKeys, [.serve .key]) else (s.goto (.testReport .totalMoney), []))
  | .testReport r, .none =>
    some (if (m.key2_ev r.entry).revents then (s.goto (.branch r), [.serve r.key]) else (s.goto (.afterReport r), []))
  | .branch r, .none =>
    (r.serve c { m.loop with ea := s.g.ea }).map fun t =>
      ({ s with main := { m with pc := .afterReport r, loop := t } }, [])
  | .closeKeys, .none => some s.exit
  | _, _ => none

/-! ## Runs -/

inductive Action where
  | main (inp : Input)
  | thread (n : Sens) (inp : Input)

/-- The end of `main` ends the process. -/
def step (c : Clock) (s : State) : Action → Option (State × List Event)
  | .main inp => mainStep c s inp
  | .thread n inp =>
    if s.main.pc = .exited then none
    else do
      let t ← s.th n
      let r ← t.step n s.g inp
      some ({ s with g := r.1, th := Function.update s.th n (some r.2.1) }, r.2.2)

/-- A step that writes its events to a log. -/
def logStep (c : Clock) (x : State × List Event) (a : Action) : Option (State × List Event) :=
  (step c x.1 a).map fun r => (r.1, x.2 ++ r.2)

/-- The start of the program: nothing was shown and nothing has happened; most locals of `main` are not
initialised. -/
structure Init (x : State × List Event) : Prop where
  pc : x.1.main.pc = .openKey .key
  g : x.1.g = ⟨0, 0, 0, 0⟩
  th : ∀ n, x.1.th n = none
  mot_data : x.1.main.mot_data = 1
  time : x.1.main.loop.l.time = 0
  shown : x.1.main.loop.log = []
  log : x.2 = []

end CoinMachine
