import CoinMachine.Files
import CoinMachine.Phases
import CoinMachine.SinglePin
/-!
# The board: the program on its nine drivers, started again and again

`Machine` takes what an open returns for an input, and `Files` takes the opens for an input. Here the two are put
together: an open of the program is a call of its driver, a byte for the motor and a row for the matrix go to the
lines, and the kernel closes what a process has left open before the program is started again. A call of a driver is
one step; polls and reads answer anything, as in `Machine`.

| here | there |
| --- | --- |
| `Action.opens`   | the opens of `test_mac.c`: `:70-73`, `:112`, `:118`, `:585`, `:621`, `:658` |
| `Action.busOps`  | its writes: `:126`, `:132` (motor), `:119`, `:127` (`&dot_char[4]`), and the display loops |
| `close`          | `:563-566`, and the files that are open when the process ends |
| `exec`           | `./test_mac` |

Every process on the board is a run of `Machine` (`board_reachable`).
-/

namespace CoinMachine

open Transition

structure Board where
  s : State
  /-- what the process has done -/
  log : List Event
  files : Files
  /-- rows and columns at each delay of a frame, since the program was started -/
  lit : List (Byte × Byte)

def Board.bus (x : Board) : Bus := x.files.kernel.bus

/-- What a call of a driver meets: the answers of the kernel to an open, and the value that the read of a write-only
register returns. -/
structure Meets where
  avail : Avail
  reg : Word

inductive BoardAct where
  | proc (a : Action) (m : Meets)
  /-- a file of the process is closed -/
  | close (d : Driver)
  /-- the program is started; its locals hold anything -/
  | exec (m : Main)
  /-- the outside world moves the lines that the board does not drive -/
  | lines (L : Word)

/-! ## The calls of the program -/

def Action.input : Action → Input
  | .main inp => inp
  | .thread _ inp => inp

/-- What `open` has returned. -/
def Input.fd : Input → Int
  | .opened fd => fd
  | _ => -1

/-- The driver whose device file the action opens. -/
def Action.opens (s : State) : Action → Option Driver
  | .main _ =>
    match s.main.pc with
    | .openKey k => some (.key k)
    | .openMot => some .mot
    | .openDot => some .dot
    | _ => none
  | .thread n _ => if (s.th n).map Thread.pc = some .openSens then some (.sens n) else none

/-- `motor_write` of one byte. -/
def motorCall (v : Byte) (reg : Word) : Issued where
  cmd := .motor v
  steps := (PinCmd.motor v).ops.map fun op => (op, reg)
  steps_ops := by rw [List.map_map]; exact List.map_id _

theorem blank_lt : 4 < 5 := by simp

/-- `dot_char[4]` -/
def blankRow : Row := dotChar.get ⟨4, blank_lt⟩

/-- What the action does to the bank. A write to a file that is not open does nothing. -/
def Action.busOps (s s' : State) (reg : Word) : Action → List BusOp
  | .main _ =>
    match s.main.pc with
    | .motorOn | .motorOff => if 0 ≤ s.main.mot_fd then (motorCall s.main.mot_data reg).busOps else []
    | .clearDot | .blankDot => if 0 ≤ s.main.dot_fd then scanOut blankRow else []
    | .branch _ =>
      -- the writes of the display loop that the branch has run
      (s'.main.loop.log.drop s.main.loop.log.length).flatMap fun x => x.shown.flatMap fun w => w.out.ops
    | _ => []
  | .thread _ _ => []

/-- A process closes the keys at its end, and the kernel the rest. -/
def MainPc.closes : MainPc → Driver → Bool
  | .exited, _ => true
  | .closeKeys, .key _ => true
  | _, _ => false

def Driver.all : List Driver :=
  [.key .key, .key .key2, .key .key3, .key .key4, .sens .sens1, .sens .sens2, .sens .sens3, .mot, .dot]

theorem Driver.mem_all (d : Driver) : d ∈ Driver.all := by
  unfold Driver.all
  cases d with
  | key k => cases k <;> simp
  | sens n => cases n <;> simp
  | mot => simp
  | dot => simp

/-- The program at its first statement. -/
def State.exec (m : Main) : State where
  g := ⟨0, 0, 0, 0⟩
  main := { m with pc := .openKey .key, mot_data := 1, loop := { m.loop with l := { m.loop.l with time := 0 }, log := [] } }
  th := fun _ => none

theorem init_exec (m : Main) : Init (.exec m, []) := ⟨rfl, rfl, fun _ => rfl, rfl, rfl, rfl, rfl⟩

/-- The lines of the motor and of the matrix. -/
def driven (pin : Nat) : Bool :=
  match owner pin with
  | some .mot | some .dot => true
  | _ => false

def Files.setBus (f : Files) (b : Bus) : Files := { f with kernel := { f.kernel with bus := b } }

def boardStep (c : Clock) (x : Board) : BoardAct → Option Board
  | .proc a m => do
    let y ← logStep c (x.s, x.log) a
    match a.opens x.s with
    | some d =>
      -- a descriptor is returned exactly if the driver has returned 0
      if 0 ≤ a.input.fd ↔ 0 ≤ (d.open m.avail x.files.kernel).1 then do
        let files ← fileStep x.files (.open d m.avail)
        some { x with s := y.1, log := y.2, files := files }
      else none
    | none =>
      let ops := a.busOps x.s y.1 m.reg
      some { s := y.1, log := y.2, files := x.files.setBus (x.bus.execAll ops), lit := x.lit ++ seen (x.bus.trace ops) }
  | .close d =>
    if x.s.main.pc.closes d then do
      let files ← fileStep x.files (.release d)
      some { x with files := files }
    else none
  | .exec m =>
    if x.s.main.pc = .exited ∧ ∀ d ∈ Driver.all, x.files.held d = false then
      some { s := .exec m, log := [], files := x.files, lit := [] }
    else none
  | .lines L =>
    if ∀ pin ∈ List.range 32, driven pin = true → L.getLsbD pin = x.bus.lines.getLsbD pin then
      some { x with files := x.files.setBus { x.bus with lines := L } }
    else none

/-- The modules are loaded, and the program is started for the first time. -/
structure BoardInit (x : Board) : Prop where
  prog : Init (x.s, x.log)
  files : x.files.Init
  live : x.files.kernel.live = []
  lit : x.lit = []

/-! ## What each step does -/

section Steps
variable {c : Clock} {x x' : Board}

/-- A step of the program is one, and it opens a device file or works on the lines. -/
theorem boardStep_proc {a : Action} {m : Meets} (h : boardStep c x (.proc a m) = some x') :
    logStep c (x.s, x.log) a = some (x'.s, x'.log) ∧
    ((∃ d, a.opens x.s = some d ∧ (0 ≤ a.input.fd ↔ 0 ≤ (d.open m.avail x.files.kernel).1) ∧
        fileStep x.files (.open d m.avail) = some x'.files ∧ x'.lit = x.lit) ∨
      (a.opens x.s = none ∧ x'.files = x.files.setBus (x.bus.execAll (a.busOps x.s x'.s m.reg)) ∧
        x'.lit = x.lit ++ seen (x.bus.trace (a.busOps x.s x'.s m.reg)))) := by
  obtain ⟨⟨s', log'⟩, hy, h⟩ := Option.bind_eq_some_iff.1 h
  cases ho : a.opens x.s with
  | some d =>
    simp only [ho] at h
    split at h
    · rename_i hfd
      obtain ⟨files, hf, h⟩ := Option.bind_eq_some_iff.1 h
      cases h
      exact ⟨hy, Or.inl ⟨d, rfl, hfd, hf, rfl⟩⟩
    · cases h
  | none =>
    simp only [ho] at h
    cases h
    exact ⟨hy, Or.inr ⟨rfl, rfl, rfl⟩⟩

theorem boardStep_close {d : Driver} (h : boardStep c x (.close d) = some x') :
    x.s.main.pc.closes d = true ∧ fileStep x.files (.release d) = some x'.files ∧
    x'.s = x.s ∧ x'.log = x.log ∧ x'.lit = x.lit := by
  simp only [boardStep] at h
  split at h
  · rename_i hc
    obtain ⟨files, hf, h⟩ := Option.bind_eq_some_iff.1 h
    cases h
    exact ⟨hc, hf, rfl, rfl, rfl⟩
  · cases h

theorem boardStep_exec {m : Main} (h : boardStep c x (.exec m) = some x') :
    x.s.main.pc = .exited ∧ (∀ d, x.files.held d = false) ∧ x' = ⟨.exec m, [], x.files, []⟩ := by
  simp only [boardStep] at h
  split at h
  · rename_i hc
    cases h
    exact ⟨hc.1, fun d => hc.2 d d.mem_all, rfl⟩
  · cases h

theorem boardStep_lines {L : Word} (h : boardStep c x (.lines L) = some x') :
    (∀ pin < 32, driven pin = true → L.getLsbD pin = x.bus.lines.getLsbD pin) ∧
    x' = { x with files := x.files.setBus { x.bus with lines := L } } := by
  simp only [boardStep] at h
  split at h
  · rename_i hc
    cases h
    exact ⟨fun pin hp => hc pin (List.mem_range.2 hp), rfl⟩
  · cases h

end Steps

/-- The current process is one of `Machine`. -/
theorem board_reachable {c : Clock} {x : Board} (h : Reachable (boardStep c) BoardInit x) :
    Reachable (logStep c) Init (x.s, x.log) := by
  refine h.invariant (P := fun x => Reachable (logStep c) Init (x.s, x.log)) (fun _ hx => .of_init hx.prog) ?_
  intro x b x' hx hb
  cases b with
  | proc a m => exact hx.snoc (boardStep_proc hb).1
  | close d =>
    obtain ⟨-, -, hs, hlog, -⟩ := boardStep_close hb
    rwa [hs, hlog]
  | exec m =>
    obtain ⟨-, -, rfl⟩ := boardStep_exec hb
    exact .of_init (init_exec m)
  | lines L =>
    obtain ⟨-, rfl⟩ := boardStep_lines hb
    exact hx

end CoinMachine
