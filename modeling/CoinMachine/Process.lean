import Mathlib.Logic.Function.Basic
import CoinMachine.Drivers
import CoinMachine.Report
/-!
# What the threads of `receive/test_mac.c` share

`main` and the three sensor threads share the globals of the program (`:27-30`) and talk to the kernel. A
step of a thread is one statement; what a system call answers is the input of that step (`Input`), and the
accesses that matter to other threads or to a device are events (`Event`). Statements that only print are
left out.
-/

namespace CoinMachine

/-- `mac_state` and the coin counters. -/
structure Globals where
  mac_state : Int
  ea : Counters
deriving DecidableEq

namespace Counters

/-- The counter of a sensor thread. -/
def get (n : Sens) (ea : Counters) : Nat :=
  match n with
  | .sens1 => ea.EA500
  | .sens2 => ea.EA100
  | .sens3 => ea.EA50

/-- `++EA500`, `++EA100`, `++EA50`, on counters that an `int` holds. -/
def bump (n : Sens) (ea : Counters) : Counters :=
  match n with
  | .sens1 => { ea with EA500 := ea.EA500 + 1 }
  | .sens2 => { ea with EA100 := ea.EA100 + 1 }
  | .sens3 => { ea with EA50 := ea.EA50 + 1 }

theorem get_bump (n n' : Sens) (ea : Counters) : (ea.bump n).get n' = if n = n' then ea.get n' + 1 else ea.get n' := by
  cases n <;> cases n' <;> rfl

end Counters

/-- What `poll` reports: an error, or the `POLLIN` bits (none of them on a timeout). -/
inductive Polled where
  | error
  | events (revents : Key → Bool)

/-- A `struct pollfd` over a key descriptor; of the event masks only `POLLIN` is used. -/
structure PollFd where
  fd : Key
  events : Bool
  revents : Bool
deriving DecidableEq

/-- `poll` leaves `revents` alone when it fails. -/
def PollFd.poll (e : PollFd) : Polled → PollFd
  | .error => e
  | .events revents => { e with revents := e.events && revents e.fd }

/-- What a statement gets from outside. -/
inductive Input where
  /-- nothing: the statement makes no system call whose answer matters -/
  | none
  /-- the descriptor that `open` returns -/
  | opened (fd : Int)
  /-- `read` of one byte; a failed read leaves the buffer alone -/
  | read (b : Option Byte)
  | polled (p : Polled)
  /-- `pthread_create`; the new thread finds these bytes in its uninitialised locals -/
  | created (sens_value : Byte) (key_ev : PollFd)

/-- Who polls a key: `main` waiting for key 1, a sensor thread, or `main` in the report loop. -/
inductive Poller where
  | wait
  | thread (n : Sens)
  | report
deriving DecidableEq

inductive Event where
  /-- the poll of one key driver and whether it reported `POLLIN` -/
  | poll (who : Poller) (k : Key) (ready : Bool)
  /-- an assignment to `mac_state` -/
  | macState (v : Int)
  /-- an increment by a sensor thread of its counter -/
  | count (n : Sens)
  | create (n : Sens)
  /-- a `pthread_join` that has returned -/
  | join (n : Sens)
  /-- a byte written to the motor device -/
  | motor (v : Byte)
  /-- the branch of the report loop for a ready key: machine off, or a report -/
  | serve (k : Key)
  /-- the end of `main`, and of the process -/
  | exit
deriving DecidableEq

/-- The polls of the key drivers behind one `poll` call. A scan that finds nothing changes nothing, so of
the scans that a blocking call makes only the last one is an event. -/
def pollEvents (who : Poller) (entries : List PollFd) : Polled → List Event
  | .error => []
  | .events revents => entries.map fun e => .poll who e.fd (revents e.fd)

/-- The result of `poll`. -/
def Polled.ret (entries : List PollFd) : Polled → Int
  | .error => -1
  | .events revents => entries.countP fun e => e.events && revents e.fd

end CoinMachine
