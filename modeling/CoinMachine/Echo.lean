import CoinMachine.CMem
import CoinMachine.Lib.CString
import CoinMachine.Lib.EventLog
import CoinMachine.Lib.Transition
/-!
# The echo pair `code/tcp/client.c`, `code/tcp/server.c`

Client and server are two processes with a byte stream in each direction. A write hands over all its bytes;
a read takes any non-empty prefix of what is there, up to its limit, and returns 0 only at the end of the
stream. A step is a call of one process with the statements after it that touch its own memory only, and
the steps of the two come in any order.

| here | there |
| --- | --- |
| `.prompt`, `.typed`, `.wait` | `client.c:41-43`, `:45-48`, `:50-55` |
| `.read`, `.echo`, `.out`, `.clear` | `server.c:52`, `:54`, `:55`, `:56` |

The stream keeps no message boundaries: what the client reads at once need not be what it wrote at once
(`answers_match_iff`), but no byte is lost or changed on the way (`echo_stream`).
-/

namespace CoinMachine

open Transition CString

def BUFSIZE : Nat := 30

/-- `fgets`: the bytes up to the end of the line, `n` at most. -/
def lineOf : Nat → List Byte → List Byte
  | 0, _ => []
  | _, [] => []
  | n + 1, b :: bs => if b = 10 then [b] else b :: lineOf n bs

/-- `"q\n"` -/
def quit : List Byte := [113, 10]

inductive ClientPc where
  /-- before `fgets` -/
  | prompt
  /-- before `strcmp` and `write` -/
  | typed
  /-- before `read` -/
  | wait
  | closed
deriving DecidableEq

inductive ServerPc where
  /-- the loop head -/
  | read
  /-- before the `write` to the client, `str_len` bytes having been read -/
  | echo (str_len : Nat)
  /-- before the `write` to the standard output -/
  | out (str_len : Nat)
  /-- before `memset` -/
  | clear
  | closed
deriving DecidableEq

structure Echo where
  client : ClientPc
  server : ServerPc
  /-- `message` of the client -/
  cbuf : List Byte
  /-- `message` of the server -/
  sbuf : List Byte
  /-- what is typed and not yet read -/
  stdin : List Byte
  toServer : List Byte
  toClient : List Byte
  /-- the messages that the client has written -/
  msgs : List (List Byte)
  /-- all bytes that the client has read -/
  received : List Byte
  /-- the texts after `Message from server` -/
  texts : List (List Byte)
  /-- all bytes that the server has written back -/
  echoed : List Byte
  /-- the standard output of the server -/
  stdout : List Byte

inductive EchoAct where
  | prompt
  | write
  /-- the client's `read` returns `n` -/
  | recv (n : Nat)
  /-- the server's `read` returns `n` -/
  | read (n : Nat)
  | echo
  | out
  | clear

/-- What `read` may return: `n` bytes of the stream, none only if it has ended. -/
def ReadReturns (limit : Nat) (stream : List Byte) (ended : Prop) (n : Nat) : Prop :=
  n ≤ limit ∧ n ≤ stream.length ∧ (n = 0 → ended ∧ stream = [])

instance (limit : Nat) (stream : List Byte) (ended : Prop) [Decidable ended] (n : Nat) :
    Decidable (ReadReturns limit stream ended n) := inferInstanceAs (Decidable (_ ∧ _ ∧ _))

def echoStep (s : Echo) : EchoAct → Option Echo
  | .prompt =>
    if s.client = .prompt then
      let zeros := List.replicate BUFSIZE 0
      -- at the end of the input `fgets` leaves the buffer as it is
      let cbuf := if s.stdin = [] then zeros else overwrite zeros (lineOf (BUFSIZE - 1) s.stdin ++ [0])
      some { s with client := .typed, cbuf := cbuf, stdin := s.stdin.drop (lineOf (BUFSIZE - 1) s.stdin).length }
    else none
  | .write =>
    if s.client = .typed then do
      let message ← cstr 0 s.cbuf
      if message = quit then some { s with client := .closed }
      else some { s with client := .wait, toServer := s.toServer ++ message, msgs := s.msgs ++ [message] }
    else none
  | .recv n =>
    if s.client = .wait ∧ ReadReturns (BUFSIZE - 1) s.toClient (s.server = .closed) n then do
      let cbuf := (overwrite s.cbuf (s.toClient.take n)).set n 0
      let text ← cstr 0 cbuf
      some { s with client := .prompt, cbuf := cbuf, toClient := s.toClient.drop n
                    received := s.received ++ s.toClient.take n, texts := s.texts ++ [text] }
    else none
  | .read n =>
    if s.server = .read ∧ ReadReturns BUFSIZE s.toServer (s.client = .closed) n then
      if n = 0 then some { s with server := .closed }
      else some { s with server := .echo n, sbuf := overwrite s.sbuf (s.toServer.take n), toServer := s.toServer.drop n }
    else none
  | .echo =>
    match s.server with
    | .echo n => some { s with server := .out n, toClient := s.toClient ++ s.sbuf.take n, echoed := s.echoed ++ s.sbuf.take n }
    | _ => none
  | .out =>
    match s.server with
    | .out n => some { s with server := .clear, stdout := s.stdout ++ s.sbuf.take n }
    | _ => none
  | .clear => if s.server = .clear then some { s with server := .read, sbuf := List.replicate BUFSIZE 0 } else none

/-- The steps of the server. -/
def EchoAct.ofServer : EchoAct → Prop
  | .read _ | .echo | .out | .clear => True
  | _ => False

/-- The connection is there and nothing has been typed; the buffers hold anything. -/
structure EchoInit (s : Echo) : Prop where
  client : s.client = .prompt
  server : s.server = .read
  cbuf : s.cbuf.length = BUFSIZE
  sbuf : s.sbuf.length = BUFSIZE
  toServer : s.toServer = []
  toClient : s.toClient = []
  msgs : s.msgs = []
  received : s.received = []
  texts : s.texts = []
  echoed : s.echoed = []
  stdout : s.stdout = []

/-- What the server has read and not yet written back. -/
def Echo.held (s : Echo) : List Byte :=
  match s.server with
  | .echo n => s.sbuf.take n
  | _ => []

/-! ## What each step does -/

section Steps
variable {s s' : Echo} {n : Nat}

theorem echoStep_prompt (h : echoStep s .prompt = some s') : s.client = .prompt ∧ s' = { s with
    client := .typed
    cbuf := if s.stdin = [] then List.replicate BUFSIZE 0
      else overwrite (List.replicate BUFSIZE 0) (lineOf (BUFSIZE - 1) s.stdin ++ [0])
    stdin := s.stdin.drop (lineOf (BUFSIZE - 1) s.stdin).length } := by
  simp only [echoStep] at h
  split at h
  case isTrue hc => exact ⟨hc, (Option.some.inj h).symm⟩
  case isFalse => cases h

/-- The client sends the line, or ends if it is `q`. -/
theorem echoStep_write (h : echoStep s .write = some s') : s.client = .typed ∧ ∃ message, cstr 0 s.cbuf = some message ∧
    (message = quit ∧ s' = { s with client := .closed } ∨
      message ≠ quit ∧
        s' = { s with client := .wait, toServer := s.toServer ++ message, msgs := s.msgs ++ [message] }) := by
  simp only [echoStep, Option.bind_eq_bind] at h
  split at h
  case isTrue hc =>
    obtain ⟨message, hmsg, h⟩ := Option.bind_eq_some_iff.1 h
    refine ⟨hc, message, hmsg, ?_⟩
    split at h
    case isTrue hq => exact Or.inl ⟨hq, (Option.some.inj h).symm⟩
    case isFalse hq => exact Or.inr ⟨hq, (Option.some.inj h).symm⟩
  case isFalse => cases h

theorem echoStep_recv (h : echoStep s (.recv n) = some s') :
    s.client = .wait ∧ ReadReturns (BUFSIZE - 1) s.toClient (s.server = .closed) n ∧
    ∃ text, cstr 0 ((overwrite s.cbuf (s.toClient.take n)).set n 0) = some text ∧ s' = { s with
      client := .prompt
      cbuf := (overwrite s.cbuf (s.toClient.take n)).set n 0
      toClient := s.toClient.drop n
      received := s.received ++ s.toClient.take n
      texts := s.texts ++ [text] } := by
  simp only [echoStep, Option.bind_eq_bind] at h
  split at h
  case isTrue hc =>
    obtain ⟨text, htext, h⟩ := Option.bind_eq_some_iff.1 h
    exact ⟨hc.1, hc.2, text, htext, (Option.some.inj h).symm⟩
  case isFalse => cases h

/-- The server takes some bytes, or ends at the end of the stream. -/
theorem echoStep_read (h : echoStep s (.read n) = some s') :
    s.server = .read ∧ ReadReturns BUFSIZE s.toServer (s.client = .closed) n ∧
    (n = 0 ∧ s' = { s with server := .closed } ∨
      n ≠ 0 ∧ s' = { s with server := .echo n, sbuf := overwrite s.sbuf (s.toServer.take n), toServer := s.toServer.drop n }) := by
  simp only [echoStep] at h
  split at h
  case isTrue hc =>
    refine ⟨hc.1, hc.2, ?_⟩
    split at h
    case isTrue hn => exact Or.inl ⟨hn, (Option.some.inj h).symm⟩
    case isFalse hn => exact Or.inr ⟨hn, (Option.some.inj h).symm⟩
  case isFalse => cases h

theorem echoStep_echo (h : echoStep s .echo = some s') : ∃ n, s.server = .echo n ∧
    s' = { s with server := .out n, toClient := s.toClient ++ s.sbuf.take n, echoed := s.echoed ++ s.sbuf.take n } := by
  simp only [echoStep] at h
  split at h
  case h_1 n hc => exact ⟨n, hc, (Option.some.inj h).symm⟩
  case h_2 => cases h

theorem echoStep_out (h : echoStep s .out = some s') : ∃ n, s.server = .out n ∧
    s' = { s with server := .clear, stdout := s.stdout ++ s.sbuf.take n } := by
  simp only [echoStep] at h
  split at h
  case h_1 n hc => exact ⟨n, hc, (Option.some.inj h).symm⟩
  case h_2 => cases h

theorem echoStep_clear (h : echoStep s .clear = some s') :
    s.server = .clear ∧ s' = { s with server := .read, sbuf := List.replicate BUFSIZE 0 } := by
  simp only [echoStep] at h
  split at h
  case isTrue hc => exact ⟨hc, (Option.some.inj h).symm⟩
  case isFalse => cases h

/-- The server leaves the client, its buffer and its input as they are. -/
theorem echoStep_server {a : EchoAct} (ha : a.ofServer) (h : echoStep s a = some s') :
    s'.client = s.client ∧ s'.cbuf = s.cbuf ∧ s'.stdin = s.stdin ∧ s'.msgs = s.msgs ∧ s'.received = s.received ∧
    s'.texts = s.texts := by
  cases a with
  | prompt => cases ha
  | write => cases ha
  | recv n => cases ha
  | read n => obtain ⟨-, -, ⟨-, rfl⟩ | ⟨-, rfl⟩⟩ := echoStep_read h <;> exact ⟨rfl, rfl, rfl, rfl, rfl, rfl⟩
  | echo =>
    obtain ⟨n, -, rfl⟩ := echoStep_echo h
    exact ⟨rfl, rfl, rfl, rfl, rfl, rfl⟩
  | out =>
    obtain ⟨n, -, rfl⟩ := echoStep_out h
    exact ⟨rfl, rfl, rfl, rfl, rfl, rfl⟩
  | clear =>
    obtain ⟨-, rfl⟩ := echoStep_clear h
    exact ⟨rfl, rfl, rfl, rfl, rfl, rfl⟩

end Steps

/-! ## What no step changes -/

theorem length_lineOf (n : Nat) (stdin : List Byte) : (lineOf n stdin).length ≤ n := by
  induction n generalizing stdin with
  | zero => simp [lineOf]
  | succ n ih =>
    cases stdin with
    | nil => simp [lineOf]
    | cons b bs =>
      have hbs := ih bs
      rw [lineOf]
      split
      · simp
      · rw [List.length_cons]
        omega

/-- The buffer after `fgets` holds a terminator. -/
theorem length_fgets (stdin : List Byte) :
    (overwrite (List.replicate BUFSIZE 0) (lineOf (BUFSIZE - 1) stdin ++ [0])).length = BUFSIZE := by
  have h := length_lineOf (BUFSIZE - 1) stdin
  rw [length_overwrite, List.length_replicate]
  rw [List.length_append, List.length_singleton, List.length_replicate]
  unfold BUFSIZE at h ⊢
  omega

/-- What the server has on its standard output, and still has to put there. -/
def Echo.printed (s : Echo) : List Byte :=
  match s.server with
  | .out n => s.stdout ++ s.sbuf.take n
  | _ => s.stdout

structure EchoInv (s : Echo) : Prop where
  conserve : s.msgs.flatten = s.received ++ s.toClient ++ s.held ++ s.toServer
  shown : s.texts.flatten = s.received
  nulFree : (0 : Byte) ∉ s.msgs.flatten
  printed : s.printed = s.echoed
  cbuf : s.cbuf.length = BUFSIZE
  sbuf : s.sbuf.length = BUFSIZE
  typed : s.client = .typed → (0 : Byte) ∈ s.cbuf
  count : s.msgs.length = s.texts.length + if s.client = .wait then 1 else 0

theorem EchoInv.init {s : Echo} (h : EchoInit s) : EchoInv s := by
  constructor
  · simp [h.msgs, h.received, h.toClient, h.toServer, Echo.held, h.server]
  · simp [h.texts, h.received]
  · simp [h.msgs]
  · simp [Echo.printed, h.server, h.stdout, h.echoed]
  · exact h.cbuf
  · exact h.sbuf
  · rw [h.client]
    exact ClientPc.noConfusion
  · simp [h.msgs, h.texts, h.client]

theorem EchoInv.prompt {s s' : Echo} (hs : EchoInv s) (h : echoStep s .prompt = some s') : EchoInv s' := by
  obtain ⟨hc, rfl⟩ := echoStep_prompt h
  refine ⟨hs.conserve, hs.shown, hs.nulFree, hs.printed, ?_, hs.sbuf, fun _ => ?_, ?_⟩
  · dsimp only
    split
    · exact List.length_replicate
    · exact length_fgets s.stdin
  · dsimp only
    split
    · exact List.mem_replicate.2 ⟨by decide, rfl⟩
    · simp [overwrite]
  · have hcount := hs.count
    rw [hc] at hcount
    exact hcount

theorem EchoInv.write {s s' : Echo} (hs : EchoInv s) (h : echoStep s .write = some s') : EchoInv s' := by
  obtain ⟨hc, message, hmsg, ⟨-, rfl⟩ | ⟨-, rfl⟩⟩ := echoStep_write h
  all_goals
    have hcount := hs.count
    rw [hc] at hcount
  · exact ⟨hs.conserve, hs.shown, hs.nulFree, hs.printed, hs.cbuf, hs.sbuf, ClientPc.noConfusion, hcount⟩
  · refine ⟨?_, hs.shown, ?_, hs.printed, hs.cbuf, hs.sbuf, ClientPc.noConfusion, ?_⟩
    · have hconserve := hs.conserve
      simp only [List.flatten_append, List.flatten_cons, List.flatten_nil, List.append_nil]
      rw [hconserve, List.append_assoc _ s.toServer]
      rfl
    · simpa using ⟨by simpa using hs.nulFree, not_mem_of_cstr hmsg⟩
    · simp only [List.length_append, List.length_singleton, hcount]
      rfl

/-- The text shown is what has been read: it holds no terminator of its own, and it fits. -/
theorem EchoInv.recv_text {s : Echo} {n : Nat} {text : List Byte} (hs : EchoInv s)
    (hread : ReadReturns (BUFSIZE - 1) s.toClient (s.server = .closed) n)
    (htext : cstr 0 ((overwrite s.cbuf (s.toClient.take n)).set n 0) = some text) :
    text = s.toClient.take n ∧ (s.toClient.take n).length < s.cbuf.length := by
  have htake : (s.toClient.take n).length = n := List.length_take_of_le hread.2.1
  have hnul : (0 : Byte) ∉ s.toClient.take n := by
    intro hmem
    apply hs.nulFree
    rw [hs.conserve]
    simp only [List.mem_append]
    exact Or.inl (Or.inl (Or.inr (List.mem_of_mem_take hmem)))
  have hlt : (s.toClient.take n).length < s.cbuf.length := by
    have hn := hread.1
    rw [htake, hs.cbuf]
    unfold BUFSIZE at hn ⊢
    omega
  have hcstr := cstr_terminate hnul hlt
  rw [htake, htext] at hcstr
  exact ⟨Option.some.inj hcstr, hlt⟩

theorem EchoInv.recv {s s' : Echo} {n : Nat} (hs : EchoInv s) (h : echoStep s (.recv n) = some s') : EchoInv s' := by
  obtain ⟨hwait, hread, text, htext, rfl⟩ := echoStep_recv h
  obtain ⟨rfl, hlt⟩ := hs.recv_text hread htext
  refine ⟨?_, ?_, hs.nulFree, hs.printed, ?_, hs.sbuf, ClientPc.noConfusion, ?_⟩
  · have hconserve := hs.conserve
    rw [← List.take_append_drop n s.toClient, ← List.append_assoc] at hconserve
    exact hconserve
  · rw [List.flatten_append, hs.shown]
    simp
  · rw [List.length_set, length_overwrite (Nat.le_of_lt hlt)]
    exact hs.cbuf
  · have hcount := hs.count
    rw [hwait] at hcount
    simp [hcount]

theorem EchoInv.read {s s' : Echo} {n : Nat} (hs : EchoInv s) (h : echoStep s (.read n) = some s') : EchoInv s' := by
  obtain ⟨hread, hreturns, hs'⟩ := echoStep_read h
  have hconserve := hs.conserve
  have hprinted := hs.printed
  simp only [Echo.held, hread, List.append_nil] at hconserve
  simp only [Echo.printed, hread] at hprinted
  rcases hs' with ⟨-, rfl⟩ | ⟨-, rfl⟩
  · refine ⟨?_, hs.shown, hs.nulFree, hprinted, hs.cbuf, hs.sbuf, hs.typed, hs.count⟩
    simpa [Echo.held] using hconserve
  · have htake : (s.toServer.take n).length = n := List.length_take_of_le hreturns.2.1
    have hheld : (overwrite s.sbuf (s.toServer.take n)).take n = s.toServer.take n := by
      have h := take_overwrite s.sbuf (s.toServer.take n)
      rwa [htake] at h
    refine ⟨?_, hs.shown, hs.nulFree, hprinted, hs.cbuf, ?_, hs.typed, hs.count⟩
    · simp only [Echo.held]
      rw [hheld, List.append_assoc, List.take_append_drop]
      exact hconserve
    · dsimp only
      rw [length_overwrite (by rw [htake, hs.sbuf]; exact hreturns.1)]
      exact hs.sbuf

theorem EchoInv.echo {s s' : Echo} (hs : EchoInv s) (h : echoStep s .echo = some s') : EchoInv s' := by
  obtain ⟨n, hecho, rfl⟩ := echoStep_echo h
  have hconserve := hs.conserve
  have hprinted := hs.printed
  simp only [Echo.held, hecho] at hconserve
  simp only [Echo.printed, hecho] at hprinted
  refine ⟨?_, hs.shown, hs.nulFree, ?_, hs.cbuf, hs.sbuf, hs.typed, hs.count⟩
  · simpa [Echo.held] using hconserve
  · simp [Echo.printed, hprinted]

theorem EchoInv.out {s s' : Echo} (hs : EchoInv s) (h : echoStep s .out = some s') : EchoInv s' := by
  obtain ⟨n, hout, rfl⟩ := echoStep_out h
  have hconserve := hs.conserve
  have hprinted := hs.printed
  simp only [Echo.held, hout] at hconserve
  simp only [Echo.printed, hout] at hprinted
  exact ⟨hconserve, hs.shown, hs.nulFree, hprinted, hs.cbuf, hs.sbuf, hs.typed, hs.count⟩

theorem EchoInv.clear {s s' : Echo} (hs : EchoInv s) (h : echoStep s .clear = some s') : EchoInv s' := by
  obtain ⟨hclear, rfl⟩ := echoStep_clear h
  have hconserve := hs.conserve
  have hprinted := hs.printed
  simp only [Echo.held, hclear] at hconserve
  simp only [Echo.printed, hclear] at hprinted
  exact ⟨hconserve, hs.shown, hs.nulFree, hprinted, hs.cbuf, List.length_replicate, hs.typed, hs.count⟩

/-- The step lemma. -/
theorem EchoInv.step {s s' : Echo} {a : EchoAct} (hs : EchoInv s) (h : echoStep s a = some s') : EchoInv s' := by
  cases a with
  | prompt => exact hs.prompt h
  | write => exact hs.write h
  | recv n => exact hs.recv h
  | read n => exact hs.read h
  | echo => exact hs.echo h
  | out => exact hs.out h
  | clear => exact hs.clear h

theorem EchoInv.run {s s' : Echo} {as : List EchoAct} (hs : EchoInv s) (h : run echoStep s as = some s') : EchoInv s' :=
  run_invariant (fun _ _ _ hp => hp.step) hs h

/-- **No byte is lost, duplicated, reordered or altered.** In every reachable state the bytes that the client
has written are those it has read, those in flight to it, those the server holds, and those in flight to the
server, in this order; at the loop head the server has printed what it has echoed; and the texts shown are
the bytes read. -/
theorem echo_stream {s : Echo} (h : Reachable echoStep EchoInit s) :
    s.msgs.flatten = s.received ++ s.toClient ++ s.held ++ s.toServer ∧ (s.server = .read → s.stdout = s.echoed) ∧
    s.texts.flatten = s.received := by
  have hs : EchoInv s := h.invariant (fun _ => EchoInv.init) fun _ _ _ hp => hp.step
  refine ⟨hs.conserve, fun hread => ?_, hs.shown⟩
  have hprinted := hs.printed
  simpa only [Echo.printed, hread] using hprinted

/-- `hi` and the end of the line, echoed in one piece and read in two: nothing is lost. -/
theorem echo_stream_split : ∃ s, Reachable echoStep EchoInit s ∧ s.received = [104, 105] ∧ s.toClient = [10] ∧
    s.msgs.flatten = s.received ++ s.toClient ++ s.held ++ s.toServer := by
  obtain ⟨s, hs, hrec, htc⟩ : ∃ s, run echoStep ⟨.prompt, .read, List.replicate BUFSIZE 7, List.replicate BUFSIZE 7,
      [104, 105, 10], [], [], [], [], [], [], []⟩ [.prompt, .write, .read 3, .echo, .recv 2] = some s ∧
      s.received = [104, 105] ∧ s.toClient = [10] := ⟨_, rfl, rfl, rfl⟩
  have hreach : Reachable echoStep EchoInit s :=
    ⟨_, _, ⟨rfl, rfl, rfl, rfl, rfl, rfl, rfl, rfl, rfl, rfl, rfl⟩, hs⟩
  exact ⟨s, hreach, hrec, htc, (echo_stream hreach).1⟩

/-! ## Answers and messages -/

/-- The texts shown so far are the messages sent, one for one. -/
def AnswersMatch (s : Echo) : Prop := s.texts <+: s.msgs

/-- A read of the client that returns as many bytes as the message before it has. -/
def ReadsWhole (s : Echo) (n : Nat) : Prop := s.msgs.getLast?.map List.length = some n

/-- The echo of `ab` is there in full, and the client reads its first byte only. -/
theorem answer_cut : ¬ ∀ (s₀ s : Echo) (as : List EchoAct), EchoInit s₀ → run echoStep s₀ as = some s → AnswersMatch s := by
  intro hclaim
  obtain ⟨s, hs, hmsgs, htexts⟩ : ∃ s, run echoStep ⟨.prompt, .read, List.replicate BUFSIZE 0, List.replicate BUFSIZE 0,
      [97, 98, 10], [], [], [], [], [], [], []⟩ [.prompt, .write, .read 3, .echo, .recv 1] = some s ∧
      s.msgs = [[97, 98, 10]] ∧ s.texts = [[97]] := ⟨_, rfl, rfl, rfl⟩
  have hmatch := hclaim _ s _ ⟨rfl, rfl, rfl, rfl, rfl, rfl, rfl, rfl, rfl, rfl, rfl⟩ hs
  rw [AnswersMatch, hmsgs, htexts] at hmatch
  exact absurd hmatch (by decide)

/-- Between answers nothing is outstanding; a client that waits has one message more than answers. -/
def InStep (s : Echo) : Prop := if s.client = .wait then ∃ m, s.msgs = s.texts ++ [m] else s.msgs = s.texts

theorem InStep.matches {s : Echo} (h : InStep s) : AnswersMatch s := by
  unfold InStep at h
  split at h
  · obtain ⟨m, hm⟩ := h
    rw [AnswersMatch, hm]
    exact List.prefix_append _ _
  · simp only [AnswersMatch, h, List.prefix_rfl]

/-- A read of the client as long as its message returns the message. -/
theorem take_eq_of_readsWhole {s : Echo} {m : List Byte} {n : Nat} (hs : EchoInv s) (hm : s.msgs = s.texts ++ [m])
    (hlen : n ≤ s.toClient.length) (hn : ReadsWhole s n) : s.toClient.take n = m := by
  have hconserve := hs.conserve
  rw [hm, List.flatten_append, hs.shown, List.append_assoc, List.append_assoc] at hconserve
  have hout : m = s.toClient ++ (s.held ++ s.toServer) := by
    simpa using List.append_cancel_left hconserve
  have hmlen : m.length = n := by
    rw [ReadsWhole, hm] at hn
    simpa using hn
  rw [← List.take_append_of_le_length hlen, ← hout, ← hmlen, List.take_length]

theorem InStep.recv {s s' : Echo} {n : Nat} (hs : EchoInv s) (hin : InStep s) (hn : ReadsWhole s n)
    (h : echoStep s (.recv n) = some s') : InStep s' := by
  obtain ⟨hwait, hread, text, htext, rfl⟩ := echoStep_recv h
  obtain ⟨rfl, -⟩ := hs.recv_text hread htext
  rw [InStep, if_pos hwait] at hin
  obtain ⟨m, hm⟩ := hin
  rw [InStep, if_neg (by exact ClientPc.noConfusion)]
  dsimp only
  rw [take_eq_of_readsWhole hs hm hread.2.1 hn, hm]

theorem InStep.server {s s' : Echo} {a : EchoAct} (hin : InStep s) (h : echoStep s a = some s') (ha : a.ofServer) :
    InStep s' := by
  obtain ⟨hclient, -, -, hmsgs, -, htexts⟩ := echoStep_server ha h
  rwa [InStep, hclient, hmsgs, htexts]

/-- The step lemma: only a read of another length brings answers and messages out of step. -/
theorem InStep.step {s s' : Echo} {a : EchoAct} (hs : EchoInv s) (hin : InStep s)
    (hn : ∀ n, a = .recv n → ReadsWhole s n) (h : echoStep s a = some s') : InStep s' := by
  cases a with
  | recv n => exact hin.recv hs (hn n rfl) h
  | prompt =>
    obtain ⟨hc, rfl⟩ := echoStep_prompt h
    rw [InStep, if_neg (by rw [hc]; exact ClientPc.noConfusion)] at hin
    exact hin
  | write =>
    obtain ⟨hc, message, -, hs'⟩ := echoStep_write h
    rw [InStep, if_neg (by rw [hc]; exact ClientPc.noConfusion)] at hin
    rcases hs' with ⟨-, rfl⟩ | ⟨-, rfl⟩
    · exact hin
    · exact ⟨message, by rw [hin]⟩
  | read n => exact hin.server h trivial
  | echo => exact hin.server h trivial
  | out => exact hin.server h trivial
  | clear => exact hin.server h trivial

/-- If the answers match after a read, it was as long as its message. -/
theorem readsWhole_of_match {s s' : Echo} {n : Nat} (hs : EchoInv s) (h : echoStep s (.recv n) = some s')
    (hmatch : AnswersMatch s') : ReadsWhole s n := by
  obtain ⟨hwait, hread, text, htext, rfl⟩ := echoStep_recv h
  obtain ⟨rfl, -⟩ := hs.recv_text hread htext
  have hcount := hs.count
  rw [hwait, if_pos rfl] at hcount
  rw [AnswersMatch] at hmatch
  have heq := hmatch.eq_of_length (by rw [List.length_append, List.length_singleton, hcount])
  dsimp only at heq
  rw [ReadsWhole, ← heq, List.getLast?_append, List.getLast?_singleton, Option.some_or, Option.map_some,
    List.length_take_of_le hread.2.1]

/-- **When each answer shown is the echo of the message just sent.** In a run of client and server, with any
messages and any order of steps, the texts shown in every state are the messages sent so far, one for one,
exactly if every read of the client returns as many bytes as the message it has just written. -/
theorem answers_match_iff (s₀ s : Echo) (as : List EchoAct) (h₀ : EchoInit s₀) (h : run echoStep s₀ as = some s) :
    (∀ pre post t, as = pre ++ post → run echoStep s₀ pre = some t → AnswersMatch t) ↔
    ∀ pre n post t, as = pre ++ .recv n :: post → run echoStep s₀ pre = some t → ReadsWhole t n := by
  constructor
  · intro hmatch pre n post t heq ht
    obtain ⟨u, hstep, hu⟩ := run_split (heq ▸ h) ht
    have hpre : as = (pre ++ [.recv n]) ++ post := by rw [heq, List.append_assoc]; rfl
    exact readsWhole_of_match ((EchoInv.init h₀).run ht) hstep (hmatch _ _ u hpre hu)
  · intro hwhole pre post t heq ht
    have hinit : InStep s₀ := by
      rw [InStep, if_neg (by rw [h₀.client]; exact ClientPc.noConfusion), h₀.msgs, h₀.texts]
    have hin : EchoInv t ∧ InStep t := by
      refine run_along (P := fun t => EchoInv t ∧ InStep t) (C := fun s a => ∀ n, a = .recv n → ReadsWhole s n) ?_
        ⟨EchoInv.init h₀, hinit⟩ ?_ post t heq ht
      · rintro s a s' ⟨hs, hin⟩ hC hstep
        exact ⟨hs.step hstep, hin.step hs hC hstep⟩
      · rintro pre a post t heq ht n rfl
        exact hwhole pre n post t heq ht
    exact hin.2.matches

/-- A message echoed in two pieces, and read when both are there. -/
theorem answers_match_iff_whole : ∃ s, run echoStep ⟨.prompt, .read, List.replicate BUFSIZE 0, List.replicate BUFSIZE 0,
      [97, 10], [], [], [], [], [], [], []⟩ ([.prompt, .write, .read 1, .echo, .out, .clear, .read 1, .echo] ++ [.recv 2]) =
      some s ∧ s.texts = [[97, 10]] ∧ AnswersMatch s := by
  obtain ⟨s, hs, htexts⟩ : ∃ s, run echoStep ⟨.prompt, .read, List.replicate BUFSIZE 0, List.replicate BUFSIZE 0,
      [97, 10], [], [], [], [], [], [], []⟩ ([.prompt, .write, .read 1, .echo, .out, .clear, .read 1, .echo] ++ [.recv 2]) =
      some s ∧ s.texts = [[97, 10]] := ⟨_, rfl, rfl⟩
  refine ⟨s, hs, htexts, (answers_match_iff _ s _ ⟨rfl, rfl, rfl, rfl, rfl, rfl, rfl, rfl, rfl, rfl, rfl⟩ hs).2 ?_ _ [] s
    (List.append_nil _).symm hs⟩
  intro pre n post t heq ht
  rcases EventLog.split_snoc heq with ⟨rfl, hn, -⟩ | ⟨post', -, hin⟩
  · cases hn
    cases ht
    rfl
  · have hmem : EchoAct.recv n ∈ pre ++ .recv n :: post' := List.mem_append_right _ List.mem_cons_self
    rw [← hin] at hmem
    simp at hmem

end CoinMachine
