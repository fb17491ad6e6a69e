import CoinMachine.EchoWaits
import CoinMachine.Lib.Inevitable
/-!
# Every schedule plays an input to its end

`exists_closed` plays an input whose messages come to a `q` with one schedule. Here the schedule is anybody's:
the pair cannot be stopped, by no order of the steps and no way of cutting the streams into reads, before both
have closed, and what is then printed, sent back and unread is settled by the input alone (`echo_ends_iff`).

A byte of the input is worth 7: it is read (`fgets`), sent, and in the worst case costs a turn of four statements
of the server by itself.
-/

namespace CoinMachine

open Transition CString

/-- Both have closed, and the server has printed and sent back these messages. -/
structure Finished (msgs : List (List Byte)) (s : Echo) : Prop where
  client : s.client = .closed
  server : s.server = .closed
  sent : s.msgs = msgs
  stdout : s.stdout = msgs.flatten
  /-- what has come back: the part that was shown, and the part that was not read any more -/
  back : s.texts.flatten ++ s.toClient = msgs.flatten

/-- The client and the server, on an input that comes to these messages and a `q`. -/
structure Playing (msgs : List (List Byte)) (s : Echo) : Prop where
  inv : EchoInv s
  last : ClosesLast s
  waits : WaitsForSomething s
  nulFree : 0 ∉ s.stdin
  outcome : s.outcome = some msgs
  typed : s.client = .typed → cstr 0 s.cbuf ≠ some []
  back : s.echoed = s.received ++ s.toClient
  drained : s.server = .closed → s.toServer = []

theorem Playing.init {s : Echo} {msgs : List (List Byte)} (h : EchoInit s) (hnul : 0 ∉ s.stdin)
    (hs : session s.stdin = some msgs) : Playing msgs s := by
  refine ⟨EchoInv.init h, ?_, ?_, hnul, ?_, ?_, ?_, fun _ => h.toServer⟩
  · simp [ClosesLast, h.server]
  · simp [WaitsForSomething, h.client]
  · simp [Echo.outcome, h.client, h.msgs, hs]
  · simp [h.client]
  · simp [h.echoed, h.received, h.toClient]

/-! ## What the steps keep -/

section Steps
variable {msgs : List (List Byte)} {s s' : Echo} {a : EchoAct}

/-- There is something to read: else there would be no messages to come to. -/
theorem Playing.stdin_ne_nil (hs : Playing msgs s) (hc : s.client = .prompt) : s.stdin ≠ [] := by
  intro hend
  have hout := hs.outcome
  simp only [Echo.outcome, hc, hend, session_nil] at hout
  cases hout

/-- The line in the buffer is the piece of the input, and it is not empty. -/
theorem Playing.line (hs : Playing msgs s) (h : echoStep s .prompt = some s') :
    cstr 0 s'.cbuf = some (lineOf (BUFSIZE - 1) s.stdin) ∧ lineOf (BUFSIZE - 1) s.stdin ≠ [] := by
  obtain ⟨hc, rfl⟩ := echoStep_prompt h
  have hne := hs.stdin_ne_nil hc
  refine ⟨?_, lineOf_ne_nil (by decide) hne⟩
  rw [if_neg hne]
  exact cstr_fgets hs.nulFree

theorem Playing.typed_step (hs : Playing msgs s) (h : echoStep s a = some s') :
    s'.client = .typed → cstr 0 s'.cbuf ≠ some [] := by
  have hserver : a.ofServer → s'.client = .typed → cstr 0 s'.cbuf ≠ some [] := by
    intro ha
    obtain ⟨hclient, hcbuf, -⟩ := echoStep_server ha h
    rw [hclient, hcbuf]
    exact hs.typed
  cases a with
  | prompt =>
    obtain ⟨hline, hne⟩ := hs.line h
    intro _ hempty
    exact hne (Option.some.inj (hline.symm.trans hempty))
  | write => obtain ⟨-, m, -, ⟨-, rfl⟩ | ⟨-, rfl⟩⟩ := echoStep_write h <;> simp
  | recv n =>
    obtain ⟨-, -, text, -, rfl⟩ := echoStep_recv h
    simp
  | read n => exact hserver trivial
  | echo => exact hserver trivial
  | out => exact hserver trivial
  | clear => exact hserver trivial

/-- What is sent back arrives. -/
theorem back_step (hs : s.echoed = s.received ++ s.toClient) (h : echoStep s a = some s') :
    s'.echoed = s'.received ++ s'.toClient := by
  cases a with
  | prompt =>
    obtain ⟨-, rfl⟩ := echoStep_prompt h
    exact hs
  | write => obtain ⟨-, m, -, ⟨-, rfl⟩ | ⟨-, rfl⟩⟩ := echoStep_write h <;> exact hs
  | recv n =>
    obtain ⟨-, -, text, -, rfl⟩ := echoStep_recv h
    simp [hs]
  | read n => obtain ⟨-, -, ⟨-, rfl⟩ | ⟨-, rfl⟩⟩ := echoStep_read h <;> exact hs
  | echo =>
    obtain ⟨n, -, rfl⟩ := echoStep_echo h
    simp [hs]
  | out =>
    obtain ⟨n, -, rfl⟩ := echoStep_out h
    exact hs
  | clear =>
    obtain ⟨-, rfl⟩ := echoStep_clear h
    exact hs

/-- A server that has closed has read all there was, and nobody writes any more. -/
theorem Playing.drained_step (hs : Playing msgs s) (h : echoStep s a = some s') :
    s'.server = .closed → s'.toServer = [] := by
  have hopen : s.client ≠ .closed → s'.server = s.server → s'.server = .closed → s'.toServer = [] :=
    fun hne heq hclosed => absurd (hs.last (heq ▸ hclosed)) hne
  cases a with
  | prompt =>
    obtain ⟨hc, rfl⟩ := echoStep_prompt h
    exact hopen (by simp [hc]) rfl
  | write => obtain ⟨hc, m, -, ⟨-, rfl⟩ | ⟨-, rfl⟩⟩ := echoStep_write h <;> exact hopen (by simp [hc]) rfl
  | recv n =>
    obtain ⟨hc, -, text, -, rfl⟩ := echoStep_recv h
    exact hopen (by simp [hc]) rfl
  | read n =>
    obtain ⟨-, hreturns, ⟨hn, rfl⟩ | ⟨-, rfl⟩⟩ := echoStep_read h
    · exact fun _ => (hreturns.2.2 hn).2
    · simp
  | echo =>
    obtain ⟨n, -, rfl⟩ := echoStep_echo h
    simp
  | out =>
    obtain ⟨n, -, rfl⟩ := echoStep_out h
    simp
  | clear =>
    obtain ⟨-, rfl⟩ := echoStep_clear h
    simp

/-- The step lemma. -/
theorem Playing.step (hs : Playing msgs s) (h : echoStep s a = some s') : Playing msgs s' := by
  refine ⟨hs.inv.step h, hs.last.step h, hs.waits.step hs.inv ?_ h, ?_, ?_, hs.typed_step h, back_step hs.back h,
    hs.drained_step h⟩
  · rintro rfl hempty
    exact hs.typed (echoStep_write h).1 hempty.1
  · exact fun hmem => hs.nulFree ((stdin_suffix h).subset hmem)
  · rw [outcome_step hs.nulFree h]
    exact hs.outcome

end Steps

/-! ## Nobody waits for ever -/

section Live
variable {s : Echo}

/-- The server goes on unless it waits for bytes. -/
theorem server_live (hopen : s.server ≠ .closed) (h : s.server = .read → s.toServer ≠ [] ∨ s.client = .closed) :
    ∃ a s', echoStep s a = some s' := by
  cases hserver : s.server with
  | closed => exact absurd hserver hopen
  | echo n => exact ⟨.echo, Option.isSome_iff_exists.1 (by simp [echoStep, hserver])⟩
  | out n => exact ⟨.out, Option.isSome_iff_exists.1 (by simp [echoStep, hserver])⟩
  | clear => exact ⟨.clear, Option.isSome_iff_exists.1 (by simp [echoStep, hserver])⟩
  | read =>
    by_cases hnil : s.toServer = []
    · have hclosed : s.client = .closed := (h hserver).resolve_left (absurd hnil)
      exact ⟨.read 0, Option.isSome_iff_exists.1 (by simp [echoStep, hserver, hnil, hclosed, ReadReturns])⟩
    · have hlen := List.length_pos_iff.2 hnil
      have hread : ReadReturns BUFSIZE s.toServer (s.client = .closed) 1 := ⟨by decide, hlen, by simp⟩
      exact ⟨.read 1, Option.isSome_iff_exists.1 (by simp [echoStep, hserver, hread])⟩

/-- The client takes what there is, be it a single byte. -/
theorem recv_live (hs : EchoInv s) (hwait : s.client = .wait) (hne : s.toClient ≠ []) :
    ∃ a s', echoStep s a = some s' := by
  have hlen := List.length_pos_iff.2 hne
  have hread : ReadReturns (BUFSIZE - 1) s.toClient (s.server = .closed) 1 := ⟨by decide, hlen, by simp⟩
  have htake : (s.toClient.take 1).length = 1 := List.length_take_of_le hlen
  have hbuf : (overwrite s.cbuf (s.toClient.take 1)).length = BUFSIZE := by
    rw [length_overwrite, hs.cbuf]
    rw [htake, hs.cbuf]
    decide
  have hmem : (0 : Byte) ∈ (overwrite s.cbuf (s.toClient.take 1)).set 1 0 :=
    List.mem_set (by rw [hbuf]; decide) 0
  obtain ⟨text, htext⟩ := isSome_cstr hmem
  refine ⟨.recv 1, Option.isSome_iff_exists.1 ?_⟩
  simp only [echoStep, if_pos (And.intro hwait hread), htext, Option.bind_eq_bind, Option.bind_some, Option.isSome_some]

theorem write_live (hs : EchoInv s) (hc : s.client = .typed) : ∃ a s', echoStep s a = some s' := by
  obtain ⟨m, hm⟩ := isSome_cstr (hs.typed hc)
  by_cases hq : m = quit
  all_goals
    refine ⟨.write, Option.isSome_iff_exists.1 ?_⟩
    simp only [echoStep, if_pos hc, hm, Option.bind_eq_bind, Option.bind_some]
  · rw [if_pos hq, Option.isSome_some]
  · rw [if_neg hq, Option.isSome_some]

theorem Playing.finished {msgs : List (List Byte)} (hs : Playing msgs s) (hc : s.client = .closed)
    (hserver : s.server = .closed) : Finished msgs s := by
  have hmsgs : s.msgs = msgs := by
    have hout := hs.outcome
    simp only [Echo.outcome, hc] at hout
    exact Option.some.inj hout
  have hflat : msgs.flatten = s.received ++ s.toClient := by
    have hconserve := hs.inv.conserve
    rw [hmsgs] at hconserve
    simpa [Echo.held, hserver, hs.drained hserver] using hconserve
  have hprinted := hs.inv.printed
  simp only [Echo.printed, hserver] at hprinted
  exact ⟨hc, hserver, hmsgs, by rw [hprinted, hs.back, hflat], by rw [hs.inv.shown, hflat]⟩

/-- Before the end there is a step: a client that waits has bytes on their way, which the server or itself can move. -/
theorem Playing.live {msgs : List (List Byte)} (hs : Playing msgs s) (h : ¬ Finished msgs s) :
    ∃ a s', echoStep s a = some s' := by
  cases hc : s.client with
  | prompt => exact ⟨.prompt, Option.isSome_iff_exists.1 (by simp only [echoStep, if_pos hc, Option.isSome_some])⟩
  | typed => exact write_live hs.inv hc
  | wait =>
    by_cases hnil : s.toClient = []
    · refine server_live (fun hclosed => ?_) fun hread => Or.inl fun htoServer => hs.waits hc ?_
      · rw [hs.last hclosed] at hc
        cases hc
      · simp [Echo.account, Echo.held, hread, hnil, htoServer]
    · exact recv_live hs.inv hc hnil
  | closed =>
    refine server_live (fun hserver => h (hs.finished hc hserver)) fun _ => Or.inr hc

end Live

/-! ## How long it takes -/

/-- What the client has still to do for the message in its buffer. -/
def Echo.clientRank (s : Echo) : Nat :=
  match s.client with
  | .typed => 4 * ((cstr 0 s.cbuf).elim 0 List.length) + 2
  | .wait => 1
  | .prompt | .closed => 0

/-- The statements of the server up to its next read that blocks. -/
def ServerPc.rank : ServerPc → Nat
  | .echo _ => 4
  | .out _ => 3
  | .clear => 2
  | .read => 1
  | .closed => 0

def Echo.rank (s : Echo) : Nat := 7 * s.stdin.length + s.clientRank + 4 * s.toServer.length + s.server.rank

theorem rank_server {s s' : Echo} {a : EchoAct} (ha : a.ofServer) (h : echoStep s a = some s')
    (hlt : 4 * s'.toServer.length + s'.server.rank < 4 * s.toServer.length + s.server.rank) : s'.rank < s.rank := by
  obtain ⟨hclient, hcbuf, hstdin, -⟩ := echoStep_server ha h
  unfold Echo.rank Echo.clientRank
  rw [hclient, hcbuf, hstdin]
  omega

theorem Playing.rank_step {msgs : List (List Byte)} {s s' : Echo} {a : EchoAct} (hs : Playing msgs s)
    (h : echoStep s a = some s') : s'.rank < s.rank := by
  cases a with
  | prompt =>
    obtain ⟨hline, hne⟩ := hs.line h
    obtain ⟨hc, rfl⟩ := echoStep_prompt h
    have hpos := List.length_pos_iff.2 hne
    have hle := (prefix_lineOf (BUFSIZE - 1) s.stdin).length_le
    dsimp only at hline
    simp only [Echo.rank, Echo.clientRank, hc, hline, Option.elim_some, List.length_drop]
    omega
  | write =>
    obtain ⟨hc, m, hm, ⟨-, rfl⟩ | ⟨-, rfl⟩⟩ := echoStep_write h
    · simp only [Echo.rank, Echo.clientRank, hc]
      omega
    · simp only [Echo.rank, Echo.clientRank, hc, hm, Option.elim_some, List.length_append]
      omega
  | recv n =>
    obtain ⟨hc, -, text, -, rfl⟩ := echoStep_recv h
    simp only [Echo.rank, Echo.clientRank, hc]
    omega
  | read n =>
    refine rank_server (a := .read n) trivial h ?_
    obtain ⟨hc, hreturns, ⟨-, rfl⟩ | ⟨hn, rfl⟩⟩ := echoStep_read h
    · simp [hc, ServerPc.rank]
    · have hle := hreturns.2.1
      simp only [hc, ServerPc.rank, List.length_drop]
      omega
  | echo =>
    refine rank_server (a := .echo) trivial h ?_
    obtain ⟨n, hc, rfl⟩ := echoStep_echo h
    simp [hc, ServerPc.rank]
  | out =>
    refine rank_server (a := .out) trivial h ?_
    obtain ⟨n, hc, rfl⟩ := echoStep_out h
    simp [hc, ServerPc.rank]
  | clear =>
    refine rank_server (a := .clear) trivial h ?_
    obtain ⟨hc, rfl⟩ := echoStep_clear h
    simp [hc, ServerPc.rank]

/-- **Which inputs the pair plays to the end, and what comes of it.** For every input without terminators, on a
connection whose reads and writes do not fail: whatever the order of the steps and however the streams are cut into
reads, client and server have both closed after at most seven steps a byte and one more, with these messages sent,
printed and sent back, if and only if these are the messages of the input up to a piece that reads `q`. -/
theorem echo_ends_iff (s₀ : Echo) (h₀ : EchoInit s₀) (hnul : 0 ∉ s₀.stdin) (msgs : List (List Byte)) :
    Within echoStep (Finished msgs) (7 * s₀.stdin.length + 1) s₀ ↔ session s₀.stdin = some msgs := by
  constructor
  · intro h
    obtain ⟨as, t, -, ht, hfin⟩ := h.exists_run
    rw [msgs_of_closed h₀ hnul ht hfin.client, hfin.sent]
  · intro h
    refine within_of_rank (I := Playing msgs) Echo.rank (fun _ hs hg => hs.live hg)
      (fun _ _ _ hs _ hstep => ⟨hs.step hstep, hs.rank_step hstep⟩) _ (Playing.init h₀ hnul h) ?_
    simp [Echo.rank, Echo.clientRank, h₀.client, h₀.server, h₀.toServer, ServerPc.rank]

/-- `hi`, `q`. -/
theorem echo_ends_iff_hi : Within echoStep (Finished [[104, 105, 10]]) 36 (.start [104, 105, 10, 113, 10]) := by
  refine (echo_ends_iff (.start [104, 105, 10, 113, 10]) (echoInit_start _) (by decide) _).2 ?_
  rw [Echo.start, session_cons (by decide) (by decide), session_piece (by decide) (by decide)]
  rfl

end CoinMachine
