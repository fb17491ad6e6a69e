import CoinMachine.EchoInput
/-!
# Whether the client waits for something (`code/tcp/client.c:48-50`)

What the client has written and not read back is its account: the bytes on their way to it, those the server
holds, and those on their way to the server. The server moves bytes along but never changes the account
(`account_server`), so a wait is justified as long as the last write left something in it.
-/

namespace CoinMachine

open Transition CString

/-- The bytes that the client has written and not read back. -/
def Echo.account (s : Echo) : List Byte := s.toClient ++ s.held ++ s.toServer

/-- The client is in `read` with nothing to take, on an open connection. -/
def Blocked (s : Echo) : Prop := s.client = .wait ∧ s.toClient = [] ∧ s.server ≠ .closed

/-- The write to come puts no byte on an empty account. -/
def EmptyWrite (s : Echo) : Prop := cstr 0 s.cbuf = some [] ∧ s.account = []

theorem msgs_eq_account {s : Echo} (hs : EchoInv s) : s.msgs.flatten = s.received ++ s.account := by
  rw [hs.conserve, Echo.account, List.append_assoc, List.append_assoc, List.append_assoc]

/-- The server leaves the account as it is. -/
theorem account_server {s s' : Echo} {a : EchoAct} (hs : EchoInv s) (h : echoStep s a = some s') (ha : a.ofServer) :
    s'.account = s.account := by
  obtain ⟨-, -, -, hmsgs, hreceived, -⟩ := echoStep_server ha h
  have hsum := msgs_eq_account (hs.step h)
  rw [hmsgs, msgs_eq_account hs, hreceived] at hsum
  exact (List.append_cancel_left hsum).symm

/-- The server closes after the client. -/
def ClosesLast (s : Echo) : Prop := s.server = .closed → s.client = .closed

theorem ClosesLast.step {s s' : Echo} {a : EchoAct} (hs : ClosesLast s) (h : echoStep s a = some s') :
    ClosesLast s' := by
  -- a client that takes a step has not closed, and so neither has the server
  have hclient : s.client ≠ .closed → s'.server = s.server → ClosesLast s' := fun hopen heq hclosed =>
    absurd (hs (heq ▸ hclosed)) hopen
  have hserver : s'.server ≠ .closed → ClosesLast s' := fun hopen hclosed => absurd hclosed hopen
  cases a with
  | prompt =>
    obtain ⟨hc, rfl⟩ := echoStep_prompt h
    exact hclient (by simp [hc]) rfl
  | write => obtain ⟨hc, m, -, ⟨-, rfl⟩ | ⟨-, rfl⟩⟩ := echoStep_write h <;> exact hclient (by simp [hc]) rfl
  | recv n =>
    obtain ⟨hc, -, text, -, rfl⟩ := echoStep_recv h
    exact hclient (by simp [hc]) rfl
  | read n =>
    obtain ⟨-, hreturns, ⟨hn, rfl⟩ | ⟨-, rfl⟩⟩ := echoStep_read h
    · -- the end of the stream, which the client has closed
      exact fun _ => (hreturns.2.2 hn).1
    · exact hserver (by simp)
  | echo =>
    obtain ⟨n, -, rfl⟩ := echoStep_echo h
    exact hserver (by simp)
  | out =>
    obtain ⟨n, -, rfl⟩ := echoStep_out h
    exact hserver (by simp)
  | clear =>
    obtain ⟨-, rfl⟩ := echoStep_clear h
    exact hserver (by simp)

/-- A client that waits has something on its account. -/
def WaitsForSomething (s : Echo) : Prop := s.client = .wait → s.account ≠ []

/-- The step lemma: only an empty write on an empty account takes the justification away. -/
theorem WaitsForSomething.step {s s' : Echo} {a : EchoAct} (hs : EchoInv s) (hj : WaitsForSomething s)
    (hw : a = .write → ¬ EmptyWrite s) (h : echoStep s a = some s') : WaitsForSomething s' := by
  have hserver : a.ofServer → WaitsForSomething s' := by
    intro ha hwait
    rw [account_server hs h ha]
    exact hj ((echoStep_server ha h).1 ▸ hwait)
  cases a with
  | prompt =>
    obtain ⟨-, rfl⟩ := echoStep_prompt h
    exact fun hwait => by cases hwait
  | write =>
    obtain ⟨-, m, hm, ⟨-, rfl⟩ | ⟨-, rfl⟩⟩ := echoStep_write h
    · exact fun hwait => by cases hwait
    · intro _ hempty
      have haccount : s.account ++ m = [] := by
        rw [← hempty]
        simp only [Echo.account, List.append_assoc]
        rfl
      obtain ⟨hnothing, hmnil⟩ := List.append_eq_nil_iff.1 haccount
      exact hw rfl ⟨hmnil ▸ hm, hnothing⟩
  | recv n =>
    obtain ⟨-, -, text, -, rfl⟩ := echoStep_recv h
    exact fun hwait => by cases hwait
  | read n => exact hserver trivial
  | echo => exact hserver trivial
  | out => exact hserver trivial
  | clear => exact hserver trivial

/-- An empty write on an empty account leaves the client waiting for nothing. -/
theorem emptyWrite_blocks {s s' : Echo} (hlast : ClosesLast s) (hw : EmptyWrite s) (h : echoStep s .write = some s') :
    Blocked s' ∧ s'.account = [] := by
  obtain ⟨hm, haccount⟩ := hw
  obtain ⟨hc, m, hm', ⟨rfl, -⟩ | ⟨-, rfl⟩⟩ := echoStep_write h
  · -- an empty message is not `q`
    rw [hm] at hm'
    cases hm'
  · obtain rfl := Option.some.inj (hm.symm.trans hm')
    have htoClient : s.toClient = [] := (List.append_eq_nil_iff.1 (List.append_eq_nil_iff.1 haccount).1).1
    refine ⟨⟨rfl, htoClient, fun hclosed => ?_⟩, ?_⟩
    · rw [hlast hclosed] at hc
      cases hc
    · rw [Echo.account, List.append_nil]
      exact haccount

/-- The message after `fgets` is empty at the end of the input, and where the input goes on with a terminator. -/
theorem empty_message_iff {s s' : Echo} (h : echoStep s .prompt = some s') :
    cstr 0 s'.cbuf = some [] ↔ s.stdin = [] ∨ s.stdin.head? = some 0 := by
  obtain ⟨-, rfl⟩ := echoStep_prompt h
  dsimp only
  cases s.stdin with
  | nil => exact iff_of_true rfl (Or.inl rfl)
  | cons b bs =>
    have hline : ∃ rest, lineOf (BUFSIZE - 1) (b :: bs) = b :: rest := by
      rw [BUFSIZE, lineOf]
      split
      · exact ⟨[], rfl⟩
      · exact ⟨_, rfl⟩
    obtain ⟨rest, hrest⟩ := hline
    rw [if_neg (List.cons_ne_nil _ _), hrest, overwrite, List.cons_append, List.cons_append, cstr_cons_eq_nil]
    simp

/-- **When a wait is justified.** In every run of client and server, with any input and any order of steps, a
blocked client has a byte on its account in every state exactly if no empty message is written on an empty
account. -/
theorem waits_justified_iff (s₀ s : Echo) (as : List EchoAct) (h₀ : EchoInit s₀) (h : run echoStep s₀ as = some s) :
    (∀ pre post t, as = pre ++ post → run echoStep s₀ pre = some t → Blocked t → t.account ≠ []) ↔
    ∀ pre post t, as = pre ++ .write :: post → run echoStep s₀ pre = some t → ¬ EmptyWrite t := by
  have hlast₀ : ClosesLast s₀ := fun hclosed => by
    rw [h₀.server] at hclosed
    cases hclosed
  constructor
  · intro hjust pre post t heq ht hempty
    obtain ⟨u, hstep, hu⟩ := run_split (heq ▸ h) ht
    have hlast : ClosesLast t := run_invariant (fun _ _ _ hp => hp.step) hlast₀ ht
    obtain ⟨hblocked, haccount⟩ := emptyWrite_blocks hlast hempty hstep
    have hpre : as = (pre ++ [.write]) ++ post := by rw [heq, List.append_assoc]; rfl
    exact hjust _ _ u hpre hu hblocked haccount
  · intro hwrite pre post t heq ht hblocked
    have hinit : WaitsForSomething s₀ := fun hwait => by
      rw [h₀.client] at hwait
      cases hwait
    have hinv : EchoInv t ∧ WaitsForSomething t := by
      refine run_along (P := fun t => EchoInv t ∧ WaitsForSomething t) (C := fun s a => a = .write → ¬ EmptyWrite s) ?_
        ⟨EchoInv.init h₀, hinit⟩ ?_ post t heq ht
      · rintro s a s' ⟨hs, hj⟩ hC hstep
        exact ⟨hs.step hstep, hj.step hs hC hstep⟩
      · rintro pre a post t heq ht rfl
        exact hwrite pre post t heq ht
    exact hinv.2 hblocked.1

/-- `h` is on its way to the server while the client waits. -/
theorem waits_justified_iff_h : ∃ s, run echoStep (.start [104, 10]) ([.prompt] ++ [.write]) = some s ∧ Blocked s ∧
    s.account ≠ [] := by
  obtain ⟨s, hs, hclient, htoClient, hserver⟩ : ∃ s, run echoStep (.start [104, 10]) ([.prompt] ++ [.write]) = some s ∧
      s.client = .wait ∧ s.toClient = [] ∧ s.server = .read := ⟨_, rfl, rfl, rfl, rfl⟩
  have hblocked : Blocked s := ⟨hclient, htoClient, by simp [hserver]⟩
  refine ⟨s, hs, hblocked, (waits_justified_iff _ s _ (echoInit_start _) hs).2 ?_ _ [] s (List.append_nil _).symm hs hblocked⟩
  intro pre post t heq ht hempty
  rcases EventLog.split_snoc heq with ⟨rfl, -, -⟩ | ⟨post', -, hin⟩
  · cases ht
    exact absurd hempty.1 (by decide)
  · have hmem : EchoAct.write ∈ pre ++ .write :: post' := List.mem_append_right _ List.mem_cons_self
    rw [← hin] at hmem
    simp at hmem

/-- At the end of the input the client writes nothing and waits for the answer. -/
theorem end_of_input_blocks : ∃ s, Reachable echoStep EchoInit s ∧ Blocked s ∧ s.account = [] := by
  obtain ⟨s, hs, hclient, htoClient, hserver, haccount⟩ : ∃ s, run echoStep (.start []) [.prompt, .write] = some s ∧
      s.client = .wait ∧ s.toClient = [] ∧ s.server = .read ∧ s.account = [] := ⟨_, rfl, rfl, rfl, rfl, rfl⟩
  exact ⟨s, ⟨_, _, echoInit_start [], hs⟩, ⟨hclient, htoClient, by simp [hserver]⟩, haccount⟩

end CoinMachine
