import CoinMachine.Echo
import CoinMachine.Lib.Lines
/-!
# What the client makes of its input (`code/tcp/client.c:39-48`)

`fgets` hands out a line in pieces of `BUFSIZE - 1` bytes, and the test for `q` looks at a piece, not at a line.
`session` is the list of messages that an input stands for; it is what the client has sent when it closes,
whatever the server does (`msgs_of_closed`), and every input with a `session` can be played to its end
(`exists_closed`). A line is what a line end follows: a last `q` without one is no line.
-/

namespace CoinMachine

open Transition CString Lines

/-! ## Pieces of a line -/

theorem prefix_lineOf (n : Nat) (text : List Byte) : lineOf n text <+: text := by
  induction n generalizing text with
  | zero => exact List.nil_prefix
  | succ n ih =>
    cases text with
    | nil => exact List.nil_prefix
    | cons b bs =>
      rw [lineOf]
      split
      · exact List.cons_prefix_cons.2 ⟨rfl, List.nil_prefix⟩
      · exact List.cons_prefix_cons.2 ⟨rfl, ih bs⟩

theorem lineOf_ne_nil {n : Nat} (hn : 0 < n) {text : List Byte} (h : text ≠ []) : lineOf n text ≠ [] := by
  obtain ⟨n, rfl⟩ := Nat.exists_eq_add_one.2 hn
  cases text with
  | nil => exact absurd rfl h
  | cons b bs =>
    rw [lineOf]
    split <;> exact List.cons_ne_nil _ _

/-- A line that fits is read with its end. -/
theorem lineOf_line {n : Nat} {l : List Byte} (hl : 10 ∉ l) (hn : l.length < n) (rest : List Byte) :
    lineOf n (l ++ 10 :: rest) = l ++ [10] := by
  induction l generalizing n with
  | nil =>
    obtain ⟨n, rfl⟩ := Nat.exists_eq_add_one.2 hn
    rw [List.nil_append, lineOf, if_pos rfl, List.nil_append]
  | cons b l ih =>
    obtain ⟨n, rfl⟩ := Nat.exists_eq_add_one.2 (Nat.zero_lt_of_lt hn)
    rw [List.cons_append, lineOf, if_neg (List.ne_of_not_mem_cons hl).symm,
      ih (List.not_mem_of_not_mem_cons hl) (Nat.lt_of_succ_lt_succ hn), List.cons_append]

/-- Of a longer one the first `n` bytes are read. -/
theorem lineOf_piece {n : Nat} {l : List Byte} (hl : 10 ∉ l) (hn : n ≤ l.length) (rest : List Byte) :
    lineOf n (l ++ rest) = l.take n := by
  induction n generalizing l with
  | zero => rw [lineOf, List.take_zero]
  | succ n ih =>
    cases l with
    | nil => cases hn
    | cons b l =>
      rw [List.cons_append, lineOf, if_neg (List.ne_of_not_mem_cons hl).symm,
        ih (List.not_mem_of_not_mem_cons hl) (Nat.le_of_succ_le_succ hn), List.take_succ_cons]

/-- The message in the buffer is the piece that was read. -/
theorem cstr_fgets {text : List Byte} (h : 0 ∉ text) :
    cstr 0 (overwrite (List.replicate BUFSIZE 0) (lineOf (BUFSIZE - 1) text ++ [0])) =
      some (lineOf (BUFSIZE - 1) text) := by
  have hnul : 0 ∉ lineOf (BUFSIZE - 1) text := fun hmem => h ((prefix_lineOf _ _).subset hmem)
  rw [overwrite, List.append_assoc]
  exact cstr_append hnul _

/-! ## The messages that an input stands for -/

/-- The messages up to the first piece that reads `q`; none if there is no such piece. -/
def session (text : List Byte) : Option (List (List Byte)) :=
  if h : text = [] then none
  else if lineOf (BUFSIZE - 1) text = quit then some []
  else (session (text.drop (lineOf (BUFSIZE - 1) text).length)).map (lineOf (BUFSIZE - 1) text :: ·)
termination_by text.length
decreasing_by
  have hpiece := List.length_pos_iff.2 (lineOf_ne_nil (n := BUFSIZE - 1) (by decide) h)
  have htext := List.length_pos_iff.2 h
  rw [List.length_drop]
  omega

theorem session_nil : session [] = none := by
  rw [session, dif_pos rfl]

theorem session_cons {text : List Byte} (h : text ≠ []) (hq : lineOf (BUFSIZE - 1) text ≠ quit) :
    session text = (session (text.drop (lineOf (BUFSIZE - 1) text).length)).map (lineOf (BUFSIZE - 1) text :: ·) := by
  rw [session, dif_neg h, if_neg hq]

theorem session_piece {text : List Byte} (h : text ≠ []) (hq : lineOf (BUFSIZE - 1) text = quit) :
    session text = some [] := by
  rw [session, dif_neg h, if_pos hq]

/-- No message is empty or too long for the buffer. -/
theorem session_bounds (text : List Byte) : ∀ msgs, session text = some msgs →
    ∀ m ∈ msgs, m ≠ [] ∧ m.length ≤ BUFSIZE - 1 := by
  induction text using session.induct with
  | case1 =>
    intro msgs h
    rw [session_nil] at h
    cases h
  | case2 text htext hq =>
    intro msgs h
    rw [session_piece htext hq] at h
    cases h
    exact fun m hm => absurd hm List.not_mem_nil
  | case3 text htext hq ih =>
    intro msgs h
    rw [session_cons htext hq, Option.map_eq_some_iff] at h
    obtain ⟨ms, hms, rfl⟩ := h
    intro m hm
    rcases List.mem_cons.1 hm with rfl | hm
    · exact ⟨lineOf_ne_nil (by decide) htext, length_lineOf _ _⟩
    · exact ih ms hms m hm

/-- The last piece of the line is `q`. -/
def QuitPiece (l : List Byte) : Prop := l.length % (BUFSIZE - 1) = 1 ∧ l.getLast? = some 113

instance (l : List Byte) : Decidable (QuitPiece l) := inferInstanceAs (Decidable (_ ∧ _))

/-- A short line has one piece, the line itself. -/
theorem quitPiece_short {l : List Byte} (h : l.length < BUFSIZE - 1) : QuitPiece l ↔ l ++ [10] = quit := by
  rw [QuitPiece, Nat.mod_eq_of_lt h]
  constructor
  · rintro ⟨hlen, hlast⟩
    obtain ⟨b, rfl⟩ := List.length_eq_one_iff.1 hlen
    cases hlast
    rfl
  · intro hq
    obtain rfl : l = [113] := List.append_cancel_right (show l ++ [10] = [113] ++ [10] from hq)
    exact ⟨rfl, rfl⟩

theorem quitPiece_drop {l : List Byte} (h : BUFSIZE - 1 ≤ l.length) :
    QuitPiece (l.drop (BUFSIZE - 1)) ↔ QuitPiece l := by
  have hmod : (l.length - (BUFSIZE - 1)) % (BUFSIZE - 1) = l.length % (BUFSIZE - 1) := (Nat.mod_eq_sub_mod h).symm
  rw [QuitPiece, QuitPiece, List.length_drop, hmod, List.getLast?_drop]
  refine and_congr_right fun hlen => ?_
  have hne : ¬ l.length ≤ BUFSIZE - 1 := by
    intro hle
    rw [Nat.le_antisymm hle h, Nat.mod_self] at hlen
    cases hlen
  rw [if_neg hne]

/-- The first piece of a line that does not fit is a message. -/
theorem session_long {l : List Byte} (hl : 10 ∉ l) (hn : BUFSIZE - 1 ≤ l.length) (rest : List Byte) :
    session (l ++ 10 :: rest) =
      (session (l.drop (BUFSIZE - 1) ++ 10 :: rest)).map (l.take (BUFSIZE - 1) :: ·) := by
  have hpiece := lineOf_piece hl hn (10 :: rest)
  have hlen : (l.take (BUFSIZE - 1)).length = BUFSIZE - 1 := List.length_take_of_le hn
  have hq : l.take (BUFSIZE - 1) ≠ quit := by
    intro heq
    rw [heq] at hlen
    exact absurd hlen (by decide)
  rw [session_cons (by simp) (by rwa [hpiece]), hpiece, hlen, List.drop_append_of_le_length hn]

/-- A line is a short one, or a piece and a shorter line. -/
theorem pieces_induction {P : List Byte → Prop} (short : ∀ l, l.length < BUFSIZE - 1 → P l)
    (long : ∀ l, BUFSIZE - 1 ≤ l.length → P (l.drop (BUFSIZE - 1)) → P l) (l : List Byte) : P l := by
  induction hlen : l.length using Nat.strongRecOn generalizing l with
  | _ n ih =>
    subst hlen
    by_cases hn : l.length < BUFSIZE - 1
    · exact short l hn
    · have hle := Nat.le_of_not_lt hn
      refine long l hle (ih _ ?_ _ rfl)
      rw [List.length_drop]
      unfold BUFSIZE at hle ⊢
      omega

/-- The line is a message or more. -/
theorem session_line {l : List Byte} (hl : 10 ∉ l) (hq : ¬ QuitPiece l) (rest : List Byte) :
    ∃ ms : List (List Byte), ms.flatten = l ++ [10] ∧ session (l ++ 10 :: rest) = (session rest).map (ms ++ ·) := by
  induction l using pieces_induction with
  | short l hn =>
    refine ⟨[l ++ [10]], by simp, ?_⟩
    rw [quitPiece_short hn] at hq
    rw [session_cons (by simp) (by rwa [lineOf_line hl hn]), lineOf_line hl hn]
    simp
  | long l hn ih =>
    obtain ⟨ms, hms, hsession⟩ := ih (fun hmem => hl (List.mem_of_mem_drop hmem)) (by rwa [quitPiece_drop hn])
    refine ⟨l.take (BUFSIZE - 1) :: ms, ?_, ?_⟩
    · rw [List.flatten_cons, hms, ← List.append_assoc, List.take_append_drop]
    · rw [session_long hl hn, hsession, Option.map_map]
      rfl

/-- The client stops before the end of the line. -/
theorem session_quitPiece {l : List Byte} (hl : 10 ∉ l) (hq : QuitPiece l) (rest : List Byte) :
    ∃ ms : List (List Byte), ms.flatten = l.dropLast ∧ session (l ++ 10 :: rest) = some ms := by
  induction l using pieces_induction with
  | short l hn =>
    have heq := (quitPiece_short hn).1 hq
    refine ⟨[], ?_, session_piece (by simp) (by rwa [lineOf_line hl hn])⟩
    obtain rfl : l = [113] := List.append_cancel_right (show l ++ [10] = [113] ++ [10] from heq)
    rfl
  | long l hn ih =>
    have hdrop := (quitPiece_drop hn).2 hq
    obtain ⟨ms, hms, hsession⟩ := ih (fun hmem => hl (List.mem_of_mem_drop hmem)) hdrop
    have hne : l.drop (BUFSIZE - 1) ≠ [] := by
      intro hnil
      rw [hnil] at hdrop
      cases hdrop.2
    refine ⟨l.take (BUFSIZE - 1) :: ms, ?_, ?_⟩
    · rw [List.flatten_cons, hms, ← List.dropLast_append_of_ne_nil hne, List.take_append_drop]
    · rw [session_long hl hn, hsession]
      rfl

/-- The lines before the first that is `q`. -/
def linesBefore (text : List Byte) : List (List Byte) := (lines 10 text).takeWhile (· ≠ [113])

theorem exists_quitLine {text : List Byte} (h : [113] ∈ lines 10 text) :
    ∃ rest, text = unlines 10 (linesBefore text) ++ (quit ++ rest) := by
  obtain ⟨-, rest, -, hrest⟩ := exists_unlines 10 text
  obtain ⟨before, after, hlines, hnot⟩ := List.eq_append_cons_of_mem h
  have hbefore : linesBefore text = before := by
    rw [linesBefore, hlines, List.takeWhile_append_of_pos, List.takeWhile_cons_of_neg, List.append_nil]
    · simp
    · intro l hl
      simpa using ne_of_mem_of_not_mem hl hnot
  refine ⟨unlines 10 after ++ rest, ?_⟩
  conv_lhs => rw [hrest, hlines, unlines_append, unlines_cons]
  rw [hbefore, quit]
  simp

/-- The session of an input with a quit line ends, and before that line only at a piece that reads `q`. -/
theorem session_lines (ls : List (List Byte)) (hls : ∀ l ∈ ls, 10 ∉ l) (rest : List Byte) :
    ∃ ms, session (unlines 10 ls ++ (quit ++ rest)) = some ms ∧
      (ms.flatten = unlines 10 ls ↔ ∀ l ∈ ls, ¬ QuitPiece l) := by
  induction ls with
  | nil =>
    refine ⟨[], session_piece (by simp [quit]) ?_, by simp⟩
    exact lineOf_line (l := [113]) (by decide) (by decide) rest
  | cons l ls ih =>
    have hl := hls l List.mem_cons_self
    rw [unlines_cons, List.append_assoc, List.cons_append]
    by_cases hq : QuitPiece l
    · obtain ⟨ms, hms, hsession⟩ := session_quitPiece hl hq (unlines 10 ls ++ (quit ++ rest))
      refine ⟨ms, hsession, iff_of_false ?_ fun h => h l List.mem_cons_self hq⟩
      intro heq
      have hlen := congrArg List.length heq
      rw [hms, List.length_dropLast, List.length_append, List.length_cons] at hlen
      omega
    · obtain ⟨ms, hms, hsession⟩ := session_line hl hq (unlines 10 ls ++ (quit ++ rest))
      obtain ⟨ms', hms', hiff⟩ := ih fun l' hl' => hls l' (List.mem_cons_of_mem _ hl')
      refine ⟨ms ++ ms', by rw [hsession, hms', Option.map_some], ?_⟩
      rw [List.flatten_append, hms, List.append_assoc, List.singleton_append, List.append_cancel_left_eq,
        List.cons_inj_right, hiff, List.forall_mem_cons]
      exact (and_iff_right hq).symm

/-! ## The client sends its session -/

/-- The messages of the whole session, by where the client is. -/
def Echo.outcome (s : Echo) : Option (List (List Byte)) :=
  match s.client with
  | .typed => (cstr 0 s.cbuf).bind fun m =>
    if m = quit then some s.msgs else (session s.stdin).map (s.msgs ++ m :: ·)
  | .closed => some s.msgs
  | _ => (session s.stdin).map (s.msgs ++ ·)

theorem outcome_prompt {s s' : Echo} (hnul : 0 ∉ s.stdin) (h : echoStep s .prompt = some s') :
    s'.outcome = s.outcome := by
  obtain ⟨hc, rfl⟩ := echoStep_prompt h
  simp only [Echo.outcome, hc]
  by_cases hend : s.stdin = []
  · -- the message is empty, and there is none after it
    have hzeros : cstr (0 : Byte) (List.replicate BUFSIZE 0) = some [] := rfl
    rw [if_pos hend, hzeros, hend, Option.bind_some, if_neg (by decide), List.drop_nil, session_nil]
    rfl
  · rw [if_neg hend, cstr_fgets hnul, Option.bind_some]
    by_cases hq : lineOf (BUFSIZE - 1) s.stdin = quit
    · rw [if_pos hq, session_piece hend hq, Option.map_some, List.append_nil]
    · rw [if_neg hq, session_cons hend hq, Option.map_map]
      rfl

theorem outcome_write {s s' : Echo} (h : echoStep s .write = some s') : s'.outcome = s.outcome := by
  obtain ⟨hc, m, hm, ⟨hq, rfl⟩ | ⟨hq, rfl⟩⟩ := echoStep_write h
  · simp only [Echo.outcome, hc, hm, Option.bind_some, if_pos hq]
  · simp only [Echo.outcome, hc, hm, Option.bind_some, if_neg hq, List.append_assoc, List.singleton_append]

theorem outcome_server {s s' : Echo} {a : EchoAct} (h : echoStep s a = some s') (ha : a.ofServer) :
    s'.outcome = s.outcome := by
  obtain ⟨hclient, hcbuf, hstdin, hmsgs, -⟩ := echoStep_server ha h
  rw [Echo.outcome, Echo.outcome, hclient, hmsgs, hstdin, hcbuf]

/-- The step lemma: the outcome is settled by the input. -/
theorem outcome_step {s s' : Echo} {a : EchoAct} (hnul : 0 ∉ s.stdin) (h : echoStep s a = some s') :
    s'.outcome = s.outcome := by
  cases a with
  | prompt => exact outcome_prompt hnul h
  | write => exact outcome_write h
  | recv n =>
    obtain ⟨hwait, -, text, -, rfl⟩ := echoStep_recv h
    simp only [Echo.outcome, hwait]
  | read n => exact outcome_server h trivial
  | echo => exact outcome_server h trivial
  | out => exact outcome_server h trivial
  | clear => exact outcome_server h trivial

/-- What is left of the input is a suffix of it. -/
theorem stdin_suffix {s s' : Echo} {a : EchoAct} (h : echoStep s a = some s') : s'.stdin <:+ s.stdin := by
  have hserver : a.ofServer → s'.stdin <:+ s.stdin := fun ha => (echoStep_server ha h).2.2.1 ▸ List.suffix_rfl
  cases a with
  | prompt =>
    obtain ⟨-, rfl⟩ := echoStep_prompt h
    exact List.drop_suffix _ _
  | write => obtain ⟨-, m, -, ⟨-, rfl⟩ | ⟨-, rfl⟩⟩ := echoStep_write h <;> exact List.suffix_rfl
  | recv n =>
    obtain ⟨-, -, text, -, rfl⟩ := echoStep_recv h
    exact List.suffix_rfl
  | read n => exact hserver trivial
  | echo => exact hserver trivial
  | out => exact hserver trivial
  | clear => exact hserver trivial

/-- A client that has closed has sent the session of its input, however the steps were interleaved. -/
theorem msgs_of_closed {s₀ s : Echo} {as : List EchoAct} (h₀ : EchoInit s₀) (hnul : 0 ∉ s₀.stdin)
    (h : run echoStep s₀ as = some s) (hclosed : s.client = .closed) : session s₀.stdin = some s.msgs := by
  have hrun : 0 ∉ s.stdin ∧ s.outcome = s₀.outcome := by
    refine run_invariant (P := fun s => 0 ∉ s.stdin ∧ s.outcome = s₀.outcome) ?_ ⟨hnul, rfl⟩ h
    rintro s a s' ⟨hnul, hout⟩ hstep
    exact ⟨fun hmem => hnul ((stdin_suffix hstep).subset hmem), (outcome_step hnul hstep).trans hout⟩
  have hout := hrun.2
  simp only [Echo.outcome, hclosed, h₀.client, h₀.msgs, List.nil_append] at hout
  simpa using hout.symm

/-! ## An input can be played to its end -/

/-- Between two messages: nothing is on its way. -/
structure AtPrompt (s : Echo) : Prop where
  client : s.client = .prompt
  server : s.server = .read
  cbuf : s.cbuf.length = BUFSIZE
  sbuf : s.sbuf.length = BUFSIZE
  toServer : s.toServer = []
  toClient : s.toClient = []

theorem run_sent {s : Echo} (hc : s.client = .prompt) (hnul : 0 ∉ s.stdin) (hne : s.stdin ≠ [])
    (hq : lineOf (BUFSIZE - 1) s.stdin ≠ quit) :
    run echoStep s [.prompt, .write] = some { s with
      client := .wait
      cbuf := overwrite (List.replicate BUFSIZE 0) (lineOf (BUFSIZE - 1) s.stdin ++ [0])
      stdin := s.stdin.drop (lineOf (BUFSIZE - 1) s.stdin).length
      toServer := s.toServer ++ lineOf (BUFSIZE - 1) s.stdin
      msgs := s.msgs ++ [lineOf (BUFSIZE - 1) s.stdin] } := by
  simp only [run, echoStep, if_pos hc, if_neg hne, Option.bind_eq_bind, Option.bind_some, reduceIte, cstr_fgets hnul,
    if_neg hq]

/-- The server sends back what it has read. -/
theorem run_served {s : Echo} {n : Nat} (hc : s.server = .read)
    (hread : ReadReturns BUFSIZE s.toServer (s.client = .closed) n) (hn : n ≠ 0) :
    run echoStep s [.read n, .echo, .out, .clear] = some { s with
      sbuf := List.replicate BUFSIZE 0
      toServer := s.toServer.drop n
      toClient := s.toClient ++ s.toServer.take n
      echoed := s.echoed ++ s.toServer.take n
      stdout := s.stdout ++ s.toServer.take n } := by
  have htake : (overwrite s.sbuf (s.toServer.take n)).take n = s.toServer.take n := by
    have h := take_overwrite s.sbuf (s.toServer.take n)
    rwa [List.length_take_of_le hread.2.1] at h
  simp only [run, echoStep, if_pos (And.intro hc hread), if_neg hn, Option.bind_some, reduceIte, htake]
  rw [hc]

/-- The client takes all that is there. -/
theorem run_received {s : Echo} (hc : s.client = .wait) (hne : s.toClient ≠ [])
    (hlen : s.toClient.length ≤ BUFSIZE - 1) (hcbuf : s.cbuf.length = BUFSIZE) (hnul : 0 ∉ s.toClient) :
    echoStep s (.recv s.toClient.length) = some { s with
      client := .prompt
      cbuf := (overwrite s.cbuf s.toClient).set s.toClient.length 0
      toClient := []
      received := s.received ++ s.toClient
      texts := s.texts ++ [s.toClient] } := by
  have hread : ReadReturns (BUFSIZE - 1) s.toClient (s.server = .closed) s.toClient.length :=
    ⟨hlen, Nat.le_refl _, fun h0 => absurd (List.length_eq_zero_iff.1 h0) hne⟩
  have hlt : s.toClient.length < s.cbuf.length := by
    rw [hcbuf]
    exact Nat.lt_of_le_of_lt hlen (by decide)
  simp only [echoStep, if_pos (And.intro hc hread), List.take_length, List.drop_length, cstr_terminate hnul hlt,
    Option.bind_eq_bind, Option.bind_some]

/-- A message is sent, echoed as a whole and read as a whole. -/
theorem exists_answered {s : Echo} (h : AtPrompt s) (hnul : 0 ∉ s.stdin) (hne : s.stdin ≠ [])
    (hq : lineOf (BUFSIZE - 1) s.stdin ≠ quit) :
    ∃ as s', run echoStep s as = some s' ∧ AtPrompt s' ∧
      s'.stdin = s.stdin.drop (lineOf (BUFSIZE - 1) s.stdin).length ∧
      s'.msgs = s.msgs ++ [lineOf (BUFSIZE - 1) s.stdin] := by
  have hsent := run_sent h.client hnul hne hq
  have hmne := lineOf_ne_nil (n := BUFSIZE - 1) (by decide) hne
  have hlen := length_lineOf (BUFSIZE - 1) s.stdin
  have hmnul : 0 ∉ lineOf (BUFSIZE - 1) s.stdin := fun hmem => hnul ((prefix_lineOf _ _).subset hmem)
  have hbuf := length_fgets s.stdin
  generalize lineOf (BUFSIZE - 1) s.stdin = m at hsent hmne hlen hmnul hbuf ⊢
  rw [h.toServer, h.toClient, List.nil_append] at hsent
  generalize overwrite (List.replicate BUFSIZE 0) (m ++ [0]) = cbuf at hsent hbuf
  have hmlen : m.length ≠ 0 := fun h0 => hmne (List.length_eq_zero_iff.1 h0)
  have hechoed := run_served (s := { s with
    client := .wait
    cbuf := cbuf
    stdin := s.stdin.drop m.length
    toServer := m
    toClient := []
    msgs := s.msgs ++ [m] }) h.server ⟨Nat.le_trans hlen (by decide), Nat.le_refl _, fun h0 => absurd h0 hmlen⟩ hmlen
  simp only [List.take_length, List.drop_length] at hechoed
  have hreceived := run_received (s := { s with
    client := .wait
    cbuf := cbuf
    sbuf := List.replicate BUFSIZE 0
    stdin := s.stdin.drop m.length
    toServer := []
    toClient := m
    msgs := s.msgs ++ [m]
    echoed := s.echoed ++ m
    stdout := s.stdout ++ m }) rfl hmne hlen hbuf hmnul
  have hcbuf : ((overwrite cbuf m).set m.length 0).length = BUFSIZE := by
    rw [List.length_set, length_overwrite, hbuf]
    rw [hbuf]
    exact Nat.le_trans hlen (by decide)
  have hrun := run_append.2 ⟨_, hsent, run_append.2 ⟨_, hechoed, run_cons.2 ⟨_, hreceived, run_nil _⟩⟩⟩
  exact ⟨_, _, hrun, ⟨rfl, h.server, hcbuf, List.length_replicate, rfl, rfl⟩, rfl, rfl⟩

theorem exists_quit {s : Echo} (h : AtPrompt s) (hnul : 0 ∉ s.stdin) (hq : lineOf (BUFSIZE - 1) s.stdin = quit) :
    ∃ s', run echoStep s [.prompt, .write] = some s' ∧ s'.client = .closed := by
  have hne : s.stdin ≠ [] := by
    intro hnil
    rw [hnil] at hq
    cases hq
  have hmsg := cstr_fgets hnul
  rw [hq] at hmsg
  refine ⟨{ s with
    client := .closed
    cbuf := overwrite (List.replicate BUFSIZE 0) (quit ++ [0])
    stdin := s.stdin.drop quit.length }, ?_, rfl⟩
  simp only [run, echoStep, if_pos h.client, if_neg hne, Option.bind_eq_bind, Option.bind_some, reduceIte, hq, hmsg]

/-- The client gets to its end if its input has one. -/
theorem exists_closed (text : List Byte) : ∀ s : Echo, AtPrompt s → s.stdin = text → 0 ∉ text → session text ≠ none →
    ∃ as s', run echoStep s as = some s' ∧ s'.client = .closed := by
  induction text using session.induct with
  | case1 => exact fun _ _ _ _ hsome => absurd session_nil hsome
  | case2 text htext hq =>
    rintro s hs rfl hnul -
    obtain ⟨s', hrun, hclosed⟩ := exists_quit hs hnul hq
    exact ⟨_, s', hrun, hclosed⟩
  | case3 text htext hq ih =>
    rintro s hs rfl hnul hsome
    obtain ⟨as, t, hrun, ht, hstdin, -⟩ := exists_answered hs hnul htext hq
    have hrest : session (s.stdin.drop (lineOf (BUFSIZE - 1) s.stdin).length) ≠ none := by
      intro hnone
      rw [session_cons htext hq, hnone] at hsome
      exact hsome rfl
    obtain ⟨bs, s', hrun', hclosed⟩ := ih t ht hstdin (fun hmem => hnul (List.mem_of_mem_drop hmem)) hrest
    exact ⟨as ++ bs, s', run_append.2 ⟨t, hrun, hrun'⟩, hclosed⟩

/-- The connection is there and this is typed. -/
def Echo.start (text : List Byte) : Echo :=
  ⟨.prompt, .read, List.replicate BUFSIZE 0, List.replicate BUFSIZE 0, text, [], [], [], [], [], [], []⟩

theorem echoInit_start (text : List Byte) : EchoInit (.start text) :=
  ⟨rfl, rfl, List.length_replicate, List.length_replicate, rfl, rfl, rfl, rfl, rfl, rfl, rfl⟩

/-- The client has quit after reading part of this input. -/
def Quits (text : List Byte) (s : Echo) : Prop :=
  ∃ s₀ as, EchoInit s₀ ∧ s₀.stdin = text ∧ run echoStep s₀ as = some s ∧ s.client = .closed

/-- The client can quit, and it has then sent the text before the first quit line, in messages that fit. -/
def SplitsInput (text : List Byte) : Prop :=
  (∃ s, Quits text s) ∧
  ∀ s, Quits text s → s.msgs.flatten = unlines 10 (linesBefore text) ∧ ∀ m ∈ s.msgs, m ≠ [] ∧ m.length ≤ 29

/-- **When the client quits on a quit line only.** For an input without terminators that has a quit line, the client
sends the text before that line exactly if none of the lines before it leaves `q` for its last piece. -/
theorem splitsInput_iff (text : List Byte) (hnul : 0 ∉ text) (hquit : [113] ∈ lines 10 text) :
    SplitsInput text ↔ ∀ l ∈ linesBefore text, ¬ (l.length % 29 = 1 ∧ l.getLast? = some 113) := by
  obtain ⟨rest, hrest⟩ := exists_quitLine hquit
  have hls : ∀ l ∈ linesBefore text, 10 ∉ l := fun l hl =>
    (exists_unlines 10 text).1 l ((List.takeWhile_prefix _).subset hl)
  obtain ⟨ms, hms, hiff⟩ := session_lines (linesBefore text) hls rest
  rw [← hrest] at hms
  have hmsgs : ∀ s, Quits text s → s.msgs = ms := by
    rintro s ⟨s₀, as, h₀, rfl, hrun, hclosed⟩
    exact Option.some.inj ((msgs_of_closed h₀ hnul hrun hclosed).symm.trans hms)
  have hexists : ∃ s, Quits text s := by
    have hinit := echoInit_start text
    obtain ⟨as, s, hrun, hclosed⟩ := exists_closed text (.start text)
      ⟨hinit.client, hinit.server, hinit.cbuf, hinit.sbuf, hinit.toServer, hinit.toClient⟩ rfl hnul (by simp [hms])
    exact ⟨s, _, as, hinit, rfl, hrun, hclosed⟩
  rw [SplitsInput, and_iff_right hexists]
  constructor
  · intro h
    obtain ⟨s, hs⟩ := hexists
    exact hiff.1 (hmsgs s hs ▸ (h s hs).1)
  · intro h s hs
    rw [hmsgs s hs]
    exact ⟨hiff.2 h, session_bounds text ms hms⟩

/-- `hi` and `q`. -/
theorem splitsInput_iff_hi : SplitsInput ([104, 105, 10] ++ quit) :=
  (splitsInput_iff _ (by decide) (by decide)).2 (by decide)

/-- A line of 29 letters and a `q`: the client sends the letters and quits, with a line to go before the quit line. -/
theorem piece_taken_for_quit :
    let text := List.replicate 29 97 ++ [113, 10] ++ [113, 10]
    0 ∉ text ∧ [113] ∈ lines 10 text ∧ ¬ SplitsInput text := by
  refine ⟨by decide, by decide, fun hclaim => ?_⟩
  obtain ⟨s, hs, hclient, hmsgs⟩ : ∃ s, run echoStep (.start (List.replicate 29 97 ++ [113, 10] ++ [113, 10]))
      ([.prompt, .write, .read 29, .echo, .out, .clear, .recv 29] ++ [.prompt, .write]) = some s ∧
      s.client = .closed ∧ s.msgs = [List.replicate 29 97] := ⟨_, rfl, rfl, rfl⟩
  have hflatten := (hclaim.2 s ⟨_, _, echoInit_start _, rfl, hs, hclient⟩).1
  rw [hmsgs] at hflatten
  exact absurd hflatten (by decide)

end CoinMachine
