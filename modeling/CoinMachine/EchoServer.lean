import CoinMachine.EchoInput
/-!
# The echo server and what its `read` returns (`code/tcp/server.c:52-57`)

In `Echo` a read of the server returns bytes or the end of the stream. Here it may fail too. The loop ends at a
result of 0 only, and hands the result, an `int`, to two writes that take a `size_t` (32 bits on the board).
A turn is one read with the writes that follow it; with bytes for its result it is the turn of `Echo`
(`run_turn`).
-/

namespace CoinMachine

open Transition CString

/-- What `read(clnt_sock, message, BUFSIZE)` comes back with. -/
inductive ReadResult where
  | bytes (l : List Byte) (some_read : 1 ≤ l.length) (fits : l.length ≤ BUFSIZE)
  | eof
  | error

def ReadResult.str_len : ReadResult → Int
  | .bytes l _ _ => l.length
  | .eof => 0
  | .error => -1

/-- `message` after the call. -/
def ReadResult.fill (message : List Byte) : ReadResult → List Byte
  | .bytes l _ _ => overwrite message l
  | _ => message

inductive Fd where
  | clnt_sock
  | stdout
deriving DecidableEq

/-- `write(fd, message, count)` -/
structure Write where
  fd : Fd
  message : List Byte
  count : Nat

def Write.bytes (w : Write) : List Byte := w.message.take w.count

/-- `(size_t) n` -/
def size_t (n : Int) : Nat := (n % 4294967296).toNat

structure Turn where
  result : ReadResult
  writes : List Write

/-- The turns of the loop on these results. -/
def serverLoop (message : List Byte) : List ReadResult → List Turn
  | [] => []
  | r :: rs =>
    if r.str_len = 0 then [⟨r, []⟩]
    else
      let filled := r.fill message
      ⟨r, [⟨.clnt_sock, filled, size_t r.str_len⟩, ⟨.stdout, filled, size_t r.str_len⟩]⟩ ::
        serverLoop (List.replicate BUFSIZE 0) rs

/-- Every write of the turn has the count just read, and the bytes. -/
def Turn.Echoes (t : Turn) : Prop :=
  ∀ w ∈ t.writes, 1 ≤ w.count ∧ w.count ≤ BUFSIZE ∧ t.result.str_len = w.count ∧
    ∃ l h h', t.result = .bytes l h h' ∧ w.bytes = l

/-- Every turn echoes what it has read, and the first 0 or -1 is the last result that is read. -/
structure EchoesReads (message : List Byte) (rs : List ReadResult) : Prop where
  echoes : ∀ t ∈ serverLoop message rs, t.Echoes
  ends : ∀ pre t post, serverLoop message rs = pre ++ t :: post → t.result.str_len ≤ 0 → post = []

theorem size_t_str_len {l : List Byte} (h : l.length ≤ BUFSIZE) : size_t l.length = l.length := by
  unfold BUFSIZE at h
  unfold size_t
  omega

/-- A turn that has read bytes. -/
theorem serverLoop_bytes (message l : List Byte) (h : 1 ≤ l.length) (h' : l.length ≤ BUFSIZE) (rs : List ReadResult) :
    serverLoop message (.bytes l h h' :: rs) =
      ⟨.bytes l h h', [⟨.clnt_sock, overwrite message l, l.length⟩, ⟨.stdout, overwrite message l, l.length⟩]⟩ ::
        serverLoop (List.replicate BUFSIZE 0) rs := by
  have hne : (ReadResult.bytes l h h').str_len ≠ 0 := by
    simp only [ReadResult.str_len]
    omega
  rw [serverLoop, if_neg hne]
  simp only [ReadResult.str_len, ReadResult.fill, size_t_str_len h']

theorem echoes_bytes (message l : List Byte) (h : 1 ≤ l.length) (h' : l.length ≤ BUFSIZE) :
    Turn.Echoes ⟨.bytes l h h', [⟨.clnt_sock, overwrite message l, l.length⟩, ⟨.stdout, overwrite message l, l.length⟩]⟩ := by
  intro w hw
  simp only [List.mem_cons, List.not_mem_nil, or_false] at hw
  rcases hw with rfl | rfl <;> exact ⟨h, h', rfl, l, h, h', rfl, take_overwrite message l⟩

/-- A turn that reads bytes changes nothing for the turns after it. -/
theorem echoesReads_bytes (message l : List Byte) (h : 1 ≤ l.length) (h' : l.length ≤ BUFSIZE) (rs : List ReadResult) :
    EchoesReads message (.bytes l h h' :: rs) ↔ EchoesReads (List.replicate BUFSIZE 0) rs := by
  have hloop := serverLoop_bytes message l h h' rs
  constructor
  · intro hr
    refine ⟨fun t ht => hr.echoes t ?_, fun pre t post heq => ?_⟩
    · rw [hloop]
      exact List.mem_cons_of_mem _ ht
    · exact hr.ends (_ :: pre) t post (hloop.trans (congrArg (List.cons _) heq))
  · intro hr
    refine ⟨fun t ht => ?_, fun pre t post heq ht => ?_⟩
    · rw [hloop] at ht
      rcases List.mem_cons.1 ht with rfl | ht
      · exact echoes_bytes message l h h'
      · exact hr.echoes t ht
    · rw [hloop] at heq
      cases pre with
      | nil =>
        obtain ⟨rfl, -⟩ := List.cons.inj heq
        simp only [ReadResult.str_len] at ht
        omega
      | cons t' pre => exact hr.ends pre t post (List.cons.inj heq).2 ht

/-- **When the server writes back only what it has read.** For every sequence of results: exactly if no read fails
before the end of the stream. -/
theorem echoesReads_iff (message : List Byte) (rs : List ReadResult) :
    EchoesReads message rs ↔ ∀ pre post, rs = pre ++ .error :: post → .eof ∈ pre := by
  induction rs generalizing message with
  | nil =>
    refine iff_of_true ⟨fun t ht => absurd ht List.not_mem_nil, fun pre t post heq => ?_⟩ fun pre post heq => ?_
    · simp [serverLoop] at heq
    · simp at heq
  | cons r rs ih =>
    cases r with
    | bytes l h h' =>
      rw [echoesReads_bytes, ih]
      constructor
      · intro hr pre post heq
        cases pre with
        | nil => cases heq
        | cons r' pre => exact List.mem_cons_of_mem _ (hr pre post (List.cons.inj heq).2)
      · intro hr pre post heq
        have hmem := hr (_ :: pre) post (by rw [heq, List.cons_append])
        rcases List.mem_cons.1 hmem with heof | hmem
        · cases heof
        · exact hmem
    | eof =>
      refine iff_of_true ⟨fun t ht w hw => ?_, fun pre t post heq _ => ?_⟩ fun pre post heq => ?_
      · obtain rfl := List.mem_singleton.1 (show t ∈ [⟨ReadResult.eof, []⟩] from ht)
        cases hw
      · have hlen := congrArg List.length (show [⟨ReadResult.eof, []⟩] = pre ++ t :: post from heq)
        rw [List.length_append, List.length_cons, List.length_cons, List.length_nil] at hlen
        exact List.length_eq_zero_iff.1 (by omega)
      · cases pre with
        | nil => cases heq
        | cons r' pre => exact (List.cons.inj heq).1 ▸ List.mem_cons_self
    | error =>
      refine iff_of_false (fun hr => ?_) fun hr => absurd (hr [] rs rfl) List.not_mem_nil
      -- the turn writes although nothing has been read
      obtain ⟨-, -, -, l, h, h', hbytes, -⟩ := hr.echoes _ List.mem_cons_self _ List.mem_cons_self
      cases hbytes

/-- A connection that is reset before the first byte: both writes are asked for 2^32 - 1 bytes of a buffer of 30. -/
theorem failed_read_echoed :
    ¬ EchoesReads (List.replicate BUFSIZE 0) [.error] ∧
      ∀ t ∈ serverLoop (List.replicate BUFSIZE 0) [.error], ∀ w ∈ t.writes, w.count = 4294967295 := by
  refine ⟨fun hr => ?_, by decide⟩
  obtain ⟨-, hcount, -⟩ := hr.echoes _ List.mem_cons_self _ List.mem_cons_self
  exact absurd hcount (by decide)

/-! ## The turn of `Echo` -/

/-- Where a read returns bytes, the turn of the loop is what the server of `Echo` does. -/
theorem run_turn {s : Echo} {n : Nat} (hc : s.server = .read)
    (hread : ReadReturns BUFSIZE s.toServer (s.client = .closed) n) (hn : n ≠ 0) :
    ∃ h h' w w', serverLoop s.sbuf [.bytes (s.toServer.take n) h h'] = [⟨.bytes (s.toServer.take n) h h', [w, w']⟩] ∧
      run echoStep s [.read n, .echo, .out, .clear] = some { s with
        sbuf := List.replicate BUFSIZE 0
        toServer := s.toServer.drop n
        toClient := s.toClient ++ w.bytes
        echoed := s.echoed ++ w.bytes
        stdout := s.stdout ++ w'.bytes } := by
  have hlen : (s.toServer.take n).length = n := List.length_take_of_le hread.2.1
  have h : 1 ≤ (s.toServer.take n).length := by omega
  have h' : (s.toServer.take n).length ≤ BUFSIZE := by
    rw [hlen]
    exact hread.1
  refine ⟨h, h', _, _, serverLoop_bytes _ _ h h' [], ?_⟩
  simp only [Write.bytes, take_overwrite]
  exact run_served hc hread hn

end CoinMachine
