import CoinMachine.WriteHandlers
/-!
# What the read and write handlers touch

The caller chooses `length`, and every handler was written for one length: a byte, a row of eight, a frame of
ten. Here a handler is the list of the bytes it touches: of its own buffer, at the user pointer, and in its
tables. `copy_from_user` fills as many bytes of the buffer as it was asked for, with zeros where it could not
read; `copy_to_user` reads those it hands out.

| here | there |
| --- | --- |
| `keyReadTouch`   | `key_read` (`receive/key_driver.c:99-112` and its copies) |
| `sensReadTouch`  | `sens_read` (`receive/sens_driver.c:62-78` and its copies) |
| `dotTouch`       | `dot_write` (`receive/dot_driver.c:60-92`) |
| `motorTouch`     | `motor_write` (`receive/mot_driver.c:49-68`) |
| `ledTouch`       | `led_write` (`led_driver.c:78-120`) |
| `iomDotTouch`    | `iom_fpga_dot_write` (`code/dot_driver.c:53-63`) |

No handler looks at `length` before it copies, so each stays within its own bytes for the lengths it was written
for and no others (`touches_own_iff`).
-/

namespace CoinMachine

inductive Access where
  /-- a byte of the local buffer -/
  | buf (i : Nat)
  /-- a byte at the user pointer -/
  | user (i : Nat)
  /-- an entry of a table with `size` entries -/
  | table (size i : Nat)
deriving DecidableEq

/-! ## The handlers

What a call touches, in program order. -/

def copyFromUser (length uncopied : Nat) : List Access :=
  (List.range (length - uncopied)).map .user ++ (List.range length).map .buf

def copyToUser (length uncopied : Nat) : List Access :=
  (List.range (length - uncopied)).flatMap fun i => [.buf i, .user i]

/-- `if (result < 0) return result;` after a copy, then `rest`. -/
def afterCopy (copy : List Access) (uncopied : Nat) (rest : List Access) : List Access :=
  if wrap uncopied < 0 then copy else copy ++ rest

def keyReadTouch (length uncopied : Nat) : List Access := afterCopy (copyToUser length uncopied) uncopied []

/-- The level of the sensor line goes into `tmp_buf` first. -/
def sensReadTouch (length uncopied : Nat) : List Access := afterCopy (.buf 0 :: copyToUser length uncopied) uncopied []

def motorTouch (length uncopied : Nat) : List Access := afterCopy (copyFromUser length uncopied) uncopied [.buf 0]

/-- What has been copied to `tmp_buf` is not used: the row is read at the user pointer (`:78-80`). -/
def dotTouch (length uncopied : Nat) : List Access :=
  afterCopy (copyFromUser length uncopied) uncopied ((List.range 8).map .user)

/-- The table entries of a call with the byte `tmp_buf` (`:96-116`). -/
def ledTables (tmp_buf : Byte) : List Access :=
  if tmp_buf.toNat / 10 = 1 then [.table 9 (tmp_buf.toNat % 10)]
  else (List.replicate passes ((List.range 8).flatMap fun i => [.table 8 i, .table 10 tmp_buf.toNat])).flatten

def ledTouch (tmp_buf : Byte) (length uncopied : Nat) : List Access :=
  afterCopy (copyFromUser length uncopied) uncopied (.buf 0 :: ledTables tmp_buf)

/-- This one returns `-EFAULT` after an incomplete copy (`:58`). -/
def iomDotTouch (length uncopied : Nat) : List Access :=
  if uncopied ≠ 0 then copyFromUser length uncopied
  else copyFromUser length uncopied ++ (List.range length).map .buf

/-! ### Against the other models of the same handlers -/

/-- A frame depends on the bytes that `dotTouch` lists. -/
theorem dotWrite_congr {gdata gdata' : Nat → Option Byte} (length uncopied : Nat)
    (h : ∀ i, .user i ∈ dotTouch length uncopied → gdata i = gdata' i) :
    dotWrite gdata length uncopied = dotWrite gdata' length uncopied := by
  rw [dotWrite, dotWrite]
  split
  · rfl
  · rename_i hnot
    have heq : ∀ i < 8, gdata i = gdata' i := by
      intro i hi
      refine h i ?_
      rw [dotTouch, afterCopy, if_neg hnot]
      exact List.mem_append_right _ (List.mem_map_of_mem (List.mem_range.2 hi))
    rw [loadRow, loadRow, heq 0 (by decide), heq 1 (by decide), heq 2 (by decide), heq 3 (by decide),
      heq 4 (by decide), heq 5 (by decide), heq 6 (by decide), heq 7 (by decide)]

/-- An access is within a buffer of `size` bytes, a user buffer of `length` bytes, or its table. -/
def Access.Within (size length : Nat) : Access → Prop
  | buf i => i < size
  | user i => i < length
  | table n i => i < n

/-- The stores of a call are defined exactly if it stays within its tables. -/
theorem ledTables_within (v : Byte) (size length : Nat) :
    (∀ a ∈ ledTables v, a.Within size length) ↔ (ledOps v).isSome := by
  rw [ledOps_isSome, ledTables]
  split
  · rename_i h10
    rw [List.forall_mem_singleton, Access.Within]
    omega
  · rename_i h10
    have hpasses : passes ≠ 0 := by unfold passes; decide
    constructor
    · intro h
      have hv : (Access.table 10 v.toNat).Within size length := by
        refine h _ (List.mem_flatten.2 ⟨_, List.mem_replicate.2 ⟨hpasses, rfl⟩, ?_⟩)
        exact List.mem_flatMap.2 ⟨0, List.mem_range.2 (by decide), by simp⟩
      rw [Access.Within] at hv
      omega
    · intro h a ha
      obtain ⟨pass, hpass, ha⟩ := List.mem_flatten.1 ha
      rw [(List.mem_replicate.1 hpass).2, List.mem_flatMap] at ha
      obtain ⟨i, hi, ha⟩ := ha
      have hi8 : i < 8 := List.mem_range.1 hi
      have hv : v.toNat < 10 := by omega
      simp only [List.mem_cons, List.not_mem_nil, or_false] at ha
      rcases ha with rfl | rfl
      · exact hi8
      · exact hv

/-! ## Which calls stay within their own bytes -/

inductive CopyHandler where
  | keyRead
  | sensRead
  | dot
  | motor
  | led
  | iomDot
deriving DecidableEq

/-- The size of the buffer. -/
def CopyHandler.size : CopyHandler → Nat
  | keyRead => 1
  | sensRead => 1
  | dot => 8
  | motor => 1
  | led => 1
  | iomDot => 10

/-- A call: the length is the caller's, and the local byte of `led_write` is not initialised. -/
structure UserCall where
  length : Nat
  gdata : Nat → Byte
  garbage : Byte

/-- The local byte after the copy. -/
def UserCall.tmpBuf (c : UserCall) (uncopied : Nat) : Byte := copiedByte c.garbage (c.gdata 0) c.length uncopied

def CopyHandler.touch (h : CopyHandler) (c : UserCall) (uncopied : Nat) : List Access :=
  match h with
  | keyRead => keyReadTouch c.length uncopied
  | sensRead => sensReadTouch c.length uncopied
  | dot => dotTouch c.length uncopied
  | motor => motorTouch c.length uncopied
  | led => ledTouch (c.tmpBuf uncopied) c.length uncopied
  | iomDot => iomDotTouch c.length uncopied

/-- Whatever the copy does, the call touches the bytes of its buffer, the user bytes before `length` and the
entries of its tables only. -/
def TouchesOwn (h : CopyHandler) (c : UserCall) : Prop :=
  ∀ uncopied ≤ c.length, ∀ a ∈ h.touch c uncopied, a.Within h.size c.length

/-- The calls that a handler was written for. -/
def CopyHandler.Fits (h : CopyHandler) (c : UserCall) : Prop :=
  match h with
  | keyRead => c.length ≤ 1
  | sensRead => c.length ≤ 1
  | dot => c.length = 8
  | motor => c.length ≤ 1
  | led => c.length ≤ 1 ∧ (c.tmpBuf 0).toNat ≤ 18
  | iomDot => c.length ≤ 10

/-- `test_mac.c` writes one byte to the matrix, and the driver reads eight. -/
theorem dot_reads_beyond : ¬ ∀ (h : CopyHandler) (c : UserCall), TouchesOwn h c := by
  intro hclaim
  have hwithin : 7 < 1 := hclaim .dot ⟨1, fun _ => 0, 0⟩ 0 (by decide) (.user 7) (by decide)
  exact absurd hwithin (by decide)

/-! ### The copies -/

theorem copyFromUser_within {length uncopied size : Nat} :
    (∀ a ∈ copyFromUser length uncopied, a.Within size length) ↔ length ≤ size := by
  constructor
  · intro h
    by_contra hlt
    have hbuf := h (.buf size) (List.mem_append_right _ (List.mem_map_of_mem (List.mem_range.2 (by omega))))
    exact absurd hbuf (Nat.lt_irrefl size)
  · intro h a ha
    rcases List.mem_append.1 ha with ha | ha
    · obtain ⟨i, hi, rfl⟩ := List.mem_map.1 ha
      have hi' := List.mem_range.1 hi
      show i < length
      omega
    · obtain ⟨i, hi, rfl⟩ := List.mem_map.1 ha
      exact Nat.lt_of_lt_of_le (List.mem_range.1 hi) h

theorem copyToUser_within {length uncopied size : Nat} :
    (∀ a ∈ copyToUser length uncopied, a.Within size length) ↔ length - uncopied ≤ size := by
  constructor
  · intro h
    by_contra hlt
    have hbuf := h (.buf size) (List.mem_flatMap.2 ⟨size, List.mem_range.2 (by omega), List.mem_cons_self⟩)
    exact absurd hbuf (Nat.lt_irrefl size)
  · intro h a ha
    obtain ⟨i, hi, ha⟩ := List.mem_flatMap.1 ha
    have hi' := List.mem_range.1 hi
    simp only [List.mem_cons, List.not_mem_nil, or_false] at ha
    rcases ha with rfl | rfl
    · exact Nat.lt_of_lt_of_le hi' h
    · show i < length
      omega

/-- What comes after the copy happens in every call whose length is small. -/
theorem afterCopy_within {copy rest : List Access} {length uncopied size : Nat} (hlen : length ≤ 10)
    (hun : uncopied ≤ length) :
    (∀ a ∈ afterCopy copy uncopied rest, a.Within size length) ↔
      (∀ a ∈ copy, a.Within size length) ∧ ∀ a ∈ rest, a.Within size length := by
  have hnot : ¬ wrap uncopied < 0 := by rw [wrap_id (by omega) (by omega)]; omega
  rw [afterCopy, if_neg hnot, List.forall_mem_append]

theorem copy_of_afterCopy {copy rest : List Access} {length uncopied size : Nat}
    (h : ∀ a ∈ afterCopy copy uncopied rest, a.Within size length) :
    ∀ a ∈ copy, a.Within size length := by
  intro a ha
  refine h a ?_
  rw [afterCopy]
  split
  · exact ha
  · exact List.mem_append_left _ ha

/-- A handler that copies in: the length has to fit, and so has what follows. -/
theorem writeTouch_within (length : Nat) {size : Nat} (hsize : size ≤ 10) (rest : Nat → List Access) :
    (∀ uncopied ≤ length, ∀ a ∈ afterCopy (copyFromUser length uncopied) uncopied (rest uncopied),
      a.Within size length) ↔
      length ≤ size ∧ ∀ uncopied ≤ length, ∀ a ∈ rest uncopied, a.Within size length := by
  constructor
  · intro h
    have hlen : length ≤ size := copyFromUser_within.1 (copy_of_afterCopy (h 0 (Nat.zero_le _)))
    exact ⟨hlen, fun uncopied hun => ((afterCopy_within (by omega) hun).1 (h uncopied hun)).2⟩
  · rintro ⟨hlen, hrest⟩ uncopied hun
    exact (afterCopy_within (by omega) hun).2 ⟨copyFromUser_within.2 hlen, hrest uncopied hun⟩

/-- A handler that copies out, after it has touched `first`. -/
theorem readTouch_within (length : Nat) {size : Nat} (hsize : size ≤ 10) (first : List Access) :
    (∀ uncopied ≤ length, ∀ a ∈ afterCopy (first ++ copyToUser length uncopied) uncopied [],
      a.Within size length) ↔ length ≤ size ∧ ∀ a ∈ first, a.Within size length := by
  constructor
  · intro h
    have hcopy := copy_of_afterCopy (h 0 (Nat.zero_le _))
    rw [List.forall_mem_append, copyToUser_within] at hcopy
    exact ⟨hcopy.2, hcopy.1⟩
  · rintro ⟨hlen, hfirst⟩ uncopied hun
    refine (afterCopy_within (by omega) hun).2 ⟨?_, fun a ha => nomatch ha⟩
    rw [List.forall_mem_append, copyToUser_within]
    exact ⟨hfirst, by omega⟩

theorem iomDotTouch_within {length : Nat} :
    (∀ uncopied ≤ length, ∀ a ∈ iomDotTouch length uncopied, a.Within 10 length) ↔ length ≤ 10 := by
  constructor
  · intro h
    have hcopy : ∀ a ∈ copyFromUser length 0, a.Within 10 length := fun a ha =>
      h 0 (Nat.zero_le _) a (List.mem_append_left _ ha)
    exact copyFromUser_within.1 hcopy
  · intro h uncopied _ a ha
    rw [iomDotTouch] at ha
    split at ha
    · exact copyFromUser_within.2 h a ha
    · rcases List.mem_append.1 ha with ha | ha
      · exact copyFromUser_within.2 h a ha
      · obtain ⟨i, hi, rfl⟩ := List.mem_map.1 ha
        exact Nat.lt_of_lt_of_le (List.mem_range.1 hi) h

/-- What an incomplete copy leaves is in the tables if what a complete one leaves is. -/
theorem tmpBuf_le {c : UserCall} (h : (c.tmpBuf 0).toNat ≤ 18) (uncopied : Nat) :
    (c.tmpBuf uncopied).toNat ≤ 18 := by
  unfold UserCall.tmpBuf copiedByte at h ⊢
  split at h
  · rename_i h0
    rwa [if_pos h0]
  · rename_i h0
    rw [if_pos (Nat.pos_of_ne_zero h0)] at h
    rw [if_neg h0]
    split
    · exact h
    · decide

/-- **When a handler touches only the bytes it owns.** For every length, every content and every outcome of the
copy: exactly for the calls that it was written for. -/
theorem touches_own_iff (h : CopyHandler) (c : UserCall) : TouchesOwn h c ↔ h.Fits c := by
  cases h with
  | keyRead =>
    refine (readTouch_within c.length (show 1 ≤ 10 by decide) []).trans (and_iff_left ?_)
    exact List.forall_mem_nil _
  | sensRead =>
    refine (readTouch_within c.length (show 1 ≤ 10 by decide) [.buf 0]).trans (and_iff_left ?_)
    exact List.forall_mem_singleton.2 Nat.one_pos
  | motor =>
    refine (writeTouch_within c.length (show 1 ≤ 10 by decide) fun _ => [.buf 0]).trans (and_iff_left ?_)
    exact fun _ _ => List.forall_mem_singleton.2 Nat.one_pos
  | dot =>
    refine (writeTouch_within c.length (show 8 ≤ 10 by decide) fun _ => (List.range 8).map .user).trans ?_
    constructor
    · rintro ⟨hlen, hrow⟩
      have h7 : 7 < c.length := hrow 0 (Nat.zero_le _) (.user 7) (by decide)
      show c.length = 8
      omega
    · intro hlen
      refine ⟨Nat.le_of_eq hlen, fun _ _ a ha => ?_⟩
      obtain ⟨i, hi, rfl⟩ := List.mem_map.1 ha
      show i < c.length
      rw [show c.length = 8 from hlen]
      exact List.mem_range.1 hi
  | led =>
    refine (writeTouch_within c.length (show 1 ≤ 10 by decide) fun u => .buf 0 :: ledTables (c.tmpBuf u)).trans ?_
    refine and_congr_right fun _ => ?_
    constructor
    · intro h
      have htables := (List.forall_mem_cons.1 (h 0 (Nat.zero_le _))).2
      exact (ledOps_isSome _).1 ((ledTables_within _ 1 c.length).1 htables)
    · intro h18 uncopied _
      refine List.forall_mem_cons.2 ⟨Nat.one_pos, ?_⟩
      exact (ledTables_within _ 1 c.length).2 ((ledOps_isSome _).2 (tmpBuf_le h18 uncopied))
  | iomDot => exact iomDotTouch_within

end CoinMachine
