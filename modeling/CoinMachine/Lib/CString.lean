import Mathlib.Data.List.Basic
/-!
# Strings in fixed buffers

A string is what stands in a buffer before the first terminator. `overwrite buf s` is the buffer after `s` has
been copied to its start; what stood behind it stays. A string is read back from a buffer exactly if it holds
no terminator of its own and one has been put behind it (`cstr_append`, `cstr_terminate`).
-/

namespace CString

variable {α : Type*} [DecidableEq α] {nul : α}

/-- The string in the buffer; there is none in a buffer without terminator. -/
def cstr (nul : α) (buf : List α) : Option (List α) := if nul ∈ buf then some (buf.takeWhile (· ≠ nul)) else none

def overwrite (buf s : List α) : List α := s ++ buf.drop s.length

omit [DecidableEq α] in
theorem length_overwrite {buf s : List α} (h : s.length ≤ buf.length) : (overwrite buf s).length = buf.length := by
  simp only [overwrite, List.length_append, List.length_drop]
  omega

omit [DecidableEq α] in
@[simp] theorem take_overwrite (buf s : List α) : (overwrite buf s).take s.length = s := List.take_left

theorem isSome_cstr {buf : List α} (h : nul ∈ buf) : ∃ s, cstr nul buf = some s := ⟨_, if_pos h⟩

/-- A string holds no terminator. -/
theorem not_mem_of_cstr {buf s : List α} (h : cstr nul buf = some s) : nul ∉ s := by
  unfold cstr at h
  split at h
  · cases h
    intro hmem
    simpa using List.all_eq_true.1 List.all_takeWhile nul hmem
  · cases h

/-- The string is empty where the buffer starts with the terminator. -/
theorem cstr_cons_eq_nil {a : α} {buf : List α} : cstr nul (a :: buf) = some [] ↔ a = nul := by
  constructor
  · intro h
    by_contra ha
    unfold cstr at h
    split at h
    · rw [List.takeWhile_cons_of_pos (by simpa using ha)] at h
      cases h
    · cases h
  · rintro rfl
    rw [cstr, if_pos List.mem_cons_self, List.takeWhile_cons_of_neg (by simp)]

theorem cstr_append {s : List α} (h : nul ∉ s) (rest : List α) : cstr nul (s ++ nul :: rest) = some s := by
  have htake : (s ++ nul :: rest).takeWhile (· ≠ nul) = s := by
    rw [List.takeWhile_append_of_pos]
    · simp
    · intro a ha
      simpa using ne_of_mem_of_not_mem ha h
  rw [cstr, if_pos (by simp), htake]

/-- Copied to the start of a longer buffer and terminated, a string is read back as it was. -/
theorem cstr_terminate {buf s : List α} (h : nul ∉ s) (hlen : s.length < buf.length) :
    cstr nul ((overwrite buf s).set s.length nul) = some s := by
  obtain ⟨x, rest, hrest⟩ : ∃ x rest, buf.drop s.length = x :: rest := by
    cases hd : buf.drop s.length with
    | nil =>
      rw [List.drop_eq_nil_iff] at hd
      omega
    | cons x rest => exact ⟨x, rest, rfl⟩
  have hset : (overwrite buf s).set s.length nul = s ++ nul :: rest := by
    simp [overwrite, hrest]
  rw [hset, cstr_append h]

end CString
