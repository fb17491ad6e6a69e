import Mathlib.Combinatorics.Enumerative.DoubleCounting
import Mathlib.Order.Bounds.Basic
/-!
# Greedy counting with a dead time

A counter scans a word from left to right, counts a mark and then ignores the next `d - 1` letters.
`Scan` is that scanner as a state machine that also remembers the positions it picked. The theory:

* a set of positions whose windows of length `d` cover every mark is at least as large as any set of
  marks pairwise `d` apart (`card_le_of_covers`, the exchange argument);
* the picked positions are marks, pairwise `d` apart, and cover every mark (`Scan.Inv`, one step lemma
  and one run lemma), hence the count is the greatest possible (`scan_isGreatest`).
-/

namespace Separated

variable {α : Type*}

/-- The positions of `P` are pairwise at least `d` apart. -/
def Apart (d : ℕ) (P : Finset ℕ) : Prop := ∀ i ∈ P, ∀ j ∈ P, i < j → i + d ≤ j

/-- Every position of `P` carries the mark in the word `s`. -/
def Marked (mark : α) (s : List α) (P : Finset ℕ) : Prop := ∀ i ∈ P, s[i]? = some mark

/-- Every mark of `s` lies in a window of length `d` that starts at a position of `T`. -/
def Covers (mark : α) (d : ℕ) (s : List α) (T : Finset ℕ) : Prop :=
  ∀ i, s[i]? = some mark → ∃ t ∈ T, t ≤ i ∧ i < t + d

/-- Exchange: each window of a cover holds at most one of a set of marks that are `d` apart. -/
theorem card_le_of_covers {mark : α} {d : ℕ} {s : List α} {P T : Finset ℕ} (hm : Marked mark s P)
    (ha : Apart d P) (hc : Covers mark d s T) : P.card ≤ T.card := by
  refine Finset.card_le_card_of_forall_subsingleton (fun p t => t ≤ p ∧ p < t + d) ?_ ?_
  · intro p hp
    exact hc p (hm p hp)
  · rintro t _ p ⟨hp, h1, h2⟩ q ⟨hq, h3, h4⟩
    rcases Nat.lt_trichotomy p q with h | h | h
    · have := ha p hp q hq h; omega
    · exact h
    · have := ha q hq p hp h; omega

/-- The sizes that sets of marks pairwise `d` apart can have. -/
def sizes (mark : α) (d : ℕ) (s : List α) : Set ℕ :=
  {n | ∃ P : Finset ℕ, Marked mark s P ∧ Apart d P ∧ P.card = n}

/-- A set of separated marks that covers all marks has the greatest size. -/
theorem isGreatest_of_covers {mark : α} {d : ℕ} {s : List α} {T : Finset ℕ} (hm : Marked mark s T)
    (ha : Apart d T) (hc : Covers mark d s T) : IsGreatest (sizes mark d s) T.card := by
  refine ⟨⟨T, hm, ha, rfl⟩, ?_⟩
  rintro n ⟨P, hmP, haP, rfl⟩
  exact card_le_of_covers hmP haP hc

theorem marked_snoc {mark : α} {s : List α} {P : Finset ℕ} (h : Marked mark s P) (x : α) :
    Marked mark (s ++ [x]) P := by
  intro i hi
  have := h i hi
  rw [List.getElem?_append_left (List.getElem?_eq_some_iff.1 this).1, this]

/-- A mark of `s ++ [x]` is a mark of `s` or the new letter. -/
theorem mark_snoc_cases {mark : α} {s : List α} {x : α} {i : ℕ} (h : (s ++ [x])[i]? = some mark) :
    s[i]? = some mark ∨ i = s.length ∧ x = mark := by
  rcases Nat.lt_trichotomy i s.length with hi | hi | hi
  · rw [List.getElem?_append_left hi] at h; exact Or.inl h
  · subst hi; simp at h; exact Or.inr ⟨rfl, h⟩
  · rw [List.getElem?_eq_none (by simp; omega)] at h; cases h

/-! ## The scanner -/

/-- `pos` letters were read, the next `skip` letters are ignored, `picked` was counted. -/
structure Scan where
  pos : ℕ
  skip : ℕ
  picked : Finset ℕ

def Scan.start : Scan := ⟨0, 0, ∅⟩

variable [DecidableEq α]

/-- One letter: ignored during the dead time, otherwise a mark is counted and starts a dead time. -/
def Scan.next (mark : α) (d : ℕ) (c : Scan) (x : α) : Scan :=
  match c.skip with
  | k + 1 => ⟨c.pos + 1, k, c.picked⟩
  | 0 => if x = mark then ⟨c.pos + 1, d - 1, insert c.pos c.picked⟩ else ⟨c.pos + 1, 0, c.picked⟩

def scan (mark : α) (d : ℕ) (s : List α) : Scan := s.foldl (Scan.next mark d) Scan.start

theorem Scan.next_of_skip {mark : α} {d : ℕ} {c : Scan} {k : ℕ} (h : c.skip = k + 1) (x : α) :
    c.next mark d x = ⟨c.pos + 1, k, c.picked⟩ := by
  rw [Scan.next, h]

theorem Scan.next_mark {mark : α} {d : ℕ} {c : Scan} (h : c.skip = 0) :
    c.next mark d mark = ⟨c.pos + 1, d - 1, insert c.pos c.picked⟩ := by
  rw [Scan.next, h]
  exact if_pos rfl

theorem Scan.next_other {mark x : α} {d : ℕ} {c : Scan} (h : c.skip = 0) (hx : x ≠ mark) :
    c.next mark d x = ⟨c.pos + 1, 0, c.picked⟩ := by
  rw [Scan.next, h]
  exact if_neg hx

theorem scan_snoc (mark : α) (d : ℕ) (s : List α) (x : α) :
    scan mark d (s ++ [x]) = (scan mark d s).next mark d x := by
  simp [scan, List.foldl_append]

/-- What the scanner knows after reading `s`. The dead time ends exactly `d` after the last pick. -/
structure Scan.Inv (mark : α) (d : ℕ) (s : List α) (c : Scan) : Prop where
  pos_eq : c.pos = s.length
  marked : Marked mark s c.picked
  apart : Apart d c.picked
  covers : Covers mark d s c.picked
  ahead : ∀ t ∈ c.picked, t < c.pos ∧ t + d ≤ c.pos + c.skip
  dead : 0 < c.skip → ∃ t ∈ c.picked, t + d = c.pos + c.skip

omit [DecidableEq α] in
/-- The position that is read next was not picked before. -/
theorem Scan.Inv.card_insert {mark : α} {d : ℕ} {s : List α} {c : Scan} (h : c.Inv mark d s) :
    (insert c.pos c.picked).card = c.picked.card + 1 := by
  refine Finset.card_insert_of_notMem fun hmem => ?_
  exact absurd (h.ahead _ hmem).1 (Nat.lt_irrefl _)

/-- The step lemma: reading one more letter keeps the invariant. -/
theorem Scan.Inv.next {mark : α} {d : ℕ} (hd : 0 < d) {s : List α} {c : Scan} (h : c.Inv mark d s) (x : α) :
    (c.next mark d x).Inv mark d (s ++ [x]) := by
  obtain ⟨hpos, hm, ha, hc, hahead, hdead⟩ := h
  unfold Scan.next
  split
  · -- inside the dead time: the window of the last pick covers the ignored letter
    rename_i k hk
    rw [hk] at hahead hdead
    obtain ⟨g, hg, hge⟩ := hdead (Nat.succ_pos k)
    refine ⟨by simp [hpos], marked_snoc hm x, ha, ?_, ?_, ?_⟩
    · intro i hi
      rcases mark_snoc_cases hi with hi | ⟨rfl, -⟩
      · exact hc i hi
      · have := (hahead g hg).1
        exact ⟨g, hg, by omega, by omega⟩
    · intro t ht
      have := hahead t ht
      simp only; omega
    · intro _
      exact ⟨g, hg, by simp only; omega⟩
  · rename_i hk
    rw [hk] at hahead
    split
    · -- a counted mark: every earlier window has ended
      rename_i hx
      refine ⟨by simp [hpos], ?_, ?_, ?_, ?_, ?_⟩
      · intro i hi
        rcases Finset.mem_insert.1 hi with rfl | hi
        · simp [hpos, hx]
        · exact marked_snoc hm x i hi
      · intro i hi j hj hij
        rcases Finset.mem_insert.1 hi with rfl | hi <;> rcases Finset.mem_insert.1 hj with rfl | hj
        · omega
        · have := (hahead j hj).1; omega
        · have := (hahead i hi).2; omega
        · exact ha i hi j hj hij
      · intro i hi
        rcases mark_snoc_cases hi with hi | ⟨rfl, -⟩
        · obtain ⟨t, ht, h1, h2⟩ := hc i hi
          exact ⟨t, Finset.mem_insert_of_mem ht, h1, h2⟩
        · exact ⟨c.pos, Finset.mem_insert_self _ _, by omega, by omega⟩
      · intro t ht
        simp only
        rcases Finset.mem_insert.1 ht with rfl | ht
        · omega
        · have := hahead t ht; omega
      · intro _
        exact ⟨c.pos, Finset.mem_insert_self _ _, by simp only; omega⟩
    · rename_i hx
      refine ⟨by simp [hpos], marked_snoc hm x, ha, ?_, ?_, by simp⟩
      · intro i hi
        rcases mark_snoc_cases hi with hi | ⟨-, hxm⟩
        · exact hc i hi
        · exact absurd hxm hx
      · intro t ht
        have := hahead t ht
        simp only; omega

/-- The run lemma. -/
theorem scan_inv (mark : α) {d : ℕ} (hd : 0 < d) (s : List α) : (scan mark d s).Inv mark d s := by
  induction s using List.reverseRecOn with
  | nil => exact ⟨rfl, by simp [scan, Scan.start, Marked], by simp [scan, Scan.start, Apart],
      by simp [Covers], by simp [scan, Scan.start], by simp [scan, Scan.start]⟩
  | append_singleton s x ih => rw [scan_snoc]; exact ih.next hd x

/-- The greedy count is the greatest size of a set of marks pairwise `d` apart. -/
theorem scan_isGreatest (mark : α) {d : ℕ} (hd : 0 < d) (s : List α) :
    IsGreatest (sizes mark d s) (scan mark d s).picked.card :=
  have h := scan_inv mark hd s
  isGreatest_of_covers h.marked h.apart h.covers

end Separated
