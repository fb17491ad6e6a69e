import CoinMachine.Report
import CoinMachine.Lib.Yields
/-!
# What the report loops compute

One spec lemma for each loop of `Report.lean`, on non-negative numbers: the counting loop and the
storing loop agree on the number of digits (`sizeLoop_nat`, `digitLoop_nat`), a fill loop appends one
glyph (`putRow_glyph`), the countdown loop appends the stored digits in reading order
(`putDigits_dec`). On a negative `int` the storing loop needs more cells than the counting loop
found, or stores a byte that is no row index (`digitLoop_neg`).
-/

namespace CoinMachine

open Numeral

/-! ## The two division loops -/

theorem sizeLoop_nat (N size : Nat) : sizeLoop N size = (0, size + (digitsLE 10 N).length) := by
  induction N using Nat.strong_induction_on generalizing size with
  | _ N ih =>
    have hdiv : (N : Int).tdiv 10 = (N / 10 : Nat) := (Int.ofNat_tdiv N 10).symm
    rw [sizeLoop, digitsLE_step (by decide) N]
    simp only [hdiv]
    by_cases h : N / 10 = 0
    · simp [h]
    · have hpos : (0 : Int) < (N / 10 : Nat) := by omega
      rw [dif_pos hpos, if_neg h, ih (N / 10) (by omega) (size + 1), List.length_cons]
      simp only [Prod.mk.injEq, true_and]; omega

/-- The byte a digit is stored as. -/
def digitByte (d : Nat) : Byte := BitVec.ofNat 8 d

/-- The storing loop on a buffer whose first unset cell is `n`. -/
theorem digitLoop_nat (N : Nat) : ∀ (bs : List Byte) (r : Nat) (l : Locals), l.number = N → l.n = bs.length →
    ∃ a, digitLoop (filled bs ((digitsLE 10 N).length + r)) l =
      some (filled (bs ++ (digitsLE 10 N).map digitByte) r,
        { l with a := a, b := 0, number := 0, n := l.n + (digitsLE 10 N).length }) := by
  induction N using Nat.strong_induction_on with
  | _ N ih =>
    intro bs r l hN hn
    have hdiv : (N : Int).tdiv 10 = (N / 10 : Nat) := (Int.ofNat_tdiv N 10).symm
    have hmod : (N : Int).tmod 10 = (N % 10 : Nat) := (Int.ofNat_tmod N 10).symm
    rw [digitLoop, hN, hn, hdiv, hmod, toChar_natCast]
    by_cases h : N / 10 = 0
    · have hd : digitsLE 10 N = [N % 10] := by rw [digitsLE_step (by decide) N, if_pos h]
      refine ⟨(N % 10 : Nat), ?_⟩
      rw [hd, List.length_singleton, Nat.add_comm 1 r, store_filled]
      simp [h, digitByte]
    · have hd : digitsLE 10 N = N % 10 :: digitsLE 10 (N / 10) := by
        rw [digitsLE_step (by decide) N, if_neg h]
      have hb : ((N / 10 : Nat) : Int) ≠ 0 := by omega
      obtain ⟨a, ha⟩ := ih (N / 10) (by omega) (bs ++ [digitByte (N % 10)]) r
        { l with a := (N % 10 : Nat), b := (N / 10 : Nat), number := (N / 10 : Nat), n := bs.length + 1 }
        rfl (by simp)
      refine ⟨a, ?_⟩
      rw [hd, List.length_cons, show (digitsLE 10 (N / 10)).length + 1 + r = (digitsLE 10 (N / 10)).length + r + 1 by
        omega, store_filled]
      simp only [Option.bind_eq_bind, Option.bind_some, dif_pos hb]
      rw [show BitVec.ofNat 8 (N % 10) = digitByte (N % 10) from rfl, ha]
      simp only [List.append_assoc, List.map_cons, List.singleton_append, Nat.cast_add, Nat.cast_one]
      rw [Int.add_assoc, Int.add_comm 1]

/-! ## The fill loops -/

theorem fillRow_filled (row : Row) : ∀ (j : Nat) (bs : List Byte) (r : Nat), j ≤ 8 →
    fillRow row (filled bs (j + r)) bs.length (8 - j) =
      some (filled (bs ++ row.toList.drop (8 - j)) r, bs.length + j, 8)
  | 0, bs, r, _ => by
    rw [fillRow, dif_neg (by omega), List.drop_eq_nil_of_le (by simp)]
    simp
  | j + 1, bs, r, hj => by
    have hi : 8 - (j + 1) < 8 := by omega
    have hrow : row.toList.drop (8 - (j + 1)) = row[8 - (j + 1)] :: row.toList.drop (8 - j) := by
      rw [List.drop_eq_getElem_cons (by simp; omega), Vector.getElem_toList, show 8 - (j + 1) + 1 = 8 - j by omega]
    have ih := fillRow_filled row j (bs ++ [row[8 - (j + 1)]]) r (by omega)
    rw [List.length_append, List.length_singleton] at ih
    rw [fillRow, dif_pos hi, show j + 1 + r = j + r + 1 by omega, store_filled]
    simp only [Option.bind_eq_bind, Option.bind_some]
    rw [show 8 - (j + 1) + 1 = 8 - j by omega, ih, hrow]
    simp only [List.append_assoc, List.singleton_append, Option.some.injEq, Prod.mk.injEq, true_and, and_true]
    omega

/-- One whole fill loop at the end of the text `t`, with room for `g + 1` more glyphs. -/
theorem fillRow_glyph (s : Sym) (t : List Sym) (g : Nat) :
    fillRow (glyph s) (filled (render t) (8 * (g + 1))) (8 * t.length) 0 =
      some (filled (render (t ++ [s])) (8 * g), 8 * (t ++ [s]).length, 8) := by
  have h := fillRow_filled (glyph s) 8 (render t) (8 * g) (by omega)
  rw [length_render, show 8 + 8 * g = 8 * (g + 1) by omega, Nat.sub_self, List.drop_zero] at h
  rw [h]
  simp [Nat.mul_add]

theorem putRow_glyph (s : Sym) (t : List Sym) (g : Nat) (l : Locals) (hm : l.m = 8 * t.length) :
    putRow (glyph s) (filled (render t) (8 * (g + 1))) l =
      some (filled (render (t ++ [s])) (8 * g), { l with m := 8 * (t ++ [s]).length, i := 8 }) := by
  rw [putRow, hm, fillRow_glyph]
  rfl

theorem dotValues_digit {d : Nat} (h : d < 10) : dotValues[d]? = some (glyph (digitSym d)) := by
  rw [Vector.getElem?_eq_getElem h]
  simp only [glyph, digitSym, Nat.mod_eq_of_lt h]
  rfl

/-- The countdown loop over the stored digits `ds` (least significant first); cells beyond `n` are
not read. -/
theorem putDigits_filled (ds : List Nat) (hds : ∀ d ∈ ds, d < 10) : ∀ (rest : Buf) (t : List Sym) (g : Nat) (l : Locals),
    l.m = 8 * t.length → l.n = ds.length - 1 →
    ∃ k i, putDigits (ds.map (some ∘ digitByte) ++ rest) (filled (render t) (8 * (ds.length + g))) l =
      some (filled (render (t ++ ds.reverse.map digitSym)) (8 * g),
        { l with k := k, i := i, m := 8 * (t.length + ds.length), n := -1 }) := by
  induction ds using List.reverseRecOn with
  | nil =>
    intro rest t g l hm hn
    refine ⟨l.k, l.i, ?_⟩
    rw [putDigits, if_neg (by rw [hn]; simp)]
    obtain ⟨_, _, _, _, _, _, _, _, _, _, _, _⟩ := l
    simp only at hm hn
    subst hm hn
    simp
  | append_singleton ds d ih =>
    intro rest t g l hm hn
    have hd : d < 10 := hds d (by simp)
    have hn' : l.n = ds.length := by rw [hn]; simp
    have hload : load ((ds ++ [d]).map (some ∘ digitByte) ++ rest) l.n = some (digitByte d) := by
      rw [load, if_pos (by omega), hn']
      simp
    have hk : (digitByte d).toNat = d := by
      simp [digitByte]; omega
    obtain ⟨k, i, hrec⟩ := ih (fun e he => hds e (by simp [he])) (some (digitByte d) :: rest) (t ++ [digitSym d]) g
      { l with k := d, m := 8 * (t ++ [digitSym d]).length, i := 8, n := l.n - 1 } rfl (by simp [hn'])
    refine ⟨k, i, ?_⟩
    rw [putDigits, if_pos (by omega), hload]
    simp only [Option.bind_eq_bind, Option.bind_some]
    rw [hk, dotValues_digit hd]
    simp only [Option.bind_some]
    rw [hm, show (ds ++ [d]).length + g = ds.length + g + 1 by simp; omega, fillRow_glyph]
    simp only [Option.bind_some]
    simp only [List.map_append, List.map_cons, List.map_nil, List.append_assoc, List.singleton_append,
      Function.comp_apply] at hrec ⊢
    rw [hrec]
    simp only [List.reverse_append, List.reverse_cons, List.reverse_nil, List.nil_append, List.singleton_append,
      List.map_cons, List.length_append, List.length_singleton]
    rw [show t.length + 1 + ds.length = t.length + (ds.length + 1) by omega]

/-- Key step of all three reports: the digits of `N`, stored reversed, are drawn as its numeral. -/
theorem putDigits_dec (N : Nat) (t : List Sym) (g : Nat) (l : Locals) (hm : l.m = 8 * t.length)
    (hn : l.n = (digitsLE 10 N).length - 1) :
    Yields (putDigits (filled ((digitsLE 10 N).map digitByte) 0)
        (filled (render t) (8 * ((digitsLE 10 N).length + g))) l) fun r =>
      ∃ k i, r = (filled (render (t ++ dec N)) (8 * g),
        { l with k := k, i := i, m := 8 * (t ++ dec N).length, n := -1 }) := by
  obtain ⟨k, i, h⟩ := putDigits_filled (digitsLE 10 N) (fun d => digitsLE_lt_base (by decide)) [] t g l hm hn
  refine ⟨_, ?_, k, i, rfl⟩
  simpa [dec, numeral] using h

theorem putRows_glyphs (u : List Sym) : ∀ (t : List Sym) (g : Nat) (l : Locals), l.m = 8 * t.length →
    Yields (putRows (u.map glyph) (filled (render t) (8 * (u.length + g))) l) fun r =>
      ∃ i, r = (filled (render (t ++ u)) (8 * g), { l with m := 8 * (t ++ u).length, i := i }) := by
  induction u with
  | nil =>
    intro t g l hm
    refine Yields.some ⟨l.i, ?_⟩
    simp [← hm]
  | cons s u ih =>
    intro t g l hm
    rw [List.map_cons, putRows, List.length_cons, show u.length + 1 + g = u.length + g + 1 by omega,
      putRow_glyph s t _ l hm]
    simp only [Option.bind_eq_bind, Option.bind_some]
    refine (ih (t ++ [s]) g _ rfl).mono ?_
    rintro _ ⟨i, rfl⟩
    exact ⟨i, by simp⟩

/-- A part of a strip: fixed glyphs, a numeral, a last glyph. -/
theorem drawNumber_spec (head : List Sym) (N : Nat) (tail : Sym) (t : List Sym) (g : Nat) (l : Locals)
    (hm : l.m = 8 * t.length) (hn : l.n = (digitsLE 10 N).length - 1) :
    Yields (drawNumber (head.map glyph) (filled ((digitsLE 10 N).map digitByte) 0) (glyph tail)
        (filled (render t) (8 * (head.length + ((digitsLE 10 N).length + (g + 1))))) l) fun r =>
      ∃ k, r = (filled (render (t ++ (head ++ dec N ++ [tail]))) (8 * g),
        { l with k := k, i := 8, m := 8 * (t ++ (head ++ dec N ++ [tail])).length, n := -1 }) := by
  unfold drawNumber
  simp only [Option.bind_eq_bind]
  refine Yields.bind (putRows_glyphs head t _ l hm) ?_
  rintro _ ⟨i, rfl⟩
  refine Yields.bind (putDigits_dec N (t ++ head) (g + 1) _ rfl hn) ?_
  rintro _ ⟨k, i', rfl⟩
  dsimp only
  rw [putRow_glyph tail _ g _ rfl]
  exact Yields.some ⟨k, by simp⟩

/-- The storing loop on a fresh buffer of the counted size. -/
theorem digitLoop_malloc (N : Nat) (l : Locals) (hN : l.number = N) (hn : l.n = 0) :
    Yields (digitLoop (malloc (digitsLE 10 N).length) l) fun r =>
      ∃ a, r = (filled ((digitsLE 10 N).map digitByte) 0,
        { l with a := a, b := 0, number := 0, n := (digitsLE 10 N).length }) := by
  obtain ⟨a, h⟩ := digitLoop_nat N [] 0 l hN (by simp [hn])
  refine ⟨_, ?_, a, rfl⟩
  simpa [malloc_eq_filled, hn] using h

theorem malloc_glyphs (g : Nat) : malloc (8 * g) = filled (render []) (8 * g) := rfl

/-! ## Negative numbers -/

theorem sizeLoop_neg (k size : Nat) : sizeLoop (-(k : Int)) size = (-((k / 10 : Nat) : Int), size + 1) := by
  have hdiv : (-(k : Int)).tdiv 10 = -((k / 10 : Nat) : Int) := by rw [Int.neg_tdiv]; rfl
  rw [sizeLoop, hdiv, dif_neg (by omega)]

theorem toNat_toChar_neg {d : Nat} (h0 : 0 < d) (h : d < 10) : 10 ≤ (toChar (-(d : Int))).toNat := by
  rw [toChar, BitVec.toNat_ofInt]; omega

/-- The counting loop finds one digit for a negative number. Storing it takes a second cell, or the
stored `char` is no row index. -/
theorem digitLoop_neg {k : Nat} (hk : 0 < k) {l : Locals} (h : l.number = -(k : Int)) (hn : l.n = 0) :
    digitLoop (malloc 1) l = none ∨
      ∃ c l', digitLoop (malloc 1) l = some ([some c], l') ∧ 10 ≤ c.toNat ∧ l'.n = 1 := by
  have hdiv : (-(k : Int)).tdiv 10 = -((k / 10 : Nat) : Int) := by rw [Int.neg_tdiv]; rfl
  have hmod : (-(k : Int)).tmod 10 = -((k % 10 : Nat) : Int) := by rw [Int.neg_tmod]; rfl
  have hstore : ∀ v, store (malloc 1) 0 v = some [some v] := fun v => rfl
  rw [digitLoop, hn, h, hdiv, hmod, hstore]
  simp only [Option.bind_eq_bind, Option.bind_some]
  by_cases hb : k / 10 = 0
  · right
    rw [dif_neg (by omega)]
    exact ⟨_, _, rfl, toNat_toChar_neg (by omega) (by omega), rfl⟩
  · left
    rw [dif_pos (by omega), digitLoop, store_of_le (by simp)]
    rfl

theorem putRows_n {rows : List Row} : ∀ {value value' : Buf} {l l' : Locals},
    putRows rows value l = some (value', l') → l'.n = l.n := by
  induction rows with
  | nil =>
    intro value value' l l' h
    simp only [putRows, Option.some.injEq, Prod.mk.injEq] at h
    rw [h.2]
  | cons row rows ih =>
    intro value value' l l' h
    simp only [putRows, putRow, Option.bind_eq_bind, Option.bind_eq_some_iff, Option.some.injEq] at h
    obtain ⟨_, ⟨⟨_, m, i⟩, _, rfl⟩, h⟩ := h
    have hn := ih h
    exact hn

theorem putDigits_bad {c : Byte} (hc : 10 ≤ c.toNat) (value : Buf) {l : Locals} (hn : l.n = 0) :
    putDigits [some c] value l = none := by
  rw [putDigits, if_pos (by omega), hn]
  simp [load, Vector.getElem?_eq_none hc]

/-- Whatever the fixed glyphs do, the countdown loop stops at the bad byte. -/
theorem drawNumber_bad {c : Byte} (hc : 10 ≤ c.toNat) (head : List Row) (tail : Row) (value : Buf) {l : Locals}
    (hn : l.n = 0) : drawNumber head [some c] tail value l = none := by
  unfold drawNumber
  cases h : putRows head value l with
  | none => rfl
  | some r =>
    simp only [Option.bind_eq_bind, Option.bind_some]
    rw [putDigits_bad hc _ ((putRows_n h).trans hn)]
    rfl

end CoinMachine
