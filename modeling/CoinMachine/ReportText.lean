import CoinMachine.ReportSpec
/-!
# What the reports show

The abstract meaning of a report is a text: `T:1250W`, `C:500:2 100:2 50:1 `, `TC:5 `. The branches of
`Report.lean` refine it: from any locals, a branch on a non-negative number ends with exactly the
rendered text in a buffer of exactly that size (`totalMoney_nat`, `eachCoin_nat`, `totalCoin_nat`),
and on a negative number it leaves its buffers (`totalMoney_neg`, `totalCoin_neg`).
-/

namespace CoinMachine

open Numeral

/-! ## Numbers and texts -/

def money (ea : Counters) : Nat := 500 * ea.EA500 + 100 * ea.EA100 + 50 * ea.EA50

def coins (ea : Counters) : Nat := ea.EA500 + ea.EA100 + ea.EA50

theorem moneyInt_eq_wrap (ea : Counters) : moneyInt ea = wrap (money ea) := by
  rw [moneyInt, wrap_add_left, wrap_add_right, Int.add_assoc, wrap_add_left, ← Int.add_assoc, Int.add_right_comm,
    wrap_add_right]
  congr 1
  simp only [money]
  omega

theorem coinInt_eq_wrap (ea : Counters) : coinInt ea = wrap (coins ea) := by
  rw [coinInt, wrap_add_left]; rfl

/-- The 32-bit sum is the mathematical one as long as that fits. -/
theorem moneyInt_of_fits {ea : Counters} (h : money ea < 2 ^ 31) : moneyInt ea = money ea := by
  rw [moneyInt_eq_wrap, wrap_id (by omega) (by omega)]

theorem coinInt_of_fits {ea : Counters} (h : coins ea < 2 ^ 31) : coinInt ea = coins ea := by
  rw [coinInt_eq_wrap, wrap_id (by omega) (by omega)]

/-- `T : d₁ … dₖ W` -/
def moneyText (N : Nat) : List Sym := [.T, .colon] ++ dec N ++ [.W]

/-- `T C : d₁ … dₖ` and a blank -/
def coinText (N : Nat) : List Sym := [.T, .C, .colon] ++ dec N ++ [.blank]

/-- `C : 500 : d… 100 : d… 50 : d…`, each numeral followed by a blank -/
def eachText (ea : Counters) : List Sym :=
  [.C, .colon, .digit 5, .digit 0, .digit 0, .colon] ++ dec ea.EA500 ++ [.blank] ++
  ([.digit 1, .digit 0, .digit 0, .colon] ++ dec ea.EA100 ++ [.blank]) ++
  ([.digit 5, .digit 0, .colon] ++ dec ea.EA50 ++ [.blank])

/-! ## The branches -/

/-- The digit buffer of a number: every counted cell was stored. -/
def digitCells (N : Nat) : Buf := filled ((digitsLE 10 N).map digitByte) 0

theorem singleNumber_nat (N : Nat) (head : List Sym) (tail : Sym) (l : Locals) :
    Yields (singleNumber N (head.length + 1) (head.map glyph) (glyph tail) l) fun b => ∃ a k, b =
      ⟨[digitCells N], filled (render (head ++ dec N ++ [tail])) 0,
        { l with number := 0, len := 0, i := 8, a := a, b := 0, k := k, size := (digitsLE 10 N).length, n := -1,
                 m := 8 * (head ++ dec N ++ [tail]).length }⟩ := by
  unfold singleNumber
  simp only [sizeLoop_nat, Nat.zero_add, Option.bind_eq_bind]
  refine Yields.bind (digitLoop_malloc N _ rfl rfl) ?_
  rintro _ ⟨a, rfl⟩
  dsimp only
  have hsum : (digitsLE 10 N).length + (head.length + 1) = head.length + ((digitsLE 10 N).length + (0 + 1)) := by omega
  rw [malloc_glyphs, hsum]
  refine Yields.bind (drawNumber_spec head N tail [] 0 _ rfl rfl) ?_
  rintro _ ⟨k, rfl⟩
  exact Yields.some ⟨a, k, rfl⟩

theorem totalMoney_nat (ea : Counters) (l : Locals) (N : Nat) (h : moneyInt ea = N) :
    Yields (totalMoney ea l) fun b => ∃ a k, b = ⟨[digitCells N], filled (render (moneyText N)) 0,
      { l with number := 0, len := 0, i := 8, a := a, b := 0, k := k, size := (digitsLE 10 N).length, n := -1,
               m := 8 * (moneyText N).length }⟩ := by
  rw [totalMoney, h]
  exact singleNumber_nat N [.T, .colon] .W l

theorem totalCoin_nat (ea : Counters) (l : Locals) (N : Nat) (h : coinInt ea = N) :
    Yields (totalCoin ea l) fun b => ∃ a k, b = ⟨[digitCells N], filled (render (coinText N)) 0,
      { l with number := 0, len := 0, i := 8, a := a, b := 0, k := k, size := (digitsLE 10 N).length, n := -1,
               m := 8 * (coinText N).length }⟩ := by
  rw [totalCoin, h]
  exact singleNumber_nat N [.T, .C, .colon] .blank l

theorem eachCoinSizes_eq (ea : Counters) (l : Locals) : eachCoinSizes ea l =
    { l with m := 0, n := 0, number := ea.EA50, len := 0, size := (digitsLE 10 ea.EA500).length,
             size2 := (digitsLE 10 ea.EA100).length, size3 := (digitsLE 10 ea.EA50).length } := by
  simp only [eachCoinSizes, sizeLoop_nat, Nat.zero_add]

theorem eachCoin_nat (ea : Counters) (l : Locals) :
    Yields (eachCoin ea l) fun b => ∃ a k, b =
      ⟨[digitCells ea.EA500, digitCells ea.EA100, digitCells ea.EA50], filled (render (eachText ea)) 0,
        { l with number := 0, len := 0, i := 8, a := a, b := 0, k := k, n := -1, m := 8 * (eachText ea).length,
                 size := (digitsLE 10 ea.EA500).length, size2 := (digitsLE 10 ea.EA100).length,
                 size3 := (digitsLE 10 ea.EA50).length }⟩ := by
  unfold eachCoin
  rw [eachCoinSizes_eq]
  simp only [Option.bind_eq_bind]
  -- the sixteen fixed glyphs, in the order in which the three parts use them up
  have hsum : ∀ x y z, x + y + z + 16 = 6 + (x + (4 + (y + (3 + (z + (0 + 1)) + 1)) + 1)) := by omega
  rw [hsum, malloc_glyphs]
  refine Yields.bind (digitLoop_malloc ea.EA500 _ rfl rfl) ?_
  rintro _ ⟨a1, rfl⟩
  refine Yields.bind (drawNumber_spec [.C, .colon, .digit 5, .digit 0, .digit 0, .colon] ea.EA500 .blank [] _ _ rfl rfl) ?_
  rintro _ ⟨k1, rfl⟩
  refine Yields.bind (digitLoop_malloc ea.EA100 _ rfl rfl) ?_
  rintro _ ⟨a2, rfl⟩
  refine Yields.bind (drawNumber_spec [.digit 1, .digit 0, .digit 0, .colon] ea.EA100 .blank _ _ _ rfl rfl) ?_
  rintro _ ⟨k2, rfl⟩
  refine Yields.bind (digitLoop_malloc ea.EA50 _ rfl rfl) ?_
  rintro _ ⟨a3, rfl⟩
  refine Yields.bind (drawNumber_spec [.digit 5, .digit 0, .colon] ea.EA50 .blank _ _ _ rfl rfl) ?_
  rintro _ ⟨k3, rfl⟩
  refine Yields.some ⟨a3, k3, ?_⟩
  simp [eachText, digitCells]

/-! ## Negative sums -/

theorem eq_neg_natCast {x : Int} (h : x < 0) : ∃ k : Nat, 0 < k ∧ x = -(k : Int) :=
  ⟨x.natAbs, by omega, by omega⟩

/-- A sum that has wrapped to a negative `int` drives the branch out of its buffers. -/
theorem singleNumber_neg {x : Int} (h : x < 0) (fixed : Nat) (head : List Row) (tail : Row) (l : Locals) :
    singleNumber x fixed head tail l = none := by
  obtain ⟨k, hk, hx⟩ := eq_neg_natCast h
  unfold singleNumber
  rw [hx]
  simp only [sizeLoop_neg, Nat.zero_add, Option.bind_eq_bind]
  rcases digitLoop_neg hk (l := { l with m := 0, n := 0, size := 1, number := -(k : Int), len := -((k / 10 : Nat) : Int) })
    rfl rfl with hd | ⟨c, l', hd, hc, hn⟩
  · rw [hd]
    rfl
  · rw [hd]
    simp only [Option.bind_some]
    rw [drawNumber_bad hc _ _ _ (by simp [hn])]
    rfl

theorem totalMoney_neg {ea : Counters} (h : moneyInt ea < 0) (l : Locals) : totalMoney ea l = none :=
  singleNumber_neg h ..

theorem totalCoin_neg {ea : Counters} (h : coinInt ea < 0) (l : Locals) : totalCoin ea l = none :=
  singleNumber_neg h ..

/-! ## The reports are exact -/

theorem moneyText_injective : Function.Injective moneyText := fun N N' h =>
  dec_injective (by simpa [moneyText] using h)

theorem coinText_injective : Function.Injective coinText := fun N N' h =>
  dec_injective (by simpa [coinText] using h)

theorem blank_not_mem_dec (N : Nat) : Sym.blank ∉ dec N := by
  intro h
  obtain ⟨d, hd⟩ := mem_dec h
  cases hd

/-- Each numeral ends at the blank after it, so the three counters can be read off. -/
theorem eachText_injective : Function.Injective eachText := by
  intro ea ea' h
  simp only [eachText, List.append_assoc, List.cons_append, List.nil_append, List.cons.injEq, true_and] at h
  obtain ⟨h500, h⟩ := BlockCode.append_delim_inj (blank_not_mem_dec _) (blank_not_mem_dec _) h
  simp only [List.cons.injEq, true_and] at h
  obtain ⟨h100, h⟩ := BlockCode.append_delim_inj (blank_not_mem_dec _) (blank_not_mem_dec _) h
  simp only [List.cons.injEq, true_and] at h
  obtain ⟨h50, -⟩ := BlockCode.append_delim_inj (blank_not_mem_dec _) (blank_not_mem_dec _) h
  cases ea
  cases ea'
  simp only [Counters.mk.injEq]
  exact ⟨dec_injective h500, dec_injective h100, dec_injective h50⟩

/-- The strip of a text, every byte set. -/
def strip (t : List Sym) : Buf := filled (render t) 0

theorem strip_injective : Function.Injective strip := by
  intro t u h
  simp only [strip, filled_zero] at h
  exact render_injective (List.map_injective_iff.2 (Option.some_injective _) h)

@[simp] theorem length_strip (t : List Sym) : (strip t).length = 8 * t.length := by simp [strip]

@[simp] theorem length_digitCells (N : Nat) : (digitCells N).length = (dec N).length := by simp [digitCells]

/-- The two reports of a single number: key 2 and key 4. -/
inductive SingleReport where
  | totalMoney
  | totalCoin
deriving DecidableEq

namespace SingleReport

def number : SingleReport → Counters → Nat
  | totalMoney => money
  | totalCoin => coins

def build : SingleReport → Counters → Locals → Option Built
  | totalMoney => CoinMachine.totalMoney
  | totalCoin => CoinMachine.totalCoin

def text : SingleReport → Nat → List Sym
  | totalMoney => moneyText
  | totalCoin => coinText

/-- The number of fixed glyphs in the source's `malloc` (`:210`, `:509`). -/
def fixed : SingleReport → Nat
  | totalMoney => 3
  | totalCoin => 4

theorem text_inj {r r' : SingleReport} {N N' : Nat} (h : r.text N = r'.text N') : r = r' ∧ N = N' := by
  cases r <;> cases r'
  · exact ⟨rfl, moneyText_injective h⟩
  · simp [text, moneyText, coinText] at h
  · simp [text, moneyText, coinText] at h
  · exact ⟨rfl, coinText_injective h⟩

theorem length_text (r : SingleReport) (N : Nat) : (r.text N).length = (dec N).length + r.fixed := by
  cases r <;> simp [text, fixed, moneyText, coinText]

/-- What the branch of a report leaves when its number fits in `int`. -/
theorem build_spec (r : SingleReport) (ea : Counters) (l : Locals) (h : r.number ea < 2 ^ 31) :
    Yields (r.build ea l) fun b => b.digits = [digitCells (r.number ea)] ∧
      b.value = strip (r.text (r.number ea)) ∧ b.l.size = (dec (r.number ea)).length ∧
      b.l.m = 8 * (r.text (r.number ea)).length := by
  cases r with
  | totalMoney =>
    refine (totalMoney_nat ea l (money ea) (moneyInt_of_fits h)).mono ?_
    rintro _ ⟨a, k, rfl⟩
    exact ⟨rfl, rfl, (length_dec _).symm, rfl⟩
  | totalCoin =>
    refine (totalCoin_nat ea l (coins ea) (coinInt_of_fits h)).mono ?_
    rintro _ ⟨a, k, rfl⟩
    exact ⟨rfl, rfl, (length_dec _).symm, rfl⟩

end SingleReport

/-- **Key 2 and key 4.** From any locals, a report whose number `N` fits in `int` stays inside its two
buffers (the branch has a result), stores exactly the `size` digits it counted, ends with `m` equal to
the allocation `8 * (size + 3)` or `8 * (size + 4)`, and leaves the glyphs of its text, in which `N`
stands as its canonical numeral. Equal strips mean the same report of the same number. -/
theorem single_report_exact (r r' : SingleReport) (ea ea' : Counters) (l l' : Locals)
    (h : r.number ea < 2 ^ 31) (h' : r'.number ea' < 2 ^ 31) :
    ∃ b b', r.build ea l = some b ∧ r'.build ea' l' = some b' ∧
      (b.digits = [digitCells (r.number ea)] ∧ (digitCells (r.number ea)).length = b.l.size) ∧
      (b.value.length = 8 * (b.l.size + r.fixed) ∧ b.l.m = b.value.length) ∧
      (b.value = (render (r.text (r.number ea))).map some ∧ Canonical (r.number ea) (dec (r.number ea))) ∧
      (b.value = b'.value → r = r' ∧ r.number ea = r'.number ea') := by
  obtain ⟨b, hb, hd, hv, hs, hm⟩ := r.build_spec ea l h
  obtain ⟨b', hb', -, hv', -, -⟩ := r'.build_spec ea' l' h'
  refine ⟨b, b', hb, hb', ⟨hd, by rw [length_digitCells, hs]⟩, ⟨?_, ?_⟩, ⟨?_, dec_canonical _⟩, ?_⟩
  · rw [hv, length_strip, hs, r.length_text]
  · rw [hm, hv, length_strip]
  · rw [hv, strip, filled_zero]
  · intro heq
    rw [hv, hv'] at heq
    exact SingleReport.text_inj (strip_injective heq)

/-- Two 500-, two 100- and one 50-coin: `T:1250W` on 56 columns. -/
theorem single_report_exact_1250 :
    ∃ b, totalMoney ⟨2, 2, 1⟩ ⟨7, 7, 3, 1, 1, 9, 2, 2, 2, -1, 80, 0⟩ = some b ∧ b.l.m = 56 ∧
      b.value = (render [.T, .colon, .digit 1, .digit 2, .digit 5, .digit 0, .W]).map some := by
  obtain ⟨b, -, hb, -, -, ⟨-, hm⟩, ⟨hv, -⟩, -⟩ := single_report_exact .totalMoney .totalMoney ⟨2, 2, 1⟩ ⟨2, 2, 1⟩
    ⟨7, 7, 3, 1, 1, 9, 2, 2, 2, -1, 80, 0⟩ ⟨7, 7, 3, 1, 1, 9, 2, 2, 2, -1, 80, 0⟩ (by decide) (by decide)
  have ht : SingleReport.totalMoney.text (SingleReport.totalMoney.number ⟨2, 2, 1⟩) =
      [.T, .colon, .digit 1, .digit 2, .digit 5, .digit 0, .W] := by
    simp [SingleReport.text, SingleReport.number, money, moneyText, dec, numeral, digitsLE, digitSym]
  rw [ht] at hv
  exact ⟨b, hb, by rw [hm, hv]; rfl, hv⟩

theorem length_eachText (ea : Counters) :
    (eachText ea).length = (dec ea.EA500).length + (dec ea.EA100).length + (dec ea.EA50).length + 16 := by
  simp only [eachText, List.length_append, List.length_cons, List.length_nil]
  omega

theorem eachCoin_spec (ea : Counters) (l : Locals) :
    Yields (eachCoin ea l) fun b => b.digits = [digitCells ea.EA500, digitCells ea.EA100, digitCells ea.EA50] ∧
      b.value = strip (eachText ea) ∧ b.l.size = (dec ea.EA500).length ∧ b.l.size2 = (dec ea.EA100).length ∧
      b.l.size3 = (dec ea.EA50).length ∧ b.l.m = 8 * (eachText ea).length := by
  refine (eachCoin_nat ea l).mono ?_
  rintro _ ⟨a, k, rfl⟩
  exact ⟨rfl, rfl, (length_dec _).symm, (length_dec _).symm, (length_dec _).symm, rfl⟩

/-- **Key 3.** From any locals and for all counters, the digit buffers are filled exactly to the sizes
counted earlier, `m` ends equal to the allocation `8 * (size + size2 + size3 + 16)`, the strip is the
rendered text, and equal strips come from equal counters. -/
theorem each_report_exact (ea ea' : Counters) (l l' : Locals) :
    ∃ b b', eachCoin ea l = some b ∧ eachCoin ea' l' = some b' ∧
      (b.digits = [digitCells ea.EA500, digitCells ea.EA100, digitCells ea.EA50] ∧
        (digitCells ea.EA500).length = b.l.size ∧ (digitCells ea.EA100).length = b.l.size2 ∧
        (digitCells ea.EA50).length = b.l.size3) ∧
      (b.value.length = 8 * (b.l.size + b.l.size2 + b.l.size3 + 16) ∧ b.l.m = b.value.length) ∧
      (b.value = (render (eachText ea)).map some ∧ ∀ N, Canonical N (dec N)) ∧
      (b.value = b'.value → ea = ea') := by
  obtain ⟨b, hb, hd, hv, h1, h2, h3, hm⟩ := eachCoin_spec ea l
  obtain ⟨b', hb', -, hv', -⟩ := eachCoin_spec ea' l'
  refine ⟨b, b', hb, hb', ⟨hd, ?_, ?_, ?_⟩, ⟨?_, ?_⟩, ⟨?_, dec_canonical⟩, ?_⟩
  · rw [length_digitCells, h1]
  · rw [length_digitCells, h2]
  · rw [length_digitCells, h3]
  · rw [hv, length_strip, length_eachText, h1, h2, h3]
  · rw [hm, hv, length_strip]
  · rw [hv, strip, filled_zero]
  · intro heq
    rw [hv, hv'] at heq
    exact eachText_injective (strip_injective heq)

/-! ## When the amount is safe -/

/-- Key 2 with counters `ea`: the `int` is the amount, the digits fill the buffer that was allocated for them,
and each of them is a row of `dot_values`. -/
structure MoneySafe (ea : Counters) (l : Locals) : Prop where
  exact : moneyInt ea = money ea
  digits : ∃ b, totalMoney ea l = some b ∧ ∀ arr ∈ b.digits, arr.length = (sizeLoop (moneyInt ea) 0).2 ∧
    ∀ c ∈ arr, ∃ d : Byte, c = some d ∧ d.toNat < 10

/-- 4294968 coins of 500: the sum is `-2147483296`, for which one digit is counted and ten are stored. -/
theorem amount_overflows : ¬ ∀ (ea : Counters) (l : Locals), ea.EA500 < 2 ^ 31 → ea.EA100 < 2 ^ 31 → ea.EA50 < 2 ^ 31 →
    MoneySafe ea l := by
  intro hclaim
  obtain ⟨-, b, hb, -⟩ := hclaim ⟨4294968, 0, 0⟩ ⟨0, 0, 0, 0, 0, 0, 0, 0, 0, 0, 0, 0⟩ (by decide) (by decide) (by decide)
  rw [totalMoney_neg (by decide)] at hb
  cases hb

theorem mem_digitCells {N : Nat} {c : Option Byte} (h : c ∈ digitCells N) : ∃ d : Byte, c = some d ∧ d.toNat < 10 := by
  rw [digitCells, filled_zero, List.map_map, List.mem_map] at h
  obtain ⟨d, hd, rfl⟩ := h
  refine ⟨digitByte d, rfl, ?_⟩
  have hlt : d < 10 := digitsLE_lt_base (by decide) hd
  simp only [digitByte, BitVec.toNat_ofNat]
  omega

/-- A wrapped sum can still be non-negative, and is then drawn like any other. -/
theorem money_digits_iff (ea : Counters) (l : Locals) :
    (∃ b, totalMoney ea l = some b ∧ ∀ arr ∈ b.digits, arr.length = (sizeLoop (moneyInt ea) 0).2 ∧
      ∀ c ∈ arr, ∃ d : Byte, c = some d ∧ d.toNat < 10) ↔ 0 ≤ moneyInt ea := by
  constructor
  · rintro ⟨b, hb, -⟩
    by_contra hneg
    rw [totalMoney_neg (Int.not_le.1 hneg)] at hb
    cases hb
  · intro h
    obtain ⟨N, hN⟩ := Int.eq_ofNat_of_zero_le h
    obtain ⟨b, hb, a, k, rfl⟩ := totalMoney_nat ea l N hN
    refine ⟨_, hb, ?_⟩
    intro arr harr
    rw [List.mem_singleton.1 harr, hN, sizeLoop_nat]
    exact ⟨by simp [digitCells], fun c hc => mem_digitCells hc⟩

/-- **When the total of key 2 is safe.** For all counters and from any locals: the 32-bit sum is the amount, the
digits fit their buffer and index `dot_values` within 0–9, exactly if the amount is below `2 ^ 31`. -/
theorem money_safe_iff (ea : Counters) (l : Locals) : MoneySafe ea l ↔ money ea < 2 ^ 31 := by
  constructor
  · intro h
    have hexact := h.exact
    rw [moneyInt_eq_wrap] at hexact
    unfold wrap at hexact
    split at hexact <;> omega
  · intro h
    have hexact := moneyInt_of_fits h
    exact ⟨hexact, (money_digits_iff ea l).2 (by rw [hexact]; exact Int.natCast_nonneg _)⟩

end CoinMachine
