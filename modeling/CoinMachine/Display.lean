import CoinMachine.DotDriver
import CoinMachine.ReportText
import CoinMachine.Lib.Stutter
/-!
# The display loop (`receive/test_mac.c:243-251`, `:465-473`, `:544-552`)

A branch scrolls its strip over the matrix: for every `i < m - 7` it writes the address `&value[i]` to
the dot device, again and again until the writes have taken 100000 ticks of processor time. The
application passes the length 1; that the window is eight columns wide is known to the driver only,
which reads eight bytes at the address. `clock()` is the boundary: it enters as the ticks that each
write takes (`Clock`), a positive number that the `int` account can take. A sum beyond `int` has no
meaning in C, and `dwell` has no result there.

| here | there |
| --- | --- |
| `dwell`       | `while (time < 100000) { start = clock(); write(dot_fd, &value[i], 1); … }` |
| `displayLoop` | `for (i = 0; i < m - 7; i++) { …; time = 0; }` |
| `Report`      | the branches of the keys 2, 3 and 4 |
-/

namespace CoinMachine

open Stutter

/-- Processor time before and after the write number `w` since the program started. What a write takes fits
an `int` also when it is added to an account of up to 99999 ticks. -/
structure Clock where
  start : Nat → Int
  stop : Nat → Int
  pos : ∀ w, start w < stop w
  fits : ∀ w, stop w - start w ≤ 2147383648

theorem tick_lt (w : Nat) : (w : Int) < w + 1 := Int.lt_succ w

theorem tick_fits (w : Nat) : ((w : Int) + 1) - w ≤ 2147383648 := by omega

/-- One tick a write. -/
def Clock.ticks : Clock := ⟨fun w => w, fun w => w + 1, tick_lt, tick_fits⟩

/-- A write to the dot device: the index in the strip and what the driver did. -/
structure Shown where
  pos : Nat
  out : DotWrite
deriving DecidableEq

/-- The writes of a dwell loop, the final `time`, and the number of the next write. -/
structure Dwelt where
  shown : List Shown
  time : Int
  w : Nat

def dwell (c : Clock) (value : Buf) (i : Nat) (time : Int) (w : Nat) : Option Dwelt :=
  if time < 100000 then do
    -- the driver reads user memory through the address it is given
    let out ← dotWrite (fun j => load value (i + j)) 1 0
    -- `time += (int)(end - start)`
    if time + (c.stop w - c.start w) ≤ 2147483647 then do
      let d ← dwell c value i (time + (c.stop w - c.start w)) (w + 1)
      some { d with shown := ⟨i, out⟩ :: d.shown }
    else none
  else some ⟨[], time, w⟩
termination_by (100000 - time).toNat
decreasing_by have := c.pos w; omega

/-- The writes of a display loop, the locals it leaves, and the number of the next write. -/
structure Scrolled where
  shown : List Shown
  l : Locals
  w : Nat

/-- From index `l.i` on. -/
def displayLoop (c : Clock) (value : Buf) (l : Locals) (w : Nat) : Option Scrolled :=
  if (l.i : Int) < l.m - 7 then do
    let d ← dwell c value l.i l.time w
    let s ← displayLoop c value { l with i := l.i + 1, time := 0 } d.w
    some { s with shown := d.shown ++ s.shown }
  else some ⟨[], l, w⟩
termination_by l.m - l.i
decreasing_by omega

/-! ## The windows of a strip -/

/-- The columns `i, …, i + 7` of a strip. -/
def window (cols : List Byte) (i : Nat) : Row := Vector.ofFn fun j => cols.getD (i + j) 0

theorem window_get (cols : List Byte) (i : Nat) (j : Fin 8) : (window cols i).get j = cols.getD (i + j) 0 :=
  Vector.getElem_ofFn j.isLt

theorem window_at (t : List Sym) (j : Nat) (hj : j < t.length) : window (render t) (8 * j) = glyph t[j] := by
  rw [← Vector.toList_inj, ← render_at t j hj]
  apply List.ext_getElem
  · simp; omega
  · intro k h1 h2
    have hk : k < 8 := by simpa using h1
    have hlen : 8 * j + k < (render t).length := by rw [length_render]; omega
    simp only [window, Vector.toList_ofFn, List.getElem_ofFn, List.getElem_take, List.getElem_drop]
    rw [List.getD_eq_getElem?_getD, List.getElem?_eq_getElem hlen]
    rfl

/-- What the driver does with the address of column `i`: eight bytes, whatever the length. -/
def shownAt (cols : List Byte) (i : Nat) : Shown :=
  ⟨i, ⟨1, some (window cols i), scanOut (window cols i)⟩⟩

theorem loadRow_eq {gdata : Nat → Option Byte} {v : Row} (h : ∀ j : Fin 8, gdata j = some (v.get j)) :
    loadRow gdata = some v := by
  have h0 : gdata 0 = some (v.get 0) := h 0
  have h1 : gdata 1 = some (v.get 1) := h 1
  have h2 : gdata 2 = some (v.get 2) := h 2
  have h3 : gdata 3 = some (v.get 3) := h 3
  have h4 : gdata 4 = some (v.get 4) := h 4
  have h5 : gdata 5 = some (v.get 5) := h 5
  have h6 : gdata 6 = some (v.get 6) := h 6
  have h7 : gdata 7 = some (v.get 7) := h 7
  have hload : loadRow gdata = some (Vector.ofFn v.get) := by
    simp only [loadRow, h0, h1, h2, h3, h4, h5, h6, h7]
    rfl
  rw [hload, Option.some.injEq]
  refine Vector.ext fun k hk => ?_
  rw [Vector.getElem_ofFn]
  rfl

theorem dotWrite_window {cols : List Byte} {i : Nat} (h : i + 8 ≤ cols.length) :
    dotWrite (fun j => load (filled cols 0) (i + j)) 1 0 = some (shownAt cols i).out := by
  have hload : loadRow (fun j => load (filled cols 0) (i + j)) = some (window cols i) := by
    apply loadRow_eq
    intro j
    have hj := j.isLt
    have hlt : i + j.val < cols.length := by omega
    rw [← Int.natCast_add, load_filled hlt, window_get, List.getD_eq_getElem?_getD, List.getElem?_eq_getElem hlt]
    rfl
  rw [dotWrite, hload, wrap_id (by decide) (by decide), wrap_id (by decide) (by decide)]
  rfl

/-! ## The loops -/

/-- The account of a dwell loop stays an `int`. -/
theorem Clock.sum_fits (c : Clock) {time : Int} (h : time < 100000) (w : Nat) :
    time + (c.stop w - c.start w) ≤ 2147483647 := by
  have := c.fits w
  omega

/-- A dwell loop with less than 100000 ticks on the account writes its window at least once. -/
theorem dwell_spec (c : Clock) {cols : List Byte} {i : Nat} (h : i + 8 ≤ cols.length) (time : Int) (w : Nat) :
    Yields (dwell c (filled cols 0) i time w) fun d =>
      ∃ k, d.shown = List.replicate k (shownAt cols i) ∧ (time < 100000 → 0 < k) := by
  fun_induction dwell c (filled cols 0) i time w with
  | case1 time w hlt ih =>
    rw [Option.bind_eq_bind, dotWrite_window h, Option.bind_some, if_pos (c.sum_fits hlt w)]
    refine Yields.bind ih ?_
    rintro d ⟨k, hk, -⟩
    refine Yields.some ⟨k + 1, ?_, fun _ => Nat.succ_pos k⟩
    rw [List.replicate_succ, ← hk]
    rfl
  | case2 time w hge => exact Yields.some ⟨0, rfl, fun hlt => absurd hlt hge⟩

/-- From index `i` with no ticks on the account, the loop shows the windows from `i` on in order, each at
least once, and leaves the account at zero again. -/
theorem displayLoop_spec (c : Clock) (cols : List Byte) (l : Locals) (w : Nat) (hm : l.m = cols.length)
    (ht : l.time = 0) : Yields (displayLoop c (filled cols 0) l w) fun s =>
      Stutters ((List.range' l.i (l.m - 7 - l.i)).map (shownAt cols)) s.shown ∧
      s.l = { l with i := max l.i (l.m - 7) } := by
  fun_induction displayLoop c (filled cols 0) l w with
  | case1 l w hlt ih =>
    have hi : l.i + 8 ≤ cols.length := by omega
    have hsucc : l.m - 7 - l.i = l.m - 7 - (l.i + 1) + 1 := by omega
    rw [Option.bind_eq_bind]
    refine Yields.bind (dwell_spec c hi l.time w) ?_
    rintro d ⟨k, hk, hpos⟩
    obtain ⟨k, rfl⟩ : ∃ k', k = k' + 1 := ⟨k - 1, by have := hpos (by omega); omega⟩
    refine Yields.bind (ih d hm rfl) ?_
    rintro s ⟨hs, hl⟩
    refine Yields.some ⟨?_, ?_⟩
    · rw [hsucc, List.range'_succ, List.map_cons]
      simp only [hk]
      exact .cons _ k hs
    · rw [hl]
      simp only
      rw [show max (l.i + 1) (l.m - 7) = max l.i (l.m - 7) by omega, ← ht]
  | case2 l w hge =>
    have h0 : l.m - 7 - l.i = 0 := by omega
    refine Yields.some ⟨?_, ?_⟩
    · rw [h0]; exact .nil
    · rw [show max l.i (l.m - 7) = l.i by omega]

/-! ## The branches -/

/-- The reports of the report loop. -/
inductive Report where
  | totalMoney
  | eachCoin
  | totalCoin
deriving DecidableEq

namespace Report

/-- The branch up to its display loop. -/
def build : Report → Counters → Locals → Option Built
  | totalMoney => CoinMachine.totalMoney
  | eachCoin => CoinMachine.eachCoin
  | totalCoin => CoinMachine.totalCoin

def text : Report → Counters → List Sym
  | totalMoney, ea => moneyText (moneyInt ea).toNat
  | eachCoin, ea => eachText ea
  | totalCoin, ea => coinText (coinInt ea).toNat

theorem text_ne_nil (r : Report) (ea : Counters) : r.text ea ≠ [] := by
  cases r with
  | totalMoney => exact List.append_ne_nil_of_right_ne_nil _ (List.cons_ne_nil _ _)
  | eachCoin => exact List.append_ne_nil_of_right_ne_nil _ (List.append_ne_nil_of_right_ne_nil _ (List.cons_ne_nil _ _))
  | totalCoin => exact List.append_ne_nil_of_right_ne_nil _ (List.cons_ne_nil _ _)

/-- What a report leaves in its strip and the locals it hands to its display loop. -/
def Builds (r : Report) (ea : Counters) (l : Locals) (b : Built) : Prop :=
  b.value = strip (r.text ea) ∧ b.l.m = 8 * (r.text ea).length ∧ b.l.time = l.time

theorem totalMoney_builds {ea : Counters} (h : 0 ≤ moneyInt ea) (l : Locals) :
    Yields (totalMoney.build ea l) (totalMoney.Builds ea l) := by
  have hN : moneyInt ea = ((moneyInt ea).toNat : Nat) := (Int.toNat_of_nonneg h).symm
  refine (totalMoney_nat ea l (moneyInt ea).toNat hN).mono ?_
  rintro _ ⟨a, k, rfl⟩
  simp only [Builds, text, strip, and_self]

theorem eachCoin_builds (ea : Counters) (l : Locals) : Yields (eachCoin.build ea l) (eachCoin.Builds ea l) := by
  refine (eachCoin_nat ea l).mono ?_
  rintro _ ⟨a, k, rfl⟩
  simp only [Builds, text, strip, and_self]

theorem totalCoin_builds {ea : Counters} (h : 0 ≤ coinInt ea) (l : Locals) :
    Yields (totalCoin.build ea l) (totalCoin.Builds ea l) := by
  have hN : coinInt ea = ((coinInt ea).toNat : Nat) := (Int.toNat_of_nonneg h).symm
  refine (totalCoin_nat ea l (coinInt ea).toNat hN).mono ?_
  rintro _ ⟨a, k, rfl⟩
  simp only [Builds, text, strip, and_self]

/-- What a branch builds depends on the counters only: nothing from any locals (a sum has wrapped to a
negative number), or the strip of its text from any locals. -/
theorem build_cases (r : Report) (ea : Counters) :
    (∀ l, r.build ea l = none) ∨ ∀ l, Yields (r.build ea l) (r.Builds ea l) := by
  cases r with
  | totalMoney =>
    by_cases h : 0 ≤ moneyInt ea
    · exact Or.inr (totalMoney_builds h)
    · exact Or.inl (totalMoney_neg (Int.not_le.1 h))
  | eachCoin => exact Or.inr (eachCoin_builds ea)
  | totalCoin =>
    by_cases h : 0 ≤ coinInt ea
    · exact Or.inr (totalCoin_builds h)
    · exact Or.inl (totalCoin_neg (Int.not_le.1 h))

theorem build_eq_some {r : Report} {ea : Counters} {l : Locals} {b : Built} (hb : r.build ea l = some b) :
    r.Builds ea l b := by
  rcases r.build_cases ea with h | h
  · rw [h l] at hb
    cases hb
  · exact (h l).of_eq_some hb

end Report

/-- The windows of a whole strip, in order. -/
def windows (t : List Sym) : List Shown := (List.range (8 * t.length - 7)).map (shownAt (render t))

theorem isChain_range_ne (n : Nat) : (List.range n).IsChain (· ≠ ·) :=
  (List.isChain_range (· ≠ ·) n).2 fun _ _ => by omega

theorem windows_isChain (t : List Sym) : (windows t).IsChain (· ≠ ·) :=
  List.isChain_map_of_isChain _ (fun _ _ hab h => hab (congrArg Shown.pos h)) (isChain_range_ne _)

/-- A display loop over a strip, from its first index. -/
theorem displayLoop_strip (c : Clock) (t : List Sym) (l : Locals) (w : Nat) (hm : l.m = 8 * t.length)
    (ht : l.time = 0) : Yields (displayLoop c (strip t) { l with i := 0 } w) fun s =>
      Stutters (windows t) s.shown ∧ s.l.time = 0 := by
  refine (displayLoop_spec c (render t) { l with i := 0 } w (by simpa using hm) ht).mono ?_
  rintro s ⟨hs, hl⟩
  rw [hl]
  refine ⟨?_, ht⟩
  rw [windows, List.range_eq_range', ← hm]
  exact hs

/-- Merged by position, the windows are `0, …, m - 8`. -/
theorem merge_pos {t : List Sym} {shown : List Shown} (h : Stutters (windows t) shown) :
    merge (shown.map Shown.pos) = List.range (8 * t.length - 7) := by
  have hpos : (windows t).map Shown.pos = List.range (8 * t.length - 7) := by
    rw [windows, List.map_map]
    exact List.map_id _
  rw [← hpos]
  refine (h.map Shown.pos).merge_eq ?_
  rw [hpos]
  exact isChain_range_ne _

/-- `dot_write` treats the length as a number to return. -/
theorem dotWrite_length (gdata : Nat → Option Byte) (length : Nat) :
    dotWrite gdata length 0 = (dotWrite gdata 1 0).map fun d => { d with ret := wrap length } := by
  rw [dotWrite, dotWrite, wrap_id (by decide) (by decide)]
  cases loadRow gdata <;> simp

/-- Writes that are frames of their windows, on a dark matrix. -/
theorem shown_rows {cols : List Byte} {ws : List Shown} (h : ∀ x ∈ ws, x.out.ops = scanOut (window cols x.pos))
    (bus : Bus) (hdark : Dark bus.lines) :
    seen (bus.trace (ws.flatMap fun x => x.out.ops)) = (ws.flatMap fun x => frameRows (window cols x.pos)) ∧
      Dark (bus.execAll (ws.flatMap fun x => x.out.ops)).lines := by
  have hops : (ws.flatMap fun x => x.out.ops) = (ws.map fun x => window cols x.pos).flatMap scanOut := by
    rw [List.flatMap_map]
    exact List.flatMap_congr h
  have hrows : (ws.flatMap fun x => frameRows (window cols x.pos)) =
      (ws.map fun x => window cols x.pos).flatMap frameRows := by
    rw [List.flatMap_map]
  rw [hops, hrows]
  exact frames_spec _ bus hdark

theorem windows_getLast? {t : List Sym} (ht : t ≠ []) :
    (windows t).getLast? = some (shownAt (render t) (8 * (t.length - 1))) := by
  have h0 : 0 < t.length := List.length_pos_iff.2 ht
  rw [windows, List.getLast?_map, List.getLast?_range, if_neg (by omega), Option.map_some]
  congr 2
  omega

/-- **The display loop shows the whole strip** (`:243`, `:465`, `:544`). On the strip of any of the three
reports (`m = 8 * g`, all of it allocated, nothing readable beyond), with `time = 0` and under any clock,
the loop ends; merged, the writes are the windows `0, …, m - 8` in order, so every window is shown at
least once; glyph `j` is complete at `8 * j`, the last write is the last glyph, and `time` is 0 again.
Each write is a frame on the lines: sent to a dark matrix one after the other, their delays show the eight
rows of one window after the other, and the matrix is dark again. -/
theorem scroll_exact (r : Report) (c : Clock) (ea : Counters) (l : Locals) (w : Nat) (b : Built)
    (hb : r.build ea l = some b) (ht : l.time = 0) :
    (∀ gdata length, dotWrite gdata length 0 = (dotWrite gdata 1 0).map fun d => { d with ret := wrap length }) ∧
    0 < (r.text ea).length ∧ b.l.m = 8 * (r.text ea).length ∧ b.value = (render (r.text ea)).map some ∧
    ∃ s, displayLoop c b.value { b.l with i := 0 } w = some s ∧
      merge (s.shown.map Shown.pos) = List.range (b.l.m - 7) ∧
      (∀ x ∈ s.shown, x.pos + 8 ≤ b.l.m ∧ x.out.val = some (window (render (r.text ea)) x.pos)) ∧
      (∀ j (hj : j < (r.text ea).length), ∃ x ∈ s.shown, x.pos = 8 * j ∧ x.out.val = some (glyph (r.text ea)[j])) ∧
      (∃ x, s.shown.getLast? = some x ∧ x.pos = 8 * ((r.text ea).length - 1) ∧
        x.out.val = (r.text ea).getLast?.map glyph) ∧
      (∀ bus : Bus, Dark bus.lines →
        seen (bus.trace (s.shown.flatMap fun x => x.out.ops)) =
          (s.shown.flatMap fun x => frameRows (window (render (r.text ea)) x.pos)) ∧
        Dark (bus.execAll (s.shown.flatMap fun x => x.out.ops)).lines) ∧
      s.l.time = 0 := by
  obtain ⟨hv, hm, htime⟩ := Report.build_eq_some hb
  have hne := r.text_ne_nil ea
  have hpos : 0 < (r.text ea).length := List.length_pos_iff.2 hne
  obtain ⟨s, hs, hst, hend⟩ := displayLoop_strip c (r.text ea) b.l w hm (htime.trans ht)
  have hat : ∀ x ∈ s.shown, ∃ i, i < 8 * (r.text ea).length - 7 ∧ shownAt (render (r.text ea)) i = x := by
    intro x hx
    obtain ⟨i, hi, rfl⟩ := List.mem_map.1 ((hst.mem_iff x).1 hx)
    exact ⟨i, List.mem_range.1 hi, rfl⟩
  refine ⟨dotWrite_length, hpos, hm, by rw [hv, strip, filled_zero], s, by rw [hv]; exact hs, ?_, ?_, ?_, ?_, ?_, hend⟩
  · rw [hm]
    exact merge_pos hst
  · intro x hx
    obtain ⟨i, hi, rfl⟩ := hat x hx
    exact ⟨by simp only [shownAt]; omega, rfl⟩
  · intro j hj
    refine ⟨shownAt (render (r.text ea)) (8 * j), (hst.mem_iff _).2 ?_, rfl, ?_⟩
    · exact List.mem_map_of_mem (List.mem_range.2 (by omega))
    · rw [← window_at _ j hj]
      rfl
  · refine ⟨_, (hst.getLast?_eq).trans (windows_getLast? hne), rfl, ?_⟩
    rw [List.getLast?_eq_getElem?, List.getElem?_eq_getElem (by omega), Option.map_some,
      ← window_at _ _ (by omega)]
    rfl
  · intro bus hdark
    refine shown_rows ?_ bus hdark
    intro x hx
    obtain ⟨i, -, rfl⟩ := hat x hx
    rfl

/-- One coin of each kind under a clock of one tick a write: `TC:3 ` scrolls to its last blank. -/
theorem scroll_exact_3 : ∃ b s, totalCoin ⟨1, 1, 1⟩ ⟨0, 0, 0, 0, 0, 0, 0, 0, 0, 0, 0, 0⟩ = some b ∧
    displayLoop .ticks b.value { b.l with i := 0 } 0 = some s ∧
    merge (s.shown.map Shown.pos) = List.range (b.l.m - 7) ∧
    Dark ((Bus.mk (fun _ => 0) 0).execAll (s.shown.flatMap fun x => x.out.ops)).lines ∧ s.l.time = 0 := by
  have hdark : Dark 0 := by decide
  obtain ⟨b, hb, -⟩ := totalCoin_nat ⟨1, 1, 1⟩ ⟨0, 0, 0, 0, 0, 0, 0, 0, 0, 0, 0, 0⟩ 3 (by decide)
  obtain ⟨-, -, -, -, s, hs, hmerge, -, -, -, hrows, hend⟩ := scroll_exact .totalCoin .ticks
    ⟨1, 1, 1⟩ ⟨0, 0, 0, 0, 0, 0, 0, 0, 0, 0, 0, 0⟩ 0 b hb rfl
  exact ⟨b, s, hb, hs, hmerge, (hrows ⟨fun _ => 0, 0⟩ hdark).2, hend⟩

end CoinMachine
