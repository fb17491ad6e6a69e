import Mathlib.Tactic.DeriveFintype
import CoinMachine.CMem
import CoinMachine.Lib.BlockCode
import CoinMachine.Lib.Numeral
/-!
# The glyphs of the dot matrix (`receive/test_mac.c:45-63`) and the texts of the reports

`dotValues` and `dotChar` are the two tables of `main`. Over them stands the abstract view of a strip:
a text over the symbols `Sym`, drawn as one 8-column glyph for each symbol (`render`). A rendered
strip determines its text (`render_injective`) because the fifteen glyphs differ.
-/

namespace CoinMachine

/-- Eight columns, first column first. -/
abbrev Row := Vector Byte 8

/-- `dot_values` (`test_mac.c:45`). -/
def dotValues : Vector Row 10 := #v[
  #v[0xFF, 0xFF, 0x00, 0x7E, 0x7E, 0x00, 0xFF, 0xFF],
  #v[0xFF, 0xFF, 0xFF, 0xBE, 0x00, 0xFE, 0xFF, 0xFF],
  #v[0xFF, 0xFF, 0x60, 0x66, 0x66, 0x06, 0xFF, 0xFF],
  #v[0xFF, 0xFF, 0x66, 0x66, 0x66, 0x00, 0xFF, 0xFF],
  #v[0xFF, 0xFF, 0x07, 0xF7, 0x00, 0xF7, 0xFF, 0xFF],
  #v[0xFF, 0xFF, 0x06, 0x66, 0x66, 0x60, 0xFF, 0xFF],
  #v[0xFF, 0xFF, 0x00, 0x76, 0x76, 0x70, 0xFF, 0xFF],
  #v[0xFF, 0xFF, 0x10, 0xE0, 0xE0, 0x00, 0xFF, 0xFF],
  #v[0xFF, 0xFF, 0x00, 0x6E, 0x6E, 0x00, 0xFF, 0xFF],
  #v[0xFF, 0xFF, 0x0E, 0x6E, 0x6E, 0x00, 0xFF, 0xFF]]

/-- `dot_char` (`test_mac.c:57`): T, C, colon, W, blank. -/
def dotChar : Vector Row 5 := #v[
  #v[0xFF, 0xFF, 0x7F, 0x7F, 0x00, 0x7F, 0x7F, 0xFF],
  #v[0xFF, 0xFF, 0x00, 0x7E, 0x7E, 0x7E, 0xFF, 0xFF],
  #v[0xFF, 0xFF, 0xFF, 0xFF, 0x99, 0xFF, 0xFF, 0xFF],
  #v[0xFF, 0x00, 0xFE, 0x00, 0xFE, 0x00, 0xFF, 0xFF],
  #v[0xFF, 0xFF, 0xFF, 0xFF, 0xFF, 0xFF, 0xFF, 0xFF]]

/-! ## Symbols and texts -/

inductive Sym where
  | T | C | colon | W | blank
  | digit (d : Fin 10)
deriving DecidableEq, Fintype, Repr

def glyph : Sym → Row
  | .T => dotChar.get 0
  | .C => dotChar.get 1
  | .colon => dotChar.get 2
  | .W => dotChar.get 3
  | .blank => dotChar.get 4
  | .digit d => dotValues.get d

theorem glyph_injective : Function.Injective glyph := by decide

/-- The columns of a text. -/
def render (t : List Sym) : List Byte := t.flatMap fun s => (glyph s).toList

@[simp] theorem render_nil : render [] = [] := rfl

@[simp] theorem render_append (t u : List Sym) : render (t ++ u) = render t ++ render u := by
  simp [render]

@[simp] theorem render_cons (s : Sym) (t : List Sym) : render (s :: t) = (glyph s).toList ++ render t := by
  simp [render]

theorem length_glyph (s : Sym) : (glyph s).toList.length = 8 := by simp

@[simp] theorem length_render (t : List Sym) : (render t).length = 8 * t.length :=
  BlockCode.length_flatMap_code length_glyph t

/-- Cutting a strip into 8-column glyphs recovers its text. -/
theorem render_injective : Function.Injective render :=
  BlockCode.flatMap_code_injective (by decide) length_glyph
    (fun _ _ h => glyph_injective (Vector.toList_inj.1 h))

/-- Glyph `j` of a text occupies the columns `8 * j, …, 8 * j + 7`. -/
theorem render_at (t : List Sym) (j : Nat) (h : j < t.length) :
    ((render t).drop (8 * j)).take 8 = (glyph t[j]).toList :=
  BlockCode.block_at length_glyph t j h

/-! ## Decimal numerals as symbols -/

def digitSym (d : Nat) : Sym := .digit ⟨d % 10, Nat.mod_lt d (by decide)⟩

/-- The canonical decimal numeral of `n`, most significant digit first. -/
def dec (n : Nat) : List Sym := (Numeral.numeral 10 n).map digitSym

/-- The number a digit symbol shows. -/
def Sym.value : Sym → Nat
  | .digit d => d
  | _ => 0

theorem map_value_dec (n : Nat) : (dec n).map Sym.value = Numeral.numeral 10 n := by
  have h : ∀ d ∈ Numeral.numeral 10 n, (Sym.value ∘ digitSym) d = d := fun d hd =>
    Nat.mod_eq_of_lt (Numeral.numeral_lt_base (by decide) hd)
  rw [dec, List.map_map, List.map_congr_left h, List.map_id']

theorem dec_injective : Function.Injective dec := fun n n' h =>
  Numeral.numeral_injective 10 (by rw [← map_value_dec, ← map_value_dec, h])

@[simp] theorem length_dec (n : Nat) : (dec n).length = (Numeral.digitsLE 10 n).length := by
  simp [dec]

theorem mem_dec {s : Sym} {n : Nat} (h : s ∈ dec n) : ∃ d, s = .digit d := by
  obtain ⟨d, _, rfl⟩ := List.mem_map.1 h
  exact ⟨_, rfl⟩

/-- What makes `ds` the canonical decimal numeral of `N`, read from left to right. -/
structure Canonical (N : Nat) (ds : List Sym) : Prop where
  digits : ∀ s ∈ ds, ∃ d, s = .digit d
  value : Nat.ofDigits 10 (ds.map Sym.value).reverse = N
  lead : N ≠ 0 → ds.head? ≠ some (.digit 0)
  zero : N = 0 → ds = [.digit 0]

theorem dec_canonical (N : Nat) : Canonical N (dec N) where
  digits _ := mem_dec
  value := by rw [map_value_dec, Numeral.numeral, List.reverse_reverse, Numeral.ofDigits_digitsLE]
  lead h0 h := by
    have hv : ((dec N).map Sym.value).head? = some 0 := by rw [List.head?_map, h]; rfl
    rw [map_value_dec] at hv
    exact Numeral.numeral_head_ne_zero h0 hv
  zero h0 := by
    subst h0
    rw [dec, Numeral.numeral_zero]
    rfl

end CoinMachine
