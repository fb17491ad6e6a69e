import Mathlib.Data.List.Basic
/-!
# Reading a decimal integer off a text

Blanks are skipped; an optional sign and the longest run of digits after it are the integer. Where no digit
stands, nothing is read: the blanks are gone, and so is a lone sign if the reader takes the sign before it
looks for a digit (`takesSign`). What is left is always a suffix of the text (`scanInt_suffix`), and a proper
one after an integer (`length_lt_of_scanInt`).
-/

namespace IntScan

def isBlank (c : Char) : Bool := c.toNat ∈ [32, 9, 10, 11, 12, 13]

def digitsVal (digits : List Char) : Nat := digits.foldl (fun v d => 10 * v + (d.toNat - 48)) 0

/-- Whether there is a minus sign, and what stands behind the sign. -/
def splitSign : List Char → Bool × List Char
  | [] => (false, [])
  | c :: cs => if c = '-' then (true, cs) else if c = '+' then (false, cs) else (false, c :: cs)

/-- The integer, if there is one, and the text behind it. -/
def scanInt (takesSign : Bool) (text : List Char) : Option Int × List Char :=
  let body := text.dropWhile isBlank
  let unsigned := (splitSign body).2
  let digits := unsigned.takeWhile Char.isDigit
  if digits = [] then (none, if takesSign then unsigned else body)
  else
    (some (if (splitSign body).1 then -(digitsVal digits : Int) else digitsVal digits), unsigned.dropWhile Char.isDigit)

theorem splitSign_suffix (text : List Char) : (splitSign text).2 <:+ text := by
  cases text with
  | nil => exact List.suffix_rfl
  | cons c cs =>
    rw [splitSign]
    split
    · exact List.suffix_cons c cs
    · split
      · exact List.suffix_cons c cs
      · exact List.suffix_rfl

theorem scanInt_suffix (takesSign : Bool) (text : List Char) : (scanInt takesSign text).2 <:+ text := by
  have hbody : text.dropWhile isBlank <:+ text := List.dropWhile_suffix _
  have hunsigned := (splitSign_suffix (text.dropWhile isBlank)).trans hbody
  unfold scanInt
  dsimp only
  split
  · split
    · exact hunsigned
    · exact hbody
  · exact (List.dropWhile_suffix _).trans hunsigned

/-- An integer takes at least its digits from the text. -/
theorem length_lt_of_scanInt {takesSign : Bool} {text : List Char} {v : Int}
    (h : (scanInt takesSign text).1 = some v) : (scanInt takesSign text).2.length < text.length := by
  have hunsigned := ((splitSign_suffix (text.dropWhile isBlank)).trans (List.dropWhile_suffix _)).length_le
  unfold scanInt at h ⊢
  dsimp only at h ⊢
  generalize (splitSign (text.dropWhile isBlank)).2 = unsigned at h hunsigned ⊢
  split at h
  · cases h
  · rename_i hdigits
    have hpos := List.length_pos_iff.2 hdigits
    have hsum := congrArg List.length (List.takeWhile_append_dropWhile (p := Char.isDigit) (l := unsigned))
    rw [List.length_append] at hsum
    rw [if_neg hdigits]
    dsimp only
    omega

/-- An integer, and a sign without a digit, taken and left. -/
example : scanInt true [' ', '-', '1', '2', 'x'] = (some (-12), ['x']) ∧ scanInt true [' ', '-', 'x'] = (none, ['x']) ∧
    scanInt false [' ', '-', 'x'] = (none, ['-', 'x']) := by decide

end IntScan
