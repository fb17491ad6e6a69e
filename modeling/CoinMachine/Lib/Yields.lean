import Mathlib.Data.Option.Basic
/-!
# Total correctness of computations in `Option`

`Yields c Q`: the computation `c` has a result and the result satisfies `Q`. The rules follow the
shape of the program: a value, a bind, a weaker postcondition.
-/

/-- `c` has a result, and it satisfies `Q`. -/
def Yields {α : Type*} (c : Option α) (Q : α → Prop) : Prop := ∃ a, c = some a ∧ Q a

namespace Yields

variable {α β : Type*} {Q : α → Prop} {R : β → Prop}

theorem some {a : α} (h : Q a) : Yields (some a) Q := ⟨a, rfl, h⟩

theorem bind {c : Option α} {f : α → Option β} (hc : Yields c Q) (hf : ∀ a, Q a → Yields (f a) R) :
    Yields (c.bind f) R := by
  obtain ⟨a, rfl, ha⟩ := hc
  exact hf a ha

theorem mono {Q' : α → Prop} {c : Option α} (hc : Yields c Q) (h : ∀ a, Q a → Q' a) : Yields c Q' := by
  obtain ⟨a, ha, hq⟩ := hc
  exact ⟨a, ha, h a hq⟩

/-- A computation has at most one result. -/
theorem of_eq_some {c : Option α} {a : α} (hc : Yields c Q) (h : c = .some a) : Q a := by
  obtain ⟨b, hb, hq⟩ := hc
  rw [h, Option.some.injEq] at hb
  exact hb ▸ hq

end Yields
