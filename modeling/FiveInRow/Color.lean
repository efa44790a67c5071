/-!
The two colours of the game, and tables with one entry for each of them.

* `Color.other`: the opponent of a colour;
* `Color.after`: who moves after a colour, where `none` is nobody and black opens the game;
* `ByColor`: a pair of values, one per colour, with `get`, `set`, `modify` and `swap`.
-/

namespace FiveInRow

/-- A player's colour. -/
inductive Color
  | black
  | white
  deriving DecidableEq, Repr

namespace Color

/-- The opponent. -/
def other : Color → Color
  | black => white
  | white => black

/-- The colour that moves after `c`; black opens the game. -/
def after : Option Color → Color
  | some black => white
  | _ => black

@[simp] theorem other_other (c : Color) : c.other.other = c := by
  cases c <;> rfl

theorem other_ne (c : Color) : c.other ≠ c := by
  cases c <;> decide

@[simp] theorem after_some (c : Color) : after (some c) = c.other := by
  cases c <;> rfl

end Color

/-- One value for each colour. -/
structure ByColor (α : Type) where
  black : α
  white : α
  deriving DecidableEq, Repr

namespace ByColor

variable {α : Type}

/-- The same value for both colours. -/
def both (a : α) : ByColor α := ⟨a, a⟩

/-- The value of a colour. -/
@[inline] def get (t : ByColor α) : Color → α
  | .black => t.black
  | .white => t.white

/-- Change the value of one colour. -/
@[inline] def modify (t : ByColor α) (c : Color) (f : α → α) : ByColor α :=
  match c with
  | .black => { t with black := f t.black }
  | .white => { t with white := f t.white }

/-- Replace the value of one colour. -/
@[inline] def set (t : ByColor α) (c : Color) (a : α) : ByColor α :=
  t.modify c fun _ => a

/-- Exchange the two colours. -/
def swap (t : ByColor α) : ByColor α := ⟨t.white, t.black⟩

@[simp] theorem get_both (a : α) (c : Color) : (both a).get c = a := by
  cases c <;> rfl

theorem get_modify (t : ByColor α) (c d : Color) (f : α → α) :
    (t.modify c f).get d = if d = c then f (t.get d) else t.get d := by
  cases c <;> cases d <;> rfl

theorem get_set (t : ByColor α) (c d : Color) (a : α) :
    (t.set c a).get d = if d = c then a else t.get d := by
  cases c <;> cases d <;> rfl

@[simp] theorem get_swap (t : ByColor α) (c : Color) : t.swap.get c = t.get c.other := by
  cases c <;> rfl

end ByColor

end FiveInRow
