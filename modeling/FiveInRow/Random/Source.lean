/-!
Drawing at random from a source of 64-bit words. How many words a draw takes, and how it turns
them into a result, is fixed, so equal sources give equal draws.

* `WordSource`: a state from which words are taken one after another;
* `Draw`: a computation that may take words;
* `Draw.below`: a number below a bound; `Draw.below_lt` says it is one;
* `Draw.coin`, `Draw.fraction`, `Draw.pick?`: a fair coin, a number in `[0, 1)`, a list member.
-/

namespace FiveInRow

/-- A state that yields words. -/
class WordSource (γ : Type) where
  /-- The next word, and the state after it. -/
  next : γ → UInt64 × γ

/-- A computation that takes words from a source. -/
abbrev Draw (γ α : Type) := StateM γ α

namespace Draw

variable {γ : Type} [WordSource γ]

/-- The next word. -/
@[inline] def word : Draw γ UInt64 := fun s => WordSource.next s

/-- The upper half of the next word. -/
@[inline] def half : Draw γ Nat := do return ((← word) >>> 32).toNat

/-- A number below `n`, for `1 ≤ n < 2 ^ 32`: the integer part of `n` times a 32-bit fraction. When
the fraction's last digits could still carry into the integer part, a second draw extends it. -/
def below (n : Nat) : Draw γ Nat := do
  let p := (← half) * n
  let integer := p / 0x100000000
  let rest := p % 0x100000000
  if 0x100000000 - n < rest then
    let q := (← half) * n
    return if 0x100000000 ≤ rest + q / 0x100000000 then integer + 1 else integer
  else
    return integer

omit [WordSource γ] in
theorem shiftRight_lt (w : UInt64) : (w >>> 32).toNat < 0x100000000 := by
  have h := w.toNat_lt
  have hs : (w >>> 32).toNat = w.toNat / 0x100000000 := by
    rw [UInt64.toNat_shiftRight, Nat.shiftRight_eq_div_pow]
    rfl
  omega

theorem half_lt (s : γ) : ((half : Draw γ Nat) s).1 < 0x100000000 :=
  shiftRight_lt (WordSource.next s).1

/-- The largest fraction leaves room for the carry, so a draw stays below its bound. -/
theorem below_lt {n : Nat} (hn : 0 < n) (hn' : n ≤ 0x100000000) (s : γ) :
    ((below n : Draw γ Nat) s).1 < n := by
  have hp : ((half : Draw γ Nat) s).1 * n ≤ 0xffffffff * n :=
    Nat.mul_le_mul_right n (Nat.le_sub_one_of_lt (half_lt s))
  simp only [below, bind, StateT.bind, pure]
  rcases hs : (half : Draw γ Nat) s with ⟨w, s'⟩
  rw [hs] at hp
  dsimp only at hp ⊢
  generalize w * n = p at hp ⊢
  by_cases hc : 0x100000000 - n < p % 0x100000000
  · rw [if_pos hc]
    have branch (b : Prop) [Decidable b] :
        (if b then p / 0x100000000 + 1 else p / 0x100000000) < n := by
      split <;> omega
    exact branch _
  · rw [if_neg hc]
    change p / 0x100000000 < n
    omega

/-- A fair coin: whether the next word lies in the lower half of its range. -/
def coin : Draw γ Bool := do return (← word) < 9223372036854775808

/-- A number in `[0, 1)`: the upper 53 bits of a word as a binary fraction. -/
def fraction : Draw γ Float := do
  return ((← word) >>> 11).toFloat * (1.0 / 9007199254740992.0)

/-- A member of a list. Nothing is drawn from the empty list. -/
def pick? {α : Type} : List α → Draw γ (Option α)
  | [] => return none
  | xs@(_ :: _) => do return xs[← below xs.length]?

end Draw

end FiveInRow
