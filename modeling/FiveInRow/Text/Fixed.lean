/-!
Numbers written with a fixed number of decimal places. The value of a float is taken exactly and
rounded to the nearest multiple of the last place, a tie going to the even neighbour.

* `roundDiv`: a quotient rounded to the nearest number (`roundDiv_near`), ties to even
  (`roundDiv_tie`);
* `Fixed.ofFloat`: the text of a float.
-/

namespace FiveInRow

/-- The number nearest to `num / den`; of two equally near numbers the even one. -/
def roundDiv (num den : Nat) : Nat :=
  let q := num / den
  let twice := 2 * (num % den)
  if den < twice ∨ (twice = den ∧ q % 2 = 1) then q + 1 else q

/-- The rounded quotient is at most half a unit away. -/
theorem roundDiv_near (num : Nat) {den : Nat} (h : 0 < den) :
    2 * num ≤ 2 * (den * roundDiv num den) + den ∧
      2 * (den * roundDiv num den) ≤ 2 * num + den := by
  have hd := Nat.div_add_mod num den
  have hm := Nat.mod_lt num h
  unfold roundDiv
  dsimp only
  split
  · rw [Nat.mul_add]
    omega
  · omega

/-- A tie goes to the even neighbour. -/
theorem roundDiv_tie {num den : Nat} (h : 2 * (num % den) = den) : roundDiv num den % 2 = 0 := by
  unfold roundDiv
  dsimp only
  split <;> omega

namespace Fixed

/-- A count of units of the last place as text. -/
def ofUnits (places units : Nat) : String :=
  let whole := toString (units / Nat.pow 10 places)
  if places = 0 then whole
  else
    let rest := toString (units % Nat.pow 10 places)
    whole ++ "." ++ String.ofList (List.replicate (places - rest.length) '0') ++ rest

/-- The value `m * 2 ^ e / 2 ^ 1074` in units of the last place. -/
def units (places m e : Nat) : Nat :=
  roundDiv (m * Nat.pow 2 e * Nat.pow 10 places) (Nat.pow 2 1074)

/-- The text of a float. A negative zero and a value that rounds to it keep their sign. -/
def ofFloat (places : Nat) (x : Float) : String :=
  let bits := x.toBits.toNat
  let sign := if bits >>> 63 = 1 then "-" else ""
  let exponent := (bits >>> 52) % 2048
  let digits := bits % 1 <<< 52
  if exponent = 2047 then
    if digits = 0 then sign ++ "inf" else "nan"
  else if exponent = 0 then
    sign ++ ofUnits places (units places digits 0)
  else
    sign ++ ofUnits places (units places (1 <<< 52 + digits) (exponent - 1))

end Fixed

end FiveInRow
