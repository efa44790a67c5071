import FiveInRow.Random.Source

/-!
The generators that drive the search, and one that repeats given words.

* `Mixer`: SplitMix64, which turns one seed word into a stream of words;
* `Xoshiro`: the generator xoshiro256++, whose four words `Xoshiro.ofSeed` takes from a mixer;
* `WordCycle`: a list of words, over and over.
-/

namespace FiveInRow

/-- The state of SplitMix64. -/
structure Mixer where
  state : UInt64
  deriving DecidableEq, Repr

/-- One step of SplitMix64. -/
def Mixer.next (m : Mixer) : UInt64 × Mixer :=
  let state := m.state + 0x9e3779b97f4a7c15
  let z := (state ^^^ (state >>> 30)) * 0xbf58476d1ce4e5b9
  let z := (z ^^^ (z >>> 27)) * 0x94d049bb133111eb
  (z ^^^ (z >>> 31), ⟨state⟩)

/-- The state of xoshiro256++. -/
structure Xoshiro where
  s₀ : UInt64
  s₁ : UInt64
  s₂ : UInt64
  s₃ : UInt64
  deriving DecidableEq, Repr

namespace Xoshiro

/-- The generator of a seed. -/
def ofSeed (seed : UInt64) : Xoshiro :=
  let (s₀, m) := Mixer.next ⟨seed⟩
  let (s₁, m) := m.next
  let (s₂, m) := m.next
  let (s₃, _) := m.next
  { s₀, s₁, s₂, s₃ }

/-- The word turned left by `k` bits, `0 < k < 64`. -/
@[inline] def rotate (w k : UInt64) : UInt64 := (w <<< k) ||| (w >>> (64 - k))

/-- One step of xoshiro256++. -/
def next (g : Xoshiro) : UInt64 × Xoshiro :=
  let s₂ := g.s₂ ^^^ g.s₀
  let s₃ := g.s₃ ^^^ g.s₁
  (rotate (g.s₀ + g.s₃) 23 + g.s₀,
    { s₀ := g.s₀ ^^^ s₃
      s₁ := g.s₁ ^^^ s₂
      s₂ := s₂ ^^^ (g.s₁ <<< 17)
      s₃ := rotate s₃ 45 })

instance : WordSource Xoshiro := ⟨next⟩

end Xoshiro

/-- Words that come round again; without any, the word is zero. -/
structure WordCycle where
  /-- The words of one round. -/
  words : List UInt64
  /-- What is left of the current round. -/
  ahead : List UInt64

namespace WordCycle

/-- The cycle at the start of its first round. -/
def ofList (words : List UInt64) : WordCycle := ⟨words, words⟩

/-- The next word. -/
def next (l : WordCycle) : UInt64 × WordCycle :=
  match l.ahead, l.words with
  | w :: ahead, words => (w, ⟨words, ahead⟩)
  | [], w :: words => (w, ⟨w :: words, words⟩)
  | [], [] => (0, ⟨[], []⟩)

instance : WordSource WordCycle := ⟨next⟩

end WordCycle

end FiveInRow
