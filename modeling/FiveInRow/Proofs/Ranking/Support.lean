import Mathlib.Tactic
import FiveInRow.Random.Generators
import FiveInRow.Proofs.Ranking.Draws
import FiveInRow.Proofs.Ranking.Forced

/-!
Everything that a draw can return. What a draw returns in a running game is a move of the shortlist;
here every move of the shortlist gets words for which the draw returns it.

* `Draw.Returns`: what a draw returns when it is fed given words;
* `Draw.exists_returns_below`, `Draw.exists_returns_pick?`: every number below the bound can be
  drawn, and every member of a list;
* `Levels.exists_returns_weightedPick?`: every level has a ticket that falls on it, so every cell of
  every level can be drawn;
* `Board.exists_returns_sample`: every move of the shortlist can be drawn;
* `Board.draws_exact`: the shortlist and the draws agree.
-/

namespace FiveInRow

/-! ### Draws from given words -/

namespace Draw

variable {α β : Type} {ws ws' : List UInt64} {x : α} {y : β} {k n : ℕ}

/-- Fed the words `ws`, a draw returns `x` and takes no more of them. -/
def Returns (d : Draw WordCycle α) (ws : List UInt64) (x : α) : Prop :=
  ∀ words rest, d ⟨words, ws ++ rest⟩ = (x, ⟨words, rest⟩)

lemma returns_pure (x : α) : Returns (pure x) [] x :=
  fun _ _ => rfl

/-- A draw and the next one take their words one after the other. -/
lemma Returns.bind {d : Draw WordCycle α} {f : α → Draw WordCycle β} (h : Returns d ws x)
    (hf : Returns (f x) ws' y) : Returns (d >>= f) (ws ++ ws') y := by
  intro words rest
  show (let r := d ⟨words, ws ++ ws' ++ rest⟩; f r.1 r.2) = (y, ⟨words, rest⟩)
  rw [List.append_assoc, h]
  exact hf words rest

/-- The next draw may need no words. -/
lemma Returns.bind_nil {d : Draw WordCycle α} {f : α → Draw WordCycle β} (h : Returns d ws x)
    (hf : Returns (f x) [] y) : Returns (d >>= f) ws y := by
  have hbind := h.bind hf
  rwa [List.append_nil] at hbind

/-- What a draw returns when the cycle of its words is its generator. -/
lemma Returns.ofList {d : Draw WordCycle α} (h : Returns d ws x) :
    (d (WordCycle.ofList ws)).1 = x := by
  have hall := h ws []
  rw [List.append_nil] at hall
  exact congrArg Prod.fst hall

/-- Any number of 32 bits is the upper half of a word. -/
lemma exists_returns_half (h : n < 2 ^ 32) : ∃ w, Returns half [w] n := by
  refine ⟨UInt64.ofNat (n * 2 ^ 32), fun words rest => ?_⟩
  have hword : (UInt64.ofNat (n * 2 ^ 32)).toNat = n * 2 ^ 32 :=
    UInt64.toNat_ofNat_of_lt' (by rw [UInt64.size]; omega)
  have hupper : ((UInt64.ofNat (n * 2 ^ 32)) >>> 32).toNat = n := by
    rw [UInt64.toNat_shiftRight, hword]
    show (n * 2 ^ 32) >>> 32 = n
    rw [Nat.shiftRight_eq_div_pow, Nat.mul_div_cancel n (Nat.two_pow_pos 32)]
  exact congrArg (·, (⟨words, rest⟩ : WordCycle)) hupper

/-- **Every number below the bound can be drawn**, with one word: the least multiple of the bound
whose integer part is the number leaves the carry alone. -/
lemma exists_returns_below (hk : k < n) (hn : n ≤ 2 ^ 31) : ∃ w, Returns (below n) [w] k := by
  have hpos : 0 < n := by omega
  -- the upper half `h` with `k * 2 ^ 32 ≤ h * n < k * 2 ^ 32 + n`
  obtain ⟨h, hlow, hhigh⟩ : ∃ h, k * 2 ^ 32 ≤ h * n ∧ h * n < k * 2 ^ 32 + n := by
    refine ⟨(k * 2 ^ 32 + (n - 1)) / n, ?_, ?_⟩
    · have := Nat.lt_div_mul_add hpos (a := k * 2 ^ 32 + (n - 1))
      omega
    · have := Nat.div_mul_le_self (k * 2 ^ 32 + (n - 1)) n
      omega
  have hscaled : h * n < 2 ^ 32 * n := by omega
  have hlt : h < 2 ^ 32 := Nat.lt_of_mul_lt_mul_right hscaled
  obtain ⟨w, hw⟩ := exists_returns_half hlt
  refine ⟨w, ?_⟩
  have hquotient : h * n / 0x100000000 = k := by omega
  have hrest : ¬ 0x100000000 - n < h * n % 0x100000000 := by omega
  refine hw.bind_nil ?_
  dsimp only
  rw [if_neg hrest, hquotient]
  exact returns_pure k

/-- **Every member of a list can be picked**, with one word. -/
lemma exists_returns_pick? {xs : List α} (hx : x ∈ xs) (hlen : xs.length ≤ 2 ^ 31) :
    ∃ w, Returns (pick? xs) [w] (some x) := by
  obtain ⟨k, hk, rfl⟩ := List.getElem_of_mem hx
  obtain ⟨w, hw⟩ := exists_returns_below hk hlen
  cases xs with
  | nil => cases hx
  | cons a xs =>
      refine ⟨w, hw.bind_nil ?_⟩
      rw [List.getElem?_eq_getElem hk]
      exact returns_pure _

/-- Both sides of the coin can come up, with one word. -/
lemma exists_returns_coin (heads : Bool) : ∃ w, Returns coin [w] heads := by
  cases heads with
  | true => exact ⟨0, fun words rest => rfl⟩
  | false => exact ⟨9223372036854775808, fun words rest => rfl⟩

end Draw

/-! ### The weighted draw -/

namespace Levels

variable {levels : Levels} {p : Priority} {c : Cell}

/-- **Every cell of every level can be drawn.** -/
lemma exists_returns_weightedPick? (hc : c ∈ levels.get p)
    (hlen : (levels.get p).length ≤ 2 ^ 31) :
    ∃ ws, Draw.Returns levels.weightedPick? ws (some c) := by
  obtain ⟨first, hle, hfalls⟩ := exists_fallsOn_iff (List.ne_nil_of_mem hc)
  have hfirst : levels.FallsOn first p := (hfalls first).mpr ⟨le_rfl, by omega⟩
  have hbound := weight_le levels
  obtain ⟨w, hw⟩ := Draw.exists_returns_below hfirst.lt (hbound.trans (by norm_num))
  obtain ⟨w', hw'⟩ := Draw.exists_returns_pick? hc hlen
  refine ⟨[w] ++ [w'], fun words rest => ?_⟩
  rw [List.append_assoc, hfirst.weightedPick?_eq (hw words _)]
  exact hw' words rest

end Levels

/-! ### Moves of the shortlist -/

namespace Board

variable {b : Board} {c : Cell} {color : Option Color}

/-- The cells of a level of the frontier are few enough to pick any of them. -/
lemma length_level_le (b : Board) (priority : Cell → Priority) (p : Priority) :
    ((Levels.ofCells priority b.available).get p).length ≤ 2 ^ 31 :=
  (Cell.length_le_all (b.sublist_level priority p)).trans (by norm_num)

/-- **Every move of the shortlist can be drawn.** -/
lemma exists_returns_sample (hc : c ∈ b.shortlist color) :
    ∃ ws, Draw.Returns (b.sample color) ws (some c) := by
  obtain ⟨hs, havailable⟩ := mem_available_of_mem_shortlist hc
  have hrun := isOver_eq_false_iff.mpr hs
  have hquiet : (b.isOver || b.frontier.isEmpty) = false := by
    rw [hrun, Bool.false_or]
    exact CellSet.isEmpty_eq_false (CellSet.mem_toList.mp havailable)
  rw [shortlist, hrun, if_neg Bool.false_ne_true] at hc
  -- a coin for the side, then words for the cell
  have htoss : ∀ (heads : Bool) {d : Bool → Draw WordCycle (Option Cell)},
      (∃ ws, Draw.Returns (d heads) ws (some c)) →
        ∃ ws, Draw.Returns (Draw.coin >>= d) ws (some c) := by
    rintro heads d ⟨ws, hws⟩
    obtain ⟨w, hw⟩ := Draw.exists_returns_coin heads
    exact ⟨[w] ++ ws, hw.bind hws⟩
  have hpick : ∀ priority : Cell → Priority, ∀ p,
      c ∈ (Levels.ofCells priority b.available).get p →
        ∃ ws, Draw.Returns (Draw.pick? ((Levels.ofCells priority b.available).get p)) ws
          (some c) := by
    intro priority p hmem
    obtain ⟨w, hw⟩ := Draw.exists_returns_pick? hmem (b.length_level_le priority p)
    exact ⟨[w], hw⟩
  rw [sample, hquiet, if_neg Bool.false_ne_true]
  cases hv : (Outlook.of b color).verdict with
  | attack =>
      simp only [hv] at hc ⊢
      exact hpick _ _ hc
  | defence =>
      simp only [hv] at hc ⊢
      exact hpick _ _ hc
  | either =>
      simp only [hv] at hc ⊢
      rw [CellSet.mem_toList, CellSet.contains_ofList, List.mem_append] at hc
      rcases hc with hc | hc
      · exact htoss true (hpick _ _ hc)
      · exact htoss false (hpick _ _ hc)
  | spread =>
      simp only [hv] at hc ⊢
      have hlevel : c ∈ (Levels.ofCells (b.attackOf · color) b.available)[b.attackOf c color] := by
        rw [Levels.getElem_ofCells]
        exact List.mem_filter.mpr ⟨hc, decide_eq_true rfl⟩
      exact htoss true (Levels.exists_returns_weightedPick? hlevel (b.length_level_le _ _))

/-- **The shortlist and the draws agree.** In a running game the shortlist names free cells of the
frontier in increasing index order. Whatever the generator, a draw returns a move of the shortlist;
and for every move of the shortlist there are words from which the draw returns it. In a finished
game there is neither a shortlist nor a draw, and no word is taken. -/
theorem draws_exact (h : Reachable b) (color : Color) :
    (b.status = .inProgress →
      ((b.shortlist (some color)).Pairwise fun c d => c.index < d.index) ∧
      (∀ c ∈ b.shortlist (some color), b.get c = none ∧ b.frontier.contains c = true) ∧
      (∀ {γ : Type} [WordSource γ] (g : γ),
        ∃ c ∈ b.shortlist (some color), (b.sample (some color) g).1 = some c) ∧
      ∀ c ∈ b.shortlist (some color), ∃ words,
        (b.sample (some color) (WordCycle.ofList words)).1 = some c) ∧
    (b.status ≠ .inProgress →
      b.shortlist (some color) = [] ∧
      ∀ {γ : Type} [WordSource γ] (g : γ), b.sample (some color) g = (none, g)) := by
  have hp := h.played
  refine ⟨fun hs => ⟨?_, fun c hc => ?_, fun g => hp.exists_sample hs _ g, fun c hc => ?_⟩,
    fun hs => ?_⟩
  · exact Cell.pairwise_all.sublist (b.shortlist_sublist _)
  · have hfrontier := CellSet.mem_toList.mp (mem_available_of_mem_shortlist hc).2
    exact ⟨hp.get_of_frontier hs hfrontier, hfrontier⟩
  · obtain ⟨ws, hws⟩ := exists_returns_sample hc
    exact ⟨ws, hws.ofList⟩
  · have hover : b.isOver = true := by
      rw [← Bool.not_eq_false, isOver_eq_false_iff]
      exact hs
    refine ⟨by rw [shortlist, hover, if_pos rfl], fun g => ?_⟩
    rw [sample, hover, Bool.true_or, if_pos rfl]
    rfl

/-- Black alone has played, four stones in the middle row. -/
def fourStones : Board :=
  (((empty.place ⟨179⟩ .black).place ⟨180⟩ .black).place ⟨181⟩ .black).place ⟨182⟩ .black

/-- Black can be made to complete the four on either side; after a game is won there is no draw. -/
theorem draws_exact_fourStones :
    (Reachable fourStones ∧ fourStones.status = .inProgress ∧
      ∀ c ∈ ([⟨178⟩, ⟨183⟩] : List Cell), c ∈ fourStones.shortlist (some .black) ∧
        fourStones.get c = none ∧
        ∃ words, (fourStones.sample (some .black) (WordCycle.ofList words)).1 = some c) ∧
    ∃ b, b = rowGame.foldl after empty ∧ b.status ≠ .inProgress ∧
      b.shortlist (some .white) = [] ∧
      ∀ {γ : Type} [WordSource γ] (g : γ), b.sample (some .white) g = (none, g) := by
  constructor
  · have hp : Played fourStones :=
      (((Played.new.place .black (by decide +kernel)).place .black (by decide +kernel)).place .black
        (by decide +kernel)).place .black (by decide +kernel)
    have hs : fourStones.status = .inProgress := by decide +kernel
    have hwins : ∀ c ∈ ([⟨178⟩, ⟨183⟩] : List Cell), c ∈ fourStones.winning .black := by
      have hdecide : ∀ c ∈ ([⟨178⟩, ⟨183⟩] : List Cell), fourStones.wins .black c = true := by
        decide +kernel
      exact fun c hc => mem_winning.mpr (hdecide c hc)
    have hne := List.ne_nil_of_mem (hwins ⟨178⟩ List.mem_cons_self)
    have hforced := (forced_of_verdict hp hs hne (.inl (outlook_of_winning hp hs hne))).1
    obtain ⟨-, hfree, -, hdraw⟩ := (draws_exact hp.reachable .black).1 hs
    refine ⟨hp.reachable, hs, fun c hc => ?_⟩
    have hmem : c ∈ fourStones.shortlist (some .black) := hforced ▸ hwins c hc
    exact ⟨hmem, (hfree c hmem).1, hdraw c hmem⟩
  · have hr : Reachable (rowGame.foldl after empty) := Reachable.new.calls rowGame
    have hs : (rowGame.foldl after empty).status ≠ .inProgress := by decide +kernel
    obtain ⟨hnil, hnone⟩ := (draws_exact hr .white).2 hs
    exact ⟨_, rfl, hs, hnil, hnone⟩

end Board

end FiveInRow
