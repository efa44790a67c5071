import Mathlib.Tactic
import Mathlib.Data.UInt
import FiveInRow.Proofs.Playout.Interleavings

/-!
The generators of a batch are all different. Every step that turns a batch's seed and a worker's
number into the state of a generator can be undone: words are added to, multiplied by a constant
that has an inverse, or combined with another word or with a shifted copy of themselves.

* `xor_shiftRight_injective`: combining a word with a shifted copy of itself loses nothing;
* `Mixer.next_injective`, `Xoshiro.ofSeed_injective`: different seeds make different generators;
* `workerSeed_injective`, `workerSeed_left_injective`: workers differ in their seeds, and so does a
  worker in batches with different seeds;
* `workerSeed_eq_base_iff`: one number alone would give a worker the seed of the batch;
* `Batch.generators_distinct`: no two generators of a batch coincide.
-/

namespace FiveInRow

open Function

/-! ### Steps that can be undone -/

/-- Only zero is its own shifted copy. -/
lemma eq_zero_of_shiftRight_eq {w k : UInt64} (hk : k.toNat % 64 ≠ 0) (h : w >>> k = w) :
    w = 0 := by
  have hdiv : w.toNat / 2 ^ (k.toNat % 64) = w.toNat := by
    rw [← Nat.shiftRight_eq_div_pow, ← UInt64.toNat_shiftRight, h]
  by_contra hw
  have hpos : 0 < w.toNat := Nat.pos_of_ne_zero fun hzero => hw (UInt64.toNat_inj.mp hzero)
  exact (Nat.div_lt_self hpos (Nat.one_lt_two_pow hk)).ne hdiv

/-- **Combining a word with a shifted copy of itself loses nothing.** What two words with the same
combination differ in is its own shifted copy, and so it is nothing. -/
lemma xor_shiftRight_injective {k : UInt64} (hk : k.toNat % 64 ≠ 0) :
    Injective fun w : UInt64 => w ^^^ (w >>> k) := by
  intro v w h
  have hself : (v ^^^ w) >>> k ^^^ (v ^^^ w) = 0 := by
    calc (v ^^^ w) >>> k ^^^ (v ^^^ w)
        = (v ^^^ v >>> k) ^^^ (w ^^^ w >>> k) := by rw [UInt64.shiftRight_xor]; ac_rfl
      _ = 0 := UInt64.xor_eq_zero_iff.mpr h
  exact UInt64.xor_eq_zero_iff.mp
    (eq_zero_of_shiftRight_eq hk (UInt64.xor_eq_zero_iff.mp hself))

/-- The constant that spreads the numbers of the workers has an inverse. -/
lemma isUnit_golden : IsUnit (0x9e3779b97f4a7c15 : UInt64) :=
  .of_mul_eq_one 0xf1de83e19937733d (by decide)

/-! ### Generators -/

/-- **The first word of a mixer tells its state.** -/
lemma Mixer.next_injective : Injective fun m : Mixer => m.next.1 := by
  have hfirst : IsUnit (0xbf58476d1ce4e5b9 : UInt64) :=
    .of_mul_eq_one 0x96de1b173f119089 (by decide)
  have hsecond : IsUnit (0x94d049bb133111eb : UInt64) :=
    .of_mul_eq_one 0x319642b2d24d8ec3 (by decide)
  intro m m' h
  -- from the last step of the mixer back to the first
  have hthird := xor_shiftRight_injective (k := 31) (by decide) h
  have hmiddle :=
    xor_shiftRight_injective (k := 27) (by decide) (hsecond.mul_left_injective hthird)
  have hstart := xor_shiftRight_injective (k := 30) (by decide) (hfirst.mul_left_injective hmiddle)
  have hstate : m.state = m'.state := (UInt64.add_left_inj _).mp hstart
  cases m
  cases m'
  exact congrArg Mixer.mk hstate

/-- **Different seeds make different generators.** -/
lemma Xoshiro.ofSeed_injective : Injective Xoshiro.ofSeed := by
  intro seed seed' h
  have hword : (Mixer.next ⟨seed⟩).1 = (Mixer.next ⟨seed'⟩).1 := congrArg Xoshiro.s₀ h
  exact congrArg Mixer.state (Mixer.next_injective hword)

/-! ### Seeds -/

/-- **Workers differ in their seeds.** -/
lemma workerSeed_injective (base : UInt64) : Injective (workerSeed base) := by
  intro v w h
  have hspread := isUnit_golden.mul_left_injective ((UInt64.xor_right_inj base).mp h)
  exact (UInt64.add_left_inj 1).mp hspread

/-- **Batches differ in the seeds of a worker.** -/
lemma workerSeed_left_injective (worker : UInt64) : Injective (workerSeed · worker) :=
  fun _ _ h => (UInt64.xor_left_inj _).mp h

/-- Only the number that wraps to zero would give a worker the seed of the batch. -/
lemma workerSeed_eq_base_iff {base worker : UInt64} :
    workerSeed base worker = base ↔ worker + 1 = 0 := by
  refine ⟨fun h => ?_, fun h => by rw [workerSeed, h, UInt64.zero_mul, UInt64.xor_zero]⟩
  have hzero : base ^^^ (worker + 1) * 0x9e3779b97f4a7c15 = base ^^^ 0 * 0x9e3779b97f4a7c15 := by
    rw [UInt64.zero_mul, UInt64.xor_zero]
    exact h
  exact isUnit_golden.mul_left_injective ((UInt64.xor_right_inj base).mp hzero)

/-! ### Numbers as words -/

lemma ofNat_inj {v w : ℕ} (hv : v < 2 ^ 64) (hw : w < 2 ^ 64) :
    UInt64.ofNat v = UInt64.ofNat w ↔ v = w := by
  rw [← UInt64.toNat_inj, UInt64.toNat_ofNat_of_lt' hv, UInt64.toNat_ofNat_of_lt' hw]

/-- The seeds of two workers of a batch are different. -/
lemma workerSeed_ofNat_ne (base : UInt64) {v w : ℕ} (hv : v < 2 ^ 64) (hw : w < 2 ^ 64)
    (h : v ≠ w) : workerSeed base (.ofNat v) ≠ workerSeed base (.ofNat w) :=
  fun hseed => h ((ofNat_inj hv hw).mp (workerSeed_injective base hseed))

/-- No worker of a batch has its seed. -/
lemma workerSeed_ofNat_ne_base (base : UInt64) {w : ℕ} (hw : w < 2 ^ 64 - 1) :
    workerSeed base (.ofNat w) ≠ base := by
  intro hseed
  have hzero : UInt64.ofNat (w + 1) = UInt64.ofNat 0 := by
    rw [UInt64.ofNat_add]
    exact workerSeed_eq_base_iff.mp hseed
  exact Nat.succ_ne_zero w ((ofNat_inj (by omega) (by omega)).mp hzero)

namespace Batch

/-- **No two generators of a batch coincide.** Whatever the seed of a batch, two workers with
different numbers have different seeds, and none of them has the seed of the batch; and in batches
with different seeds the seeds of a worker are different. Since different seeds make different
generators, the generators of a batch of any size are all different, also from the one that the
batch's own seed would make, and a worker starts differently in every batch. -/
theorem generators_distinct (base : UInt64) :
    (∀ v < 2 ^ 64 - 1, ∀ w < 2 ^ 64 - 1, v ≠ w →
      workerSeed base (.ofNat v) ≠ workerSeed base (.ofNat w)) ∧
    (∀ w < 2 ^ 64 - 1, workerSeed base (.ofNat w) ≠ base) ∧
    (∀ other, other ≠ base → ∀ w, workerSeed other w ≠ workerSeed base w) ∧
    (∀ workers ≤ 2 ^ 64 - 1,
      (Xoshiro.ofSeed base :: (List.range workers).map (generator base)).Nodup) ∧
    ∀ other, other ≠ base → ∀ w, generator other w ≠ generator base w := by
  refine ⟨fun v hv w hw => workerSeed_ofNat_ne base (by omega) (by omega),
    fun w hw => workerSeed_ofNat_ne_base base hw,
    fun other hne w hseed => hne (workerSeed_left_injective w hseed), fun workers hle => ?_,
    fun other hne w hgen =>
      hne (workerSeed_left_injective _ (Xoshiro.ofSeed_injective hgen))⟩
  rw [List.nodup_cons, List.mem_map]
  constructor
  · rintro ⟨w, hw, hgen⟩
    have hlt : w < workers := List.mem_range.mp hw
    exact workerSeed_ofNat_ne_base base (by omega) (Xoshiro.ofSeed_injective hgen)
  · refine List.nodup_range.map_on fun v hv w hw hgen => ?_
    have hvlt : v < workers := List.mem_range.mp hv
    have hwlt : w < workers := List.mem_range.mp hw
    by_contra hne
    exact workerSeed_ofNat_ne base (by omega) (by omega) hne (Xoshiro.ofSeed_injective hgen)

/-- The first worker and the last one of the largest batch, where the product has wrapped around as
often as it can, and two batches whose seeds differ in one bit. -/
theorem generators_distinct_farthest :
    (0 < 2 ^ 64 - 1 ∧ 2 ^ 64 - 2 < 2 ^ 64 - 1 ∧ (0 : ℕ) ≠ 2 ^ 64 - 2) ∧
    workerSeed 7 (.ofNat 0) ≠ workerSeed 7 (.ofNat (2 ^ 64 - 2)) ∧
    workerSeed 7 (.ofNat (2 ^ 64 - 2)) ≠ 7 ∧
    workerSeed 6 0 ≠ workerSeed 7 0 ∧
    (Xoshiro.ofSeed 7 :: (List.range 24).map (generator 7)).Nodup ∧
    generator 6 0 ≠ generator 7 0 := by
  obtain ⟨hworkers, hbase, hbatches, hnodup, hgenerators⟩ := generators_distinct 7
  exact ⟨by decide, hworkers 0 (by decide) _ (by decide) (by decide), hbase _ (by decide),
    hbatches 6 (by decide) 0, hnodup 24 (by decide), hgenerators 6 (by decide) 0⟩

end Batch

end FiveInRow
