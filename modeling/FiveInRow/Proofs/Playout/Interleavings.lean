import Mathlib.Tactic
import FiveInRow.Proofs.Playout.Batches

/-!
A batch whose workers run side by side. They may finish in any order, some of them while others are
already being joined, and any of them may fail; the batch still finds what its workers find one
after another.

* `Batch.Scope`, `Batch.Step`: a batch on its way, and its steps: a worker finishes, or the next one
  in the order of their numbers is joined;
* `Batch.Sound`, `Batch.Sound.step`, `Batch.Sound.run`: what every step keeps, and so every run;
* `Batch.average_range`: the mean of all workers, or the first that failed;
* `Batch.Sound.answer_eq`: how every run ends; `Batch.Sound.exists_step`: none gets stuck;
* `Batch.exists_execution`: every order of the workers is the order of a run;
* `Batch.completion_order_irrelevant`: all runs of a batch, whatever the workers do.
-/

namespace FiveInRow

namespace Batch

variable {workers : ℕ} {base : UInt64} {job : Job} {finished : List ℕ}

/-! ### Workers side by side -/

/-- The generator of a worker. -/
def generator (base : UInt64) (w : ℕ) : Xoshiro :=
  Xoshiro.ofSeed (workerSeed base (UInt64.ofNat w))

/-- What is told about a worker that failed. -/
def failed (w : ℕ) : Event :=
  ⟨.warning, "playout batch failed: " ++ (SearchError.workerFailed w).message⟩

/-- A batch on its way. -/
structure Scope where
  /-- The calls of the job that have returned or failed, in this order. -/
  calls : List (ℕ × Xoshiro)
  /-- What the workers have found that have finished. -/
  found : ℕ → Option (Option Float32)
  /-- The number of workers that have been joined. -/
  joined : ℕ
  total : Float32
  failure : Option SearchError
  events : List Event

namespace Scope

/-- All workers have been started, and none has finished. -/
def start : Scope := ⟨[], fun _ => none, 0, 0, none, []⟩

/-- A worker runs its job with its generator and finishes. -/
def finish (s : Scope) (base : UInt64) (job : Job) (w : ℕ) : Scope :=
  { s with
    calls := s.calls ++ [(w, generator base w)]
    found := Function.update s.found w (some (job w (generator base w))) }

/-- The next worker is joined. What it found is added to the total; a failure is reported, and the
first one is kept. -/
def join (s : Scope) : Option Float32 → Scope
  | some value => { s with joined := s.joined + 1, total := s.total + value }
  | none =>
    { s with
      joined := s.joined + 1
      failure := some (s.failure.getD (.workerFailed s.joined))
      events := s.events ++ [failed s.joined] }

lemma calls_join (s : Scope) (r : Option Float32) : (s.join r).calls = s.calls := by
  cases r <;> rfl

lemma found_join (s : Scope) (r : Option Float32) : (s.join r).found = s.found := by
  cases r <;> rfl

lemma joined_join (s : Scope) (r : Option Float32) : (s.join r).joined = s.joined + 1 := by
  cases r <;> rfl

/-- What the batch comes to after the last worker was joined. -/
def answer (s : Scope) (workers : ℕ) : Except SearchError Float32 × List Event :=
  match s.failure with
  | some e => (.error e, s.events)
  | none => (.ok (s.total / Float32.ofNat workers), s.events)

end Scope

/-- A step of a batch: a worker that has not finished does so, or the next worker is joined, if it
has finished. -/
inductive Step (workers : ℕ) (base : UInt64) (job : Job) : Scope → Scope → Prop
  | finish {s : Scope} {w : ℕ} (hw : w < workers) (hrun : s.found w = none) :
      Step workers base job s (s.finish base job w)
  | join {s : Scope} {r : Option Float32} (hj : s.joined < workers)
      (hfound : s.found s.joined = some r) : Step workers base job s (s.join r)

/-- The scopes that steps lead to. -/
def Execution (workers : ℕ) (base : UInt64) (job : Job) : Scope → Prop :=
  Relation.ReflTransGen (Step workers base job) Scope.start

/-! ### What every step keeps -/

/-- What is known of a batch on its way. Every worker that has finished has run its job once, with
its own generator; and what has been joined is what the first workers find, in their order. -/
structure Sound (workers : ℕ) (base : UInt64) (job : Job) (s : Scope) : Prop where
  calls : ∃ order : List ℕ, order.Nodup ∧ s.calls = order.map (fun w => (w, generator base w)) ∧
    (∀ w ∈ order, w < workers) ∧ ∀ w, s.found w = if w ∈ order then some (work base job w) else none
  joined : s.joined ≤ workers ∧ ∀ w < s.joined, s.found w ≠ none
  total : s.total = ((List.range s.joined).filterMap (work base job)).foldl (· + ·) 0
  failure : s.failure =
    ((List.range s.joined).find? fun w => (work base job w).isNone).map .workerFailed
  events : s.events = ((List.range s.joined).filter fun w => (work base job w).isNone).map failed

lemma sound_start (workers : ℕ) (base : UInt64) (job : Job) :
    Sound workers base job Scope.start where
  calls := ⟨[], List.nodup_nil, rfl, nofun, fun _ => rfl⟩
  joined := ⟨Nat.zero_le workers, nofun⟩
  total := rfl
  failure := rfl
  events := rfl

variable {s s' : Scope}

lemma Sound.finish (h : Sound workers base job s) {w : ℕ} (hw : w < workers)
    (hrun : s.found w = none) : Sound workers base job (s.finish base job w) := by
  obtain ⟨order, hnodup, hcalls, hlt, hfound⟩ := h.calls
  have hnew : w ∉ order := by
    intro hmem
    rw [hfound, if_pos hmem] at hrun
    cases hrun
  refine ⟨⟨order ++ [w], ?_, ?_, ?_, fun v => ?_⟩, ⟨h.joined.1, fun v hv => ?_⟩, h.total,
    h.failure, h.events⟩
  · rw [List.nodup_append]
    exact ⟨hnodup, List.nodup_singleton w, fun v hv u hu => by
      rw [List.mem_singleton.mp hu]
      rintro rfl
      exact hnew hv⟩
  · rw [List.map_append, ← hcalls]
    rfl
  · intro v hv
    rcases List.mem_append.mp hv with hv | hv
    · exact hlt v hv
    · rwa [List.mem_singleton.mp hv]
  · show Function.update s.found w _ v = _
    rw [Function.update_apply, hfound]
    by_cases hv : v = w
    · subst hv
      simp [work, generator]
    · simp [hv]
  · show Function.update s.found w _ v ≠ none
    rw [Function.update_apply]
    split_ifs
    · exact Option.some_ne_none _
    · exact h.joined.2 v hv

lemma Sound.join (h : Sound workers base job s) {r : Option Float32} (hj : s.joined < workers)
    (hr : s.found s.joined = some r) : Sound workers base job (s.join r) := by
  obtain ⟨order, hnodup, hcalls, hlt, hfound⟩ := h.calls
  have hwork : r = work base job s.joined := by
    rw [hfound] at hr
    split_ifs at hr
    exact (Option.some.inj hr).symm
  have hnext : ∀ w < s.joined + 1, s.found w ≠ none := by
    intro w hw
    rcases Nat.lt_succ_iff_lt_or_eq.mp hw with hw | rfl
    · exact h.joined.2 w hw
    · rw [hr]
      exact Option.some_ne_none _
  have htotal := h.total
  have hfailure := h.failure
  have hevents := h.events
  cases r with
  | some value =>
      refine ⟨⟨order, hnodup, hcalls, hlt, hfound⟩, ⟨hj, hnext⟩, ?_, ?_, ?_⟩ <;>
        simp [Scope.join, List.range_succ, ← hwork, htotal, hfailure, hevents]
  | none =>
      refine ⟨⟨order, hnodup, hcalls, hlt, hfound⟩, ⟨hj, hnext⟩, ?_, ?_, ?_⟩ <;>
        simp [Scope.join, List.range_succ, ← hwork, htotal, hfailure, hevents]

/-- **Every step keeps what is known.** -/
lemma Sound.step (h : Sound workers base job s) (hs : Step workers base job s s') :
    Sound workers base job s' := by
  cases hs with
  | finish hw hrun => exact h.finish hw hrun
  | join hj hr => exact h.join hj hr

/-- **Every run keeps it.** -/
lemma Execution.sound (h : Execution workers base job s) : Sound workers base job s := by
  induction h with
  | refl => exact sound_start workers base job
  | tail _ hs ih => exact ih.step hs

/-! ### What a batch comes to -/

/-- Once all workers have finished, in whatever order, the slots hold what each of them finds. -/
lemma results_eq_map {work : ℕ → Option Float32} (hall : ∀ w < workers, w ∈ finished) :
    results workers work finished = (List.range workers).map work := by
  refine List.ext_getElem? fun w => ?_
  rw [getElem?_results, List.getElem?_map]
  by_cases hw : w < workers
  · rw [if_pos hw, if_pos (hall w hw), List.getElem?_range hw, Option.map_some]
  · rw [if_neg hw, List.getElem?_eq_none (by rw [List.length_range]; omega), Option.map_none]

/-- The workers that failed, of all workers. -/
lemma failures_map_range (workers : ℕ) (work : ℕ → Option Float32) :
    failures ((List.range workers).map work) =
      (List.range workers).filter fun w => (work w).isNone := by
  have hzip : ((List.range workers).map work).zipIdx =
      (List.range workers).map fun w => (work w, w) := by
    refine List.ext_getElem? fun w => ?_
    rw [List.getElem?_zipIdx, List.getElem?_map, List.getElem?_map, Option.map_map]
    by_cases hw : w < workers
    · rw [List.getElem?_range hw]
      simp
    · rw [List.getElem?_eq_none (by rw [List.length_range]; omega)]
      rfl
  rw [failures, hzip, List.filter_map, List.map_map]
  exact List.map_id _

/-- Where nobody failed, adding up the slots is adding up what was found. -/
lemma foldl_found {work : ℕ → Option Float32} {l : List ℕ} (h : ∀ w ∈ l, work w ≠ none)
    (total : Float32) :
    (l.map work).foldl (fun total r => total + r.getD 0) total =
      (l.filterMap work).foldl (· + ·) total := by
  induction l generalizing total with
  | nil => rfl
  | cons w l ih =>
      obtain ⟨value, hvalue⟩ := Option.ne_none_iff_exists'.mp (h w List.mem_cons_self)
      rw [List.map_cons, List.foldl_cons, List.filterMap_cons_some hvalue, List.foldl_cons, hvalue]
      exact ih (fun v hv => h v (List.mem_cons_of_mem w hv)) _

/-- **What all workers come to**: the error of the first one that failed, with a report of each, or
the mean of what they found. -/
lemma average_range (workers : ℕ) (work : ℕ → Option Float32) :
    average ((List.range workers).map work) =
      match (List.range workers).find? fun w => (work w).isNone with
      | some first => (.error (.workerFailed first),
          ((List.range workers).filter fun w => (work w).isNone).map failed)
      | none => (.ok (((List.range workers).filterMap work).foldl (· + ·) 0 /
          Float32.ofNat workers), []) := by
  rw [average, failures_map_range, ← List.head?_filter]
  cases hfailed : (List.range workers).filter fun w => (work w).isNone with
  | cons first rest => rfl
  | nil =>
      have hall : ∀ w ∈ List.range workers, work w ≠ none := fun w hw hnone =>
        List.filter_eq_nil_iff.mp hfailed w hw (by rw [hnone]; rfl)
      dsimp only [List.head?_nil]
      rw [mean, foldl_found hall, List.length_map, List.length_range]

lemma runIn_eq (hall : ∀ w < max workers 1, w ∈ finished) :
    runIn finished workers base job =
      average ((List.range (max workers 1)).map (work base job)) := by
  rw [runIn, results_eq_map hall]

/-- **How every run ends.** -/
lemma Sound.answer_eq (h : Sound workers base job s) (hdone : s.joined = workers) :
    s.answer workers = average ((List.range workers).map (work base job)) := by
  rw [average_range, Scope.answer, h.failure, h.events, h.total, hdone]
  cases hfind : (List.range workers).find? fun w => (work base job w).isNone with
  | some first => rfl
  | none =>
      rw [List.filter_eq_nil_iff.mpr (List.find?_eq_none.mp hfind)]
      rfl

/-- At the end every worker has run its job once. -/
lemma Sound.calls_perm (h : Sound workers base job s) (hdone : s.joined = workers) :
    s.calls.Perm ((List.range workers).map fun w => (w, generator base w)) := by
  obtain ⟨order, hnodup, hcalls, hlt, hfound⟩ := h.calls
  rw [hcalls]
  refine List.Perm.map _ ((List.perm_ext_iff_of_nodup hnodup List.nodup_range).mpr fun w => ?_)
  rw [List.mem_range]
  refine ⟨hlt w, fun hw => ?_⟩
  have hne := h.joined.2 w (hdone ▸ hw)
  rw [hfound] at hne
  by_contra hmem
  exact hne (if_neg hmem)

/-! ### Runs -/

/-- **No run gets stuck** before the last worker was joined. -/
lemma Sound.exists_step (h : Sound workers base job s) (hrest : s.joined ≠ workers) :
    ∃ s', Step workers base job s s' := by
  have hj : s.joined < workers := lt_of_le_of_ne h.joined.1 hrest
  cases hr : s.found s.joined with
  | none => exact ⟨_, .finish hj hr⟩
  | some r => exact ⟨_, .join hj hr⟩

/-- Every step finishes a worker or joins one, so no run is longer than twice the number of
workers. -/
lemma Step.progress (h : Step workers base job s s') :
    s'.calls.length + s'.joined = s.calls.length + s.joined + 1 := by
  cases h with
  | @finish w hw hrun =>
      show (s.calls ++ [(w, generator base w)]).length + s.joined = _
      rw [List.length_append, List.length_singleton]
      omega
  | join hj hr => rw [Scope.calls_join, Scope.joined_join, Nat.add_assoc]

lemma Sound.progress_le (h : Sound workers base job s) :
    s.calls.length + s.joined ≤ 2 * workers := by
  obtain ⟨order, hnodup, hcalls, hlt, -⟩ := h.calls
  have hsub : order ⊆ List.range workers := fun w hw => List.mem_range.mpr (hlt w hw)
  have hlength := (hnodup.subperm hsub).length_le
  rw [List.length_range] at hlength
  rw [hcalls, List.length_map]
  have := h.joined.1
  omega

/-- Workers can finish in any order before any of them is joined. -/
lemma exists_finished (base : UInt64) (job : Job) {order : List ℕ} (hnodup : order.Nodup)
    (hlt : ∀ w ∈ order, w < workers) :
    ∃ s, Execution workers base job s ∧ s.calls = order.map (fun w => (w, generator base w)) ∧
      s.joined = 0 ∧ ∀ w, s.found w ≠ none ↔ w ∈ order := by
  induction order using List.reverseRecOn with
  | nil => exact ⟨Scope.start, .refl, rfl, rfl, fun w => by simp [Scope.start]⟩
  | append_singleton order w ih =>
      obtain ⟨hnodup', -, hnew⟩ := List.nodup_append.mp hnodup
      obtain ⟨s, hs, hcalls, hjoined, hfound⟩ := ih hnodup' fun v hv =>
        hlt v (List.mem_append_left _ hv)
      have hw : w < workers := hlt w (List.mem_append_right _ (List.mem_singleton_self w))
      have hrun : s.found w = none := by
        by_contra hne
        exact hnew w ((hfound w).mp hne) w (List.mem_singleton_self w) rfl
      refine ⟨_, hs.tail (.finish hw hrun), ?_, hjoined, fun v => ?_⟩
      · rw [Scope.finish, hcalls, List.map_append]
        rfl
      · show Function.update s.found w _ v ≠ none ↔ _
        rw [Function.update_apply, List.mem_append, List.mem_singleton, ← hfound]
        split_ifs with hv <;> simp [hv]

/-- Once all workers have finished, those that are left are joined. -/
lemma exists_joined (h : Execution workers base job s) (hall : ∀ w < workers, s.found w ≠ none)
    {n : ℕ} (hn : s.joined + n = workers) :
    ∃ s', Execution workers base job s' ∧ s'.calls = s.calls ∧ s'.joined = workers := by
  induction n generalizing s with
  | zero => exact ⟨s, h, rfl, hn⟩
  | succ n ih =>
      have hj : s.joined < workers := by omega
      obtain ⟨r, hr⟩ := Option.ne_none_iff_exists'.mp (hall _ hj)
      obtain ⟨s', hs', hcalls, hdone⟩ := ih (h.tail (.join hj hr))
        (by rwa [Scope.found_join]) (by rw [Scope.joined_join]; omega)
      exact ⟨s', hs', hcalls.trans (s.calls_join r), hdone⟩

/-- **Every order of the workers is the order of a run.** -/
lemma exists_execution (base : UInt64) (job : Job) (h : finished.Perm (List.range workers)) :
    ∃ s, Execution workers base job s ∧ s.joined = workers ∧
      s.calls = finished.map fun w => (w, generator base w) := by
  have hmem : ∀ w, w ∈ finished ↔ w < workers := fun w => h.mem_iff.trans List.mem_range
  obtain ⟨s, hs, hcalls, hjoined, hfound⟩ :=
    exists_finished base job (h.nodup_iff.mpr List.nodup_range) fun w hw => (hmem w).mp hw
  obtain ⟨s', hs', hcalls', hdone⟩ := exists_joined hs
    (fun w hw => (hfound w).mpr ((hmem w).mpr hw)) (by rw [hjoined, Nat.zero_add])
  exact ⟨s', hs', hdone, hcalls'.trans hcalls⟩

/-- Batches whose workers all find something. -/
lemma average_of_values {work : ℕ → Option Float32} {values : ℕ → Float32}
    (h : ∀ w < workers, work w = some (values w)) :
    average ((List.range workers).map work) =
      (.ok ((List.range workers).foldl (fun total w => total + values w) 0 /
        Float32.ofNat workers), []) := by
  have hmap : (List.range workers).map work = (List.range workers).map fun w => some (values w) :=
    List.map_congr_left fun w hw => h w (List.mem_range.mp hw)
  have hfound : ∀ r ∈ (List.range workers).map fun w => some (values w), r ≠ none := by
    intro r hr
    obtain ⟨w, -, rfl⟩ := List.mem_map.mp hr
    exact Option.some_ne_none _
  rw [hmap, average, failures_eq_nil hfound, mean, List.foldl_map, List.length_map,
    List.length_range]
  rfl

/-- Batches in which workers fail. -/
lemma average_of_failure {work : ℕ → Option Float32} {first : ℕ} (hfirst : first < workers)
    (hnone : work first = none) (hbefore : ∀ w < first, work w ≠ none) :
    average ((List.range workers).map work) =
      (.error (.workerFailed first),
        ((List.range workers).filter fun w => (work w).isNone).map failed) := by
  have hfind : (List.range workers).find? (fun w => (work w).isNone) = some first := by
    rw [List.find?_range_eq_some]
    refine ⟨by rw [hnone]; rfl, List.mem_range.mpr hfirst, fun w hw => ?_⟩
    rw [Bool.not_eq_true', Option.isNone_eq_false_iff, ← Option.ne_none_iff_isSome]
    exact hbefore w hw
  rw [average_range, hfind]

/-- **A batch does not depend on the order in which its workers finish.** For any number of workers,
where none counts as one, any seed and any job, and however the workers that finish and those that
are joined follow each other:

* no run gets stuck, and none is longer than two steps for each worker;
* at its end every worker has run its job once, with the generator that the seed and its own number
  make, and the batch has come to what it comes to one worker after another;
* every order of the workers is the order of a run, and the batch comes to the same in it;
* if every worker finds something, that is the sum from zero in the order of their numbers, divided
  by their number, and nothing is told; if workers fail, it is the error of the first of them, and
  each of them is told of, in the same order.

What one worker contributes stays the same when there are more of them. A batch of playouts is the
mean of the games that the workers play out, each with its own generator. -/
theorem completion_order_irrelevant (workers : ℕ) (base : UInt64) (job : Job) :
    ∃ n, n = max workers 1 ∧
    (∀ s, Execution n base job s →
      (s.joined ≠ n → ∃ s', Step n base job s s') ∧
      (∀ s', Step n base job s s' →
        s'.calls.length + s'.joined = s.calls.length + s.joined + 1) ∧
      s.calls.length + s.joined ≤ 2 * n ∧
      (s.joined = n → s.calls.Perm ((List.range n).map fun w => (w, generator base w)) ∧
        s.answer n = run workers base job)) ∧
    (∀ finished : List ℕ, finished.Perm (List.range n) →
      runIn finished workers base job = run workers base job ∧
      ∃ s, Execution n base job s ∧ s.joined = n ∧
        s.calls = finished.map fun w => (w, generator base w)) ∧
    (∀ values : ℕ → Float32, (∀ w < n, job w (generator base w) = some (values w)) →
      run workers base job =
        (.ok ((List.range n).foldl (fun total w => total + values w) 0 / Float32.ofNat n), [])) ∧
    (∀ first < n, job first (generator base first) = none →
      (∀ w < first, job w (generator base w) ≠ none) →
      run workers base job = (.error (.workerFailed first),
        ((List.range n).filter fun w => (job w (generator base w)).isNone).map failed)) ∧
    (∀ m, n ≤ m → ∀ w < n, (results m (work base job) (List.range m))[w]? =
      (results n (work base job) (List.range n))[w]?) ∧
    ∀ (b : Board) (last side : Option Color), b.batchValue last side workers base =
      (.ok ((List.range n).foldl
        (fun total w => total + (b.playOutValue last side (generator base w)).1) 0 /
          Float32.ofNat n), []) := by
  have hone : ∀ w < max workers 1, w ∈ List.range (max workers 1) := fun w hw =>
    List.mem_range.mpr hw
  have hrun : ∀ job, run workers base job =
      average ((List.range (max workers 1)).map (work base job)) := fun job => runIn_eq hone
  refine ⟨max workers 1, rfl, fun s hs => ?_, fun finished hperm => ⟨?_, ?_⟩,
    fun values hvalues => ?_, fun first hfirst hnone hbefore => ?_, fun m hm w hw => ?_,
    fun b last side => ?_⟩
  · have hsound := hs.sound
    exact ⟨hsound.exists_step, fun s' hstep => hstep.progress, hsound.progress_le, fun hdone =>
      ⟨hsound.calls_perm hdone, (hsound.answer_eq hdone).trans (hrun job).symm⟩⟩
  · rw [hrun, runIn_eq fun w hw => hperm.mem_iff.mpr (hone w hw)]
  · exact exists_execution base job hperm
  · exact (hrun job).trans (average_of_values hvalues)
  · exact (hrun job).trans (average_of_failure hfirst hnone hbefore)
  · rw [results_eq_map fun v hv => List.mem_range.mpr hv, results_eq_map hone,
      List.getElem?_map, List.getElem?_map, List.getElem?_range hw,
      List.getElem?_range (hw.trans_le hm)]
  · rw [Board.batchValue, hrun]
    exact average_of_values fun w _ => rfl

/-- A job at which the second worker fails. -/
def tripping : Job := fun w _ => if w = 1 then none else some 1

/-- The third of three workers is done first, and the second one, which fails, last. No worker at
all is one worker. -/
theorem completion_order_irrelevant_tripping :
    [2, 0, 1].Perm (List.range 3) ∧
      runIn [2, 0, 1] 3 5 tripping = (.error (.workerFailed 1), [failed 1]) ∧
      run 0 5 (fun _ _ => some 1) = (.ok ((0 + 1) / Float32.ofNat 1), []) := by
  have hperm : [2, 0, 1].Perm (List.range (max 3 1)) := by decide
  obtain ⟨n, rfl, -, horder, -, hfailure, -⟩ := completion_order_irrelevant 3 5 tripping
  obtain ⟨n, rfl, -, -, hvalues, -⟩ := completion_order_irrelevant 0 5 fun _ _ => some 1
  refine ⟨hperm, (horder _ hperm).1.trans ?_, hvalues (fun _ => 1) fun _ _ => rfl⟩
  refine hfailure 1 (by decide) rfl fun w hw => ?_
  obtain rfl : w = 0 := by omega
  exact Option.some_ne_none _

end Batch

end FiveInRow
