import FuncScript.Proofs.Limiting.Retrying

/-!
How many calls of one address are allowed in an interval as long as a window, wherever it begins.
Windows of one address do not overlap, so the calls of the interval are counted in two of them: the
last one that started before the interval, and the first one that did not.
-/

namespace FuncScript

variable {counters : Counters} {c : Call} {calls : List Call} {length now maxRequests : Nat}
  {t : Int} {a : Address} {u v w : Window}

/-- A call counted in the second window comes after one of the same address counted in the first:
further on in the same window, or when that window is over. -/
def Window.Precedes (length : Nat) (v w : Window) : Prop :=
  w.start = v.start ∧ v.count < w.count ∨ v.start + length ≤ w.start

theorem Window.Precedes.trans (h : u.Precedes length v) (h' : v.Precedes length w) :
    u.Precedes length w := by
  unfold Precedes at h h' ⊢
  omega

namespace Counters

def windows (length : Nat) (counters : Counters) : List Call → List (Call × Window)
  | [] => []
  | c :: rest => (c, counters.counted length c) :: windows length (counters.next length c) rest

theorem verdicts_eq_windows (counters : Counters) (calls : List Call) :
    counters.verdicts maxRequests length calls = (counters.windows length calls).map
      fun p => (p.1, verdict maxRequests length p.1.time p.2) := by
  induction calls generalizing counters with
  | nil => rfl
  | cons c calls ih => rw [verdicts, windows, List.map_cons, ih]

theorem verdict_eq_allowed_iff :
    verdict maxRequests length now w = .allowed ↔ w.count ≤ maxRequests := by
  unfold verdict
  split
  · next h => simp [h]
  · next h => simp [h]

theorem count_counted_pos : 0 < (counters.counted length c).count :=
  Nat.succ_pos _

theorem time_lt_counted (hlength : 0 < length) :
    c.time < (counters.counted length c).start + length := by
  rw [counted, current]
  cases counters c.address with
  | none => exact Nat.lt_add_of_pos_right hlength
  | some w =>
    dsimp only
    split
    · exact Nat.lt_add_of_pos_right hlength
    · omega

theorem precedes_counted (h : counters c.address = some w) (hlength : 0 < length) :
    w.Precedes length (counters.counted length c) := by
  rw [counted, current, h]
  dsimp only
  split
  · right
    dsimp only
    omega
  · exact .inl ⟨rfl, Nat.lt_succ_self _⟩

theorem precedes_windows (h : counters a = some w) (hlength : 0 < length) :
    ∀ p ∈ counters.windows length calls, p.1.address = a → w.Precedes length p.2 := by
  induction calls generalizing counters w with
  | nil => simp [windows]
  | cons c calls ih =>
    intro p hp ha
    by_cases hc : c.address = a
    · subst hc
      have hhead := precedes_counted h hlength
      rcases List.mem_cons.mp hp with rfl | hp
      · exact hhead
      · apply hhead.trans
        apply ih _ p hp ha
        rw [next, if_pos rfl]
    · rcases List.mem_cons.mp hp with rfl | hp
      · exact absurd ha hc
      · apply ih _ p hp ha
        rw [next_of_ne hc, h]

theorem pairwise_windows (counters : Counters) (hlength : 0 < length) (calls : List Call) :
    (counters.windows length calls).Pairwise fun p q =>
      p.1.address = q.1.address → p.2.Precedes length q.2 := by
  induction calls generalizing counters with
  | nil => exact .nil
  | cons c calls ih =>
    rw [windows, List.pairwise_cons]
    refine ⟨?_, ih _⟩
    intro q hq ha
    apply precedes_windows _ hlength q hq ha.symm
    rw [next, if_pos rfl]

structure Counts (length : Nat) (c : Call) (w : Window) : Prop where
  count : 0 < w.count
  start : w.start ≤ c.time
  lt : c.time < w.start + length

theorem counts_windows (h : counters.StartedBy now) (hlength : 0 < length)
    (hcalls : calls.Pairwise fun c d => c.time ≤ d.time) (hnow : ∀ d ∈ calls, now ≤ d.time) :
    ∀ p ∈ counters.windows length calls, Counts length p.1 p.2 := by
  induction calls generalizing counters now with
  | nil => simp [windows]
  | cons c calls ih =>
    rw [List.pairwise_cons] at hcalls
    have hstarted : counters.StartedBy c.time := by
      intro b w hw
      exact Nat.le_trans (h b w hw) (hnow c (by simp))
    intro p hp
    rcases List.mem_cons.mp hp with rfl | hp
    · exact ⟨count_counted_pos, hstarted.counted (Nat.le_refl _), time_lt_counted hlength⟩
    · exact ih (hstarted.next (Nat.le_refl _)) hcalls.2 hcalls.1 p hp

end Counters

theorem length_le_of_counts (ps : List (Call × Window)) (n : Nat)
    (hp : ps.Pairwise fun p q => p.2.count < q.2.count)
    (hn : ∀ p ∈ ps, n < p.2.count ∧ p.2.count ≤ maxRequests) : ps.length ≤ maxRequests - n := by
  induction ps generalizing n with
  | nil => exact Nat.zero_le _
  | cons p ps ih =>
    rw [List.pairwise_cons] at hp
    obtain ⟨hfirst, hrest⟩ := List.forall_mem_cons.mp hn
    have hle := ih p.2.count hp.2 fun q hq => ⟨hp.1 q hq, (hrest q hq).2⟩
    rw [List.length_cons]
    omega

theorem length_le_of_one_window {ps : List (Call × Window)}
    (hp : ps.Pairwise fun p q => p.2.Precedes length q.2)
    (hone : ∀ p ∈ ps, ∀ q ∈ ps, ¬ p.2.start + length ≤ q.2.start)
    (hn : ∀ p ∈ ps, 0 < p.2.count ∧ p.2.count ≤ maxRequests) : ps.length ≤ maxRequests := by
  apply length_le_of_counts ps 0 _ hn
  apply hp.imp_of_mem
  intro p q hpm hqm h
  rcases h with h | h
  · exact h.2
  · exact absurd h (hone p hpm q hqm)

theorem length_le_of_two_windows {ps : List (Call × Window)}
    (hp : ps.Pairwise fun p q => p.2.Precedes length q.2)
    (hc : ∀ p ∈ ps, Counters.Counts length p.1 p.2)
    (ht : ∀ p ∈ ps, t ≤ p.1.time ∧ p.1.time < t + length)
    (hn : ∀ p ∈ ps, p.2.count ≤ maxRequests) : ps.length ≤ 2 * maxRequests := by
  have hpart : ∀ early : Bool,
      (ps.filter fun p => decide (p.2.start < t) == early).length ≤ maxRequests := by
    intro early
    apply length_le_of_one_window (hp.sublist List.filter_sublist)
    · intro p hpm q hqm h
      obtain ⟨hpm, hps⟩ := List.mem_filter.mp hpm
      obtain ⟨hqm, hqs⟩ := List.mem_filter.mp hqm
      have hlt := (hc p hpm).lt
      have hle := (hc q hqm).start
      have hpt := ht p hpm
      have hqt := ht q hqm
      have hside : p.2.start < t ↔ q.2.start < t := by
        rw [← decide_eq_decide, eq_of_beq hps, eq_of_beq hqs]
      omega
    · intro p hpm
      have hpm := (List.mem_filter.mp hpm).1
      exact ⟨(hc p hpm).count, hn p hpm⟩
  have hsplit := (List.filter_append_perm (fun p => decide (p.2.start < t)) ps).length_eq
  have hearly := hpart true
  have hlate := hpart false
  simp only [beq_true, beq_false] at hearly hlate
  rw [List.length_append] at hsplit
  omega

namespace RateLimiter

theorem length_allowed_le (maxRequests length : Nat) (calls : List Call) (a : Address) (t : Int)
    (hlength : 0 < length) (hcalls : calls.Pairwise fun c d => c.time ≤ d.time) :
    ((({ maxRequests, length } : RateLimiter).verdicts calls).filter fun p =>
      decide (p.1.address = a ∧ t ≤ p.1.time ∧ p.1.time < t + length ∧ p.2 = .allowed)).length ≤
        2 * maxRequests := by
  have hholds : ({ maxRequests, length } : RateLimiter).Holds Counters.fresh 0 :=
    holds_fresh maxRequests length 0
  rw [hholds.verdicts hlength hcalls fun d _ => Nat.zero_le d.time, Counters.verdicts_eq_windows,
    List.filter_map, List.length_map]
  have hcounts := Counters.counts_windows (Counters.startedBy_fresh 0) hlength hcalls
    fun d _ => Nat.zero_le d.time
  have hpairs := Counters.pairwise_windows Counters.fresh hlength calls
  apply length_le_of_two_windows (t := t)
  · apply (hpairs.sublist List.filter_sublist).imp_of_mem
    intro p q hp hq h
    simp only [List.mem_filter, Function.comp, decide_eq_true_eq] at hp hq
    exact h (hp.2.1.trans hq.2.1.symm)
  · intro p hp
    exact hcounts p (List.mem_filter.mp hp).1
  · intro p hp
    simp only [List.mem_filter, Function.comp, decide_eq_true_eq] at hp
    exact ⟨hp.2.2.1, hp.2.2.2.1⟩
  · intro p hp
    simp only [List.mem_filter, Function.comp, decide_eq_true_eq] at hp
    exact Counters.verdict_eq_allowed_iff.mp hp.2.2.2.2

theorem length_allowed_le_of_seam :
    let a : Address := .v4 1
    let length := 60 * second
    let t : Int := 30 * second
    let calls : List Call := [⟨a, 0⟩, ⟨a, 59 * second⟩, ⟨a, 59 * second⟩, ⟨.v4 2, 59 * second⟩,
      ⟨a, 60 * second⟩, ⟨a, 61 * second⟩, ⟨a, 61 * second⟩]
    let allowed := (({ maxRequests := 2, length } : RateLimiter).verdicts calls).filter fun p =>
      decide (p.1.address = a ∧ t ≤ p.1.time ∧ p.1.time < t + length ∧ p.2 = .allowed)
    0 < length ∧ (calls.Pairwise fun c d => c.time ≤ d.time) ∧
      allowed.map (fun p => p.1.time / second) = [59, 60, 61] ∧ allowed.length ≤ 2 * 2 := by
  intro a length t calls allowed
  have hlength : 0 < length := by decide
  have hcalls : calls.Pairwise fun c d => c.time ≤ d.time := by decide
  exact ⟨hlength, hcalls, by decide, length_allowed_le 2 length calls a t hlength hcalls⟩

end RateLimiter

end FuncScript
