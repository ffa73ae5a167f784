import FuncScript.Proofs.Limiting.Calls

/-!
The limiter against counters that nothing ever removes, one for each address. As long as time runs
forward both give the same verdicts, and the table holds those windows of the counters that are open.
-/

namespace FuncScript

def Counters := Address → Option Window

namespace Counters

variable {counters : Counters} {a : Address} {c : Call} {calls : List Call}
  {maxRequests length now : Nat}

def fresh : Counters := fun _ => none

def current (length : Nat) (counters : Counters) (c : Call) : Window :=
  match counters c.address with
  | some w => if length ≤ c.time - w.start then ⟨0, c.time⟩ else w
  | none => ⟨0, c.time⟩

def counted (length : Nat) (counters : Counters) (c : Call) : Window :=
  ⟨(counters.current length c).count + 1, (counters.current length c).start⟩

def next (length : Nat) (counters : Counters) (c : Call) : Counters :=
  fun a => if a = c.address then some (counters.counted length c) else counters a

def after (length : Nat) (counters : Counters) (calls : List Call) : Counters :=
  calls.foldl (next length) counters

def verdict (maxRequests length now : Nat) (w : Window) : Verdict :=
  if w.count ≤ maxRequests then .allowed
  else .retryAfter (max 1 ((length - (now - w.start)) / 1000000000))

def verdicts (maxRequests length : Nat) (counters : Counters) : List Call → List (Call × Verdict)
  | [] => []
  | c :: rest =>
    (c, verdict maxRequests length c.time (counters.counted length c)) ::
      verdicts maxRequests length (counters.next length c) rest

theorem counted_congr {others : Counters} (h : counters c.address = others c.address) :
    counters.counted length c = others.counted length c := by
  simp only [counted, current, h]

theorem next_of_ne (h : c.address ≠ a) : counters.next length c a = counters a :=
  if_neg (Ne.symm h)

theorem verdicts_filter {others : Counters} (h : counters a = others a) (calls : List Call) :
    (counters.verdicts maxRequests length calls).filter (fun p => decide (p.1.address = a)) =
      others.verdicts maxRequests length (calls.filter fun c => decide (c.address = a)) := by
  induction calls generalizing counters others with
  | nil => rfl
  | cons c calls ih =>
    rw [verdicts]
    by_cases hc : c.address = a
    · subst hc
      have hw : counters.counted length c = others.counted length c := counted_congr h
      have hnext : counters.next length c c.address = others.next length c c.address := by
        simp only [next, if_true, hw]
      rw [List.filter_cons_of_pos (by simp), List.filter_cons_of_pos (by simp), verdicts, hw,
        ih hnext]
    · rw [List.filter_cons_of_neg (by simpa using hc), List.filter_cons_of_neg (by simpa using hc)]
      exact ih ((next_of_ne hc).trans h)

end Counters

namespace RateLimiter

variable {l : RateLimiter} {counters : Counters} {a : Address} {w : Window} {c : Call}
  {calls : List Call} {now : Nat}

/-- The table holds the windows of the counters that are open at a time, each once, and no other. -/
structure Holds (l : RateLimiter) (counters : Counters) (now : Nat) : Prop where
  tidy : l.Tidy
  mem_iff : ∀ a w, (a, w) ∈ l.table ↔ counters a = some w ∧ now - w.start < l.length

theorem holds_fresh (maxRequests length now : Nat) :
    ({ maxRequests, length } : RateLimiter).Holds Counters.fresh now :=
  ⟨tidy_fresh maxRequests length, fun a w => by simp [Counters.fresh]⟩

theorem Holds.window?_iff (h : l.Holds counters now) :
    l.window? a = some w ↔ counters a = some w ∧ now - w.start < l.length :=
  h.tidy.window?_iff.trans (h.mem_iff a w)

theorem Holds.filter_window? (h : l.Holds counters now) {later : Nat} (hle : now ≤ later)
    (a : Address) : (l.window? a).filter (l.isOpen later) = (counters a).filter (l.isOpen later) := by
  apply Option.ext
  intro w
  rw [Option.filter_eq_some_iff, Option.filter_eq_some_iff, h.window?_iff, isOpen_iff]
  constructor
  · exact fun ⟨⟨hw, _⟩, ho⟩ => ⟨hw, ho⟩
  · exact fun ⟨hw, ho⟩ => ⟨⟨hw, by omega⟩, ho⟩

theorem Holds.counted (h : l.Holds counters now) (hle : now ≤ c.time) :
    l.counted c = counters.counted l.length c := by
  rw [RateLimiter.counted, h.filter_window? hle, Counters.counted, Counters.current]
  cases counters c.address with
  | none => rfl
  | some w =>
    by_cases ho : c.time - w.start < l.length
    · rw [Option.filter_some, if_pos (isOpen_iff.mpr ho)]
      dsimp only
      rw [if_neg (Nat.not_le.mpr ho)]
    · have hclosed : l.isOpen c.time w = false := by simpa [isOpen] using ho
      rw [Option.filter_some, hclosed]
      dsimp only [Bool.false_eq_true, if_false]
      rw [if_pos (Nat.not_lt.mp ho)]
      rfl

theorem Holds.verdict (h : l.Holds counters now) (hle : now ≤ c.time) :
    (l.check c.address c.time).1 =
      Counters.verdict l.maxRequests l.length c.time (counters.counted l.length c) := by
  rw [check_fst h.tidy, h.counted hle, RateLimiter.verdict, Counters.verdict]
  by_cases hw : (counters.counted l.length c).count ≤ l.maxRequests
  · rw [if_neg (Nat.not_lt.mpr hw), if_pos hw]
  · rw [if_pos (Nat.not_le.mp hw), if_neg hw]
    rfl

theorem isOpen_counted (hlength : 0 < l.length) (c : Call) :
    l.isOpen c.time (l.counted c) = true := by
  rw [isOpen_iff, RateLimiter.counted]
  cases hw : (l.window? c.address).filter (l.isOpen c.time) with
  | none =>
    dsimp only
    omega
  | some w =>
    obtain ⟨_, ho⟩ := Option.filter_eq_some_iff.mp hw
    exact isOpen_iff.mp ho

theorem Holds.next (h : l.Holds counters now) (hlength : 0 < l.length) (hle : now ≤ c.time) :
    (l.next c).Holds (counters.next l.length c) c.time := by
  refine ⟨h.tidy.next c, fun a w => ?_⟩
  rw [← (h.tidy.next c).window?_iff, window?_next h.tidy, Counters.next, length_next]
  by_cases ha : a = c.address
  · rw [if_pos ha, if_pos ha, ← h.counted hle]
    constructor
    · intro hw
      exact ⟨hw, Option.some.inj hw ▸ isOpen_iff.mp (isOpen_counted hlength c)⟩
    · exact fun hw => hw.1
  · rw [if_neg ha, if_neg ha, h.filter_window? hle, Option.filter_eq_some_iff, isOpen_iff]

theorem Holds.after (h : l.Holds counters now) (hlength : 0 < l.length)
    (hcalls : (calls ++ [c]).Pairwise fun d e => d.time ≤ e.time)
    (hnow : ∀ d ∈ calls ++ [c], now ≤ d.time) :
    (l.after (calls ++ [c])).Holds (counters.after l.length (calls ++ [c])) c.time := by
  induction calls generalizing l counters now with
  | nil => exact h.next hlength (hnow c (by simp))
  | cons d calls ih =>
    rw [List.cons_append, List.pairwise_cons] at hcalls
    exact ih (h.next hlength (hnow d (by simp))) hlength hcalls.2 hcalls.1

theorem Holds.verdicts (h : l.Holds counters now) (hlength : 0 < l.length)
    (hcalls : calls.Pairwise fun d e => d.time ≤ e.time) (hnow : ∀ d ∈ calls, now ≤ d.time) :
    l.verdicts calls = counters.verdicts l.maxRequests l.length calls := by
  induction calls generalizing l counters now with
  | nil => rfl
  | cons d calls ih =>
    rw [List.pairwise_cons] at hcalls
    have hle : now ≤ d.time := hnow d (by simp)
    rw [RateLimiter.verdicts, Counters.verdicts, h.verdict hle,
      ih (h.next hlength hle) hlength hcalls.2 hcalls.1]
    rfl

theorem mem_table_next (h : l.Tidy) (hw : (c.address, w) ∈ l.table)
    (ho : c.time - w.start < l.length) :
    (c.address, (⟨w.count + 1, w.start⟩ : Window)) ∈ (l.next c).table := by
  have hfilter : (l.window? c.address).filter (l.isOpen c.time) = some w :=
    Option.filter_eq_some_iff.mpr ⟨h.window?_iff.mpr hw, isOpen_iff.mpr ho⟩
  rw [table_next h, RateLimiter.counted, hfilter]
  exact List.mem_cons_self

/-- While time runs forward, the verdicts are those of counters that each address has for itself,
and the table holds their open windows. No address learns of the others, and no call makes an open
window last longer. -/
theorem verdicts_eq_counters (maxRequests length : Nat) (calls : List Call) (hlength : 0 < length)
    (hcalls : calls.Pairwise fun c d => c.time ≤ d.time) :
    let l : RateLimiter := { maxRequests, length }
    l.verdicts calls = Counters.fresh.verdicts maxRequests length calls ∧
      (∀ before c behind, calls = before ++ c :: behind →
        (l.after (before ++ [c])).Holds (Counters.fresh.after length (before ++ [c])) c.time) ∧
      (∀ a, (l.verdicts calls).filter (fun p => decide (p.1.address = a)) =
        l.verdicts (calls.filter fun c => decide (c.address = a))) ∧
      ∀ before c behind w, calls = before ++ c :: behind →
        (c.address, w) ∈ (l.after before).table → c.time - w.start < length →
          (c.address, (⟨w.count + 1, w.start⟩ : Window)) ∈ (l.after (before ++ [c])).table := by
  intro l
  have hholds : l.Holds Counters.fresh 0 := holds_fresh maxRequests length 0
  have hverdicts := hholds.verdicts hlength hcalls fun d _ => Nat.zero_le d.time
  refine ⟨hverdicts, ?_, fun a => ?_, ?_⟩
  · rintro before c behind rfl
    rw [List.append_cons] at hcalls
    exact hholds.after hlength (List.pairwise_append.mp hcalls).1 fun d _ => Nat.zero_le d.time
  · have hown := hholds.verdicts hlength (hcalls.filter fun c => decide (c.address = a))
      fun d _ => Nat.zero_le d.time
    rw [hverdicts, hown]
    exact Counters.verdicts_filter rfl calls
  · rintro before c behind w rfl hw ho
    rw [after_append]
    exact mem_table_next ((tidy_fresh maxRequests length).after before) hw
      (by rwa [length_after])

theorem verdicts_eq_counters_of_boundary :
    let a : Address := .v4 1
    let b : Address := .v4 2
    let l : RateLimiter := { maxRequests := 1, length := 60 * second }
    let calls : List Call :=
      [⟨a, 0⟩, ⟨b, 30 * second⟩, ⟨a, 59 * second⟩, ⟨b, 60 * second⟩, ⟨a, 60 * second⟩]
    0 < 60 * second ∧ (calls.Pairwise fun c d => c.time ≤ d.time) ∧
      (l.verdicts calls).map Prod.snd =
        [.allowed, .allowed, .retryAfter 1, .retryAfter 30, .allowed] ∧
      (l.after calls).Holds (Counters.fresh.after (60 * second) calls) (60 * second) := by
  intro a b l calls
  have hlength : 0 < 60 * second := by decide
  have hcalls : calls.Pairwise fun c d => c.time ≤ d.time := by decide
  obtain ⟨hverdicts, hholds, _⟩ := verdicts_eq_counters 1 (60 * second) calls hlength hcalls
  refine ⟨hlength, hcalls, ?_, hholds (calls.take 4) ⟨a, 60 * second⟩ [] rfl⟩
  rw [hverdicts]
  decide

end RateLimiter

end FuncScript
