import FuncScript.Proofs.Limiting.Counters

/-!
When a caller who was refused is allowed again. That is from the end of its window on, whatever
other addresses do in between. The answer names whole seconds, and a second that has begun is not
among them unless it is the last: a caller who waits as long as it is told may come too early, by
less than a second.
-/

namespace FuncScript

namespace Counters

variable {counters : Counters} {c : Call} {calls : List Call} {length now : Nat}

def remaining (length : Nat) (counters : Counters) (c : Call) : Nat :=
  length - (c.time - (counters.counted length c).start)

def StartedBy (now : Nat) (counters : Counters) : Prop :=
  ∀ a w, counters a = some w → w.start ≤ now

theorem startedBy_fresh (now : Nat) : fresh.StartedBy now := by
  simp [StartedBy, fresh]

theorem StartedBy.counted (h : counters.StartedBy now) (hle : c.time ≤ now) :
    (counters.counted length c).start ≤ now := by
  rw [Counters.counted, current]
  cases hw : counters c.address with
  | none => exact hle
  | some w =>
    dsimp only
    split
    · exact hle
    · exact h _ w hw

theorem StartedBy.next (h : counters.StartedBy now) (hle : c.time ≤ now) :
    (counters.next length c).StartedBy now := by
  intro a w hw
  rw [Counters.next] at hw
  split at hw
  · exact Option.some.inj hw ▸ h.counted hle
  · exact h a w hw

theorem StartedBy.after (h : counters.StartedBy now) (hle : ∀ d ∈ calls, d.time ≤ now) :
    (counters.after length calls).StartedBy now := by
  induction calls generalizing counters with
  | nil => exact h
  | cons d calls ih =>
    obtain ⟨hd, hcalls⟩ := List.forall_mem_cons.mp hle
    exact ih (h.next hd) hcalls

end Counters

namespace RateLimiter

variable {l : RateLimiter} {a : Address} {w : Window} {c : Call} {calls between : List Call}
  {now r left : Nat}

theorem filter_window?_after (h : l.Tidy) (hothers : ∀ d ∈ calls, d.address ≠ a)
    (htimes : ∀ d ∈ calls, d.time ≤ now) :
    ((l.after calls).window? a).filter (l.isOpen now) = (l.window? a).filter (l.isOpen now) := by
  induction calls generalizing l with
  | nil => rfl
  | cons d calls ih =>
    obtain ⟨hd, hothers⟩ := List.forall_mem_cons.mp hothers
    obtain ⟨hle, htimes⟩ := List.forall_mem_cons.mp htimes
    refine (ih (h.next d) hothers htimes).trans ?_
    rw [window?_next h, if_neg (Ne.symm hd), Option.filter_filter]
    congr 1
    funext w
    -- What is open at the later time was open when the other call came.
    have hopen : l.isOpen now w = true → l.isOpen d.time w = true := by
      rw [isOpen_iff, isOpen_iff]
      omega
    exact Bool.and_eq_right_iff_imp.mpr hopen

theorem counted_of_open (h : (l.window? c.address).filter (l.isOpen c.time) = some w) :
    l.counted c = ⟨w.count + 1, w.start⟩ := by
  rw [RateLimiter.counted, h]

theorem counted_of_over (h : (l.window? c.address).filter (l.isOpen c.time) = none) :
    l.counted c = ⟨1, c.time⟩ := by
  rw [RateLimiter.counted, h]

theorem allowed_iff (h : l.Tidy) :
    (l.check c.address c.time).1 = .allowed ↔ (l.counted c).count ≤ l.maxRequests := by
  rw [check_fst h, verdict]
  split
  · next hlt => simp [hlt]
  · next hle => simpa using hle

theorem retryAfter_iff (h : l.Tidy) : (l.check c.address c.time).1 = .retryAfter r ↔
    l.maxRequests < (l.counted c).count ∧
      r = max 1 ((l.length - (c.time - (l.counted c).start)) / second) := by
  rw [check_fst h, verdict]
  split
  · next hlt => simp [hlt, eq_comm]
  · next hle => simp [hle]

theorem allowed_iff_over (h : l.Tidy) (hmax : 0 < l.maxRequests)
    (hrefused : l.maxRequests < (l.counted c).count)
    (hothers : ∀ d ∈ between, d.address ≠ c.address) (htimes : ∀ d ∈ between, d.time ≤ now) :
    ((l.after (c :: between)).check c.address now).1 = .allowed ↔
      l.length ≤ now - (l.counted c).start := by
  have hwindow : ((l.after (c :: between)).window? c.address).filter
      ((l.after (c :: between)).isOpen now) = (some (l.counted c)).filter (l.isOpen now) := by
    have hkept := filter_window?_after (h.next c) hothers htimes
    rw [window?_own h] at hkept
    have hopens : (l.after (c :: between)).isOpen now = l.isOpen now := by
      funext w
      rw [isOpen, isOpen, length_after]
    rw [hopens]
    exact hkept
  rw [allowed_iff (c := ⟨c.address, now⟩) (h.after _), maxRequests_after]
  by_cases hover : l.length ≤ now - (l.counted c).start
  · have hover' : l.isOpen now (l.counted c) = false := by simpa [isOpen] using hover
    rw [Option.filter_some, hover', if_neg Bool.false_ne_true] at hwindow
    rw [counted_of_over (c := ⟨c.address, now⟩) hwindow]
    exact iff_of_true hmax hover
  · have hopen : l.isOpen now (l.counted c) = true := isOpen_iff.mpr (Nat.not_le.mp hover)
    rw [Option.filter_some, if_pos hopen] at hwindow
    rw [counted_of_open (c := ⟨c.address, now⟩) hwindow]
    exact iff_of_false (Nat.not_le.mpr (Nat.lt_succ_of_lt hrefused)) hover

theorem le_whole_seconds_iff :
    left ≤ max 1 (left / second) * second ↔ left < second ∨ second ∣ left := by
  have hsecond : second = 1000000000 := rfl
  rw [hsecond]
  omega

theorem le_next_second : left ≤ (max 1 (left / second) + 1) * second := by
  have hsecond : second = 1000000000 := rfl
  rw [hsecond]
  omega

theorem counted_eq_counters (maxRequests : Nat) {length : Nat} {before : List Call}
    (hlength : 0 < length) (hcalls : (before ++ [c]).Pairwise fun d e => d.time ≤ e.time) :
    (({ maxRequests, length } : RateLimiter).after before).counted c =
      (Counters.fresh.after length before).counted length c := by
  have hholds := (holds_fresh maxRequests length 0).after hlength hcalls fun d _ => Nat.zero_le _
  have hwindow := window?_own ((tidy_fresh maxRequests length).after before) c
  rw [after_append] at hholds
  have hcounters := (hholds.window?_iff.mp hwindow).1
  rw [Counters.after, List.foldl_append] at hcounters
  exact (Option.some.inj ((if_pos rfl).symm.trans hcounters)).symm

/-- A caller who was refused with an answer of `r` seconds is allowed again as soon as the time that
was left of its window has passed, and so at the latest when it waits one second more than `r`. If it
waits for `r` seconds it is allowed only where whole seconds were left, or less than one. -/
theorem allowed_after_retry_iff (maxRequests length r : Nat) (before between : List Call) (c : Call)
    (hmax : 0 < maxRequests) (hlength : 0 < length)
    (hcalls : (before ++ c :: between).Pairwise fun d e => d.time ≤ e.time)
    (hothers : ∀ d ∈ between, d.address ≠ c.address)
    (hrefused : ((({ maxRequests, length } : RateLimiter).after before).check c.address c.time).1 =
      .retryAfter r) :
    let l : RateLimiter := { maxRequests, length }
    let left := (Counters.fresh.after length before).remaining length c
    1 ≤ r ∧
      (∀ now, (∀ d ∈ c :: between, d.time ≤ now) →
        (((l.after (before ++ c :: between)).check c.address now).1 = .allowed ↔
          left ≤ now - c.time)) ∧
      ((∀ d ∈ between, d.time ≤ c.time + r * second) →
        (((l.after (before ++ c :: between)).check c.address (c.time + r * second)).1 = .allowed ↔
          left < second ∨ second ∣ left)) ∧
      ((∀ d ∈ between, d.time ≤ c.time + (r + 1) * second) →
        ((l.after (before ++ c :: between)).check c.address (c.time + (r + 1) * second)).1 =
          .allowed) := by
  intro l left
  have htidy : (l.after before).Tidy := (tidy_fresh maxRequests length).after before
  rw [List.append_cons, List.pairwise_append] at hcalls
  obtain ⟨hcount, hr⟩ := (retryAfter_iff htidy).mp hrefused
  have hcounted := counted_eq_counters maxRequests hlength hcalls.1
  have hstart : ((l.after before).counted c).start ≤ c.time := by
    have hbefore : ∀ d ∈ before, d.time ≤ c.time := fun d hd =>
      (List.pairwise_append.mp hcalls.1).2.2 d hd c (by simp)
    rw [hcounted]
    exact ((Counters.startedBy_fresh c.time).after hbefore).counted (Nat.le_refl _)
  have hleft : left = length - (c.time - ((l.after before).counted c).start) := by rw [hcounted]; rfl
  -- Nothing but the time since the call decides: the window stays, whoever calls in between.
  have hagain : ∀ now, (∀ d ∈ c :: between, d.time ≤ now) →
      (((l.after (before ++ c :: between)).check c.address now).1 = .allowed ↔
        left ≤ now - c.time) := by
    intro now htimes
    obtain ⟨hle, htimes⟩ := List.forall_mem_cons.mp htimes
    have hover := allowed_iff_over htidy (by simpa using hmax) hcount hothers htimes
    rw [after_append, hover, length_after, hleft]
    change length ≤ _ ↔ _
    omega
  rw [length_after] at hr
  change r = max 1 ((length - _) / second) at hr
  rw [← hleft] at hr
  have hwaits : ∀ k, (∀ d ∈ between, d.time ≤ c.time + k * second) →
      (((l.after (before ++ c :: between)).check c.address (c.time + k * second)).1 = .allowed ↔
        left ≤ k * second) := by
    intro k htimes
    have h := hagain (c.time + k * second)
      (List.forall_mem_cons.mpr ⟨Nat.le_add_right _ _, htimes⟩)
    rwa [Nat.add_sub_cancel_left] at h
  refine ⟨hr ▸ Nat.le_max_left _ _, hagain, fun htimes => ?_, fun htimes => ?_⟩
  · rw [hwaits r htimes, hr, le_whole_seconds_iff]
  · rw [hwaits (r + 1) htimes, hr]
    exact le_next_second

theorem allowed_after_retry_iff_of_half :
    let a : Address := .v4 1
    let b : Address := .v4 2
    let l : RateLimiter := { maxRequests := 1, length := 60 * second }
    let before : List Call := [⟨a, 0⟩]
    let c : Call := ⟨a, second / 2⟩
    let between : List Call := [⟨b, 30 * second⟩]
    (0 < 1 ∧ 0 < 60 * second ∧
      ((before ++ c :: between).Pairwise fun d e => d.time ≤ e.time) ∧
      (∀ d ∈ between, d.address ≠ c.address) ∧
      ((l.after before).check c.address c.time).1 = .retryAfter 59) ∧
    ((l.after (before ++ c :: between)).check a (second / 2 + 59 * second)).1 ≠ .allowed ∧
    ((l.after (before ++ c :: between)).check a (second / 2 + 60 * second)).1 = .allowed := by
  intro a b l before c between
  have hcalls : (before ++ c :: between).Pairwise fun d e => d.time ≤ e.time := by decide
  have hothers : ∀ d ∈ between, d.address ≠ c.address := by decide
  have hrefused : ((l.after before).check c.address c.time).1 = .retryAfter 59 := by decide
  obtain ⟨-, -, hretry, hlater⟩ := allowed_after_retry_iff 1 (60 * second) 59 before between c
    (by decide) (by decide) hcalls hothers hrefused
  refine ⟨⟨by decide, by decide, hcalls, hothers, hrefused⟩, ?_, hlater (by decide)⟩
  rw [Ne, hretry (by decide)]
  decide

theorem not_allowed_after_retry :
    ¬ ∀ (maxRequests length r : Nat) (before between : List Call) (c : Call),
      0 < maxRequests → 0 < length →
      ((before ++ c :: (between ++ [⟨c.address, c.time + r * second⟩])).Pairwise
        fun d e => d.time ≤ e.time) →
      (∀ d ∈ between, d.address ≠ c.address) →
      ((({ maxRequests, length } : RateLimiter).after before).check c.address c.time).1 =
        .retryAfter r →
      1 ≤ r ∧ ((({ maxRequests, length } : RateLimiter).after (before ++ c :: between)).check
        c.address (c.time + r * second)).1 = .allowed := by
  intro h
  have hagain := h 1 (60 * second) 59 [⟨.v4 0x0A000001, 0⟩] [] ⟨.v4 0x0A000001, second / 2⟩
    (by decide) (by decide) (by decide) (by decide) (by decide)
  revert hagain
  decide

end RateLimiter

end FuncScript
