import FuncScript.Proofs.Limiting.Calls

/-!
What the calls of other addresses do to an address when the times of calls jump back and forth.
Each call drops the windows that have run out at its own time. That goes unnoticed unless an owner
comes later with an earlier time at which the window would still have been open.
-/

namespace FuncScript.RateLimiter

variable {l m : RateLimiter} {a : Address} {w : Window} {c d : Call} {calls : List Call}

/-- Whether no window of an address is dropped early, for a limiter that has only seen the calls of
this address: a window that is open at the next call of the address is open at all calls of others
before that one. -/
def Undisturbed (m : RateLimiter) (a : Address) : List Call → Prop
  | [] => True
  | c :: rest =>
    if c.address = a then (m.next c).Undisturbed a rest
    else
      (∀ w ∈ m.window? a, ∀ d ∈ rest.find? fun d => decide (d.address = a),
        m.isOpen d.time w = true → m.isOpen c.time w = true) ∧ m.Undisturbed a rest

theorem undisturbed_own (hc : c.address = a) :
    m.Undisturbed a (c :: calls) ↔ (m.next c).Undisturbed a calls := by
  rw [Undisturbed, if_pos hc]

theorem undisturbed_other (hc : c.address ≠ a) : m.Undisturbed a (c :: calls) ↔
    (∀ w ∈ m.window? a, ∀ d ∈ calls.find? fun d => decide (d.address = a),
      m.isOpen d.time w = true → m.isOpen c.time w = true) ∧ m.Undisturbed a calls := by
  rw [Undisturbed, if_neg hc]

theorem isOpen_of_le (hle : c.time ≤ d.time) (h : m.isOpen d.time w = true) :
    m.isOpen c.time w = true := by
  rw [isOpen_iff] at *
  omega

theorem undisturbed_of_pairwise
    (h : calls.Pairwise fun c d => c.address ≠ a → d.address = a → c.time ≤ d.time) :
    m.Undisturbed a calls := by
  induction calls generalizing m with
  | nil => trivial
  | cons c calls ih =>
    rw [List.pairwise_cons] at h
    by_cases hc : c.address = a
    · exact (undisturbed_own hc).mpr (ih h.2)
    · refine (undisturbed_other hc).mpr ⟨fun w _ d hd => ?_, ih h.2⟩
      have hown : d.address = a := by simpa using List.find?_some hd
      exact isOpen_of_le (h.1 d (List.mem_of_find?_eq_some hd) hc hown)

structure Within (l m : RateLimiter) (a : Address) : Prop where
  shared : l.Tidy
  alone : m.Tidy
  length : l.length = m.length
  window : ∀ w ∈ l.window? a, m.window? a = some w
  counts : ∀ w ∈ m.window? a, 0 < w.count

theorem Within.isOpen (h : l.Within m a) (now : Nat) (w : Window) :
    l.isOpen now w = m.isOpen now w := by
  rw [RateLimiter.isOpen, RateLimiter.isOpen, h.length]

theorem within_fresh (maxRequests length : Nat) (a : Address) :
    ({ maxRequests, length } : RateLimiter).Within { maxRequests, length } a := by
  refine ⟨tidy_fresh _ _, tidy_fresh _ _, rfl, ?_, ?_⟩ <;> simp [window?]

theorem Within.next_other (h : l.Within m a) (hc : c.address ≠ a) : (l.next c).Within m a := by
  refine ⟨h.shared.next c, h.alone, h.length, fun w hw => ?_, h.counts⟩
  rw [window?_next h.shared, if_neg (Ne.symm hc)] at hw
  exact h.window w (Option.filter_eq_some_iff.mp hw).1

theorem counted_pos (c : Call) : 0 < (l.counted c).count := by
  rw [counted]
  split <;> exact Nat.succ_pos _

theorem Within.next_own (h : l.Within m c.address) (heq : l.counted c = m.counted c) :
    (l.next c).Within (m.next c) c.address := by
  refine ⟨h.shared.next c, h.alone.next c, h.length, fun w hw => ?_, fun w hw => ?_⟩
  · rw [window?_own h.shared] at hw
    rw [window?_own h.alone, ← heq]
    exact hw
  · rw [window?_own h.alone] at hw
    exact Option.some.inj hw ▸ counted_pos c

theorem Within.counted_iff (h : l.Within m c.address) : l.counted c = m.counted c ↔
    ∀ w ∈ m.window? c.address, m.isOpen c.time w = true → l.window? c.address = some w := by
  constructor
  · intro heq w hw ho
    cases hl : l.window? c.address with
    | some v => exact (h.window v hl).symm.trans hw
    | none =>
      have hfilter : (m.window? c.address).filter (m.isOpen c.time) = some w :=
        Option.filter_eq_some_iff.mpr ⟨hw, ho⟩
      rw [counted, counted, hl, hfilter] at heq
      have hcount : 1 = w.count + 1 := congrArg Window.count heq
      have := h.counts w hw
      omega
  · intro hall
    have hfilter : (l.window? c.address).filter (l.isOpen c.time) =
        (m.window? c.address).filter (m.isOpen c.time) := by
      apply Option.ext
      intro w
      rw [Option.filter_eq_some_iff, Option.filter_eq_some_iff, h.isOpen]
      constructor
      · rintro ⟨hw, ho⟩
        exact ⟨h.window w hw, ho⟩
      · rintro ⟨hw, ho⟩
        exact ⟨hall w hw ho, ho⟩
    rw [counted, counted, hfilter]

theorem Within.windows_iff (h : l.Within m a) (calls : List Call) :
    (l.windows calls).filter (fun p => decide (p.1.address = a)) =
        m.windows (calls.filter fun c => decide (c.address = a)) ↔
      (∀ w ∈ m.window? a, ∀ d ∈ calls.find? fun d => decide (d.address = a),
        m.isOpen d.time w = true → l.window? a = some w) ∧ m.Undisturbed a calls := by
  induction calls generalizing l m with
  | nil => simp [windows, Undisturbed]
  | cons c calls ih =>
    rw [windows]
    by_cases hc : c.address = a
    · subst hc
      rw [List.filter_cons_of_pos (by simp), List.filter_cons_of_pos (by simp), windows,
        List.cons.injEq, Prod.mk.injEq, List.find?_cons_of_pos (by simp), undisturbed_own rfl]
      have hcounted : l.counted c = m.counted c ↔ ∀ w ∈ m.window? c.address, ∀ d ∈ some c,
          m.isOpen d.time w = true → l.window? c.address = some w := by
        simpa using h.counted_iff
      constructor
      · rintro ⟨⟨-, heq⟩, hrest⟩
        exact ⟨hcounted.mp heq, ((ih (h.next_own heq)).mp hrest).2⟩
      · rintro ⟨hall, hrest⟩
        have heq := hcounted.mpr hall
        refine ⟨⟨rfl, heq⟩, (ih (h.next_own heq)).mpr ⟨fun w hw _ _ _ => ?_, hrest⟩⟩
        rw [window?_own h.alone] at hw
        rw [window?_own h.shared, heq]
        exact hw
    · rw [List.filter_cons_of_neg (by simpa using hc), List.filter_cons_of_neg (by simpa using hc),
        ih (h.next_other hc), List.find?_cons_of_neg (by simpa using hc), undisturbed_other hc,
        window?_next h.shared, if_neg (Ne.symm hc)]
      -- The window is there behind the call if it was there before it and is open at it.
      constructor
      · rintro ⟨hall, hrest⟩
        refine ⟨fun w hw d hd ho => ?_, fun w hw d hd ho => ?_, hrest⟩
        · exact (Option.filter_eq_some_iff.mp (hall w hw d hd ho)).1
        · rw [← h.isOpen]
          exact (Option.filter_eq_some_iff.mp (hall w hw d hd ho)).2
      · rintro ⟨hthere, hopen, hrest⟩
        refine ⟨fun w hw d hd ho => Option.filter_eq_some_iff.mpr ⟨hthere w hw d hd ho, ?_⟩, hrest⟩
        rw [h.isOpen]
        exact hopen w hw d hd ho

theorem verdicts_of_windows (h : l.Tidy)
    (heq : (l.windows calls).filter (fun p => decide (p.1.address = a)) =
      l.windows (calls.filter fun c => decide (c.address = a))) :
    (l.verdicts calls).filter (fun p => decide (p.1.address = a)) =
      l.verdicts (calls.filter fun c => decide (c.address = a)) := by
  rw [verdicts_eq_map h, verdicts_eq_map h, ← heq, List.filter_map]
  rfl

/-- An address gets the verdicts that it would get alone if none of its windows is dropped early,
and that is the case exactly if each of its calls is counted in the same window as it would be alone.
Times that do not run back from a call of another address to one of this address are enough. -/
theorem verdicts_alone (maxRequests length : Nat) (a : Address) (calls : List Call) :
    let l : RateLimiter := { maxRequests, length }
    (l.Undisturbed a calls →
      (l.verdicts calls).filter (fun p => decide (p.1.address = a)) =
        l.verdicts (calls.filter fun c => decide (c.address = a))) ∧
    (l.Undisturbed a calls ↔
      (l.windows calls).filter (fun p => decide (p.1.address = a)) =
        l.windows (calls.filter fun c => decide (c.address = a))) ∧
    ((calls.Pairwise fun c d => c.address ≠ a → d.address = a → c.time ≤ d.time) →
      l.Undisturbed a calls) := by
  intro l
  have hwindows := (within_fresh maxRequests length a).windows_iff calls
  have hundisturbed : l.Undisturbed a calls ↔
      (l.windows calls).filter (fun p => decide (p.1.address = a)) =
        l.windows (calls.filter fun c => decide (c.address = a)) :=
    ⟨fun h => hwindows.mpr ⟨fun _ hw _ _ _ => hw, h⟩, fun h => (hwindows.mp h).2⟩
  refine ⟨fun h => ?_, hundisturbed, undisturbed_of_pairwise⟩
  exact verdicts_of_windows (tidy_fresh maxRequests length) (hundisturbed.mp h)

theorem verdicts_alone_of_expired :
    let l : RateLimiter := { maxRequests := 1, length := 60 * second }
    let calls : List Call :=
      [⟨.v4 1, 0⟩, ⟨.v4 2, 90 * second⟩, ⟨.v4 1, 60 * second⟩, ⟨.v4 2, 0⟩, ⟨.v4 1, 61 * second⟩]
    l.Undisturbed (.v4 1) calls ∧
      (l.verdicts calls).filter (fun p => decide (p.1.address = .v4 1)) =
        [(⟨.v4 1, 0⟩, .allowed), (⟨.v4 1, 60 * second⟩, .allowed),
          (⟨.v4 1, 61 * second⟩, .retryAfter 59)] := by
  intro l calls
  obtain ⟨hverdicts, hiff, _⟩ := verdicts_alone 1 (60 * second) (.v4 1) calls
  have h : l.Undisturbed (.v4 1) calls := hiff.mpr (by decide)
  exact ⟨h, (hverdicts h).trans (by decide)⟩

theorem not_verdicts_alone :
    ¬ ∀ (maxRequests length : Nat) (a : Address) (calls : List Call),
      (({ maxRequests, length } : RateLimiter).verdicts calls).filter
          (fun p => decide (p.1.address = a)) =
        ({ maxRequests, length } : RateLimiter).verdicts
          (calls.filter fun c => decide (c.address = a)) := by
  intro h
  have heq := h 1 (60 * second) (.v4 0x0A000001)
    [⟨.v4 0x0A000001, 0⟩, ⟨.v4 0x0A000002, 60 * second⟩, ⟨.v4 0x0A000001, 59 * second⟩]
  revert heq
  decide

end FuncScript.RateLimiter
