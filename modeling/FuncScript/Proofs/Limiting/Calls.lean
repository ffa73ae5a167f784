import FuncScript.Service.RateLimiter

/-!
Calls of a limiter one after another. What a call does is said in terms of the windows that the
addresses have: the caller's window is counted up or made anew, and every other window stays unless
it has run out at the time of the call.
-/

namespace FuncScript

structure Call where
  address : Address
  time : Nat
  deriving DecidableEq, Repr

namespace RateLimiter

variable {l : RateLimiter} {a b : Address} {w : Window} {c : Call} {calls more : List Call}

def Tidy (l : RateLimiter) : Prop := (l.table.map Prod.fst).Nodup

def window? (l : RateLimiter) (a : Address) : Option Window := l.table.lookup a

def next (l : RateLimiter) (c : Call) : RateLimiter := (l.check c.address c.time).2

def after (l : RateLimiter) (calls : List Call) : RateLimiter := calls.foldl next l

def counted (l : RateLimiter) (c : Call) : Window :=
  match (l.window? c.address).filter (l.isOpen c.time) with
  | some w => ⟨w.count + 1, w.start⟩
  | none => ⟨1, c.time⟩

def windows (l : RateLimiter) : List Call → List (Call × Window)
  | [] => []
  | c :: rest => (c, l.counted c) :: (l.next c).windows rest

def verdicts (l : RateLimiter) : List Call → List (Call × Verdict)
  | [] => []
  | c :: rest => (c, (l.check c.address c.time).1) :: (l.next c).verdicts rest

theorem isOpen_iff {now : Nat} : l.isOpen now w = true ↔ now - w.start < l.length := by
  simp [isOpen]

theorem lookup_iff_mem {table : List (Address × Window)} (h : (table.map Prod.fst).Nodup) :
    table.lookup a = some w ↔ (a, w) ∈ table := by
  induction table with
  | nil => simp
  | cons e rest ih =>
    obtain ⟨b, v⟩ := e
    rw [List.map_cons, List.nodup_cons] at h
    rw [List.lookup_cons, List.mem_cons]
    by_cases hab : a = b
    · subst hab
      have hnot : (a, w) ∉ rest := fun hw => h.1 (List.mem_map.mpr ⟨_, hw, rfl⟩)
      simp [hnot, eq_comm]
    · have hne : (a == b) = false := by simpa using hab
      rw [hne]
      simp [hab, ih h.2]

theorem Tidy.window?_iff (h : l.Tidy) : l.window? a = some w ↔ (a, w) ∈ l.table :=
  lookup_iff_mem h

theorem lookup_filter {table : List (Address × Window)} (h : (table.map Prod.fst).Nodup)
    (p : Window → Bool) (a : Address) :
    (table.filter fun e => p e.2).lookup a = (table.lookup a).filter p := by
  have hf : ((table.filter fun e => p e.2).map Prod.fst).Nodup :=
    h.sublist (List.filter_sublist.map _)
  apply Option.ext
  intro w
  rw [lookup_iff_mem hf, List.mem_filter, Option.filter_eq_some_iff, lookup_iff_mem h]

theorem lookup_filter_ne {table : List (Address × Window)} (h : (table.map Prod.fst).Nodup)
    (hba : b ≠ a) : (table.filter fun e => decide (e.1 ≠ a)).lookup b = table.lookup b := by
  have hf : ((table.filter fun e => decide (e.1 ≠ a)).map Prod.fst).Nodup :=
    h.sublist (List.filter_sublist.map _)
  apply Option.ext
  intro w
  rw [lookup_iff_mem hf, List.mem_filter, lookup_iff_mem h]
  simp [hba]

@[simp] theorem maxRequests_next (l : RateLimiter) (c : Call) :
    (l.next c).maxRequests = l.maxRequests := rfl

@[simp] theorem length_next (l : RateLimiter) (c : Call) : (l.next c).length = l.length := rfl

theorem counted_eq (h : l.Tidy) (c : Call) :
    let kept := l.table.filter fun e => l.isOpen c.time e.2
    let before := (kept.lookup c.address).getD ⟨0, c.time⟩
    l.counted c = { before with count := before.count + 1 } := by
  simp only [counted, window?, lookup_filter h]
  cases (l.table.lookup c.address).filter (l.isOpen c.time) <;> rfl

theorem check_fst (h : l.Tidy) (c : Call) :
    (l.check c.address c.time).1 = l.verdict c.time (l.counted c) := by
  rw [counted_eq h]
  rfl

theorem table_next (h : l.Tidy) (c : Call) : (l.next c).table =
    (c.address, l.counted c) ::
      (l.table.filter fun e => l.isOpen c.time e.2).filter fun e => decide (e.1 ≠ c.address) := by
  rw [counted_eq h]
  rfl

theorem Tidy.next (h : l.Tidy) (c : Call) : (l.next c).Tidy := by
  rw [Tidy, table_next h, List.map_cons, List.nodup_cons]
  refine ⟨by simp, ?_⟩
  exact h.sublist ((List.filter_sublist.trans List.filter_sublist).map _)

theorem window?_next (h : l.Tidy) (c : Call) (b : Address) : (l.next c).window? b =
    if b = c.address then some (l.counted c) else (l.window? b).filter (l.isOpen c.time) := by
  rw [window?, table_next h, List.lookup_cons]
  by_cases hb : b = c.address
  · simp [hb]
  · have hne : (b == c.address) = false := by simpa using hb
    have hkept : ((l.table.filter fun e => l.isOpen c.time e.2).map Prod.fst).Nodup :=
      h.sublist (List.filter_sublist.map _)
    rw [hne, if_neg hb]
    exact (lookup_filter_ne hkept hb).trans (lookup_filter h _ b)

theorem window?_own (h : l.Tidy) (c : Call) :
    (l.next c).window? c.address = some (l.counted c) := by
  rw [window?_next h, if_pos rfl]

theorem tidy_fresh (maxRequests length : Nat) : ({ maxRequests, length } : RateLimiter).Tidy :=
  List.nodup_nil

theorem after_cons (l : RateLimiter) (c : Call) (calls : List Call) :
    l.after (c :: calls) = (l.next c).after calls := rfl

theorem after_append (l : RateLimiter) (calls more : List Call) :
    l.after (calls ++ more) = (l.after calls).after more := List.foldl_append

@[simp] theorem maxRequests_after (l : RateLimiter) (calls : List Call) :
    (l.after calls).maxRequests = l.maxRequests := by
  induction calls generalizing l with
  | nil => rfl
  | cons c calls ih => rw [after_cons, ih, maxRequests_next]

@[simp] theorem length_after (l : RateLimiter) (calls : List Call) :
    (l.after calls).length = l.length := by
  induction calls generalizing l with
  | nil => rfl
  | cons c calls ih => rw [after_cons, ih, length_next]

theorem Tidy.after (h : l.Tidy) (calls : List Call) : (l.after calls).Tidy := by
  induction calls generalizing l with
  | nil => exact h
  | cons c calls ih => exact ih (h.next c)

theorem verdicts_eq_map (h : l.Tidy) (calls : List Call) :
    l.verdicts calls = (l.windows calls).map fun p => (p.1, l.verdict p.1.time p.2) := by
  induction calls generalizing l with
  | nil => rfl
  | cons c calls ih =>
    rw [verdicts, windows, List.map_cons, check_fst h, ih (h.next c)]
    rfl

end RateLimiter

end FuncScript
