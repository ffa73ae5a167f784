import FuncScript.Proofs.Complaints
import FuncScript.Proofs.LineBreak.Rule

/-!
Notes on a text and on its conversion make the same error: the same is expected, at the same line
and column.
-/

namespace FuncScript

open LineBreak

variable {x : List Char} {i j k n : Nat}

namespace Converted

variable {notes notes' : List Note} {m : Nat}

theorem mem (h : Converted x notes notes') {n : Note} (hn : n ∈ notes) :
    (shift x n.1, n.2) ∈ notes' := by
  induction h with
  | nil => simp at hn
  | note n' _ ih =>
    rcases List.mem_cons.mp hn with rfl | hn
    · exact List.mem_cons_self
    · exact List.mem_cons_of_mem _ (ih hn)
  | between _ _ _ _ ih => exact List.mem_cons_of_mem _ (ih hn)

theorem le (h : Converted x notes notes') (hm : ∀ n ∈ notes, n.1 ≤ m) :
    ∀ n ∈ notes', n.1 ≤ shift x m := by
  induction h with
  | nil => simp
  | note n _ ih =>
    obtain ⟨hn, hm⟩ := List.forall_mem_cons.mp hm
    exact List.forall_mem_cons.mpr ⟨shift_le hn, ih hm⟩
  | @between _ _ k e hk hn _ ih =>
    obtain ⟨n, hmem, hlt⟩ := hn
    refine List.forall_mem_cons.mpr ⟨?_, ih hm⟩
    have hle : shift x (k + 1) ≤ shift x m := shift_le (Nat.le_trans hlt (hm n hmem))
    rw [shift_succ hk, if_pos rfl] at hle
    dsimp only
    omega

theorem notedAt (h : Converted x notes notes') (hm : ∀ n ∈ notes, n.1 ≤ m) (hx : m ≤ x.length) :
    FuncScript.notedAt (shift x m) notes' = FuncScript.notedAt m notes := by
  induction h with
  | nil => rfl
  | note n _ ih =>
    obtain ⟨hn, hm⟩ := List.forall_mem_cons.mp hm
    have hiff : shift x n.1 = shift x m ↔ n.1 = m := shift_inj (Nat.le_trans hn hx) hx
    have ih := ih hm
    simp only [FuncScript.notedAt] at ih ⊢
    by_cases hat : n.1 = m <;> simp [hiff, hat, ih]
  | @between _ _ k e hk hn _ ih =>
    obtain ⟨n, hmem, hlt⟩ := hn
    have hle : shift x (k + 1) ≤ shift x m := shift_le (Nat.le_trans hlt (hm n hmem))
    rw [shift_succ hk, if_pos rfl] at hle
    have ih := ih hm
    simp only [FuncScript.notedAt] at ih ⊢
    rw [List.filter_cons_of_neg (by simp only [decide_eq_true_eq]; omega), ih]

theorem furthest (h : Converted x notes notes')
    (hx : (FailureLog.noteAll {} notes).furthest ≤ x.length) :
    (FailureLog.noteAll {} notes').furthest = shift x (FailureLog.noteAll {} notes).furthest ∧
      (FailureLog.noteAll {} notes').expected = (FailureLog.noteAll {} notes).expected := by
  have hr := FailureLog.remains_noteAll notes
  have hr' := FailureLog.remains_noteAll notes'
  have hat : (FailureLog.noteAll {} notes').furthest =
      shift x (FailureLog.noteAll {} notes).furthest := by
    by_cases hnil : notes = []
    · subst hnil
      have hnil' : notes' = [] := by
        cases h with
        | nil => rfl
        | between _ _ hn => simp at hn
      subst hnil'
      rfl
    · obtain ⟨n, hn, hfar⟩ := hr.reached hnil
      have hmem := h.mem hn
      have hge := hr'.furthest _ hmem
      obtain ⟨n', hn', hfar'⟩ := hr'.reached (List.ne_nil_of_mem hmem)
      have hle := h.le hr.furthest n' hn'
      rw [hfar] at hge
      omega
  refine ⟨hat, ?_⟩
  rw [hr'.expected, hr.expected, hat, h.notedAt hr.furthest hx]

end Converted

namespace LineColumn

theorem walk_crlf : ∀ (n i : Nat) (here : LineColumn), i + n ≤ x.length →
    walk (crlf x).toArray (shift x i) (shift x (i + n) - shift x i) here =
      walk x.toArray i n here
  | 0, i, here, _ => by rw [Nat.add_zero, Nat.sub_self, walk, walk]
  | n + 1, i, here, h => by
    obtain ⟨c, hc⟩ : ∃ c, x[i]? = some c := ⟨_, List.getElem?_eq_getElem (by omega)⟩
    have hsucc := shift_succ hc
    have hget : (crlf x).toArray[shift x i]? = some (if c = '\n' then '\r' else c) := by
      rw [List.getElem?_toArray, getElem?_shift, hc]
      rfl
    have hmono : shift x (i + 1) ≤ shift x (i + 1 + n) := shift_le (by omega)
    have ih := walk_crlf n (i + 1) (past x.toArray i here) (by omega)
    rw [walk, ← ih, show i + (n + 1) = i + 1 + n by omega]
    by_cases hn : c = '\n'
    · subst hn
      rw [if_pos rfl] at hsucc hget
      have hget' : (crlf x).toArray[shift x i + 1]? = some '\n' := by
        rw [List.getElem?_toArray, getElem?_behind_shift hc]
      rw [show shift x (i + 1 + n) - shift x i =
          (shift x (i + 1 + n) - shift x (i + 1)) + 1 + 1 by omega,
        walk, walk, show shift x i + 1 + 1 = shift x (i + 1) by omega]
      congr 1
      simp [past, hget, hget', hc]
    · rw [if_neg hn] at hsucc hget
      rw [show shift x (i + 1 + n) - shift x i = (shift x (i + 1 + n) - shift x (i + 1)) + 1 by omega,
        walk, ← hsucc]
      congr 1
      simp [past, hget, hc]

end LineColumn

namespace Script

theorem syntaxError_crlf {log log' : FailureLog} (h : log.furthest ≤ x.length)
    (hat : log'.furthest = shift x log.furthest) (he : log'.expected = log.expected) :
    (syntaxError (crlf x).toArray log').expected = (syntaxError x.toArray log).expected ∧
      (syntaxError (crlf x).toArray log').location.start.line =
        (syntaxError x.toArray log).location.start.line ∧
      (syntaxError (crlf x).toArray log').location.start.column =
        (syntaxError x.toArray log).location.start.column ∧
      (syntaxError (crlf x).toArray log').found =
        (syntaxError x.toArray log).found.map fun c => if c = '\n' then '\r' else c := by
  have hle : log'.furthest ≤ (crlf x).toArray.size := by
    rw [hat, List.size_toArray, ← shift_length]
    exact shift_le h
  have hwalk := LineColumn.walk_crlf (x := x) log.furthest 0 .first (by omega)
  rw [shift_zero, Nat.zero_add, Nat.sub_zero, ← hat] at hwalk
  have hreached : LineColumn.reached (crlf x).toArray log'.furthest =
      LineColumn.reached x.toArray log.furthest := hwalk
  have hle' : log.furthest ≤ x.toArray.size := by rwa [List.size_toArray]
  have hlocation := location_syntaxError hle'
  have hlocation' := location_syntaxError hle
  refine ⟨congrArg SyntaxError.unique he, ?_, ?_, ?_⟩
  · rw [hlocation, hlocation']
    exact congrArg LineColumn.line hreached
  · rw [hlocation, hlocation']
    exact congrArg LineColumn.column hreached
  · change (crlf x).toArray[log'.furthest]? = x.toArray[log.furthest]?.map _
    rw [hat, List.getElem?_toArray, List.getElem?_toArray, getElem?_shift]

end Script

end FuncScript
