import FuncScript.Proofs.Complaints
import FuncScript.Proofs.Reading.Block

/-!
A rule that comes to a container or block that lies too deep fails, and says so. Whatever is tried
in its place fails before, so that nothing is noted further on.
-/

namespace FuncScript

open Phrase (IsBlank)

variable {α β : Type} {P : Prop} {K S : Char → Prop} {L : Phrase α} {s : State} {a : α}
  {k j d n i limit : Nat} {notes more : List Note}

/-- The last place of some notes, where a level is missing. -/
structure Blames (limit i : Nat) (notes : List Note) : Prop where
  le : ∀ n ∈ notes, n.1 ≤ i
  mem : (i, Rule.tooDeep limit) ∈ notes

theorem Blames.append (h : Blames limit i notes) (hle : ∀ n ∈ more, n.1 ≤ i) :
    Blames limit i (notes ++ more) :=
  ⟨fun n hn => (List.mem_append.mp hn).elim (h.le n) (hle n), List.mem_append_left _ h.mem⟩

theorem Blames.behind (h : Blames limit i more) (hle : ∀ n ∈ notes, n.1 ≤ i) :
    Blames limit i (notes ++ more) :=
  ⟨fun n hn => (List.mem_append.mp hn).elim (hle n) (h.le n), List.mem_append_right _ h.mem⟩

theorem Blames.log (h : Blames limit i notes) : (FailureLog.noteAll {} notes).furthest = i ∧
    Rule.tooDeep limit ∈ (FailureLog.noteAll {} notes).expected := by
  have hremains := FailureLog.remains_noteAll notes
  obtain ⟨n, hn, hfurthest⟩ := hremains.reached (List.ne_nil_of_mem h.mem)
  have hat : (FailureLog.noteAll {} notes).furthest = i :=
    Nat.le_antisymm (hfurthest ▸ h.le n hn) (hremains.furthest _ h.mem)
  refine ⟨hat, ?_⟩
  rw [hremains.mem_expected, hat]
  exact h.mem

structure State.Room (s : State) (d n : Nat) : Prop where
  depth : s.depth = d
  limit : s.limit = d + n

theorem State.Room.moved (h : s.Room d n) (k : Nat) : (s.moved k).Room d n := ⟨h.depth, h.limit⟩

theorem State.Room.deeper (h : s.Room d (n + 1)) : s.deeper.Room (d + 1) n :=
  ⟨congrArg (· + 1) h.depth, h.limit.trans (by omega)⟩

theorem State.Room.levels (h : s.Room d n) : s.limit - s.depth = n := by
  rw [h.depth, h.limit, Nat.add_sub_cancel_left]

theorem State.Room.lt (h : s.Room d (n + 1)) : s.depth < s.limit := by
  rw [h.depth, h.limit]
  omega

namespace Rule

variable {r r' : Rule α} {f : α → Rule β}

def Passes (r : Rule α) (s : State) (a : α) (k : Nat) : Prop :=
  ∃ notes, r.Gives s ⟨some a, s.cursor + k, notes⟩ ∧ ∀ n ∈ notes, n.1 ≤ s.cursor + k

def Fails (r : Rule α) (s : State) : Prop :=
  ∃ notes, r.Gives s ⟨none, s.cursor, notes⟩ ∧ ∀ n ∈ notes, n.1 ≤ s.cursor

def Trips (r : Rule α) (s : State) (k : Nat) : Prop :=
  ∃ j notes, r.Gives s ⟨none, j, notes⟩ ∧ Blames s.limit (s.cursor + k) notes

/-- Fails for want of a level, and goes back. -/
def Stumbles (r : Rule α) (s : State) (k : Nat) : Prop :=
  ∃ notes, r.Gives s ⟨none, s.cursor, notes⟩ ∧ Blames s.limit (s.cursor + k) notes

theorem Tries.passes {w y : List Char} (h : r.Tries P K L s) (he : s.rest = w ++ y) (hw : L w a)
    (hy : ∀ c t, y = c :: t → ¬ K c) : r.Passes s a w.length := by
  obtain ⟨⟨found, stop, notes⟩, hg, _, hr⟩ := h
  obtain ⟨rfl, rfl⟩ := hr.complete w y a he hw hy
  exact ⟨notes, hg, fun n hn => (hr.placed.inside w y a he hw hy n hn).1⟩

theorem passes_blanks {b y : List Char} (he : s.rest = b ++ y) (hb : ∀ c ∈ b, IsBlank c)
    (hy : Solid y) : blanks.Passes s () b.length :=
  ⟨[], gives_blanks_of_solid he hb hy, by simp⟩

theorem passes_literal {c : Char} {y : List Char} (he : s.rest = c :: y) :
    (literal c).Passes s c 1 :=
  ⟨[], gives_terminal_some he (beq_self_eq_true c), by simp⟩

theorem Passes.optional (h : r.Passes s a k) : (Rule.optional r).Passes s (some a) k := by
  obtain ⟨notes, hg, hle⟩ := h
  exact ⟨notes, hg.optional, hle⟩

theorem Passes.attempt (h : r.Passes s a k) : (Rule.attempt r).Passes s a k := by
  obtain ⟨notes, hg, hle⟩ := h
  exact ⟨notes, hg.attempt, hle⟩

theorem Passes.bind {b : β} (h : r.Passes s a k) (h' : (f a).Passes (s.moved k) b j) :
    (r >>= f).Passes s b (k + j) := by
  obtain ⟨notes, hg, hle⟩ := h
  obtain ⟨more, hg', hle'⟩ := h'
  simp only [State.moved, Nat.add_assoc] at hg' hle'
  refine ⟨notes ++ more, hg.bind_some hg', ?_⟩
  intro n hn
  rcases List.mem_append.mp hn with hn | hn
  · have := hle n hn
    omega
  · exact hle' n hn

theorem Reads.fails {c : Char} {t : List Char} (h : r.Reads P K L s) (hS : L.Begins S)
    (he : s.rest = c :: t) (hc : ¬ S c) : r.Fails s := by
  obtain ⟨⟨found, stop, notes⟩, hg, hn, hr⟩ := h
  have hle := hr.placed.le_of_begins hS (by
    intro d u hd
    obtain ⟨rfl, -⟩ := List.cons.inj (he.symm.trans hd)
    exact hc)
  cases found with
  | none =>
    obtain ⟨-, rfl⟩ := hn rfl
    exact ⟨notes, hg, hle⟩
  | some a =>
    obtain ⟨w, y, hx, hw, -⟩ := hr.sound a rfl
    obtain ⟨d, u, rfl, hd⟩ := hS w a hw
    obtain ⟨rfl, -⟩ := List.cons.inj (he.symm.trans hx)
    exact absurd hd hc

theorem Fails.bind (h : r.Fails s) : (r >>= f).Fails s := by
  obtain ⟨notes, hg, hle⟩ := h
  exact ⟨notes, hg.bind_none, hle⟩

theorem Fails.orElse (h : r.Fails s) (h' : r'.Fails s) : (Rule.orElse r r').Fails s := by
  obtain ⟨notes, hg, hle⟩ := h
  obtain ⟨more, hg', hle'⟩ := h'
  exact ⟨_, hg.orElse_none hg', fun n hn => (List.mem_append.mp hn).elim (hle n) (hle' n)⟩

theorem Stumbles.fails (h : r.Stumbles s 0) : r.Fails s := by
  obtain ⟨notes, hg, hb⟩ := h
  exact ⟨notes, hg, hb.le⟩

theorem gives_unclosed {closing c : Char} {b t : List Char} {g : Char → Rule β}
    (he : s.rest = b ++ c :: t) (hb : ∀ d ∈ b, IsBlank d) (hc : ¬ IsBlank c) (hne : c ≠ closing) :
    (blanks >>= fun _ => literal closing >>= g).Gives s ⟨none, s.cursor + b.length,
      [(s.cursor + b.length, .literal (String.ofList [closing]))]⟩ := by
  have hsolid : Solid (c :: t) := by
    rintro d u ⟨⟩
    exact hc
  have hrest : (s.moved b.length).rest = c :: t := State.rest_moved_of_append he
  have hlit : (literal closing).Gives (s.moved b.length) ⟨none, s.cursor + b.length,
      [(s.cursor + b.length, .literal (String.ofList [closing]))]⟩ := by
    apply gives_terminal_none (s := s.moved b.length)
    intro d u hd
    obtain ⟨rfl, -⟩ := List.cons.inj (hrest.symm.trans hd)
    simpa using hne
  exact (gives_blanks_of_solid he hb hsolid).bind_some (f := fun _ => literal closing >>= g)
    hlit.bind_none

theorem Stumbles.trips (h : r.Stumbles s k) : r.Trips s k := by
  obtain ⟨notes, hg, hb⟩ := h
  exact ⟨_, notes, hg, hb⟩

theorem Trips.bind (h : r.Trips s k) : (r >>= f).Trips s k := by
  obtain ⟨j, notes, hg, hb⟩ := h
  exact ⟨j, notes, hg.bind_none, hb⟩

theorem Stumbles.bind (h : r.Stumbles s k) : (r >>= f).Stumbles s k := by
  obtain ⟨notes, hg, hb⟩ := h
  exact ⟨notes, hg.bind_none, hb⟩

theorem Trips.attempt (h : r.Trips s k) : (Rule.attempt r).Stumbles s k := by
  obtain ⟨j, notes, hg, hb⟩ := h
  exact ⟨notes, hg.attempt, hb⟩

theorem Passes.trips (h : r.Passes s a k) (h' : (f a).Trips (s.moved k) j) :
    (r >>= f).Trips s (k + j) := by
  obtain ⟨notes, hg, hle⟩ := h
  obtain ⟨stop, more, hg', hb⟩ := h'
  simp only [State.moved, Nat.add_assoc] at hg' hb
  refine ⟨stop, notes ++ more, hg.bind_some hg', hb.behind ?_⟩
  intro n hn
  have := hle n hn
  omega

theorem Stumbles.nested (hd : s.depth < s.limit) (h : r.Stumbles s.deeper k) :
    (Rule.nested r).Stumbles s k := by
  obtain ⟨notes, hg, hb⟩ := h
  exact ⟨notes, hg.nested hd, hb⟩

theorem stumbles_nested (h : s.limit ≤ s.depth) : (Rule.nested r).Stumbles s 0 :=
  ⟨_, gives_nested_of_le h, by simp, by simp⟩

theorem Stumbles.orElse_fails (h : r.Stumbles s k) (h' : r'.Fails s) :
    (Rule.orElse r r').Stumbles s k := by
  obtain ⟨notes, hg, hb⟩ := h
  obtain ⟨more, hg', hle⟩ := h'
  refine ⟨_, hg.orElse_none hg', hb.append ?_⟩
  exact fun n hn => Nat.le_add_right_of_le (hle n hn)

theorem Fails.orElse_stumbles (h : r.Fails s) (h' : r'.Stumbles s k) :
    (Rule.orElse r r').Stumbles s k := by
  obtain ⟨notes, hg, hle⟩ := h
  obtain ⟨more, hg', hb⟩ := h'
  refine ⟨_, hg.orElse_none hg', hb.behind ?_⟩
  exact fun n hn => Nat.le_add_right_of_le (hle n hn)

theorem Stumbles.optional {f : Option α → Rule β} (h : r.Stumbles s k) (h' : (f none).Fails s) :
    (Rule.optional r >>= f).Trips s k := by
  obtain ⟨notes, hg, hb⟩ := h
  obtain ⟨more, hg', hle⟩ := h'
  refine ⟨_, _, hg.optional.bind_some hg', hb.append ?_⟩
  exact fun n hn => Nat.le_add_right_of_le (hle n hn)

theorem Stumbles.congr (h : r.Stumbles s k)
    (he : ∀ log, r' { s with failures := log } = r { s with failures := log }) :
    r'.Stumbles s k := by
  obtain ⟨notes, hg, hb⟩ := h
  exact ⟨notes, fun log => (he log).trans (hg log), hb⟩

def Halts (r : Rule α) (r' : Rule β) (s : State) (k : Nat) : Prop :=
  ∃ as j notes i more, Loop r s as j notes ∧ r'.Gives { s with cursor := j } ⟨none, i, more⟩ ∧
    Blames s.limit (s.cursor + k) (notes ++ more)

theorem Stumbles.halts {r' : Rule β} (h : r.Stumbles s k) (hg : r'.Gives s ⟨none, i, more⟩)
    (hle : ∀ n ∈ more, n.1 ≤ s.cursor + k) : Halts r r' s k := by
  obtain ⟨notes, hg', hb⟩ := h
  exact ⟨[], s.cursor, notes, i, more, .stop hg', hg, hb.append hle⟩

theorem Halts.step {r' : Rule β} {w y : List Char} (h : Halts r r' (s.moved w.length) k)
    (hg : r.Gives s ⟨some a, s.cursor + w.length, notes⟩) (he : s.rest = w ++ y) (hw : w ≠ [])
    (hle : ∀ n ∈ notes, n.1 ≤ s.cursor + (w.length + k)) : Halts r r' s (w.length + k) := by
  obtain ⟨as, j, more, i, last, hl, hg', hb⟩ := h
  refine ⟨a :: as, j, _, i, last, Loop.step_word hg he hw hl, hg', ?_⟩
  simp only [State.moved, Nat.add_assoc] at hb
  rw [List.append_assoc]
  exact hb.behind hle

theorem Halts.trips {γ : Type} {r' : Rule β} {f : List α → Rule γ} (h : Halts r r' s k)
    (hf : ∀ as t i more, r'.Gives t ⟨none, i, more⟩ → (f as).Gives t ⟨none, i, more⟩) :
    (many r >>= f).Trips s k := by
  obtain ⟨as, j, notes, i, more, hl, hg, hb⟩ := h
  exact ⟨i, _, hl.gives.bind_some (hf as _ i more hg), hb⟩

end Rule

end FuncScript
