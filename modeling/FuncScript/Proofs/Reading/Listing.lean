import FuncScript.Proofs.Reading.Blanks
import FuncScript.Proofs.Grammar
import FuncScript.Rule.Configuration

namespace FuncScript

open Phrase (IsBlank)

variable {α : Type} {P : Prop} {K S : Char → Prop} {item : Phrase α} {closing : Char}

namespace Grammar

open Phrase

def next (item : Phrase α) : Phrase α := do
  let _ ← symbol ','
  blanks
  item

def ending (closing : Char) (item : Phrase α) : Phrase (List α) := do
  let rest ← star do comma; item
  blanks
  let _ ← symbol closing
  return rest

theorem comma_bind_eq (item : Phrase α) :
    (comma >>= fun _ => item) = blanks >>= fun _ => next item := by
  simp only [comma, next, LawfulMonad.bind_assoc]

theorem ending_eq (closing : Char) (item : Phrase α) : ending closing item =
    blanks >>= fun _ => either
      (next item >>= fun a => ending closing item >>= fun as => pure (a :: as))
      (symbol closing >>= fun _ => pure []) := by
  conv => lhs; unfold ending; rw [star_eq]
  rw [either_bind, either_comm, bind_either]
  simp only [comma_bind_eq, ending, LawfulMonad.bind_assoc, LawfulMonad.pure_bind]

theorem enclosed_eq (opening closing : Char) (item : Phrase α) :
    enclosed opening closing item = symbol opening >>= fun _ => blanks >>= fun _ => either
      (item >>= fun a => ending closing item >>= fun as => pure (a :: as))
      (symbol closing >>= fun _ => pure []) := by
  unfold enclosed separated
  congr 1
  funext _
  simp only [either_bind, bind_either, LawfulMonad.bind_assoc, LawfulMonad.pure_bind, blanks_blanks,
    ending]
  rw [either_comm]

theorem begins_next (item : Phrase α) : (next item).Begins (· = ',') :=
  (begins_symbol ',').bind _

theorem begins_ending (closing : Char) (item : Phrase α) :
    (ending closing item).Begins fun c => IsBlank c ∨ c = ',' ∨ c = closing := by
  rw [ending_eq]
  exact begins_blanks_bind (((begins_next item).bind _).either ((begins_symbol closing).bind _))

theorem viable_ending (closing : Char) (item : Phrase α) : (ending closing item).Viable [] :=
  viable_nil_bind (viable_star_nil _) fun _ => viable_nil_bind viable_nil_blanks fun _ =>
    viable_map_iff.mpr (viable_nil_symbol closing)

theorem follows_ending (hK : ∀ c, K c → ¬ (IsBlank c ∨ c = ',' ∨ c = closing)) :
    Follows K fun a => ending closing item >>= fun as => pure (a :: as) :=
  .of_begins (fun _ => (begins_ending closing item).bind _) hK fun _ =>
    viable_map_iff.mpr (viable_ending closing item)

theorem not_ending_nil (a : α) (as : List α) :
    ¬ (ending closing item >>= fun as => pure (a :: as)) [] as :=
  ((begins_ending closing item).bind _).not_nil as

theorem viable_or_closed (closing : Char) (L : Phrase (List α)) :
    (either L (symbol closing >>= fun _ => pure [])).Viable [] :=
  viable_nil_either (viable_map_iff.mpr (viable_nil_symbol closing))

theorem settled_next (h : item.Settled K) (hS : item.Begins fun c => ¬ IsBlank c) :
    (next item).Settled K :=
  Settled.bind_one fun _ => settled_blanks_bind h hS

end Grammar

namespace Rule

variable {r : Rule α} {s : State}

def close (closing : Char) : Rule Unit := do
  blanks
  let _ ← literal closing

def ending (closing : Char) (next : Rule α) : Rule (List α) := do
  let rest ← many (attempt do blanks; next)
  close closing
  return rest

theorem gives_close {b : List Char} {o : Outcome Char}
    (hb : blanks.Gives s ⟨some (), s.cursor + b.length, []⟩)
    (ho : (literal closing).Gives (s.moved b.length) o) :
    (close closing).Gives s ⟨o.found.map fun _ => (), o.stop, o.notes⟩ :=
  hb.bind_some (f := fun _ => literal closing >>= fun _ => pure ()) (gives_map ho)

def LoopReadsEnding (P : Prop) (closing : Char) (item : Phrase α) (r : Rule α) (s : State) : Prop :=
  ∃ as k notes o, Loop (attempt do blanks; r) s as k notes ∧
    (close closing).Gives { s with cursor := k } o ∧ (o.found = none → o.notes ≠ []) ∧
    Reading P Never (Grammar.ending closing item) s.rest s.cursor
      ⟨o.found.map fun _ => as, o.stop, notes ++ o.notes⟩

theorem begins_next_bind (f : α → Phrase (List α)) : (Grammar.next item >>= f).Begins (· = ',') :=
  (Grammar.begins_next item).bind f

theorem begins_closed (closing : Char) :
    (Phrase.symbol closing >>= fun _ => (pure [] : Phrase (List α))).Begins (· = closing) :=
  (Phrase.begins_symbol closing).bind _

theorem begins_next_or_closed (hblank : ¬ IsBlank closing) (f : α → Phrase (List α)) :
    ((Grammar.next item >>= f).either (Phrase.symbol closing >>= fun _ => pure [])).Begins
      fun c => ¬ IsBlank c :=
  ((begins_next_bind f).either (begins_closed closing)).mono fun c hc => by
    rcases hc with rfl | rfl
    · decide
    · exact hblank

theorem comma_apart (hclose : closing ≠ ',') : ∀ c, c = ',' → ¬ c = closing := by
  rintro c rfl
  exact hclose.symm

variable {b y : List Char} {j : Nat} {notes : List Note}

theorem loopReadsEnding_stop (he : s.rest = b ++ y) (hb : ∀ c ∈ b, IsBlank c) (hy : Solid y)
    (hg : blanks.Gives s ⟨some (), s.cursor + b.length, []⟩)
    (hga : (attempt do blanks; r).Gives s ⟨none, s.cursor, notes⟩)
    (hread : Reading P K (Grammar.next item) y (s.cursor + b.length) ⟨none, j, notes⟩)
    (hK : ∀ c, K c → ¬ (IsBlank c ∨ c = ',' ∨ c = closing)) (hclose : closing ≠ ',')
    (hblank : ¬ IsBlank closing) : LoopReadsEnding P closing item r s := by
  obtain ⟨o, hgo, hno, hclosed⟩ := reads_literal (P := P) (s := s.moved b.length) closing
  rw [State.rest_moved_of_append he] at hclosed
  have hnone : Reading P Never (Grammar.next item >>= fun a =>
      Grammar.ending closing item >>= fun as => pure (a :: as)) y _ ⟨none, j, notes⟩ :=
    hread.bind_none (Grammar.follows_ending hK) fun a as h => absurd h (Grammar.not_ending_nil a as)
  refine ⟨[], _, _, _, .stop hga, gives_close hg hgo, ?_, ?_⟩
  · intro hf
    exact (hno (by simpa using hf)).1
  · rw [he, Grammar.ending_eq]
    have hboth := hnone.either_none (hclosed.map fun _ => ([] : List α)) (begins_next_bind _)
      (begins_closed closing) (comma_apart hclose)
    simp only [Option.map_map]
    exact hboth.behind_blanks hb hy (begins_next_or_closed hblank _)
      (Grammar.viable_or_closed closing _)

theorem LoopReadsEnding.next {w : List Char} {a : α} (he : s.rest = b ++ (w ++ y))
    (hb : ∀ c ∈ b, IsBlank c) (hy : Solid (w ++ y)) (hw : Grammar.next item w a)
    (hga : (attempt do blanks; r).Gives s ⟨some a, s.cursor + (b ++ w).length, notes⟩)
    (hread : Reading P K (Grammar.next item) (w ++ y) (s.cursor + b.length)
      ⟨some a, s.cursor + b.length + w.length, notes⟩)
    (hK : ∀ c, K c → ¬ (IsBlank c ∨ c = ',' ∨ c = closing)) (hclose : closing ≠ ',')
    (hblank : ¬ IsBlank closing) (hL : P → (Grammar.next item).Settled K)
    (h : LoopReadsEnding P closing item r (s.moved (b ++ w).length)) :
    LoopReadsEnding P closing item r s := by
  obtain ⟨c, t, rfl, hc⟩ := Grammar.begins_next item w a hw
  have he' : s.rest = (b ++ c :: t) ++ y := by rw [he, List.append_assoc]
  obtain ⟨as, k, more, o, hl, hgo, hno, hrest⟩ := h
  rw [State.rest_moved_of_append he'] at hrest
  have hcur : (s.moved (b ++ c :: t).length).cursor = s.cursor + b.length + (c :: t).length := by
    simp only [State.moved, List.length_append]
    omega
  rw [hcur] at hrest
  have hfollows : Follows K fun a => Grammar.ending closing item >>= fun as => pure (a :: as) :=
    Grammar.follows_ending hK
  refine ⟨a :: as, k, _, o, Loop.step_word hga he' (by simp) hl, hgo, hno, ?_⟩
  rw [he, Grammar.ending_eq]
  have hthen := hread.bind hw (hrest.map (a :: ·)) hfollows
    (fun a as h => absurd h (Grammar.not_ending_nil a as)) hL
  have hbegun := hthen.either_begun hc
    (Phrase.viable_nil_bind (Phrase.viable_of_word hw) hfollows.inhabited) (begins_next_bind _)
    (begins_closed closing) (comma_apart hclose)
  simp only [Option.map_map, List.append_assoc] at hbegun ⊢
  exact hbegun.behind_blanks hb hy (begins_next_or_closed hblank _)
    (Grammar.viable_or_closed closing _)

theorem loop_ending (hr : ∀ k, r.Tries P K (Grammar.next item) (s.moved k))
    (hK : ∀ c, K c → ¬ (IsBlank c ∨ c = ',' ∨ c = closing)) (hclose : closing ≠ ',')
    (hblank : ¬ IsBlank closing) (hL : P → item.Settled K)
    (hS : item.Begins fun c => ¬ IsBlank c) : LoopReadsEnding P closing item r s := by
  induction hn : s.rest.length using Nat.strongRecOn generalizing s with
  | ind n ih =>
    obtain ⟨b, y, he, hb, hy, hg⟩ := blanks_split s
    obtain ⟨⟨found, j, notes⟩, hgr, _, hread⟩ := hr b.length
    rw [State.rest_moved_of_append he] at hread
    have hga := (hg.bind_some (f := fun _ => r) hgr).attempt
    cases found with
    | none => exact loopReadsEnding_stop he hb hy hg hga hread hK hclose hblank
    | some a =>
      obtain ⟨w, y', rfl, hw, hj⟩ := hread.sound a rfl
      simp only at hj
      subst hj
      obtain ⟨c, t, rfl, _⟩ := Grammar.begins_next item w a hw
      have he' : s.rest = (b ++ c :: t) ++ y' := by rw [he, List.append_assoc]
      have hlen : (s.moved (b ++ c :: t).length).rest.length < n := by
        rw [State.rest_moved_of_append he', ← hn, he']
        simp only [List.length_append, List.length_cons]
        omega
      have hstep : (attempt do blanks; r).Gives s
          ⟨some a, s.cursor + (b ++ c :: t).length, notes⟩ := by
        simpa [State.moved, Nat.add_assoc] using hga
      apply LoopReadsEnding.next he hb hy hw hstep hread hK hclose hblank
      · exact fun hP => Grammar.settled_next (hL hP) hS
      · exact ih _ hlen (fun k => by rw [State.moved_moved]; exact hr _) rfl

theorem tries_ending (hr : ∀ k, r.Tries P K (Grammar.next item) (s.moved k))
    (hK : ∀ c, K c → ¬ (IsBlank c ∨ c = ',' ∨ c = closing)) (hclose : closing ≠ ',')
    (hblank : ¬ IsBlank closing) (hL : P → item.Settled K)
    (hS : item.Begins fun c => ¬ IsBlank c) :
    (ending closing r).Tries P Never (Grammar.ending closing item) s := by
  obtain ⟨as, k, notes, o, hl, hg, hn, hread⟩ := loop_ending hr hK hclose hblank hL hS
  refine ⟨_, hl.gives.bind_some (gives_map hg), ?_, hread⟩
  intro hf
  simp [hn (by simpa using hf)]

theorem comma_bind_eq (r : Rule α) :
    (comma >>= fun _ => r) = blanks >>= fun _ => literal ',' >>= fun _ => blanks >>= fun _ => r := by
  simp only [comma, LawfulMonad.bind_assoc]

theorem tries_next (hr : ∀ k, 0 < k → Solid (s.moved k).rest → r.Reads P K item (s.moved k))
    {k : Nat} (hk : 0 < k) (hv : item.Viable []) (hS : item.Begins fun c => ¬ IsBlank c) :
    (literal ',' >>= fun _ => blanks >>= fun _ => r).Tries P K (Grammar.next item) (s.moved k) := by
  apply (reads_literal ',').tries.bind_never
  · intro w y _ _ _
    apply Tries.blanks_bind hS hv
    intro n hs
    rw [State.moved_moved, State.moved_moved] at hs ⊢
    exact (hr _ (by omega) hs).tries
  · exact fun _ => Phrase.settled_one _ _
  · exact fun _ => Phrase.viable_nil_bind Phrase.viable_nil_blanks fun _ => hv
  · exact fun _ b _ hb => absurd hb ((begins_blanks_bind hS).not_nil b)

theorem items_eq (closing : Char) (r : Rule α) : (do
    let items ← separated comma r
    blanks
    let _ ← literal closing
    return items : Rule (List α)) = optional r >>= fun found => match found with
      | none => blanks >>= fun _ => literal closing >>= fun _ => pure []
      | some first => ending closing (literal ',' >>= fun _ => blanks >>= fun _ => r) >>=
          fun rest => pure (first :: rest) := by
  simp only [separated, ending, close, comma_bind_eq, LawfulMonad.bind_assoc]
  congr 1
  funext found
  cases found <;> simp only [LawfulMonad.bind_assoc, LawfulMonad.pure_bind]

theorem reads_enclosed {opening : Char} {r : Rule α} (hd : s.depth < s.limit) (hs : Solid s.rest)
    (hr : 0 < s.left → ∀ k, 0 < k → Solid (s.deeper.moved k).rest →
      r.Reads P K item (s.deeper.moved k))
    (hK : ∀ c, K c → ¬ (IsBlank c ∨ c = ',' ∨ c = closing)) (hclose : closing ≠ ',')
    (hblank : ¬ IsBlank closing) (hL : P → item.Settled K) (hv : item.Viable [])
    (hS : item.Begins S) (hSd : ∀ c, S c → ¬ IsBlank c ∧ c ≠ closing) :
    (enclosed opening closing r).Reads P Never (Grammar.enclosed opening closing item) s := by
  have hB := hS.bind fun a => Grammar.ending closing item >>= fun as => pure (a :: as)
  have hC : (Phrase.symbol closing >>= fun _ => (pure [] : Phrase (List α))).Begins (· = closing) :=
    begins_closed closing
  have hfirst := (hB.either hC).mono fun c hc => show ¬ IsBlank c by
    rcases hc with hc | rfl
    · exact (hSd c hc).1
    · exact hblank
  apply Reads.nested hd
  apply Tries.attempt
  apply Tries.of_solid (s := s.deeper) hs
  rw [Grammar.enclosed_eq]
  apply (reads_literal opening).tries.bind_never
  · intro w y _ he hw
    apply Tries.blanks_bind hfirst (Grammar.viable_or_closed closing _)
    intro n hsolid
    have hn : 0 < w.length + n := by
      rw [hw.1, List.length_singleton]
      omega
    have hleft : 0 < s.left := by
      rw [← State.length_rest, show s.rest = w ++ y from he, hw.1]
      simp
    -- Behind the opening and blanks: an item with an ending, or the closing character at once.
    rw [State.moved_moved] at hsolid ⊢
    rw [items_eq]
    apply tries_optional_choice (hr hleft _ hn hsolid)
    · intro v v' a _ _
      apply Tries.map
      apply tries_ending _ hK hclose hblank hL (hS.mono fun c hc => (hSd c hc).1)
      intro k
      rw [State.moved_moved, State.moved_moved]
      exact tries_next (hr hleft) (by omega) hv (hS.mono fun c hc => (hSd c hc).1)
    · apply Tries.of_solid hsolid
      exact (reads_literal closing).tries.map _
    · exact Grammar.follows_ending hK
    · exact fun a as h => absurd h (Grammar.not_ending_nil a as)
    · exact hL
    · exact hS
    · exact hC
    · exact fun c hc => (hSd c hc).2
  · exact fun _ => Phrase.settled_one _ _
  · exact fun _ => Phrase.viable_nil_bind Phrase.viable_nil_blanks fun _ =>
      Grammar.viable_or_closed closing _
  · exact fun _ b _ hb => absurd hb ((begins_blanks_bind (hB.either hC)).not_nil b)

end Rule

end FuncScript
