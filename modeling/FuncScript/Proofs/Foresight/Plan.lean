import FuncScript.Proofs.Compositional
import FuncScript.Proofs.Foresight.Rule

/-!
The rules that do not look ahead. All of them but those for blocks and whole scripts tell how far
they looked at the text.
-/

namespace FuncScript

variable {α β γ : Type} {s : State} {m n : Nat}

namespace Plan

/-- Does not look ahead, does not cut anything out of the text, repeats only what moves on, and
fails silently only where another failure was noted. Where no level is left, what a guard stands
before does not count. -/
def Candid : {α : Type} → Plan α → Nat → Prop
  | _, .bind p f => fun n => p.Candid n ∧ ∀ a, (f a).Candid n
  | _, .attempt p | _, .optional p => p.Candid
  | _, .many p => fun n => p.Candid n ∧ p.Moves
  | _, .nested p => fun n => ∀ k, n = k + 1 → p.Candid k
  | _, .orElse p q => fun n => p.Candid n ∧ (q.Candid n ∨ q = .never)
  | _, .levels f => fun n => (f n).Candid n
  | _, .pure _ | _, .fail _ | _, .terminal _ _ | _, .blanks | _, .cursor => fun _ => True
  | _, .never | _, .notAhead _ | _, .slice _ => fun _ => False

theorem exists_candid (p : Plan α) : ∀ (n : Nat) (s : State), p.Candid n → s.limit - s.depth = n →
    s.cursor ≤ s.text.size → ∃ o, p.rule.Candid True m s o := by
  induction p with
  | pure a => exact fun _ _ _ _ hs => ⟨_, Rule.candid_pure hs a⟩
  | bind p f ihp ihf =>
    intro n s h hn hs
    obtain ⟨o, ho⟩ := ihp n s h.1 hn hs
    exact ho.bind fun a _ => ihf a n _ (h.2 a) hn ho.within
  | fail e => exact fun _ _ _ _ hs => ⟨_, Rule.candid_fail hs e⟩
  | never | notAhead | slice => exact fun _ _ h => h.elim
  | terminal accepts e => exact fun _ _ _ _ hs => Rule.candid_terminal hs accepts e
  | blanks => exact fun _ _ _ _ hs => Rule.candid_blanks hs
  | cursor => exact fun _ _ _ _ hs => ⟨_, Rule.candid_cursor hs⟩
  | attempt p ih =>
    intro n s h hn hs
    obtain ⟨o, ho⟩ := ih n s h hn hs
    exact ⟨_, ho.attempt hs⟩
  | nested p ih =>
    intro n s h hn hs
    rcases Nat.lt_or_ge s.depth s.limit with hd | hd
    · obtain ⟨k, rfl⟩ : ∃ k, n = k + 1 := ⟨n - 1, by omega⟩
      have hk : s.deeper.limit - s.deeper.depth = k := by
        simp only [State.deeper]
        omega
      obtain ⟨o, ho⟩ := ih k s.deeper (h k rfl) hk hs
      exact ⟨o, ho.nested hd⟩
    · exact ⟨_, Rule.candid_nested_of_le hs hd⟩
  | orElse p q ihp ihq =>
    intro n s h hn hs
    obtain ⟨o, ho⟩ := ihp n s h.1 hn hs
    rcases h.2 with hq | rfl
    · obtain ⟨o', ho'⟩ := ho.orElse fun j _ hj => ihq n _ hq hn hj
      exact ⟨o', ho'.weaken .inl⟩
    · obtain ⟨o', ho'⟩ := ho.orElse fun j _ hj => ⟨_, Rule.candid_never hj⟩
      exact ⟨o', ho'.weaken .inl⟩
  | optional p ih =>
    intro n s h hn hs
    obtain ⟨o, ho⟩ := ih n s h hn hs
    exact ⟨_, ho.optional⟩
  | many p ih =>
    intro n s h hn hs
    refine Rule.candid_many (N := True) (fun j hj => ?_) hs
    obtain ⟨o, ho⟩ := ih n { s with cursor := j } h.1 hn hj
    refine ⟨o, ho, fun a ha => ?_⟩
    have hlt := p.lt_of_moves h.2 { s with cursor := j } a hj
    rw [show p.rule { s with cursor := j } = _ from ho.gives s.failures] at hlt
    exact hlt ha
  | levels f ih =>
    intro n s h hn hs
    subst hn
    obtain ⟨o, ho⟩ := ih _ _ s h rfl hs
    refine ⟨o, ho.gives, ho.advanced, ho.within, ho.noted, ho.settled.imp id ?_⟩
    intro hset t ht log
    change (f (t.limit - t.depth)).rule _ = _
    rw [ht.levels]
    exact hset t ht log

theorem compositional_candid (n : Nat) : Compositional fun p => p.Candid n where
  pure _ := trivial
  not_finite := trivial
  literal _ := trivial
  oneOf _ := trivial
  letter _ _ _ := trivial
  blanks := trivial
  bind h h' := ⟨h, h'⟩
  attempt h := h
  optional h := h
  many h hm := ⟨h, hm⟩
  orElse h h' := ⟨h, .inl h'⟩
  last h := ⟨h, .inr rfl⟩

theorem compositional_candid_inside (n : Nat) :
    Compositional fun p => ∀ k, n = k + 1 → p.Candid k :=
  .forall_of fun k => .forall_of fun _ => compositional_candid k

theorem candid_valueWithin : ∀ n, (valueWithin n).Candid n
  | 0 => (compositional_candid 0).alternatives (compositional_candid_inside 0) id (by simp)
  | n + 1 => by
    apply (compositional_candid (n + 1)).alternatives (compositional_candid_inside (n + 1)) id
    rintro k ⟨⟩
    exact candid_valueWithin n

theorem candid_object : (object value).Candid n :=
  (compositional_candid n).object (compositional_candid_inside n) id fun k _ => candid_valueWithin k

end Plan

end FuncScript
