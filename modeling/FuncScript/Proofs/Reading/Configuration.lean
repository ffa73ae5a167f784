import FuncScript.Proofs.Merging
import FuncScript.Proofs.Reading.Listing
import FuncScript.Proofs.Reading.Number

/-!
The rules for values against the grammar. A rule with more levels left than characters reads the
values of any number of levels.
-/

namespace FuncScript

open Phrase (IsBlank isBlank_iff)

variable {α : Type} {P : Prop} {K : Char → Prop} {s : State} {M n : Nat}

/-- The levels that are left are those of the grammar, or more than the text can use. -/
def Ample (M : Nat) (s : State) : Prop :=
  s.limit - s.depth = M ∨ (s.limit - s.depth ≤ M ∧ s.left < s.limit - s.depth)

def Roomy (s : State) : Prop := s.left < s.limit - s.depth ∧ ShortRuns s.rest

theorem Ample.moved (h : Ample M s) (n : Nat) : Ample M (s.moved n) := by
  rcases h with h | ⟨h, hlt⟩
  · exact .inl h
  · refine .inr ⟨h, ?_⟩
    have := State.left_moved s n
    simp only [State.moved] at this ⊢
    omega

theorem Ample.deeper (h : Ample (M + 1) s) (hl : 0 < s.left) (hn : 0 < n) :
    Ample M (s.deeper.moved n) := by
  have hm := State.left_moved s.deeper n
  rcases h with h | ⟨h, hlt⟩
  · left
    simp only [State.moved, State.deeper]
    omega
  · right
    simp only [State.moved, State.deeper, State.left] at hm hl hlt ⊢
    omega

theorem Roomy.moved (h : Roomy s) (n : Nat) : Roomy (s.moved n) := by
  constructor
  · have hl := State.left_moved s n
    have hlt := h.1
    simp only [State.moved] at hl ⊢
    omega
  · rw [State.rest_moved]
    exact h.2.part (List.drop_suffix n s.rest).isInfix

theorem Roomy.deeper (h : Roomy s) (hl : 0 < s.left) (hn : 0 < n) : Roomy (s.deeper.moved n) := by
  constructor
  · have hm := State.left_moved s.deeper n
    have hlt := h.1
    simp only [State.moved, State.deeper, State.left] at hm hl hlt ⊢
    omega
  · exact (h.moved n).2

namespace Grammar

open Phrase

def StartsScalar (c : Char) : Prop :=
  (c = '-' ∨ IsDigit c) ∨ c = '"' ∨ c ∈ ['T', 't', 'F', 'f']

def StartsValue (c : Char) : Prop := c = '(' ∨ c = '[' ∨ StartsScalar c

instance : DecidablePred StartsScalar :=
  fun c => inferInstanceAs (Decidable ((c = '-' ∨ IsDigit c) ∨ c = '"' ∨ c ∈ ['T', 't', 'F', 'f']))

instance : DecidablePred StartsValue :=
  fun c => inferInstanceAs (Decidable (c = '(' ∨ c = '[' ∨ StartsScalar c))

theorem begins_number : number.Begins fun c => c = '-' ∨ IsDigit c := by
  rintro w x ⟨n, hn, _⟩
  obtain ⟨sign, behind, rfl, hs, hl, _⟩ := numeral_iff.mp hn
  cases hsign : n.sign with
  | none =>
    rw [hsign] at hs
    obtain rfl : sign = [] := hs
    rcases hl with hl | ⟨c, t, hl, hc, _⟩
    · exact ⟨'0', behind, by simp [hl], by decide⟩
    · exact ⟨c, t ++ behind, by simp [hl], .inr (isDigit_of_nonzero hc)⟩
  | some c =>
    rw [hsign] at hs
    obtain ⟨rfl, hc⟩ := hs
    exact ⟨c, _, rfl, .inl (by simpa using hc)⟩

theorem begins_scalar : scalar.Begins StartsScalar :=
  (begins_number.bind _).either ((Rule.begins_string.bind _).either (Rule.begins_boolean.bind _))

theorem begins_object (value : Phrase α) : (object value).Begins (· = '(') :=
  ((begins_symbol '(').bind _).bind _

theorem begins_array (value : Phrase α) : (array value).Begins (· = '[') :=
  (begins_symbol '[').bind _

theorem begins_value : ∀ n, (value n).Begins StartsValue
  | 0 => begins_scalar.mono fun _ h => .inr (.inr h)
  | _ + 1 => ((begins_object _).bind _).either (((begins_array _).bind _).either begins_scalar)

theorem viable_boolean : boolean.Viable [] := by
  obtain ⟨t, _, ht⟩ := Rule.viable_letters Keyword.yes.letters
  exact ⟨t, true, .inl (bind_pure_iff.mpr ⟨(), ht, rfl⟩)⟩

theorem viable_scalar : scalar.Viable [] :=
  viable_nil_either (viable_nil_either (viable_map_iff.mpr viable_boolean))

theorem viable_value : ∀ n, (value n).Viable []
  | 0 => viable_scalar
  | _ + 1 => viable_nil_either (viable_nil_either viable_scalar)

theorem not_blank_of_startsValue {c : Char} (h : StartsValue c) : ¬ IsBlank c := by
  intro hb
  rcases isBlank_iff.mp hb with rfl | rfl | rfl | rfl <;> exact absurd h (by decide)

theorem not_startsScalar_of_bracket {c : Char} (h : c = '(' ∨ c = '[') : ¬ StartsScalar c := by
  rcases h with rfl | rfl <;> decide

theorem object_eq (value : Phrase α) : object value =
    enclosed '(' ')' (pair value) >>= fun pairs => pure (Entries.ofList pairs) := by
  simp only [object, merged_eq]

theorem begins_pair (value : Phrase α) :
    (pair value).Begins (CharClass.nameStart.contains · = true) := Rule.begins_name.bind _

def assigned (value : Phrase α) (key : String) : Phrase (String × α) := do
  blanks
  let _ ← symbol '='
  blanks
  let v ← value
  return (key, v)

theorem begins_assigned (value : Phrase α) (key : String) :
    (assigned value key).Begins fun c => IsBlank c ∨ c = '=' :=
  begins_blanks_bind ((begins_symbol '=').bind _)

theorem not_goesOnName {c : Char} (h : Rule.GoesOnName c) : ¬ (IsBlank c ∨ c = '=') := by
  rintro (hb | rfl)
  · rcases isBlank_iff.mp hb with rfl | rfl | rfl | rfl <;> exact absurd h (by decide)
  · exact absurd h (by decide)

theorem viable_assigned_value {value : Phrase α} (h : value.Viable []) (key : String) :
    (blanks >>= fun _ => value >>= fun v => (pure (key, v) : Phrase (String × α))).Viable [] :=
  viable_nil_bind viable_nil_blanks fun _ => viable_map_iff.mpr h

theorem viable_assigned {value : Phrase α} (h : value.Viable []) (key : String) :
    (assigned value key).Viable [] :=
  viable_nil_bind viable_nil_blanks fun _ => viable_nil_bind (viable_nil_symbol '=') fun _ =>
    viable_assigned_value h key

theorem settled_pair {value : Phrase α} (h : value.Settled K) (hS : value.Begins StartsValue) :
    (pair value).Settled K := by
  have hB (key : String) := (hS.bind fun v => (pure (key, v) : Phrase (String × α))).mono
    fun _ => not_blank_of_startsValue
  apply Rule.settled_name.bind_begins _ (begins_assigned value) fun _ => not_goesOnName
  intro key
  apply settled_blanks_bind
  · exact Settled.bind_one fun _ => settled_blanks_bind (h.map _) (hB key)
  · apply ((begins_symbol '=').bind _).mono
    rintro c rfl
    decide

end Grammar

namespace Rule

open Grammar (assigned)

variable {v : Rule α} {V : Phrase α}

theorem Reads.congr {r r' : Rule α} {L : Phrase α} (h : r.Reads P K L s)
    (he : ∀ log, r' { s with failures := log } = r { s with failures := log }) :
    r'.Reads P K L s := by
  obtain ⟨o, hg, hn, hr⟩ := h
  exact ⟨o, fun log => (he log).trans (hg log), hn, hr⟩

theorem Reads.orElse_refused {r r' : Rule α} {L : Phrase α} {S : Char → Prop} {e : Expectation}
    (hP : ¬ P) (h : r.Gives s ⟨none, s.cursor, [(s.cursor, e)]⟩) (h' : r'.Reads P K L s)
    (hS : L.Begins S) : (Rule.orElse r r').Reads P K L s := by
  obtain ⟨o, hg, hn, hr⟩ := h'
  refine ⟨_, h.orElse_none hg, ?_, hr.sound, hr.complete, fun p => absurd p hP, ?_⟩
  · intro hf
    exact ⟨by simp, (hn hf).2⟩
  · refine ⟨?_, ?_, ?_, ?_⟩
    · exact List.forall_mem_cons.mpr ⟨Nat.le_add_right _ _, hr.placed.within⟩
    · refine List.forall_mem_cons.mpr ⟨?_, hr.placed.begun⟩
      intro u y _ hu _ hle
      have := List.length_pos_iff.mpr hu
      omega
    · intro w y a he hw hy
      refine List.forall_mem_cons.mpr ⟨?_, hr.placed.inside w y a he hw hy⟩
      obtain ⟨c, t, rfl, _⟩ := hS w a hw
      rw [List.length_cons]
      exact ⟨by omega, fun hat => by omega⟩
    · intro hx
      rcases hr.placed.touches hx with ⟨n, hn, hat⟩ | hs
      · exact .inl ⟨n, List.mem_cons_of_mem _ hn, hat⟩
      · exact .inr hs

theorem reads_pair (hs : Solid s.rest)
    (hv : ∀ k, Solid (s.moved k).rest → v.Reads P K V (s.moved k))
    (hS : V.Begins Grammar.StartsValue) (hV : V.Viable []) :
    (pair v).Reads P K (Grammar.pair V) s := by
  have hB (key : String) := hS.bind fun v => (pure (key, v) : Phrase (String × α))
  have hB' (key : String) := (hB key).mono fun _ => Grammar.not_blank_of_startsValue
  apply Tries.attempt
  apply Tries.of_solid hs
  apply tries_name.bind_begins
  · intro w y key _ _
    apply Tries.blanks_bind
    · apply ((Phrase.begins_symbol '=').bind _).mono
      rintro c rfl
      decide
    · exact Phrase.viable_nil_bind (Phrase.viable_nil_symbol '=') fun _ =>
        Grammar.viable_assigned_value hV key
    · intro n _
      apply tries_one_bind (reads_literal '=')
      · intro _ m
        apply Tries.blanks_bind (hB' key) (Phrase.viable_map_iff.mpr hV)
        intro k hk
        rw [State.moved_moved, State.moved_moved, State.moved_moved] at hk ⊢
        exact (hv _ hk).tries.map _
      · exact fun _ => Grammar.viable_assigned_value hV key
      · exact fun _ => (begins_blanks_bind (hB key)).not_nil
  · exact fun key => Grammar.begins_assigned V key
  · exact fun _ => Grammar.not_goesOnName
  · exact fun _ => settled_name
  · exact Grammar.viable_assigned hV

theorem not_goesOnNumber {c closing : Char} (hc : closing = ')' ∨ closing = ']')
    (h : GoesOnNumber c) : ¬ (IsBlank c ∨ c = ',' ∨ c = closing) := by
  rintro (hb | rfl | rfl)
  · rcases isBlank_iff.mp hb with rfl | rfl | rfl | rfl <;> exact absurd h (by decide)
  · exact absurd h (by decide)
  · rcases hc with rfl | rfl <;> exact absurd h (by decide)

theorem reads_object (hd : s.depth < s.limit) (hs : Solid s.rest)
    (hv : 0 < s.left → ∀ k, 0 < k → Solid (s.deeper.moved k).rest →
      v.Reads P GoesOnNumber V (s.deeper.moved k))
    (hS : V.Begins Grammar.StartsValue) (hV : V.Viable []) (hL : P → V.Settled GoesOnNumber) :
    (object v).Reads P Never (Grammar.object V) s := by
  have hpair : 0 < s.left → ∀ k, 0 < k → Solid (s.deeper.moved k).rest →
      (pair v).Reads P GoesOnNumber (Grammar.pair V) (s.deeper.moved k) := by
    intro hl k hk hsolid
    refine reads_pair hsolid (fun j hj => ?_) hS hV
    rw [State.moved_moved] at hj ⊢
    exact hv hl _ (by omega) hj
  rw [Grammar.object_eq]
  apply Reads.map
  apply reads_enclosed hd hs hpair
  · exact fun c => not_goesOnNumber (.inl rfl)
  · decide
  · decide
  · exact fun hP => Grammar.settled_pair (hL hP) hS
  · exact Phrase.viable_nil_bind viable_name fun _ => Grammar.viable_assigned hV _
  · exact Grammar.begins_pair V
  · intro c hc
    constructor
    · intro hb
      rcases isBlank_iff.mp hb with rfl | rfl | rfl | rfl <;> exact absurd hc (by decide)
    · rintro rfl
      exact absurd hc (by decide)

theorem reads_array (hd : s.depth < s.limit) (hs : Solid s.rest)
    (hv : 0 < s.left → ∀ k, 0 < k → Solid (s.deeper.moved k).rest →
      v.Reads P GoesOnNumber V (s.deeper.moved k))
    (hS : V.Begins Grammar.StartsValue) (hV : V.Viable []) (hL : P → V.Settled GoesOnNumber) :
    (array v).Reads P Never (Grammar.array V) s := by
  apply reads_enclosed hd hs hv
  · exact fun c => not_goesOnNumber (.inr rfl)
  · decide
  · decide
  · exact hL
  · exact hV
  · exact hS
  · intro c hc
    refine ⟨Grammar.not_blank_of_startsValue hc, ?_⟩
    rintro rfl
    exact absurd hc (by decide)

theorem reads_scalar (hs : Solid s.rest) (hP : P → ShortRuns s.rest) :
    (Rule.orElse (do return .number (← number)) <| Rule.orElse (do return .string (← string)) <|
      Rule.orElse (do return .boolean (← boolean)) never : Rule Value).Reads P GoesOnNumber
        Grammar.scalar s := by
  apply ((reads_number hP).map _).orElse
  · apply (((reads_string_of_solid hs).map _).mono (by simp)).orElse
    · exact ((reads_boolean.map _).mono (by simp)).orElse_never
    · exact begins_string.bind _
    · exact begins_boolean.bind _
    · rintro c rfl
      decide
  · exact Grammar.begins_number.bind _
  · exact (begins_string.bind _).either (begins_boolean.bind _)
  · rintro c hc (rfl | hm)
    · exact absurd hc (by decide)
    · simp only [List.mem_cons, List.not_mem_nil, or_false] at hm
      rcases hm with rfl | rfl | rfl | rfl <;> exact absurd hc (by decide)

theorem gives_refused {opening closing : Char} {r : Rule α} (h : s.limit ≤ s.depth) :
    (enclosed opening closing r).Gives s ⟨none, s.cursor, [(s.cursor, tooDeep s.limit)]⟩ := by
  unfold enclosed
  exact gives_nested_of_le h

theorem reads_valueWithin (hset : P → ∀ m, (Grammar.value m).Settled GoesOnNumber) :
    ∀ (n M : Nat) (s : State), s.limit - s.depth = n → Ample M s → (P → Roomy s) → Solid s.rest →
      (valueWithin n).Reads P GoesOnNumber (Grammar.value M) s
  | 0, M, s, hn, hM, hP, hs => by
    have h0 : M = 0 := by
      rcases hM with hM | ⟨_, hM⟩ <;> omega
    subst h0
    have hP' : ¬ P := by
      intro p
      have := (hP p).1
      omega
    -- The guards of both kinds of container fail, which leaves the scalars.
    have hle : s.limit ≤ s.depth := by omega
    change (choice (alternatives never)).Reads P GoesOnNumber Grammar.scalar s
    apply Reads.orElse_refused hP' (gives_refused hle).bind_none.bind_none _ Grammar.begins_scalar
    apply Reads.orElse_refused hP' (gives_refused hle).bind_none _ Grammar.begins_scalar
    exact reads_scalar hs fun p => absurd p hP'
  | n + 1, M, s, hn, hM, hP, hs => by
    obtain ⟨m, rfl⟩ : ∃ m, M = m + 1 := ⟨M - 1, by rcases hM with hM | ⟨hM, _⟩ <;> omega⟩
    have hv : 0 < s.left → ∀ k, 0 < k → Solid (s.deeper.moved k).rest →
        (valueWithin n).Reads P GoesOnNumber (Grammar.value m) (s.deeper.moved k) := by
      intro hl k hk hsolid
      apply reads_valueWithin hset n m _ _ (hM.deeper hl hk) (fun p => (hP p).deeper hl hk) hsolid
      simp only [State.moved, State.deeper]
      omega
    have hd : s.depth < s.limit := by omega
    have hS := Grammar.begins_value m
    have hV := Grammar.viable_value m
    have hO := reads_object hd hs hv hS hV fun p => hset p m
    have hA := reads_array hd hs hv hS hV fun p => hset p m
    change (choice (alternatives (valueWithin n))).Reads P GoesOnNumber (Grammar.value (m + 1)) s
    apply ((hO.map _).mono (by simp)).orElse
    · apply ((hA.map _).mono (by simp)).orElse (reads_scalar hs fun p => (hP p).2)
      · exact (Grammar.begins_array _).bind _
      · exact Grammar.begins_scalar
      · exact fun c hc => Grammar.not_startsScalar_of_bracket (.inr hc)
    · exact (Grammar.begins_object _).bind _
    · exact ((Grammar.begins_array _).bind _).either Grammar.begins_scalar
    · rintro c rfl (hc | hc)
      · exact absurd hc (by decide)
      · exact absurd hc (by decide)

end Rule

open Rule (GoesOnNumber)

theorem Grammar.settled_value (n : Nat) : (Grammar.value n).Settled GoesOnNumber := by
  apply Rule.settled_of_reading
  intro x v hv
  have hs : Solid x := by
    obtain ⟨c, t, rfl, hc⟩ := Grammar.begins_value n x v hv
    rintro d r ⟨⟩
    exact Grammar.not_blank_of_startsValue hc
  obtain ⟨o, _, _, hr⟩ := Rule.reads_valueWithin (P := False) False.elim n n
    { text := x.toArray, limit := n } rfl (.inl rfl) False.elim (by simpa [State.rest] using hs)
  exact ⟨_, o, by simpa [State.rest] using hr⟩

namespace Rule

theorem reads_value (hM : Ample M s) (hP : P → Roomy s) (hs : Solid s.rest) :
    value.Reads P GoesOnNumber (Grammar.value M) s := by
  apply Reads.congr (reads_valueWithin (fun _ => Grammar.settled_value) _ M s rfl hM hP hs)
  exact fun _ => rfl

theorem reads_configuration (hM : Ample M s) (hP : P → Roomy s) (hs : Solid s.rest) :
    (object value).Reads P Never (Grammar.configuration M) s := by
  by_cases hd : s.depth < s.limit
  · obtain ⟨m, rfl⟩ : ∃ m, M = m + 1 := ⟨M - 1, by rcases hM with hM | ⟨hM, _⟩ <;> omega⟩
    apply reads_object hd hs _ (Grammar.begins_value m) (Grammar.viable_value m)
      fun _ => Grammar.settled_value m
    intro hl k hk hsolid
    exact reads_value (hM.deeper hl hk) (fun p => (hP p).deeper hl hk) hsolid
  · have h0 : M = 0 := by
      rcases hM with hM | ⟨_, hM⟩ <;> omega
    subst h0
    refine ⟨_, (gives_refused (Nat.le_of_not_lt hd)).bind_none, by simp, ?_, ?_, ?_, ?_⟩
    · simp
    · intro w y a _ ha
      exact ha.elim
    · intro p
      have := (hP p).1
      omega
    · exact placed_of_empty fun ⟨_, _, h⟩ => h.elim

end Rule

end FuncScript
