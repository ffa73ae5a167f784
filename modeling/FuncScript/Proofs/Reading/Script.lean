import FuncScript.Proofs.Reading.Block

namespace FuncScript

open Phrase (IsBlank isBlank_iff)

variable {P : Prop} {s : State} {M : Nat}

namespace Grammar

open Phrase

def described (key : String) : Phrase (String × String) := do
  blanks
  let _ ← symbol '='
  blanks
  let text ← string
  return (key, text)

theorem begins_described (key : String) : (described key).Begins fun c => IsBlank c ∨ c = '=' :=
  begins_blanks_bind ((begins_symbol '=').bind _)

theorem viable_described (key : String) : (described key).Viable [] :=
  viable_nil_bind viable_nil_blanks fun _ => viable_nil_bind (viable_nil_symbol '=') fun _ =>
    viable_nil_bind viable_nil_blanks fun _ => viable_map_iff.mpr Rule.viable_string

theorem begins_metadata : metadata.Begins (· = '@') := (begins_symbol '@').bind _

theorem viable_metadata : metadata.Viable [] :=
  viable_nil_bind (viable_nil_symbol '@') fun _ => viable_nil_bind Rule.viable_name viable_described

theorem annotations_eq : annotations = metadata >>= fun first => ending ';' metadata >>= fun rest =>
    pure (Entries.ofList (first :: rest)) := by
  simp only [annotations, ending, merged_eq, LawfulMonad.bind_assoc, LawfulMonad.pure_bind]

theorem begins_annotations : annotations.Begins (· = '@') := begins_metadata.bind _

theorem viable_annotations : annotations.Viable [] := by
  rw [annotations_eq]
  exact viable_nil_bind viable_metadata fun _ => viable_map_iff.mpr (viable_ending ';' metadata)

def afterBlock (functionName : String) (fields : Entries Value) (raw : List Char) :
    Phrase Definition := do
  blanks
  let tags ← annotations
  return ⟨functionName, fields, String.ofList (Body.tidy raw), tags⟩

def afterConfiguration (levels : Nat) (functionName : String) (fields : Entries Value) :
    Phrase Definition := do
  blanks
  let raw ← block levels
  afterBlock functionName fields raw

def afterName (levels : Nat) (functionName : String) : Phrase Definition := do
  blanks
  let fields ← configuration levels
  afterConfiguration levels functionName fields

def afterFunc (levels : Nat) : Phrase Definition := do
  blanks
  let functionName ← name
  afterName levels functionName

theorem script_afterFunc (levels : Nat) :
    script levels = blanks >>= fun _ => word .func >>= fun _ => afterFunc levels :=
  script_eq levels

theorem pos_of_script {w : List Char} {d : Definition} (h : script M w d) : 0 < M := by
  obtain ⟨_, _, _, _, _, _, _, _, _, _, h⟩ := h
  obtain ⟨_, _, _, _, _, _, _, _, _, _, h⟩ := h
  obtain ⟨_, _, _, _, _, _, _, _, _, h, _⟩ := h
  cases M with
  | zero => exact h.elim
  | succ n => exact n.succ_pos

theorem begins_configuration : ∀ n, (configuration n).Begins (· = '(')
  | 0 => fun _ _ h => h.elim
  | n + 1 => begins_object (value n)

theorem begins_afterBlock (functionName : String) (fields : Entries Value) (raw : List Char) :
    (afterBlock functionName fields raw).Begins fun c => IsBlank c ∨ c = '@' :=
  begins_blanks_bind (begins_annotations.bind _)

theorem begins_afterConfiguration (levels : Nat) (functionName : String) (fields : Entries Value) :
    (afterConfiguration levels functionName fields).Begins
      fun c => IsBlank c ∨ (CharClass.letter 'B').contains c = true :=
  begins_blanks_bind ((begins_block levels).bind _)

theorem begins_afterName (levels : Nat) (functionName : String) :
    (afterName levels functionName).Begins fun c => IsBlank c ∨ c = '(' :=
  begins_blanks_bind ((begins_configuration levels).bind _)

theorem viable_configuration (h : 0 < M) : (configuration M).Viable [] := by
  obtain ⟨n, rfl⟩ : ∃ n, M = n + 1 := ⟨M - 1, by omega⟩
  change (object (value n)).Viable []
  rw [object_eq]
  apply viable_map_iff.mpr
  rw [enclosed_eq]
  exact viable_nil_bind (viable_nil_symbol '(') fun _ => viable_nil_bind viable_nil_blanks fun _ =>
    viable_nil_either (viable_map_iff.mpr (viable_nil_symbol ')'))

theorem viable_block_nil (h : 0 < M) : (block M).Viable [] := by
  obtain ⟨n, rfl⟩ : ∃ n, M = n + 1 := ⟨M - 1, by omega⟩
  rw [block_succ]
  exact viable_nil_bind (Rule.viable_letters _) fun _ => viable_body_nil n

theorem viable_afterBlock (functionName : String) (fields : Entries Value) (raw : List Char) :
    (afterBlock functionName fields raw).Viable [] :=
  viable_nil_bind viable_nil_blanks fun _ => viable_map_iff.mpr viable_annotations

theorem viable_afterConfiguration (h : 0 < M) (functionName : String) (fields : Entries Value) :
    (afterConfiguration M functionName fields).Viable [] :=
  viable_nil_bind viable_nil_blanks fun _ => viable_nil_bind (viable_block_nil h)
    (viable_afterBlock functionName fields)

theorem viable_afterName (h : 0 < M) (functionName : String) :
    (afterName M functionName).Viable [] :=
  viable_nil_bind viable_nil_blanks fun _ => viable_nil_bind (viable_configuration h)
    (viable_afterConfiguration h functionName)

theorem viable_afterFunc (h : 0 < M) : (afterFunc M).Viable [] :=
  viable_nil_bind viable_nil_blanks fun _ => viable_nil_bind Rule.viable_name (viable_afterName h)

end Grammar

namespace Rule

open Phrase (not_blank_of)

theorem tries_described (key : String) : (do
    blanks
    let _ ← literal '='
    let text ← string
    return (key, text) : Rule (String × String)).Tries P Never (Grammar.described key) s := by
  have hv : (Phrase.blanks >>= fun _ => Grammar.string >>= fun text =>
      (pure (key, text) : Phrase (String × String))).Viable [] :=
    Phrase.viable_nil_bind Phrase.viable_nil_blanks fun _ => Phrase.viable_map_iff.mpr viable_string
  apply Tries.blanks_bind
  · exact ((Phrase.begins_symbol '=').bind _).mono fun c => not_blank_of (S := (· = '=')) (by decide)
  · exact Phrase.viable_nil_bind (Phrase.viable_nil_symbol '=') fun _ => hv
  · intro n _
    apply tries_one_bind (reads_literal '=')
    · intro _ m
      rw [← LawfulMonad.bind_assoc]
      exact reads_string.tries.map fun text => (key, text)
    · exact fun _ => hv
    · exact fun _ => (begins_blanks_bind (begins_string.bind _)).not_nil

theorem tries_metadata : (do
    let _ ← literal '@'
    let key ← name
    blanks
    let _ ← literal '='
    let text ← string
    return (key, text) : Rule (String × String)).Tries P Never Grammar.metadata s := by
  apply tries_one_bind (reads_literal '@')
  · intro _ _
    apply tries_name.bind_begins
    · exact fun _ _ key _ _ => tries_described key
    · exact Grammar.begins_described
    · exact fun _ => Grammar.not_goesOnName
    · exact fun _ => settled_name
    · exact Grammar.viable_described
  · exact fun _ => Phrase.viable_nil_bind viable_name Grammar.viable_described
  · exact fun _ => (begins_name.bind _).not_nil

theorem not_blank_at {c : Char} (h : c = '@') : ¬ IsBlank c :=
  not_blank_of (S := (· = '@')) (by decide) h

theorem reads_metadata :
    metadata.Reads P Never (Phrase.blanks >>= fun _ => Grammar.metadata) s := by
  apply Tries.attempt
  apply Tries.blanks_bind (Grammar.begins_metadata.mono fun _ => not_blank_at) Grammar.viable_metadata
  exact fun _ _ => tries_metadata

theorem settled_metadata : Grammar.metadata.Settled Never :=
  settled_of_tries fun _ => tries_metadata

theorem annotations_eq : annotations = attempt (metadata >>= fun first =>
    ending ';' (literal ',' >>= fun _ => metadata) >>= fun rest =>
      pure (Entries.ofList (first :: rest))) := by
  simp only [ending, close, LawfulMonad.bind_assoc, LawfulMonad.pure_bind]
  rfl

theorem reads_annotations :
    annotations.Reads P Never (Phrase.blanks >>= fun _ => Grammar.annotations) s := by
  rw [annotations_eq, Grammar.annotations_eq, ← LawfulMonad.bind_assoc]
  apply Tries.attempt
  apply reads_metadata.tries.bind_never
  · intro w y first _ _
    apply Tries.map
    apply tries_ending
    · intro k
      apply tries_one_bind (reads_literal ',')
      · exact fun _ _ => reads_metadata.tries
      · exact fun _ => Phrase.viable_nil_bind Phrase.viable_nil_blanks fun _ =>
          Grammar.viable_metadata
      · exact fun _ => (begins_blanks_bind Grammar.begins_metadata).not_nil
    · exact fun c h => h.elim
    · decide
    · decide
    · exact fun _ => settled_metadata
    · exact Grammar.begins_metadata.mono fun _ => not_blank_at
  · exact fun _ => settled_of_tries fun _ => reads_metadata.tries
  · exact fun _ => Phrase.viable_map_iff.mpr (Grammar.viable_ending ';' Grammar.metadata)
  · intro a b a' hb
    exact absurd hb (((Grammar.begins_ending _ _).bind _).not_nil b)

theorem tries_afterBlock (functionName : String) (fields : Entries Value) (raw : List Char) :
    (annotations >>= fun tags =>
      pure ⟨functionName, fields, String.ofList (Body.tidy raw), tags⟩ : Rule Definition).Tries
        P Never (Grammar.afterBlock functionName fields raw) s := by
  rw [Grammar.afterBlock, ← LawfulMonad.bind_assoc]
  exact reads_annotations.tries.map _

theorem tries_afterConfiguration (h : 0 < M) (hM : Ample M s) (hP : P → Roomy s)
    (functionName : String) (fields : Entries Value) :
    (blanks >>= fun _ => block >>= fun span => slice span >>= fun raw => annotations >>= fun tags =>
      pure ⟨functionName, fields, String.ofList (Body.tidy raw), tags⟩ : Rule Definition).Tries
        P Never (Grammar.afterConfiguration M functionName fields) s := by
  apply Tries.blanks_bind
  · apply ((begins_block M).bind _).mono
    exact fun c => not_blank_of (S := ((CharClass.letter 'B').contains · = true)) (by decide)
  · exact Phrase.viable_nil_bind (Grammar.viable_block_nil h)
      (Grammar.viable_afterBlock functionName fields)
  · intro n _
    rw [← LawfulMonad.bind_assoc]
    apply (reads_block (hM.moved n) fun p => (hP p).moved n).tries.bind_never
    · exact fun _ _ raw _ _ => tries_afterBlock functionName fields raw
    · exact fun _ => settled_block M
    · exact Grammar.viable_afterBlock functionName fields
    · exact fun a b _ hb => absurd hb ((Grammar.begins_afterBlock _ _ a).not_nil b)

theorem settled_configuration (n : Nat) : (Grammar.configuration n).Settled Never := by
  apply settled_of_reading
  intro x fields hx
  have hs : Solid x := by
    obtain ⟨c, t, rfl, rfl⟩ := Grammar.begins_configuration n x fields hx
    rintro d r ⟨⟩
    decide
  obtain ⟨o, _, _, hr⟩ := reads_configuration (P := False) (M := n)
    (s := { text := x.toArray, limit := n }) (.inl rfl) False.elim (by simpa [State.rest] using hs)
  exact ⟨_, o, by simpa [State.rest] using hr⟩

theorem tries_afterName (h : 0 < M) (hM : Ample M s) (hP : P → Roomy s) (functionName : String) :
    (blanks >>= fun _ => object value >>= fun fields => blanks >>= fun _ => block >>= fun span =>
      slice span >>= fun raw => annotations >>= fun tags =>
        pure ⟨functionName, fields, String.ofList (Body.tidy raw), tags⟩ : Rule Definition).Tries
          P Never (Grammar.afterName M functionName) s := by
  apply Tries.blanks_bind
  · apply ((Grammar.begins_configuration M).bind _).mono
    exact fun c => not_blank_of (S := (· = '(')) (by decide)
  · exact Phrase.viable_nil_bind (Grammar.viable_configuration h)
      (Grammar.viable_afterConfiguration h functionName)
  · intro n hs
    apply (reads_configuration (hM.moved n) (fun p => (hP p).moved n) hs).tries.bind_never
    · intro w y fields _ _
      rw [State.moved_moved]
      exact tries_afterConfiguration h (hM.moved _) (fun p => (hP p).moved _) functionName fields
    · exact fun _ => settled_configuration M
    · exact Grammar.viable_afterConfiguration h functionName
    · exact fun a b _ hb => absurd hb ((Grammar.begins_afterConfiguration M _ a).not_nil b)

theorem tries_afterFunc (h : 0 < M) (hM : Ample M s) (hP : P → Roomy s) :
    (blanks >>= fun _ => name >>= fun functionName => blanks >>= fun _ => object value >>=
      fun fields => blanks >>= fun _ => block >>= fun span => slice span >>= fun raw =>
        annotations >>= fun tags => pure ⟨functionName, fields, String.ofList (Body.tidy raw), tags⟩ :
          Rule Definition).Tries P Never (Grammar.afterFunc M) s := by
  apply Tries.blanks_bind
  · apply (begins_name.bind _).mono
    exact fun c => not_blank_of (S := (CharClass.nameStart.contains · = true)) (by decide)
  · exact Phrase.viable_nil_bind viable_name (Grammar.viable_afterName h)
  · intro n _
    apply tries_name.bind_begins
    · intro w y functionName _ _
      rw [State.moved_moved]
      exact tries_afterName h (hM.moved _) (fun p => (hP p).moved _) functionName
    · exact Grammar.begins_afterName M
    · rintro c hc (hb | rfl)
      · exact Grammar.not_goesOnName hc (.inl hb)
      · exact absurd hc (by decide)
    · exact fun _ => settled_name
    · exact Grammar.viable_afterName h

theorem reads_definition (h : 0 < M) (hM : Ample M s) (hP : P → Roomy s) :
    definition.Reads P Never (Grammar.script M) s := by
  rw [Grammar.script_afterFunc]
  apply Tries.attempt
  apply Tries.blanks_bind
  · apply ((begins_word rfl).bind _).mono
    exact fun c => not_blank_of (S := ((CharClass.letter 'F').contains · = true)) (by decide)
  · exact Phrase.viable_nil_bind (viable_letters _) fun _ => Grammar.viable_afterFunc h
  · intro n _
    apply (reads_keyword .func).tries.bind_never
    · intro w y _ _ _
      rw [State.moved_moved]
      exact tries_afterFunc h (hM.moved _) fun p => (hP p).moved _
    · exact fun _ => settled_word .func
    · exact fun _ => Grammar.viable_afterFunc h
    · exact fun _ b _ hb => ⟨b, hb⟩

def Refuses {α : Type} (r : Rule α) (s : State) : Prop :=
  ∃ o, r.Gives s o ∧ o.found = none ∧ o.notes ≠ []

theorem Refuses.bind {α β : Type} {r : Rule α} {f : α → Rule β} (h : r.Refuses s) :
    (r >>= f).Refuses s := by
  obtain ⟨⟨_, j, notes⟩, hg, rfl, hn⟩ := h
  exact ⟨_, hg.bind_none, rfl, hn⟩

theorem Refuses.attempt {α : Type} {r : Rule α} (h : r.Refuses s) : (attempt r).Refuses s := by
  obtain ⟨o, hg, hf, hn⟩ := h
  exact ⟨_, hg.attempt, hf, hn⟩

theorem Refuses.behind_blanks {α : Type} {r : Rule α} (h : ∀ n, r.Refuses (s.moved n)) :
    (blanks >>= fun _ => r).Refuses s := by
  obtain ⟨o, hg, hf, hn⟩ := h (s.rest.takeWhile CharClass.whitespace.contains).length
  exact ⟨_, (gives_blanks s).bind_some (f := fun _ => r) hg, hf, hn⟩

theorem Tries.refuses_bind {α β : Type} {K : Char → Prop} {r : Rule α} {L : Phrase α}
    {f : α → Rule β} (h : r.Tries P K L s) (hf : ∀ a n, (f a).Refuses (s.moved n)) :
    (r >>= f).Refuses s := by
  obtain ⟨⟨found, j, notes⟩, hg, hn, hr⟩ := h
  cases found with
  | none => exact ⟨_, hg.bind_none, rfl, hn rfl⟩
  | some a =>
    obtain ⟨w, _, _, _, hj⟩ := hr.sound a rfl
    simp only at hj
    subst hj
    obtain ⟨o, ho, hnone, hne⟩ := hf a w.length
    exact ⟨_, hg.bind_some ho, hnone, by simp [hne]⟩

theorem refuses_definition (h : s.limit ≤ s.depth) : definition.Refuses s := by
  apply Refuses.attempt
  apply Refuses.behind_blanks
  intro n
  apply (reads_keyword (P := False) .func).tries.refuses_bind
  intro _ m
  apply Refuses.behind_blanks
  intro k
  apply (tries_name (P := False)).refuses_bind
  intro _ l
  apply Refuses.behind_blanks
  intro j
  apply Refuses.bind
  apply Refuses.bind (r := enclosed '(' ')' (pair value))
  exact ⟨_, gives_refused h, rfl, by simp⟩

theorem settled_script (n : Nat) : (Grammar.script n).Settled Never := by
  apply settled_of_reading
  intro x d hx
  obtain ⟨o, _, _, hr⟩ := reads_definition (P := False) (Grammar.pos_of_script hx)
    (s := { text := x.toArray, limit := n }) (.inl rfl) False.elim
  exact ⟨_, o, by simpa [State.rest] using hr⟩

end Rule

end FuncScript
